import Referral.Messaging
import Referral.Wire.Value

/-!
# Settings on the wire

Limits that are left out have their defaults; the settings of the connection are given in full.
-/

namespace Referral

namespace Config

/-- The wire form. -/
def toJson (c : Config) : Json :=
  .obj [("max_cascade_depth", .ofNat c.maxDepth.val),
    ("commission_precision", .ofNat c.precision.toNat),
    ("rebuild_timeout", c.rebuildTimeout.toJson),
    ("rebuild_batch_size", .ofNat c.batchSize.toNat),
    ("commit_retries", .ofNat c.commitRetries.toNat),
    ("commit_retry_backoff", c.retryBackoff.toJson)]

/-- Reads the wire form; settings that are left out have their defaults. -/
def ofJson? (j : Json) : Option Config := do
  let f ← Fields.of? ["max_cascade_depth", "commission_precision", "rebuild_timeout",
    "rebuild_batch_size", "commit_retries", "commit_retry_backoff"] j
  let maxDepth ← f.withDefault "max_cascade_depth" default.maxDepth Json.depth?
  let precision ← f.withDefault "commission_precision" default.precision Json.word?
  let rebuildTimeout ← f.withDefault "rebuild_timeout" default.rebuildTimeout Duration.ofJson?
  let batchSize ← f.withDefault "rebuild_batch_size" default.batchSize Json.long?
  let commitRetries ← f.withDefault "commit_retries" default.commitRetries Json.word?
  let retryBackoff ← f.withDefault "commit_retry_backoff" default.retryBackoff Duration.ofJson?
  some ⟨maxDepth, precision, rebuildTimeout, batchSize, commitRetries, retryBackoff⟩

end Config

namespace Messaging

/-- The wire form. -/
def toJson (m : Messaging) : Json :=
  .obj [("servers", .ofList .str m.servers), ("name", .str m.clientName),
    ("connect_timeout", m.connectTimeout.toJson), ("request_timeout", m.requestTimeout.toJson),
    ("subject_prefix", .str m.root)]

/-- Reads the wire form. -/
def ofJson? (j : Json) : Option Messaging := do
  let f ← Fields.of? ["servers", "name", "connect_timeout", "request_timeout", "subject_prefix"] j
  let servers ← f.required "servers" (Json.listOf? Json.string?)
  let clientName ← f.required "name" Json.string?
  let connectTimeout ← f.required "connect_timeout" Duration.ofJson?
  let requestTimeout ← f.required "request_timeout" Duration.ofJson?
  let root ← f.required "subject_prefix" Json.string?
  some ⟨servers, clientName, connectTimeout, requestTimeout, root⟩

end Messaging

/-- Reads the variables that are set, each with its text. -/
def Environment.ofJson? (j : Json) : Option Environment := do
  let members ← j.members?
  let settings ← members.mapM fun (name, value) => value.string?.map ((name, ·))
  some fun name => (settings.find? (·.1 = name)).map (·.2)

end Referral
