import Referral.Error
import Referral.Money
import Referral.Time.Duration

/-!
# Configuration

The limits under which rules are evaluated, units of work committed and totals rebuilt. Each setting
has a default and may be set by a variable of the environment.
-/

namespace Referral

/-- The settings. -/
structure Config where
  /-- The deepest level at which an event is dispatched. -/
  maxDepth : Depth
  /-- The places to which commissions are rounded. -/
  precision : UInt32
  /-- How long a rebuild in the background may take. -/
  rebuildTimeout : Duration
  /-- How many events a rebuild reads at once. -/
  batchSize : UInt64
  /-- How often a commit is tried again. -/
  commitRetries : UInt32
  /-- The wait before the first retry; it doubles from one to the next. -/
  retryBackoff : Duration
deriving DecidableEq

namespace Config

/-- The settings where nothing else is said. -/
def default : Config where
  maxDepth := 2
  precision := 2
  rebuildTimeout := .ofSeconds 30
  batchSize := 512
  commitRetries := 3
  retryBackoff := .ofMillis 50

instance : Inhabited Config := ⟨default⟩

/-- Refuses more places than amounts have, and batches without events. -/
def validate (c : Config) : Except Error Unit :=
  if Money.places < c.precision.toNat then
    .error (.configuration ("commission_precision " ++ toString c.precision.toNat ++ " exceeds " ++
      toString Money.places ++ " decimal places"))
  else if c.batchSize = 0 then
    .error (.configuration "rebuild_batch_size must be positive")
  else .ok ()

/-- The factor by which the wait before a retry has grown, at most 2 ^ 32 - 1. -/
def backoffFactor (attempt : Nat) : Nat :=
  if 32 < attempt then 4294967295 else Nat.pow 2 (attempt - 1)

/-- The wait before a retry, counted from one. -/
def backoff (c : Config) (attempt : Nat) : Duration := c.retryBackoff.times (backoffFactor attempt)

end Config

/-- The variables that are set. -/
abbrev Environment := String → Option String

namespace Environment

/-- The number that a variable is set to, at most `limit`; the default if it is not set. -/
def number (env : Environment) (name : String) (limit default : Nat) : Except Error Nat :=
  match env name with
  | none => .ok default
  | some raw =>
    match Text.readUnsigned? limit raw.toList with
    | some n => .ok n
    | none => .error (.configuration (name ++ " has invalid value '" ++ raw ++ "'"))

/-- A number of 64 bits. -/
def long (env : Environment) (name : String) (default : UInt64) : Except Error UInt64 :=
  (env.number name 18446744073709551615 default.toNat).map UInt64.ofNat

/-- A number of 32 bits. -/
def word (env : Environment) (name : String) (default : UInt32) : Except Error UInt32 :=
  (env.number name 4294967295 default.toNat).map UInt32.ofNat

end Environment

/-- The settings that an environment asks for. -/
def Config.ofEnvironment (env : Environment) : Except Error Config := do
  let maxDepth ← env.number "REFERRAL_MAX_CASCADE_DEPTH" 255 default.maxDepth.val
  let precision ← env.word "REFERRAL_COMMISSION_PRECISION" default.precision
  let timeout ← env.long "REFERRAL_REBUILD_TIMEOUT_SECS" 30
  let batchSize ← env.long "REFERRAL_REBUILD_BATCH_SIZE" default.batchSize
  let commitRetries ← env.word "REFERRAL_COMMIT_RETRIES" default.commitRetries
  let backoff ← env.long "REFERRAL_COMMIT_RETRY_BACKOFF_MS" 50
  let config : Config :=
    ⟨Fin.ofNat 256 maxDepth, precision, .ofSeconds timeout, batchSize, commitRetries,
      .ofMillis backoff⟩
  config.validate
  return config

end Referral
