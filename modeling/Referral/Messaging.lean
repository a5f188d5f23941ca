import Referral.Config
import Referral.Subject

/-!
# Messaging

Where messages are sent: the servers, the name of the client, its patience, and the root of all
subjects.
-/

namespace Referral

/-- The settings of the connection. -/
structure Messaging where
  servers : List String
  clientName : String
  connectTimeout : Duration
  requestTimeout : Duration
  root : String
deriving DecidableEq

namespace Messaging

/-- The settings where nothing else is said. -/
def default : Messaging where
  servers := ["nats://localhost:4222"]
  clientName := "cim-referral"
  connectTimeout := .ofSeconds 10
  requestTimeout := .ofSeconds 5
  root := Subjects.defaultRoot

/-- The servers of a list with commas, without blanks around each. -/
def splitServers (list : String) : List String :=
  (Text.splitAll ',' list.toList).map fun server => String.ofList (Text.trim server)

/-- The settings that an environment asks for. -/
def ofEnvironment (env : Environment) : Messaging :=
  { default with
    servers := ((env "NATS_URL").map splitServers).getD default.servers
    clientName := (env "NATS_CLIENT_NAME").getD default.clientName
    root := (env "REFERRAL_SUBJECT_PREFIX").getD default.root }

/-- The subjects under the root. -/
def subjects (m : Messaging) : Subjects := ⟨m.root⟩

end Messaging

end Referral
