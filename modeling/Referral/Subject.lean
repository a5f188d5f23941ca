import Referral.Id

/-!
# Subjects

Messages go under subjects made of a common root, a program and a topic, divided by points.
-/

namespace Referral

/-- What a message is about. -/
inductive Topic
  | ingest
  | commissionGenerated
  | circleSwitched
deriving DecidableEq

/-- The written form of a topic. -/
def Topic.text : Topic → String
  | ingest => "events.ingest"
  | commissionGenerated => "commission.generated"
  | circleSwitched => "circle.switched"

/-- The subjects under a root. -/
structure Subjects where
  root : String
deriving DecidableEq

namespace Subjects

/-- The root where nothing else is said. -/
def defaultRoot : String := "referral"

/-- The subject of a topic in a program. -/
def subject (s : Subjects) (program : ProgramId) (topic : Topic) : String :=
  s.root ++ "." ++ program.display ++ "." ++ topic.text

/-- The pattern of a topic in all programs. -/
def topicPattern (s : Subjects) (topic : Topic) : String := s.root ++ ".*." ++ topic.text

/-- The pattern of all topics in a program. -/
def programPattern (s : Subjects) (program : ProgramId) : String :=
  s.root ++ "." ++ program.display ++ ".>"

/-- The pattern of inbound events of all programs. -/
def ingestPattern (s : Subjects) : String := s.topicPattern .ingest

/-- The program of a subject under the root. -/
def programOf? (s : Subjects) (subject : String) : Option ProgramId := do
  let rest ← Text.dropLead? s.root.toList subject.toList
  let rest ← Text.dropLead? ['.'] rest
  let (program, _) ← Text.cutAt? '.' rest
  Id.read? program

end Subjects

end Referral
