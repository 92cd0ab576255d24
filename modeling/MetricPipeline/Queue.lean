import MetricPipeline.Buffer

namespace MetricPipeline

inductive Refusal
  | full
  | closed
deriving DecidableEq, Repr

def Refusal.text : Refusal → String
  | full => "queue full"
  | closed => "queue closed"

structure Queue where
  bound : Nat
  /-- The payloads in line, oldest first. -/
  waiting : List Buffer := []
  /-- Whether somebody is left to take payloads. -/
  isOpen : Bool := true
deriving DecidableEq, Repr

namespace Queue

def length (q : Queue) : Nat := q.waiting.length

def isFull (q : Queue) : Bool := q.bound ≤ q.length

def offer (q : Queue) (b : Buffer) : Except Refusal Queue :=
  if !q.isOpen then .error .closed
  else if q.isFull then .error .full
  else .ok { q with waiting := q.waiting ++ [b] }

/-- A payload that is taken in gets in line behind all others. -/
theorem waiting_of_offer {q q' : Queue} {b : Buffer} (h : q.offer b = .ok q') :
    q'.waiting = q.waiting ++ [b] := by
  unfold offer at h
  split at h
  · cases h
  · split at h
    · cases h
    · cases h
      rfl

def take (q : Queue) : Option (Buffer × Queue) :=
  match q.waiting with
  | [] => none
  | b :: rest => some (b, { q with waiting := rest })

/-- Nobody takes payloads any more, and those in line are lost. -/
def close (q : Queue) : Queue := { q with waiting := [], isOpen := false }

end Queue
end MetricPipeline
