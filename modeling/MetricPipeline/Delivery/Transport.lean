import MetricPipeline.Text

namespace MetricPipeline

inductive Outcome
  /-- Taken, with the number of bytes that the transport says it wrote. -/
  | sent (bytes : Nat)
  | failed
  /-- The worker that was sending did not survive it. -/
  | crashed
deriving DecidableEq, Repr

class Transport (τ : Type) where
  send : Bytes → τ → Outcome × τ
  label : τ → String

def occursIn (mark : Bytes) : Bytes → Bool
  | [] => mark.isEmpty
  | b :: bs => mark.isPrefixOf (b :: bs) || occursIn mark bs

/-- A transport in memory that keeps every payload. Marks in a payload make its sending go wrong. -/
structure Recording where
  payloads : List Bytes := []
deriving DecidableEq, Repr

namespace Recording

def outcome (payload : Bytes) : Outcome :=
  if occursIn (ascii "PANIC") payload then .crashed
  else if occursIn (ascii "FAIL") payload then .failed
  else if occursIn (ascii "SHORT") payload then .sent 0
  else .sent payload.length

end Recording

instance : Transport Recording where
  send payload r := (Recording.outcome payload, ⟨r.payloads ++ [payload]⟩)
  label _ := "custom"

end MetricPipeline
