import MetricPipeline.Buffer

namespace MetricPipeline

/-- What lines are put together with: the frame of the last metric, and bytes that serve for the
points of every line. -/
structure Encoder where
  frame : Frame := {}
  scratch : Bytes := []
deriving DecidableEq, Repr

namespace Encoder

def clear (e : Encoder) : Encoder := { e with scratch := [] }

def push (e : Encoder) (point : Bytes) : Encoder :=
  { e with scratch := e.scratch ++ ascii ":" ++ point }

def truncate (e : Encoder) (length : Nat) : Encoder := { e with scratch := e.scratch.take length }

def line (e : Encoder) : Bytes := e.frame.header ++ e.scratch ++ e.frame.trailer

/-- Adds the points from `i` on, and counts them. Each is added before it is known whether the line
still fits, and is taken off again if it does not. -/
def gather (e : Encoder) (b : Buffer) (v : Value) (i : Nat) : Nat × Encoder :=
  if h : i < v.size then
    let longer := e.push (v.point i h)
    if b.fits (e.frame.size + longer.scratch.length) then
      let (n, e) := longer.gather b v (i + 1)
      (n + 1, e)
    else (0, longer.truncate e.scratch.length)
  else (0, e)
termination_by v.size - i

def writePoints (e : Encoder) (b : Buffer) (v : Value) (start : Nat) :
    Written × Buffer × Encoder :=
  if b.hasLineRoom then
    match e.clear.gather b v start with
    | (0, e) => (.full, b, e)
    | (n + 1, e) =>
      (if start + (n + 1) = v.size then .complete else .part (n + 1), b.append e.line, e)
  else (.full, b, e)

def renderSingle (e : Encoder) (v : Value) (i : Nat) : Option (Bytes × Encoder) :=
  (v.point? i).map fun point =>
    let e := e.clear.push point
    (e.line, e)

end Encoder
end MetricPipeline
