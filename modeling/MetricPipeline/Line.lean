import MetricPipeline.Metric

namespace MetricPipeline

inductive Rejection
  | emptyName
  | emptyValues (name : String)
  | nonFiniteValue (name : String)
deriving DecidableEq, Repr

def Rejection.message : Rejection → String
  | emptyName => "metric name cannot be empty"
  | emptyValues name => s!"aggregated metric '{name}' has no values"
  | nonFiniteValue name => s!"metric '{name}' has a non-finite value"

/-- What stands before and after the points of a line. It is the same for all lines of a metric, so
that a batch can be cut between any two points. -/
structure Frame where
  header : Bytes := []
  trailer : Bytes := []
deriving DecidableEq, Repr

namespace Frame

def values (points : List Bytes) : Bytes := points.flatMap (ascii ":" ++ ·)

def line (f : Frame) (points : List Bytes) : Bytes :=
  f.header ++ values points ++ f.trailer

def size (f : Frame) : Nat := f.header.length + f.trailer.length

end Frame

def Kind.marker : Kind → Bytes
  | gauge => ascii "|g"
  | count => ascii "|c"
  | histogram => ascii "|h"
  | distribution => ascii "|d"
  | set => ascii "|s"
  | timing => ascii "|ms"

def rateSection (rate : Binary64) : Bytes :=
  if rate.lt .one then ascii "|@" ++ utf8 rate.shortestText else []

/-- The tags with a comma between them. An empty tag still takes its place. -/
def tagSection : List String → Bytes
  | [] => []
  | tag :: tags => ascii "|#" ++ written tag ++ tags.flatMap fun t => ascii "," ++ written t

namespace Metric

/-- A name of nothing but newlines would be empty in the line. -/
def rejection? (m : Metric) : Option Rejection :=
  if oneLine m.name = [] then some .emptyName
  else if m.value.size = 0 then some (.emptyValues m.name)
  else if m.value.numbers.any (!·.isFinite) then some (.nonFiniteValue m.name)
  else none

def header (m : Metric) : Bytes := written m.scope ++ written m.name

def trailer (m : Metric) : Bytes :=
  m.value.kind.marker ++ rateSection m.rate ++ tagSection m.writtenTags ++ [newline]

def frame (m : Metric) : Frame := ⟨m.header, m.trailer⟩

def prepare (m : Metric) : Except Rejection Frame :=
  match m.rejection? with
  | some r => .error r
  | none => .ok m.frame

end Metric

/-- Turns to metric `m`: its frame if it can be written, and otherwise the frame as it was. -/
def Frame.prepare (f : Frame) (m : Metric) : Except Rejection Unit × Frame :=
  match m.prepare with
  | .error r => (.error r, f)
  | .ok g => (.ok (), g)

end MetricPipeline
