import MetricPipeline.Text
import MetricPipeline.Number.Shortest

namespace MetricPipeline

inductive Kind
  | gauge | count | histogram | distribution | set | timing
deriving DecidableEq, Repr

/-- What was measured. A batch holds samples collected beforehand, their tags already joined. -/
inductive Value
  | gauge (level : Binary64)
  | count (delta : Int64)
  | histogram (sample : Binary64)
  | distribution (sample : Binary64)
  | set (member : String)
  | timing (milliseconds : Binary64)
  | histogramBatch (samples : List Binary64) (tags : String)
  | distributionBatch (samples : List Binary64) (tags : String)
deriving DecidableEq, Repr

namespace Value

def kind : Value → Kind
  | gauge _ => .gauge
  | count _ => .count
  | histogram _ | histogramBatch .. => .histogram
  | distribution _ | distributionBatch .. => .distribution
  | set _ => .set
  | timing _ => .timing

def numbers : Value → List Binary64
  | gauge v | histogram v | distribution v | timing v => [v]
  | histogramBatch vs _ | distributionBatch vs _ => vs
  | count _ | set _ => []

def joinedTags? : Value → Option String
  | histogramBatch _ tags | distributionBatch _ tags => some tags
  | _ => none

def isBatch (v : Value) : Bool := v.joinedTags?.isSome

/-- How many points the value has. Only a batch can have none, or more than one. -/
def size : Value → Nat
  | histogramBatch vs _ | distributionBatch vs _ => vs.length
  | _ => 1

def points : Value → List Bytes
  | gauge v | histogram v | distribution v => [utf8 v.shortestText]
  | count n => [utf8 (integerText n.toInt)]
  | set member => [written member]
  | timing v => [utf8 v.sixPlacesText]
  | histogramBatch vs _ | distributionBatch vs _ => vs.map fun v => utf8 v.shortestText

theorem length_points (v : Value) : v.points.length = v.size := by
  cases v <;> simp [points, size]

/-- Point `i` as written. A single point answers to every index. -/
def point? (v : Value) (i : Nat) : Option Bytes :=
  if v.isBatch then v.points[i]? else v.points.head?

theorem point?_eq_getElem? {v : Value} {i : Nat} (h : i < v.size) : v.point? i = v.points[i]? := by
  unfold point?
  split
  · rfl
  · rename_i hb
    have hs : v.size = 1 := by cases v <;> first | rfl | simp [isBatch, joinedTags?] at hb
    obtain rfl : i = 0 := by omega
    exact List.head?_eq_getElem?

theorem isSome_point? {v : Value} {i : Nat} (h : i < v.size) : (v.point? i).isSome = true := by
  rw [point?_eq_getElem? h, List.getElem?_eq_getElem (v.length_points ▸ h), Option.isSome_some]

def point (v : Value) (i : Nat) (h : i < v.size) : Bytes := (v.point? i).get (isSome_point? h)

theorem drop_points {v : Value} {i : Nat} (h : i < v.size) :
    v.points.drop i = v.point i h :: v.points.drop (i + 1) := by
  have hi : i < v.points.length := v.length_points ▸ h
  have hp : v.point i h = v.points[i] := by
    simp only [point, point?_eq_getElem? h, List.getElem?_eq_getElem hi, Option.get_some]
  rw [hp]
  exact List.drop_eq_getElem_cons hi

end Value

structure Metric where
  name : String
  value : Value
  /-- Written right before the name. -/
  scope : String := ""
  globalTags : List String := []
  tags : List String := []
  rate : Binary64 := Binary64.one
deriving DecidableEq, Repr

namespace Metric

/-- The tags to write, in order. A batch brings its own joined ones instead of the metric's. -/
def writtenTags (m : Metric) : List String :=
  m.globalTags ++
    match m.value.joinedTags? with
    | none => m.tags
    | some joined => if joined = "" then [] else [joined]

end Metric

structure Duration where
  seconds : Nat
  nanoseconds : Nat
deriving DecidableEq, Repr

def Duration.aSecond : Nat := 1000000000

/-- The span in milliseconds: seconds, fraction, their sum and the product each rounded. -/
def Duration.milliseconds (d : Duration) : Binary64 :=
  let whole := Binary64.nearest (d.seconds + d.nanoseconds / aSecond) 1
  let part := Binary64.nearest (d.nanoseconds % aSecond) aSecond
  (whole.plus part).scale 1000

end MetricPipeline
