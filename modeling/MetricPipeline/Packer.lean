import MetricPipeline.Outbox
import MetricPipeline.Sampling

namespace MetricPipeline

structure Packer where
  /-- The frame of the last metric that could be written. -/
  frame : Frame := {}
  current : Buffer
deriving DecidableEq, Repr

namespace Packer

variable {σ ω : Type} [WordSource σ] [Outlet ω]

def create (w : ω) : Packer × ω :=
  let (blank, w) := Outlet.borrow w
  ({ current := blank.buffer }, w)

/-- Hands over a full buffer. The blank that replaces it is borrowed first. -/
def replace (b : Buffer) (w : ω) : Blank × ω :=
  let (blank, w) := Outlet.borrow w
  (blank, Outlet.enqueue b w)

def sendAlone (name : String) (line : Bytes) (b : Buffer) (w : ω) : ω :=
  let w := Outlet.remark (.oversized name line.length b.limits.length) w
  Outlet.enqueue (Buffer.alone line) (Outlet.record .oversized w)

/-- One round of packing: writes what fits of the points into `b`. What is left of them comes with
the buffer to go on with. -/
def round (name : String) (f : Frame) (points : List Bytes) (b : Buffer) (w : ω) :
    List Bytes × Buffer × ω :=
  match b.write f points with
  | (.complete, b) => ([], b, w)
  | (.part n, b) =>
    let (blank, w) := replace b w
    (points.drop n, blank.buffer, w)
  | (.full, _) =>
    if b.isEmpty then (points.drop 1, b, sendAlone name (f.line (points.take 1)) b w)
    else
      let (blank, w) := replace b w
      (points, blank.buffer, w)

/-- A round leaves fewer points, or as many with a blank buffer in place of one in use. -/
theorem round_decreases (name : String) (f : Frame) {points : List Bytes} (b : Buffer) (w : ω)
    (h : points ≠ []) :
    (round name f points b w).1.length < points.length ∨
      (round name f points b w).1.length = points.length ∧ b.isEmpty = false ∧
        (round name f points b w).2.1.isEmpty = true := by
  have hp : 0 < points.length := List.length_pos_iff.mpr h
  unfold round
  split
  · exact Or.inl hp
  · rename_i n b' hw
    have hn := Buffer.write_part_pos hw
    refine Or.inl ?_
    simp only [List.length_drop]
    omega
  · split
    · refine Or.inl ?_
      simp only [List.length_drop]
      omega
    · rename_i hb
      exact Or.inr ⟨rfl, by simpa using hb, Buffer.isEmpty_blank _⟩

def pack (name : String) (f : Frame) (points : List Bytes) (b : Buffer) (w : ω) : Buffer × ω :=
  if _h : points = [] then (b, w)
  else
    match _hr : round name f points b w with
    | (rest, next, w') => pack name f rest next w'
termination_by (points.length, if b.isEmpty then 0 else 1)
decreasing_by
  have hd := round_decreases name f b w _h
  rw [_hr] at hd
  rcases hd with hd | ⟨hl, hb, hn⟩
  · exact Prod.Lex.left _ _ hd
  · simp only [hl, hb, hn]
    exact Prod.Lex.right _ (by decide)

def accept (p : Packer) (m : Metric) (w : ω) : Except Rejection Unit × Packer × ω :=
  match p.frame.prepare m with
  | (.error r, frame) => (.error r, { p with frame }, Outlet.record .rejected w)
  | (.ok (), frame) =>
    let points := m.value.points
    let (current, w) := pack m.name frame points p.current w
    (.ok (), { frame, current }, Outlet.record (.points m.value.kind points.length.toUInt64) w)

/-- Takes in a metric. One that is not sampled leaves no trace but its count. -/
def process (p : Packer) (m : Metric) (s : σ) (w : ω) : Except Rejection Unit × Packer × σ × ω :=
  match decideSample m.rate s with
  | (false, s) => (.ok (), p, s, Outlet.record .sampledOut w)
  | (true, s) =>
    let (result, p, w) := p.accept m w
    (result, p, s, w)

def flush (p : Packer) (w : ω) : Packer × ω :=
  if p.current.isEmpty then (p, w)
  else
    let (blank, w) := replace p.current w
    ({ p with current := blank.buffer }, w)

def retire (p : Packer) (w : ω) : ω := Outlet.enqueue p.current w

end Packer
end MetricPipeline
