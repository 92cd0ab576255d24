import MetricPipeline.Line

namespace MetricPipeline

structure Limits where
  length : Nat
  lines : Nat
deriving DecidableEq, Repr

/-- More lines than any payload has. -/
def Limits.anyLines : Nat := UInt64.size - 1

structure Buffer where
  limits : Limits
  /-- Whether it goes back to its pool after use. -/
  tracked : Bool
  /-- Tells the tracked buffers of a pool apart, by how many were made before. -/
  number : Nat
  bytes : Bytes
  lines : Nat
deriving DecidableEq, Repr

def Buffer.reset (b : Buffer) : Buffer := { b with bytes := [], lines := 0 }

/-- A buffer with nothing in it. -/
structure Blank where
  ofBuffer ::
  buffer : Buffer
  bytes_nil : buffer.bytes = []
  lines_zero : buffer.lines = 0
deriving DecidableEq, Repr

attribute [simp] Blank.bytes_nil Blank.lines_zero

namespace Blank

def mk (limits : Limits) (tracked : Bool) (number : Nat := 0) : Blank :=
  ofBuffer ⟨limits, tracked, number, [], 0⟩ rfl rfl

def limits (k : Blank) : Limits := k.buffer.limits

def tracked (k : Blank) : Bool := k.buffer.tracked

end Blank

inductive Written
  | full
  | part (points : Nat)
  | complete
deriving DecidableEq, Repr

namespace Buffer

/-- A buffer just large enough for one line that no pooled buffer can hold. -/
def alone (line : Bytes) : Buffer := ⟨⟨line.length, 1⟩, false, 0, line, 1⟩

/-- A buffer without room, in place of one that was given away. -/
def detached : Buffer := ⟨⟨0, 0⟩, false, 0, [], 0⟩

def length (b : Buffer) : Nat := b.bytes.length

def isEmpty (b : Buffer) : Bool := b.bytes.isEmpty

@[simp] theorem isEmpty_blank (k : Blank) : k.buffer.isEmpty = true := by simp [isEmpty]

def remaining (b : Buffer) : Nat := b.limits.length - b.length

def hasLineRoom (b : Buffer) : Bool := b.lines < b.limits.lines

def fits (b : Buffer) (n : Nat) : Bool := n ≤ b.remaining

def append (b : Buffer) (line : Bytes) : Buffer :=
  { b with bytes := b.bytes ++ line, lines := b.lines + 1 }

/-- How many points from the front take up at most `room` bytes, with their colons. -/
def fitting : Nat → List Bytes → Nat
  | _, [] => 0
  | room, p :: ps => if p.length + 1 ≤ room then fitting (room - (p.length + 1)) ps + 1 else 0

theorem fitting_le (room : Nat) (ps : List Bytes) : fitting room ps ≤ ps.length := by
  induction ps generalizing room with
  | nil => simp [fitting]
  | cons p ps ih => simp only [fitting]; split <;> simp [ih]

def room (b : Buffer) (f : Frame) (points : List Bytes) : Nat :=
  if b.hasLineRoom && b.fits f.size then fitting (b.remaining - f.size) points else 0

/-- Adds one line with the longest run of points from the front that fits. -/
def write (b : Buffer) (f : Frame) (points : List Bytes) : Written × Buffer :=
  match b.room f points with
  | 0 => (.full, b)
  | n + 1 =>
    (if n + 1 = points.length then .complete else .part (n + 1),
      b.append (f.line (points.take (n + 1))))

theorem room_le (b : Buffer) (f : Frame) (ps : List Bytes) : b.room f ps ≤ ps.length := by
  simp only [room]; split
  · exact fitting_le _ _
  · exact Nat.zero_le _

theorem write_part_pos {b b' : Buffer} {f : Frame} {ps : List Bytes} {n : Nat}
    (h : b.write f ps = (.part n, b')) : 0 < n := by
  simp only [write] at h
  split at h
  · simp at h
  · split at h
    · simp at h
    · simp only [Prod.mk.injEq, Written.part.injEq] at h
      omega

end Buffer
end MetricPipeline
