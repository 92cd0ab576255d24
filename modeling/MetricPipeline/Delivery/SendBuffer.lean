namespace MetricPipeline

/-- How a system holds data on a local socket for a reader that has not come yet. Data costs the
memory that is set aside for it, which is more than its bytes. The figures are those that Linux has
unless it is told otherwise. -/
structure SendBuffer where
  /-- While less than this is in use more is let in, so that the last of it may go beyond. -/
  capacity : Nat := 212992
  maxDatagram : Nat := capacity - 32
  /-- With more datagrams than these unread, no other is let in. -/
  maxUnread : Nat := 10
  /-- The most bytes of a stream that are let in at once. -/
  maxPiece : Nat := 36544
  maxPiece_pos : 0 < maxPiece := by decide
  page : Nat := 4096
deriving DecidableEq, Repr

namespace SendBuffer

variable (m : SendBuffer)

def pages (head most n : Nat) : Nat := min ((n - head + (m.page - 1)) / m.page) most

/-- The memory set aside for `n` bytes: pages, a block of a power of two for the bytes that are in
none and for their administration, and a record of it all. -/
def cost (head most n : Nat) : Nat :=
  let paged := m.page * m.pages head most n
  paged + max 512 (Nat.nextPowerOfTwo (n - paged + 320)) + 256

def datagramCost (n : Nat) : Nat := m.cost 16064 17 n

def pieceCost (n : Nat) : Nat := m.cost 3776 8 n

/-- How many of `n` bytes of a stream are let in when `load` is in use, and the load with them. -/
def fill (load n : Nat) : Nat × Nat :=
  if _h : n = 0 ∨ m.capacity ≤ load then (0, load)
  else
    let piece := min n m.maxPiece
    let (more, load) := fill (load + m.pieceCost piece) (n - piece)
    (piece + more, load)
termination_by n
decreasing_by
  have hpos := m.maxPiece_pos
  omega

end SendBuffer
end MetricPipeline
