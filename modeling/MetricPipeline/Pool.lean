import MetricPipeline.Buffer

namespace MetricPipeline

/-- What a pool counts, modulo 2^64. -/
structure Pool.Stats where
  reused : UInt64 := 0
  /-- Tracked buffers made, the initial ones included. -/
  allocated : UInt64 := 0
  /-- Untracked buffers made because the maximum was reached. -/
  transient : UInt64 := 0
  discarded : UInt64 := 0
deriving DecidableEq, Repr

structure Pool where
  limits : Limits
  /-- The most buffers the pool keeps track of. -/
  maximum : Nat
  /-- The buffers to hand out, oldest first. -/
  free : List Blank := []
  tracked : Nat := 0
  stats : Pool.Stats := {}
deriving DecidableEq, Repr

namespace Pool

def allocate? (p : Pool) : Option (Blank × Pool) :=
  if p.tracked < p.maximum then
    some (Blank.mk p.limits true p.tracked, { p with
      tracked := p.tracked + 1
      stats := { p.stats with allocated := p.stats.allocated + 1 } })
  else none

/-- A free buffer if there is one, else a new tracked one up to the maximum, else an untracked. -/
def borrow (p : Pool) : Blank × Pool :=
  match p.free with
  | oldest :: rest =>
    (oldest, { p with free := rest, stats := { p.stats with reused := p.stats.reused + 1 } })
  | [] =>
    match p.allocate? with
    | some made => made
    | none =>
      (Blank.mk p.limits false,
        { p with stats := { p.stats with transient := p.stats.transient + 1 } })

def discard (p : Pool) : Pool :=
  { p with stats := { p.stats with discarded := p.stats.discarded + 1 } }

/-- Clears a tracked buffer of the pool's length and takes it back, while there is room. -/
def release (p : Pool) (b : Buffer) : Pool :=
  if !b.tracked || b.limits.length ≠ p.limits.length then p.discard
  else if p.free.length < p.maximum then
    { p with free := p.free ++ [.ofBuffer b.reset rfl rfl] }
  else p.discard

def stock (p : Pool) : Pool :=
  match p.allocate? with
  | some (k, p) => p.release k.buffer
  | none => p

def create (initial maximum : Nat) (limits : Limits) : Pool :=
  Nat.repeat stock (min initial maximum) { limits, maximum }

def create? (initial maximum : Nat) (limits : Limits) : Option Pool :=
  if maximum = 0 then none else some (create initial maximum limits)

def noCapacity : String := "capacity must be non-zero"

def available (p : Pool) : Nat := p.free.length

def reused (p : Pool) : Nat := p.stats.reused.toNat

def allocated (p : Pool) : Nat := p.stats.allocated.toNat

def transient (p : Pool) : Nat := p.stats.transient.toNat

def discarded (p : Pool) : Nat := p.stats.discarded.toNat

end Pool
end MetricPipeline
