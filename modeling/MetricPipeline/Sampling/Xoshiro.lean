import MetricPipeline.Sampling

namespace MetricPipeline

def rotateLeft (x : UInt64) (k : UInt64) : UInt64 := (x <<< k) ||| (x >>> (64 - k))

structure Xoshiro where
  a : UInt64
  b : UInt64
  c : UInt64
  d : UInt64
deriving DecidableEq, Repr

namespace Xoshiro

/-- The word that SplitMix64 makes of one state. -/
def splitMix (z : UInt64) : UInt64 :=
  let z := (z ^^^ (z >>> 30)) * 0xbf58476d1ce4e5b9
  let z := (z ^^^ (z >>> 27)) * 0x94d049bb133111eb
  z ^^^ (z >>> 31)

/-- The first four outputs of SplitMix64, whose state grows by a fixed step before each. -/
def ofSeed (seed : UInt64) : Xoshiro :=
  let word (k : UInt64) := splitMix (seed + k * 0x9e3779b97f4a7c15)
  ⟨word 1, word 2, word 3, word 4⟩

def output (s : Xoshiro) : UInt64 := rotateLeft (s.b * 5) 7 * 9

def advance (s : Xoshiro) : Xoshiro :=
  let c := s.c ^^^ s.a
  let d := s.d ^^^ s.b
  ⟨s.a ^^^ d, s.b ^^^ c, c ^^^ (s.b <<< 17), rotateLeft d 45⟩

end Xoshiro

instance : WordSource Xoshiro where
  next s := (s.output, s.advance)

end MetricPipeline
