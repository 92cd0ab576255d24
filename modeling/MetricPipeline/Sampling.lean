import MetricPipeline.Number.Binary64

namespace MetricPipeline

class WordSource (σ : Type) where
  next : σ → UInt64 × σ

inductive Chance
  | always
  | never
  | drawn
deriving DecidableEq, Repr

/-- Rates from one up are always kept; rates from zero down, and a NaN, never. -/
def Binary64.chance (rate : Binary64) : Chance :=
  if Binary64.one.le rate then .always
  else if rate.isNaN || rate.le .zero then .never
  else .drawn

/-- Whether the draw `(word >>> 11) * 2 ^ -53` is below a positive rate. -/
def Binary64.accepts (rate : Binary64) (word : UInt64) : Bool :=
  (word >>> 11).toNat * twoPow 1021 < rate.units

variable {σ : Type} [WordSource σ]

def decideSample (rate : Binary64) (s : σ) : Bool × σ :=
  match rate.chance with
  | .always => (true, s)
  | .never => (false, s)
  | .drawn => (rate.accepts (WordSource.next s).1, (WordSource.next s).2)

def decideSamples : List Binary64 → σ → List Bool × σ
  | [], s => ([], s)
  | rate :: rates, s =>
    let (kept, s) := decideSample rate s
    let (rest, s) := decideSamples rates s
    (kept :: rest, s)

/-- Given words in turn, from the first again after the last, and how many have been drawn. -/
structure Cycle where
  words : List UInt64
  drawn : Nat := 0
deriving DecidableEq, Repr

instance : WordSource Cycle where
  next c := ((c.words[c.drawn % c.words.length]?).getD 0, { c with drawn := c.drawn + 1 })

end MetricPipeline
