import MetricPipeline.Proofs.Counting
import MetricPipeline.Proofs.Erasure
import MetricPipeline.Proofs.Tuning

namespace MetricPipeline

section Tags

theorem written_append (a b : String) : written (a ++ b) = written a ++ written b := by
  simp [written, oneLine, utf8_append]

def laterTags (tags : List String) : Bytes := tags.flatMap fun t => ascii "," ++ written t

theorem laterTags_append (tags tags' : List String) :
    laterTags (tags ++ tags') = laterTags tags ++ laterTags tags' := List.flatMap_append

theorem tagSection_cons (tag : String) (tags : List String) :
    tagSection (tag :: tags) = ascii "|#" ++ written tag ++ laterTags tags := rfl

theorem written_joined (tag : String) (tags : List String) :
    written (String.intercalate "," (tag :: tags)) = written tag ++ laterTags tags := by
  induction tags generalizing tag with
  | nil => simp [laterTags]
  | cons tag' tags ih =>
    have hc : written "," = ascii "," := by decide
    rw [String.intercalate_cons_cons, written_append, written_append, ih, hc, laterTags, laterTags,
      List.flatMap_cons]
    simp only [List.append_assoc]

/-- Joined tags are written as the list of them, wherever they stand. -/
theorem tagSection_joined (before : List String) (tag : String) (tags : List String) :
    tagSection (before ++ [String.intercalate "," (tag :: tags)]) =
      tagSection (before ++ tag :: tags) := by
  cases before with
  | nil =>
    rw [List.nil_append, List.nil_append, tagSection_cons, tagSection_cons, written_joined]
    simp [laterTags]
  | cons first before =>
    have hj : laterTags [String.intercalate "," (tag :: tags)] = laterTags (tag :: tags) := by
      rw [laterTags, List.flatMap_singleton, written_joined, laterTags, laterTags,
        List.flatMap_cons, List.append_assoc]
    rw [List.cons_append, List.cons_append, tagSection_cons, tagSection_cons, laterTags_append,
      laterTags_append, hj]

end Tags

def picked {α : Type} (decisions : List Bool) (xs : List α) : List α :=
  ((decisions.zip xs).filter Prod.fst).map Prod.snd

section Picked

variable {α β : Type}

theorem picked_cons (d : Bool) (decisions : List Bool) (x : α) (xs : List α) :
    picked (d :: decisions) (x :: xs) = (if d then [x] else []) ++ picked decisions xs := by
  cases d <;> simp [picked]

theorem picked_map (decisions : List Bool) (xs : List α) (f : α → β) :
    picked decisions (xs.map f) = (picked decisions xs).map f := by
  rw [picked, picked, List.zip_map_right, List.filter_map, List.map_map, List.map_map]
  rfl

theorem picked_of_forall {decisions : List Bool} {xs : List α}
    (hl : decisions.length = xs.length) {d : Bool} (hd : ∀ e ∈ decisions, e = d) :
    picked decisions xs = if d then xs else [] := by
  induction decisions generalizing xs with
  | nil =>
    obtain rfl : xs = [] := List.length_eq_zero_iff.mp hl.symm
    simp [picked]
  | cons e decisions ih =>
    obtain ⟨x, xs, rfl⟩ := List.exists_cons_of_length_eq_add_one hl.symm
    obtain rfl : e = d := hd e List.mem_cons_self
    rw [picked_cons, ih (by simpa using hl) fun e' he' => hd e' (List.mem_cons_of_mem _ he')]
    cases e <;> rfl

end Picked

section Decisions

variable {σ : Type} [WordSource σ]

theorem decideSamples_cons (rate : Binary64) (rates : List Binary64) (s : σ) :
    (decideSamples (rate :: rates) s).1 =
      (decideSample rate s).1 :: (decideSamples rates (decideSample rate s).2).1 := rfl

theorem length_decideSamples (rates : List Binary64) (s : σ) :
    (decideSamples rates s).1.length = rates.length := by
  induction rates generalizing s with
  | nil => rfl
  | cons rate rates ih => rw [decideSamples_cons, List.length_cons, ih, List.length_cons]

theorem decideSamples_of_sure {σ' : Type} [WordSource σ'] {rate : Binary64}
    (h : rate.chance ≠ .drawn) (n : Nat) (s : σ) (s' : σ') :
    ∀ d ∈ (decideSamples (List.replicate n rate) s).1, d = (decideSample rate s').1 := by
  have hone (s : σ) : (decideSample rate s).1 = (decideSample rate s').1 := by
    rw [decideSample, decideSample]
    cases hc : rate.chance with
    | drawn => exact absurd hc h
    | _ => rfl
  induction n generalizing s with
  | zero => simp [decideSamples]
  | succ n ih =>
    rw [List.replicate_succ, decideSamples_cons]
    intro d hd
    rcases List.mem_cons.mp hd with rfl | hd
    · exact hone s
    · exact ih _ d hd

end Decisions

namespace Packer

variable {σ ω : Type} [WordSource σ] [Outlet ω]

theorem accepted_processes {ms : List Metric} (h : ∀ m ∈ ms, m.rejection? = none) (s : σ) :
    accepted s (ms.map .process) = picked (decideSamples (ms.map Metric.rate) s).1 ms := by
  induction ms generalizing s with
  | nil => rfl
  | cons m ms ih =>
    rw [List.map_cons, List.map_cons, accepted, decideSamples_cons, picked_cons, Call.accepted,
      Call.drawn, ih fun m' hm' => h m' (List.mem_cons_of_mem _ hm'), h m List.mem_cons_self]
    simp

theorem accepted_processes_of_rejection {ms : List Metric} (h : ∀ m ∈ ms, m.rejection? ≠ none)
    (s : σ) : accepted s (ms.map .process) = [] := by
  induction ms generalizing s with
  | nil => rfl
  | cons m ms ih =>
    have hm : m.rejection?.isNone = false :=
      Option.isNone_eq_false_iff.mpr (Option.isSome_iff_ne_none.mpr (h m List.mem_cons_self))
    rw [List.map_cons, accepted, Call.accepted, hm, Bool.and_false, if_neg Bool.false_ne_true,
      List.nil_append, ih fun m' hm' => h m' (List.mem_cons_of_mem _ hm')]

/-- During the calls the packer writes points with these headers and trailers, in this order. -/
def Writes (p : Packer) (s : σ) (w : ω) (cs : List Call)
    (triples : List (Bytes × Bytes × Bytes)) : Prop :=
  ∃ rows : List Row, (∀ row ∈ rows, row.points ≠ []) ∧ rows.flatMap Row.triples = triples ∧
    Carried p.current (rows.map Row.bytes) (p.calls s w cs).1.current (p.handed s w cs)

theorem calls_writes (p : Packer) (s : σ) (w : ω) (cs : List Call) :
    p.Writes s w cs ((accepted s cs).flatMap Metric.triples) := by
  obtain ⟨cuts, payloads, hm, hk, hh, hc⟩ := p.calls_carried s ({ outlet := w } : Traced ω) cs
  have hv := calls_view Traced.untraced p s ({ outlet := w } : Traced ω) cs
  have hp : p.handed s w cs = payloads := by rw [handed, hh, List.nil_append]
  have hcur : (p.calls s w cs).1 = (p.calls s ({ outlet := w } : Traced ω) cs).1 :=
    congrArg Prod.fst hv
  refine ⟨cuts.flatMap Cut.rows, ?_, ?_, ?_⟩
  · intro row hrow
    obtain ⟨k, hkm, hkr⟩ := List.mem_flatMap.mp hrow
    obtain ⟨run, hrun, rfl⟩ := List.mem_map.mp hkr
    exact (hk k hkm).runs_ne_nil run hrun
  · rw [← hm, List.flatMap_map, List.flatMap_assoc]
    apply List.flatMap_congr
    intro k hkm
    exact (hk k hkm).triples_rows
  · rw [hp, hcur, List.map_flatMap]
    simpa only [Cut.bytes_rows] using hc

end Packer

/-- Samples of one metric under the same tags, to be sent one by one or at once. -/
structure Series where
  kind : Kind
  scope : String
  name : String
  rate : Binary64
  globalTags : List String
  samples : List Binary64
  tags : List String
  /-- Only these two types have batches. -/
  batchable : kind = .histogram ∨ kind = .distribution
  samples_ne_nil : samples ≠ []
  isFinite : ∀ v ∈ samples, v.isFinite = true
  joined_ne_empty : String.intercalate "," tags ≠ "" ∨ tags = []

namespace Series

variable (q : Series)

def single (v : Binary64) : Metric where
  name := q.name
  value := if q.kind = .histogram then .histogram v else .distribution v
  scope := q.scope
  globalTags := q.globalTags
  tags := q.tags
  rate := q.rate

def singles : List Metric := q.samples.map q.single

/-- The batch, with tags of its own that are not the samples' tags. -/
def batch (own : List String) : Metric where
  name := q.name
  value :=
    let joined := String.intercalate "," q.tags
    if q.kind = .histogram then .histogramBatch q.samples joined
    else .distributionBatch q.samples joined
  scope := q.scope
  globalTags := q.globalTags
  tags := own
  rate := q.rate

def isNameless : Bool := q.name.toList.all (· = '\n')

variable (own : List String)

theorem kind_single (v : Binary64) : (q.single v).value.kind = q.kind := by
  rcases q.batchable with hk | hk <;> simp [single, hk, Value.kind]

theorem kind_batch : (q.batch own).value.kind = q.kind := by
  rcases q.batchable with hk | hk <;> simp [batch, hk, Value.kind]

theorem points_single (v : Binary64) :
    (q.single v).value.points = [utf8 v.shortestText] := by
  rcases q.batchable with hk | hk <;> simp [single, hk, Value.points]

theorem points_batch :
    (q.batch own).value.points = q.samples.map fun v => utf8 v.shortestText := by
  rcases q.batchable with hk | hk <;> simp [batch, hk, Value.points]

theorem rejection?_single {v : Binary64} (hv : v ∈ q.samples) :
    (q.single v).rejection? = if q.isNameless then some .emptyName else none := by
  have hn : (q.single v).hasNoName = q.isNameless := rfl
  have hp : (q.single v).hasNoPoints = false := by rw [Metric.hasNoPoints, points_single]; rfl
  have hf : (q.single v).hasNonFinite = false := by
    have hv := q.isFinite v hv
    rcases q.batchable with hk | hk <;> simp [Metric.hasNonFinite, single, hk, Value.numbers, hv]
  simp [Metric.rejection?_eq, hn, hp, hf]

theorem rejection?_batch :
    (q.batch own).rejection? = if q.isNameless then some .emptyName else none := by
  have hn : (q.batch own).hasNoName = q.isNameless := rfl
  have hp : (q.batch own).hasNoPoints = false := by
    simpa [Metric.hasNoPoints, points_batch] using q.samples_ne_nil
  have hf : (q.batch own).hasNonFinite = false := by
    have hv := q.isFinite
    rcases q.batchable with hk | hk <;>
      simpa [Metric.hasNonFinite, batch, hk, Value.numbers] using hv
  simp [Metric.rejection?_eq, hn, hp, hf]

theorem trailer_batch (v : Binary64) : (q.batch own).trailer = (q.single v).trailer := by
  have hb : (q.batch own).writtenTags = q.globalTags ++
      if String.intercalate "," q.tags = "" then [] else [String.intercalate "," q.tags] := by
    rcases q.batchable with hk | hk <;> simp [Metric.writtenTags, batch, hk, Value.joinedTags?]
  have hs : (q.single v).writtenTags = q.globalTags ++ q.tags := by
    rcases q.batchable with hk | hk <;> simp [Metric.writtenTags, single, hk, Value.joinedTags?]
  have ht : tagSection (q.batch own).writtenTags = tagSection (q.single v).writtenTags := by
    rw [hb, hs]
    rcases q.joined_ne_empty with hj | hj
    · rw [if_neg hj]
      cases htags : q.tags with
      | nil => exact absurd (by rw [htags]; rfl) hj
      | cons tag tags => exact tagSection_joined q.globalTags tag tags
    · rw [hj]
      rfl
  rw [Metric.trailer, Metric.trailer, kind_batch, kind_single, ht]
  rfl

theorem frame_batch (v : Binary64) : (q.batch own).frame = (q.single v).frame := by
  rw [Metric.frame, Metric.frame, q.trailer_batch own v]
  rfl

theorem triples_batch : q.singles.map Metric.triples = (q.batch own).triples.map ([·]) := by
  rw [Metric.triples, points_batch, singles, List.map_map, List.map_map, List.map_map]
  apply List.map_congr_left
  intro v _
  simp only [Function.comp_apply, Metric.triples, points_single, q.trailer_batch own v]
  rfl

theorem map_rate_singles : q.singles.map Metric.rate = List.replicate q.samples.length q.rate := by
  rw [singles, List.map_map]
  exact List.map_const ..

section Written

variable {σ σ' ω ω' : Type} [WordSource σ] [WordSource σ'] [Outlet ω] [Outlet ω']

def decisions (s : σ) : List Bool := (decideSamples (List.replicate q.samples.length q.rate) s).1

/-- What is written of the series, if these of its samples are kept. -/
def writtenOf (decisions : List Bool) : List (Bytes × Bytes × Bytes) :=
  if q.isNameless then [] else picked decisions (q.batch []).triples

theorem triples_own : (q.batch own).triples = (q.batch []).triples := by
  have hf : (q.batch own).trailer = (q.batch []).trailer :=
    (q.trailer_batch own .zero).trans (q.trailer_batch [] .zero).symm
  rw [Metric.triples, Metric.triples, points_batch, points_batch, hf]
  rfl

theorem accepted_batch (s : σ) :
    Packer.accepted s [.process (q.batch own)] =
      if (decideSample q.rate s).1 && !q.isNameless then [q.batch own] else [] := by
  have hr : (q.batch own).rejection?.isNone = !q.isNameless := by
    rw [rejection?_batch]
    cases q.isNameless <;> rfl
  rw [Packer.accepted, Packer.Call.accepted, hr, Packer.accepted, List.append_nil]
  rfl

theorem accepted_singles (s : σ) :
    Packer.accepted s (q.singles.map .process) =
      if q.isNameless then [] else picked (q.decisions s) q.singles := by
  have hr : ∀ m ∈ q.singles, m.rejection? = if q.isNameless then some .emptyName else none := by
    intro m hm
    obtain ⟨v, hv, rfl⟩ := List.mem_map.mp hm
    exact q.rejection?_single hv
  cases hn : q.isNameless with
  | true =>
    rw [if_pos rfl]
    exact Packer.accepted_processes_of_rejection (fun m hm => by rw [hr m hm, hn]; simp) s
  | false =>
    rw [if_neg Bool.false_ne_true, decisions, ← map_rate_singles]
    exact Packer.accepted_processes (fun m hm => by rw [hr m hm, hn]; simp) s

theorem writtenOf_replicate (d : Bool) :
    q.writtenOf (List.replicate q.samples.length d) =
      if d && !q.isNameless then (q.batch []).triples else [] := by
  have hl : (List.replicate q.samples.length d).length = (q.batch []).triples.length := by
    simp [Metric.triples, points_batch]
  rw [writtenOf, picked_of_forall hl fun e he => List.eq_of_mem_replicate he]
  cases q.isNameless <;> simp

theorem triples_accepted_batch (s : σ) :
    (Packer.accepted s [.process (q.batch own)]).flatMap Metric.triples =
      q.writtenOf (List.replicate q.samples.length (decideSample q.rate s).1) := by
  rw [accepted_batch, writtenOf_replicate]
  split
  · rw [List.flatMap_singleton, triples_own]
  · rfl

theorem triples_accepted_singles (s : σ) :
    (Packer.accepted s (q.singles.map .process)).flatMap Metric.triples =
      q.writtenOf (q.decisions s) := by
  rw [accepted_singles, writtenOf]
  split
  · rfl
  · rw [List.flatMap_def, ← picked_map, q.triples_batch [], picked_map, ← List.flatMap_def,
      List.flatMap_singleton']

theorem pointsOf_accepted {ms : List Metric} (h : ∀ m ∈ ms, m.value.kind = q.kind) (k : Kind) :
    Metric.pointsOf ms k = if q.kind = k then (ms.flatMap Metric.triples).length else 0 := by
  induction ms with
  | nil => simp
  | cons m ms ih =>
    have hm := h m List.mem_cons_self
    have hs := Metric.pointsOf_append [m] ms k
    rw [List.singleton_append] at hs
    rw [hs, ih fun m' hm' => h m' (List.mem_cons_of_mem _ hm'), Metric.pointsOf_singleton, hm,
      List.flatMap_cons, List.length_append, Metric.triples, List.length_map, Value.length_points]
    split <;> rfl

end Written

section Counted

variable {σ σ' ω ω' : Type} [WordSource σ] [WordSource σ'] [Outlet ω] [Outlet ω']

theorem kind_of_accepted {ms : List Metric} (hk : ∀ m ∈ ms, m.value.kind = q.kind) (s : σ) :
    ∀ m ∈ Packer.accepted s (ms.map .process), m.value.kind = q.kind := by
  induction ms generalizing s with
  | nil => simp [Packer.accepted]
  | cons m ms ih =>
    intro m' hm'
    rw [List.map_cons, Packer.accepted] at hm'
    rcases List.mem_append.mp hm' with hm' | hm'
    · rw [Packer.Call.accepted] at hm'
      split at hm'
      · rw [List.mem_singleton.mp hm']
        exact hk m List.mem_cons_self
      · cases hm'
    · exact ih (fun m hm => hk m (List.mem_cons_of_mem _ hm)) _ m' hm'

theorem process_batch (p : Packer) (own own' : List String) (s : σ) (w : ω) :
    p.process (q.batch own) s w = p.process (q.batch own') s w := by
  have hf : (q.batch own).frame = (q.batch own').frame :=
    (q.frame_batch own .zero).trans (q.frame_batch own' .zero).symm
  have hp : (q.batch own).prepare = (q.batch own').prepare := by
    rw [Metric.prepare, Metric.prepare, rejection?_batch, rejection?_batch, hf]
  simp only [Packer.process, Packer.accept, Frame.prepare, hp]
  rfl

/-- A batch and its samples one by one are rejected alike, for want of a name, and have the same
header and trailer and the same points, whatever tags the batch has of its own. Of these points one
packer writes all or none for the batch, and another, for the samples, those whose decisions say so,
in the same order; the points are counted accordingly. Where nothing is left to chance, the
decisions are the same. -/
theorem batch_as_singles (p p' : Packer) (s : σ) (s' : σ') (w : ω) (w' : ω') (o o' : Outbox) :
    let b := q.batch own
    let kept := List.replicate q.samples.length (decideSample q.rate s).1
    b.rejection? = (if q.isNameless then some .emptyName else none) ∧
      (∀ m ∈ q.singles, m.rejection? = b.rejection? ∧ m.header = b.header ∧
        m.trailer = b.trailer ∧ m.value.kind = b.value.kind) ∧
      q.singles.map (fun m => m.value.points) = b.value.points.map ([·]) ∧
      (∀ own', p.process (q.batch own') s w = p.process b s w) ∧
      p.Writes s w [.process b] (q.writtenOf kept) ∧
      p'.Writes s' w' (q.singles.map .process) (q.writtenOf (q.decisions s')) ∧
      (∀ k, (p.calls s o [.process b]).2.2.tally.points k =
        o.tally.points k + if q.kind = k then (q.writtenOf kept).length.toUInt64 else 0) ∧
      (∀ k, (p'.calls s' o' (q.singles.map .process)).2.2.tally.points k =
        o'.tally.points k +
          if q.kind = k then (q.writtenOf (q.decisions s')).length.toUInt64 else 0) ∧
      (q.rate.chance ≠ .drawn → q.decisions s' = kept) := by
  intro b kept
  have hb : ∀ m ∈ [b], m.value.kind = q.kind := by
    intro m hm
    rw [List.mem_singleton.mp hm]
    exact q.kind_batch own
  have hs : ∀ m ∈ q.singles, m.value.kind = q.kind := by
    intro m hm
    obtain ⟨v, -, rfl⟩ := List.mem_map.mp hm
    exact q.kind_single v
  refine ⟨q.rejection?_batch own, ?_, ?_, fun own' => q.process_batch p own' own s w, ?_, ?_, ?_,
    ?_, ?_⟩
  · intro m hm
    obtain ⟨v, hv, rfl⟩ := List.mem_map.mp hm
    refine ⟨?_, rfl, (q.trailer_batch own v).symm, ?_⟩
    · rw [rejection?_single q hv, rejection?_batch]
    · rw [kind_single, kind_batch]
  · rw [singles, points_batch, List.map_map, List.map_map]
    exact List.map_congr_left fun v _ => q.points_single v
  · rw [← q.triples_accepted_batch own s]
    exact p.calls_writes s w _
  · rw [← q.triples_accepted_singles s']
    exact p'.calls_writes s' w' _
  · intro k
    have hk : Metric.pointsOf (Packer.accepted s [.process b]) k = _ :=
      q.pointsOf_accepted (q.kind_of_accepted hb s) k
    rw [Packer.points_calls, hk, ← q.triples_accepted_batch own s]
    split <;> rfl
  · intro k
    rw [Packer.points_calls, q.pointsOf_accepted (q.kind_of_accepted hs s'),
      ← q.triples_accepted_singles s']
    split <;> rfl
  · intro hc
    rw [decisions, List.eq_replicate_iff, length_decideSamples, List.length_replicate]
    exact ⟨rfl, decideSamples_of_sure hc _ s' s⟩

end Counted

def twoSamples (name : String) (rate : Binary64) : Series where
  kind := .histogram
  scope := ""
  name := name
  rate := rate
  globalTags := []
  samples := [.one, .one]
  tags := []
  batchable := .inl rfl
  samples_ne_nil := List.cons_ne_nil _ _
  isFinite := by decide
  joined_ne_empty := .inr rfl

def taggedSamples : Series :=
  { twoSamples "load" .one with
    globalTags := ["env:test"]
    tags := ["a,b", "", "c"]
    joined_ne_empty := .inl (by decide) }

example :
    (taggedSamples.batch ["own"]).triples =
        List.replicate 2 (ascii "load", ascii "1", ascii "|h|#env:test,a,b,,c\n") ∧
      taggedSamples.singles.flatMap Metric.triples = (taggedSamples.batch ["own"]).triples := by
  decide +kernel

/-- Without a name a batch is not accepted. At a rate of one half, with words of which the first is
below it and the second is not, a batch is written with both points, and of two samples only one. -/
theorem batch_apart_from_singles :
    ((twoSamples "" .one).batch []).rejection? = some .emptyName ∧
      let q := twoSamples "load" ⟨0x3fe0000000000000⟩
      let words : Cycle := { words := [0, 0xffffffffffffffff] }
      let start : Packer × Outbox :=
        Packer.create { pool := Pool.create 1 2 ⟨64, 4⟩, queue := { bound := 4 } }
      (start.1.calls words start.2 [.process (q.batch [])]).2.2.tally.points .histogram = 2 ∧
        (start.1.calls words start.2
          (q.singles.map .process)).2.2.tally.points .histogram = 1 := by
  refine ⟨by decide, ?_, ?_⟩
  · rw [Packer.points_calls]
    decide +kernel
  · rw [Packer.points_calls]
    decide +kernel

end Series
end MetricPipeline
