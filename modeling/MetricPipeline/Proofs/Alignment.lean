import MetricPipeline.Proofs.Batches
import MetricPipeline.Proofs.Draws
import MetricPipeline.Proofs.Points

namespace MetricPipeline

namespace WordSource

variable {σ : Type} [WordSource σ]

def skip (n : Nat) (s : σ) : σ := (fun s => (next s).2)^[n] s

def word (s : σ) (n : Nat) : UInt64 := (next (skip n s)).1

theorem skip_next (n : Nat) (s : σ) : skip n (next s).2 = skip (n + 1) s := rfl

end WordSource

/-- A source that keeps a record of the words drawn from it, oldest first. -/
structure Metered (σ : Type) where
  source : σ
  drawn : List UInt64 := []

instance {σ : Type} [WordSource σ] : WordSource (Metered σ) where
  next m :=
    ((WordSource.next m.source).1,
      ⟨(WordSource.next m.source).2, m.drawn ++ [(WordSource.next m.source).1]⟩)

/-- Whether the rate is strictly between zero and one, so that a word decides. -/
def Binary64.isDrawn (rate : Binary64) : Bool := zero.lt rate && rate.lt one

theorem Binary64.isDrawn_iff {rate : Binary64} :
    rate.isDrawn = true ↔ rate.isNaN = false ∧ 0 < rate.value ∧ rate.value < 1 := by
  cases hn : rate.isNaN with
  | true => simp [isDrawn, lt, hn]
  | false =>
    rw [isDrawn, Bool.and_eq_true_iff, lt_iff_value isNaN_zero hn, lt_iff_value hn isNaN_one,
      value_zero, value_one, and_iff_right rfl]

section Decisions

variable {σ : Type} [WordSource σ]

theorem decideSample_of_isDrawn {rate : Binary64} (h : rate.isDrawn = true) (s : σ) :
    decideSample rate s =
      ((Binary64.draw (WordSource.next s).1).lt rate, (WordSource.next s).2) := by
  have hc : rate.chance = .drawn := Binary64.chance_eq_drawn_iff.mpr h
  have ha := Binary64.accepts_iff (Bool.and_eq_true_iff.mp h).1 (WordSource.next s).1
  rw [decideSample, hc, Bool.eq_iff_iff.mpr ha]

theorem decideSample_of_not_isDrawn {rate : Binary64} (h : rate.isDrawn = false) (s : σ) :
    decideSample rate s = (Binary64.one.le rate, s) := by
  have hc : rate.chance ≠ .drawn := by
    intro hc
    have hd : rate.isDrawn = true := Binary64.chance_eq_drawn_iff.mp hc
    simp [h] at hd
  rw [Binary64.chance] at hc
  cases h₁ : Binary64.one.le rate with
  | true => rw [decideSample, Binary64.chance_of_one_le h₁]
  | false =>
    rw [h₁, if_neg Bool.false_ne_true] at hc
    rw [decideSample, Binary64.chance, h₁, if_neg Bool.false_ne_true]
    split at hc
    · rw [if_pos ‹_›]
    · exact absurd rfl hc

theorem decideSamples_cons_eq (rate : Binary64) (rates : List Binary64) (s : σ) :
    decideSamples (rate :: rates) s =
      ((decideSample rate s).1 :: (decideSamples rates (decideSample rate s).2).1,
        (decideSamples rates (decideSample rate s).2).2) := rfl

theorem decideSamples_cons_of_isDrawn {rate : Binary64} (h : rate.isDrawn = true)
    (rates : List Binary64) (s : σ) :
    decideSamples (rate :: rates) s =
      ((Binary64.draw (WordSource.word s 0)).lt rate ::
        (decideSamples rates (WordSource.next s).2).1,
        (decideSamples rates (WordSource.next s).2).2) := by
  rw [decideSamples_cons_eq, decideSample_of_isDrawn h]
  rfl

theorem decideSamples_cons_of_not_isDrawn {rate : Binary64} (h : rate.isDrawn = false)
    (rates : List Binary64) (s : σ) :
    decideSamples (rate :: rates) s =
      (Binary64.one.le rate :: (decideSamples rates s).1, (decideSamples rates s).2) := by
  rw [decideSamples_cons_eq, decideSample_of_not_isDrawn h]

def drawnDecisions (rates : List Binary64) (s : σ) : List Bool :=
  picked (rates.map Binary64.isDrawn) (decideSamples rates s).1

theorem drawnDecisions_eq (rates : List Binary64) (s : σ) :
    drawnDecisions rates s = (rates.filter Binary64.isDrawn).mapIdx fun j rate =>
      (Binary64.draw (WordSource.word s j)).lt rate := by
  induction rates generalizing s with
  | nil => rfl
  | cons rate rates ih =>
    cases h : rate.isDrawn with
    | true =>
      rw [drawnDecisions, decideSamples_cons_of_isDrawn h, List.map_cons, picked_cons, h,
        List.filter_cons_of_pos h, List.mapIdx_cons, if_pos rfl, List.singleton_append]
      exact congrArg _ (ih (WordSource.next s).2)
    | false =>
      rw [drawnDecisions, decideSamples_cons_of_not_isDrawn h, List.map_cons, picked_cons, h,
        List.filter_cons_of_neg (Bool.eq_false_iff.mp h), if_neg Bool.false_ne_true,
        List.nil_append]
      exact ih s

theorem words_decideSamples (rates : List Binary64) (s : σ) :
    (decideSamples rates s).2 = WordSource.skip (rates.countP Binary64.isDrawn) s := by
  induction rates generalizing s with
  | nil => rfl
  | cons rate rates ih =>
    cases h : rate.isDrawn with
    | true =>
      rw [decideSamples_cons_of_isDrawn h, List.countP_cons_of_pos h, ih, WordSource.skip_next]
    | false =>
      rw [decideSamples_cons_of_not_isDrawn h, List.countP_cons_of_neg (Bool.eq_false_iff.mp h), ih]

theorem decideSamples_metered (rates : List Binary64) (m : Metered σ) :
    decideSamples rates m =
      ((decideSamples rates m.source).1,
        ⟨(decideSamples rates m.source).2,
          m.drawn ++ (List.range (rates.countP Binary64.isDrawn)).map
            (WordSource.word m.source)⟩) := by
  induction rates generalizing m with
  | nil => simp [decideSamples]
  | cons rate rates ih =>
    cases h : rate.isDrawn with
    | true =>
      rw [decideSamples_cons_of_isDrawn h, ih, decideSamples_cons_of_isDrawn h,
        List.countP_cons_of_pos h, List.range_succ_eq_map, List.map_cons, List.map_map]
      simp only [WordSource.next, List.append_assoc, List.singleton_append]
      rfl
    | false =>
      rw [decideSamples_cons_of_not_isDrawn h, ih, decideSamples_cons_of_not_isDrawn h,
        List.countP_cons_of_neg (Bool.eq_false_iff.mp h)]

/-- Rates that no word decides can be left out, wherever they stand. -/
theorem decideSamples_picked {rates : List Binary64} {keep : List Bool}
    (hl : keep.length = rates.length)
    (ho : ∀ rate ∈ picked (keep.map not) rates, rate.isDrawn = false) (s : σ) :
    decideSamples (picked keep rates) s =
      (picked keep (decideSamples rates s).1, (decideSamples rates s).2) := by
  induction rates generalizing keep s with
  | nil =>
    obtain rfl : keep = [] := List.length_eq_zero_iff.mp hl
    rfl
  | cons rate rates ih =>
    obtain ⟨k, keep, rfl⟩ := List.exists_cons_of_length_eq_add_one hl
    rw [List.length_cons, List.length_cons, Nat.add_right_cancel_iff] at hl
    rw [List.map_cons, picked_cons] at ho
    have hrest := ih hl fun r hr => ho r (List.mem_append_right _ hr)
    rw [picked_cons]
    cases k with
    | true =>
      rw [if_pos rfl, List.singleton_append, decideSamples_cons_eq, decideSamples_cons_eq, hrest,
        picked_cons, if_pos rfl, List.singleton_append]
    | false =>
      have hout : rate.isDrawn = false := ho rate (by simp)
      rw [if_neg Bool.false_ne_true, List.nil_append, hrest,
        decideSamples_cons_of_not_isDrawn hout, picked_cons, if_neg Bool.false_ne_true,
        List.nil_append]

theorem drawnDecisions_mono {rates rates' : List Binary64}
    (h : List.Forall₂ (fun r r' => r.le r' = true) (rates.filter Binary64.isDrawn)
      (rates'.filter Binary64.isDrawn)) (s : σ) :
    List.Forall₂ (fun d d' => d = true → d' = true) (drawnDecisions rates s)
      (drawnDecisions rates' s) := by
  rw [drawnDecisions_eq, drawnDecisions_eq]
  have hall : ∀ r ∈ rates.filter Binary64.isDrawn, r.isDrawn = true :=
    fun r hr => (List.mem_filter.mp hr).2
  have hall' : ∀ r ∈ rates'.filter Binary64.isDrawn, r.isDrawn = true :=
    fun r hr => (List.mem_filter.mp hr).2
  generalize rates.filter Binary64.isDrawn = rs at h hall
  generalize rates'.filter Binary64.isDrawn = rs' at h hall'
  induction h generalizing s with
  | nil => exact .nil
  | @cons r r' rs rs' hle _ ih =>
    rw [List.mapIdx_cons, List.mapIdx_cons]
    refine .cons ?_ ?_
    · have hr := Bool.and_eq_true_iff.mp (hall r List.mem_cons_self)
      have hr' := Bool.and_eq_true_iff.mp (hall' r' List.mem_cons_self)
      rw [← Binary64.mem_acceptedWords_iff hr.1 hr.2, ← Binary64.mem_acceptedWords_iff hr'.1 hr'.2]
      exact fun hw => Binary64.acceptedWords_mono hr.1 hr.2 hr'.2 hle hw
    · exact ih (WordSource.next s).2 (fun r hr => hall r (List.mem_cons_of_mem _ hr))
        fun r hr => hall' r (List.mem_cons_of_mem _ hr)

end Decisions

namespace Intake

def rate (c : Intake) : Binary64 := c.metric.rate

def isKept (c : Intake) : Bool := c.verdict ≠ .unsampled

theorem isKept_verdict {σ : Type} [WordSource σ] (i : Nat) (m : Metric) (s : σ) :
    isKept ⟨i, m, m.verdict s⟩ = (decideSample m.rate s).1 := by
  rw [isKept, Metric.verdict]
  cases (decideSample m.rate s).1 <;> cases m.rejection?.isNone <;> rfl

end Intake

namespace Plant

variable {σ : Type} [WordSource σ]

/-- The calls are decided as their rates are, one after another, by the source `s`, which they leave
as `s'`. -/
def Decided (calls : List Intake) (s s' : σ) : Prop :=
  decideSamples (calls.map Intake.rate) s = (calls.map Intake.isKept, s')

namespace Decided

theorem nil (s : σ) : Decided [] s s := rfl

theorem append {calls calls' : List Intake} {s s' s'' : σ} (h : Decided calls s s')
    (h' : Decided calls' s' s'') : Decided (calls ++ calls') s s'' := by
  induction calls generalizing s with
  | nil =>
    obtain rfl : s = s' := congrArg Prod.snd h
    exact h'
  | cons c calls ih =>
    rw [Decided, List.map_cons, List.map_cons, decideSamples_cons_eq, Prod.mk.injEq,
      List.cons.injEq] at h
    have hrest := ih (Prod.ext h.1.2 h.2)
    rw [Decided] at hrest ⊢
    rw [List.cons_append, List.map_cons, List.map_cons, decideSamples_cons_eq, hrest, h.1.1]

theorem act (P : Plant σ) (a : Act) : Decided (P.intakesAt a) P.words (P.act a).words := by
  have hl := P.act_leads a
  generalize P.act a = P' at hl ⊢
  cases hl with
  | nowhere hn =>
    rw [P.intakesAt_of_unable hn]
    exact nil P.words
  | @process i t m hi hidle =>
    have hcall : P.intakesAt (.process i m) = [⟨i, m, m.verdict P.words⟩] := by
      simp [intakesAt, hi, hidle]
    have hbegin : (t.begin m P.words P.outbox).2.1 = (decideSample m.rate P.words).2 := by
      rw [Station.begin]
      split
      · simp [*]
      · split <;> simp [*]
    rw [hcall, hbegin, Decided, List.map_singleton, List.map_singleton, Intake.isKept_verdict]
    rfl
  | _ => exact nil P.words

theorem happen (policy : FullPolicy) (P : Plant σ) (e : Event) :
    Decided (P.intakesOf policy e) P.words (P.happen policy e).words := by
  cases e with
  | attempt a =>
    simp only [Plant.happen, intakesOf]
    split
    · exact nil P.words
    · exact act P a
  | insist a => exact act P a
  | attend a =>
    simp only [Plant.happen, intakesOf]
    split
    · have ha := act (P.withBound (max 1 P.outbox.queue.bound)) a
      have hi : (P.withBound (max 1 P.outbox.queue.bound)).intakesAt a = P.intakesAt a := by
        cases a <;> rfl
      have htake := act ((P.withBound (max 1 P.outbox.queue.bound)).act a) .take
      rw [hi] at ha
      exact (List.append_nil (P.intakesAt a)) ▸ ha.append htake
    · exact nil P.words

theorem after (policy : FullPolicy) (P : Plant σ) (es : List Event) :
    Decided (P.intakes policy es) P.words (P.after policy es).words := by
  induction es generalizing P with
  | nil => exact nil P.words
  | cons e es ih => exact (happen policy P e).append (ih (P.happen policy e))

end Decided

/-- Packers that share a source of words decide on their metrics as the source does on the rates, in
the order of the calls. It gives one word for each rate strictly between zero and one, and the rate
is compared with the draw that this word makes; so other rates can be left out or put in anywhere,
and larger rates in place of smaller ones keep all that was kept. -/
theorem draws_aligned (policy : FullPolicy) (P : Plant σ) (es : List Event) (s : σ)
    (rates : List Binary64) :
    let calls := P.intakes policy es
    let drawn := rates.filter Binary64.isDrawn
    decideSamples (calls.map Intake.rate) P.words =
        (calls.map Intake.isKept, (P.after policy es).words) ∧
      (∀ rate : Binary64, rate.isDrawn = true ↔
        rate.isNaN = false ∧ 0 < rate.value ∧ rate.value < 1) ∧
      decideSamples rates ({ source := s } : Metered σ) =
        ((decideSamples rates s).1,
          ⟨WordSource.skip drawn.length s,
            (List.range drawn.length).map (WordSource.word s)⟩) ∧
      (decideSamples rates s).2 = WordSource.skip drawn.length s ∧
      (drawnDecisions rates s).length = drawn.length ∧
      (∀ j rate, drawn[j]? = some rate →
        ∃ d, (drawnDecisions rates s)[j]? = some d ∧
          (d = true ↔ ((WordSource.word s j >>> 11).toNat : ℚ) / 2 ^ 53 < rate.value)) ∧
      (∀ keep : List Bool, keep.length = rates.length →
        (∀ rate ∈ picked (keep.map not) rates, rate.isDrawn = false) →
        decideSamples (picked keep rates) s =
          (picked keep (decideSamples rates s).1, (decideSamples rates s).2)) ∧
      ∀ rates' : List Binary64,
        List.Forall₂ (fun r r' => r.le r' = true) drawn (rates'.filter Binary64.isDrawn) →
        List.Forall₂ (fun d d' => d = true → d' = true) (drawnDecisions rates s)
          (drawnDecisions rates' s) := by
  intro calls drawn
  have hcount : rates.countP Binary64.isDrawn = drawn.length := List.countP_eq_length_filter
  have hwords := words_decideSamples rates s
  have hmetered := decideSamples_metered rates ({ source := s } : Metered σ)
  rw [hcount] at hwords hmetered
  refine ⟨Decided.after policy P es, fun rate => Binary64.isDrawn_iff, ?_, hwords, ?_, ?_,
    fun keep hl ho => decideSamples_picked hl ho s, fun rates' h => drawnDecisions_mono h s⟩
  · rw [hmetered, hwords, List.nil_append]
  · rw [drawnDecisions_eq, List.length_mapIdx]
  · intro j rate hj
    have hrate : rate.isDrawn = true := (List.mem_filter.mp (List.mem_of_getElem? hj)).2
    have hn := (Binary64.isDrawn_iff.mp hrate).1
    refine ⟨(Binary64.draw (WordSource.word s j)).lt rate, ?_, ?_⟩
    · rw [drawnDecisions_eq, List.getElem?_mapIdx, hj, Option.map_some]
    · rw [Binary64.lt_iff_value (Binary64.units_draw _).1 hn, Binary64.value_draw]

end Plant
end MetricPipeline
