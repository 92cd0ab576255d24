import MetricPipeline.Proofs.Numerals

namespace MetricPipeline

namespace Rounding

variable {r : Rounding} {i d : Nat}

theorem contains_iff (r : Rounding) (c : Nat) :
    r.contains c = true ↔ r.lower ≤ c ∧ c ≤ r.upper ∧
      (r.closed = false → r.lower < c ∧ c < r.upper) := by
  cases h : r.closed with
  | true => simp [contains, h]
  | false =>
    simp only [contains, h, Bool.false_eq_true, if_false, decide_eq_true_iff, forall_const]
    omega

theorem contains_convex {a b c : Nat} (ha : r.contains a = true) (hc : r.contains c = true)
    (hab : a ≤ b) (hbc : b ≤ c) : r.contains b = true := by
  rw [contains_iff] at *
  refine ⟨ha.1.trans hab, hbc.trans hc.2.1, fun h => ?_⟩
  exact ⟨(ha.2.2 h).1.trans_le hab, hbc.trans_lt (hc.2.2 h).2⟩

theorem step_pos (i : Nat) : 0 < step i := by
  rw [step, twoPow_eq, tenPow_eq]
  positivity

theorem tie_mem (r : Rounding) (d : Nat) : r.tie d = d ∨ r.tie d = d + 1 := by
  rw [tie]
  split <;> omega

theorem contains_of_point? (h : r.point? i = some d) : r.contains (d * step i) = true := by
  simp only [point?] at h
  generalize r.value / step i = q at h
  generalize step i = s at h ⊢
  split at h
  · cases h
  · rename_i hlow _
    rwa [← Option.some.inj h]
  · rename_i _ hhigh
    rwa [← Option.some.inj h]
  · rename_i hlow hhigh
    have hd : d = q ∨ d = q + 1 := by
      split at h
      · exact .inl (Option.some.inj h).symm
      · split at h
        · exact .inr (Option.some.inj h).symm
        · rw [← Option.some.inj h]
          exact r.tie_mem q
    rcases hd with rfl | rfl
    · exact hlow
    · exact hhigh

theorem point?_eq_none (hv : r.contains r.value = true) (h : r.point? i = none) (e : Nat) :
    r.contains (e * step i) = false := by
  have hdown : r.value / step i * step i ≤ r.value := Nat.div_mul_le_self _ _
  have hup : r.value < (r.value / step i + 1) * step i := by
    rw [Nat.mul_comm]
    exact Nat.lt_mul_div_succ _ (step_pos i)
  simp only [point?] at h
  generalize r.value / step i = q at h hdown hup
  split at h
  · rename_i hlow hhigh
    by_contra hne
    rw [Bool.not_eq_false] at hne
    rcases Nat.lt_or_ge q e with hq | hq
    · have hin := contains_convex hv hne hup.le (Nat.mul_le_mul_right _ hq)
      rw [hhigh] at hin
      cases hin
    · have hin := contains_convex hne hv (Nat.mul_le_mul_right _ hq) hdown
      rw [hlow] at hin
      cases hin
  · cases h
  · cases h
  · split at h
    · cases h
    · split at h <;> cases h

theorem search_spec (hv : r.contains r.value = true) (hfine : ∃ e, r.contains (e * step 0) = true)
    (i : Nat) :
    r.contains ((r.search i).1 * step (r.search i).2) = true ∧
      ∀ k, (r.search i).2 < k → k ≤ i → ∀ e, r.contains (e * step k) = false := by
  induction i with
  | zero =>
    cases hp : r.point? 0 with
    | none =>
      obtain ⟨e, he⟩ := hfine
      rw [point?_eq_none hv hp e] at he
      cases he
    | some d =>
      have hs : r.search 0 = (d, 0) := by rw [search, hp, Option.getD_some]
      rw [hs]
      exact ⟨contains_of_point? hp, fun k hk hle => absurd hk (by omega)⟩
  | succ i ih =>
    cases hp : r.point? (i + 1) with
    | none =>
      have hs : r.search (i + 1) = r.search i := by rw [search, hp]
      rw [hs]
      refine ⟨ih.1, fun k hk hle => ?_⟩
      rcases Nat.lt_or_eq_of_le hle with h | rfl
      · exact ih.2 k hk (by omega)
      · exact point?_eq_none hv hp
    | some d =>
      have hs : r.search (i + 1) = (d, i + 1) := by rw [search, hp]
      rw [hs]
      exact ⟨contains_of_point? hp, fun k hk hle => absurd hk (by omega)⟩

theorem upper_lt_step (h : r.start ≤ i) : r.upper < step i := by
  have hupper : r.upper < 2 ^ (Nat.log2 r.upper + 1) := Nat.lt_log2_self
  have hexp : Nat.log2 r.upper + 1 ≤ 1076 + 3 * i := by
    rw [start] at h
    omega
  have hten : 2 ^ (3 * i) ≤ 10 ^ i := by
    rw [pow_mul]
    exact Nat.pow_le_pow_left (by omega) i
  calc r.upper < 2 ^ (Nat.log2 r.upper + 1) := hupper
    _ ≤ 2 ^ (1076 + 3 * i) := Nat.pow_le_pow_right (by omega) hexp
    _ = 2 ^ 1076 * 2 ^ (3 * i) := pow_add 2 1076 (3 * i)
    _ ≤ 2 ^ 1076 * 10 ^ i := Nat.mul_le_mul_left _ hten
    _ = step i := by rw [step, twoPow_eq, tenPow_eq]

theorem search_coarsest (hv : r.contains r.value = true)
    (hfine : ∃ e, r.contains (e * step 0) = true) (hzero : 0 < r.lower) {k : Nat}
    (hk : (r.search r.start).2 < k) (e : Nat) : r.contains (e * step k) = false := by
  rcases Nat.lt_or_ge r.start k with hs | hs
  · by_contra hne
    rw [Bool.not_eq_false, contains_iff] at hne
    have hstep := upper_lt_step hs.le
    rcases Nat.eq_zero_or_pos e with rfl | he
    · omega
    · have hle : step k ≤ e * step k := Nat.le_mul_of_pos_left _ he
      omega
  · exact (search_spec hv hfine r.start).2 k hk hs e

end Rounding

namespace Binary64

variable {x : Binary64}

theorem spacing_eq (x : Binary64) : x.spacing = 2 ^ scaleAt x.place := by
  obtain ⟨hplace, hfraction, -⟩ := x.place_fields
  have hscale : x.exponent - 1 = scaleAt x.place := by
    rw [scaleAt, hplace]
    omega
  rw [spacing, hscale, twoPow_eq]

theorem spacing_before (hpos : 0 < x.place) :
    (if x.fraction = 0 ∧ 1 < x.exponent then x.spacing else 2 * x.spacing) =
      2 * 2 ^ scaleAt (x.place - 1) := by
  obtain ⟨hplace, hfraction, -⟩ := x.place_fields
  rw [spacing_eq]
  split_ifs with h
  · have hscale : scaleAt x.place = scaleAt (x.place - 1) + 1 := by
      simp only [scaleAt, hplace]
      omega
    rw [hscale, pow_succ']
  · have hscale : scaleAt x.place = scaleAt (x.place - 1) := by
      simp only [scaleAt, hplace] at *
      omega
    rw [hscale]

theorem rounding_eq (hpos : 0 < x.place) :
    x.rounding.lower = 2 * (unitsAt (x.place - 1) + unitsAt x.place) * 10 ^ 343 ∧
      x.rounding.value = 4 * unitsAt x.place * 10 ^ 343 ∧
      x.rounding.upper = 2 * (unitsAt x.place + unitsAt (x.place + 1)) * 10 ^ 343 ∧
      (x.rounding.closed = false ↔ x.place % 2 = 1) := by
  have hprev := unitsAt_succ (x.place - 1)
  have hnext := unitsAt_succ x.place
  rw [Nat.sub_add_cancel hpos] at hprev
  simp only [rounding, spacing_before hpos]
  simp only [spacing_eq, units_eq, tenPow_eq, significand_mod_two, decide_eq_false_iff_not]
  generalize 10 ^ 343 = scale
  refine ⟨?_, trivial, ?_, by omega⟩
  · congr 1
    omega
  · congr 1
    omega

theorem contains_rounding_iff (hpos : 0 < x.place) (c : Nat) :
    x.rounding.contains c = true ↔ Near x.place (c / (4 * 10 ^ 343)) := by
  obtain ⟨hlower, -, hupper, hclosed⟩ := rounding_eq hpos
  have hscale : (0 : ℚ) < 4 * 10 ^ 343 := by positivity
  have hend (b c : Nat) : ((2 * (b + c) * 10 ^ 343 : ℕ) : ℚ) / (4 * 10 ^ 343) = (b + c) / 2 := by
    have hne : (10 ^ 343 : ℚ) ≠ 0 := by positivity
    rw [Nat.cast_mul, Nat.cast_mul, Nat.cast_add, Nat.cast_pow, Nat.cast_ofNat, Nat.cast_ofNat]
    generalize (10 ^ 343 : ℚ) = s at hne
    field_simp
    ring
  have hlow : border x.place = x.rounding.lower / (4 * 10 ^ 343) := by
    rw [hlower, hend, border]
  have hhigh : border (x.place + 1) = x.rounding.upper / (4 * 10 ^ 343) := by
    rw [hupper, hend, border_succ]
  rw [Rounding.contains_iff, hclosed, Near, hlow, hhigh, div_le_div_iff_of_pos_right hscale,
    div_le_div_iff_of_pos_right hscale, div_lt_div_iff_of_pos_right hscale,
    div_lt_div_iff_of_pos_right hscale, Nat.cast_le, Nat.cast_le, Nat.cast_lt, Nat.cast_lt]

/-- A grid point reads back if its decimal rounds to the number. -/
theorem contains_step_iff (hpos : 0 < x.place) (d i : Nat) :
    x.rounding.contains (d * Rounding.step i) = true ↔
      Near x.place (d * 10 ^ i / 10 ^ 343 * 2 ^ 1074) := by
  have hpoint : ((d * Rounding.step i : ℕ) : ℚ) / (4 * 10 ^ 343) =
      d * 10 ^ i / 10 ^ 343 * 2 ^ 1074 := by
    have hexp : (2 : ℚ) ^ 1076 = 4 * 2 ^ 1074 := by
      have hsum : 1076 = 2 + 1074 := rfl
      rw [hsum, pow_add]
      congr 1
    have hne : (10 ^ 343 : ℚ) ≠ 0 := by positivity
    rw [Rounding.step, twoPow_eq, tenPow_eq, Nat.cast_mul, Nat.cast_mul, Nat.cast_pow, Nat.cast_pow,
      Nat.cast_ofNat, Nat.cast_ofNat, hexp]
    generalize (10 ^ 343 : ℚ) = s at hne
    generalize (2 ^ 1074 : ℚ) = u
    field_simp
  rw [contains_rounding_iff hpos, hpoint]

theorem value_bounds (hpos : 0 < x.place) :
    0 < x.rounding.lower ∧ x.rounding.lower < x.rounding.value ∧
      x.rounding.value + 10 ^ 343 < x.rounding.upper := by
  obtain ⟨hlower, hvalue, hupper, -⟩ := rounding_eq hpos
  have hprev : unitsAt (x.place - 1) < unitsAt x.place := unitsAt_strictMono (by omega)
  have hnext : unitsAt x.place < unitsAt (x.place + 1) := unitsAt_strictMono (by omega)
  have hscale : 0 < 10 ^ 343 := by positivity
  rw [hlower, hvalue, hupper]
  generalize 10 ^ 343 = s at hscale
  refine ⟨?_, ?_, ?_⟩
  · exact Nat.mul_pos (by omega) hscale
  · exact Nat.mul_lt_mul_of_pos_right (by omega) hscale
  · rw [← Nat.succ_mul]
    exact Nat.mul_lt_mul_of_pos_right (by omega) hscale

theorem contains_value (hpos : 0 < x.place) : x.rounding.contains x.rounding.value = true := by
  obtain ⟨-, hlow, hhigh⟩ := value_bounds hpos
  rw [Rounding.contains_iff]
  generalize 10 ^ 343 = s at hhigh
  omega

theorem two_pow_le_ten_pow {a b k : Nat} (ha : a ≤ 23 * k) (hb : 7 * k ≤ b) :
    2 ^ a ≤ 10 ^ b := by
  calc 2 ^ a ≤ 2 ^ (23 * k) := Nat.pow_le_pow_right (by omega) ha
    _ = (2 ^ 23) ^ k := pow_mul 2 23 k
    _ ≤ (10 ^ 7) ^ k := Nat.pow_le_pow_left (by omega) k
    _ = 10 ^ (7 * k) := (pow_mul 10 7 k).symm
    _ ≤ 10 ^ b := Nat.pow_le_pow_right (by omega) hb

theorem step_zero_le : Rounding.step 0 ≤ 10 ^ 343 := by
  simp only [Rounding.step, tenPow_eq, pow_zero, Nat.mul_one, twoPow_eq]
  apply two_pow_le_ten_pow (k := 49) <;> omega

theorem exists_contains_step_zero (hpos : 0 < x.place) :
    ∃ e, x.rounding.contains (e * Rounding.step 0) = true := by
  obtain ⟨-, hlow, hhigh⟩ := value_bounds hpos
  have hstep := step_zero_le
  have hpos := Rounding.step_pos 0
  generalize 10 ^ 343 = s at hhigh hstep
  generalize Rounding.step 0 = t at hstep hpos
  have hdown : x.rounding.value / t * t ≤ x.rounding.value := Nat.div_mul_le_self _ _
  have hup : x.rounding.value < t * (x.rounding.value / t + 1) := Nat.lt_mul_div_succ _ hpos
  refine ⟨x.rounding.value / t + 1, ?_⟩
  rw [Rounding.contains_iff]
  rw [Nat.mul_comm] at hup
  have hnext : (x.rounding.value / t + 1) * t = x.rounding.value / t * t + t := by
    rw [Nat.add_mul, Nat.one_mul]
  omega

/-- The digits and the grid that the search ends with. -/
@[irreducible]
def found (x : Binary64) : Nat × Nat := x.rounding.search x.rounding.start

section Found

variable (hpos : 0 < x.place)

include hpos

theorem near_found : Near x.place (x.found.1 * 10 ^ x.found.2 / 10 ^ 343 * 2 ^ 1074) := by
  rw [← contains_step_iff hpos, found]
  exact (Rounding.search_spec (contains_value hpos) (exists_contains_step_zero hpos) _).1

theorem not_near_coarser {k : Nat} (hk : x.found.2 < k) (e : Nat) :
    ¬Near x.place (e * 10 ^ k / 10 ^ 343 * 2 ^ 1074) := by
  rw [← contains_step_iff hpos, Bool.not_eq_true]
  rw [found] at hk
  exact Rounding.search_coarsest (contains_value hpos) (exists_contains_step_zero hpos)
    (value_bounds hpos).1 hk e

theorem found_mod_ten : x.found.1 % 10 ≠ 0 := by
  intro hmod
  obtain ⟨c, hc⟩ : ∃ c, x.found.1 = c * 10 := ⟨x.found.1 / 10, by omega⟩
  have hshift : (x.found.1 * 10 ^ x.found.2 : ℚ) = c * 10 ^ (x.found.2 + 1) := by
    rw [hc, Nat.cast_mul, Nat.cast_ofNat, mul_assoc, ← pow_succ']
  have hnear := near_found hpos
  rw [hshift] at hnear
  exact not_near_coarser hpos (Nat.lt_add_one _) c hnear

/-- The power of ten between a decimal of few digits and the digits that were found is on a coarser
grid than they are. -/
theorem not_near_of_lt {m z p l : Nat} (hm : m < 10 ^ (l + 1)) (hd : 10 ^ (l + 1) ≤ x.found.1)
    (hgrid : z + 343 ≤ x.found.2 + p) : ¬Near x.place (m * 10 ^ z / 10 ^ p * 2 ^ 1074) := by
  intro hn
  have hunit : (0 : ℚ) ≤ 2 ^ 1074 := by positivity
  have hscale : (0 : ℚ) < 10 ^ 343 := by positivity
  have hexp : (10 ^ z * 10 ^ 343 : ℚ) ≤ 10 ^ x.found.2 * 10 ^ p := by
    rw [← pow_add, ← pow_add]
    exact pow_le_pow_right₀ (by norm_num) hgrid
  have hpower : ((10 ^ l : ℕ) * 10 ^ (x.found.2 + 1) : ℚ) = 10 ^ (l + 1) * 10 ^ x.found.2 := by
    rw [Nat.cast_pow, Nat.cast_ofNat]
    ring
  have hbelow : (m * 10 ^ z / 10 ^ p : ℚ) ≤ (10 ^ l : ℕ) * 10 ^ (x.found.2 + 1) / 10 ^ 343 := by
    have hm' : (m : ℚ) ≤ 10 ^ (l + 1) := by exact_mod_cast hm.le
    rw [div_le_div_iff₀ (by positivity) hscale, hpower, mul_assoc, mul_assoc]
    exact mul_le_mul hm' hexp (by positivity) (by positivity)
  have habove : ((10 ^ l : ℕ) * 10 ^ (x.found.2 + 1) / 10 ^ 343 : ℚ) ≤
      x.found.1 * 10 ^ x.found.2 / 10 ^ 343 := by
    have hd' : (10 ^ (l + 1) : ℚ) ≤ x.found.1 := by exact_mod_cast hd
    rw [div_le_div_iff_of_pos_right hscale, hpower]
    exact mul_le_mul_of_nonneg_right hd' (by positivity)
  have hmid := hn.convex (near_found hpos) (mul_le_mul_of_nonneg_right hbelow hunit)
    (mul_le_mul_of_nonneg_right habove hunit)
  exact not_near_coarser hpos (Nat.lt_add_one _) (10 ^ l) hmid

/-- No decimal with fewer digits rounds to the number. -/
theorem length_found_le {n : Numeral} (hn : Near x.place (n.magnitude * 2 ^ 1074)) :
    (digits x.found.1).length ≤ significant n.coefficient := by
  by_contra! hlt
  have hne : n.coefficient ≠ 0 := by
    intro hzero
    have hmag := hn.pos hpos
    rw [Numeral.magnitude, hzero, Nat.cast_zero, zero_div, zero_mul] at hmag
    exact lt_irrefl 0 hmag
  obtain ⟨m, z, hc, hm, hmlt⟩ := exists_significant hne
  have hmag : n.magnitude = m * 10 ^ z / 10 ^ n.places := by
    rw [Numeral.magnitude, hc, Nat.cast_mul, Nat.cast_pow, Nat.cast_ofNat]
  rw [hmag] at hn
  rcases Nat.lt_or_ge (x.found.2 + n.places) (z + 343) with hgrid | hgrid
  · -- The decimal is itself on a coarser grid.
    obtain ⟨k, hk⟩ : ∃ k, z + 343 = k + n.places := ⟨z + 343 - n.places, by omega⟩
    have hscale : (10 ^ 343 : ℚ) ≠ 0 := by positivity
    have hpoint : (m * 10 ^ z / 10 ^ n.places : ℚ) = m * 10 ^ k / 10 ^ 343 := by
      rw [div_eq_div_iff (by positivity) hscale, mul_assoc, mul_assoc, ← pow_add, ← pow_add, hk]
    rw [hpoint] at hn
    exact not_near_coarser hpos (by omega) m hn
  · have hsome : significant n.coefficient ≠ 0 := by
      intro hzero
      rw [hzero, pow_zero] at hmlt
      omega
    obtain ⟨l, hl⟩ : ∃ l, (digits x.found.1).length = l + 2 :=
      ⟨(digits x.found.1).length - 2, by omega⟩
    have hlow : m < 10 ^ (l + 1) := hmlt.trans_le (Nat.pow_le_pow_right (by omega) (by omega))
    have hhigh : 10 ^ (l + 1) ≤ x.found.1 := by
      by_contra! hsmall
      have hlen := (Nat.length_toDigits_le_iff (by omega : 1 < 10) l.succ_pos).mpr hsmall
      rw [digits] at hl
      omega
    exact not_near_of_lt hpos hlow hhigh hgrid hn

end Found

theorem units_eq_zero_iff (x : Binary64) : x.units = 0 ↔ x.place = 0 := by
  rw [units_eq, ← unitsAt_zero, unitsAt_strictMono.injective.eq_iff, unitsAt_zero]

theorem shortest_of_zero (h : x.place = 0) : x.shortest = ⟨x.negative, 0, 0⟩ := by
  rw [shortest, if_pos ((units_eq_zero_iff x).mpr h)]

theorem shortest_of_pos (h : 0 < x.place) : x.shortest =
    ⟨x.negative, x.found.1 * tenPow (x.found.2 - 343), 343 - x.found.2⟩ := by
  have hunits : x.units ≠ 0 := fun hz => h.ne' ((units_eq_zero_iff x).mp hz)
  rw [shortest, if_neg hunits]
  generalize hp : x.rounding.search x.rounding.start = p
  obtain ⟨d, i⟩ := p
  have hfound : x.found = (d, i) := by rw [found, hp]
  simp only [hfound]

theorem magnitude_shortest (h : 0 < x.place) :
    x.shortest.magnitude = x.found.1 * 10 ^ x.found.2 / 10 ^ 343 := by
  have hsum : x.found.2 - 343 + 343 = x.found.2 + (343 - x.found.2) := by omega
  have hexp : (10 ^ (x.found.2 - 343) * 10 ^ 343 : ℚ) =
      10 ^ x.found.2 * 10 ^ (343 - x.found.2) := by
    rw [← pow_add, ← pow_add, hsum]
  have hscale : (10 ^ 343 : ℚ) ≠ 0 := by positivity
  rw [Numeral.magnitude, shortest_of_pos h, tenPow_eq, Nat.cast_mul, Nat.cast_pow, Nat.cast_ofNat,
    div_eq_div_iff (by positivity) hscale, mul_assoc, hexp, mul_assoc]

theorem value_shortest (hx : x.isFinite = true) : x.shortest.value = x := by
  rcases Nat.eq_zero_or_pos x.place with h | h
  · have hzero : x.shortest.magnitude = 0 := by
      rw [Numeral.magnitude, shortest_of_zero h, Nat.cast_zero, zero_div]
    rw [Numeral.value_eq_iff _ hx, roundsTo_iff hx x.shortest.magnitude_nonneg, hzero, zero_mul, h]
    exact ⟨by rw [shortest_of_zero h], near_zero⟩
  · rw [Numeral.value_eq_iff _ hx, roundsTo_iff hx x.shortest.magnitude_nonneg,
      magnitude_shortest h]
    exact ⟨by rw [shortest_of_pos h], near_found h⟩

/-- The shortest numeral has a last digit that counts, and no decimal that reads back has fewer
digits. -/
theorem exists_digits (hx : x.isFinite = true) (h : 0 < x.place) :
    ∃ c i, x.shortest = ⟨x.negative, c * 10 ^ (i - 343), 343 - i⟩ ∧ c % 10 ≠ 0 ∧
      ∀ n : Numeral, n.value = x → (digits c).length ≤ significant n.coefficient := by
  refine ⟨x.found.1, x.found.2, shortest_of_pos h, found_mod_ten h, fun n hn => ?_⟩
  apply length_found_le h
  rw [← roundsTo_iff hx n.magnitude_nonneg]
  exact ((n.value_eq_iff hx).mp hn).2

end Binary64
end MetricPipeline
