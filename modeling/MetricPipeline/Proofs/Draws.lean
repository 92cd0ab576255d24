import MetricPipeline.Proofs.Erasure

namespace MetricPipeline

theorem twoPow_eq (k : Nat) : twoPow k = 2 ^ k := rfl

theorem roundDiv_mul (q : Nat) {d : Nat} (hd : 0 < d) : roundDiv (q * d) d = q := by
  simp [roundDiv, hd]

namespace Binary64

/-- A significand with its leading bit, at a spacing of `2 ^ e` units. -/
def normal (m e : Nat) : Binary64 := ⟨UInt64.ofNat (e * twoPow 52 + m)⟩

section Normal

variable {m e : Nat} (hlow : 2 ^ 52 ≤ m) (hhigh : m < 2 ^ 53) (he : e < 2046)

include hlow hhigh he

theorem fields_normal :
    (normal m e).negative = false ∧ (normal m e).exponent = e + 1 ∧
      (normal m e).fraction = m - 2 ^ 52 := by
  have hb : (normal m e).bits.toNat = e * 2 ^ 52 + m := by
    simp only [normal, UInt64.toNat_ofNat', twoPow_eq, Nat.reducePow] at *
    omega
  simp only [negative, exponent, fraction, hb, twoPow_eq, Nat.reducePow,
    decide_eq_false_iff_not] at *
  omega

theorem units_normal :
    (normal m e).isNaN = false ∧ (normal m e).signedUnits = (m * 2 ^ e : Nat) := by
  obtain ⟨hn, hx, hf⟩ := fields_normal hlow hhigh he
  have hs : (normal m e).significand = m := by
    rw [significand, hx, hf, twoPow_eq, if_neg (Nat.succ_ne_zero e)]
    omega
  refine ⟨?_, ?_⟩
  · rw [isNaN, hx, decide_eq_false_iff_not]
    omega
  · rw [signedUnits, hn, if_neg Bool.false_ne_true, units, hs, spacing, hx, Nat.add_sub_cancel,
      twoPow_eq]

theorem nearest_eq_normal {n d : Nat} (hd : 0 < d) (h : n * 2 ^ 1074 = m * 2 ^ e * d) :
    nearest n d = normal m e := by
  have hlog : Nat.log2 (m * 2 ^ e) = e + 52 := by
    have hpos : m * 2 ^ e ≠ 0 := by positivity
    rw [Nat.log2_eq_iff hpos, pow_add, pow_add, pow_add]
    constructor
    · nlinarith [Nat.two_pow_pos e]
    · nlinarith [Nat.two_pow_pos e]
  have hround : roundDiv (m * 2 ^ e * d) (d * 2 ^ e) = m := by
    rw [mul_assoc, mul_comm (2 ^ e) d]
    exact roundDiv_mul m (by positivity)
  have hmin : min (e * 2 ^ 52 + m) (2047 * 2 ^ 52) = e * 2 ^ 52 + m := by omega
  simp only [nearest, twoPow_eq, h, Nat.mul_div_cancel _ hd, hlog, Nat.add_sub_cancel, hround,
    hmin, normal]

end Normal

theorem nearest_zero {d : Nat} (hd : 0 < d) : nearest 0 d = zero := by
  have hr : roundDiv 0 (d * twoPow 0) = 0 := by
    have h := roundDiv_mul 0 (Nat.mul_pos hd (Nat.two_pow_pos 0))
    rwa [Nat.zero_mul] at h
  simp only [nearest, Nat.zero_mul, Nat.zero_div, Nat.log2_zero, Nat.zero_sub, hr, Nat.add_zero,
    Nat.zero_min]
  rfl

/-- The draw that a word makes: its upper 53 bits, as binary places. -/
def draw (word : UInt64) : Binary64 := nearest (word >>> 11).toNat (twoPow 53)

theorem toNat_upper (word : UInt64) : (word >>> 11).toNat = word.toNat / 2 ^ 11 := by
  simp only [UInt64.toNat_shiftRight, UInt64.toNat_ofNat, Nat.reducePow, Nat.reduceMod,
    Nat.shiftRight_eq_div_pow]

theorem units_draw (word : UInt64) :
    (draw word).isNaN = false ∧
      (draw word).signedUnits = ((word >>> 11).toNat * 2 ^ 1021 : Nat) := by
  have hk : (word >>> 11).toNat < 2 ^ 53 := by
    have hw := word.toNat_lt
    rw [toNat_upper]
    omega
  generalize hn : (word >>> 11).toNat = k at hk
  rw [draw, hn]
  by_cases hz : k = 0
  · subst hz
    rw [nearest_zero (Nat.two_pow_pos 53), Nat.zero_mul]
    exact ⟨isNaN_zero, by decide⟩
  · -- The leading bit of the draw moves to the front of the significand.
    have hlow := Nat.log2_self_le hz
    have hhigh := Nat.lt_log2_self (n := k)
    have hl : k.log2 ≤ 52 := Nat.lt_succ_iff.mp ((Nat.log2_lt hz).mpr hk)
    generalize k.log2 = l at hlow hhigh hl
    obtain ⟨i, hi⟩ := Nat.exists_eq_add_of_le hl
    have hp : 2 ^ l * 2 ^ i = 2 ^ 52 := by rw [← pow_add, ← hi]
    have hm : 2 ^ 52 ≤ k * 2 ^ i ∧ k * 2 ^ i < 2 ^ 53 := by
      rw [pow_succ] at hhigh
      constructor <;> nlinarith [Nat.two_pow_pos i]
    have hu : k * 2 ^ 1021 = k * 2 ^ i * 2 ^ (l + 969) := by
      have he : 1021 = i + (l + 969) := by omega
      rw [he, pow_add, mul_assoc]
    have hq : k * 2 ^ 1074 = k * 2 ^ i * 2 ^ (l + 969) * twoPow 53 := by
      have he : 1074 = 1021 + 53 := rfl
      rw [← hu, he, pow_add, twoPow_eq, mul_assoc]
    rw [nearest_eq_normal hm.1 hm.2 (by omega) (Nat.two_pow_pos 53) hq, hu]
    exact units_normal hm.1 hm.2 (by omega)

def value (x : Binary64) : ℚ := x.signedUnits / 2 ^ 1074

theorem value_draw (word : UInt64) : (draw word).value = (word >>> 11).toNat / 2 ^ 53 := by
  have he : 1074 = 1021 + 53 := rfl
  have hp : (2 ^ 1021 : ℚ) ≠ 0 := by positivity
  rw [value, (units_draw word).2, he, pow_add, Int.cast_natCast, Nat.cast_mul, Nat.cast_pow,
    Nat.cast_ofNat, mul_comm (2 ^ 1021 : ℚ), mul_div_mul_right _ _ hp]

theorem lt_iff_value {x y : Binary64} (hx : x.isNaN = false) (hy : y.isNaN = false) :
    x.lt y = true ↔ x.value < y.value := by
  have hp : (0 : ℚ) < 2 ^ 1074 := by positivity
  rw [lt, hx, hy, value, value, div_lt_div_iff_of_pos_right hp, Int.cast_lt]
  simp

theorem le_iff_value {x y : Binary64} (hx : x.isNaN = false) (hy : y.isNaN = false) :
    x.le y = true ↔ x.value ≤ y.value := by
  rw [le_eq_not_lt hx hy, Bool.not_eq_true', ← Bool.not_eq_true, lt_iff_value hy hx, not_lt]

theorem value_zero : zero.value = 0 := by
  have hu : zero.signedUnits = 0 := by decide
  rw [value, hu, Int.cast_zero, zero_div]

theorem value_one : one.value = 1 := by
  have hn : one = normal (2 ^ 52) 1022 := by decide
  have hu := (units_normal (m := 2 ^ 52) (e := 1022) le_rfl (by omega) (by omega)).2
  have he : 1074 = 52 + 1022 := rfl
  rw [hn, value, hu, ← pow_add, he, Int.cast_natCast, Nat.cast_pow, Nat.cast_ofNat]
  exact div_self (by positivity)

/-- The words with which a metric of such a rate is kept. -/
def acceptedWords (rate : Binary64) : Set UInt64 :=
  {word | (decideSample rate ({ words := [word] } : Cycle)).1 = true}

section Drawn

variable {rate : Binary64}

theorem isNaN_of_zero_lt (h : zero.lt rate = true) : rate.isNaN = false := by
  cases hn : rate.isNaN with
  | false => rfl
  | true => simp [lt, hn] at h

variable (h₀ : zero.lt rate = true) (h₁ : rate.lt one = true)

include h₀ in
theorem accepts_iff (word : UInt64) : rate.accepts word = true ↔ (draw word).lt rate = true := by
  obtain ⟨hd, hu⟩ := units_draw word
  have hs : rate.signedUnits = rate.units := by
    have hz : zero.signedUnits = 0 := by decide
    rw [lt, hz] at h₀
    cases hn : rate.negative with
    | false => rw [signedUnits, hn, if_neg Bool.false_ne_true]
    | true =>
      have hp := (Bool.and_eq_true_iff.mp h₀).2
      rw [signedUnits, hn, if_pos rfl, decide_eq_true_eq] at hp
      omega
  rw [accepts, lt, hd, isNaN_of_zero_lt h₀, hs, hu, twoPow_eq, decide_eq_true_eq]
  simp only [Bool.not_false, Bool.true_and, decide_eq_true_eq, Int.ofNat_lt]

include h₀ h₁ in
theorem mem_acceptedWords_iff (word : UInt64) :
    word ∈ rate.acceptedWords ↔ (draw word).lt rate = true := by
  have hc : rate.chance = .drawn := chance_eq_drawn_iff.mpr (by rw [h₀, h₁, Bool.and_self])
  have hw : (WordSource.next ({ words := [word] } : Cycle)).1 = word := rfl
  rw [acceptedWords, Set.mem_ofPred_eq, decideSample, hc, ← accepts_iff h₀]
  simp only [hw]

include h₀ h₁ in
theorem decideSample_of_drawn {σ : Type} [WordSource σ] (s : σ) :
    ((decideSample rate s).1 = true ↔ (WordSource.next s).1 ∈ rate.acceptedWords) ∧
      (decideSample rate s).2 = (WordSource.next s).2 := by
  have hc : rate.chance = .drawn := chance_eq_drawn_iff.mpr (by rw [h₀, h₁, Bool.and_self])
  rw [mem_acceptedWords_iff h₀ h₁, ← accepts_iff h₀, decideSample, hc]
  exact ⟨Iff.rfl, rfl⟩

include h₀ h₁ in
theorem mem_acceptedWords_iff_toNat_lt (word : UInt64) :
    word ∈ rate.acceptedWords ↔ word.toNat < 2 ^ 11 * ⌈rate.value * 2 ^ 53⌉₊ := by
  have hp : (0 : ℚ) < 2 ^ 53 := by positivity
  rw [mem_acceptedWords_iff h₀ h₁, lt_iff_value (units_draw word).1 (isNaN_of_zero_lt h₀),
    value_draw, div_lt_iff₀ hp, ← Nat.lt_ceil, toNat_upper, Nat.div_lt_iff_lt_mul (by omega),
    mul_comm]

include h₀ h₁ in
theorem ceil_value_bounds :
    0 < ⌈rate.value * 2 ^ 53⌉₊ ∧ ⌈rate.value * 2 ^ 53⌉₊ ≤ 2 ^ 53 := by
  have hn := isNaN_of_zero_lt h₀
  rw [lt_iff_value isNaN_zero hn, value_zero] at h₀
  rw [lt_iff_value hn isNaN_one, value_one] at h₁
  have hp : (0 : ℚ) < 2 ^ 53 := by positivity
  refine ⟨Nat.ceil_pos.mpr (mul_pos h₀ hp), Nat.ceil_le.mpr ?_⟩
  push_cast
  exact mul_le_of_le_one_left hp.le h₁.le

end Drawn

def wordsBelow {n : Nat} (hn : n ≤ 2 ^ 64) : {word : UInt64 // word.toNat < n} ≃ Fin n where
  toFun w := ⟨w.1.toNat, w.2⟩
  invFun k := ⟨UInt64.ofNat k, by
    rw [UInt64.toNat_ofNat_of_lt' (lt_of_lt_of_le k.2 hn)]
    exact k.2⟩
  left_inv w := Subtype.ext UInt64.ofNat_toNat
  right_inv k := Fin.ext (UInt64.toNat_ofNat_of_lt' (lt_of_lt_of_le k.2 hn))

theorem card_wordsBelow {n : Nat} (hn : n ≤ 2 ^ 64) :
    Nat.card {word : UInt64 // word.toNat < n} = n := by
  rw [Nat.card_congr (wordsBelow hn), Nat.card_fin]

theorem card_words : Nat.card UInt64 = 2 ^ 64 := by
  rw [← card_wordsBelow le_rfl]
  exact Nat.card_congr (Equiv.subtypeUnivEquiv UInt64.toNat_lt).symm

/-- The probability of a set of words, if they are all equally likely. -/
noncomputable def wordProb (s : Set UInt64) : ℚ := s.ncard / Nat.card UInt64

section Count

variable {rate : Binary64} (h₀ : zero.lt rate = true) (h₁ : rate.lt one = true)

include h₀ h₁

theorem ncard_acceptedWords : rate.acceptedWords.ncard = 2 ^ 11 * ⌈rate.value * 2 ^ 53⌉₊ := by
  have hs : rate.acceptedWords = {word | word.toNat < 2 ^ 11 * ⌈rate.value * 2 ^ 53⌉₊} :=
    Set.ext (mem_acceptedWords_iff_toNat_lt h₀ h₁)
  have hb := (ceil_value_bounds h₀ h₁).2
  rw [hs, ← Nat.card_coe_set_eq]
  exact card_wordsBelow (by omega)

theorem wordProb_acceptedWords :
    wordProb rate.acceptedWords = ⌈rate.value * 2 ^ 53⌉₊ / 2 ^ 53 := by
  have hp : (2 ^ 11 : ℚ) ≠ 0 := by positivity
  have he : 64 = 11 + 53 := rfl
  rw [wordProb, ncard_acceptedWords h₀ h₁, card_words, he, pow_add, Nat.cast_mul, Nat.cast_mul,
    Nat.cast_pow, Nat.cast_pow, Nat.cast_ofNat, mul_div_mul_left _ _ hp]

theorem acceptedWords_mono {rate' : Binary64} (h₁' : rate'.lt one = true)
    (h : rate.le rate' = true) : rate.acceptedWords ⊆ rate'.acceptedWords := by
  have hn := isNaN_of_zero_lt h₀
  have hn' : rate'.isNaN = false := by
    cases hn' : rate'.isNaN with
    | false => rfl
    | true => simp [le, hn'] at h
  rw [le_iff_value hn hn'] at h
  have h₀' : zero.lt rate' = true := by
    rw [lt_iff_value isNaN_zero hn] at h₀
    rw [lt_iff_value isNaN_zero hn']
    exact lt_of_lt_of_le h₀ h
  intro word hw
  rw [mem_acceptedWords_iff h₀ h₁, lt_iff_value (units_draw word).1 hn] at hw
  rw [mem_acceptedWords_iff h₀' h₁', lt_iff_value (units_draw word).1 hn']
  exact lt_of_lt_of_le hw h

end Count

/-- At a rate strictly between zero and one, the next word decides, by whether its draw is below the
rate, the draw being its upper 53 bits as they stand. As many words are accepted as the rate,
rounded up to 53 binary places, says; so if the words are equally likely, the probability is the
rate or above it by less than the last of those places, and is neither zero nor above one. What is
accepted at a rate is accepted at all larger ones. -/
theorem acceptance_exact {rate : Binary64} (h₀ : zero.lt rate = true) (h₁ : rate.lt one = true) :
    (∀ {σ : Type} [WordSource σ] (s : σ),
      ((decideSample rate s).1 = true ↔ (WordSource.next s).1 ∈ rate.acceptedWords) ∧
        (decideSample rate s).2 = (WordSource.next s).2) ∧
      (∀ word, (draw word).value = (word >>> 11).toNat / 2 ^ 53 ∧
        (word ∈ rate.acceptedWords ↔ (draw word).lt rate = true) ∧
        (word ∈ rate.acceptedWords ↔ (word >>> 11).toNat / 2 ^ 53 < rate.value)) ∧
      Nat.card UInt64 = 2 ^ 64 ∧
      rate.acceptedWords.ncard = 2 ^ 11 * ⌈rate.value * 2 ^ 53⌉₊ ∧
      rate.value ≤ wordProb rate.acceptedWords ∧
      wordProb rate.acceptedWords < rate.value + 1 / 2 ^ 53 ∧
      0 < wordProb rate.acceptedWords ∧
      wordProb rate.acceptedWords ≤ 1 ∧
      ∀ rate' : Binary64, rate'.lt one = true → rate.le rate' = true →
        rate.acceptedWords ⊆ rate'.acceptedWords := by
  have hp : (0 : ℚ) < 2 ^ 53 := by positivity
  obtain ⟨hlow, hhigh⟩ := ceil_value_bounds h₀ h₁
  have hn := isNaN_of_zero_lt h₀
  refine ⟨decideSample_of_drawn h₀ h₁, ?_, card_words, ncard_acceptedWords h₀ h₁, ?_, ?_, ?_, ?_,
    fun rate' => acceptedWords_mono h₀ h₁⟩
  · intro word
    have hm := mem_acceptedWords_iff h₀ h₁ word
    refine ⟨value_draw word, hm, ?_⟩
    rw [hm, lt_iff_value (units_draw word).1 hn, value_draw]
  all_goals rw [wordProb_acceptedWords h₀ h₁]
  · rw [le_div_iff₀ hp]
    exact Nat.le_ceil _
  · have hv : 0 ≤ rate.value := by
      rw [lt_iff_value isNaN_zero hn, value_zero] at h₀
      exact h₀.le
    rw [div_lt_iff₀ hp, add_mul, div_mul_cancel₀ _ hp.ne']
    exact Nat.ceil_lt_add_one (by positivity)
  · exact div_pos (Nat.cast_pos.mpr hlow) hp
  · rw [div_le_one hp]
    exact_mod_cast hhigh

/-- The least rate above zero is one unit, and the only draw below it is zero. -/
theorem acceptance_exact_least :
    zero.lt ⟨1⟩ = true ∧ lt ⟨1⟩ one = true ∧ (acceptedWords ⟨1⟩).ncard = 2 ^ 11 := by
  have h₀ : zero.lt ⟨1⟩ = true := by decide
  have h₁ : lt ⟨1⟩ one = true := by decide +kernel
  obtain ⟨-, -, -, hn, -⟩ := acceptance_exact h₀ h₁
  have hu : signedUnits ⟨1⟩ = 1 := by decide
  have hle : value ⟨1⟩ * 2 ^ 53 ≤ 1 := by
    have hp : (2 ^ 53 : ℚ) ≤ 2 ^ 1074 := pow_le_pow_right₀ one_le_two (by omega)
    rw [value, hu, Int.cast_one, one_div_mul_eq_div]
    exact div_le_one_of_le₀ hp (by positivity)
  have hc : ⌈value ⟨1⟩ * 2 ^ 53⌉₊ = 1 :=
    le_antisymm (Nat.ceil_le.mpr (by rwa [Nat.cast_one])) (ceil_value_bounds h₀ h₁).1
  rw [hc, mul_one] at hn
  exact ⟨h₀, h₁, hn⟩

end Binary64
end MetricPipeline
