import MetricPipeline.Proofs.Draws

namespace MetricPipeline

theorem roundDiv_bounds (n : Nat) {d : Nat} (hd : 0 < d) :
    2 * roundDiv n d * d ≤ 2 * n + d ∧ 2 * n ≤ (2 * roundDiv n d + 1) * d ∧
      (roundDiv n d % 2 = 1 →
        2 * roundDiv n d * d < 2 * n + d ∧ 2 * n < (2 * roundDiv n d + 1) * d) := by
  have hn : n = d * (n / d) + n % d := (Nat.div_add_mod n d).symm
  have hr : n % d < d := Nat.mod_lt n hd
  have hval : roundDiv n d = if 2 * (n % d) < d then n / d
      else if 2 * (n % d) = d then n / d + n / d % 2 else n / d + 1 := rfl
  generalize n / d = q at hn hval
  generalize n % d = r at hn hr hval
  rw [hval, hn]
  split_ifs with hlt heq
  · refine ⟨?_, ?_, fun _ => ⟨?_, ?_⟩⟩ <;> nlinarith
  · obtain h | h := Nat.mod_two_eq_zero_or_one q
    · rw [h, Nat.add_zero]
      refine ⟨?_, ?_, fun hodd => ?_⟩
      · nlinarith
      · nlinarith
      · omega
    · rw [h]
      refine ⟨?_, ?_, fun hodd => ?_⟩
      · nlinarith
      · nlinarith
      · omega
  · have hgt : d < 2 * r := by omega
    refine ⟨?_, ?_, fun _ => ⟨?_, ?_⟩⟩ <;> nlinarith

theorem roundDiv_half_steps (n : Nat) {d s : Nat} (hd : 0 < d) (hs : 0 < s) :
    (2 * roundDiv n (d * s) - 1) * s ≤ 2 * (n / d : ℚ) ∧
      2 * (n / d : ℚ) ≤ (2 * roundDiv n (d * s) + 1) * s ∧
      (roundDiv n (d * s) % 2 = 1 → (2 * roundDiv n (d * s) - 1) * s < 2 * (n / d : ℚ) ∧
        2 * (n / d : ℚ) < (2 * roundDiv n (d * s) + 1) * s) := by
  obtain ⟨hdown, hup, hodd⟩ := roundDiv_bounds n (Nat.mul_pos hd hs)
  generalize roundDiv n (d * s) = m at hdown hup hodd
  have hd' : (0 : ℚ) < d := by exact_mod_cast hd
  have hlow : (2 * m - 1) * s = (2 * m * (d * s) - d * s : ℚ) / d := by field_simp
  have hhigh : (2 * m + 1) * s = ((2 * m + 1) * (d * s) : ℚ) / d := by field_simp
  rw [hlow, hhigh, ← mul_div_assoc, div_le_div_iff_of_pos_right hd',
    div_le_div_iff_of_pos_right hd', div_lt_div_iff_of_pos_right hd',
    div_lt_div_iff_of_pos_right hd', sub_le_iff_le_add, sub_lt_iff_lt_add]
  exact ⟨by exact_mod_cast hdown, by exact_mod_cast hup, fun h => by exact_mod_cast hodd h⟩

theorem roundDiv_mem (n d : Nat) : n / d ≤ roundDiv n d ∧ roundDiv n d ≤ n / d + 1 := by
  have hval : roundDiv n d = if 2 * (n % d) < d then n / d
      else if 2 * (n % d) = d then n / d + n / d % 2 else n / d + 1 := rfl
  rw [hval]
  split_ifs <;> omega

namespace Binary64

def scaleAt (b : Nat) : Nat := b / 2 ^ 52 - 1

/-- The magnitude at a place, as if the range had no end. -/
def unitsAt (b : Nat) : Nat := (b - scaleAt b * 2 ^ 52) * 2 ^ scaleAt b

theorem exists_place (b : Nat) :
    ∃ e m, b = e * 2 ^ 52 + m ∧ (e = 0 ∨ 2 ^ 52 ≤ m) ∧ m < 2 ^ 53 := by
  refine ⟨scaleAt b, b - scaleAt b * 2 ^ 52, ?_, ?_, ?_⟩ <;>
    simp only [scaleAt, Nat.reducePow] <;> omega

section Place

variable {e m : Nat} (hlow : e = 0 ∨ 2 ^ 52 ≤ m)

include hlow

theorem scaleAt_place (hhigh : m < 2 ^ 53) : scaleAt (e * 2 ^ 52 + m) = e := by
  simp only [scaleAt, Nat.reducePow] at *
  omega

theorem unitsAt_place (hhigh : m ≤ 2 ^ 53) : unitsAt (e * 2 ^ 52 + m) = m * 2 ^ e := by
  rcases Nat.lt_or_eq_of_le hhigh with hm | rfl
  · rw [unitsAt, scaleAt_place hlow hm, Nat.add_sub_cancel_left]
  · have hb : e * 2 ^ 52 + 2 ^ 53 = (e + 1) * 2 ^ 52 + 2 ^ 52 := by omega
    rw [hb, unitsAt, scaleAt_place (.inr le_rfl) (by omega), Nat.add_sub_cancel_left]
    ring

end Place

theorem unitsAt_succ (b : Nat) : unitsAt (b + 1) = unitsAt b + 2 ^ scaleAt b := by
  obtain ⟨e, m, rfl, hlow, hhigh⟩ := exists_place b
  have hlow' : e = 0 ∨ 2 ^ 52 ≤ m + 1 := hlow.imp_right fun h => by omega
  rw [scaleAt_place hlow hhigh, unitsAt_place hlow hhigh.le, Nat.add_assoc,
    unitsAt_place hlow' hhigh, Nat.add_mul, Nat.one_mul]

theorem unitsAt_strictMono : StrictMono unitsAt := by
  apply strictMono_nat_of_lt_succ
  intro b
  rw [unitsAt_succ]
  exact Nat.lt_add_of_pos_right (Nat.two_pow_pos _)

theorem unitsAt_cast_lt {b c : Nat} (h : b < c) : (unitsAt b : ℚ) < unitsAt c := by
  exact_mod_cast unitsAt_strictMono h

theorem unitsAt_cast_le {b c : Nat} (h : b ≤ c) : (unitsAt b : ℚ) ≤ unitsAt c := by
  exact_mod_cast unitsAt_strictMono.monotone h

theorem unitsAt_zero : unitsAt 0 = 0 := by decide

/-- Half way from the place before. There is none before the first. -/
def border (b : Nat) : ℚ := (unitsAt (b - 1) + unitsAt b) / 2

theorem border_succ (b : Nat) : border (b + 1) = (unitsAt b + unitsAt (b + 1)) / 2 := by
  rw [border, Nat.add_sub_cancel]

theorem border_zero : border 0 = 0 := by simp [border, unitsAt_zero]

theorem border_le_unitsAt (b : Nat) : border b ≤ unitsAt b := by
  have h := unitsAt_cast_le (Nat.sub_le b 1)
  rw [border]
  linarith

theorem border_strictMono : StrictMono border := by
  intro b c h
  have h₁ : (unitsAt (b - 1) : ℚ) ≤ unitsAt (c - 1) := unitsAt_cast_le (by omega)
  have h₂ := unitsAt_cast_lt h
  rw [border, border]
  linarith

/-- The quantity is rounded to this place. -/
def Near (b : Nat) (t : ℚ) : Prop :=
  border b ≤ t ∧ t ≤ border (b + 1) ∧ (b % 2 = 1 → border b < t ∧ t < border (b + 1))

theorem Near.convex {b : Nat} {s t u : ℚ} (hs : Near b s) (hu : Near b u) (hst : s ≤ t)
    (htu : t ≤ u) : Near b t :=
  ⟨hs.1.trans hst, htu.trans hu.2.1,
    fun h => ⟨(hs.2.2 h).1.trans_le hst, htu.trans_lt (hu.2.2 h).2⟩⟩

theorem Near.pos {b : Nat} (hb : 0 < b) {t : ℚ} (h : Near b t) : 0 < t := by
  have hborder := border_strictMono hb
  rw [border_zero] at hborder
  exact hborder.trans_le h.1

theorem near_zero : Near 0 0 := by
  refine ⟨border_zero.le, ?_, fun hodd => absurd hodd (by decide)⟩
  rw [← border_zero]
  exact border_strictMono.monotone (Nat.zero_le 1)

/-- Neighbours are not both even, so only one of them takes the border between them. -/
theorem Near.unique {b c : Nat} {t : ℚ} (hb : Near b t) (hc : Near c t) : b = c := by
  have hle {b c : Nat} (hb : Near b t) (hc : Near c t) : c ≤ b := by
    by_contra! hlt
    have hmid := border_strictMono.monotone (show b + 1 ≤ c from hlt)
    have heq : border (b + 1) = border c := le_antisymm hmid (hc.1.trans hb.2.1)
    have hnext : b + 1 = c := border_strictMono.injective heq
    rcases Nat.mod_two_eq_zero_or_one b with h | h
    · have hlt := (hc.2.2 (by omega)).1
      linarith [hb.2.1]
    · have hlt := (hb.2.2 h).2
      linarith [hc.1]
  exact le_antisymm (hle hc hb) (hle hb hc)

def placeOf (n d : Nat) : Nat :=
  let k := Nat.log2 (n / d) - 52
  k * 2 ^ 52 + roundDiv n (d * 2 ^ k)

/-- The scale leaves less than 54 bits and, unless it is the smallest one, more than 52. -/
theorem quotient_bounds (n d : Nat) :
    n / d / 2 ^ (Nat.log2 (n / d) - 52) < 2 ^ 53 ∧
      (Nat.log2 (n / d) - 52 = 0 ∨ 2 ^ 52 ≤ n / d / 2 ^ (Nat.log2 (n / d) - 52)) := by
  generalize n / d = q
  obtain ⟨k, hk⟩ : ∃ k, Nat.log2 q - 52 = k := ⟨_, rfl⟩
  rw [hk]
  constructor
  · have hlog : q < 2 ^ (Nat.log2 q + 1) := Nat.lt_log2_self
    have hpow : q < 2 ^ k * 2 ^ 53 := by
      rw [← pow_add]
      exact hlog.trans_le (Nat.pow_le_pow_right (by omega) (by omega))
    exact Nat.div_lt_of_lt_mul hpow
  · rcases Nat.eq_zero_or_pos k with h | h
    · exact .inl h
    · right
      have hne : q ≠ 0 := by
        rintro rfl
        rw [Nat.log2_zero] at hk
        omega
      have hlog : 2 ^ Nat.log2 q ≤ q := Nat.log2_self_le hne
      have hexp : Nat.log2 q = 52 + k := by omega
      rw [hexp, pow_add] at hlog
      exact (Nat.le_div_iff_mul_le (by positivity)).mpr hlog

section Border

variable {e m : Nat}

theorem le_border_succ (hlow : e = 0 ∨ 2 ^ 52 ≤ m) (hhigh : m ≤ 2 ^ 53) :
    (2 * m + 1) * 2 ^ e ≤ 2 * border (e * 2 ^ 52 + m + 1) := by
  have hscale : e ≤ scaleAt (e * 2 ^ 52 + m) := by
    simp only [scaleAt, Nat.reducePow] at *
    omega
  have hstep : (2 ^ e : ℚ) ≤ 2 ^ scaleAt (e * 2 ^ 52 + m) := pow_le_pow_right₀ (by norm_num) hscale
  rw [border_succ, unitsAt_succ, unitsAt_place hlow hhigh, Nat.cast_add,
    Nat.cast_mul, Nat.cast_pow, Nat.cast_pow, Nat.cast_ofNat]
  generalize scaleAt (e * 2 ^ 52 + m) = s at hstep
  linarith

theorem border_place (hlow : e = 0 ∨ 2 ^ 52 < m) (hpos : 0 < m) (hhigh : m ≤ 2 ^ 53) :
    2 * border (e * 2 ^ 52 + m) = (2 * m - 1) * 2 ^ e := by
  have hprev : e * 2 ^ 52 + m - 1 = e * 2 ^ 52 + (m - 1) := by omega
  rw [border, hprev, unitsAt_place (hlow.imp_right fun h => h.le) hhigh,
    unitsAt_place (hlow.imp_right fun h => by omega) (by omega), Nat.cast_mul, Nat.cast_mul,
    Nat.cast_sub hpos, Nat.cast_pow, Nat.cast_ofNat, Nat.cast_one]
  ring

/-- Below a power of two the half step is wider than the way to the border, but a quantity that
has the power of two as its floor does not fall short of it. -/
theorem border_le_of_half_step {t : ℚ} (ht : 0 ≤ t) (hlow : e = 0 ∨ 2 ^ 52 ≤ m) (hhigh : m ≤ 2 ^ 53)
    (hfloor : e = 0 ∨ 2 ^ 52 * 2 ^ e ≤ t) (hdown : (2 * m - 1) * 2 ^ e ≤ 2 * t)
    (hodd : m % 2 = 1 → (2 * m - 1) * 2 ^ e < 2 * t) :
    border (e * 2 ^ 52 + m) ≤ t ∧ (m % 2 = 1 → border (e * 2 ^ 52 + m) < t) := by
  by_cases hpower : 0 < e ∧ m = 2 ^ 52
  · obtain ⟨he, rfl⟩ := hpower
    refine ⟨(border_le_unitsAt _).trans ?_, fun hodd => absurd hodd (by decide)⟩
    rw [unitsAt_place (.inr le_rfl) hhigh, Nat.cast_mul, Nat.cast_pow, Nat.cast_pow, Nat.cast_ofNat]
    exact hfloor.resolve_left he.ne'
  · rcases Nat.eq_zero_or_pos m with rfl | hm
    · obtain rfl : e = 0 := hlow.resolve_right (by omega)
      rw [Nat.zero_mul, Nat.add_zero, border_zero]
      exact ⟨ht, fun hodd => absurd hodd (by decide)⟩
    · rw [← border_place (by omega) hm hhigh] at hdown hodd
      exact ⟨by linarith only [hdown], fun h => by linarith only [hodd h]⟩

end Border

theorem near_placeOf (n : Nat) {d : Nat} (hd : 0 < d) : Near (placeOf n d) (n / d) := by
  obtain ⟨hhigh, hlow⟩ := quotient_bounds n d
  have hplace : placeOf n d = (Nat.log2 (n / d) - 52) * 2 ^ 52 +
      roundDiv n (d * 2 ^ (Nat.log2 (n / d) - 52)) := rfl
  rw [hplace]
  generalize Nat.log2 (n / d) - 52 = k at hhigh hlow
  rw [Nat.div_div_eq_div_mul] at hhigh hlow
  obtain ⟨hge, hle⟩ := roundDiv_mem n (d * 2 ^ k)
  have hsteps := roundDiv_half_steps n hd (Nat.two_pow_pos k)
  rw [Nat.cast_pow, Nat.cast_ofNat] at hsteps
  have hd' : (0 : ℚ) < d := by exact_mod_cast hd
  have hfloor : k = 0 ∨ (2 ^ 52 * 2 ^ k : ℚ) ≤ n / d := by
    refine hlow.imp_right fun h => ?_
    have hint : 2 ^ 52 * (d * 2 ^ k) ≤ n :=
      (Nat.mul_le_mul_right _ h).trans (Nat.div_mul_le_self _ _)
    have hcast : (2 ^ 52 * (d * 2 ^ k) : ℚ) ≤ n := by exact_mod_cast hint
    rw [le_div_iff₀ hd']
    linarith
  generalize roundDiv n (d * 2 ^ k) = m at hge hle hsteps
  obtain ⟨hdown, hup, hodd⟩ := hsteps
  have hlow' : k = 0 ∨ 2 ^ 52 ≤ m := hlow.imp_right fun h => h.trans hge
  have hhigh' : m ≤ 2 ^ 53 := by omega
  have hnext : (2 * m + 1) * 2 ^ k ≤ 2 * border (k * 2 ^ 52 + m + 1) := le_border_succ hlow' hhigh'
  have hprev := border_le_of_half_step (div_nonneg (Nat.cast_nonneg n) hd'.le) hlow' hhigh' hfloor
    hdown fun h => (hodd h).1
  obtain ⟨b, hb⟩ : ∃ b, b = k * 2 ^ 52 + m := ⟨_, rfl⟩
  have hparity : b % 2 = m % 2 := by omega
  rw [← hb] at hnext hprev ⊢
  refine ⟨hprev.1, by linarith only [hup, hnext], fun h => ?_⟩
  rw [hparity] at h
  exact ⟨hprev.2 h, by linarith only [(hodd h).2, hnext]⟩

/-- The magnitudes stand at the places 0, 1, 2, …, which are their bits. -/
def place (x : Binary64) : Nat := x.bits.toNat % 2 ^ 63

def lastPlace : Nat := 2047 * 2 ^ 52

theorem place_fields (x : Binary64) :
    x.place = x.exponent * 2 ^ 52 + x.fraction ∧ x.fraction < 2 ^ 52 ∧ x.exponent < 2048 := by
  have hbits := x.bits.toNat_lt
  simp only [place, exponent, fraction, twoPow_eq, Nat.reducePow] at *
  omega

theorem isFinite_iff (x : Binary64) : x.isFinite = true ↔ x.place < lastPlace := by
  obtain ⟨hplace, hfraction, hexponent⟩ := x.place_fields
  rw [isFinite, decide_eq_true_iff, hplace, lastPlace]
  omega

theorem isNaN_iff (x : Binary64) : x.isNaN = false ↔ x.place ≤ lastPlace := by
  obtain ⟨hplace, hfraction, hexponent⟩ := x.place_fields
  rw [isNaN, decide_eq_false_iff_not, hplace, lastPlace]
  omega

theorem significand_mod_two (x : Binary64) : x.significand % 2 = x.place % 2 := by
  obtain ⟨hplace, -, -⟩ := x.place_fields
  rw [significand, hplace, twoPow_eq]
  split_ifs <;> omega

theorem units_eq (x : Binary64) : x.units = unitsAt x.place := by
  obtain ⟨hplace, hfraction, -⟩ := x.place_fields
  rw [units, significand, spacing, hplace, twoPow_eq, twoPow_eq]
  rcases Nat.eq_zero_or_pos x.exponent with h | h
  · rw [if_pos h, h]
    exact (unitsAt_place (.inl rfl) (by omega)).symm
  · have hcarry : x.exponent * 2 ^ 52 + x.fraction =
        (x.exponent - 1) * 2 ^ 52 + (2 ^ 52 + x.fraction) := by omega
    rw [if_neg h.ne', hcarry]
    exact (unitsAt_place (.inr (by omega)) (by omega)).symm

theorem toNat_bits (x : Binary64) :
    x.bits.toNat = x.place + if x.negative = true then 2 ^ 63 else 0 := by
  have hbits := x.bits.toNat_lt
  simp only [negative, place, decide_eq_true_iff, twoPow_eq]
  split_ifs <;> omega

theorem negative_eq (x : Binary64) : x.negative = (x.bits.toNat / 2 ^ 63 == 1) := by
  have hbits := x.bits.toNat_lt
  rw [negative, beq_eq_decide, decide_eq_decide, twoPow_eq]
  omega

theorem neg_fields (x : Binary64) : x.neg.negative = !x.negative ∧ x.neg.place = x.place := by
  have hbits : x.neg.bits.toNat = x.bits.toNat ^^^ 2 ^ 63 := UInt64.toNat_xor _ _
  have hdiv : x.neg.bits.toNat / 2 ^ 63 = x.bits.toNat / 2 ^ 63 ^^^ 1 := by
    rw [hbits, Nat.xor_div_two_pow, Nat.div_self (Nat.two_pow_pos 63)]
  have hmod : x.neg.bits.toNat % 2 ^ 63 = x.bits.toNat % 2 ^ 63 := by
    rw [hbits, Nat.xor_mod_two_pow, Nat.mod_self, Nat.xor_zero]
  refine ⟨?_, hmod⟩
  have hlt := x.bits.toNat_lt
  have htop : x.bits.toNat / 2 ^ 63 = 0 ∨ x.bits.toNat / 2 ^ 63 = 1 := by omega
  rw [negative_eq, negative_eq, hdiv]
  rcases htop with h | h <;> rw [h] <;> rfl

theorem ext_place {x y : Binary64} (hsign : x.negative = y.negative) (hplace : x.place = y.place) :
    x = y := by
  have hbits : x.bits.toNat = y.bits.toNat := by rw [toNat_bits, toNat_bits, hsign, hplace]
  cases x
  cases y
  exact congrArg mk (UInt64.toNat_inj.mp hbits)

theorem nearest_fields (n d : Nat) :
    (nearest n d).negative = false ∧
      (nearest n d).place = min (placeOf (n * 2 ^ 1074) d) lastPlace := by
  have hbits : (nearest n d).bits.toNat = min (placeOf (n * 2 ^ 1074) d) lastPlace := by
    have hval : nearest n d = ⟨UInt64.ofNat (min (placeOf (n * 2 ^ 1074) d) lastPlace)⟩ := by
      simp only [nearest, placeOf, lastPlace, twoPow_eq]
    rw [hval]
    exact UInt64.toNat_ofNat_of_lt' (lt_of_le_of_lt (min_le_right _ _) (by decide))
  rw [negative, place, hbits, twoPow_eq, decide_eq_false_iff_not]
  have hlast : min (placeOf (n * 2 ^ 1074) d) lastPlace ≤ 2047 * 2 ^ 52 := min_le_right _ _
  generalize min (placeOf (n * 2 ^ 1074) d) lastPlace = b at hlast ⊢
  omega

theorem place_nearest_eq_iff (n : Nat) {d : Nat} (hd : 0 < d) {x : Binary64}
    (hx : x.isFinite = true) :
    (nearest n d).place = x.place ↔ Near x.place (n / d * 2 ^ 1074) := by
  have hnear := near_placeOf (n * 2 ^ 1074) hd
  have hcast : ((n * 2 ^ 1074 : ℕ) : ℚ) / d = n / d * 2 ^ 1074 := by
    rw [Nat.cast_mul, Nat.cast_pow, Nat.cast_ofNat, mul_div_right_comm]
  rw [hcast] at hnear
  rw [isFinite_iff] at hx
  rw [(nearest_fields n d).2]
  generalize placeOf (n * 2 ^ 1074) d = b at hnear ⊢
  constructor
  · intro h
    obtain rfl : b = x.place := by omega
    exact hnear
  · intro h
    rw [hnear.unique h]
    exact min_eq_left hx.le

section Distance

variable {t u v : ℚ} (h : u < v)

include h

theorem abs_sub_left_le_iff : |t - u| ≤ |t - v| ↔ t ≤ (u + v) / 2 := by
  rw [← sq_le_sq]
  constructor <;> intro hle <;> nlinarith

theorem abs_sub_right_le_iff : |t - v| ≤ |t - u| ↔ (u + v) / 2 ≤ t := by
  rw [← sq_le_sq]
  constructor <;> intro hle <;> nlinarith

theorem abs_sub_eq_iff : |t - u| = |t - v| ↔ t = (u + v) / 2 := by
  rw [le_antisymm_iff, abs_sub_left_le_iff h, abs_sub_right_le_iff h, ← le_antisymm_iff]

end Distance

/-- A quantity that is at most half way to the points on either side has none nearer, and another
one as near only where half way counts. -/
theorem abs_sub_le_of_half_ways {t u v low high : ℚ} {even : Prop} (hlow : (low + u) / 2 ≤ t)
    (hhigh : t ≤ (u + high) / 2) (hodd : ¬even → (low + u) / 2 < t ∧ t < (u + high) / 2)
    (hbelow : v < u → v ≤ low) (habove : u < v → high ≤ v) :
    |t - u| ≤ |t - v| ∧ (|t - u| = |t - v| → v = u ∨ even) := by
  rcases lt_trichotomy v u with h | rfl | h
  · have hv := hbelow h
    rw [eq_comm (a := |t - u|), abs_sub_right_le_iff h, abs_sub_eq_iff h]
    refine ⟨by linarith only [hlow, hv], fun heq => .inr ?_⟩
    by_contra hne
    linarith only [(hodd hne).1, hv, heq]
  · exact ⟨le_rfl, fun _ => .inl rfl⟩
  · have hv := habove h
    rw [abs_sub_left_le_iff h, abs_sub_eq_iff h]
    refine ⟨by linarith only [hhigh, hv], fun heq => .inr ?_⟩
    by_contra hne
    linarith only [(hodd hne).2, hv, heq]

theorem Near.abs_sub_le {b : Nat} {t : ℚ} (hb : Near b t) (c : Nat) :
    |t - unitsAt b| ≤ |t - unitsAt c| ∧
      (|t - unitsAt b| = |t - unitsAt c| → c = b ∨ b % 2 = 0) := by
  obtain ⟨hlow, hhigh, hodd⟩ := hb
  rw [border] at hlow hodd
  rw [border_succ] at hhigh hodd
  rw [← unitsAt_strictMono.injective.eq_iff (a := c), ← Nat.cast_inj (R := ℚ)]
  apply abs_sub_le_of_half_ways hlow hhigh fun hne => hodd (by omega)
  · intro h
    rw [Nat.cast_lt, unitsAt_strictMono.lt_iff_lt] at h
    exact unitsAt_cast_le (by omega)
  · intro h
    rw [Nat.cast_lt, unitsAt_strictMono.lt_iff_lt] at h
    exact unitsAt_cast_le h

/-- The place that a quantity rounds to is the nearest one, and of two the even one. -/
theorem near_iff_forall {b last : Nat} (hb : b < last) {t : ℚ} (ht : 0 ≤ t) :
    Near b t ↔ ∀ c ≤ last, |t - unitsAt b| ≤ |t - unitsAt c| ∧
      (|t - unitsAt b| = |t - unitsAt c| → c = b ∨ b % 2 = 0) := by
  refine ⟨fun hnear c _ => hnear.abs_sub_le c, fun h => ?_⟩
  -- The neighbours alone decide.
  obtain ⟨hup, hup_eq⟩ := h (b + 1) hb
  rw [abs_sub_left_le_iff (unitsAt_cast_lt b.lt_succ_self), ← border_succ] at hup
  rw [abs_sub_eq_iff (unitsAt_cast_lt b.lt_succ_self), ← border_succ] at hup_eq
  rcases Nat.eq_zero_or_pos b with rfl | hpos
  · exact ⟨border_zero.trans_le ht, hup, fun hodd => absurd hodd (by decide)⟩
  · obtain ⟨hdown, hdown_eq⟩ := h (b - 1) (by omega)
    have hprev : b - 1 < b := by omega
    rw [abs_sub_right_le_iff (unitsAt_cast_lt hprev)] at hdown
    rw [eq_comm, abs_sub_eq_iff (unitsAt_cast_lt hprev)] at hdown_eq
    refine ⟨hdown, hup, fun hodd => ⟨lt_of_le_of_ne hdown ?_, lt_of_le_of_ne hup ?_⟩⟩
    · intro heq
      have heven := hdown_eq heq.symm
      omega
    · intro heq
      have heven := hup_eq heq
      omega

def magnitude (x : Binary64) : ℚ := x.units / 2 ^ 1074

/-- No number is nearer to the quantity, and none is as near unless this one is even. -/
def RoundsTo (q : ℚ) (x : Binary64) : Prop :=
  ∀ y : Binary64, y.isNaN = false →
    |q - x.magnitude| ≤ |q - y.magnitude| ∧
      (|q - x.magnitude| = |q - y.magnitude| →
        y.magnitude = x.magnitude ∨ x.significand % 2 = 0)

theorem abs_sub_magnitude (q : ℚ) (x : Binary64) :
    |q - x.magnitude| = |q * 2 ^ 1074 - unitsAt x.place| / 2 ^ 1074 := by
  have hp : (0 : ℚ) < 2 ^ 1074 := by positivity
  have hdist : q - x.magnitude = (q * 2 ^ 1074 - unitsAt x.place) / 2 ^ 1074 := by
    rw [magnitude, units_eq, sub_div, mul_div_cancel_right₀ q hp.ne']
  rw [hdist, abs_div, abs_of_pos hp]

theorem magnitude_eq_iff (x y : Binary64) : x.magnitude = y.magnitude ↔ x.place = y.place := by
  have hp : (2 ^ 1074 : ℚ) ≠ 0 := by positivity
  rw [magnitude, magnitude, div_left_inj' hp, units_eq, units_eq, Nat.cast_inj,
    unitsAt_strictMono.injective.eq_iff]

theorem exists_place_eq {c : Nat} (hc : c ≤ lastPlace) :
    ∃ y : Binary64, y.isNaN = false ∧ y.place = c := by
  have hplace : (⟨UInt64.ofNat c⟩ : Binary64).place = c := by
    have hlt : c < 2047 * 2 ^ 52 + 1 := Nat.lt_succ_of_le hc
    rw [place, UInt64.toNat_ofNat_of_lt' (by simp only [UInt64.size]; omega)]
    omega
  exact ⟨_, (isNaN_iff _).mpr (hplace.trans_le hc), hplace⟩

theorem roundsTo_iff {x : Binary64} (hx : x.isFinite = true) {q : ℚ} (hq : 0 ≤ q) :
    RoundsTo q x ↔ Near x.place (q * 2 ^ 1074) := by
  have hp : (0 : ℚ) < 2 ^ 1074 := by positivity
  rw [near_iff_forall ((isFinite_iff x).mp hx) (mul_nonneg hq hp.le)]
  unfold RoundsTo
  simp only [abs_sub_magnitude, magnitude_eq_iff, significand_mod_two,
    div_le_div_iff_of_pos_right hp, div_left_inj' hp.ne']
  constructor
  · intro h c hc
    obtain ⟨y, hy, rfl⟩ := exists_place_eq hc
    exact h y hy
  · intro h y hy
    exact h y.place ((isNaN_iff y).mp hy)

end Binary64
end MetricPipeline
