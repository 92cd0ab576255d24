import MetricPipeline.Proofs.Sections

namespace MetricPipeline

/-- Of the multiples of `10 ^ -places`, none is nearer to `q` than `k` of them, and another one is
as near only if `k` is even. -/
def IsNearest (places : Nat) (q : ℚ) (k : ℤ) : Prop :=
  ∀ j : ℤ, |q - k / 10 ^ places| ≤ |q - j / 10 ^ places| ∧
    (|q - k / 10 ^ places| = |q - j / 10 ^ places| → j = k ∨ k % 2 = 0)

namespace IsNearest

open Binary64

variable {places : Nat} {q r : ℚ} {k l : ℤ}

theorem of_half_steps (hlow : 2 * k - 1 ≤ 2 * (q * 10 ^ places))
    (hhigh : 2 * (q * 10 ^ places) ≤ 2 * k + 1)
    (hodd : k % 2 = 1 → 2 * k - 1 < 2 * (q * 10 ^ places) ∧ 2 * (q * 10 ^ places) < 2 * k + 1) :
    IsNearest places q k := by
  have hp : (0 : ℚ) < 10 ^ places := by positivity
  have hscale (j : ℤ) : |q - j / 10 ^ places| = |q * 10 ^ places - j| / 10 ^ places := by
    rw [← abs_of_pos hp, ← abs_div, abs_of_pos hp, sub_div, mul_div_cancel_right₀ q hp.ne']
  intro j
  rw [hscale k, hscale j, div_le_div_iff_of_pos_right hp, div_left_inj' hp.ne',
    ← Int.cast_inj (α := ℚ)]
  generalize q * 10 ^ places = t at hlow hhigh hodd
  have hsum : (k - 1 + k : ℚ) / 2 ≤ t ∧ t ≤ (k + (k + 1)) / 2 := by
    constructor <;> linarith only [hlow, hhigh]
  apply abs_sub_le_of_half_ways hsum.1 hsum.2
  · intro hk
    obtain ⟨hdown, hup⟩ := hodd (by omega)
    constructor <;> linarith only [hdown, hup]
  · intro h
    rw [Int.cast_lt] at h
    exact_mod_cast Int.le_sub_one_of_lt h
  · intro h
    rw [Int.cast_lt] at h
    exact_mod_cast h

theorem of_roundDiv (places n : Nat) {d : Nat} (hd : 0 < d) :
    IsNearest places (n / d) (roundDiv (n * 10 ^ places) d) := by
  have hsteps := roundDiv_half_steps (n * 10 ^ places) hd Nat.one_pos
  simp only [Nat.cast_one, mul_one, Nat.cast_mul, Nat.cast_pow, Nat.cast_ofNat,
    mul_div_right_comm] at hsteps
  obtain ⟨hlow, hhigh, hodd⟩ := hsteps
  apply of_half_steps
  · exact_mod_cast hlow
  · exact_mod_cast hhigh
  · intro h
    exact_mod_cast hodd (by omega)

theorem neg (h : IsNearest places q k) : IsNearest places (-q) (-k) := by
  have hflip (j : ℤ) : |-q - (-j : ℤ) / 10 ^ places| = |q - j / 10 ^ places| := by
    rw [Int.cast_neg, neg_div, neg_sub_neg, abs_sub_comm]
  intro j
  have hj := hflip (-j)
  rw [neg_neg] at hj
  obtain ⟨hle, htie⟩ := h (-j)
  rw [hflip, hj]
  refine ⟨hle, fun heq => ?_⟩
  have hcases := htie heq
  omega

/-- If the results came the wrong way round, either would be as near as the other, so both would be
even, and then a nearer one would stand between them. -/
theorem mono (hk : IsNearest places q k) (hl : IsNearest places r l) (h : q ≤ r) : k ≤ l := by
  by_contra! hlt
  have hp : (0 : ℚ) < 10 ^ places := by positivity
  have hcast {i j : ℤ} (hij : i < j) : (i / 10 ^ places : ℚ) < j / 10 ^ places := by
    rw [div_lt_div_iff_of_pos_right hp]
    exact_mod_cast hij
  have hq := (hk l).1
  have hr := (hl k).1
  rw [abs_sub_right_le_iff (hcast hlt)] at hq
  rw [abs_sub_left_le_iff (hcast hlt)] at hr
  have hqmid := le_antisymm (h.trans hr) hq
  have hrmid := le_antisymm hr (hq.trans h)
  have hkeven := ((hk l).2 ((abs_sub_eq_iff (hcast hlt)).mpr hqmid).symm).resolve_left hlt.ne
  have hleven := ((hl k).2 ((abs_sub_eq_iff (hcast hlt)).mpr hrmid)).resolve_left hlt.ne'
  have hbetween : l < k - 1 := by omega
  have hnearer := (hk (k - 1)).1
  rw [abs_sub_right_le_iff (hcast (by omega)), hqmid] at hnearer
  linarith only [hcast hbetween, hnearer]

theorem unique (hk : IsNearest places q k) (hl : IsNearest places q l) : k = l :=
  le_antisymm (hk.mono hl le_rfl) (hl.mono hk le_rfl)

end IsNearest

def changeSign : List Char → List Char
  | '-' :: cs => cs
  | cs => '-' :: cs

theorem changeSign_of_head? {cs : List Char} (h : cs.head? ≠ some '-') :
    changeSign cs = '-' :: cs := by
  rw [changeSign]
  rintro ds rfl
  exact h rfl

def EndsEven (text : List Char) : Prop := ∃ c ∈ text.getLast?, c ∈ ['0', '2', '4', '6', '8']

namespace Numeral

/-- A text with a minus sign or none, digits without a superfluous zero in front, a point, and so
many decimals. -/
def IsFixed (negative : Bool) (places : Nat) (text : List Char) : Prop :=
  ∃ whole decimals : List Char,
    text = (if negative then ['-'] else []) ++ whole ++ '.' :: decimals ∧
      (∀ c ∈ whole ++ decimals, c.isDigit = true) ∧
      whole ≠ [] ∧ (whole.head? = some '0' → whole = ['0']) ∧ decimals.length = places

def signed (n : Numeral) : ℤ := if n.negative then -n.coefficient else n.coefficient

def exact (n : Numeral) : ℚ := n.signed / 10 ^ n.places

theorem signed_mod_two (n : Numeral) : n.signed % 2 = 0 ↔ n.coefficient % 2 = 0 := by
  rw [signed]
  split <;> omega

section Same

variable {m n : Numeral} (hplaces : m.places = n.places)

include hplaces

theorem eq_of_signed (hsign : m.negative = n.negative) (h : m.signed = n.signed) : m = n := by
  have hcoefficient : m.coefficient = n.coefficient := by
    rw [signed, signed, hsign] at h
    split at h <;> omega
  cases m
  cases n
  simp_all

theorem text_of_opposite (hcoefficient : m.coefficient = n.coefficient)
    (hsign : m.negative = !n.negative) : m.text = changeSign n.text := by
  have hunsigned : m.unsigned = n.unsigned := by
    simp only [unsigned, whole, decimals, hcoefficient, hplaces]
  rw [text_eq, text_eq, hsign, hunsigned]
  cases n.negative with
  | false => exact (changeSign_of_head? n.head?_unsigned).symm
  | true => rfl

end Same

theorem isFixed_iff {negative : Bool} {places : Nat} (hp : places ≠ 0) {text : List Char} :
    IsFixed negative places text ↔
      ∃ n : Numeral, n.negative = negative ∧ n.places = places ∧ n.text = text := by
  constructor
  · rintro ⟨whole, decimals, rfl, hdigit, hne, hzero, rfl⟩
    have hwhole := digits_ofDigitChars hne (fun c hc => hdigit c (List.mem_append_left _ hc)) hzero
    obtain ⟨hdiv, hlast⟩ := ofDigitChars_split
      (fun c hc => hdigit c (List.mem_append_right whole hc)) (Nat.ofDigitChars 10 whole 0)
    refine ⟨⟨negative, Nat.ofDigitChars 10 (whole ++ decimals) 0, decimals.length⟩, rfl, rfl, ?_⟩
    simp only [Numeral.text, Numeral.whole, Numeral.decimals, tenPow_eq, Nat.ofDigitChars_append,
      hdiv, hlast, hwhole, if_neg hp]
  · rintro ⟨n, rfl, rfl, rfl⟩
    refine ⟨n.whole, n.decimals, ?_, fun c hc => isDigit_of_mem hc, n.whole_ne_nil,
      whole_of_head?, lastDigits_length _ _⟩
    rw [text, if_neg hp]

theorem getLast?_text {n : Numeral} (hp : n.places ≠ 0) :
    n.text.getLast? = some (Nat.digitChar (n.coefficient % 10)) := by
  obtain ⟨p, hp'⟩ := Nat.exists_eq_succ_of_ne_zero hp
  have hsplit : n.text = ((if n.negative then ['-'] else []) ++ n.whole ++
      '.' :: lastDigits p (n.coefficient / 10)) ++ [Nat.digitChar (n.coefficient % 10)] := by
    rw [text, if_neg hp, decimals, hp', lastDigits, List.append_assoc _ (_ :: _), List.cons_append]
  rw [hsplit, List.getLast?_concat]

theorem endsEven_text {n : Numeral} (hp : n.places ≠ 0) : EndsEven n.text ↔ n.signed % 2 = 0 := by
  have hall : ∀ d : Fin 10, Nat.digitChar d ∈ ['0', '2', '4', '6', '8'] ↔ d.val % 2 = 0 := by decide
  have hlt : n.coefficient % 10 < 10 := Nat.mod_lt _ (by omega)
  have hlast := hall ⟨n.coefficient % 10, hlt⟩
  rw [EndsEven, getLast?_text hp, n.signed_mod_two]
  simp only [Option.mem_some_iff, exists_eq_left', hlast]
  omega

end Numeral

def decimal? (text : List Char) : Option ℚ := (Numeral.read? text).map Numeral.exact

theorem decimal?_text (n : Numeral) : decimal? n.text = some n.exact := by
  rw [decimal?, Numeral.read?_text, Option.map_some]

/-- The text has the sign of the number and so many places. It says the nearest of all multiples of
the last place, and if another one is as near, its last digit is even. -/
structure Rounded (places : Nat) (text : List Char) (x : Binary64) : Prop where
  fixed : Numeral.IsFixed x.negative places text
  nearest : ∃ k : ℤ, decimal? text = some (k / 10 ^ places : ℚ) ∧
    ∀ j : ℤ, |x.value - k / 10 ^ places| ≤ |x.value - j / 10 ^ places| ∧
      (|x.value - k / 10 ^ places| = |x.value - j / 10 ^ places| → j = k ∨ EndsEven text)

theorem rounded_text_iff {n : Numeral} (hp : n.places ≠ 0) {x : Binary64} :
    Rounded n.places n.text x ↔
      n.negative = x.negative ∧ IsNearest n.places x.value n.signed := by
  have hpow : (10 ^ n.places : ℚ) ≠ 0 := by positivity
  constructor
  · rintro ⟨hfixed, k, hk, hnearest⟩
    obtain ⟨m, hsign, -, htext⟩ := (Numeral.isFixed_iff hp).mp hfixed
    have hread := m.read?_text
    rw [htext, n.read?_text] at hread
    obtain rfl : n = m := Option.some.inj hread
    rw [decimal?_text, Numeral.exact, Option.some_inj, div_left_inj' hpow, Int.cast_inj] at hk
    rw [← hk] at hnearest
    refine ⟨hsign, fun j => ?_⟩
    rw [← Numeral.endsEven_text hp]
    exact hnearest j
  · rintro ⟨hsign, hnearest⟩
    refine ⟨(Numeral.isFixed_iff hp).mpr ⟨n, hsign, rfl, rfl⟩, n.signed, decimal?_text n, ?_⟩
    rw [Numeral.endsEven_text hp]
    exact hnearest

namespace Binary64

variable {x y : Binary64}

theorem value_eq (x : Binary64) :
    x.value = if x.negative then -(x.units / 2 ^ 1074 : ℚ) else x.units / 2 ^ 1074 := by
  rw [value, signedUnits]
  split
  · rw [Int.cast_neg, Int.cast_natCast, neg_div]
  · rw [Int.cast_natCast]

theorem isNaN_of_isFinite (hx : x.isFinite = true) : x.isNaN = false := by
  rw [isNaN_iff]
  exact ((isFinite_iff x).mp hx).le

theorem isFinite_neg (x : Binary64) : x.neg.isFinite = x.isFinite := by
  rw [Bool.eq_iff_iff, isFinite_iff, isFinite_iff, x.neg_fields.2]

theorem sixPlacesText_eq (hx : x.isFinite = true) : x.sixPlacesText = x.sixPlaces.text := if_pos hx

theorem sixPlaces_fields (x : Binary64) :
    x.sixPlaces.negative = x.negative ∧
      x.sixPlaces.coefficient = roundDiv (x.units * 10 ^ 6) (2 ^ 1074) ∧
      x.sixPlaces.places = 6 := by
  refine ⟨rfl, ?_, rfl⟩
  rw [sixPlaces, tenPow_eq, twoPow_eq]

theorem isNearest_sixPlaces (x : Binary64) : IsNearest 6 x.value x.sixPlaces.signed := by
  obtain ⟨hsign, hcoefficient, -⟩ := x.sixPlaces_fields
  have hunits := IsNearest.of_roundDiv 6 x.units (pow_pos Nat.two_pos 1074)
  rw [← hcoefficient, Nat.cast_pow, Nat.cast_ofNat] at hunits
  rw [value_eq, Numeral.signed, hsign]
  split
  · exact hunits.neg
  · exact hunits

theorem rounded_iff {text : List Char} : Rounded 6 text x ↔ text = x.sixPlaces.text := by
  obtain ⟨hsign, -, hplaces⟩ := x.sixPlaces_fields
  constructor
  · intro h
    obtain ⟨n, hsign', hplaces', rfl⟩ := (Numeral.isFixed_iff (by omega)).mp h.fixed
    rw [← hplaces', rounded_text_iff (by omega), hplaces'] at h
    have hsigned := h.2.unique x.isNearest_sixPlaces
    rw [Numeral.eq_of_signed (hplaces'.trans hplaces.symm) (hsign'.trans hsign.symm) hsigned]
  · rintro rfl
    rw [← hplaces, rounded_text_iff (by omega), hplaces]
    exact ⟨hsign, x.isNearest_sixPlaces⟩

theorem exact_sixPlaces_mono (hx : x.isFinite = true) (hy : y.isFinite = true)
    (h : x.le y = true) : x.sixPlaces.exact ≤ y.sixPlaces.exact := by
  have hp : (0 : ℚ) < 10 ^ 6 := by positivity
  rw [le_iff_value (isNaN_of_isFinite hx) (isNaN_of_isFinite hy)] at h
  rw [Numeral.exact, Numeral.exact, x.sixPlaces_fields.2.2, y.sixPlaces_fields.2.2,
    div_le_div_iff_of_pos_right hp, Int.cast_le]
  exact x.isNearest_sixPlaces.mono y.isNearest_sixPlaces h

theorem text_sixPlaces_neg (x : Binary64) :
    x.neg.sixPlaces.text = changeSign x.sixPlaces.text := by
  obtain ⟨hsign, hplace⟩ := x.neg_fields
  obtain ⟨hnegative, hcoefficient, hplaces⟩ := x.sixPlaces_fields
  obtain ⟨hnegative', hcoefficient', hplaces'⟩ := x.neg.sixPlaces_fields
  have hunits : x.neg.units = x.units := by rw [units_eq, hplace, ← units_eq]
  apply Numeral.text_of_opposite
  · rw [hplaces', hplaces]
  · rw [hcoefficient', hunits, hcoefficient]
  · rw [hnegative', hsign, hnegative]

end Binary64

section Timing

variable {m : Metric} {v : Binary64} (hm : m.value = .timing v)

include hm

theorem prepare_timing (hv : v.isFinite = true) :
    m.prepare = .ok m.frame ↔ oneLine m.name ≠ [] := by
  have hrejection : m.rejection? = if oneLine m.name = [] then some .emptyName else none := by
    simp [Metric.rejection?, hm, Value.size, Value.numbers, hv]
  rw [Metric.prepare, hrejection]
  split_ifs with hname
  · simp [hname]
  · simp [hname]

theorem points_timing : m.value.points = [utf8 v.sixPlacesText] := by
  rw [hm]
  rfl

theorem bytes_write_timing {b : Buffer} (h : 0 < b.room m.frame m.value.points) :
    (b.write m.frame m.value.points).2.bytes =
      b.bytes ++ (m.header ++ (ascii ":" ++ utf8 v.sixPlacesText) ++ m.trailer) := by
  have hpoints := points_timing hm
  have hall : m.value.points.take (b.room m.frame m.value.points) = m.value.points := by
    apply List.take_of_length_le
    rw [hpoints] at h ⊢
    exact h
  rw [Section.bytes_write h, hall, hpoints, Frame.values, List.flatMap_singleton]
  rfl

end Timing

/-- A finite number that is a time is written as the one text that has its sign and six places and
says the nearest millionth, from half way the one with an even last digit. A larger number is not
written as a smaller one, and the opposite number is written with the other sign. -/
theorem timings_rounded {v : Binary64} (hv : v.isFinite = true) :
    (∀ text : List Char, Rounded 6 text v ↔ text = v.sixPlacesText) ∧
      (∀ w : Binary64, w.isFinite = true → v.le w = true →
        ∃ q ∈ decimal? v.sixPlacesText, ∃ r ∈ decimal? w.sixPlacesText, q ≤ r) ∧
      v.neg.sixPlacesText = changeSign v.sixPlacesText ∧
      ∀ m : Metric, m.value = .timing v →
        (m.prepare = .ok m.frame ↔ oneLine m.name ≠ []) ∧
          m.value.points = [utf8 v.sixPlacesText] ∧
          ∀ b : Buffer, 0 < b.room m.frame m.value.points →
            (b.write m.frame m.value.points).2.bytes =
              b.bytes ++ (m.header ++ (ascii ":" ++ utf8 v.sixPlacesText) ++ m.trailer) := by
  have hneg : v.neg.isFinite = true := v.isFinite_neg.trans hv
  refine ⟨fun text => ?_, fun w hw hle => ?_, ?_, fun m hm =>
    ⟨prepare_timing hm hv, points_timing hm, fun b => bytes_write_timing hm⟩⟩
  · rw [Binary64.sixPlacesText_eq hv]
    exact Binary64.rounded_iff
  · rw [Binary64.sixPlacesText_eq hv, Binary64.sixPlacesText_eq hw]
    exact ⟨_, decimal?_text _, _, decimal?_text _, Binary64.exact_sixPlaces_mono hv hw hle⟩
  · rw [Binary64.sixPlacesText_eq hneg, Binary64.sixPlacesText_eq hv]
    exact v.text_sixPlaces_neg

/-- `0.0078125`, half way between two millionths, the lower of which is even. -/
def tieDown : Binary64 := ⟨0x3f80000000000000⟩

/-- `0.0234375`, half way between two millionths, the upper of which is even. -/
def tieUp : Binary64 := ⟨0x3f98000000000000⟩

theorem timings_rounded_ties :
    tieDown.isFinite = true ∧ tieUp.isFinite = true ∧ tieDown.le tieUp = true ∧
      Rounded 6 "0.007812".toList tieDown ∧ Rounded 6 "0.023438".toList tieUp ∧
      (∃ q ∈ decimal? tieDown.sixPlacesText, ∃ r ∈ decimal? tieUp.sixPlacesText, q ≤ r) ∧
      tieDown.neg.sixPlacesText = "-0.007812".toList ∧
      let m : Metric := { name := "load", value := .timing tieDown }
      let b : Buffer := ⟨⟨64, 8⟩, true, 0, [], 0⟩
      m.prepare = .ok m.frame ∧
        (b.write m.frame m.value.points).2.bytes = ascii "load:0.007812|ms\n" := by
  have hdown : tieDown.isFinite = true := by decide
  have hup : tieUp.isFinite = true := by decide
  have hle : tieDown.le tieUp = true := by decide +kernel
  have htext : tieDown.sixPlacesText = "0.007812".toList := by decide +kernel
  obtain ⟨hrounded, hmono, hneg, hmetric⟩ := timings_rounded hdown
  obtain ⟨hprepare, -, hwrite⟩ := hmetric { name := "load", value := .timing tieDown } rfl
  refine ⟨hdown, hup, hle, (hrounded _).mpr htext.symm,
    ((timings_rounded hup).1 _).mpr (by decide +kernel), hmono tieUp hup hle, ?_,
    hprepare.mpr (by decide), ?_⟩
  · rw [hneg, htext]
    decide
  · rw [hwrite ⟨⟨64, 8⟩, true, 0, [], 0⟩ (by decide +kernel), htext]
    decide +kernel

end MetricPipeline
