import MetricPipeline.Proofs.Digits
import MetricPipeline.Proofs.Nearest

namespace MetricPipeline

theorem tenPow_eq (k : Nat) : tenPow k = 10 ^ k := rfl

theorem digits_concat {n : Nat} (h : 10 ≤ n) :
    digits n = digits (n / 10) ++ [Nat.digitChar (n % 10)] :=
  Nat.toDigits_of_base_le (by omega) h

theorem digits_eq_append {k n : Nat} (h : 10 ^ k ≤ n) :
    digits n = digits (n / 10 ^ k) ++ lastDigits k n := by
  induction k generalizing n with
  | zero => simp [lastDigits]
  | succ k ih =>
    rw [pow_succ] at h
    have hpos : 0 < 10 ^ k := by positivity
    have hten : 10 ≤ n := by nlinarith
    have hle : 10 ^ k ≤ n / 10 := (Nat.le_div_iff_mul_le (by omega)).mpr h
    rw [digits_concat hten, ih hle, Nat.div_div_eq_div_mul, ← pow_succ', lastDigits,
      List.append_assoc]

theorem exists_digits_concat (n : Nat) : ∃ cs, digits n = cs ++ [Nat.digitChar (n % 10)] := by
  rcases Nat.lt_or_ge n 10 with h | h
  · exact ⟨[], by rw [digits, Nat.toDigits_of_lt_base h, Nat.mod_eq_of_lt h, List.nil_append]⟩
  · exact ⟨_, digits_concat h⟩

theorem lastDigits_zero (k : Nat) : lastDigits k 0 = List.replicate k '0' := by
  induction k with
  | zero => rfl
  | succ k ih => rw [lastDigits, Nat.zero_div, ih, List.replicate_succ']; rfl

theorem lastDigits_of_lt {k n : Nat} (hpos : 0 < n) (h : n < 10 ^ k) :
    lastDigits k n = List.replicate (k - (digits n).length) '0' ++ digits n := by
  induction k generalizing n with
  | zero => omega
  | succ k ih =>
    rw [lastDigits]
    rcases Nat.lt_or_ge n 10 with hn | hn
    · rw [digits, Nat.toDigits_of_lt_base hn, Nat.div_eq_of_lt hn, lastDigits_zero,
        Nat.mod_eq_of_lt hn, List.length_singleton, Nat.add_sub_cancel]
    · have hlt : n / 10 < 10 ^ k := by
        rw [pow_succ] at h
        exact Nat.div_lt_of_lt_mul (by omega)
      rw [ih (by omega) hlt, digits_concat hn, List.length_append, List.length_singleton,
        Nat.add_sub_add_right, List.append_assoc]

theorem isDigit_of_mem_digits {n : Nat} {c : Char} (h : c ∈ digits n) : c.isDigit = true :=
  Nat.isDigit_of_mem_toDigits (by omega) (by omega) h

theorem isDigit_of_mem_lastDigits {k n : Nat} {c : Char} (h : c ∈ lastDigits k n) :
    c.isDigit = true := by
  induction k generalizing n with
  | zero => exact absurd h List.not_mem_nil
  | succ k ih =>
    rcases List.mem_append.mp h with h | h
    · exact ih h
    · have hdigit : Nat.digitChar (n % 10) ∈ digits (n % 10) := by
        have hlt : n % 10 < 10 := Nat.mod_lt n (by omega)
        rw [digits, Nat.toDigits_of_lt_base hlt]
        exact List.mem_singleton_self _
      rw [List.mem_singleton.mp h]
      exact isDigit_of_mem_digits hdigit

theorem ofDigitChars_lastDigits (k n init : Nat) :
    Nat.ofDigitChars 10 (lastDigits k n) init = 10 ^ k * init + n % 10 ^ k := by
  induction k generalizing n with
  | zero => simp [lastDigits, Nat.mod_one]
  | succ k ih =>
    have hlt : n % 10 < 10 := Nat.mod_lt n (by omega)
    have hmod : n % 10 ^ (k + 1) = 10 * (n / 10 % 10 ^ k) + n % 10 := by
      rw [pow_succ', Nat.mod_mul, Nat.add_comm]
    rw [lastDigits, Nat.ofDigitChars_append, ih, Nat.ofDigitChars_cons_digitChar_of_lt_ten hlt,
      Nat.ofDigitChars_nil, hmod, pow_succ]
    ring

theorem toNat_of_isDigit {c : Char} (h : c.isDigit = true) : 48 ≤ c.toNat ∧ c.toNat ≤ 57 := by
  simpa [Char.isDigit, UInt32.le_iff_toNat_le] using h

theorem digitChar_of_isDigit {c : Char} (h : c.isDigit = true) :
    c.toNat - '0'.toNat < 10 ∧ Nat.digitChar (c.toNat - '0'.toNat) = c := by
  obtain ⟨hlow, hhigh⟩ := toNat_of_isDigit h
  have hall : ∀ d : Fin 10, Nat.digitChar d = Char.ofNat (d + 48) := by decide
  have hzero : '0'.toNat = 48 := rfl
  have hlt : c.toNat - 48 < 10 := by omega
  have hadd : c.toNat - 48 + 48 = c.toNat := by omega
  rw [hzero, hall ⟨_, hlt⟩, hadd, Char.ofNat_toNat]
  exact ⟨hlt, rfl⟩

theorem ofDigitChars_concat (cs : List Char) (c : Char) (init : Nat) :
    Nat.ofDigitChars 10 (cs ++ [c]) init =
      10 * Nat.ofDigitChars 10 cs init + (c.toNat - '0'.toNat) := by
  rw [Nat.ofDigitChars_append, Nat.ofDigitChars_cons, Nat.ofDigitChars_nil]

/-- Digits that are read after a number move it up by as many places, and fill these. -/
theorem ofDigitChars_split {cs : List Char} (h : ∀ c ∈ cs, c.isDigit = true) (init : Nat) :
    Nat.ofDigitChars 10 cs init / 10 ^ cs.length = init ∧
      lastDigits cs.length (Nat.ofDigitChars 10 cs init) = cs := by
  induction cs using List.reverseRecOn with
  | nil => simp [lastDigits]
  | append_singleton cs c ih =>
    obtain ⟨hlt, hchar⟩ := digitChar_of_isDigit (h c (by simp))
    obtain ⟨hdiv, hlast⟩ := ih fun d hd => h d (by simp [hd])
    rw [ofDigitChars_concat, List.length_append, List.length_singleton]
    generalize c.toNat - '0'.toNat = d at hlt hchar
    generalize Nat.ofDigitChars 10 cs init = n at hdiv hlast
    have hup : (10 * n + d) / 10 = n := by omega
    have hend : (10 * n + d) % 10 = d := by omega
    constructor
    · rw [pow_succ', ← Nat.div_div_eq_div_mul, hup, hdiv]
    · rw [lastDigits, hup, hend, hlast, hchar]

/-- Digits without a superfluous zero in front are those of the number they say. -/
theorem digits_ofDigitChars {cs : List Char} (hne : cs ≠ []) (h : ∀ c ∈ cs, c.isDigit = true)
    (hzero : cs.head? = some '0' → cs = ['0']) : digits (Nat.ofDigitChars 10 cs 0) = cs := by
  induction cs using List.reverseRecOn with
  | nil => exact absurd rfl hne
  | append_singleton cs c ih =>
    obtain ⟨hlt, hchar⟩ := digitChar_of_isDigit (h c (by simp))
    rw [ofDigitChars_concat]
    rcases eq_or_ne cs [] with rfl | hcs
    · rw [Nat.ofDigitChars_nil, Nat.mul_zero, Nat.zero_add, digits, Nat.toDigits_of_lt_base hlt,
        hchar, List.nil_append]
    · have hhead : cs.head? ≠ some '0' := by
        intro hhead
        rw [List.head?_append_of_ne_nil _ hcs] at hzero
        have hlen := congrArg List.length (hzero hhead)
        rw [List.length_append, List.length_singleton, List.length_singleton] at hlen
        exact hcs (List.length_eq_zero_iff.mp (by omega))
      have hdigits := ih hcs (fun d hd => h d (by simp [hd])) fun hz => absurd hz hhead
      have hpos : Nat.ofDigitChars 10 cs 0 ≠ 0 := by
        intro hz
        rw [hz] at hdigits
        rw [← hdigits] at hhead
        exact hhead rfl
      generalize c.toNat - '0'.toNat = d at hlt hchar
      generalize Nat.ofDigitChars 10 cs 0 = n at hdigits hpos
      have hup : (10 * n + d) / 10 = n := by omega
      have hend : (10 * n + d) % 10 = d := by omega
      rw [digits_concat (by omega), hup, hend, hdigits, hchar]

/-- How many digits are left of a number without the zeros at its end. -/
def significant (n : Nat) : Nat := ((digits n).rdropWhile (· = '0')).length

theorem significant_of_mod {n : Nat} (h : n % 10 ≠ 0) : significant n = (digits n).length := by
  obtain ⟨cs, hcs⟩ := exists_digits_concat n
  have hlast : Nat.digitChar (n % 10) ≠ '0' := fun he => h (Nat.digitChar_eq_zero.mp he)
  rw [significant, hcs, List.rdropWhile_concat_neg _ _ _ (by simpa using hlast)]

theorem significant_mul_ten (n : Nat) : significant (n * 10) = significant n := by
  rcases Nat.eq_zero_or_pos n with rfl | hn
  · rfl
  · have hzero : Nat.digitChar 0 = '0' := rfl
    rw [significant, digits_concat (by omega), Nat.mul_div_cancel n (by omega), Nat.mul_mod_left,
      hzero, List.rdropWhile_concat_pos _ _ _ (by simp), significant]

theorem significant_mul_pow (n z : Nat) : significant (n * 10 ^ z) = significant n := by
  induction z with
  | zero => rw [pow_zero, Nat.mul_one]
  | succ z ih => rw [pow_succ, ← Nat.mul_assoc, significant_mul_ten, ih]

theorem lt_pow_length_digits (n : Nat) : n < 10 ^ (digits n).length :=
  (Nat.length_toDigits_le_iff (by omega) Nat.length_toDigits_pos).mp le_rfl

theorem exists_significant {n : Nat} (h : n ≠ 0) :
    ∃ m z, n = m * 10 ^ z ∧ m % 10 ≠ 0 ∧ m < 10 ^ significant n := by
  obtain ⟨z, m, hm, rfl⟩ := Nat.exists_eq_pow_mul_and_not_dvd h 10 (by omega)
  have hmod : m % 10 ≠ 0 := fun hz => hm (Nat.dvd_of_mod_eq_zero hz)
  refine ⟨m, z, Nat.mul_comm _ _, hmod, ?_⟩
  rw [Nat.mul_comm, significant_mul_pow, significant_of_mod hmod]
  exact lt_pow_length_digits m

namespace Numeral

/-- A text with a minus sign or none, digits without a superfluous zero in front and, if there are
any, a point and decimals without a zero at the end. -/
def IsPlain (negative : Bool) (text : List Char) : Prop :=
  ∃ whole decimals : List Char,
    text = (if negative then ['-'] else []) ++ whole ++
        (if decimals = [] then [] else '.' :: decimals) ∧
      (∀ c ∈ whole ++ decimals, c.isDigit = true) ∧
      whole ≠ [] ∧ (whole.head? = some '0' → whole = ['0']) ∧ decimals.getLast? ≠ some '0'

theorem decimals_eq_nil_iff (n : Numeral) : n.decimals = [] ↔ n.places = 0 := by
  rw [← List.length_eq_zero_iff, decimals, lastDigits_length]

theorem isDigit_of_mem {n : Numeral} {c : Char} (h : c ∈ n.whole ++ n.decimals) :
    c.isDigit = true := by
  rcases List.mem_append.mp h with h | h
  · exact isDigit_of_mem_digits h
  · exact isDigit_of_mem_lastDigits h

theorem whole_of_head? {n : Numeral} (h : n.whole.head? = some '0') : n.whole = ['0'] := by
  have hwhole : n.coefficient / tenPow n.places = 0 := head?_toDigits (by omega) h
  rw [whole, hwhole]
  rfl

theorem isPlain_text {n : Numeral} (h : n.places = 0 ∨ n.coefficient % 10 ≠ 0) :
    IsPlain n.negative n.text := by
  refine ⟨n.whole, n.decimals, ?_, fun c hc => isDigit_of_mem hc, Nat.toDigits_ne_nil,
    whole_of_head?, ?_⟩
  · simp only [text, decimals_eq_nil_iff]
  · intro hlast
    rw [decimals] at hlast
    cases hp : n.places with
    | zero => simp [hp, lastDigits] at hlast
    | succ k =>
      rw [hp, lastDigits, List.getLast?_concat, Option.some_inj, Nat.digitChar_eq_zero] at hlast
      omega

theorem digitValue?_of_isDigit {c : Char} (h : c.isDigit = true) :
    digitValue? c = some (c.toNat - '0'.toNat) := by
  have hrange : '0' ≤ c ∧ c ≤ '9' := by
    simpa [Char.isDigit, Char.le_def] using h
  rw [digitValue?, if_pos hrange]

theorem readDigits?_eq {cs : List Char} (hne : cs ≠ []) (h : ∀ c ∈ cs, c.isDigit = true) :
    readDigits? cs = some (Nat.ofDigitChars 10 cs 0) := by
  have hfold (cs : List Char) (h : ∀ c ∈ cs, c.isDigit = true) (init : Nat) :
      cs.foldl (fun n c => n.bind fun n => (digitValue? c).map (10 * n + ·)) (some init) =
        some (Nat.ofDigitChars 10 cs init) := by
    induction cs generalizing init with
    | nil => rfl
    | cons c cs ih =>
      rw [List.foldl_cons, Option.bind_some, digitValue?_of_isDigit (h c List.mem_cons_self),
        Option.map_some, ih fun d hd => h d (List.mem_cons_of_mem c hd), Nat.ofDigitChars_cons]
  cases cs with
  | nil => exact absurd rfl hne
  | cons c cs =>
    rw [readDigits?]
    · exact hfold (c :: cs) h 0
    · exact hne

section Text

variable (n : Numeral)

def unsigned : List Char := n.whole ++ if n.places = 0 then [] else '.' :: n.decimals

theorem isDigit_of_mem_whole {n : Numeral} {c : Char} (h : c ∈ n.whole) : c.isDigit = true :=
  isDigit_of_mem_digits h

theorem whole_ne_nil : n.whole ≠ [] := Nat.toDigits_ne_nil

theorem text_eq : n.text = (if n.negative then ['-'] else []) ++ n.unsigned := by
  rw [text, unsigned, List.append_assoc]

theorem head?_unsigned : n.unsigned.head? ≠ some '-' := by
  intro h
  rw [unsigned, List.head?_append_of_ne_nil _ n.whole_ne_nil] at h
  exact absurd (isDigit_of_mem_whole (List.mem_of_mem_head? h)) (by decide)

theorem takeWhile_unsigned : n.unsigned.takeWhile (· ≠ '.') = n.whole := by
  have hall : ∀ c ∈ n.whole, decide (c ≠ '.') = true := by
    intro c hc
    have hne : c ≠ '.' := by
      rintro rfl
      exact absurd (isDigit_of_mem_whole hc) (by decide)
    exact decide_eq_true hne
  rw [unsigned, List.takeWhile_append_of_pos hall]
  split <;> simp

theorem dropWhile_unsigned :
    n.unsigned.dropWhile (· ≠ '.') = if n.places = 0 then [] else '.' :: n.decimals := by
  have hsplit := List.takeWhile_append_dropWhile (p := fun c => decide (c ≠ '.')) (l := n.unsigned)
  rw [takeWhile_unsigned] at hsplit
  exact List.append_cancel_left hsplit

theorem ofDigitChars_whole_decimals :
    Nat.ofDigitChars 10 (n.whole ++ n.decimals) 0 = n.coefficient := by
  have hwhole : Nat.ofDigitChars 10 n.whole 0 = n.coefficient / 10 ^ n.places :=
    Nat.ofDigitChars_ten_toDigits
  rw [Nat.ofDigitChars_append, hwhole, decimals, ofDigitChars_lastDigits]
  exact Nat.div_add_mod _ _

end Text

theorem read?_text (n : Numeral) : read? n.text = some n := by
  have hsign : n.text.head? = some '-' ↔ n.negative = true := by
    rw [text_eq]
    cases n.negative
    · simpa using n.head?_unsigned
    · simp
  have hrest : (if n.negative = true then n.text.tail else n.text) = n.unsigned := by
    rw [text_eq]
    cases n.negative <;> rfl
  have hall := readDigits?_eq (by simp [n.whole_ne_nil]) fun c hc => isDigit_of_mem (n := n) hc
  rw [n.ofDigitChars_whole_decimals] at hall
  rw [read?]
  simp only [hsign, hrest, takeWhile_unsigned, dropWhile_unsigned, Bool.decide_eq_true]
  by_cases hp : n.places = 0
  · rw [(n.decimals_eq_nil_iff).mpr hp, List.append_nil] at hall
    rw [if_pos hp, hall, Option.map_some, ← hp]
  · have hne : n.decimals ≠ [] := fun h => hp ((n.decimals_eq_nil_iff).mp h)
    have hwhole := readDigits?_eq n.whole_ne_nil fun c hc => isDigit_of_mem_whole hc
    have hdecimals := readDigits?_eq hne fun c hc => isDigit_of_mem_lastDigits hc
    have hlen : n.decimals.length = n.places := lastDigits_length _ _
    rw [if_neg hp]
    simp only [hwhole, hdecimals, hall, hlen, Option.bind_some, Option.map_some]

def magnitude (n : Numeral) : ℚ := n.coefficient / 10 ^ n.places

theorem magnitude_nonneg (n : Numeral) : 0 ≤ n.magnitude := by
  rw [magnitude]
  positivity

theorem value_fields (n : Numeral) :
    n.value.negative = n.negative ∧
      n.value.place = (Binary64.nearest n.coefficient (tenPow n.places)).place := by
  have hsign := (Binary64.nearest_fields n.coefficient (tenPow n.places)).1
  have hneg := Binary64.neg_fields (Binary64.nearest n.coefficient (tenPow n.places))
  rw [value]
  cases n.negative with
  | false => exact ⟨hsign, rfl⟩
  | true => exact ⟨by rw [if_pos rfl, hneg.1, hsign]; rfl, hneg.2⟩

/-- The value has the sign of the numeral and is the number nearest to it. -/
theorem value_eq_iff (n : Numeral) {x : Binary64} (hx : x.isFinite = true) :
    n.value = x ↔ n.negative = x.negative ∧ Binary64.RoundsTo n.magnitude x := by
  obtain ⟨hsign, hplace⟩ := n.value_fields
  have hpow : 0 < tenPow n.places := Nat.pow_pos (by omega)
  have hcast : n.magnitude = n.coefficient / (tenPow n.places : ℕ) := by
    rw [magnitude, tenPow_eq, Nat.cast_pow, Nat.cast_ofNat]
  rw [Binary64.roundsTo_iff hx n.magnitude_nonneg, hcast, ← Binary64.place_nearest_eq_iff _ hpow hx,
    ← hsign, ← hplace]
  constructor
  · rintro rfl
    exact ⟨rfl, rfl⟩
  · rintro ⟨hs, hp⟩
    exact Binary64.ext_place hs hp

end Numeral

end MetricPipeline
