import MetricPipeline.Proofs.Shortest

namespace MetricPipeline

structure Decimal where
  coefficient : Nat
  exponent : Int
deriving DecidableEq, Repr

namespace Decimal

def point (d : Decimal) : Int := (digits d.coefficient).length + d.exponent

/-- The digits with an exponent from `10 ^ 16` on and below `10 ^ -5`, with a point in between. -/
def compact (d : Decimal) : List Char :=
  let ds := digits d.coefficient
  if d.coefficient = 0 then ['0', '.', '0']
  else if 0 ≤ d.exponent ∧ d.point ≤ 16 then
    ds ++ List.replicate d.exponent.toNat '0' ++ ['.', '0']
  else if 0 < d.point ∧ d.point ≤ 16 then ds.take d.point.toNat ++ '.' :: ds.drop d.point.toNat
  else if -5 < d.point ∧ d.point ≤ 0 then
    '0' :: '.' :: (List.replicate (-d.point).toNat '0' ++ ds)
  else
    ds.take 1 ++ (if ds.length = 1 then [] else '.' :: ds.drop 1) ++
      'e' :: integerText (d.point - 1)

/-- The digits without an exponent, and with a point only where decimals follow. -/
def expanded (d : Decimal) : List Char :=
  let ds := digits d.coefficient
  if d.coefficient = 0 then ['0']
  else if d.point ≤ 0 then '0' :: '.' :: (List.replicate (-d.point).toNat '0' ++ ds)
  else if d.point < ds.length then ds.take d.point.toNat ++ '.' :: ds.drop d.point.toNat
  else ds ++ List.replicate (d.point - ds.length).toNat '0'

def numeral (negative : Bool) (d : Decimal) : Numeral :=
  if d.coefficient = 0 then ⟨negative, 0, 0⟩
  else ⟨negative, d.coefficient * tenPow d.exponent.toNat, (-d.exponent).toNat⟩

theorem numeral_of_zero (negative : Bool) {d : Decimal} (hc : d.coefficient = 0) :
    d.numeral negative = ⟨negative, 0, 0⟩ := if_pos hc

theorem numeral_of_ne_zero (negative : Bool) {d : Decimal} (hc : d.coefficient ≠ 0) :
    d.numeral negative =
      ⟨negative, d.coefficient * 10 ^ d.exponent.toNat, (-d.exponent).toNat⟩ := if_neg hc

def signed (negative : Bool) (cs : List Char) : List Char := if negative then '-' :: cs else cs

def stripped (cs : List Char) : List Char := (cs.dropSuffix? ['.', '0']).getD cs

def pick (compact expanded : List Char) : List Char :=
  if 'e' ∈ compact then expanded else stripped compact

theorem digits_mul_pow {c : Nat} (hc : c ≠ 0) (k : Nat) :
    digits (c * 10 ^ k) = digits c ++ List.replicate k '0' := by
  have hpos : 0 < c := Nat.pos_of_ne_zero hc
  induction k with
  | zero => simp
  | succ k ih =>
    have hten : 10 ≤ c * 10 ^ k * 10 := by
      have hpow : 0 < c * 10 ^ k := by positivity
      omega
    have hzero : Nat.digitChar 0 = '0' := rfl
    rw [pow_succ, ← Nat.mul_assoc, digits_concat hten, Nat.mul_div_cancel _ (by omega), ih,
      Nat.mul_mod_left, hzero, List.replicate_succ', List.append_assoc]

section Digits

variable {c : Nat} (hc : c ≠ 0)

include hc

theorem expanded_natCast (k : Nat) :
    expanded ⟨c, k⟩ = digits c ++ List.replicate k '0' := by
  have hlen : 0 < (digits c).length := Nat.length_toDigits_pos
  have hpoint : point ⟨c, k⟩ = (digits c).length + k := rfl
  simp only [expanded, hpoint]
  rw [if_neg hc, if_neg (by omega), if_neg (by omega), add_sub_cancel_left, Int.toNat_natCast]

theorem expanded_neg {p : Nat} (hp : 0 < p) :
    expanded ⟨c, -p⟩ = digits (c / 10 ^ p) ++ '.' :: lastDigits p c := by
  have hpoint : point ⟨c, -p⟩ = (digits c).length - p := rfl
  simp only [expanded, hpoint]
  rw [if_neg hc]
  rcases Nat.lt_or_ge c (10 ^ p) with h | h
  · have hlen : (digits c).length ≤ p := (Nat.length_toDigits_le_iff (by omega) hp).mpr h
    have hzeros : (-((digits c).length - p : Int)).toNat = p - (digits c).length := by omega
    have hzero : digits 0 = ['0'] := rfl
    rw [if_pos (by omega), hzeros, Nat.div_eq_of_lt h, hzero,
      lastDigits_of_lt (Nat.pos_of_ne_zero hc) h]
    rfl
  · have hsplit : digits c = digits (c / 10 ^ p) ++ lastDigits p c := digits_eq_append h
    have hlen : (digits c).length = (digits (c / 10 ^ p)).length + p := by
      rw [hsplit, List.length_append, lastDigits_length]
    have hwhole : 0 < (digits (c / 10 ^ p)).length := Nat.length_toDigits_pos
    have hcut : ((digits c).length - p : Int).toNat = (digits (c / 10 ^ p)).length := by omega
    rw [if_neg (by omega), if_pos (by omega), hcut, hsplit, List.take_left, List.drop_left]

end Digits

theorem exists_exponent (e : Int) : (∃ k : Nat, e = k) ∨ ∃ p : Nat, 0 < p ∧ e = -p := by
  rcases lt_or_ge e 0 with h | h
  · exact .inr ⟨e.natAbs, by omega, by omega⟩
  · exact .inl ⟨e.toNat, by omega⟩

theorem text_numeral (negative : Bool) (d : Decimal) :
    (d.numeral negative).text = signed negative d.expanded := by
  have hsign (cs : List Char) : (if negative then ['-'] else []) ++ cs = signed negative cs := by
    cases negative <;> rfl
  rw [Numeral.text_eq, ← hsign]
  obtain ⟨c, e⟩ := d
  by_cases hc : c = 0
  · have hexpanded : expanded ⟨c, e⟩ = ['0'] := if_pos hc
    rw [numeral_of_zero negative hc, hexpanded]
    simp [Numeral.unsigned, Numeral.whole, digits]
  · rw [numeral_of_ne_zero negative hc]
    congr 1
    rcases exists_exponent e with ⟨k, rfl⟩ | ⟨p, hp, rfl⟩
    · rw [expanded_natCast hc, ← digits_mul_pow hc]
      simp [Numeral.unsigned, Numeral.whole]
    · have hexp : (-(p : Int)).toNat = 0 := by omega
      rw [expanded_neg hc hp, hexp, pow_zero, Nat.mul_one, Int.neg_neg, Int.toNat_natCast]
      exact congrArg _ (if_neg hp.ne')

theorem signed_append (negative : Bool) (cs ds : List Char) :
    signed negative (cs ++ ds) = signed negative cs ++ ds := by
  cases negative <;> rfl

theorem stripped_append (cs : List Char) : stripped (cs ++ ['.', '0']) = cs := by
  have hdrop : (cs ++ ['.', '0']).dropSuffix? ['.', '0'] = some cs :=
    List.dropSuffix?_eq_some_iff.mpr ⟨_, rfl, by simp⟩
  rw [stripped, hdrop, Option.getD_some]

theorem stripped_of_getLast? {cs : List Char} (h : cs.getLast? ≠ some '0') : stripped cs = cs := by
  cases hdrop : cs.dropSuffix? ['.', '0'] with
  | none => rw [stripped, hdrop, Option.getD_none]
  | some left =>
    obtain ⟨s, rfl, hs⟩ := List.dropSuffix?_eq_some_iff.mp hdrop
    obtain rfl : s = ['.', '0'] := by simpa using hs
    exact absurd (by simp) h

theorem ne_zero_of_mod {c : Nat} (h : c % 10 ≠ 0) : c ≠ 0 := by
  rintro rfl
  exact h rfl

section Choice

variable {c : Nat} (hmod : c % 10 ≠ 0)

include hmod

theorem getLast?_expanded_neg {p : Nat} (hp : 0 < p) :
    (expanded ⟨c, -p⟩).getLast? ≠ some '0' := by
  have hc : c ≠ 0 := ne_zero_of_mod hmod
  obtain ⟨q, rfl⟩ : ∃ q, p = q + 1 := ⟨p - 1, by omega⟩
  have hlast : expanded ⟨c, -(q + 1 : ℕ)⟩ =
      (digits (c / 10 ^ (q + 1)) ++ '.' :: lastDigits q (c / 10)) ++ [Nat.digitChar (c % 10)] := by
    rw [expanded_neg hc hp, lastDigits, List.append_assoc, List.cons_append]
  rw [hlast, List.getLast?_concat]
  intro h
  exact hmod (Nat.digitChar_eq_zero.mp (Option.some.inj h))

theorem compact_natCast {k : Nat} (he : 'e' ∉ compact ⟨c, k⟩) :
    compact ⟨c, k⟩ = expanded ⟨c, k⟩ ++ ['.', '0'] := by
  have hc : c ≠ 0 := ne_zero_of_mod hmod
  have hlen : 0 < (digits c).length := Nat.length_toDigits_pos
  have hpoint : point ⟨c, k⟩ = (digits c).length + k := rfl
  rw [expanded_natCast hc]
  simp only [compact, hpoint] at he ⊢
  rw [if_neg hc] at he ⊢
  by_cases h : ((digits c).length : Int) + k ≤ 16
  · rw [if_pos ⟨by omega, h⟩, Int.toNat_natCast]
  · rw [if_neg (by omega), if_neg (by omega), if_neg (by omega)] at he
    exact absurd (by simp) he

theorem compact_neg {p : Nat} (hp : 0 < p) (he : 'e' ∉ compact ⟨c, -p⟩) :
    compact ⟨c, -p⟩ = expanded ⟨c, -p⟩ := by
  have hc : c ≠ 0 := ne_zero_of_mod hmod
  have hpoint : point ⟨c, -p⟩ = (digits c).length - p := rfl
  simp only [compact, expanded, hpoint] at he ⊢
  rw [if_neg hc, if_neg (by omega)] at he ⊢
  rw [if_neg hc]
  by_cases hinside : 0 < ((digits c).length - p : Int) ∧ ((digits c).length - p : Int) ≤ 16
  · rw [if_pos hinside, if_neg (by omega), if_pos (by omega)]
  · rw [if_neg hinside] at he ⊢
    by_cases hzeros : -5 < ((digits c).length - p : Int) ∧ ((digits c).length - p : Int) ≤ 0
    · rw [if_pos hzeros, if_pos hzeros.2]
    · rw [if_neg hzeros] at he
      exact absurd (by simp) he

theorem stripped_compact (negative : Bool) {e : Int} (he : 'e' ∉ compact ⟨c, e⟩) :
    stripped (signed negative (compact ⟨c, e⟩)) = signed negative (expanded ⟨c, e⟩) := by
  rcases exists_exponent e with ⟨k, rfl⟩ | ⟨p, hp, rfl⟩
  · rw [compact_natCast hmod he, signed_append, stripped_append]
  · have hend := getLast?_expanded_neg hmod hp
    have hlast : (signed negative (expanded ⟨c, -p⟩)).getLast? ≠ some '0' := by
      cases negative with
      | false => exact hend
      | true =>
        rw [signed, if_pos rfl, List.getLast?_cons]
        cases h : (expanded ⟨c, -p⟩).getLast? with
        | none => decide
        | some d => simpa [h] using hend
    rw [compact_neg hmod hp he, stripped_of_getLast? hlast]

end Choice

theorem mem_signed_iff {negative : Bool} {cs : List Char} :
    'e' ∈ signed negative cs ↔ 'e' ∈ cs := by
  cases negative <;> simp [signed]

/-- What is written is the numeral of the first digits, or of the second ones if the first have an
exponent. -/
theorem pick_eq (negative : Bool) {d d' : Decimal}
    (h : d.coefficient = 0 ∨ d.coefficient % 10 ≠ 0) :
    pick (signed negative d.compact) (signed negative d'.expanded) =
      if 'e' ∈ d.compact then (d'.numeral negative).text else (d.numeral negative).text := by
  simp only [pick, mem_signed_iff, text_numeral]
  split
  · rfl
  · rcases h with h | h
    · have hcompact : d.compact = ['0'] ++ ['.', '0'] := if_pos h
      have hexpanded : d.expanded = ['0'] := if_pos h
      rw [hcompact, hexpanded, signed_append, stripped_append]
    · exact stripped_compact h negative ‹_›

def size (d : Decimal) : Nat := if d.coefficient = 0 then 0 else (digits d.coefficient).length

/-- The digits read back as `x`, and no decimal with fewer significant ones does. -/
def IsShortest (d : Decimal) (x : Binary64) : Prop :=
  (d.numeral x.negative).value = x ∧
    ∀ n : Numeral, n.value = x → d.size ≤ significant n.coefficient

theorem significant_numeral (negative : Bool) (d : Decimal) :
    significant (d.numeral negative).coefficient = significant d.coefficient := by
  by_cases hc : d.coefficient = 0
  · rw [numeral_of_zero negative hc, hc]
  · rw [numeral_of_ne_zero negative hc, significant_mul_pow]

theorem significant_le_length (n : Nat) : significant n ≤ (digits n).length :=
  (List.rdropWhile_prefix _ _).length_le

theorem significant_le_size (d : Decimal) : significant d.coefficient ≤ d.size := by
  rw [size]
  split
  · rename_i hc
    rw [hc]
    decide
  · exact significant_le_length _

theorem IsShortest.mod_ten {d : Decimal} {x : Binary64} (h : d.IsShortest x) :
    d.coefficient = 0 ∨ d.coefficient % 10 ≠ 0 := by
  by_contra! hzero
  obtain ⟨hc, hmod⟩ := hzero
  have hself := h.2 _ h.1
  obtain ⟨c, hten⟩ : ∃ c, d.coefficient = c * 10 := ⟨d.coefficient / 10, by omega⟩
  have hlen : (digits (c * 10)).length = (digits c).length + 1 := by
    rw [digits_concat (by omega), Nat.mul_div_cancel c (by omega), List.length_append,
      List.length_singleton]
  have hle := significant_le_length c
  rw [significant_numeral, size, if_neg hc, hten, significant_mul_ten, hlen] at hself
  omega

end Decimal

/-- The text is plain, reads back as the number, and has no more significant digits than any decimal
that does. -/
structure Represents (text : List Char) (x : Binary64) : Prop where
  plain : Numeral.IsPlain x.negative text
  value : (Numeral.read? text).map Numeral.value = some x
  fewest : ∀ n : Numeral, n.value = x → ∀ m ∈ Numeral.read? text,
    significant m.coefficient ≤ significant n.coefficient

namespace Decimal

variable {d : Decimal} {x : Binary64}

theorem IsShortest.represents (h : d.IsShortest x) : Represents (d.numeral x.negative).text x := by
  have hread := Numeral.read?_text (d.numeral x.negative)
  have hsign : (d.numeral x.negative).negative = x.negative := by
    rw [numeral]
    split <;> rfl
  refine ⟨?_, ?_, ?_⟩
  · have htrimmed : (d.numeral x.negative).places = 0 ∨
        (d.numeral x.negative).coefficient % 10 ≠ 0 := by
      by_cases hc : d.coefficient = 0
      · exact .inl (by rw [numeral_of_zero x.negative hc])
      · rw [numeral_of_ne_zero x.negative hc]
        rcases exists_exponent d.exponent with ⟨k, hk⟩ | ⟨p, hp, hk⟩
        · have hplaces : (-d.exponent).toNat = 0 := by omega
          exact .inl hplaces
        · have hexp : d.exponent.toNat = 0 := by omega
          refine .inr ?_
          rw [hexp, pow_zero, Nat.mul_one]
          exact h.mod_ten.resolve_left hc
    have hplain := Numeral.isPlain_text htrimmed
    rwa [hsign] at hplain
  · rw [hread, Option.map_some, h.1]
  · intro n hn m hm
    rw [hread, Option.mem_some_iff] at hm
    rw [← hm, significant_numeral]
    exact d.significant_le_size.trans (h.2 n hn)

/-- Whatever shortest digits the two layouts are made of, what is written represents the number. -/
theorem represents_pick {d' : Decimal} (h : d.IsShortest x) (h' : d'.IsShortest x) :
    Represents (pick (signed x.negative d.compact) (signed x.negative d'.expanded)) x := by
  rw [pick_eq x.negative h.mod_ten]
  split
  · exact h'.represents
  · exact h.represents

end Decimal

namespace Binary64

variable {x : Binary64}

theorem exists_isShortest (hx : x.isFinite = true) :
    ∃ d : Decimal, d.IsShortest x ∧ x.shortest = d.numeral x.negative := by
  have hvalue := value_shortest hx
  rcases Nat.eq_zero_or_pos x.place with h | h
  · have hshortest : x.shortest = Decimal.numeral x.negative ⟨0, 0⟩ := shortest_of_zero h
    rw [hshortest] at hvalue
    exact ⟨⟨0, 0⟩, ⟨hvalue, fun n hn => Nat.zero_le _⟩, hshortest⟩
  · obtain ⟨c, i, hshortest, hmod, hfewest⟩ := exists_digits hx h
    have hne : c ≠ 0 := Decimal.ne_zero_of_mod hmod
    have hup : ((i : Int) - 343).toNat = i - 343 := by omega
    have hdown : (-((i : Int) - 343)).toNat = 343 - i := by omega
    have hnumeral : x.shortest = Decimal.numeral x.negative ⟨c, i - 343⟩ := by
      rw [hshortest, Decimal.numeral_of_ne_zero x.negative hne, hup, hdown]
    rw [hnumeral] at hvalue
    refine ⟨⟨c, i - 343⟩, ⟨hvalue, fun n hn => ?_⟩, hnumeral⟩
    rw [Decimal.size, if_neg hne]
    exact hfewest n hn

theorem represents_shortestText (hx : x.isFinite = true) : Represents x.shortestText x := by
  obtain ⟨d, hd, hshortest⟩ := exists_isShortest hx
  rw [shortestText, if_pos hx, hshortest]
  exact hd.represents

end Binary64
end MetricPipeline
