import Mathlib
import MetricPipeline.Address.Text

namespace MetricPipeline

open SocketAddress

theorem hexValue?_digitChar {d : Nat} (hd : d < 16) : hexValue? d.digitChar = some d := by
  have hall : ∀ d : Fin 16, hexValue? d.val.digitChar = some d.val := by decide
  exact hall ⟨d, hd⟩

section Digit

variable {base d n : Nat} (hlow : 1 < base) (hhigh : base ≤ 16)

include hhigh in
theorem digitIn?_digitChar (hd : d < base) : digitIn? base d.digitChar = some d := by
  rw [digitIn?, hexValue?_digitChar (by omega), Option.filter_some, if_pos (by simpa using hd)]

theorem digitIn?_eq_none {c : Char} (h : hexValue? c = none) : digitIn? base c = none := by
  rw [digitIn?, h, Option.filter_none]

include hlow in
theorem exists_of_mem_toDigits {c : Char} (hc : c ∈ Nat.toDigits base n) :
    ∃ d < base, c = d.digitChar := by
  induction n using Nat.strong_induction_on with
  | _ n ih =>
    rw [Nat.toDigits_eq_if hlow] at hc
    split at hc
    · exact ⟨n, ‹_›, List.mem_singleton.mp hc⟩
    · rename_i hn
      rcases List.mem_append.mp hc with hc | hc
      · exact ih (n / base) (Nat.div_lt_self (by omega) hlow) hc
      · exact ⟨n % base, Nat.mod_lt n (by omega), List.mem_singleton.mp hc⟩

include hlow in
theorem head?_toDigits (h : (Nat.toDigits base n).head? = some '0') : n = 0 := by
  induction n using Nat.strong_induction_on with
  | _ n ih =>
    rw [Nat.toDigits_eq_if hlow] at h
    split at h
    · exact Nat.digitChar_eq_zero.mp (Option.some.inj h)
    · rename_i hn
      rw [List.head?_append_of_ne_nil _ Nat.toDigits_ne_nil] at h
      have hz := ih (n / base) (Nat.div_lt_self (by omega) hlow) h
      rw [Nat.div_eq_zero_iff] at hz
      omega

include hlow hhigh in
theorem foldl_toDigits : ((Nat.toDigits base n).filterMap (digitIn? base)).foldl
    (fun n d => base * n + d) 0 = n := by
  induction n using Nat.strong_induction_on with
  | _ n ih =>
    rw [Nat.toDigits_eq_if hlow]
    split
    · simp [digitIn?_digitChar hhigh ‹_›]
    · rename_i hn
      have hmod : n % base < base := Nat.mod_lt n (by omega)
      rw [List.filterMap_append, List.foldl_append,
        ih (n / base) (Nat.div_lt_self (by omega) hlow)]
      simp [digitIn?_digitChar hhigh hmod, Nat.div_add_mod]

/-- No digit stands in front. -/
def NoDigit (base : Nat) (rest : List Char) : Prop := ∀ c ∈ rest.head?, digitIn? base c = none

theorem NoDigit.dropWhile {rest : List Char} (h : NoDigit base rest) :
    (rest.dropWhile fun c => (digitIn? base c).isSome) = rest := by
  cases rest with
  | nil => rfl
  | cons c rest => exact List.dropWhile_cons_of_neg (by simp [h c rfl])

theorem NoDigit.takeWhile {rest : List Char} (h : NoDigit base rest) :
    (rest.takeWhile fun c => (digitIn? base c).isSome) = [] := by
  cases rest with
  | nil => rfl
  | cons c rest => exact List.takeWhile_cons_of_neg (by simp [h c rfl])

theorem NoDigit.readNumber {rest : List Char} (h : NoDigit base rest) (limit : Nat) :
    readNumber base limit rest = none := by
  rw [SocketAddress.readNumber]
  simp [h.takeWhile]

include hlow hhigh in
theorem readNumber_toDigits {limit : Nat} (hn : n < limit) {rest : List Char}
    (hr : NoDigit base rest) :
    readNumber base limit (Nat.toDigits base n ++ rest) = some (n, rest) := by
  have hall : ∀ c ∈ Nat.toDigits base n, (digitIn? base c).isSome = true := by
    intro c hc
    obtain ⟨d, hd, rfl⟩ := exists_of_mem_toDigits hlow hc
    rw [digitIn?_digitChar hhigh hd, Option.isSome_some]
  have hne : (Nat.toDigits base n).isEmpty = false := by
    simp [Nat.toDigits_ne_nil]
  rw [readNumber, List.takeWhile_append_of_pos hall, List.dropWhile_append_of_pos hall,
    hr.takeWhile, hr.dropWhile, List.append_nil]
  simp only [foldl_toDigits hlow hhigh, hne]
  exact if_neg (by simpa using hn)

end Digit
end MetricPipeline
