import Mathlib
import MetricPipeline.Line

namespace MetricPipeline

theorem newline_notMem_utf8EncodeChar {c : Char} (h : c ≠ '\n') :
    newline ∉ String.utf8EncodeChar c := by
  have hv : c.val.toNat ≠ 10 := by
    intro hn
    apply h
    exact Char.ext (UInt32.toNat.inj hn)
  intro hm
  -- Only a character of one byte has a byte below 128, and that byte is its code.
  unfold String.utf8EncodeChar at hm
  dsimp only at hm
  split_ifs at hm <;>
    simp only [List.mem_cons, List.not_mem_nil, or_false, newline, ← UInt8.toNat_inj,
      UInt8.toNat_ofNat', UInt8.toNat_ofNat, Nat.reducePow] at hm <;> omega

theorem newline_notMem_utf8 {cs : List Char} (h : '\n' ∉ cs) : newline ∉ utf8 cs := by
  intro hm
  obtain ⟨c, hc, hb⟩ := List.mem_flatMap.mp hm
  have hn : c ≠ '\n' := fun he => h (he ▸ hc)
  exact newline_notMem_utf8EncodeChar hn hb

theorem newline_notMem_written (s : String) : newline ∉ written s := by
  apply newline_notMem_utf8
  simp [oneLine]

section Numbers

theorem newline_notMem_digits (n : Nat) : '\n' ∉ digits n := by
  intro h
  have hd := Nat.isDigit_of_mem_toDigits (by decide) (by decide) h
  exact absurd hd (by decide)

theorem newline_notMem_lastDigits (k n : Nat) : '\n' ∉ lastDigits k n := by
  induction k generalizing n with
  | zero => simp [lastDigits]
  | succ k ih =>
    have hd : Nat.digitChar (n % 10) ≠ '\n' := by
      have hlt : n % 10 < 10 := Nat.mod_lt _ (by decide)
      interval_cases n % 10 <;> decide
    simp only [lastDigits, List.mem_append, List.mem_singleton, not_or]
    exact ⟨ih _, hd.symm⟩

theorem newline_notMem_integerText (n : Int) : '\n' ∉ integerText n := by
  unfold integerText
  split <;> simp [newline_notMem_digits]

theorem Numeral.newline_notMem_text (x : Numeral) : '\n' ∉ x.text := by
  simp only [text, whole, decimals, List.mem_append, not_or]
  refine ⟨⟨?_, newline_notMem_digits _⟩, ?_⟩
  · split <;> simp
  · split <;> simp [newline_notMem_lastDigits]

theorem Binary64.newline_notMem_specialText (x : Binary64) : '\n' ∉ x.specialText := by
  unfold specialText
  split
  · decide
  · split <;> decide

theorem Binary64.newline_notMem_shortestText (x : Binary64) : '\n' ∉ x.shortestText := by
  unfold shortestText
  split
  · exact Numeral.newline_notMem_text _
  · exact x.newline_notMem_specialText

theorem Binary64.newline_notMem_sixPlacesText (x : Binary64) : '\n' ∉ x.sixPlacesText := by
  unfold sixPlacesText
  split
  · exact Numeral.newline_notMem_text _
  · exact x.newline_notMem_specialText

end Numbers

theorem Value.newline_notMem_points (v : Value) : ∀ p ∈ v.points, newline ∉ p := by
  have hs (x : Binary64) : newline ∉ utf8 x.shortestText :=
    newline_notMem_utf8 x.newline_notMem_shortestText
  cases v with
  | gauge x | histogram x | distribution x => simpa [points] using hs x
  | count n => simpa [points] using newline_notMem_utf8 (newline_notMem_integerText _)
  | set member => simpa [points] using newline_notMem_written member
  | timing x => simpa [points] using newline_notMem_utf8 x.newline_notMem_sixPlacesText
  | histogramBatch xs _ | distributionBatch xs _ => simpa [points] using fun x _ => hs x

theorem newline_notMem_tagSection (tags : List String) : newline ∉ tagSection tags := by
  have hc : newline ∉ ascii "," := by decide
  cases tags with
  | nil => simp [tagSection]
  | cons tag tags =>
    simp only [tagSection, List.mem_append, List.mem_flatMap, not_or, not_exists, not_and]
    exact ⟨⟨by decide, newline_notMem_written tag⟩, fun t _ => ⟨hc, newline_notMem_written t⟩⟩

namespace Metric

theorem newline_notMem_header (m : Metric) : newline ∉ m.header := by
  simp only [header, List.mem_append, not_or]
  exact ⟨newline_notMem_written _, newline_notMem_written _⟩

/-- The newline of a trailer is its end. -/
theorem trailer_eq (m : Metric) : ∃ body, m.trailer = body ++ [newline] ∧ newline ∉ body := by
  refine ⟨_, rfl, ?_⟩
  simp only [List.mem_append, not_or]
  refine ⟨⟨?_, ?_⟩, newline_notMem_tagSection _⟩
  · cases m.value.kind <;> decide
  · unfold rateSection
    split
    · simp only [List.mem_append, not_or]
      exact ⟨by decide, newline_notMem_utf8 m.rate.newline_notMem_shortestText⟩
    · simp

/-- A line with any of a metric's points has its newline at its end and nowhere else. -/
theorem line_eq (m : Metric) {points : List Bytes} (h : points ⊆ m.value.points) :
    ∃ body, m.frame.line points = body ++ [newline] ∧ newline ∉ body := by
  obtain ⟨body, ht, hb⟩ := m.trailer_eq
  have hv : newline ∉ Frame.values points := by
    intro hm
    obtain ⟨p, hp, hn⟩ := List.mem_flatMap.mp hm
    rcases List.mem_append.mp hn with hc | hn
    · exact absurd hc (by decide)
    · exact m.value.newline_notMem_points p (h hp) hn
  refine ⟨m.header ++ Frame.values points ++ body, by simp [Frame.line, frame, ht], ?_⟩
  simp only [List.mem_append, not_or]
  exact ⟨⟨m.newline_notMem_header, hv⟩, hb⟩

end Metric
end MetricPipeline
