import Mathlib
import MetricPipeline.Pool

namespace MetricPipeline

theorem toUInt64_add (a b : Nat) : (a + b).toUInt64 = a.toUInt64 + b.toUInt64 :=
  UInt64.ofNat_add a b

namespace Buffer

@[simp] theorem reset_blank (k : Blank) : k.buffer.reset = k.buffer := by
  obtain ⟨b, hb, hl⟩ := k
  rw [reset, ← hb, ← hl]

end Buffer

namespace Pool

/-- The ways a buffer can be borrowed. -/
inductive Borrowed (p : Pool) : Blank × Pool → Prop
  | reused {oldest : Blank} {rest : List Blank} (hf : p.free = oldest :: rest) :
      Borrowed p (oldest,
        { p with free := rest, stats := { p.stats with reused := p.stats.reused + 1 } })
  | grown (hf : p.free = []) (hlt : p.tracked < p.maximum) :
      Borrowed p (Blank.mk p.limits true p.tracked, { p with
        tracked := p.tracked + 1
        stats := { p.stats with allocated := p.stats.allocated + 1 } })
  | transient (hf : p.free = []) (hge : p.maximum ≤ p.tracked) :
      Borrowed p (Blank.mk p.limits false,
        { p with stats := { p.stats with transient := p.stats.transient + 1 } })

theorem borrowed_borrow (p : Pool) : p.Borrowed p.borrow := by
  unfold borrow allocate?
  split
  · rename_i hf
    exact .reused hf
  · rename_i hf
    by_cases hlt : p.tracked < p.maximum
    · simp only [hlt, if_true]
      exact .grown hf hlt
    · simp only [hlt, if_false]
      exact .transient hf (not_lt.mp hlt)

def Accepts (p : Pool) (b : Buffer) : Prop :=
  b.tracked = true ∧ b.limits.length = p.limits.length ∧ p.available < p.maximum

variable {p : Pool} {b : Buffer}

theorem release_of_accepts (h : p.Accepts b) :
    p.release b = { p with free := p.free ++ [.ofBuffer b.reset rfl rfl] } := by
  obtain ⟨ht, hl, hr⟩ := h
  have hr' : p.free.length < p.maximum := hr
  simp [release, ht, hl, hr']

theorem release_of_not_accepts (h : ¬p.Accepts b) : p.release b = p.discard := by
  unfold release
  split
  · rfl
  · rename_i hc
    rw [if_neg]
    intro hr
    simp only [Bool.or_eq_true, Bool.not_eq_eq_eq_not, Bool.not_true, ne_eq,
      decide_eq_true_eq] at hc
    exact h ⟨by simpa using fun ht => hc (.inl ht), by_contra fun hl => hc (.inr hl), hr⟩

theorem not_accepts_of_untracked (h : b.tracked = false) : ¬p.Accepts b := by
  simp [Accepts, h]

theorem available_release_lt_iff : p.available < (p.release b).available ↔ p.Accepts b := by
  by_cases h : p.Accepts b
  · simp [release_of_accepts h, available, h]
  · simp [release_of_not_accepts h, discard, available, h]

@[simp] theorem limits_release : (p.release b).limits = p.limits := by
  by_cases h : p.Accepts b
  · rw [release_of_accepts h]
  · rw [release_of_not_accepts h, discard]

/-- A new pool has made the buffers it starts with, and all of them are free. -/
theorem create_eq (initial maximum : Nat) (L : Limits) :
    create initial maximum L =
      { limits := L
        maximum
        free := (List.range (min initial maximum)).map (Blank.mk L true ·)
        tracked := min initial maximum
        stats := { allocated := (min initial maximum).toUInt64 } } := by
  have stocked (n : Nat) (hn : n ≤ maximum) :
      Nat.repeat stock n { limits := L, maximum } =
        { limits := L
          maximum
          free := (List.range n).map (Blank.mk L true ·)
          tracked := n
          stats := { allocated := n.toUInt64 } } := by
    induction n with
    | zero => rfl
    | succ n ih =>
      rw [Nat.repeat, ih (Nat.le_of_succ_le hn), stock, allocate?, if_pos (Nat.lt_of_succ_le hn)]
      simp only
      rw [release_of_accepts ⟨rfl, rfl, by simpa [available] using hn⟩, toUInt64_add,
        List.range_succ, List.map_append]
      rfl
  exact stocked _ (Nat.min_le_right _ _)

end Pool
end MetricPipeline
