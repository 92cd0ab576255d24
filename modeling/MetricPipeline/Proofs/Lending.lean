import MetricPipeline.Proofs.Pooling

namespace MetricPipeline

/-- A pool in use. -/
structure Lender where
  pool : Pool
  /-- The buffers that came to be free, as they were then, in the order in which they did. -/
  comings : List Buffer
  /-- Those of the free ones that were borrowed, in the order in which they were. -/
  goings : List Buffer := []
  loans : List Buffer := []
  borrows : Nat := 0
  /-- How many buffers were given to the pool that are not tracked. -/
  strays : Nat := 0

inductive Deal
  | borrow
  | write (loan : Nat) (line : Bytes)
  | giveBack (loan : Nat)
  /-- Gives the pool a buffer that was not borrowed from it. -/
  | handIn (b : Buffer)

namespace Deal

def isUntracked : Deal → Bool
  | handIn b => !b.tracked
  | _ => true

/-- Whether such a buffer is untracked or has another length than the pool's. -/
def isApart (L : Limits) : Deal → Bool
  | handIn b => !b.tracked || b.limits.length != L.length
  | _ => true

theorem isApart_of_isUntracked (L : Limits) {d : Deal} (h : d.isUntracked = true) :
    d.isApart L = true := by
  cases d with
  | handIn b => simp_all [isUntracked, isApart]
  | borrow | write | giveBack => rfl

end Deal

namespace Lender

def create (initial maximum : Nat) (L : Limits) : Lender :=
  let pool := Pool.create initial maximum L
  { pool, comings := pool.free.map Blank.buffer }

def lend (l : Lender) : Lender :=
  let (k, pool) := l.pool.borrow
  { l with
    pool
    goings := if pool.available < l.pool.available then l.goings ++ [k.buffer] else l.goings
    loans := l.loans ++ [k.buffer]
    borrows := l.borrows + 1 }

def receive (l : Lender) (b : Buffer) : Lender :=
  let pool := l.pool.release b
  { l with
    pool
    comings := if l.pool.available < pool.available then l.comings ++ [b] else l.comings
    strays := if b.tracked then l.strays else l.strays + 1 }

def without (l : Lender) (i : Nat) : Lender := { l with loans := l.loans.eraseIdx i }

def deal (l : Lender) : Deal → Lender
  | .borrow => l.lend
  | .write i line => { l with loans := l.loans.modify i (·.append line) }
  | .giveBack i =>
    match l.loans[i]? with
    | none => l
    | some b => (l.without i).receive b
  | .handIn b => l.receive b

def run (l : Lender) (ds : List Deal) : Lender := ds.foldl deal l

section Receive

variable {l : Lender} {b : Buffer}

theorem receive_of_accepts (h : l.pool.Accepts b) :
    l.receive b =
      { l with
        pool := { l.pool with free := l.pool.free ++ [.ofBuffer b.reset rfl rfl] }
        comings := l.comings ++ [b] } := by
  rw [receive, if_pos (Pool.available_release_lt_iff.mpr h), if_pos h.1, Pool.release_of_accepts h]

theorem receive_of_not_accepts (h : ¬l.pool.Accepts b) :
    l.receive b =
      { l with
        pool := l.pool.discard
        strays := if b.tracked then l.strays else l.strays + 1 } := by
  rw [receive, if_neg (mt Pool.available_release_lt_iff.mp h), Pool.release_of_not_accepts h]

end Receive

section Lend

variable {l : Lender}

theorem lend_of_free {k : Blank} {rest : List Blank} (hf : l.pool.free = k :: rest) :
    l.lend =
      { l with
        pool := { l.pool with
          free := rest
          stats := { l.pool.stats with reused := l.pool.stats.reused + 1 } }
        goings := l.goings ++ [k.buffer]
        loans := l.loans ++ [k.buffer]
        borrows := l.borrows + 1 } := by
  simp [lend, Pool.borrow, hf, Pool.available]

theorem lend_of_growth (hf : l.pool.free = []) (hlt : l.pool.tracked < l.pool.maximum) :
    l.lend =
      { l with
        pool := { l.pool with
          tracked := l.pool.tracked + 1
          stats := { l.pool.stats with allocated := l.pool.stats.allocated + 1 } }
        loans := l.loans ++ [(Blank.mk l.pool.limits true l.pool.tracked).buffer]
        borrows := l.borrows + 1 } := by
  simp [lend, Pool.borrow, Pool.allocate?, hf, hlt, Pool.available]

theorem lend_of_full (hf : l.pool.free = []) (hge : l.pool.maximum ≤ l.pool.tracked) :
    l.lend =
      { l with
        pool := { l.pool with
          stats := { l.pool.stats with transient := l.pool.stats.transient + 1 } }
        loans := l.loans ++ [(Blank.mk l.pool.limits false).buffer]
        borrows := l.borrows + 1 } := by
  simp [lend, Pool.borrow, Pool.allocate?, hf, not_lt.mpr hge, Pool.available]

end Lend

variable {initial maximum : Nat} {L : Limits} {l : Lender} {b : Buffer}

/-- What holds whatever the pool is given. -/
structure InLine (initial maximum : Nat) (L : Limits) (l : Lender) : Prop where
  limits : l.pool.limits = L
  maximum_eq : l.pool.maximum = maximum
  /-- First in, first out, and cleared on the way. -/
  line : l.comings.map Buffer.reset = l.goings ++ l.pool.free.map Blank.buffer
  free : ∀ k ∈ l.pool.free, k.tracked = true ∧ k.limits.length = L.length
  initial_le : min initial maximum ≤ l.pool.tracked
  tracked_le : l.pool.tracked ≤ maximum
  allocated : l.pool.stats.allocated = l.pool.tracked.toUInt64
  reused : l.pool.stats.reused = l.goings.length.toUInt64
  borrows : ∃ transient : Nat, l.pool.stats.transient = transient.toUInt64 ∧
    l.borrows + min initial maximum = l.goings.length + l.pool.tracked + transient

namespace InLine

theorem create (initial maximum : Nat) (L : Limits) :
    (create initial maximum L).InLine initial maximum L := by
  rw [Lender.create, Pool.create_eq]
  refine ⟨rfl, rfl, by simp, ?_, le_refl _, Nat.min_le_right _ _, rfl, rfl, 0, rfl, by simp⟩
  intro k hk
  obtain ⟨n, -, rfl⟩ := List.mem_map.mp hk
  exact ⟨rfl, rfl⟩

theorem lend (h : l.InLine initial maximum L) : l.lend.InLine initial maximum L := by
  obtain ⟨n, hn, hb⟩ := h.borrows
  cases hf : l.pool.free with
  | cons k rest =>
    have hline := h.line
    have hfree := h.free
    rw [hf] at hline hfree
    rw [lend_of_free hf]
    refine { h with
      line := by simpa using hline
      free := fun k hk => hfree k (List.mem_cons_of_mem _ hk)
      reused := ?_
      borrows := ⟨n, hn, ?_⟩ }
    · rw [List.length_append, toUInt64_add, h.reused]
      rfl
    · simp only [List.length_append, List.length_singleton]
      omega
  | nil =>
    by_cases hlt : l.pool.tracked < l.pool.maximum
    · rw [lend_of_growth hf hlt]
      refine { h with
        initial_le := Nat.le_succ_of_le h.initial_le
        tracked_le := h.maximum_eq ▸ hlt
        allocated := ?_
        borrows := ⟨n, hn, ?_⟩ }
      · rw [toUInt64_add, h.allocated]
        rfl
      · dsimp only
        omega
    · rw [lend_of_full hf (not_lt.mp hlt)]
      refine { h with borrows := ⟨n + 1, ?_, ?_⟩ }
      · rw [toUInt64_add, hn]
        rfl
      · dsimp only
        omega

theorem receive (h : l.InLine initial maximum L) (b : Buffer) :
    (l.receive b).InLine initial maximum L := by
  by_cases ha : l.pool.Accepts b
  · rw [receive_of_accepts ha]
    refine { h with line := by simp [h.line], free := ?_ }
    intro k hk
    rcases List.mem_append.mp hk with hk | hk
    · exact h.free k hk
    · rw [List.mem_singleton.mp hk]
      exact ⟨ha.1, ha.2.1.trans (congrArg Limits.length h.limits)⟩
  · rw [receive_of_not_accepts ha]
    exact { h with }

theorem withLoans (h : l.InLine initial maximum L) (loans : List Buffer) :
    Lender.InLine initial maximum L { l with loans } :=
  { h with }

theorem deal (h : l.InLine initial maximum L) (d : Deal) : (l.deal d).InLine initial maximum L := by
  cases d with
  | borrow => exact h.lend
  | write i line => exact h.withLoans _
  | giveBack i =>
    simp only [Lender.deal]
    split
    · exact h
    · exact (h.withLoans _).receive _
  | handIn b => exact h.receive b

theorem run (h : l.InLine initial maximum L) (ds : List Deal) :
    (l.run ds).InLine initial maximum L := by
  induction ds generalizing l with
  | nil => exact h
  | cons d ds ih => exact ih (h.deal d)

theorem not_accepts (h : l.InLine initial maximum L) (hb : (Deal.handIn b).isApart L = true) :
    ¬l.pool.Accepts b := by
  rintro ⟨ht, hl, -⟩
  simp [Deal.isApart, ht, hl, h.limits] at hb

theorem lend_oldest (h : l.InLine initial maximum L)
    (hb : l.comings[l.goings.length]? = some b) :
    l.lend.loans = l.loans ++ [b.reset] ∧ l.lend.goings = l.goings ++ [b.reset] := by
  have hm : (l.goings ++ l.pool.free.map Blank.buffer)[l.goings.length]? = some b.reset := by
    rw [← h.line, List.getElem?_map, hb, Option.map_some]
  cases hf : l.pool.free with
  | nil => simp [hf] at hm
  | cons k rest =>
    have hk : k.buffer = b.reset := by simpa [hf] using hm
    rw [lend_of_free hf, hk]
    exact ⟨rfl, rfl⟩

theorem borrow_length (h : l.InLine initial maximum L) :
    l.pool.borrow.1.limits.length = L.length := by
  have hb := l.pool.borrowed_borrow
  generalize l.pool.borrow = r at hb ⊢
  cases hb with
  | reused hf => exact (h.free _ (by simp [hf])).2
  | grown _ _ => exact congrArg Limits.length h.limits
  | transient _ _ => exact congrArg Limits.length h.limits

theorem borrow_untracked_iff (h : l.InLine initial maximum L) :
    l.pool.borrow.1.tracked = false ↔ l.pool.available = 0 ∧ l.pool.tracked = maximum := by
  have hle := h.tracked_le
  have hm := h.maximum_eq
  have hb := l.pool.borrowed_borrow
  generalize l.pool.borrow = r at hb ⊢
  cases hb with
  | @reused k rest hf =>
    have ht : k.tracked = true := (h.free k (by simp [hf])).1
    simp [Pool.available, hf, ht]
  | grown hf hlt =>
    have hne : l.pool.tracked ≠ maximum := by omega
    simp [hne, Blank.mk, Blank.tracked]
  | transient hf hge =>
    have heq : l.pool.tracked = maximum := by omega
    simp [Pool.available, hf, heq, Blank.mk, Blank.tracked]

/-- The counts as shown add up, as long as none of them has come to 2^64. -/
theorem borrows_eq (h : l.InLine initial maximum L) (hb : l.borrows < UInt64.size)
    (hm : maximum < UInt64.size) :
    l.borrows = l.pool.reused + (l.pool.allocated - min initial maximum) + l.pool.transient := by
  obtain ⟨n, hn, hsum⟩ := h.borrows
  have hi := h.initial_le
  have hle := h.tracked_le
  have shown {k : Nat} (hk : k < UInt64.size) : k.toUInt64.toNat = k :=
    UInt64.toNat_ofNat_of_lt' hk
  rw [Pool.reused, Pool.allocated, Pool.transient, h.reused, h.allocated, hn,
    shown (by omega), shown (by omega), shown (by omega)]
  omega

end InLine

def out (loans : List Buffer) : List Buffer := loans.filter (·.tracked)

section Out

theorem out_append (loans loans' : List Buffer) : out (loans ++ loans') = out loans ++ out loans' :=
  List.filter_append ..

theorem map_write {α : Type} (g : Buffer → α) (line : Bytes) (hg : ∀ b, g (b.append line) = g b)
    (loans : List Buffer) (i : Nat) : (loans.modify i (·.append line)).map g = loans.map g := by
  apply List.ext_getElem?
  intro j
  rw [List.getElem?_map, List.getElem?_map, List.getElem?_modify]
  split <;> cases loans[j]? <;> simp [hg]

theorem out_write (loans : List Buffer) (i : Nat) (line : Bytes) :
    (out (loans.modify i (·.append line))).map Buffer.number =
      (out loans).map Buffer.number := by
  have hm := map_write (fun b => (b.tracked, b.number)) line (fun _ => rfl) loans i
  have ho (bs : List Buffer) : (out bs).map Buffer.number =
      ((bs.map fun b => (b.tracked, b.number)).filter Prod.fst).map Prod.snd := by
    simp [out, List.filter_map, Function.comp_def]
  rw [ho, ho, hm]

theorem out_perm {loans : List Buffer} {i : Nat} (hi : loans[i]? = some b) :
    (out loans).Perm ((if b.tracked then [b] else []) ++ out (loans.eraseIdx i)) := by
  obtain ⟨hlt, rfl⟩ := List.getElem?_eq_some_iff.mp hi
  have hp := (List.getElem_cons_eraseIdx_perm hlt).symm.filter (·.tracked)
  cases hb : loans[i].tracked <;> simpa [out, hb] using hp

end Out

/-- Every tracked buffer of the pool's is free or lent, in one place, and no other is. -/
structure Closed (L : Limits) (l : Lender) : Prop where
  once : (l.pool.free.map (·.buffer.number) ++ (out l.loans).map Buffer.number).Perm
    (List.range l.pool.tracked)
  free : ∀ k ∈ l.pool.free, k.limits = L
  loans : ∀ b ∈ l.loans, b.limits = L

namespace Closed

theorem available_add (hc : l.Closed L) :
    l.pool.available + l.loans.countP (·.tracked) = l.pool.tracked := by
  have hl := hc.once.length_eq
  rwa [List.length_append, List.length_map, List.length_map, List.length_range, out,
    ← List.countP_eq_length_filter] at hl

theorem accepts (hc : l.Closed L) (h : l.InLine initial maximum L) (hb : b ∈ l.loans)
    (ht : b.tracked = true) : l.pool.Accepts b := by
  have hadd := hc.available_add
  have hpos : 0 < l.loans.countP (·.tracked) := List.countP_pos_iff.mpr ⟨b, hb, ht⟩
  have hle := h.tracked_le
  have hm := h.maximum_eq
  exact ⟨ht, by rw [hc.loans b hb, h.limits], by omega⟩

theorem create (initial maximum : Nat) (L : Limits) :
    (Lender.create initial maximum L).Closed L := by
  rw [Lender.create, Pool.create_eq]
  refine ⟨?_, ?_, by simp⟩
  · simp [out, Blank.mk, Function.comp_def]
  · intro k hk
    obtain ⟨n, -, rfl⟩ := List.mem_map.mp hk
    rfl

theorem lend (hc : l.Closed L) (h : l.InLine initial maximum L) : l.lend.Closed L := by
  have hloans {b : Buffer} (hb : b.limits = L) : ∀ b' ∈ l.loans ++ [b], b'.limits = L := by
    simpa [or_imp, forall_and, hb] using hc.loans
  cases hf : l.pool.free with
  | cons k rest =>
    have honce := hc.once
    have hfree := hc.free
    rw [hf] at honce hfree
    have hk : k.buffer.tracked = true := (h.free k (by simp [hf])).1
    rw [lend_of_free hf]
    refine ⟨?_, fun k hk => hfree k (List.mem_cons_of_mem _ hk), hloans (hfree k (by simp))⟩
    have ho : out (l.loans ++ [k.buffer]) = out l.loans ++ [k.buffer] := by simp [out, hk]
    rw [ho, List.map_append, ← List.append_assoc]
    exact (List.perm_append_singleton _ _).trans honce
  | nil =>
    by_cases hlt : l.pool.tracked < l.pool.maximum
    · rw [lend_of_growth hf hlt]
      refine ⟨?_, hc.free, hloans h.limits⟩
      rw [out_append, List.map_append, ← List.append_assoc, List.range_succ]
      exact hc.once.append_right _
    · rw [lend_of_full hf (not_lt.mp hlt)]
      refine ⟨?_, hc.free, hloans h.limits⟩
      have ho : out (l.loans ++ [(Blank.mk l.pool.limits false).buffer]) = out l.loans := by
        simp [out, Blank.mk]
      rw [ho]
      exact hc.once

theorem giveBack (hc : l.Closed L) (h : l.InLine initial maximum L) {i : Nat}
    (hi : l.loans[i]? = some b) : ((l.without i).receive b).Closed L := by
  have hmem := List.mem_of_getElem? hi
  have hp := (out_perm hi).map Buffer.number
  have hloans : ∀ b' ∈ l.loans.eraseIdx i, b'.limits = L :=
    fun b' hb' => hc.loans b' (List.mem_of_mem_eraseIdx hb')
  cases hb : b.tracked with
  | true =>
    have ha : (l.without i).pool.Accepts b := hc.accepts h hmem hb
    rw [receive_of_accepts ha]
    refine ⟨?_, ?_, hloans⟩
    · rw [List.map_append, List.append_assoc]
      rw [hb] at hp
      exact (hp.symm.append_left _).trans hc.once
    · intro k hk
      rcases List.mem_append.mp hk with hk | hk
      · exact hc.free k hk
      · rw [List.mem_singleton.mp hk]
        exact hc.loans b hmem
  | false =>
    rw [receive_of_not_accepts (Pool.not_accepts_of_untracked hb)]
    rw [hb] at hp
    exact ⟨(hp.symm.append_left _).trans hc.once, hc.free, hloans⟩

theorem deal (hc : l.Closed L) (h : l.InLine initial maximum L) {d : Deal}
    (hd : d.isApart L = true) : (l.deal d).Closed L := by
  cases d with
  | borrow => exact hc.lend h
  | write i line =>
    refine ⟨?_, hc.free, ?_⟩
    · simp only [Lender.deal, out_write]
      exact hc.once
    · intro b hb
      have hm := map_write Buffer.limits line (fun _ => rfl) l.loans i
      obtain ⟨b', hb', he⟩ := List.mem_map.mp (hm ▸ List.mem_map_of_mem (f := Buffer.limits) hb)
      exact he ▸ hc.loans b' hb'
  | giveBack i =>
    simp only [Lender.deal]
    split
    · exact hc
    · exact hc.giveBack h ‹_›
  | handIn b =>
    rw [Lender.deal, receive_of_not_accepts (h.not_accepts hd)]
    exact ⟨hc.once, hc.free, hc.loans⟩

theorem run (hc : l.Closed L) (h : l.InLine initial maximum L) {ds : List Deal}
    (hds : ∀ d ∈ ds, d.isApart L = true) : (l.run ds).Closed L := by
  induction ds generalizing l with
  | nil => exact hc
  | cons d ds ih =>
    rw [List.forall_mem_cons] at hds
    exact ih (hc.deal h hds.1) (h.deal d) hds.2

theorem mem_free (hc : l.Closed L) (h : l.InLine initial maximum L) {k : Blank}
    (hk : k ∈ l.pool.free) : ∃ n < l.pool.tracked, k.buffer = ⟨L, true, n, [], 0⟩ := by
  have hn : k.buffer.number ∈ List.range l.pool.tracked :=
    hc.once.subset (List.mem_append_left _ (List.mem_map_of_mem (f := (·.buffer.number)) hk))
  refine ⟨k.buffer.number, List.mem_range.mp hn, ?_⟩
  have ht : k.buffer.tracked = true := (h.free k hk).1
  have hl : k.buffer.limits = L := hc.free k hk
  rw [← hl, ← ht, ← k.bytes_nil, ← k.lines_zero]

theorem borrow_buffer (hc : l.Closed L) (h : l.InLine initial maximum L) :
    ∃ tracked n, l.pool.borrow.1.buffer = ⟨L, tracked, n, [], 0⟩ := by
  have hb := l.pool.borrowed_borrow
  generalize l.pool.borrow = r at hb ⊢
  cases hb with
  | reused hf =>
    obtain ⟨n, -, hn⟩ := hc.mem_free h (hf ▸ List.mem_cons_self)
    exact ⟨true, n, hn⟩
  | grown _ _ => exact ⟨true, l.pool.tracked, by rw [h.limits]; rfl⟩
  | transient _ _ => exact ⟨false, 0, by rw [h.limits]; rfl⟩

end Closed

def Discards (l : Lender) : Prop := l.pool.stats.discarded = l.strays.toUInt64

namespace Discards

theorem receive (hd : l.Discards) (hb : b.tracked = true → l.pool.Accepts b) :
    (l.receive b).Discards := by
  cases ht : b.tracked with
  | true =>
    rw [receive_of_accepts (hb ht)]
    exact hd
  | false =>
    rw [receive_of_not_accepts (Pool.not_accepts_of_untracked ht), ht]
    show l.pool.stats.discarded + 1 = (l.strays + 1).toUInt64
    rw [toUInt64_add, hd]
    rfl

theorem lend (hd : l.Discards) : l.lend.Discards := by
  have hb := l.pool.borrowed_borrow
  rw [Discards, Lender.lend]
  generalize l.pool.borrow = r at hb ⊢
  cases hb <;> exact hd

theorem deal (hd : l.Discards) (hc : l.Closed L) (h : l.InLine initial maximum L) {d : Deal}
    (hu : d.isUntracked = true) : (l.deal d).Discards := by
  cases d with
  | borrow => exact hd.lend
  | write i line => exact hd
  | giveBack i =>
    simp only [Lender.deal]
    split
    · exact hd
    · rename_i b hi
      exact receive (l := l.without i) hd (hc.accepts h (List.mem_of_getElem? hi))
  | handIn b =>
    refine hd.receive fun ht => ?_
    simp [Deal.isUntracked, ht] at hu

theorem run (hd : l.Discards) (hc : l.Closed L) (h : l.InLine initial maximum L)
    {ds : List Deal} (hu : ∀ d ∈ ds, d.isUntracked = true) : (l.run ds).Discards := by
  induction ds generalizing l with
  | nil => exact hd
  | cons d ds ih =>
    rw [List.forall_mem_cons] at hu
    exact ih (hd.deal hc h hu.1) (hc.deal h (Deal.isApart_of_isUntracked L hu.1)) (h.deal d) hu.2

end Discards

/-- Whatever buffers the pool is given, those that came to be free are borrowed in that order,
cleared, and the next one has the pool's length. But for tracked ones of its length that were made
elsewhere, its free buffers are its own, each of them in one place, the next one to be borrowed is
blank and has its limits, others are turned away, and its own are not. -/
theorem own_buffers_free (initial maximum : Nat) (L : Limits) (ds : List Deal) :
    let l := (create initial maximum L).run ds
    l.comings.map Buffer.reset = l.goings ++ l.pool.free.map Blank.buffer ∧
      l.pool.borrow.1.limits.length = L.length ∧
      ((∀ d ∈ ds, d.isApart L = true) →
        (∀ k ∈ l.pool.free, ∃ n < l.pool.tracked, k.buffer = ⟨L, true, n, [], 0⟩) ∧
          (l.pool.free.map (·.buffer.number) ++ (out l.loans).map Buffer.number).Perm
            (List.range l.pool.tracked) ∧
          (∃ tracked n, l.pool.borrow.1.buffer = ⟨L, tracked, n, [], 0⟩) ∧
          (∀ b, (Deal.handIn b).isApart L = true → l.pool.release b = l.pool.discard) ∧
          ∀ b ∈ l.loans, b.tracked = true →
            l.pool.release b =
              { l.pool with free := l.pool.free ++ [.ofBuffer b.reset rfl rfl] }) := by
  intro l
  have h : l.InLine initial maximum L := (InLine.create initial maximum L).run ds
  refine ⟨h.line, h.borrow_length, fun hds => ?_⟩
  have hc : l.Closed L := (Closed.create initial maximum L).run (InLine.create _ _ _) hds
  exact ⟨fun k hk => hc.mem_free h hk, hc.once, hc.borrow_buffer h,
    fun b hb => Pool.release_of_not_accepts (h.not_accepts hb),
    fun b hb ht => Pool.release_of_accepts (hc.accepts h hb ht)⟩

/-- A pool that was given buffers of another length and untracked ones. -/
theorem own_buffers_free_mixed :
    let small := (Pool.create 1 1 ⟨32, 8⟩).borrow.1.buffer
    let ds := [.borrow, .handIn small, .handIn .detached, .handIn (.alone (ascii "hits:1|c")),
      .write 0 (ascii "x:1|c")]
    let l := (create 1 1 ⟨64, 8⟩).run ds
    (∀ d ∈ ds, d.isApart ⟨64, 8⟩ = true) ∧ l.pool.discarded = 3 ∧
      l.loans.map Buffer.bytes = [ascii "x:1|c"] ∧
        ∀ b ∈ l.loans, b.tracked = true →
          l.pool.release b =
            { l.pool with free := l.pool.free ++ [.ofBuffer b.reset rfl rfl] } := by
  intro small ds l
  have hds : ∀ d ∈ ds, d.isApart ⟨64, 8⟩ = true := by decide
  exact ⟨hds, by decide, by decide, ((own_buffers_free 1 1 ⟨64, 8⟩ ds).2.2 hds).2.2.2.2⟩

/-- A tracked buffer of the pool's length that another pool made, for fewer lines, takes the place
of one of the pool's: that one is turned away when it comes back, and the other is handed out
next. -/
theorem foreign_buffer_taken_in :
    let L : Limits := ⟨64, 8⟩
    let other := (Pool.create 1 1 ⟨64, 1⟩).borrow.1.buffer
    let l := (create 1 1 L).run [.borrow, .handIn other]
    let l' := l.deal (.giveBack 0)
    l.pool.discarded = 0 ∧ l.pool.free.map Blank.buffer = [other] ∧
      l.loans = [⟨L, true, 0, [], 0⟩] ∧ l'.pool.discarded = 1 ∧
        l'.pool.borrow.1.buffer = ⟨⟨64, 1⟩, true, 0, [], 0⟩ := by
  decide

/-- Only untracked buffers may be given to the pool, apart from those borrowed from it. Then each of
its tracked ones is free or lent, there are at most `maximum`, and the free ones are blank. Those
that came to be free are borrowed in that order; a new tracked one is lent if none is free, and an
untracked one past the maximum. The counts add up, the untracked buffers are the ones discarded, and
there is room for every tracked one that comes back. -/
theorem lending_balanced (initial maximum : Nat) (L : Limits) {ds : List Deal}
    (hds : ∀ d ∈ ds, d.isUntracked = true) :
    let l := (create initial maximum L).run ds
    l.pool.available + l.loans.countP (·.tracked) = l.pool.tracked ∧
      l.pool.tracked ≤ maximum ∧
      l.pool.stats.allocated = l.pool.tracked.toUInt64 ∧
      (l.pool.free.map (·.buffer.number) ++ (out l.loans).map Buffer.number).Perm
        (List.range l.pool.tracked) ∧
      (∀ k ∈ l.pool.free, ∃ n < l.pool.tracked, k.buffer = ⟨L, true, n, [], 0⟩) ∧
      l.comings.map Buffer.reset = l.goings ++ l.pool.free.map Blank.buffer ∧
      (0 < l.pool.available ↔ l.goings.length < l.comings.length) ∧
      (∀ b, l.comings[l.goings.length]? = some b →
        l.lend.loans = l.loans ++ [b.reset] ∧ l.lend.goings = l.goings ++ [b.reset]) ∧
      (l.pool.available = 0 → l.pool.tracked < maximum →
        l.lend.loans = l.loans ++ [⟨L, true, l.pool.tracked, [], 0⟩] ∧
          l.lend.pool.tracked = l.pool.tracked + 1) ∧
      (l.pool.available = 0 → l.pool.tracked = maximum →
        l.lend.loans = l.loans ++ [⟨L, false, 0, [], 0⟩] ∧
          l.lend.pool.stats.transient = l.pool.stats.transient + 1) ∧
      (l.pool.borrow.1.tracked = false ↔ l.pool.available = 0 ∧ l.pool.tracked = maximum) ∧
      l.borrows.toUInt64 =
        l.pool.stats.reused + (l.pool.stats.allocated - (min initial maximum).toUInt64) +
          l.pool.stats.transient ∧
      (l.borrows < UInt64.size → maximum < UInt64.size →
        l.borrows =
          l.pool.reused + (l.pool.allocated - min initial maximum) + l.pool.transient) ∧
      l.pool.stats.discarded = l.strays.toUInt64 ∧
      ∀ b ∈ l.loans, b.tracked = true →
        l.pool.available < maximum ∧ (l.receive b).comings = l.comings ++ [b] := by
  intro l
  have h₀ := InLine.create initial maximum L
  have hc₀ := Closed.create initial maximum L
  have h : l.InLine initial maximum L := h₀.run ds
  have hc : l.Closed L := hc₀.run h₀ fun d hd => Deal.isApart_of_isUntracked L (hds d hd)
  have hfree : l.pool.available = 0 → l.pool.free = [] := List.eq_nil_of_length_eq_zero
  refine ⟨hc.available_add, h.tracked_le, h.allocated, hc.once, fun k hk => hc.mem_free h hk,
    h.line, ?_, fun b hb => h.lend_oldest hb, ?_, ?_, h.borrow_untracked_iff, ?_,
    h.borrows_eq, ?_, ?_⟩
  · have hl := congrArg List.length h.line
    rw [List.length_map, List.length_append, List.length_map] at hl
    rw [hl]
    exact (Nat.lt_add_right_iff_pos).symm
  · intro ha hlt
    rw [lend_of_growth (hfree ha) (h.maximum_eq ▸ hlt), h.limits]
    exact ⟨rfl, rfl⟩
  · intro ha heq
    rw [lend_of_full (hfree ha) (h.maximum_eq ▸ heq.ge), h.limits]
    exact ⟨rfl, rfl⟩
  · obtain ⟨n, hn, hsum⟩ := h.borrows
    have hcast := congrArg Nat.toUInt64 hsum
    simp only [toUInt64_add] at hcast
    rw [h.reused, h.allocated, hn]
    grind
  · exact (show (create initial maximum L).Discards by
      rw [Discards, Lender.create, Pool.create_eq]; rfl).run hc₀ h₀ hds
  · intro b hb ht
    have ha := hc.accepts h hb ht
    exact ⟨h.maximum_eq ▸ ha.2.2, by rw [receive_of_accepts ha]⟩

/-- Two tracked buffers and an untracked one, given back in another order. -/
theorem lending_balanced_crossed :
    let ds := [.borrow, .borrow, .borrow, .write 1 (ascii "x:1|c"), .giveBack 1, .giveBack 0,
      .handIn .detached, .giveBack 0, .borrow]
    let l := (create 1 2 ⟨64, 8⟩).run ds
    (∀ d ∈ ds, d.isUntracked = true) ∧ l.comings.map Buffer.number = [0, 1, 0] ∧
      l.goings.map Buffer.number = [0, 1] ∧ l.loans.map Buffer.number = [1] ∧
        l.pool.discarded = 2 ∧ l.borrows = 4 ∧
          l.pool.available + l.loans.countP (·.tracked) = l.pool.tracked := by
  intro ds l
  have hds : ∀ d ∈ ds, d.isUntracked = true := by decide
  exact ⟨hds, by decide, by decide, by decide, by decide, by decide,
    (lending_balanced 1 2 ⟨64, 8⟩ hds).1⟩

end Lender
end MetricPipeline
