import MetricPipeline.Proofs.Tracing

namespace MetricPipeline

inductive Access
  | borrow
  | enqueue (b : Buffer)
  | record (e : Telemetry.Event)
  | remark (n : Notice)
deriving DecidableEq

/-- An outlet together with all that was asked of it, oldest first. -/
structure Journaled (ω : Type) where
  outlet : ω
  journal : List Access := []

instance {ω : Type} [Outlet ω] : Outlet (Journaled ω) where
  borrow w := ((Outlet.borrow w.outlet).1, ⟨(Outlet.borrow w.outlet).2, w.journal ++ [.borrow]⟩)
  enqueue b w := ⟨Outlet.enqueue b w.outlet, w.journal ++ [.enqueue b]⟩
  record e w := ⟨Outlet.record e w.outlet, w.journal ++ [.record e]⟩
  remark n w := ⟨Outlet.remark n w.outlet, w.journal ++ [.remark n]⟩

namespace Access

def isEnqueue : Access → Bool
  | enqueue _ => true
  | _ => false

def payloads (journal : List Access) : Nat := journal.countP isEnqueue

/-- How many of them were lines beyond all buffers. -/
def oversized (journal : List Access) : Nat := journal.count (record .oversized)

end Access

/-- What is too long already without its points goes into no buffer. -/
theorem Buffer.room_of_short {b : Buffer} {f : Frame} (h : b.limits.length < f.header.length)
    (points : List Bytes) : b.room f points = 0 := by
  have hf : b.fits f.size = false := by
    rw [fits, decide_eq_false_iff_not, remaining, Frame.size]
    omega
  simp [room, hf]

namespace Packer

variable {σ ω : Type} [WordSource σ] [Outlet ω]

/-- Where the packing loop stands: the points still to write, the buffer and the outlet. -/
abbrev Stage (ω : Type) := List Bytes × Buffer × ω

/-- The loop goes on for one round, if there are points left. -/
def advance (name : String) (f : Frame) (s : Stage ω) : Stage ω :=
  if s.1 = [] then s else round name f s.1 s.2.1 s.2.2

section Rounds

variable (name : String) (f : Frame)

theorem advance_of_nil {s : Stage ω} (h : s.1 = []) : advance name f s = s := if_pos h

theorem advance_turn {s : Stage ω} (h : s.1 ≠ []) :
    Turn name f s.2.1 s.2.2 s.1 (advance name f s) := by
  rw [advance, if_neg h]
  exact round_turn name f s.2.1 s.2.2 h

theorem advance_suffix (s : Stage ω) : (advance name f s).1 <:+ s.1 := by
  by_cases h : s.1 = []
  · rw [advance_of_nil name f h]
  · have ht := advance_turn name f h
    generalize advance name f s = r at ht
    obtain ⟨points, b, w⟩ := s
    cases ht with
    | finish => exact List.nil_suffix
    | cut => exact List.drop_suffix _ _
    | alone => exact List.suffix_cons _ _
    | turnOver => exact List.suffix_refl _

theorem advance_blank (s : Stage ω) :
    (advance name f s).1 = [] ∨ (advance name f s).2.1.isEmpty = true := by
  by_cases h : s.1 = []
  · exact .inl (by rw [advance_of_nil name f h, h])
  · have ht := advance_turn name f h
    generalize advance name f s = r at ht
    obtain ⟨points, b, w⟩ := s
    cases ht with
    | finish => exact .inl rfl
    | cut => exact .inr (Buffer.isEmpty_blank _)
    | alone _ hb => exact .inr hb
    | turnOver => exact .inr (Buffer.isEmpty_blank _)

theorem advance_shorter {s : Stage ω} (h : s.1 ≠ []) (hb : s.2.1.isEmpty = true) :
    (advance name f s).1.length < s.1.length := by
  rw [advance, if_neg h]
  rcases round_decreases name f s.2.1 s.2.2 h with hd | ⟨-, he, -⟩
  · exact hd
  · simp [hb] at he

theorem pack_advance (s : Stage ω) :
    pack name f s.1 s.2.1 s.2.2 =
      pack name f (advance name f s).1 (advance name f s).2.1 (advance name f s).2.2 := by
  by_cases h : s.1 = []
  · rw [advance_of_nil name f h]
  · rw [advance, if_neg h]
    exact pack_of_round h rfl

variable (s : Stage ω)

theorem iterate_suffix (k : Nat) : ((advance name f)^[k] s).1 <:+ s.1 := by
  induction k with
  | zero => exact List.suffix_refl _
  | succ k ih =>
    rw [Function.iterate_succ_apply']
    exact (advance_suffix name f _).trans ih

theorem pack_of_iterate {k : Nat} (h : ((advance name f)^[k] s).1 = []) :
    pack name f s.1 s.2.1 s.2.2 = ((advance name f)^[k] s).2 := by
  induction k generalizing s with
  | zero =>
    rw [Function.iterate_zero_apply] at h ⊢
    rw [pack, dif_pos h]
  | succ k ih =>
    rw [Function.iterate_succ_apply] at h ⊢
    rw [pack_advance, ih _ h]

theorem iterate_shorter {k : Nat} (hk : 1 ≤ k) (h : ((advance name f)^[k] s).1 ≠ []) :
    ((advance name f)^[k + 1] s).1.length < ((advance name f)^[k] s).1.length := by
  obtain ⟨k, rfl⟩ := Nat.exists_eq_add_of_le' hk
  have hb := advance_blank name f ((advance name f)^[k] s)
  rw [← Function.iterate_succ_apply' (advance name f)] at hb
  rw [Function.iterate_succ_apply' (advance name f) (k + 1)]
  exact advance_shorter name f h (hb.resolve_left h)

theorem length_iterate_le (k : Nat) :
    ((advance name f)^[k + 1] s).1.length ≤ s.1.length - k := by
  induction k with
  | zero => exact (iterate_suffix name f s 1).length_le
  | succ k ih =>
    by_cases h : ((advance name f)^[k + 1] s).1 = []
    · rw [Function.iterate_succ_apply', advance_of_nil name f h, h]
      exact Nat.zero_le _
    · have hs := iterate_shorter name f s (Nat.le_add_left 1 k) h
      exact Nat.le_sub_one_of_lt (hs.trans_le ih)

theorem exists_last_round :
    ∃ k ≤ s.1.length + 1, ((advance name f)^[k] s).1 = [] ∧
      ∀ j < k, ((advance name f)^[j] s).1 ≠ [] := by
  have hend : ((advance name f)^[s.1.length + 1] s).1 = [] := by
    have hl := length_iterate_le name f s s.1.length
    rw [Nat.sub_self] at hl
    exact List.length_eq_zero_iff.mp (Nat.le_zero.mp hl)
  classical
  have hex : ∃ k, ((advance name f)^[k] s).1 = [] := ⟨_, hend⟩
  exact ⟨Nat.find hex, Nat.find_min' hex hend, Nat.find_spec hex, fun j hj => Nat.find_min hex hj⟩

theorem iterate_eq_drop (k : Nat) :
    ((advance name f)^[k] s).1 = s.1.drop (s.1.length - ((advance name f)^[k] s).1.length) := by
  obtain ⟨front, h⟩ := iterate_suffix name f s k
  rw [← h]
  simp

end Rounds

section Journal

variable (name : String) (f : Frame)

/-- A round hands over one payload at most. If that is a line beyond all buffers, it gets rid of
its point. -/
theorem advance_journal (s : Stage (Journaled ω)) :
    Access.payloads (advance name f s).2.2.journal ≤ Access.payloads s.2.2.journal + 1 ∧
      Access.oversized (advance name f s).2.2.journal + (advance name f s).1.length ≤
        Access.oversized s.2.2.journal + s.1.length := by
  by_cases h : s.1 = []
  · rw [advance_of_nil name f h]
    exact ⟨Nat.le_succ _, Nat.le_refl _⟩
  · have ht := advance_turn name f h
    generalize advance name f s = r at ht
    obtain ⟨points, b, w⟩ := s
    cases ht with
    | finish => exact ⟨Nat.le_succ _, Nat.add_le_add_left (Nat.zero_le _) _⟩
    | cut =>
      simp [Outlet.enqueue, Outlet.borrow, Access.payloads, Access.oversized, Access.isEnqueue]
    | alone =>
      simp [sendAlone, Outlet.enqueue, Outlet.record, Outlet.remark, Access.payloads,
        Access.oversized, Access.isEnqueue]
      omega
    | turnOver =>
      simp [Outlet.enqueue, Outlet.borrow, Access.payloads, Access.oversized, Access.isEnqueue]

theorem iterate_journal (s : Stage (Journaled ω)) (k : Nat) :
    Access.payloads ((advance name f)^[k] s).2.2.journal ≤ Access.payloads s.2.2.journal + k ∧
      Access.oversized ((advance name f)^[k] s).2.2.journal +
          ((advance name f)^[k] s).1.length ≤
        Access.oversized s.2.2.journal + s.1.length := by
  induction k with
  | zero => exact ⟨Nat.le_refl _, Nat.le_refl _⟩
  | succ k ih =>
    have ha := advance_journal name f ((advance name f)^[k] s)
    rw [Function.iterate_succ_apply']
    omega

/-- From a blank buffer that no point fits into, each round takes one point to a payload of its
own. -/
theorem iterate_alone {points : List Bytes} {b : Buffer} (w : Journaled ω)
    (hb : b.isEmpty = true) (hr : ∀ rest, b.room f rest = 0) {k : Nat} (hk : k ≤ points.length) :
    ∃ w', (advance name f)^[k] (points, b, w) = (points.drop k, b, w') ∧
      Access.payloads w'.journal = Access.payloads w.journal + k ∧
      Access.oversized w'.journal = Access.oversized w.journal + k := by
  induction k with
  | zero => exact ⟨w, rfl, rfl, rfl⟩
  | succ k ih =>
    obtain ⟨w', hs, hp, ho⟩ := ih (Nat.le_of_succ_le hk)
    have hne : points.drop k ≠ [] := by
      rw [Ne, List.drop_eq_nil_iff]
      omega
    refine ⟨sendAlone name (f.line ((points.drop k).take 1)) b w', ?_, ?_, ?_⟩
    · rw [Function.iterate_succ_apply', hs, advance, if_neg hne, round,
        Buffer.write_of_room_zero (hr _)]
      simp [hb]
    · simp [sendAlone, Outlet.enqueue, Outlet.record, Outlet.remark, Access.payloads,
        Access.isEnqueue] at hp ⊢
      omega
    · simp [sendAlone, Outlet.enqueue, Outlet.record, Outlet.remark, Access.oversized] at ho ⊢
      omega

theorem iterate_narrow {points : List Bytes} {b : Buffer} {w : ω} (hne : points ≠ [])
    (hb : b.isEmpty = false) (hr : b.room f points = 0)
    (hblank : ∀ rest, (Outlet.borrow w).1.buffer.room f rest = 0) {k : Nat}
    (hk : k ≤ points.length) :
    ∃ w' : Journaled ω, (advance name f)^[k + 1] (points, b, { outlet := w }) =
        (points.drop k, (Outlet.borrow w).1.buffer, w') ∧
      Access.payloads w'.journal = k + 1 ∧ Access.oversized w'.journal = k := by
  let w₁ : Journaled ω := { outlet := w }
  have hfirst : advance name f (points, b, w₁) =
      (points, (Outlet.borrow w).1.buffer, Outlet.enqueue b (Outlet.borrow w₁).2) := by
    rw [advance, if_neg hne, round, Buffer.write_of_room_zero hr]
    simp [hb, replace, Outlet.borrow, w₁]
  obtain ⟨w', hs, hp, ho⟩ :=
    iterate_alone name f (Outlet.enqueue b (Outlet.borrow w₁).2) (Buffer.isEmpty_blank _) hblank hk
  refine ⟨w', ?_, ?_, ?_⟩
  · rw [Function.iterate_succ_apply, hfirst, hs]
  · rw [hp, Nat.add_comm k]
    rfl
  · rw [ho]
    exact Nat.zero_add k

end Journal

def Stage.ofMetric (p : Packer) (m : Metric) (w : ω) : Stage (Journaled ω) :=
  (m.value.points, p.current, { outlet := w })

section Process

variable (p : Packer) (m : Metric) (s : σ) (w : ω)

theorem process_of_iterate (hs : (decideSample m.rate s).1 = true) (hr : m.rejection? = none)
    {k : Nat} (hk : ((advance m.name m.frame)^[k] (Stage.ofMetric p m w)).1 = []) :
    p.process m s ({ outlet := w } : Journaled ω) =
      (.ok (), ⟨m.frame, ((advance m.name m.frame)^[k] (Stage.ofMetric p m w)).2.1⟩,
        (decideSample m.rate s).2,
        Outlet.record (.points m.value.kind m.value.points.length.toUInt64)
          ((advance m.name m.frame)^[k] (Stage.ofMetric p m w)).2.2) := by
  have hp := pack_of_iterate m.name m.frame (Stage.ofMetric p m w) hk
  simp only [Stage.ofMetric] at hp
  rw [process_of_kept hs, accept_of_writable hr]
  simp only [hp]
  rfl

theorem process_journal :
    Access.payloads (p.process m s ({ outlet := w } : Journaled ω)).2.2.2.journal ≤
        m.value.size + 1 ∧
      Access.oversized (p.process m s ({ outlet := w } : Journaled ω)).2.2.2.journal ≤
        m.value.size := by
  by_cases hs : (decideSample m.rate s).1 = true
  · cases hr : m.rejection? with
    | some r =>
      rw [process_of_kept hs, accept_of_rejection hr]
      exact ⟨Nat.zero_le _, Nat.zero_le _⟩
    | none =>
      obtain ⟨k, hk, hend, -⟩ := exists_last_round m.name m.frame (Stage.ofMetric p m w)
      obtain ⟨hp, ho⟩ := iterate_journal m.name m.frame (Stage.ofMetric p m w) k
      have hn : (Stage.ofMetric p m w).1.length = m.value.size := m.value.length_points
      have hj : (Stage.ofMetric p m w).2.2.journal = [] := rfl
      rw [process_of_iterate p m s w hs hr hend]
      simp only [hj, hn, hend, Access.payloads, Access.oversized, List.countP_nil,
        List.count_nil, List.length_nil] at hp ho hk
      simp only [Outlet.record, Access.payloads, Access.oversized, List.countP_append,
        List.count_append, List.countP_singleton, List.count_singleton, Access.isEnqueue]
      simp
      omega
  · rw [process_of_dropped (by simpa using hs)]
    exact ⟨Nat.zero_le _, Nat.zero_le _⟩

end Process

def hit : Metric := { name := "a", value := .count 1 }

def narrowOutbox : Outbox := { pool := Pool.create 1 2 ⟨8, 1⟩, queue := { bound := 1 } }

def fullPacker : Packer × Outbox :=
  let r := (create narrowOutbox).1.process hit ({ words := [] } : Cycle) (create narrowOutbox).2
  (r.2.1, r.2.2.2)

theorem fullPacker_narrow :
    fullPacker.1.current.isEmpty = false ∧ fullPacker.1.current.limits.length = 8 ∧
      (Outlet.borrow fullPacker.2).1.buffer.limits.length = 8 := by
  have hs : (decideSample hit.rate ({ words := [] } : Cycle)).1 = true := by decide +kernel
  have hroom : (create narrowOutbox).1.current.room hit.frame hit.value.points =
      hit.value.points.length := by decide +kernel
  have hp := pack_of_fits hit.name (create narrowOutbox).2 (by decide +kernel) hroom
  simp only [fullPacker, process_of_kept hs, accept_of_writable (m := hit) (by decide +kernel), hp]
  decide +kernel

/-- A batch whose lines are longer than the payloads of that packer. -/
def longBatch (n : Nat) : Metric :=
  { name := "beyond-all-limits", value := .histogramBatch (List.replicate n .one) "" }

/-- The loop over a metric's points ends, and where it stands after each round is the end of the
points from some index on. Only the first round can leave this index as it is. So `n` points take
`n + 1` rounds at most, with as many payloads, of which `n` are beyond all buffers. Such a state can
be reached. -/
theorem rounds_bounded :
    (∀ (p : Packer) (m : Metric) (s : σ) (w : ω),
      let n := m.value.size
      let stage (k : Nat) := (advance m.name m.frame)^[k] (Stage.ofMetric p m w)
      let index (k : Nat) := n - (stage k).1.length
      let done := p.process m s ({ outlet := w } : Journaled ω)
      (∃ k ≤ n + 1,
        index k = n ∧ (∀ j < k, index j < n) ∧
          (∀ j, (stage j).1 = m.value.points.drop (index j)) ∧
          (∀ j, 1 ≤ j → j < k → index j + 1 ≤ index (j + 1) ∧ index (j + 1) ≤ n) ∧
          ((decideSample m.rate s).1 = true → m.rejection? = none →
            done = (.ok (), ⟨m.frame, (stage k).2.1⟩, (decideSample m.rate s).2,
              Outlet.record (.points m.value.kind m.value.points.length.toUInt64)
                (stage k).2.2))) ∧
        Access.payloads done.2.2.2.journal ≤ n + 1 ∧
          Access.oversized done.2.2.2.journal ≤ n) ∧
    ∀ n, 0 < n →
      let m := longBatch n
      let stage (k : Nat) :=
        (advance m.name m.frame)^[k] (Stage.ofMetric fullPacker.1 m fullPacker.2)
      m.value.size = n ∧ (stage n).1 ≠ [] ∧ (stage (n + 1)).1 = [] ∧
        Access.payloads (stage (n + 1)).2.2.journal = n + 1 ∧
          Access.oversized (stage (n + 1)).2.2.journal = n := by
  refine ⟨?_, ?_⟩
  · intro p m s w n stage index done
    have hn : (Stage.ofMetric p m w).1.length = n := m.value.length_points
    obtain ⟨k, hk, hend, hrun⟩ := exists_last_round m.name m.frame (Stage.ofMetric p m w)
    have hle (j : Nat) : (stage j).1.length ≤ n :=
      hn ▸ (iterate_suffix m.name m.frame (Stage.ofMetric p m w) j).length_le
    refine ⟨⟨k, hn ▸ hk, ?_, ?_, ?_, ?_, ?_⟩, process_journal p m s w⟩
    · simp [index, stage, hend]
    · intro j hjk
      have hpos : 0 < (stage j).1.length := List.length_pos_iff.mpr (hrun j hjk)
      have hj := hle j
      simp only [index]
      omega
    · intro j
      have hd := iterate_eq_drop m.name m.frame (Stage.ofMetric p m w) j
      rwa [hn] at hd
    · intro j h1 hjk
      have hs : (stage (j + 1)).1.length < (stage j).1.length :=
        iterate_shorter m.name m.frame _ h1 (hrun j hjk)
      have hj := hle j
      simp only [index]
      omega
    · intro hs hr
      exact process_of_iterate p m s w hs hr hend
  · intro n hn m stage
    have hsize : m.value.size = n := List.length_replicate
    have hlen : m.value.points.length = n := m.value.length_points.trans hsize
    have hne : m.value.points ≠ [] := List.ne_nil_of_length_pos (hlen ▸ hn)
    have hheader : m.frame.header.length = 17 := by
      change (written "" ++ written "beyond-all-limits").length = 17
      decide +kernel
    have hshort (b : Buffer) (hb : b.limits.length = 8) (rest : List Bytes) :
        b.room m.frame rest = 0 := Buffer.room_of_short (by omega) rest
    obtain ⟨hfull, hl, hblank⟩ := fullPacker_narrow
    have hfirst : fullPacker.1.current.room m.frame m.value.points = 0 := hshort _ hl _
    have hnext (rest : List Bytes) :
        (Outlet.borrow fullPacker.2).1.buffer.room m.frame rest = 0 := hshort _ hblank rest
    have hstage {k : Nat} (hk : k ≤ n) :=
      iterate_narrow m.name m.frame hne hfull hfirst hnext (hk.trans_eq hlen.symm)
    refine ⟨hsize, ?_, ?_⟩
    · obtain ⟨k, rfl⟩ := Nat.exists_eq_add_of_le' hn
      obtain ⟨w', hs, -⟩ := hstage (Nat.le_succ k)
      simp only [stage, Stage.ofMetric, hs, Ne, List.drop_eq_nil_iff, hlen]
      omega
    · obtain ⟨w', hs, hp, ho⟩ := hstage (Nat.le_refl n)
      simp only [stage, Stage.ofMetric, hs, hp, ho]
      simp [hlen]

end Packer
end MetricPipeline
