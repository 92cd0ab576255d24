import MetricPipeline.Proofs.Effort
import MetricPipeline.Proofs.Encoding

namespace MetricPipeline

namespace Frame

variable (f : Frame)

def lineLength (points : List Bytes) : Nat :=
  f.header.length + f.trailer.length + (points.map fun p => 1 + p.length).sum

theorem length_values (points : List Bytes) :
    (values points).length = (points.map fun p => 1 + p.length).sum := by
  have hc : (ascii ":").length = 1 := by decide
  simp [values, List.length_flatMap, hc]

theorem length_line (points : List Bytes) : (f.line points).length = f.lineLength points := by
  simp only [line, lineLength, List.length_append, length_values]
  omega

end Frame

namespace Buffer

theorem lt_sum_of_fitting_lt {room k : Nat} {points : List Bytes} (h : fitting room points < k)
    (hk : k ≤ points.length) : room < ((points.take k).map fun p => 1 + p.length).sum := by
  induction points generalizing room k with
  | nil => simp at hk; omega
  | cons p ps ih =>
    obtain ⟨k, rfl⟩ : ∃ j, k = j + 1 := ⟨k - 1, by omega⟩
    rw [fitting] at h
    simp only [List.take_succ_cons, List.map_cons, List.sum_cons]
    split at h
    · have hi := ih (Nat.lt_of_succ_lt_succ h) (Nat.le_of_succ_le_succ hk)
      omega
    · omega

variable {b : Buffer} {f : Frame} {points : List Bytes}

/-- What a buffer has room for is the longest run whose line is not longer than its rest. -/
theorem room_eq_findGreatest (hl : b.hasLineRoom = true) :
    b.room f points =
      Nat.findGreatest (fun k => f.lineLength (points.take k) ≤ b.remaining) points.length := by
  symm
  by_cases hf : f.size ≤ b.remaining
  · have hr : b.room f points = fitting (b.remaining - f.size) points := by
      simp [room, hl, fits, hf]
    rw [hr, Nat.findGreatest_eq_iff]
    refine ⟨fitting_le _ _, fun _ => ?_, fun k hk hle => ?_⟩
    · have hv := length_values_fitting (b.remaining - f.size) points
      rw [Frame.length_values] at hv
      simp only [Frame.lineLength, Frame.size] at hf hv ⊢
      omega
    · have hv := lt_sum_of_fitting_lt hk hle
      simp only [Frame.lineLength, Frame.size] at hf hv ⊢
      omega
  · have hr : b.room f points = 0 := by simp [room, fits, hf]
    rw [hr, Nat.findGreatest_eq_zero_iff]
    intro k _ _
    simp only [Frame.lineLength, Frame.size] at hf ⊢
    omega

theorem room_eq_zero_iff {p : Bytes} (hl : b.hasLineRoom = true) (he : b.isEmpty = true) :
    b.room f (p :: points) = 0 ↔ b.limits.length < (f.line [p]).length := by
  have hr : b.remaining = b.limits.length := by
    have hb : b.length = 0 := by simpa [length, isEmpty] using he
    rw [remaining, hb, Nat.sub_zero]
  refine ⟨fun h => ?_, fun h => ?_⟩
  · rcases no_room h with hn | hn
    · simp [hl] at hn
    · rwa [hr] at hn
  · rw [room_eq_findGreatest hl, Nat.findGreatest_eq_zero_iff]
    intro k hk _
    obtain ⟨k, rfl⟩ := Nat.exists_eq_add_of_le' hk
    rw [Frame.length_line] at h
    simp only [Frame.lineLength, List.take_succ_cons, List.map_cons, List.sum_cons, List.map_nil,
      List.sum_nil] at h ⊢
    omega

theorem write_full_iff : (b.write f points).1 = .full ↔ b.room f points = 0 := by
  refine ⟨fun h => ?_, fun h => by rw [write_of_room_zero h]⟩
  by_contra hr
  rw [write_of_room_pos (Nat.pos_of_ne_zero hr)] at h
  split at h <;> cases h

end Buffer

namespace Packer

variable {ω : Type} [Outlet ω]

theorem oversized_mem_round (name : String) (f : Frame) (points : List Bytes) (b : Buffer) (w : ω) :
    Access.record .oversized ∈
        (round name f points b ({ outlet := w } : Journaled ω)).2.2.journal ↔
      (b.write f points).1 = .full ∧ b.isEmpty = true := by
  rw [round]
  rcases b.write f points with ⟨written, b'⟩
  cases written with
  | complete => simp
  | part n => simp [replace, Outlet.enqueue, Outlet.borrow]
  | full =>
    by_cases hb : b.isEmpty = true
    · simp [hb, sendAlone, Outlet.enqueue, Outlet.record, Outlet.remark]
    · simp [hb, replace, Outlet.enqueue, Outlet.borrow]

end Packer

/-- How many points are written from some index on, by their lengths alone. -/
theorem Encoder.room_drop (e : Encoder) (b : Buffer) (v : Value) (start : Nat) :
    b.room e.frame (v.points.drop start) =
      if b.hasLineRoom then
        Nat.findGreatest (fun k => e.frame.lineLength ((v.points.drop start).take k) ≤ b.remaining)
          (v.size - start)
      else 0 := by
  split
  · rename_i hl
    rw [Buffer.room_eq_findGreatest hl, List.length_drop, v.length_points]
  · rename_i hl
    simp [Buffer.room, hl]

/-- A write from some index on takes the longest run of points whose line is not longer than what
remains of the buffer, as one line that it adds, and nothing if the first one does not fit or the
buffer has all its lines. It says that points are left exactly when some are. A point that is taken
by itself makes the line that is rendered of it alone, whatever was rendered before, and it is sent
alone exactly when the buffer holds nothing and that line is longer than it. -/
theorem Encoder.points_longest_run {ω : Type} [Outlet ω] (e : Encoder) (b : Buffer) (v : Value)
    (start : Nat) :
    let rest := v.points.drop start
    let k :=
      if b.hasLineRoom then
        Nat.findGreatest
          (fun k => e.frame.header.length + e.frame.trailer.length +
            ((rest.take k).map fun p => 1 + p.length).sum ≤ b.remaining)
          (v.size - start)
      else 0
    let r := e.writePoints b v start
    r.2.2.frame = e.frame ∧
      (k = 0 → r.1 = .full ∧ r.2.1 = b) ∧
      (0 < k → r.1 = (if start + k = v.size then .complete else .part k) ∧
        r.2.1 =
          { b with
            bytes := b.bytes ++ (e.frame.header ++
              (rest.take k).flatMap (fun p => ascii ":" ++ p) ++ e.frame.trailer)
            lines := b.lines + 1 }) ∧
      (∀ n, r.1 = .part n → n = k ∧ 1 ≤ n ∧ n < v.size - start) ∧
      ∀ h : start < v.size, ∃ single,
        (∀ scratch, ((Encoder.mk e.frame scratch).renderSingle v start).map Prod.fst =
          some single) ∧
        (k = 1 → r.2.1.bytes = b.bytes ++ single) ∧
        (b.isEmpty = true → b.hasLineRoom = true →
          (r.1 = .full ↔ b.limits.length < single.length)) ∧
        ((b.isEmpty = true → b.hasLineRoom = true) → ∀ (name : String) (w : ω),
          (Access.record .oversized ∈
              (turn name v e start b ({ outlet := w } : Journaled ω) h).2.2.2.journal ↔
            b.isEmpty = true ∧ b.limits.length < single.length) ∧
          (b.isEmpty = true → b.limits.length < single.length →
            ∃ scratch, turn name v e start b w h =
              (start + 1, ⟨e.frame, scratch⟩, b, Packer.sendAlone name single b w))) := by
  intro rest k r
  have hlen : rest.length = v.size - start := by rw [List.length_drop, v.length_points]
  have hk : b.room e.frame rest = k := e.room_drop b v start
  have hle : k ≤ v.size - start := hlen ▸ hk ▸ b.room_le e.frame rest
  obtain ⟨scratch, hr⟩ : ∃ scratch, r =
      ((b.write e.frame rest).1, (b.write e.frame rest).2, ⟨e.frame, scratch⟩) :=
    e.writePoints_eq b v start
  have hzero (h : k = 0) : b.write e.frame rest = (.full, b) :=
    Buffer.write_of_room_zero (hk.trans h)
  have hpos (h : 0 < k) : b.write e.frame rest =
      (if start + k = v.size then .complete else .part k,
        b.append (e.frame.line (rest.take k))) := by
    have hi : k = rest.length ↔ start + k = v.size := by omega
    rw [Buffer.write_of_room_pos (hk ▸ h), hk]
    simp only [hi]
  rw [hr]
  refine ⟨rfl, fun h => by simp [hzero h], fun h => ?_, ?_, fun h => ?_⟩
  · rw [hpos h]
    exact ⟨rfl, rfl⟩
  · intro n hn
    have h : 0 < k := by
      refine Nat.pos_of_ne_zero fun h => ?_
      rw [hzero h] at hn
      cases hn
    rw [hpos h] at hn
    dsimp only at hn
    split at hn
    · cases hn
    · cases hn
      exact ⟨rfl, h, by omega⟩
  · have hrest : rest = v.point start h :: v.points.drop (start + 1) := Value.drop_points h
    have hfull (he : b.isEmpty = true) (hl : b.hasLineRoom = true) :
        (b.write e.frame rest).1 = .full ↔
          b.limits.length < (e.frame.line [v.point start h]).length := by
      rw [Buffer.write_full_iff, hrest]
      exact Buffer.room_eq_zero_iff hl he
    refine ⟨e.frame.line [v.point start h], fun scratch => ?_, fun h1 => ?_, hfull,
      fun hroom name w => ⟨?_, fun he hlong => ?_⟩⟩
    · obtain ⟨scratch', hs⟩ := renderSingle_eq ⟨e.frame, scratch⟩ h
      rw [hs, Option.map_some]
    · rw [hpos (by omega), h1, hrest]
      rfl
    · have hj := Packer.oversized_mem_round name e.frame rest b w
      rw [(turn_eq_round name e b ({ outlet := w } : Journaled ω) h).2] at hj
      rw [hj, and_comm]
      exact and_congr_right fun he => hfull he (hroom he)
    · have hw : b.write e.frame rest = (.full, b) :=
        Buffer.write_of_room_zero (Buffer.write_full_iff.mp ((hfull he (hroom he)).mpr hlong))
      exact turn_alone name w h he hw

end MetricPipeline
