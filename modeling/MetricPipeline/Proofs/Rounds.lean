import Mathlib
import MetricPipeline.Packer

namespace MetricPipeline

theorem Frame.line_ne_nil (f : Frame) {points : List Bytes} (h : points ≠ []) :
    f.line points ≠ [] := by
  obtain ⟨p, ps, rfl⟩ := List.exists_cons_of_ne_nil h
  simp [line, values, ascii, utf8]

namespace Buffer

theorem write_of_room_zero {b : Buffer} {f : Frame} {points : List Bytes}
    (h : b.room f points = 0) : b.write f points = (.full, b) := by
  simp only [write, h]

theorem write_of_room_pos {b : Buffer} {f : Frame} {points : List Bytes}
    (h : 0 < b.room f points) :
    b.write f points =
      (if b.room f points = points.length then .complete else .part (b.room f points),
        b.append (f.line (points.take (b.room f points)))) := by
  obtain ⟨n, hn⟩ := Nat.exists_eq_add_of_lt h
  have hn' : b.room f points = n + 1 := by omega
  simp only [write, hn']

theorem length_values_fitting (room : Nat) (points : List Bytes) :
    (Frame.values (points.take (fitting room points))).length ≤ room := by
  induction points generalizing room with
  | nil => simp [fitting, Frame.values]
  | cons p ps ih =>
    rw [fitting]
    split
    · rename_i h
      have hi := ih (room - (p.length + 1))
      have hc : (ascii ":").length = 1 := by decide
      simp only [Frame.values, List.take_succ_cons, List.flatMap_cons, List.length_append, hc] at *
      omega
    · simp [Frame.values]

/-- Where a write has room for a line, the buffer takes that line: neither its lines nor its bytes
run out. -/
theorem room_pos {b : Buffer} {f : Frame} {points : List Bytes} (h : 0 < b.room f points) :
    b.hasLineRoom = true ∧ b.fits (f.line (points.take (b.room f points))).length = true := by
  unfold room at h ⊢
  split at h
  · rename_i hr
    rw [if_pos hr]
    simp only [Bool.and_eq_true, fits, decide_eq_true_eq] at hr
    refine ⟨hr.1, ?_⟩
    have hv := length_values_fitting (b.remaining - f.size) points
    simp only [fits, decide_eq_true_eq, Frame.line, List.length_append, Frame.size] at hr hv ⊢
    omega
  · omega

theorem no_room {b : Buffer} {f : Frame} {p : Bytes} {points : List Bytes}
    (h : b.room f (p :: points) = 0) :
    b.hasLineRoom = false ∨ b.remaining < (f.line [p]).length := by
  -- With room for the line that the point makes by itself, at least that point would fit.
  by_contra! hc
  have hs : (f.line [p]).length = f.size + (p.length + 1) := by
    have hc : (ascii ":").length = 1 := by decide
    simp only [Frame.line, Frame.values, Frame.size, List.flatMap_cons, List.flatMap_nil,
      List.append_nil, List.length_append, hc]
    omega
  have hf : b.fits f.size = true := by
    simp only [fits, decide_eq_true_eq]
    omega
  have hl : b.hasLineRoom = true := by simpa using hc.1
  simp only [room, hl, hf, Bool.and_self, if_true, fitting] at h
  rw [if_pos (by omega)] at h
  omega

theorem append_ne_nil {b : Buffer} {f : Frame} {points : List Bytes} (h : points ≠ []) :
    (b.append (f.line points)).isEmpty = false := by
  simp [append, isEmpty, f.line_ne_nil h]

theorem eq_of_write_full {b b' : Buffer} {f : Frame} {points : List Bytes}
    (h : b.write f points = (.full, b')) : b' = b := by
  by_cases hr : b.room f points = 0
  · rw [write_of_room_zero hr] at h
    exact (Prod.mk.inj h).2.symm
  · rw [write_of_room_pos (Nat.pos_of_ne_zero hr)] at h
    split at h <;> simp at h

theorem isEmpty_of_write_part {b b' : Buffer} {f : Frame} {points : List Bytes} {n : Nat}
    (h : b.write f points = (.part n, b')) : b'.isEmpty = false := by
  have hr : 0 < b.room f points := by
    refine Nat.pos_of_ne_zero fun hr => ?_
    rw [write_of_room_zero hr] at h
    simp at h
  have hle := b.room_le f points
  rw [write_of_room_pos hr] at h
  obtain rfl := (Prod.mk.inj h).2
  exact append_ne_nil (List.ne_nil_of_length_pos (by rw [List.length_take]; omega))

theorem alone_ne_nil {f : Frame} {points : List Bytes} (h : points ≠ []) :
    (alone (f.line points)).isEmpty = false := by
  simp [alone, isEmpty, f.line_ne_nil h]

end Buffer

namespace Packer

variable {σ ω : Type} [WordSource σ] [Outlet ω]

/-- The ways a round can end, for the points before it. -/
inductive Turn (name : String) (f : Frame) (b : Buffer) (w : ω) :
    List Bytes → List Bytes × Buffer × ω → Prop
  /-- All points go into the buffer. -/
  | finish {points : List Bytes} (hp : points ≠ []) (hr : b.room f points = points.length) :
      Turn name f b w points ([], b.append (f.line points), w)
  /-- Some points do, and then the buffer is handed over. -/
  | cut {points : List Bytes} (hr : 0 < b.room f points) (hl : b.room f points < points.length) :
      Turn name f b w points
        (points.drop (b.room f points), (Outlet.borrow w).1.buffer,
          Outlet.enqueue (b.append (f.line (points.take (b.room f points)))) (Outlet.borrow w).2)
  /-- Not even a blank buffer has room for the first point. -/
  | alone {p : Bytes} {points : List Bytes} (hr : b.room f (p :: points) = 0)
      (hb : b.isEmpty = true) :
      Turn name f b w (p :: points) (points, b, sendAlone name (f.line [p]) b w)
  /-- The buffer is handed over as it is. -/
  | turnOver {points : List Bytes} (hp : points ≠ []) (hr : b.room f points = 0)
      (hb : b.isEmpty = false) :
      Turn name f b w points
        (points, (Outlet.borrow w).1.buffer, Outlet.enqueue b (Outlet.borrow w).2)

theorem round_turn (name : String) (f : Frame) {points : List Bytes} (b : Buffer) (w : ω)
    (h : points ≠ []) : Turn name f b w points (round name f points b w) := by
  have hle := b.room_le f points
  by_cases hr : b.room f points = 0
  · rw [round, Buffer.write_of_room_zero hr]
    by_cases hb : b.isEmpty = true
    · obtain ⟨p, ps, rfl⟩ := List.exists_cons_of_ne_nil h
      simp only [hb, if_true]
      exact .alone hr hb
    · simp only [hb, replace]
      exact .turnOver h hr (by simpa using hb)
  · rw [round, Buffer.write_of_room_pos (by omega)]
    by_cases hl : b.room f points = points.length
    · simp only [hl, if_true, List.take_length]
      exact .finish h hl
    · simp only [hl, if_false, replace]
      exact .cut (by omega) (by omega)

theorem pack_of_round {name : String} {f : Frame} {points rest : List Bytes}
    {b next : Buffer} {w w' : ω} (h : points ≠ [])
    (hr : round name f points b w = (rest, next, w')) :
    pack name f points b w = pack name f rest next w' := by
  rw [pack, dif_neg h]
  split
  rename_i hr'
  rw [hr] at hr'
  cases hr'
  rfl

theorem pack_of_fits (name : String) {f : Frame} {points : List Bytes} {b : Buffer} (w : ω)
    (h : points ≠ []) (hr : b.room f points = points.length) :
    pack name f points b w = (b.append (f.line points), w) := by
  have hround : round name f points b w = ([], b.append (f.line points), w) := by
    rw [round, Buffer.write_of_room_pos (hr ▸ List.length_pos_iff.mpr h), if_pos hr, hr,
      List.take_length]
  rw [pack_of_round h hround, pack, dif_pos rfl]

theorem accept_of_rejection {p : Packer} {m : Metric} {r : Rejection} {w : ω}
    (h : m.rejection? = some r) : p.accept m w = (.error r, p, Outlet.record .rejected w) := by
  simp only [accept, Frame.prepare, Metric.prepare, h]

theorem accept_of_writable {p : Packer} {m : Metric} {w : ω} (h : m.rejection? = none) :
    p.accept m w =
      let packed := pack m.name m.frame m.value.points p.current w
      (.ok (), ⟨m.frame, packed.1⟩,
        Outlet.record (.points m.value.kind m.value.points.length.toUInt64) packed.2) := by
  simp only [accept, Frame.prepare, Metric.prepare, h]

theorem process_of_dropped {p : Packer} {m : Metric} {s : σ} {w : ω}
    (h : (decideSample m.rate s).1 = false) :
    p.process m s w = (.ok (), p, (decideSample m.rate s).2, Outlet.record .sampledOut w) := by
  rw [process]
  split <;> simp_all

theorem process_of_kept {p : Packer} {m : Metric} {s : σ} {w : ω}
    (h : (decideSample m.rate s).1 = true) :
    p.process m s w =
      ((p.accept m w).1, (p.accept m w).2.1, (decideSample m.rate s).2, (p.accept m w).2.2) := by
  rw [process]
  split <;> simp_all

end Packer
end MetricPipeline
