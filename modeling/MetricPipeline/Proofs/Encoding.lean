import MetricPipeline.Encoder
import MetricPipeline.Proofs.Rounds

namespace MetricPipeline
namespace Encoder

variable {e : Encoder} {b : Buffer} {v : Value} {i : Nat}

theorem length_push (e : Encoder) (point : Bytes) :
    (e.push point).scratch.length = e.scratch.length + (point.length + 1) := by
  have hc : (ascii ":").length = 1 := by decide
  simp only [push, List.length_append, hc]
  omega

theorem truncate_push (e : Encoder) (point : Bytes) :
    (e.push point).truncate e.scratch.length = e := by
  simp [push, truncate]

theorem gather_of_long (h : b.remaining < e.frame.size + e.scratch.length) :
    e.gather b v i = (0, e) := by
  rw [gather]
  split
  · rw [if_neg]
    · rw [truncate_push]
    · simp only [Buffer.fits, length_push, decide_eq_true_eq]
      omega
  · rfl

/-- What is added are the points that fit, and nothing is left over of the one that does not. -/
theorem gather_eq (h : e.frame.size + e.scratch.length ≤ b.remaining) :
    let n := Buffer.fitting (b.remaining - (e.frame.size + e.scratch.length)) (v.points.drop i)
    e.gather b v i = (n, ⟨e.frame, e.scratch ++ Frame.values ((v.points.drop i).take n)⟩) := by
  fun_induction gather e b v i with
  | case1 e i hi longer hfits n e' hg ih =>
    have hl : longer.scratch.length = e.scratch.length + ((v.point i hi).length + 1) :=
      e.length_push (v.point i hi)
    have hframe : longer.frame = e.frame := rfl
    simp only [Buffer.fits, decide_eq_true_eq] at hfits
    have hrest := ih (by rwa [hframe])
    rw [hframe, hl] at hrest
    rw [hl] at hfits
    have hroom : b.remaining - (e.frame.size + (e.scratch.length + ((v.point i hi).length + 1))) =
        b.remaining - (e.frame.size + e.scratch.length) - ((v.point i hi).length + 1) := by omega
    rw [hg, hroom] at hrest
    obtain ⟨rfl, rfl⟩ := Prod.mk.inj hrest
    rw [Value.drop_points hi, Buffer.fitting, if_pos (by omega)]
    simp [longer, push, Frame.values]
  | case2 e i hi longer hfits =>
    simp only [Buffer.fits, decide_eq_true_eq, longer, length_push] at hfits
    rw [Value.drop_points hi, Buffer.fitting, if_neg (by omega), truncate_push]
    simp [Frame.values]
  | case3 e i hi =>
    have hd : v.points.drop i = [] :=
      List.drop_of_length_le (by rw [v.length_points]; exact not_lt.mp hi)
    simp [hd, Buffer.fitting, Frame.values]

theorem writePoints_eq (e : Encoder) (b : Buffer) (v : Value) (start : Nat) :
    ∃ scratch, e.writePoints b v start =
      ((b.write e.frame (v.points.drop start)).1, (b.write e.frame (v.points.drop start)).2,
        ⟨e.frame, scratch⟩) := by
  have hlen : (v.points.drop start).length = v.size - start := by
    rw [List.length_drop, v.length_points]
  unfold writePoints
  split
  · rename_i hl
    by_cases hs : e.frame.size ≤ b.remaining
    · have hg := gather_eq (e := e.clear) (v := v) (i := start) (by simpa [clear] using hs)
      have hr : b.room e.frame (v.points.drop start) =
          Buffer.fitting (b.remaining - e.frame.size) (v.points.drop start) := by
        simp [Buffer.room, hl, Buffer.fits, hs]
      simp only [clear, List.length_nil, Nat.add_zero, List.nil_append, ← hr] at hg
      rw [clear, hg]
      have hle := b.room_le e.frame (v.points.drop start)
      cases hn : b.room e.frame (v.points.drop start) with
      | zero =>
        rw [Buffer.write_of_room_zero hn]
        exact ⟨_, rfl⟩
      | succ n =>
        have hi : start + (n + 1) = v.size ↔ n + 1 = (v.points.drop start).length := by omega
        rw [Buffer.write_of_room_pos (by omega), hn]
        simp only [hi]
        exact ⟨_, rfl⟩
    · have hg := gather_of_long (e := e.clear) (b := b) (v := v) (i := start)
        (by simpa [clear] using hs)
      have hr : b.room e.frame (v.points.drop start) = 0 := by simp [Buffer.room, Buffer.fits, hs]
      rw [hg, Buffer.write_of_room_zero hr]
      exact ⟨[], rfl⟩
  · rename_i hl
    have hr : b.room e.frame (v.points.drop start) = 0 := by simp [Buffer.room, hl]
    rw [Buffer.write_of_room_zero hr]
    exact ⟨e.scratch, rfl⟩

theorem renderSingle_eq (e : Encoder) (h : i < v.size) :
    ∃ scratch, e.renderSingle v i = some (e.frame.line [v.point i h], ⟨e.frame, scratch⟩) := by
  have hp : v.point? i = some (v.point i h) := (Option.some_get _).symm
  refine ⟨ascii ":" ++ v.point i h, ?_⟩
  rw [renderSingle, hp]
  simp [line, push, clear, Frame.line, Frame.values]

theorem isSome_renderSingle (e : Encoder) (h : i < v.size) :
    (e.renderSingle v i).isSome = true := by
  obtain ⟨scratch, hs⟩ := e.renderSingle_eq h
  rw [hs, Option.isSome_some]

section Loop

variable {ω : Type} [Outlet ω]

/-- One turn of the loop over the points of a value, from point `next` on. With the next point to
write comes the encoder, the buffer and the outlet to go on with. -/
def turn (name : String) (v : Value) (e : Encoder) (next : Nat) (b : Buffer) (w : ω)
    (h : next < v.size) : Nat × Encoder × Buffer × ω :=
  match e.writePoints b v next with
  | (.complete, b, e) => (v.size, e, b, w)
  | (.part n, b, e) =>
    let (p, w) := Packer.flush { current := b } w
    (next + n, e, p.current, w)
  | (.full, b, e) =>
    if b.isEmpty then
      let (line, e) := (e.renderSingle v next).get (e.isSome_renderSingle h)
      (next + 1, e, b, Packer.sendAlone name line b w)
    else
      let (p, w) := Packer.flush { current := b } w
      (next, e, p.current, w)

/-- A point that a buffer without content refuses is sent alone. -/
theorem turn_alone (name : String) (w : ω) {next : Nat} (h : next < v.size)
    (hb : b.isEmpty = true) (hr : b.write e.frame (v.points.drop next) = (.full, b)) :
    ∃ scratch, turn name v e next b w h =
      (next + 1, ⟨e.frame, scratch⟩, b,
        Packer.sendAlone name (e.frame.line [v.point next h]) b w) := by
  obtain ⟨scratch, hw⟩ := e.writePoints_eq b v next
  obtain ⟨scratch', hs⟩ := renderSingle_eq ⟨e.frame, scratch⟩ h
  rw [hr] at hw
  exact ⟨scratch', by simp [turn, hw, hb, hs]⟩

/-- A turn of the loop is a round of packing the points that are left. -/
theorem turn_eq_round (name : String) (e : Encoder) (b : Buffer) (w : ω) {next : Nat}
    (h : next < v.size) :
    let r := turn name v e next b w h
    r.2.1.frame = e.frame ∧
      Packer.round name e.frame (v.points.drop next) b w =
        (v.points.drop r.1, r.2.2.1, r.2.2.2) := by
  have hnil : v.points.drop v.size = [] := by rw [← v.length_points, List.drop_length]
  have flushed {b : Buffer} (hb : b.isEmpty = false) : Packer.flush { current := b } w =
      ({ current := (Packer.replace b w).1.buffer }, (Packer.replace b w).2) := by
    simp [Packer.flush, hb]
  obtain ⟨scratch, hw⟩ := e.writePoints_eq b v next
  rcases hr : b.write e.frame (v.points.drop next) with ⟨written, b'⟩
  rw [hr] at hw
  cases written with
  | complete => simp [turn, Packer.round, hw, hr, hnil]
  | part n => simp [turn, Packer.round, hw, hr, flushed (Buffer.isEmpty_of_write_part hr)]
  | full =>
    obtain rfl := Buffer.eq_of_write_full hr
    cases hb : b'.isEmpty with
    | true =>
      obtain ⟨scratch', ht⟩ := turn_alone name w h hb hr
      rw [ht]
      rw [Value.drop_points h] at hr ⊢
      simp [Packer.round, hr, hb]
    | false => simp [turn, Packer.round, hw, hr, hb, flushed hb]

def run (name : String) (v : Value) (e : Encoder) (next : Nat) (b : Buffer) (w : ω) :
    Encoder × Buffer × ω :=
  if h : next < v.size then
    match _hr : turn name v e next b w h with
    | (next', e', b', w') => run name v e' next' b' w'
  else (e, b, w)
termination_by (v.size - next, if b.isEmpty then 0 else 1)
decreasing_by
  have hlen (i : Nat) : (v.points.drop i).length = v.size - i := by
    rw [List.length_drop, v.length_points]
  have hne : v.points.drop next ≠ [] :=
    List.ne_nil_of_length_pos ((hlen next).symm ▸ Nat.sub_pos_of_lt h)
  have hd := Packer.round_decreases name e.frame b w hne
  rw [(turn_eq_round name e b w h).2, _hr] at hd
  simp only [hlen] at hd
  rcases hd with hd | ⟨hl, hb, hn⟩
  · exact Prod.Lex.left _ _ hd
  · simp only [hl, hb, hn]
    exact Prod.Lex.right _ (by decide)

/-- The loop packs the points as a packer does. -/
theorem run_eq_pack (name : String) (v : Value) (e : Encoder) (next : Nat) (b : Buffer) (w : ω) :
    (run name v e next b w).2 = Packer.pack name e.frame (v.points.drop next) b w := by
  fun_induction run name v e next b w with
  | case1 e next b w h next' e' b' w' hr ih =>
    obtain ⟨hframe, hround⟩ := turn_eq_round name e b w h
    rw [hr] at hframe hround
    have hne : v.points.drop next ≠ [] := by rw [Value.drop_points h]; exact List.cons_ne_nil _ _
    rw [ih, Packer.pack_of_round hne hround]
    exact congrArg (Packer.pack name · _ b' w') hframe
  | case2 e next b w h =>
    have hd : v.points.drop next = [] :=
      List.drop_of_length_le (by rw [v.length_points]; exact not_lt.mp h)
    rw [hd, Packer.pack, dif_pos rfl]

end Loop
end Encoder
end MetricPipeline
