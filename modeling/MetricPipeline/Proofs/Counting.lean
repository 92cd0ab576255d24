import MetricPipeline.Proofs.Pooling
import MetricPipeline.Proofs.Stream

namespace MetricPipeline

theorem toUInt64_sum {α : Type} (xs : List α) (f : α → Nat) :
    ((xs.map f).sum).toUInt64 = (xs.map fun x => (f x).toUInt64).sum := by
  induction xs with
  | nil => rfl
  | cons x xs ih =>
    rw [List.map_cons, List.sum_cons, toUInt64_add, ih, List.map_cons, List.sum_cons]

/-- How many points the metrics of a type have together. -/
def Metric.pointsOf (ms : List Metric) (k : Kind) : Nat :=
  ((ms.filter fun m => m.value.kind = k).map fun m => m.value.size).sum

@[simp] theorem Metric.pointsOf_nil (k : Kind) : pointsOf [] k = 0 := rfl

@[simp] theorem Metric.pointsOf_append (ms ms' : List Metric) (k : Kind) :
    pointsOf (ms ++ ms') k = pointsOf ms k + pointsOf ms' k := by
  simp [pointsOf]

theorem Metric.pointsOf_singleton (m : Metric) (k : Kind) :
    pointsOf [m] k = if m.value.kind = k then m.value.size else 0 := by
  by_cases hk : m.value.kind = k <;> simp [pointsOf, hk]

theorem Metric.pointsOf_perm {ms ms' : List Metric} (h : ms.Perm ms') (k : Kind) :
    pointsOf ms k = pointsOf ms' k :=
  ((h.filter _).map _).sum_eq

/-- The counters that packers add to. -/
structure Tally where
  points : Kind → UInt64
  sampledOut : UInt64
  rejected : UInt64
  oversized : UInt64

namespace Tally

def count (c : Tally) : Telemetry.Event → Tally
  | .points kind n => { c with points := fun k => c.points k + if kind = k then n else 0 }
  | .sampledOut => { c with sampledOut := c.sampledOut + 1 }
  | .rejected => { c with rejected := c.rejected + 1 }
  | .oversized => { c with oversized := c.oversized + 1 }
  | .sent _ | .sendFailed _ | .droppedAtQueue _ => c

end Tally

namespace Outbox

def tally (o : Outbox) : Tally :=
  let counts := o.telemetry.counts
  ⟨counts.points, counts.sampledOut, counts.rejected, counts.oversized⟩

theorem totalPoints_eq (o : Outbox) :
    o.telemetry.counts.totalPoints = (Kind.all.map o.tally.points).sum := by
  simp [Telemetry.Snapshot.totalPoints, Kind.all, tally, Telemetry.Snapshot.points, add_assoc]

@[simp] theorem tally_record (o : Outbox) (e : Telemetry.Event) :
    (o.record e).tally = o.tally.count e := by
  cases e with
  | points kind n =>
    simp only [tally, record, Telemetry.record, Telemetry.Snapshot.record, Tally.count,
      Tally.mk.injEq]
    refine ⟨?_, ?_, ?_, ?_⟩
    · funext k
      cases kind <;> cases k <;>
        simp [Telemetry.Snapshot.points, Telemetry.Snapshot.addPoints]
    all_goals cases kind <;> rfl
  | _ => rfl

@[simp] theorem tally_remark (o : Outbox) (n : Notice) : (o.remark n).tally = o.tally := rfl

@[simp] theorem tally_borrow (o : Outbox) : o.borrow.2.tally = o.tally := rfl

@[simp] theorem tally_release (o : Outbox) (b : Buffer) : (o.release b).tally = o.tally := rfl

@[simp] theorem tally_close (o : Outbox) : o.close.tally = o.tally := rfl

@[simp] theorem tally_enqueue (o : Outbox) (b : Buffer) : (o.enqueue b).tally = o.tally := by
  rw [enqueue]
  split
  · rfl
  · split <;> rfl

/-- The packing loop counts no points; they are counted once it is over. -/
theorem keptByPacking_points (points : Kind → UInt64) :
    Outlet.KeptByPacking fun o : Outbox => o.tally.points = points where
  borrow _ h := h
  enqueue b o _ h := (congrArg Tally.points (o.tally_enqueue b)).trans h
  oversized _ h := h
  remark _ _ h := h

end Outbox

namespace Packer

variable {σ : Type} [WordSource σ]

theorem points_call (p : Packer) (s : σ) (o : Outbox) (c : Call) (k : Kind) :
    (p.call s o c).2.2.tally.points k =
      o.tally.points k + (Metric.pointsOf (c.accepted s) k).toUInt64 := by
  cases c with
  | process m =>
    simp only [call, Call.accepted]
    by_cases hk : (decideSample m.rate s).1 = true
    · rw [process_of_kept hk]
      cases hr : m.rejection? with
      | some r =>
        rw [accept_of_rejection hr]
        simp [Outlet.record, Tally.count]
      | none =>
        have hp := (Outbox.keptByPacking_points o.tally.points).pack m.name m.frame m.value.points
          p.current rfl
        rw [accept_of_writable hr]
        simp only [Outlet.record, Outbox.tally_record, Tally.count, hp, hk, Option.isNone_none,
          Bool.and_self, if_true, Metric.pointsOf_singleton, Value.length_points]
        split <;> rfl
    · rw [process_of_dropped (by simpa using hk)]
      simp [hk, Outlet.record, Tally.count]
  | flush =>
    have hf := (Outbox.keptByPacking_points o.tally.points).flush p rfl
    simp [call, Call.accepted, hf]

theorem points_calls (p : Packer) (s : σ) (o : Outbox) (cs : List Call) (k : Kind) :
    (p.calls s o cs).2.2.tally.points k =
      o.tally.points k + (Metric.pointsOf (accepted s cs) k).toUInt64 := by
  induction cs generalizing p s o with
  | nil => simp [calls, accepted]
  | cons c cs ih =>
    rw [calls, ih, points_call, call_words, accepted, Metric.pointsOf_append, toUInt64_add,
      add_assoc]

end Packer
end MetricPipeline
