import MetricPipeline.Proofs.Rounds

namespace MetricPipeline

variable {σ ω ω' : Type} [WordSource σ] [Outlet ω] [Outlet ω']

/-- A view of one outlet as another, which every access respects. -/
structure OutletView (ω ω' : Type) [Outlet ω] [Outlet ω'] where
  view : ω → ω'
  borrow_view : ∀ w, Outlet.borrow (view w) = ((Outlet.borrow w).1, view (Outlet.borrow w).2)
  enqueue_view : ∀ b w, Outlet.enqueue b (view w) = view (Outlet.enqueue b w)
  record_view : ∀ e w, Outlet.record e (view w) = view (Outlet.record e w)
  remark_view : ∀ n w, Outlet.remark n (view w) = view (Outlet.remark n w)

namespace OutletView

variable (v : OutletView ω ω')

theorem replace_view (b : Buffer) (w : ω) :
    Packer.replace b (v.view w) = ((Packer.replace b w).1, v.view (Packer.replace b w).2) := by
  simp only [Packer.replace, v.borrow_view, v.enqueue_view]

theorem sendAlone_view (name : String) (line : Bytes) (b : Buffer) (w : ω) :
    Packer.sendAlone name line b (v.view w) = v.view (Packer.sendAlone name line b w) := by
  simp only [Packer.sendAlone, v.remark_view, v.record_view, v.enqueue_view]

theorem round_view (name : String) (f : Frame) (points : List Bytes) (b : Buffer) (w : ω) :
    Packer.round name f points b (v.view w) =
      ((Packer.round name f points b w).1, (Packer.round name f points b w).2.1,
        v.view (Packer.round name f points b w).2.2) := by
  simp only [Packer.round, v.replace_view, v.sendAlone_view]
  split
  · rfl
  · rfl
  · split <;> rfl

theorem pack_view (name : String) (f : Frame) (points : List Bytes) (b : Buffer) (w : ω) :
    Packer.pack name f points b (v.view w) =
      ((Packer.pack name f points b w).1, v.view (Packer.pack name f points b w).2) := by
  fun_induction Packer.pack name f points b w with
  | case1 b w => rw [Packer.pack, dif_pos rfl]
  | case2 points b w h rest next w' hr ih =>
    have hv := v.round_view name f points b w
    rw [hr] at hv
    rw [Packer.pack_of_round h hv, ih]

theorem accept_view (p : Packer) (m : Metric) (w : ω) :
    p.accept m (v.view w) =
      ((p.accept m w).1, (p.accept m w).2.1, v.view (p.accept m w).2.2) := by
  simp only [Packer.accept, v.pack_view, v.record_view]
  split <;> rfl

theorem process_view (p : Packer) (m : Metric) (s : σ) (w : ω) :
    p.process m s (v.view w) =
      ((p.process m s w).1, (p.process m s w).2.1, (p.process m s w).2.2.1,
        v.view (p.process m s w).2.2.2) := by
  simp only [Packer.process, v.accept_view, v.record_view]
  split <;> rfl

theorem flush_view (p : Packer) (w : ω) :
    p.flush (v.view w) = ((p.flush w).1, v.view (p.flush w).2) := by
  simp only [Packer.flush, v.replace_view]
  split <;> rfl

end OutletView

structure Traced (ω : Type) where
  outlet : ω
  handed : List Buffer := []

instance : Outlet (Traced ω) where
  borrow t := ((Outlet.borrow t.outlet).1, { t with outlet := (Outlet.borrow t.outlet).2 })
  enqueue b t := ⟨Outlet.enqueue b t.outlet, t.handed ++ [b]⟩
  record e t := { t with outlet := Outlet.record e t.outlet }
  remark n t := { t with outlet := Outlet.remark n t.outlet }

def Traced.untraced : OutletView (Traced ω) ω where
  view := Traced.outlet
  borrow_view _ := rfl
  enqueue_view _ _ := rfl
  record_view _ _ := rfl
  remark_view _ _ := rfl

/-- Whether packers report such an event. The others are reported where payloads come to an end. -/
def Telemetry.Event.isOfPacking : Telemetry.Event → Bool
  | points .. | sampledOut | rejected | oversized => true
  | sent _ | sendFailed _ | droppedAtQueue _ => false

/-- What every access of the packing loop keeps. The loop hands over nothing empty, and reports only
lines that are too long. -/
structure Outlet.KeptByPacking (I : ω → Prop) : Prop where
  borrow : ∀ w, I w → I (Outlet.borrow w).2
  enqueue : ∀ b w, b.isEmpty = false → I w → I (Outlet.enqueue b w)
  oversized : ∀ w, I w → I (Outlet.record .oversized w)
  remark : ∀ n w, I w → I (Outlet.remark n w)

namespace Outlet.KeptByPacking

variable {I : ω → Prop}

theorem turn {name : String} {f : Frame} {b : Buffer} {w : ω} {points : List Bytes}
    {r : List Bytes × Buffer × ω} (h : KeptByPacking I) (hw : I w)
    (ht : Packer.Turn name f b w points r) : I r.2.2 := by
  cases ht with
  | finish hp hr => exact hw
  | cut hr hl =>
    apply h.enqueue _ _ _ (h.borrow _ hw)
    apply Buffer.append_ne_nil
    apply List.ne_nil_of_length_pos
    rw [List.length_take]
    omega
  | @alone p points hr hb =>
    apply h.enqueue
    · exact Buffer.alone_ne_nil (by simp)
    · exact h.oversized _ (h.remark _ _ hw)
  | turnOver hp hr hb => exact h.enqueue _ _ hb (h.borrow _ hw)

theorem pack (h : KeptByPacking I) (name : String) (f : Frame) (points : List Bytes) (b : Buffer)
    {w : ω} (hw : I w) : I (Packer.pack name f points b w).2 := by
  fun_induction Packer.pack name f points b w with
  | case1 b w => exact hw
  | case2 points b w hp rest next w' hr ih =>
    have ht := h.turn hw (Packer.round_turn name f b w hp)
    rw [hr] at ht
    exact ih ht

theorem flush (h : KeptByPacking I) (p : Packer) {w : ω} (hw : I w) : I (p.flush w).2 := by
  rw [Packer.flush]
  split
  · exact hw
  · rename_i hb
    exact h.enqueue _ _ (by simpa using hb) (h.borrow _ hw)

end Outlet.KeptByPacking

/-- What every access that packers make keeps. They hand over nothing empty until they retire. -/
structure Outlet.Keeps (I : ω → Prop) : Prop where
  borrow : ∀ w, I w → I (Outlet.borrow w).2
  enqueue : ∀ b w, b.isEmpty = false → I w → I (Outlet.enqueue b w)
  record : ∀ e w, e.isOfPacking = true → I w → I (Outlet.record e w)
  remark : ∀ n w, I w → I (Outlet.remark n w)

namespace Outlet.Keeps

variable {I : ω → Prop}

theorem keptByPacking (h : Keeps I) : KeptByPacking I :=
  ⟨h.borrow, h.enqueue, fun w => h.record .oversized w rfl, h.remark⟩

theorem process (h : Keeps I) (p : Packer) (m : Metric) (s : σ) {w : ω} (hw : I w) :
    I (p.process m s w).2.2.2 := by
  by_cases hk : (decideSample m.rate s).1 = true
  · rw [Packer.process_of_kept hk]
    cases hr : m.rejection? with
    | some r =>
      rw [Packer.accept_of_rejection hr]
      exact h.record _ _ rfl hw
    | none =>
      rw [Packer.accept_of_writable hr]
      exact h.record _ _ rfl (h.keptByPacking.pack _ _ _ _ hw)
  · rw [Packer.process_of_dropped (by simpa using hk)]
    exact h.record _ _ rfl hw

theorem flush (h : Keeps I) (p : Packer) {w : ω} (hw : I w) : I (p.flush w).2 :=
  h.keptByPacking.flush p hw

end Outlet.Keeps
end MetricPipeline
