import MetricPipeline.Proofs.Custody

namespace MetricPipeline

/-- How often a buffer was given back, counted from the free buffers at the start. -/
def Pool.returned (p : Pool) : UInt64 :=
  p.available.toUInt64 + p.stats.reused + p.stats.discarded

namespace Pool

variable (p : Pool)

theorem returned_borrow : p.borrow.2.returned = p.returned := by
  have hb := p.borrowed_borrow
  generalize p.borrow = r at hb ⊢
  cases hb with
  | reused hf =>
    simp only [returned, available, hf, List.length_cons, toUInt64_add]
    grind
  | grown _ _ => rfl
  | transient _ _ => rfl

theorem returned_release (b : Buffer) : (p.release b).returned = p.returned + 1 := by
  by_cases h : p.Accepts b
  · rw [release_of_accepts h]
    simp only [returned, available, List.length_append, List.length_singleton, toUInt64_add]
    grind
  · rw [release_of_not_accepts h]
    simp only [returned, discard, available]
    grind

end Pool

namespace Outbox

variable {o o' : Outbox}

/-- From one outbox to the other no payload came to the queue or left it, and no buffer was given
back. -/
structure Quiet (o o' : Outbox) : Prop where
  queue : o'.queue = o.queue
  packets : o'.telemetry.counts.packetsDroppedAtQueue = o.telemetry.counts.packetsDroppedAtQueue
  bytes : o'.telemetry.counts.bytesDroppedAtQueue = o.telemetry.counts.bytesDroppedAtQueue
  returned : o'.pool.returned = o.pool.returned

namespace Quiet

theorem refl (o : Outbox) : o.Quiet o := ⟨rfl, rfl, rfl, rfl⟩

theorem borrow (h : o.Quiet o') : o.Quiet o'.borrow.2 :=
  ⟨h.queue, h.packets, h.bytes, (Pool.returned_borrow _).trans h.returned⟩

theorem record {e : Telemetry.Event} (h : o.Quiet o') (he : e.isOfPacking = true) :
    o.Quiet (o'.record e) := by
  refine ⟨h.queue, ?_, ?_, h.returned⟩
  · cases e with
    | points kind n => cases kind <;> exact h.packets
    | sampledOut | rejected | oversized => exact h.packets
    | sent | sendFailed | droppedAtQueue => cases he
  · cases e with
    | points kind n => cases kind <;> exact h.bytes
    | sampledOut | rejected | oversized => exact h.bytes
    | sent | sendFailed | droppedAtQueue => cases he

theorem keeps (o : Outbox) : Outlet.Keeps fun d : Desk => o.Quiet d.outbox where
  borrow _ h := h.borrow
  enqueue _ _ _ h := h
  record _ _ he h := h.record he
  remark _ _ h := ⟨h.queue, h.packets, h.bytes, h.returned⟩

end Quiet

def lineUp (o : Outbox) (b : Buffer) : Outbox :=
  { o with queue := { o.queue with waiting := o.queue.waiting ++ [b] } }

def turnDown (o : Outbox) (b : Buffer) : Outbox :=
  (o.remark (.dropped (if o.queue.isOpen then .full else .closed) b.length)).drop b

def withBound (o : Outbox) (bound : Nat) : Outbox := { o with queue := { o.queue with bound } }

def serve (awaited : Bool) (o : Outbox) (b : Buffer) : Outbox :=
  if awaited then ((o.withBound (max 1 o.queue.bound)).enqueue b).withBound o.queue.bound
  else o.enqueue b

/-- Whether the queue takes no payload: it is closed, or has no place left while nobody waits. -/
def refuses (awaited : Bool) (o : Outbox) : Bool :=
  !o.queue.isOpen || (o.queue.isFull && !awaited)

theorem enqueue_of_room {b : Buffer} (hb : b.isEmpty = false) (ho : o.queue.isOpen = true)
    (hf : o.queue.isFull = false) : o.enqueue b = o.lineUp b := by
  simp [enqueue, hb, Queue.offer, ho, hf, lineUp]

theorem serve_of_empty (awaited : Bool) {b : Buffer} (hb : b.isEmpty = true) :
    o.serve awaited b = o.release b := by
  cases awaited <;> simp [serve, enqueue, hb, release, withBound]

theorem serve_of_refused {awaited : Bool} {b : Buffer} (hb : b.isEmpty = false)
    (h : awaited = true → o.queue.isAwaitable = true) (hr : o.refuses awaited = true) :
    o.serve awaited b = o.turnDown b := by
  cases awaited with
  | false =>
    cases ho : o.queue.isOpen with
    | false => simp [serve, enqueue, hb, Queue.offer, turnDown, ho]
    | true =>
      have hf : o.queue.isFull = true := by simpa [refuses, ho] using hr
      simp [serve, enqueue, hb, Queue.offer, turnDown, ho, hf]
  | true =>
    have ha := h rfl
    simp_all [refuses, Queue.isAwaitable]

theorem serve_of_taken {awaited : Bool} {b : Buffer} (hb : b.isEmpty = false)
    (h : awaited = true → o.queue.isAwaitable = true) (hr : o.refuses awaited = false) :
    o.serve awaited b = o.lineUp b := by
  cases awaited with
  | false =>
    have hq : o.queue.isOpen = true ∧ o.queue.isFull = false := by simpa [refuses] using hr
    exact enqueue_of_room hb hq.1 hq.2
  | true =>
    have ha : o.queue.isOpen = true ∧ o.queue.waiting = [] := by
      simpa [Queue.isAwaitable] using h rfl
    -- In a queue that somebody waits at, nothing stands in the way of the one payload.
    have hf : (o.withBound (max 1 o.queue.bound)).queue.isFull = false := by
      simp [Queue.isFull, Queue.length, withBound, ha.2]
    have ho : (o.withBound (max 1 o.queue.bound)).queue.isOpen = true := ha.1
    rw [serve, if_pos rfl, enqueue_of_room hb ho hf]
    rfl

theorem serve_within {awaited : Bool} (h : awaited = true → o.queue.isAwaitable = true)
    (b : Buffer) :
    (o.serve awaited b).queue.bound = o.queue.bound ∧
      (o.serve awaited b).queue.length ≤
        max o.queue.length (if awaited then 1 else o.queue.bound) := by
  cases hb : b.isEmpty with
  | true =>
    rw [serve_of_empty awaited hb]
    exact ⟨rfl, le_max_left _ _⟩
  | false =>
    cases hr : o.refuses awaited with
    | true =>
      rw [serve_of_refused hb h hr]
      exact ⟨rfl, le_max_left _ _⟩
    | false =>
      rw [serve_of_taken hb h hr]
      refine ⟨rfl, le_trans ?_ (le_max_right _ _)⟩
      have hl : (o.lineUp b).queue.length = o.queue.length + 1 := by
        simp [lineUp, Queue.length]
      rw [hl]
      cases awaited with
      | true =>
        have ha : o.queue.isOpen = true ∧ o.queue.waiting = [] := by
          simpa [Queue.isAwaitable] using h rfl
        simp [Queue.length, ha.2]
      | false =>
        have hf : o.queue.isOpen = true ∧ o.queue.isFull = false := by simpa [refuses] using hr
        have hlt : o.queue.length < o.queue.bound := by simpa [Queue.isFull] using hf.2
        exact hlt

end Outbox

structure Offer where
  payload : Buffer
  /-- Whether somebody was waiting for a payload. -/
  awaited : Bool
  before : Outbox
  after : Outbox

namespace Offer

def isDropped (f : Offer) : Bool :=
  !f.payload.isEmpty && f.after.queue.waiting ≠ f.before.queue.waiting ++ [f.payload]

def isAdmitted (f : Offer) : Bool := !f.payload.isEmpty && !f.isDropped

/-- The queue drops a payload exactly when it is closed or has no place left. -/
structure Settled (f : Offer) : Prop where
  empty : f.payload.isEmpty = true → f.after = f.before.release f.payload
  dropped : f.isDropped = true ↔ f.payload.isEmpty = false ∧
    (f.before.queue.isOpen = false ∨ f.before.queue.isFull = true ∧ f.awaited = false)
  turned : f.isDropped = true → f.after = f.before.turnDown f.payload
  admitted : f.isAdmitted = true → f.after = f.before.lineUp f.payload

theorem settled_serve {o : Outbox} {awaited : Bool}
    (h : awaited = true → o.queue.isAwaitable = true) (b : Buffer) :
    Settled ⟨b, awaited, o, o.serve awaited b⟩ := by
  cases hb : b.isEmpty with
  | true =>
    have hs := o.serve_of_empty awaited hb
    constructor <;> simp_all [isAdmitted, isDropped]
  | false =>
    cases hr : o.refuses awaited with
    | true =>
      have hs := o.serve_of_refused hb h hr
      have hw : (o.turnDown b).queue = o.queue := rfl
      constructor <;> simp_all [isAdmitted, isDropped, Outbox.refuses]
    | false =>
      have hs := o.serve_of_taken hb h hr
      have hw : (o.lineUp b).queue.waiting = o.queue.waiting ++ [b] := rfl
      constructor <;> simp_all [isAdmitted, isDropped, Outbox.refuses]

end Offer

end MetricPipeline
