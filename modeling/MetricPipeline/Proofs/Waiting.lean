import MetricPipeline.Delivery.Workers
import MetricPipeline.Proofs.Payloads

namespace MetricPipeline

def FullPolicy.waits : FullPolicy → Bool
  | drop => false
  | block _ => true

/-- Whether somebody may be waiting for a payload: nothing is in line, and nobody has closed it. -/
def Queue.isAwaitable (q : Queue) : Bool := q.isOpen && q.waiting.isEmpty

namespace Plant

variable {σ : Type} [WordSource σ]

def offered? (P : Plant σ) : Act → Option Buffer
  | .retire i =>
    match P.stations[i]? with
    | some (some t) => if t.isIdle then some t.packer.current else none
    | _ => none
  | .proceed i =>
    match P.stations[i]? with
    | some (some t) => t.tray.head?
    | _ => none
  | _ => none

def lacksRoom (P : Plant σ) (a : Act) : Bool :=
  (P.offered? a).any (!·.isEmpty) && P.outbox.queue.isOpen && P.outbox.queue.isFull

def withBound (P : Plant σ) (bound : Nat) : Plant σ :=
  { P with outbox := { P.outbox with queue := { P.outbox.queue with bound } } }

/-- What is done while somebody waits for a payload. They take it, even from a queue that has no
place to keep it in. -/
def attended (P : Plant σ) (f : Plant σ → Plant σ) : Plant σ :=
  ((f (P.withBound (max 1 P.outbox.queue.bound))).act .take).withBound P.outbox.queue.bound

inductive Event
  /-- An act, put off if its packer has to wait for room. -/
  | attempt (a : Act)
  /-- An act whose packer has waited as long as it may. -/
  | insist (a : Act)
  /-- An act while somebody waits for a payload. -/
  | attend (a : Act)

def happen (policy : FullPolicy) (P : Plant σ) : Event → Plant σ
  | .attempt a => if policy.waits && P.lacksRoom a then P else P.act a
  | .insist a => P.act a
  | .attend a => if P.outbox.queue.isAwaitable then P.attended (·.act a) else P

def after (policy : FullPolicy) (P : Plant σ) (es : List Event) : Plant σ :=
  es.foldl (happen policy) P

/-- What every act keeps, whatever the queue's bound, all that can happen keeps. -/
theorem after_kept {I : Plant σ → Prop} (hact : ∀ P a, I P → I (P.act a))
    (hbound : ∀ P n, I P → I (P.withBound n)) (policy : FullPolicy) {P : Plant σ} (h : I P)
    (es : List Event) : I (P.after policy es) := by
  induction es generalizing P with
  | nil => exact h
  | cons e es ih =>
    apply ih
    cases e with
    | attempt a =>
      rw [happen]
      split
      · exact h
      · exact hact P a h
    | insist a => exact hact P a h
    | attend a =>
      rw [happen]
      split
      · exact hbound _ _ (hact _ _ (hact _ _ (hbound _ _ h)))
      · exact h

variable {L : Limits} {P : Plant σ}

omit [WordSource σ] in
theorem Sound.withBound (h : P.Sound L) (bound : Nat) : (P.withBound bound).Sound L :=
  ⟨h.stations, ⟨h.outbox.pool_limits, h.outbox.free, h.outbox.waiting⟩, h.held, h.handed⟩

theorem Sound.after (h : P.Sound L) (policy : FullPolicy) (es : List Event) :
    (P.after policy es).Sound L :=
  after_kept (fun _ a h => h.act a) (fun _ n h => h.withBound n) policy h es

end Plant
end MetricPipeline
