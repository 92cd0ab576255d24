import MetricPipeline.Delivery.Transport
import MetricPipeline.Outbox

namespace MetricPipeline

inductive FullPolicy
  | drop
  | block (milliseconds : Nat)
deriving DecidableEq, Repr

inductive Worker
  /-- Between two payloads. A stopping worker only empties the queue. -/
  | listening (stopping : Bool)
  | sending (payload : Buffer) (stopping : Bool)
  | finished
  | crashed
deriving DecidableEq, Repr

def Worker.isGone : Worker → Bool
  | finished | crashed => true
  | _ => false

/-- A step of one worker, known by its index. One that it cannot make does nothing. -/
inductive Move
  /-- Takes the oldest payload; a stopping worker that finds none has finished. -/
  | take (worker : Nat)
  | send (worker : Nat)
  | stop (worker : Nat)
deriving DecidableEq, Repr

structure Delivery (τ : Type) where
  outbox : Outbox
  transport : τ
  workers : List Worker
  drain : Bool := true
  policy : FullPolicy := .drop
  stopped : Bool := false
  /-- Whether nobody is left who could enqueue anything. -/
  orphaned : Bool := false
  /-- Whether the queue stays open once all workers are gone. -/
  heldOpen : Bool := false
  /-- The moves that the workers make between one access to the queue or the pool and the next. -/
  schedule : Nat → List Move := fun _ => []
  clock : Nat := 0

namespace Delivery

variable {τ : Type} [Transport τ]

def crew (n : Nat) : List Worker := List.replicate (max n 1) (.listening false)

/-- Changes a worker. When the last one is gone the queue closes, unless it is held open. -/
def setWorker (d : Delivery τ) (w : Nat) (state : Worker) : Delivery τ :=
  let workers := d.workers.set w state
  if workers.all Worker.isGone && !d.heldOpen then
    { d with workers, outbox := d.outbox.close }
  else { d with workers }

def settle (d : Delivery τ) (b : Buffer) (e : Telemetry.Event) : Delivery τ :=
  { d with outbox := (d.outbox.record e).release b }

def takeStep (d : Delivery τ) (w : Nat) (stopping : Bool) : Delivery τ :=
  match d.outbox.take with
  | none => if stopping then d.setWorker w .finished else d
  | some (b, outbox) =>
    if stopping && !d.drain then { d with outbox := outbox.drop b }
    else { d with outbox }.setWorker w (.sending b stopping)

/-- The buffer of a worker that crashes is lost, and its payload is counted nowhere. -/
def sendStep (d : Delivery τ) (w : Nat) (b : Buffer) (stopping : Bool) : Delivery τ :=
  match Transport.send b.bytes d.transport with
  | (.sent _, transport) =>
    ({ d with transport }.settle b (.sent b.length.toUInt64)).setWorker w (.listening stopping)
  | (.failed, transport) =>
    ({ d with transport }.settle b (.sendFailed b.length.toUInt64)).setWorker w
      (.listening stopping)
  | (.crashed, transport) => { d with transport }.setWorker w .crashed

/-- A worker stops when told to, or when nothing is left and nothing can come. -/
def mayStop (d : Delivery τ) : Bool :=
  d.stopped || (d.orphaned && d.outbox.queue.waiting.isEmpty)

def step (d : Delivery τ) : Move → Delivery τ
  | .take w =>
    match d.workers[w]? with
    | some (.listening stopping) => d.takeStep w stopping
    | _ => d
  | .send w =>
    match d.workers[w]? with
    | some (.sending b stopping) => d.sendStep w b stopping
    | _ => d
  | .stop w =>
    match d.workers[w]? with
    | some (.listening false) => if d.mayStop then d.setWorker w (.listening true) else d
    | _ => d

def run (d : Delivery τ) (moves : List Move) : Delivery τ := moves.foldl step d

def tick (d : Delivery τ) : Delivery τ :=
  { d with clock := d.clock + 1 }.run (d.schedule d.clock)

def awaitRoom (d : Delivery τ) : List Move → Delivery τ
  | [] => d
  | m :: ms =>
    if d.outbox.queue.isOpen && d.outbox.queue.isFull then (d.step m).awaitRoom ms else d

def borrow (d : Delivery τ) : Blank × Delivery τ :=
  let d := d.tick
  let (blank, outbox) := d.outbox.borrow
  (blank, { d with outbox })

def enqueue (d : Delivery τ) (b : Buffer) : Delivery τ :=
  let d := d.tick
  let d :=
    match d.policy with
    | .drop => d
    | .block _ =>
      if b.isEmpty then d else { d with clock := d.clock + 1 }.awaitRoom (d.schedule d.clock)
  { d with outbox := d.outbox.enqueue b }

instance : Outlet (Delivery τ) where
  borrow := borrow
  enqueue b d := d.enqueue b
  record e d := { d with outbox := d.outbox.record e }
  remark n d := { d with outbox := d.outbox.remark n }

def advance (w : Nat) (d : Delivery τ) : Delivery τ :=
  match d.workers[w]? with
  | some (.listening true) => d.step (.take w)
  | some (.listening false) => d.step (.stop w)
  | some (.sending ..) => d.step (.send w)
  | _ => d

/-- Lets worker `w` come to its end: a step to see the stop, two for each payload, one to finish. -/
def finish (d : Delivery τ) (w : Nat) : Delivery τ :=
  (List.range (2 * d.outbox.queue.length + 3)).foldl (fun d _ => advance w d) d

/-- Tells the workers to stop and waits for them. After the moves they make on their own, those who
are not gone come to their end one by one. -/
def shutdown (d : Delivery τ) : Delivery τ :=
  (List.range d.workers.length).foldl finish { d with stopped := true }.tick

end Delivery
end MetricPipeline
