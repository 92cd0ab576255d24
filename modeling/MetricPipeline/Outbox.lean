import MetricPipeline.Pool
import MetricPipeline.Queue
import MetricPipeline.Telemetry.Recorder

namespace MetricPipeline

inductive Notice
  | oversized (metric : String) (lineLength bufferLength : Nat)
  | dropped (reason : Refusal) (length : Nat)
deriving DecidableEq, Repr

def Notice.message : Notice → String
  | oversized .. => "Metric line exceeds maximum payload length, sending as a standalone payload."
  | dropped .. => "Dropping payload."

/-- Where a packer gets buffers, hands over payloads, and reports what happened. -/
class Outlet (ω : Type) where
  borrow : ω → Blank × ω
  enqueue : Buffer → ω → ω
  record : Telemetry.Event → ω → ω
  remark : Notice → ω → ω

structure Outbox where
  pool : Pool
  queue : Queue
  telemetry : Telemetry := {}
  notices : List Notice := []
deriving DecidableEq, Repr

namespace Outbox

def borrow (o : Outbox) : Blank × Outbox :=
  let (blank, pool) := o.pool.borrow
  (blank, { o with pool })

def release (o : Outbox) (b : Buffer) : Outbox := { o with pool := o.pool.release b }

def record (o : Outbox) (e : Telemetry.Event) : Outbox :=
  { o with telemetry := o.telemetry.record e }

def remark (o : Outbox) (n : Notice) : Outbox := { o with notices := o.notices ++ [n] }

/-- A payload that goes unsent because the queue was full or its end came. -/
def drop (o : Outbox) (b : Buffer) : Outbox :=
  (o.record (.droppedAtQueue b.length.toUInt64)).release b

/-- Hands over a payload. An empty one goes straight back to the pool. -/
def enqueue (o : Outbox) (b : Buffer) : Outbox :=
  if b.isEmpty then o.release b
  else
    match o.queue.offer b with
    | .ok queue => { o with queue }
    | .error reason => (o.remark (.dropped reason b.length)).drop b

def take (o : Outbox) : Option (Buffer × Outbox) :=
  o.queue.take.map fun (b, queue) => (b, { o with queue })

def close (o : Outbox) : Outbox := { o with queue := o.queue.close }

end Outbox

instance : Outlet Outbox where
  borrow := Outbox.borrow
  enqueue b o := o.enqueue b
  record e o := o.record e
  remark n o := o.remark n

end MetricPipeline
