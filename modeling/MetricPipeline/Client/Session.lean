import MetricPipeline.Client.Settings
import MetricPipeline.Packer

namespace MetricPipeline

inductive ClientError
  | rejected (reason : Rejection)
  | closed
deriving DecidableEq, Repr

def ClientError.message : ClientError → String
  | rejected reason => reason.message
  | closed => "client is closed"

structure Client (σ τ : Type) where
  scope : String
  globalTags : List String
  shards : List Packer
  /-- How many submissions were passed to a shard, modulo 2^64. -/
  turns : UInt64 := 0
  closed : Bool := false
  /-- Where the shards' random words come from. Each has a generator of its own, and any order in
  which they draw from these makes one sequence of words. -/
  words : σ
  delivery : Delivery τ

namespace Client

variable {σ τ ω : Type} [WordSource σ] [Transport τ] [Outlet ω]

def createShards : Nat → ω → List Packer × ω
  | 0, w => ([], w)
  | n + 1, w =>
    let (p, w) := Packer.create w
    let (ps, w) := createShards n w
    (p :: ps, w)

def start (s : Settings) (transport : τ) (words : σ) (schedule : Nat → List Move) : Client σ τ :=
  let outbox : Outbox :=
    { pool := Pool.create s.initialBuffers s.maxBuffers s.limits
      queue := { bound := s.queueLength } }
  let (shards, delivery) := createShards s.shards
    { outbox, transport, schedule
      workers := Delivery.crew s.workers
      drain := s.drain
      policy := s.policy }
  { scope := s.scope, globalTags := s.globalTags, shards, words, delivery }

/-- Opens a client that sends over `transport`, while its workers move as scheduled. -/
def open? (s : Settings) (transport : τ) (words : σ) (schedule : Nat → List Move) :
    Except BuildError (Client σ τ) :=
  match s.invalid? with
  | some reason => .error (.invalidSetting reason)
  | none => .ok (start s transport words schedule)

def openSocket? {ν : Type} [Network ν] (s : Settings) (network : ν) (words : σ)
    (schedule : Nat → List Move) : Except BuildError (Client σ (Socket ν)) :=
  open? s { kind := s.address.kind, network } words schedule

def stamp (c : Client σ τ) (m : Metric) : Metric :=
  { m with
    scope := if m.scope = "" then c.scope else m.scope
    globalTags := if m.globalTags = [] then c.globalTags else m.globalTags }

def turn (c : Client σ τ) : Nat := c.turns.toNat % c.shards.length

def submit (c : Client σ τ) (m : Metric) : Except ClientError Unit × Client σ τ :=
  if c.closed then (.error .closed, c)
  else
    match c.shards[c.turn]? with
    | none => (.ok (), c)
    | some shard =>
      let (result, shard, words, delivery) := shard.process (c.stamp m) c.words c.delivery
      (result.mapError .rejected,
        { c with shards := c.shards.set c.turn shard, turns := c.turns + 1, words, delivery })

def report (c : Client σ τ) (name : String) (tags : List String) (value : Value) :
    Except ClientError Unit × Client σ τ :=
  c.submit { name, value, tags }

def gauge (c : Client σ τ) (name : String) (level : Binary64) (tags : List String) :
    Except ClientError Unit × Client σ τ :=
  c.report name tags (.gauge level)

def count (c : Client σ τ) (name : String) (delta : Int64) (tags : List String) :
    Except ClientError Unit × Client σ τ :=
  c.report name tags (.count delta)

def increment (c : Client σ τ) (name : String) (tags : List String) :
    Except ClientError Unit × Client σ τ :=
  c.count name 1 tags

def decrement (c : Client σ τ) (name : String) (tags : List String) :
    Except ClientError Unit × Client σ τ :=
  c.count name (-1) tags

def histogram (c : Client σ τ) (name : String) (sample : Binary64) (tags : List String) :
    Except ClientError Unit × Client σ τ :=
  c.report name tags (.histogram sample)

def distribution (c : Client σ τ) (name : String) (sample : Binary64) (tags : List String) :
    Except ClientError Unit × Client σ τ :=
  c.report name tags (.distribution sample)

def set (c : Client σ τ) (name : String) (member : String) (tags : List String) :
    Except ClientError Unit × Client σ τ :=
  c.report name tags (.set member)

/-- Submits how long something took, in milliseconds. -/
def timing (c : Client σ τ) (name : String) (span : Duration) (tags : List String) :
    Except ClientError Unit × Client σ τ :=
  c.report name tags (.timing span.milliseconds)

def flushShards : List Packer → ω → List Packer × ω
  | [], w => ([], w)
  | p :: ps, w =>
    let (p, w) := p.flush w
    let (ps, w) := flushShards ps w
    (p :: ps, w)

/-- Flushes every shard in turn. The client also does so by itself at every flush interval. -/
def flush (c : Client σ τ) : Client σ τ :=
  let (shards, delivery) := flushShards c.shards c.delivery
  { c with shards, delivery }

/-- Flushes, and waits for the workers to come to their end. Closing again changes nothing. -/
def close (c : Client σ τ) : Client σ τ :=
  if c.closed then c
  else
    let c := c.flush
    { c with closed := true, delivery := c.delivery.shutdown }

def telemetry (c : Client σ τ) : Telemetry.Snapshot := c.delivery.outbox.telemetry.counts

def counters (c : Client σ τ) : List (String × UInt64) :=
  c.delivery.outbox.telemetry.recorder.map fun e =>
    (e.1.key (Transport.label c.delivery.transport), e.2)

end Client
end MetricPipeline
