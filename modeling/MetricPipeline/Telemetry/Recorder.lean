import MetricPipeline.Telemetry.Snapshot

namespace MetricPipeline

def Kind.name : Kind → String
  | gauge => "gauge"
  | count => "count"
  | histogram => "histogram"
  | distribution => "distribution"
  | set => "set"
  | timing => "timing"

def Kind.all : List Kind := [.gauge, .count, .histogram, .distribution, .set, .timing]

namespace Telemetry

inductive Counter
  | points
  | pointsOf (kind : Kind)
  | sampledOut
  | rejected
  | oversized
  | packetsSent
  | bytesSent
  | packetsDropped
  | bytesDropped
  | packetsDroppedAtQueue
  | bytesDroppedAtQueue
  | packetsDroppedByWriter
  | bytesDroppedByWriter
deriving DecidableEq, Repr

namespace Counter

def all : List Counter :=
  .points :: Kind.all.map .pointsOf ++
    [.sampledOut, .rejected, .oversized, .packetsSent, .bytesSent, .packetsDropped, .bytesDropped,
      .packetsDroppedAtQueue, .bytesDroppedAtQueue, .packetsDroppedByWriter, .bytesDroppedByWriter]

def name : Counter → String
  | points => "metrics"
  | pointsOf _ => "metrics_by_type"
  | sampledOut => "metrics_sampled_out"
  | rejected => "metrics_invalid"
  | oversized => "packets_oversized"
  | packetsSent => "packets_sent"
  | bytesSent => "bytes_sent"
  | packetsDropped => "packets_dropped"
  | bytesDropped => "bytes_dropped"
  | packetsDroppedAtQueue => "packets_dropped_queue"
  | bytesDroppedAtQueue => "bytes_dropped_queue"
  | packetsDroppedByWriter => "packets_dropped_writer"
  | bytesDroppedByWriter => "bytes_dropped_writer"

/-- The labels a counter is registered under, in order, for a client with the given transport. -/
def labels (transport : String) (c : Counter) : List (String × String) :=
  [("client", "rust"), ("client_version", "0.1.0"), ("client_transport", transport)] ++
    match c with
    | pointsOf kind => [("metrics_type", kind.name)]
    | _ => []

def key (transport : String) (c : Counter) : String :=
  "datadog.dogstatsd.client." ++ c.name ++ "\x7b" ++
    String.intercalate "," ((c.labels transport).map fun l => l.1 ++ "=" ++ l.2) ++ "\x7d"

end Counter

/-- What an event adds, and to which counters. Totals are counters of their own. -/
def Event.increments : Event → List (Counter × UInt64)
  | points kind n => [(.points, n), (.pointsOf kind, n)]
  | sampledOut => [(.sampledOut, 1)]
  | rejected => [(.rejected, 1)]
  | oversized => [(.oversized, 1)]
  | sent n => [(.packetsSent, 1), (.bytesSent, n)]
  | sendFailed n =>
    [(.packetsDropped, 1), (.bytesDropped, n), (.packetsDroppedByWriter, 1),
      (.bytesDroppedByWriter, n)]
  | droppedAtQueue n =>
    [(.packetsDropped, 1), (.bytesDropped, n), (.packetsDroppedAtQueue, 1),
      (.bytesDroppedAtQueue, n)]

abbrev Recorder := List (Counter × UInt64)

namespace Recorder

def initial : Recorder := Counter.all.map (·, 0)

def value (r : Recorder) (c : Counter) : UInt64 := (r.lookup c).getD 0

def add (r : Recorder) (c : Counter) (n : UInt64) : Recorder :=
  r.map fun e => if e.1 = c then (e.1, e.2 + n) else e

def record (r : Recorder) (e : Event) : Recorder :=
  e.increments.foldl (fun r i => r.add i.1 i.2) r

end Recorder
end Telemetry

/-- The counts as kept by the client and as seen by the recorder. -/
structure Telemetry where
  counts : Telemetry.Snapshot := {}
  recorder : Telemetry.Recorder := Telemetry.Recorder.initial
deriving DecidableEq, Repr

def Telemetry.record (t : Telemetry) (e : Telemetry.Event) : Telemetry :=
  ⟨t.counts.record e, t.recorder.record e⟩

end MetricPipeline
