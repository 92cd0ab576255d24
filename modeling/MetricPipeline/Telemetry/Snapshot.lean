import MetricPipeline.Metric

namespace MetricPipeline.Telemetry

/-- Something that is counted. Sizes are in bytes. -/
inductive Event
  | points (kind : Kind) (count : UInt64)
  | sampledOut
  | rejected
  | oversized
  | sent (size : UInt64)
  | sendFailed (size : UInt64)
  | droppedAtQueue (size : UInt64)
deriving DecidableEq, Repr

structure Snapshot where
  gauge : UInt64 := 0
  count : UInt64 := 0
  histogram : UInt64 := 0
  distribution : UInt64 := 0
  set : UInt64 := 0
  timing : UInt64 := 0
  sampledOut : UInt64 := 0
  rejected : UInt64 := 0
  oversized : UInt64 := 0
  packetsSent : UInt64 := 0
  bytesSent : UInt64 := 0
  packetsDroppedAtQueue : UInt64 := 0
  bytesDroppedAtQueue : UInt64 := 0
  packetsDroppedByWriter : UInt64 := 0
  bytesDroppedByWriter : UInt64 := 0
deriving DecidableEq, Repr

namespace Snapshot

def points (s : Snapshot) : Kind → UInt64
  | .gauge => s.gauge
  | .count => s.count
  | .histogram => s.histogram
  | .distribution => s.distribution
  | .set => s.set
  | .timing => s.timing

def addPoints (s : Snapshot) (n : UInt64) : Kind → Snapshot
  | .gauge => { s with gauge := s.gauge + n }
  | .count => { s with count := s.count + n }
  | .histogram => { s with histogram := s.histogram + n }
  | .distribution => { s with distribution := s.distribution + n }
  | .set => { s with set := s.set + n }
  | .timing => { s with timing := s.timing + n }

def record (s : Snapshot) : Event → Snapshot
  | .points kind n => s.addPoints n kind
  | .sampledOut => { s with sampledOut := s.sampledOut + 1 }
  | .rejected => { s with rejected := s.rejected + 1 }
  | .oversized => { s with oversized := s.oversized + 1 }
  | .sent n => { s with packetsSent := s.packetsSent + 1, bytesSent := s.bytesSent + n }
  | .sendFailed n =>
    { s with
      packetsDroppedByWriter := s.packetsDroppedByWriter + 1
      bytesDroppedByWriter := s.bytesDroppedByWriter + n }
  | .droppedAtQueue n =>
    { s with
      packetsDroppedAtQueue := s.packetsDroppedAtQueue + 1
      bytesDroppedAtQueue := s.bytesDroppedAtQueue + n }

/-- Counters have 64 bits and wrap around, and so do sums of them. Where arithmetic is checked for
overflow, there is no sum that does not fit: the program stops instead. -/
def totalPoints (s : Snapshot) : UInt64 :=
  s.gauge + s.count + s.histogram + s.distribution + s.set + s.timing

/-- Wraps around, or stops, like `totalPoints`. -/
def packetsDropped (s : Snapshot) : UInt64 := s.packetsDroppedAtQueue + s.packetsDroppedByWriter

/-- Wraps around, or stops, like `totalPoints`. -/
def bytesDropped (s : Snapshot) : UInt64 := s.bytesDroppedAtQueue + s.bytesDroppedByWriter

end Snapshot
end MetricPipeline.Telemetry
