import MetricPipeline.Address.Remote
import MetricPipeline.Delivery.Workers

namespace MetricPipeline

inductive InvalidSetting
  | payloadLength
  | linesPerPayload
  | buffers
  | queueLength
  | workers
  | shards
  | flushInterval
deriving DecidableEq, Repr

def InvalidSetting.message : InvalidSetting → String
  | payloadLength => "maximum payload length must be greater than zero"
  | linesPerPayload => "maximum metrics per payload must be greater than zero"
  | buffers => "maximum buffer count must be greater than zero"
  | queueLength => "queue length must be greater than zero"
  | workers => "sender worker count must be greater than zero"
  | shards => "shard count must be greater than zero"
  | flushInterval => "flush interval must be greater than zero"

inductive BuildError
  | invalidAddress (reason : AddressError)
  | invalidSetting (reason : InvalidSetting)
deriving DecidableEq, Repr

def BuildError.message : BuildError → String
  | invalidAddress reason => "invalid remote address: " ++ reason.message
  | invalidSetting reason => "invalid configuration: " ++ reason.message

/-- Times are in milliseconds. -/
structure Settings where
  address : RemoteAddress := .udp [⟨.v4 #v[127, 0, 0, 1], 8125⟩]
  writeTimeout : Nat := 1000
  limits : Limits := ⟨1432, Limits.anyLines⟩
  initialBuffers : Nat := 32
  maxBuffers : Nat := 2048
  queueLength : Nat := 2048
  policy : FullPolicy := .drop
  workers : Nat := 1
  shards : Nat := 1
  flushInterval : Nat := 100
  /-- Whether payloads still queued at the end are sent. -/
  drain : Bool := true
  scope : String := ""
  globalTags : List String := []
deriving DecidableEq, Repr

namespace Settings

/-- One shard for each processor, up to 32. -/
def ofProcessors (n : Nat) : Settings := { shards := min n 32 }

def withAddress (s : Settings) (text : String) (lookup : Lookup := .nameless) :
    Except BuildError Settings :=
  match RemoteAddress.read text lookup with
  | .ok address => .ok { s with address }
  | .error reason => .error (.invalidAddress reason)

def addTags (s : Settings) (tags : List String) : Settings :=
  { s with globalTags := s.globalTags ++ tags }

def invalid? (s : Settings) : Option InvalidSetting :=
  if s.limits.length = 0 then some .payloadLength
  else if s.limits.lines = 0 then some .linesPerPayload
  else if s.maxBuffers = 0 then some .buffers
  else if s.queueLength = 0 then some .queueLength
  else if s.workers = 0 then some .workers
  else if s.shards = 0 then some .shards
  else if s.flushInterval = 0 then some .flushInterval
  else none

end Settings

abbrev Environment := List (String × Bytes)

/-- The value of a variable. One that is empty or not valid UTF-8 counts as not set. -/
def Environment.get? (e : Environment) (name : String) : Option String :=
  (e.lookup name).bind fun bytes =>
    (String.fromUTF8? ⟨bytes.toArray⟩).filter (· ≠ "")

namespace Settings

def addressFrom (s : Settings) (e : Environment) (lookup : Lookup) : Except BuildError Settings :=
  match e.get? "DD_DOGSTATSD_URL", e.get? "DD_AGENT_HOST" with
  | some url, _ => s.withAddress url lookup
  | none, some host =>
    s.withAddress (host ++ ":" ++ (e.get? "DD_DOGSTATSD_PORT").getD "8125") lookup
  | none, none => .ok s

def tagsFrom (s : Settings) (e : Environment) : Settings :=
  s.addTags ([("DD_ENV", "env:"), ("DD_SERVICE", "service:"), ("DD_VERSION", "version:")].filterMap
    fun (name, tag) => (e.get? name).map (tag ++ ·))

def fromEnvironment (s : Settings) (e : Environment) (lookup : Lookup := .nameless) :
    Except BuildError Settings :=
  (s.addressFrom e lookup).map (·.tagsFrom e)

end Settings
end MetricPipeline
