import MetricPipeline.Delivery.Framing
import MetricPipeline.Delivery.Transport

namespace MetricPipeline

inductive SocketKind
  | udp
  | stream
  | datagram
deriving DecidableEq, Repr

def SocketKind.label : SocketKind → String
  | udp => "udp"
  | stream => "uds-stream"
  | datagram => "uds"

inductive SocketError
  | networkUnreachable
  | noSuchFile
  | connectionRefused
  | brokenPipe
  | messageTooLong
  | timedOut
  | zeroTimeout
  | tooLongForPrefix
deriving DecidableEq, Repr

def SocketError.message : SocketError → String
  | networkUnreachable => "Network is unreachable (os error 101)"
  | noSuchFile => "No such file or directory (os error 2)"
  | connectionRefused => "Connection refused (os error 111)"
  | brokenPipe => "Broken pipe (os error 32)"
  | messageTooLong => "Message too long (os error 90)"
  | timedOut => "Resource temporarily unavailable (os error 11)"
  | zeroTimeout => "cannot set a 0 duration timeout"
  | tooLongForPrefix => "payload too large for length prefix"

/-- A network on which connections are known by number. A write that fails may have written a
part. -/
class Network (ν : Type) where
  connect : ν → Except SocketError Nat × ν
  write : Nat → Bytes → ν → Except SocketError Unit × ν

structure Socket (ν : Type) where
  kind : SocketKind
  network : ν
  connection : Option Nat := none
deriving DecidableEq, Repr

namespace Socket

variable {ν : Type} [Network ν]

/-- Writes a payload: in one datagram, or on a stream its length and then its bytes. -/
def writePayload (kind : SocketKind) (c : Nat) (payload : Bytes) (n : ν) :
    Except SocketError Unit × ν :=
  match kind with
  | .udp | .datagram => Network.write c payload n
  | .stream =>
    if payload.length < UInt32.size then
      match Network.write c (Framing.lengthPrefix payload.length) n with
      | (.ok (), n) => Network.write c payload n
      | failed => failed
    else (.error .tooLongForPrefix, n)

/-- Sends on connection `c`, and keeps it if that went well. -/
def sendOn (s : Socket ν) (c : Nat) (payload : Bytes) : Except SocketError Nat × Socket ν :=
  match writePayload s.kind c payload s.network with
  | (.ok (), network) => (.ok payload.length, { s with network, connection := some c })
  | (.error e, network) => (.error e, { s with network, connection := none })

def send (s : Socket ν) (payload : Bytes) : Except SocketError Nat × Socket ν :=
  match s.connection with
  | some c => s.sendOn c payload
  | none =>
    match Network.connect s.network with
    | (.ok c, network) => { s with network }.sendOn c payload
    | (.error e, network) => (.error e, { s with network })

end Socket

instance {ν : Type} [Network ν] : Transport (Socket ν) where
  send payload s :=
    match s.send payload with
    | (.ok n, s) => (.sent n, s)
    | (.error _, s) => (.failed, s)
  label s := s.kind.label

end MetricPipeline
