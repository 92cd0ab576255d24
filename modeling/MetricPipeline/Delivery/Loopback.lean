import MetricPipeline.Delivery.SendBuffer
import MetricPipeline.Delivery.Socket

namespace MetricPipeline

structure Link where
  age : Nat
  load : Nat := 0
deriving DecidableEq, Repr

def Link.unload (link : Link) : Link := { link with load := 0 }

/-- A server on the same host, as seen by the socket that sends to it. Each time it comes up it is a
new server, and connections to an earlier one stay dead. It reads only when told to, and what it has
not read takes up room in the sender's buffer. -/
structure Loopback where
  kind : SocketKind
  /-- The write timeout that the client sets, in milliseconds. -/
  timeout : Nat
  /-- Whether packets to the host have a route; local sockets need none. -/
  routed : Bool := true
  listening : Bool := false
  hasFile : Bool := false
  age : Nat := 0
  links : List Link := []
  /-- What each connection of this server brought since it was last read, on a stream. -/
  accepted : List (Nat × Bytes) := []
  inbox : List Bytes := []
  memory : SendBuffer := {}
deriving DecidableEq, Repr

namespace Loopback

/-- The longest payload of a UDP datagram. -/
def maxDatagram : Nat := 65507

/-- The server goes away, with what it has not read. -/
def abandon (l : Loopback) : Loopback := { l with listening := false, accepted := [], inbox := [] }

def down (l : Loopback) : Loopback := { l.abandon with hasFile := false }

def up (l : Loopback) : Loopback :=
  { l.down with listening := true, hasFile := true, age := l.age + 1 }

def receive (l : Loopback) : List Bytes × Loopback :=
  let read : Loopback := { l with links := l.links.map Link.unload }
  match l.kind with
  | .stream =>
    (l.accepted.map (·.2), { read with accepted := l.accepted.map fun c => (c.1, []) })
  | .udp | .datagram => (l.inbox, { read with inbox := [] })

/-- A server sees a stream connection before the client sets its timeout. -/
def connect (l : Loopback) : Except SocketError Nat × Loopback :=
  let c := l.links.length
  let seen := { l with
    links := l.links ++ [{ age := l.age }]
    accepted := if l.kind = .stream then l.accepted ++ [(c, [])] else l.accepted }
  if l.kind = .udp && !l.routed then (.error .networkUnreachable, l)
  else if l.kind != .udp && !l.hasFile then (.error .noSuchFile, l)
  else if l.kind != .udp && !l.listening then (.error .connectionRefused, l)
  else if l.timeout = 0 then (.error .zeroTimeout, seen)
  else (.ok c, seen)

/-- Connection `c`, if it is to the server that is up now. -/
def live? (l : Loopback) (c : Nat) : Option Link :=
  if l.listening then l.links[c]?.filter fun link => link.age = l.age else none

def setLoad (l : Loopback) (c load : Nat) : Loopback :=
  { l with links := l.links.modify c fun link => { link with load } }

def writeStream (l : Loopback) (c : Nat) (bytes : Bytes) : Except SocketError Unit × Loopback :=
  match l.live? c with
  | none => (.error .brokenPipe, l)
  | some link =>
    let (taken, load) := l.memory.fill link.load bytes.length
    let arrived (a : Nat × Bytes) := if a.1 = c then (a.1, a.2 ++ bytes.take taken) else a
    (if taken < bytes.length then .error .timedOut else .ok (),
      { l.setLoad c load with accepted := l.accepted.map arrived })

def writeDatagram (l : Loopback) (c : Nat) (bytes : Bytes) : Except SocketError Unit × Loopback :=
  if l.memory.maxDatagram < bytes.length then (.error .messageTooLong, l)
  else
    match l.live? c with
    | none => (.error .connectionRefused, l)
    | some link =>
      if l.memory.capacity ≤ link.load ∨ l.memory.maxUnread < l.inbox.length then
        (.error .timedOut, l)
      else
        (.ok (), { l.setLoad c (link.load + l.memory.datagramCost bytes.length) with
          inbox := l.inbox ++ [bytes] })

def write (l : Loopback) (c : Nat) (bytes : Bytes) : Except SocketError Unit × Loopback :=
  match l.kind with
  | .stream => l.writeStream c bytes
  | .datagram => l.writeDatagram c bytes
  | .udp =>
    if maxDatagram < bytes.length then (.error .messageTooLong, l)
    else if (l.live? c).isSome then (.ok (), { l with inbox := l.inbox ++ [bytes] })
    else (.error .connectionRefused, l)

end Loopback

instance : Network Loopback where
  connect := Loopback.connect
  write c bytes l := l.write c bytes

end MetricPipeline
