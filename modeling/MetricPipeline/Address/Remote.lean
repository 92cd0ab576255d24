import MetricPipeline.Address.Host
import MetricPipeline.Delivery.Socket

namespace MetricPipeline

inductive AddressError
  | unknownScheme (scheme : String)
  | noPort
  | badPort
  | nulInHost
  | failedLookup (reason : String)
  /-- The system knows the host, but no address of it. -/
  | noAddress (text : String)
deriving DecidableEq, Repr

def AddressError.message : AddressError → String
  | unknownScheme scheme =>
    "invalid scheme '" ++ scheme ++ "' (expected 'udp', 'unix' or 'unixgram')"
  | noPort => "invalid socket address"
  | badPort => "invalid port value"
  | nulInHost => "file name contained an unexpected NUL byte"
  | failedLookup reason => "failed to lookup address information: " ++ reason
  | noAddress text => "'" ++ text ++ "' did not resolve to any address"

/-- How the system looks up the addresses of a host and a port. -/
abbrev Lookup := List Char → UInt16 → Except String (List SocketAddress)

/-- A system without names: it finds a host that is an address by itself, and no other. -/
def Lookup.nameless : Lookup := fun host port =>
  match IpAddress.ofHost? host with
  | some ip => .ok [⟨ip, port⟩]
  | none =>
    .error (if isHostName host then "Temporary failure in name resolution"
      else "Name or service not known")

inductive RemoteAddress
  | udp (addresses : List SocketAddress)
  | stream (path : String)
  | datagram (path : String)
deriving DecidableEq, Repr

namespace RemoteAddress

def kind : RemoteAddress → SocketKind
  | udp _ => .udp
  | stream _ => .stream
  | datagram _ => .datagram

def splitScheme? : List Char → Option (List Char × List Char)
  | [] => none
  | c :: cs =>
    if "://".toList.isPrefixOf (c :: cs) then some ([], (c :: cs).drop 3)
    else (splitScheme? cs).map fun (scheme, rest) => (c :: scheme, rest)

def splitPort? : List Char → Option (List Char × List Char)
  | [] => none
  | c :: cs =>
    match splitPort? cs with
    | some (host, port) => some (c :: host, port)
    | none => if c = ':' then some ([], cs) else none

def portOf? (cs : List Char) : Option UInt16 :=
  let digits := if cs.head? = some '+' then cs.tail else cs
  match Numeral.readDigits? digits with
  | some n => if n < UInt16.size then some (UInt16.ofNat n) else none
  | none => none

def resolve (lookup : Lookup) (cs : List Char) : Except AddressError (List SocketAddress) :=
  match SocketAddress.read? cs with
  | some address => .ok [address]
  | none =>
    match splitPort? cs with
    | none => .error .noPort
    | some (host, port) =>
      match portOf? port with
      | none => .error .badPort
      | some port =>
        if '\x00' ∈ host then .error .nulInHost
        else (lookup host port).mapError .failedLookup

def readUdp (lookup : Lookup) (cs : List Char) : Except AddressError RemoteAddress :=
  match resolve lookup cs with
  | .ok [] => .error (.noAddress (String.ofList cs))
  | .ok addresses => .ok (udp addresses)
  | .error reason => .error reason

/-- A text has a scheme before `://`; without one it is a UDP address. -/
def read (text : String) (lookup : Lookup := .nameless) : Except AddressError RemoteAddress :=
  match splitScheme? text.toList with
  | none => readUdp lookup text.toList
  | some (scheme, rest) =>
    match String.ofList scheme with
    | "udp" => readUdp lookup rest
    | "unix" => .ok (stream (String.ofList rest))
    | "unixgram" => .ok (datagram (String.ofList rest))
    | other => .error (.unknownScheme other)

end RemoteAddress
end MetricPipeline
