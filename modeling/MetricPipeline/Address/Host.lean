import MetricPipeline.Address.Socket
import MetricPipeline.Text

namespace MetricPipeline

def labels : List Char → List (List Char)
  | [] => [[]]
  | '.' :: cs => [] :: labels cs
  | c :: cs =>
    match labels cs with
    | label :: rest => (c :: label) :: rest
    | [] => [[c]]

def isLabel (cs : List Char) : Bool :=
  !cs.isEmpty && cs.length ≤ 63 && cs.all fun c => c.isAlphanum || c = '-' || c = '_'

/-- Whether a text could be the name of a host: labels with dots between them, at most 253
characters, with no hyphen in front. One more dot may stand at the end, or alone. -/
def isHostName (host : List Char) : Bool :=
  let name := if host.getLast? = some '.' then host.dropLast else host
  host = ['.'] ||
    ((labels name).all isLabel && name.head? != some '-' && name.length ≤ 253)

namespace IpAddress

open SocketAddress

/-- The base that the start of a number tells, and the digits. -/
def splitBase : List Char → Nat × List Char
  | '0' :: 'x' :: digits | '0' :: 'X' :: digits => (16, digits)
  | '0' :: digits => (8, '0' :: digits)
  | digits => (10, digits)

def readBased : Reader Nat := fun cs =>
  let (base, digits) := splitBase cs
  readNumber base UInt32.size digits

def octetsOf? : Nat → Nat → Option (List UInt8)
  | 0, n => if n = 0 then some [] else none
  | width + 1, n => (octetsOf? width (n / UInt8.size)).map (· ++ [UInt8.ofNat n])

/-- Octets written as numbers with dots between them, to the end of the text. The last number stands
for all octets that are left, the others for one each. -/
def readOctets? : Nat → List Char → Option (List UInt8)
  | 0, _ => none
  | left + 1, cs => do
    let (n, rest) ← readBased cs
    match rest with
    | [] => octetsOf? (left + 1) n
    | '.' :: rest => return (← octetsOf? 1 n) ++ (← readOctets? left rest)
    | _ => none

def v4OfHost? (host : List Char) : Option IpAddress := do
  let octets ← readOctets? 4 host
  if h : octets.length = 4 then some (.v4 ⟨octets.toArray, by simp [h]⟩) else none

def isLocal (groups : Vector UInt16 8) : Bool :=
  match groups.toList.head? with
  | some g => g.toNat / 64 = 0xfe80 / 64 || (g.toNat / 256 = 0xff && [1, 2].contains (g.toNat % 16))
  | none => false

/-- The number of an interface by its name, before a colon if it has one. The one interface that is
sure to be there is the loopback. -/
def interface? (name : List Char) : Option UInt32 :=
  if name.takeWhile (· ≠ ':') = "lo".toList ∧ (utf8 name).length < 16 then some 1 else none

def scopeOf? (groups : Vector UInt16 8) : List Char → Option UInt32
  | [] => some 0
  | '%' :: name =>
    match if isLocal groups then interface? name else none with
    | some scope => some scope
    | none =>
      match readNumber 10 UInt32.size name with
      | some (scope, []) => some (UInt32.ofNat scope)
      | _ => none
  | _ => none

def v6OfHost? (host : List Char) : Option IpAddress := do
  let (groups, rest) ← readIpv6 host
  let scope ← scopeOf? groups rest
  return .v6 groups scope

def ofHost? (host : List Char) : Option IpAddress := (v4OfHost? host).or (v6OfHost? host)

end IpAddress
end MetricPipeline
