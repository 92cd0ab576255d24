import MetricPipeline.Number.Numeral

namespace MetricPipeline

inductive IpAddress
  | v4 (octets : Vector UInt8 4)
  | v6 (groups : Vector UInt16 8) (scope : UInt32)
deriving DecidableEq, Repr

structure SocketAddress where
  ip : IpAddress
  port : UInt16
deriving DecidableEq, Repr

namespace SocketAddress

abbrev Reader (α : Type) := List Char → Option (α × List Char)

def expect (c : Char) : Reader Unit
  | [] => none
  | d :: cs => if d = c then some ((), cs) else none

def hexValue? (c : Char) : Option Nat :=
  if '0' ≤ c ∧ c ≤ '9' then some (c.toNat - '0'.toNat)
  else if 'a' ≤ c ∧ c ≤ 'f' then some (c.toNat - 'a'.toNat + 10)
  else if 'A' ≤ c ∧ c ≤ 'F' then some (c.toNat - 'A'.toNat + 10)
  else none

def digitIn? (base : Nat) (c : Char) : Option Nat := (hexValue? c).filter (· < base)

/-- All digits in front, as a number below `limit`. -/
def readNumber (base limit : Nat) : Reader Nat := fun cs =>
  let front := cs.takeWhile fun c => (digitIn? base c).isSome
  let n := (front.filterMap (digitIn? base)).foldl (fun n d => base * n + d) 0
  if front.isEmpty ∨ limit ≤ n then none
  else some (n, cs.dropWhile fun c => (digitIn? base c).isSome)

def readOctet : Reader UInt8 := fun cs =>
  match readNumber 10 UInt8.size cs with
  | some (n, rest) =>
    if (cs.head? = some '0' && cs.length - rest.length != 1) then none
    else some (UInt8.ofNat n, rest)
  | none => none

def readIpv4 : Reader (Vector UInt8 4) := fun cs => do
  let (a, cs) ← readOctet cs
  let (_, cs) ← expect '.' cs
  let (b, cs) ← readOctet cs
  let (_, cs) ← expect '.' cs
  let (c, cs) ← readOctet cs
  let (_, cs) ← expect '.' cs
  let (d, cs) ← readOctet cs
  return (#v[a, b, c, d], cs)

def readGroup : Reader UInt16 := fun cs =>
  match readNumber 16 UInt16.size cs with
  | some (n, rest) => if cs.length - rest.length ≤ 4 then some (UInt16.ofNat n, rest) else none
  | none => none

def group (hi lo : UInt8) : UInt16 := UInt16.ofNat (hi.toNat * UInt8.size + lo.toNat)

def groups : List UInt8 → List UInt16
  | hi :: lo :: rest => group hi lo :: groups rest
  | _ => []

/-- At most `n` groups with colons between them. Where two may still come, the text of an IPv4
address can stand for them, and ends the groups. -/
def readGroups : Nat → Bool → List Char → List UInt16 × Bool × List Char
  | 0, _, cs => ([], false, cs)
  | n + 1, first, cs =>
    match if first then some cs else (expect ':' cs).map (·.2) with
    | none => ([], false, cs)
    | some start =>
      match if n = 0 then none else readIpv4 start with
      | some (octets, rest) => (groups octets.toList, true, rest)
      | none =>
        match readGroup start with
        | none => ([], false, cs)
        | some (g, rest) =>
          let (gs, embedded, rest) := readGroups n false rest
          (g :: gs, embedded, rest)

def ofGroups? (gs : List UInt16) : Option (Vector UInt16 8) :=
  if h : gs.length = 8 then some ⟨gs.toArray, by simp [h]⟩ else none

/-- Eight groups, or fewer with `::` in place of one or more groups of zero. -/
def readIpv6 : Reader (Vector UInt16 8) := fun cs => do
  let (head, embedded, cs) := readGroups 8 true cs
  if head.length = 8 then
    return (← ofGroups? head, cs)
  if embedded then none
  let (_, cs) ← expect ':' cs
  let (_, cs) ← expect ':' cs
  let (tail, _, cs) := readGroups (7 - head.length) true cs
  let zeros := List.replicate (8 - head.length - tail.length) 0
  return (← ofGroups? (head ++ zeros ++ tail), cs)

def readPort : Reader UInt16 := fun cs => do
  let (_, cs) ← expect ':' cs
  let (n, cs) ← readNumber 10 UInt16.size cs
  return (UInt16.ofNat n, cs)

def readScope : Reader UInt32 := fun cs => do
  let (_, cs) ← expect '%' cs
  let (n, cs) ← readNumber 10 UInt32.size cs
  return (UInt32.ofNat n, cs)

def readV4 : Reader SocketAddress := fun cs => do
  let (octets, cs) ← readIpv4 cs
  let (port, cs) ← readPort cs
  return (⟨.v4 octets, port⟩, cs)

def readV6 : Reader SocketAddress := fun cs => do
  let (_, cs) ← expect '[' cs
  let (groups, cs) ← readIpv6 cs
  let (scope, cs) := (readScope cs).getD (0, cs)
  let (_, cs) ← expect ']' cs
  let (port, cs) ← readPort cs
  return (⟨.v6 groups scope, port⟩, cs)

def read? (cs : List Char) : Option SocketAddress :=
  match (readV4 cs).or (readV6 cs) with
  | some (address, []) => some address
  | _ => none

end SocketAddress
end MetricPipeline
