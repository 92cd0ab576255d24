import MetricPipeline.Address.Socket

namespace MetricPipeline.SocketAddress

def octetsText (octets : List UInt8) : List Char :=
  ['.'].intercalate (octets.map fun o => digits o.toNat)

def octets (g : UInt16) : List UInt8 :=
  [UInt8.ofNat (g.toNat / UInt8.size), UInt8.ofNat g.toNat]

def groupText (g : UInt16) : List Char := Nat.toDigits 16 g.toNat

def groupsText (gs : List UInt16) : List Char :=
  [':'].intercalate (gs.map groupText)

def zeroRun (gs : List UInt16) : Nat := (gs.takeWhile (· = 0)).length

/-- Start and length of the first of the longest runs of zero groups. -/
def longestRun : List UInt16 → Nat × Nat
  | [] => (0, 0)
  | g :: gs =>
    let (start, length) := longestRun gs
    if length ≤ zeroRun (g :: gs) then (0, zeroRun (g :: gs)) else (start + 1, length)

def ipv6Text (v : Vector UInt16 8) : List Char :=
  let gs := v.toList
  if gs.take 6 = [0, 0, 0, 0, 0, 0xffff] then
    "::ffff:".toList ++ octetsText ((gs.drop 6).flatMap octets)
  else
    let (start, length) := longestRun gs
    if 2 ≤ length then
      groupsText (gs.take start) ++ "::".toList ++ groupsText (gs.drop (start + length))
    else groupsText gs

def text (a : SocketAddress) : List Char :=
  let port := ':' :: digits a.port.toNat
  match a.ip with
  | .v4 octets => octetsText octets.toList ++ port
  | .v6 groups scope =>
    let zone := if scope = 0 then [] else '%' :: digits scope.toNat
    '[' :: ipv6Text groups ++ zone ++ ']' :: port

end MetricPipeline.SocketAddress
