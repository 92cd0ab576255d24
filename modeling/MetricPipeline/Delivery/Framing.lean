import MetricPipeline.Text

namespace MetricPipeline.Framing

def byte (n : Nat) : UInt8 := UInt8.ofNat n

def lengthPrefix (n : Nat) : Bytes :=
  [byte n, byte (n / 0x100), byte (n / 0x10000), byte (n / 0x1000000)]

def encode (payload : Bytes) : Bytes := lengthPrefix payload.length ++ payload

/-- The first payload of a stream and what follows it, if the payload is there to its end. -/
def first? : Bytes → Option (Bytes × Bytes)
  | a :: b :: c :: d :: rest =>
    let n := a.toNat + b.toNat * 0x100 + c.toNat * 0x10000 + d.toNat * 0x1000000
    if n ≤ rest.length then some (rest.take n, rest.drop n) else none
  | _ => none

theorem first?_encode (payload rest : Bytes) (h : payload.length < UInt32.size) :
    first? (encode payload ++ rest) = some (payload, rest) := by
  have hn : payload.length % 256 + payload.length / 0x100 % 256 * 0x100 +
      payload.length / 0x10000 % 256 * 0x10000 +
      payload.length / 0x1000000 % 256 * 0x1000000 = payload.length := by
    simp only [UInt32.size] at h
    omega
  simp only [encode, lengthPrefix, byte, List.cons_append, List.nil_append, first?,
    UInt8.toNat_ofNat', Nat.reducePow, hn, List.length_append, Nat.le_add_right, if_true,
    List.take_left, List.drop_left]

theorem length_lt_of_first? {bs payload rest : Bytes} (h : first? bs = some (payload, rest)) :
    rest.length < bs.length := by
  unfold first? at h
  split at h
  · simp only at h
    split at h
    · simp only [Option.some.injEq, Prod.mk.injEq] at h
      simp only [← h.2, List.length_drop, List.length_cons]
      omega
    · simp at h
  · simp at h

def decode (bs : Bytes) : List Bytes × Bytes :=
  match _h : first? bs with
  | none => ([], bs)
  | some (payload, rest) =>
    let (payloads, left) := decode rest
    (payload :: payloads, left)
termination_by bs.length
decreasing_by exact length_lt_of_first? _h

/-- What was framed is read back, whatever comes after it. -/
theorem decode_flatMap_encode (payloads : List Bytes) (rest : Bytes)
    (h : ∀ p ∈ payloads, p.length < UInt32.size) :
    decode (payloads.flatMap encode ++ rest) = (payloads ++ (decode rest).1, (decode rest).2) := by
  induction payloads with
  | nil => rfl
  | cons p ps ih =>
    have hp := first?_encode p (ps.flatMap encode ++ rest) (h p (List.mem_cons_self ..))
    rw [← List.append_assoc, ← List.flatMap_cons] at hp
    rw [decode]
    split
    · rename_i he
      simp only [he, reduceCtorEq] at hp
    · rename_i payload left he
      rw [hp] at he
      simp only [Option.some.injEq, Prod.mk.injEq] at he
      rw [← he.1, ← he.2, ih fun q hq => h q (List.mem_cons_of_mem _ hq)]
      rfl

end MetricPipeline.Framing
