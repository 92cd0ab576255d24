import Mathlib
import MetricPipeline.Delivery.Socket

namespace MetricPipeline

namespace Framing

theorem encode_ne_nil (payload : Bytes) : encode payload ≠ [] := by
  simp [encode, lengthPrefix]

theorem first?_append {bs payload rest : Bytes} (h : first? bs = some (payload, rest))
    (more : Bytes) : first? (bs ++ more) = some (payload, rest ++ more) := by
  match bs with
  | [] | [_] | [_, _] | [_, _, _] => simp [first?] at h
  | a :: b :: c :: d :: bs =>
    simp only [first?] at h
    split at h
    · rename_i hn
      simp only [Option.some.injEq, Prod.mk.injEq] at h
      obtain ⟨rfl, rfl⟩ := h
      simp only [List.cons_append, first?]
      rw [if_pos (by rw [List.length_append]; omega), List.take_append_of_le_length hn,
        List.drop_append_of_le_length hn]
    · cases h

theorem decode_of_part {payload part : Bytes} (h : payload.length < UInt32.size)
    (hp : part <+: encode payload) (hne : part ≠ encode payload) : decode part = ([], part) := by
  have hf : first? part = none := by
    by_contra hsome
    obtain ⟨⟨q, rest⟩, hq⟩ := Option.ne_none_iff_exists'.mp hsome
    obtain ⟨more, hmore⟩ := hp
    -- The payload would be found in the whole frame too, but with something left after it.
    have hwhole := first?_append hq more
    have hframe := first?_encode payload [] h
    rw [List.append_nil] at hframe
    rw [hmore, hframe] at hwhole
    simp only [Option.some.injEq, Prod.mk.injEq] at hwhole
    have hnil : more = [] := (List.append_eq_nil_iff.mp hwhole.2.symm).2
    rw [hnil, List.append_nil] at hmore
    exact hne hmore
  rw [decode]
  split
  · rfl
  · rename_i he
    rw [hf] at he
    cases he

end Framing

inductive Attempt
  | made
  | refused (e : SocketError)
  /-- The connection was opened, and then given up because it could not be set up. -/
  | abandoned (e : SocketError)

/-- A network on which anything may go wrong at any time, with all that was written on each
connection ever opened. -/
structure Wire where
  /-- How the attempts to connect end, one after another. -/
  attempts : Nat → Attempt
  /-- Which writes fail, after how many bytes. -/
  faults : Nat → Option (Nat × SocketError)
  streams : List Bytes := []
  tried : Nat := 0
  written : Nat := 0

namespace Wire

def connect (w : Wire) : Except SocketError Nat × Wire :=
  match w.attempts w.tried with
  | .made =>
    (.ok w.streams.length, { w with tried := w.tried + 1, streams := w.streams ++ [[]] })
  | .refused e => (.error e, { w with tried := w.tried + 1 })
  | .abandoned e => (.error e, { w with tried := w.tried + 1, streams := w.streams ++ [[]] })

def put (w : Wire) (c : Nat) (bytes : Bytes) : Wire :=
  { w with written := w.written + 1, streams := w.streams.modify c (· ++ bytes) }

/-- A write fails only where something is left to write. -/
def write (c : Nat) (bytes : Bytes) (w : Wire) : Except SocketError Unit × Wire :=
  match w.faults w.written with
  | none => (.ok (), w.put c bytes)
  | some (n, e) =>
    if n < bytes.length then (.error e, w.put c (bytes.take n)) else (.ok (), w.put c bytes)

instance : Network Wire where
  connect := connect
  write := write

theorem connect_cases (w : Wire) :
    (∃ w', Network.connect w = (.ok w.streams.length, w') ∧ w'.streams = w.streams ++ [[]]) ∨
      ∃ e w', Network.connect w = (.error e, w') ∧
        (w'.streams = w.streams ∨ w'.streams = w.streams ++ [[]]) := by
  show (∃ w', w.connect = _ ∧ _) ∨ ∃ e w', w.connect = _ ∧ _
  rw [connect]
  cases w.attempts w.tried with
  | made => exact .inl ⟨_, rfl, rfl⟩
  | refused e => exact .inr ⟨e, _, rfl, .inl rfl⟩
  | abandoned e => exact .inr ⟨e, _, rfl, .inr rfl⟩

theorem put_put_streams (w : Wire) (c : Nat) (bytes bytes' : Bytes) :
    ((w.put c bytes).put c bytes').streams = w.streams.modify c (· ++ (bytes ++ bytes')) := by
  simp only [put, List.modify_modify_eq]
  congr 1
  funext bs
  simp

theorem write_cases (c : Nat) (bytes : Bytes) (w : Wire) :
    Network.write c bytes w = (.ok (), w.put c bytes) ∨
      ∃ n e, n < bytes.length ∧ Network.write c bytes w = (.error e, w.put c (bytes.take n)) := by
  show w.write c bytes = _ ∨ ∃ n e, n < bytes.length ∧ w.write c bytes = _
  rw [write]
  split
  · exact .inl rfl
  · rename_i n e _
    split
    · rename_i hn
      exact .inr ⟨n, e, hn, rfl⟩
    · exact .inl rfl

/-- A payload adds its frame to the stream, or fails and adds less than that. One that is too long
for its prefix adds nothing. -/
theorem writePayload_cases (c : Nat) (p : Bytes) (w : Wire) :
    (∃ w', Socket.writePayload .stream c p w = (.ok (), w') ∧ p.length < UInt32.size ∧
        w'.streams = w.streams.modify c (· ++ Framing.encode p)) ∨
      ∃ e w' part, Socket.writePayload .stream c p w = (.error e, w') ∧
        part <+: Framing.encode p ∧ part ≠ Framing.encode p ∧
          (p.length < UInt32.size ∨ part = []) ∧
            w'.streams = w.streams.modify c (· ++ part) := by
  by_cases hlen : p.length < UInt32.size
  · rcases w.write_cases c (Framing.lengthPrefix p.length) with h₁ | ⟨n, e, hn, h₁⟩
    · rcases (w.put c (Framing.lengthPrefix p.length)).write_cases c p with h₂ | ⟨n, e, hn, h₂⟩
      · refine .inl ⟨_, ?_, hlen, w.put_put_streams c _ p⟩
        simp only [Socket.writePayload, if_pos hlen, h₁, h₂]
      · refine .inr ⟨e, _, Framing.lengthPrefix p.length ++ p.take n, ?_, ?_, ?_, .inl hlen,
          w.put_put_streams c _ _⟩
        · simp only [Socket.writePayload, if_pos hlen, h₁, h₂]
        · exact (List.prefix_append_right_inj _).mpr (List.take_prefix n p)
        · intro he
          have hl := congrArg List.length he
          simp only [Framing.encode, List.length_append, List.length_take] at hl
          omega
    · refine .inr ⟨e, w.put c ((Framing.lengthPrefix p.length).take n),
        (Framing.lengthPrefix p.length).take n, ?_, ?_, ?_, .inl hlen, rfl⟩
      · simp only [Socket.writePayload, if_pos hlen, h₁]
      · exact (List.take_prefix n _).trans (List.prefix_append _ _)
      · intro he
        have hl := congrArg List.length he
        simp only [Framing.encode, List.length_append, List.length_take] at hl
        omega
  · refine .inr ⟨.tooLongForPrefix, w, [], ?_, List.nil_prefix, (Framing.encode_ne_nil p).symm,
      .inr rfl, ?_⟩
    · simp only [Socket.writePayload, if_neg hlen]
    · simp only [List.append_nil]
      exact (List.modify_id ..).symm

end Wire

structure Receipt where
  payload : Bytes
  /-- The connection it was sent on, if there was one. -/
  carrier : Option Nat
  acknowledged : Bool
deriving DecidableEq

namespace Receipt

def acknowledgedIn (rs : List Receipt) : List Bytes :=
  (rs.filter Receipt.acknowledged).map Receipt.payload

def onCarrier (c : Nat) (rs : List Receipt) : List Receipt := rs.filter (·.carrier = some c)

@[simp] theorem acknowledgedIn_append (rs rs' : List Receipt) :
    acknowledgedIn (rs ++ rs') = acknowledgedIn rs ++ acknowledgedIn rs' := by
  simp [acknowledgedIn]

@[simp] theorem onCarrier_append (c : Nat) (rs rs' : List Receipt) :
    onCarrier c (rs ++ rs') = onCarrier c rs ++ onCarrier c rs' := by
  simp [onCarrier]

end Receipt

namespace Socket

variable {ν : Type} [Network ν]

def carrier? (s : Socket ν) : Option Nat :=
  match s.connection with
  | some c => some c
  | none => (Network.connect s.network).1.toOption

def sendEach (s : Socket ν) : List Bytes → List Receipt × Socket ν
  | [] => ([], s)
  | p :: ps =>
    let (result, s') := s.send p
    let (receipts, s'') := s'.sendEach ps
    (⟨p, s.carrier?, result.isOk⟩ :: receipts, s'')

end Socket

structure Traffic where
  connection : Option Nat
  streams : List Bytes

namespace Traffic

inductive Ready : Traffic → Nat → List Bytes → Prop
  | kept {c : Nat} {streams : List Bytes} : Ready ⟨some c, streams⟩ c streams
  | opened {streams : List Bytes} : Ready ⟨none, streams⟩ streams.length (streams ++ [[]])

/-- All that sending a payload can do. -/
inductive Sent (p : Bytes) : Traffic → Receipt → Traffic → Prop
  | refused {streams : List Bytes} : Sent p ⟨none, streams⟩ ⟨p, none, false⟩ ⟨none, streams⟩
  | abandoned {streams : List Bytes} :
      Sent p ⟨none, streams⟩ ⟨p, none, false⟩ ⟨none, streams ++ [[]]⟩
  | whole {t : Traffic} {c : Nat} {streams : List Bytes} (hr : Ready t c streams)
      (hp : p.length < UInt32.size) :
      Sent p t ⟨p, some c, true⟩ ⟨some c, streams.modify c (· ++ Framing.encode p)⟩
  | broken {t : Traffic} {c : Nat} {streams : List Bytes} {part : Bytes} (hr : Ready t c streams)
      (hpart : part <+: Framing.encode p) (hne : part ≠ Framing.encode p)
      (hp : p.length < UInt32.size ∨ part = []) :
      Sent p t ⟨p, some c, false⟩ ⟨none, streams.modify c (· ++ part)⟩

end Traffic

namespace Socket

def traffic (s : Socket Wire) : Traffic := ⟨s.connection, s.network.streams⟩

theorem sendOn_sent {s : Socket Wire} (hk : s.kind = .stream) {t : Traffic} {c : Nat}
    (hr : t.Ready c s.network.streams) (p : Bytes) :
    Traffic.Sent p t ⟨p, some c, (s.sendOn c p).1.isOk⟩ (s.sendOn c p).2.traffic := by
  rcases Wire.writePayload_cases c p s.network with
    ⟨w, hw, hp, hs⟩ | ⟨e, w, part, hw, hpart, hne, hp, hs⟩
  · have h : s.sendOn c p = (.ok p.length, { s with network := w, connection := some c }) := by
      simp only [sendOn, hk, hw]
    rw [h]
    simp only [traffic, hs]
    exact .whole hr hp
  · have h : s.sendOn c p = (.error e, { s with network := w, connection := none }) := by
      simp only [sendOn, hk, hw]
    rw [h]
    simp only [traffic, hs]
    exact .broken hr hpart hne hp

theorem sendOn_kind (s : Socket Wire) (c : Nat) (p : Bytes) : (s.sendOn c p).2.kind = s.kind := by
  rw [sendOn]
  split <;> rfl

theorem send_sent {s : Socket Wire} (hk : s.kind = .stream) (p : Bytes) :
    Traffic.Sent p s.traffic ⟨p, s.carrier?, (s.send p).1.isOk⟩ (s.send p).2.traffic ∧
      (s.send p).2.kind = .stream := by
  obtain ⟨kind, w, connection⟩ := s
  simp only at hk
  subst hk
  cases connection with
  | some c =>
    refine ⟨sendOn_sent rfl .kept p, ?_⟩
    exact sendOn_kind _ c p
  | none =>
    rcases w.connect_cases with ⟨w', hw, hs⟩ | ⟨e, w', hw, hs⟩
    · have h : Socket.send ⟨.stream, w, none⟩ p =
          Socket.sendOn ⟨.stream, w', none⟩ w.streams.length p := by
        simp only [send, hw]
      have hc : carrier? ⟨.stream, w, none⟩ = some w.streams.length := by
        simp only [carrier?, hw]
        rfl
      rw [h, hc]
      refine ⟨sendOn_sent rfl ?_ p, sendOn_kind _ _ p⟩
      simp only [hs]
      exact .opened
    · have h : Socket.send ⟨.stream, w, none⟩ p = (.error e, ⟨.stream, w', none⟩) := by
        simp only [send, hw]
      have hc : carrier? ⟨.stream, w, none⟩ = none := by
        simp only [carrier?, hw]
        rfl
      rw [h, hc]
      refine ⟨?_, rfl⟩
      simp only [traffic]
      rcases hs with hs | hs
      · rw [hs]
        exact .refused
      · rw [hs]
        exact .abandoned

end Socket

namespace Traffic

open Receipt

/-- The stream of a connection after all that was sent on it: whole frames for what was
acknowledged, and then nothing, or part of the frame of the last payload, which failed. -/
structure Bears (sends : List Receipt) (bytes part : Bytes) : Prop where
  bytes_eq : bytes = (acknowledgedIn sends).flatMap Framing.encode ++ part
  short : ∀ r ∈ sends, r.acknowledged = true → r.payload.length < UInt32.size
  ending : (part = [] ∧ ∀ r ∈ sends, r.acknowledged = true) ∨
    ∃ front last, sends = front ++ [last] ∧ (∀ r ∈ front, r.acknowledged = true) ∧
      last.acknowledged = false ∧ part <+: Framing.encode last.payload ∧
        part ≠ Framing.encode last.payload ∧ (last.payload.length < UInt32.size ∨ part = [])

namespace Bears

variable {sends : List Receipt} {bytes part : Bytes} {r : Receipt}

theorem nil : Bears [] [] [] := ⟨rfl, by simp, .inl ⟨rfl, by simp⟩⟩

theorem decode_eq (h : Bears sends bytes part) :
    Framing.decode bytes = (acknowledgedIn sends, part) := by
  have hnil : Framing.decode [] = ([], []) := by
    rw [Framing.decode]
    rfl
  have hpart : Framing.decode part = ([], part) := by
    rcases h.ending with ⟨rfl, -⟩ | ⟨front, last, -, -, -, hp, hne, hl | rfl⟩
    · exact hnil
    · exact Framing.decode_of_part hl hp hne
    · exact hnil
  have hshort : ∀ p ∈ acknowledgedIn sends, p.length < UInt32.size := by
    intro p hp
    obtain ⟨r, hr, rfl⟩ := List.mem_map.mp hp
    exact h.short r (List.mem_of_mem_filter hr) (List.of_mem_filter hr)
  rw [h.bytes_eq, Framing.decode_flatMap_encode _ _ hshort, hpart, List.append_nil]

theorem part_eq_nil (h : Bears sends bytes part) (hs : ∀ r ∈ sends, r.acknowledged = true) :
    part = [] := by
  rcases h.ending with ⟨hp, -⟩ | ⟨front, last, rfl, -, hl, -⟩
  · exact hp
  · rw [hs last (by simp)] at hl
    cases hl

theorem whole (h : Bears sends bytes part) (hs : ∀ r ∈ sends, r.acknowledged = true)
    (hr : r.acknowledged = true) (hp : r.payload.length < UInt32.size) :
    Bears (sends ++ [r]) (bytes ++ Framing.encode r.payload) [] := by
  refine ⟨?_, ?_, .inl ⟨rfl, ?_⟩⟩
  · have hpart := h.part_eq_nil hs
    have hone : acknowledgedIn [r] = [r.payload] := by simp [acknowledgedIn, hr]
    rw [h.bytes_eq, hpart, acknowledgedIn_append, hone]
    simp
  · rw [List.forall_mem_append, List.forall_mem_singleton]
    exact ⟨h.short, fun _ => hp⟩
  · rw [List.forall_mem_append, List.forall_mem_singleton]
    exact ⟨hs, hr⟩

theorem broken (h : Bears sends bytes part) (hs : ∀ r ∈ sends, r.acknowledged = true)
    (hr : r.acknowledged = false) {more : Bytes} (hm : more <+: Framing.encode r.payload)
    (hne : more ≠ Framing.encode r.payload)
    (hp : r.payload.length < UInt32.size ∨ more = []) :
    Bears (sends ++ [r]) (bytes ++ more) more := by
  refine ⟨?_, ?_, .inr ⟨sends, r, rfl, hs, hr, hm, hne, hp⟩⟩
  · have hpart := h.part_eq_nil hs
    have hnone : acknowledgedIn [r] = [] := by simp [acknowledgedIn, hr]
    rw [h.bytes_eq, hpart, acknowledgedIn_append, hnone]
    simp
  · rw [List.forall_mem_append, List.forall_mem_singleton]
    exact ⟨h.short, fun ha => absurd (hr.symm.trans ha) Bool.false_ne_true⟩

end Bears

structure Framed (rs : List Receipt) (t : Traffic) : Prop where
  streams : ∀ c bytes, t.streams[c]? = some bytes → ∃ part, Bears (onCarrier c rs) bytes part
  /-- The connection in use is the last one, and all that was sent on it was acknowledged. -/
  live : ∀ c, t.connection = some c → c + 1 = t.streams.length ∧
    ∀ r ∈ onCarrier c rs, r.acknowledged = true
  known : ∀ r ∈ rs, ∀ c, r.carrier = some c → c < t.streams.length
  /-- One connection after the other, the streams hold what was acknowledged. -/
  order : t.streams.flatMap (fun bytes => (Framing.decode bytes).1) = acknowledgedIn rs

namespace Framed

variable {rs : List Receipt} {t t' : Traffic} {c : Nat} {streams : List Bytes} {r : Receipt}

theorem dropped (h : Framed rs t) : Framed rs ⟨none, t.streams⟩ :=
  ⟨h.streams, by simp, h.known, h.order⟩

theorem unsent (h : Framed rs t) (hc : r.carrier = none) (ha : r.acknowledged = false) :
    Framed (rs ++ [r]) t := by
  have hon (c : Nat) : onCarrier c (rs ++ [r]) = onCarrier c rs := by
    simp [onCarrier, hc]
  refine ⟨?_, ?_, ?_, ?_⟩
  · intro c bytes hb
    rw [hon]
    exact h.streams c bytes hb
  · intro c hl
    rw [hon]
    exact h.live c hl
  · rw [List.forall_mem_append, List.forall_mem_singleton]
    refine ⟨h.known, ?_⟩
    intro c hr
    rw [hc] at hr
    cases hr
  · simp [h.order, acknowledgedIn, ha]

theorem opened (h : Framed rs ⟨none, streams⟩) :
    Framed rs ⟨some streams.length, streams ++ [[]]⟩ := by
  -- Nothing was sent yet on a connection that did not exist.
  have hnone : onCarrier streams.length rs = [] := by
    rw [onCarrier, List.filter_eq_nil_iff]
    intro r hr hc
    have hlt := h.known r hr _ (by simpa using hc)
    simp only at hlt
    omega
  have hnil : (Framing.decode []).1 = [] := congrArg Prod.fst Bears.nil.decode_eq
  refine ⟨?_, ?_, ?_, ?_⟩
  · intro c bytes hb
    simp only [List.getElem?_append] at hb
    split at hb
    · exact h.streams c bytes hb
    · rename_i hc
      obtain ⟨hlt, rfl⟩ := List.getElem?_eq_some_iff.mp hb
      have he : c = streams.length := by
        simp only [List.length_singleton] at hlt
        omega
      subst he
      rw [hnone]
      exact ⟨[], by simpa using Bears.nil⟩
  · intro c hc
    simp only [Option.some.injEq] at hc
    subst hc
    rw [hnone]
    simp
  · intro r hr c hc
    have hlt := h.known r hr c hc
    simp only [List.length_append, List.length_singleton] at hlt ⊢
    omega
  · have ho := h.order
    simp only at ho
    simp [ho, hnil]

theorem ready (h : Framed rs t) (hr : t.Ready c streams) : Framed rs ⟨some c, streams⟩ := by
  cases hr with
  | kept => exact h
  | opened => exact h.opened

theorem extend (h : Framed rs ⟨some c, streams⟩) (hc : r.carrier = some c) {more part : Bytes}
    {connection : Option Nat}
    (hconn : connection = some c ∧ r.acknowledged = true ∨ connection = none)
    (hb : ∀ bytes part', Bears (onCarrier c rs) bytes part' →
      Bears (onCarrier c rs ++ [r]) (bytes ++ more) part) :
    Framed (rs ++ [r]) ⟨connection, streams.modify c (· ++ more)⟩ := by
  obtain ⟨hlast, hacked⟩ := h.live c rfl
  simp only at hlast
  obtain ⟨front, bytes, rfl⟩ : ∃ front bytes, streams = front ++ [bytes] :=
    ⟨_, _, (List.dropLast_append_getLast (List.ne_nil_of_length_pos (by omega))).symm⟩
  have hfront : c = front.length := by simpa using hlast
  have hmod : (front ++ [bytes]).modify c (· ++ more) = front ++ [bytes ++ more] := by
    rw [List.modify_eq_take_cons_drop (by simp [hfront])]
    simp [hfront]
  obtain ⟨part', hold⟩ := h.streams c bytes (by simp [hfront])
  have hnew := hb bytes part' hold
  have hsame : onCarrier c [r] = [r] := by simp [onCarrier, hc]
  rw [hmod]
  refine ⟨?_, ?_, ?_, ?_⟩
  · intro c' bytes' hb'
    simp only [List.getElem?_append] at hb'
    split at hb'
    · rename_i hlt
      have hne : onCarrier c' [r] = [] := by
        have : c ≠ c' := by omega
        simp [onCarrier, hc, this]
      rw [onCarrier_append, hne, List.append_nil]
      apply h.streams c' bytes'
      simpa [List.getElem?_append, hlt] using hb'
    · obtain ⟨hlt, rfl⟩ := List.getElem?_eq_some_iff.mp hb'
      have he : c' = c := by
        simp only [List.length_singleton] at hlt
        omega
      subst he
      rw [onCarrier_append, hsame]
      exact ⟨part, by simpa using hnew⟩
  · intro c' hc'
    simp only at hc'
    rcases hconn with ⟨rfl, ha⟩ | rfl
    · simp only [Option.some.injEq] at hc'
      subst hc'
      refine ⟨by simp [hfront], ?_⟩
      rw [onCarrier_append, hsame, List.forall_mem_append, List.forall_mem_singleton]
      exact ⟨hacked, ha⟩
    · cases hc'
  · have hlen : (front ++ [bytes ++ more]).length = (front ++ [bytes]).length := by simp
    simp only [hlen]
    rw [List.forall_mem_append, List.forall_mem_singleton]
    refine ⟨h.known, ?_⟩
    intro c' hc'
    rw [hc, Option.some.injEq] at hc'
    simp [← hc', hfront]
  · have ho := h.order
    simp only [List.flatMap_append, List.flatMap_singleton, hold.decode_eq] at ho
    simp only [List.flatMap_append, List.flatMap_singleton, hnew.decode_eq, acknowledgedIn_append,
      ← ho, List.append_assoc]

theorem sent {p : Bytes} (h : Framed rs t) (hs : Sent p t r t') : Framed (rs ++ [r]) t' := by
  cases hs with
  | refused => exact h.unsent rfl rfl
  | abandoned => exact (h.opened.dropped).unsent rfl rfl
  | whole hr hp =>
    have hready := h.ready hr
    have hacked := (hready.live _ rfl).2
    exact hready.extend rfl (.inl ⟨rfl, rfl⟩) fun bytes part hb => hb.whole hacked rfl hp
  | broken hr hpart hne hp =>
    have hready := h.ready hr
    have hacked := (hready.live _ rfl).2
    exact hready.extend rfl (.inr rfl) fun bytes part hb =>
      hb.broken hacked rfl hpart hne hp

end Framed

theorem Sent.past {p : Bytes} {t t' : Traffic} {r : Receipt} (hs : Sent p t r t') {c : Nat}
    (hc : t.connection ≠ some c) (hlt : c < t.streams.length) :
    t'.connection ≠ some c ∧ c < t'.streams.length ∧ t'.streams[c]? = t.streams[c]? := by
  have ready {c' : Nat} {streams : List Bytes} (hr : t.Ready c' streams) :
      c' ≠ c ∧ c < streams.length ∧ streams[c]? = t.streams[c]? := by
    cases hr with
    | kept => exact ⟨by simpa using hc, hlt, rfl⟩
    | opened =>
      simp only at hlt
      refine ⟨by omega, by simp only [List.length_append]; omega, ?_⟩
      exact List.getElem?_append_left hlt
  cases hs with
  | refused => exact ⟨hc, hlt, rfl⟩
  | abandoned => exact ⟨by simp, (ready .opened).2⟩
  | whole hr hp =>
    obtain ⟨hne, hlen, he⟩ := ready hr
    refine ⟨by simpa using hne, by simpa using hlen, ?_⟩
    rw [← he, List.getElem?_modify]
    simp [hne]
  | broken hr hpart hne' hp =>
    obtain ⟨hne, hlen, he⟩ := ready hr
    refine ⟨by simp, by simpa using hlen, ?_⟩
    rw [← he, List.getElem?_modify]
    simp [hne]

end Traffic

namespace Socket

variable {s : Socket Wire}

theorem payloads_sendEach {ν : Type} [Network ν] (s : Socket ν) (ps : List Bytes) :
    (s.sendEach ps).1.map Receipt.payload = ps := by
  induction ps generalizing s with
  | nil => rfl
  | cons p ps ih => simp only [sendEach, List.map_cons, ih]

theorem sendEach_framed (hk : s.kind = .stream) {rs : List Receipt}
    (h : Traffic.Framed rs s.traffic) (ps : List Bytes) :
    Traffic.Framed (rs ++ (s.sendEach ps).1) (s.sendEach ps).2.traffic ∧
      (s.sendEach ps).2.kind = .stream := by
  induction ps generalizing s rs with
  | nil => exact ⟨by simpa [sendEach] using h, hk⟩
  | cons p ps ih =>
    obtain ⟨hsent, hk'⟩ := send_sent hk p
    have hrest := ih hk' (h.sent hsent)
    rw [List.append_assoc] at hrest
    exact hrest

theorem sendEach_past (hk : s.kind = .stream) {c : Nat} (hc : s.connection ≠ some c)
    (hlt : c < s.network.streams.length) (ps : List Bytes) :
    (s.sendEach ps).2.network.streams[c]? = s.network.streams[c]? := by
  induction ps generalizing s with
  | nil => rfl
  | cons p ps ih =>
    obtain ⟨hsent, hk'⟩ := send_sent hk p
    obtain ⟨hc', hlt', he⟩ := hsent.past hc hlt
    exact (ih hk' hc' hlt').trans he

open Receipt

/-- However connecting and writing go wrong, each connection carries the frames of the payloads
acknowledged on it, in order, and after them at most part of the frame of one payload that failed;
from then on nothing is written there. Read by length prefixes, it gives what was acknowledged on
it, and all connections one after another give each acknowledged payload once. -/
theorem streams_framed (attempts : Nat → Attempt) (faults : Nat → Option (Nat × SocketError))
    (payloads : List Bytes) :
    let run := sendEach
      ({ kind := .stream, network := { attempts, faults } } : Socket Wire) payloads
    let receipts := run.1
    let streams := run.2.network.streams
    receipts.map Receipt.payload = payloads ∧
      (∀ c bytes, streams[c]? = some bytes → ∃ part,
        bytes = (acknowledgedIn (onCarrier c receipts)).flatMap Framing.encode ++ part ∧
          Framing.decode bytes = (acknowledgedIn (onCarrier c receipts), part) ∧
            ((part = [] ∧ ∀ r ∈ onCarrier c receipts, r.acknowledged = true) ∨
              ∃ front last, onCarrier c receipts = front ++ [last] ∧
                (∀ r ∈ front, r.acknowledged = true) ∧ last.acknowledged = false ∧
                  part <+: Framing.encode last.payload ∧ part ≠ Framing.encode last.payload)) ∧
      streams.flatMap (fun bytes => (Framing.decode bytes).1) = acknowledgedIn receipts ∧
      ∀ r ∈ receipts, ∀ c, r.carrier = some c → c < streams.length ∧
        (r.acknowledged = false → ∀ later : List Bytes,
          (run.2.sendEach later).2.network.streams[c]? = streams[c]?) := by
  intro run receipts streams
  have hstart : Traffic.Framed [] ⟨none, []⟩ := ⟨by simp, by simp, by simp, rfl⟩
  have hend : Traffic.Framed ([] ++ receipts) run.2.traffic ∧ run.2.kind = .stream :=
    sendEach_framed rfl hstart payloads
  rw [List.nil_append] at hend
  obtain ⟨h, hk⟩ := hend
  refine ⟨payloads_sendEach _ _, ?_, h.order, ?_⟩
  · intro c bytes hb
    obtain ⟨part, hbears⟩ := h.streams c bytes hb
    refine ⟨part, hbears.bytes_eq, hbears.decode_eq, ?_⟩
    apply hbears.ending.imp_right
    rintro ⟨front, last, he, hf, hl, hp, hne, -⟩
    exact ⟨front, last, he, hf, hl, hp, hne⟩
  · intro r hr c hc
    have hlt := h.known r hr c hc
    refine ⟨hlt, ?_⟩
    intro hfailed later
    apply sendEach_past hk _ hlt
    intro hlive
    -- On the connection in use everything was acknowledged.
    have hacked := (h.live c hlive).2 r (by simp [onCarrier, hr, hc])
    rw [hfailed] at hacked
    cases hacked

/-- The second frame breaks off in its prefix, and the third payload goes on a new connection. -/
example :
    (sendEach ({ kind := .stream, network := {
        attempts := fun _ => .made
        faults := fun n => if n = 2 then some (3, .timedOut) else none } } : Socket Wire)
      [[7], [8, 9], [10]]).2.network.streams = [[1, 0, 0, 0, 7, 2, 0, 0], [1, 0, 0, 0, 10]] := by
  decide +kernel

end Socket
end MetricPipeline
