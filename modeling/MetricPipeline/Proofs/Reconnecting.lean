import Mathlib
import MetricPipeline.Delivery.Socket

namespace MetricPipeline

inductive Hold
  | disconnected
  | ready (c : Nat)
  /-- The connection was taken out, and nothing has been put back yet. -/
  | moved
deriving DecidableEq

inductive Step
  | connected (c : Nat)
  | refused (e : SocketError)
  | wrote (c : Nat) (payload : Bytes)
  | failed (c : Nat) (payload : Bytes) (e : SocketError)

namespace Step

def held : Step → Option Nat
  | connected _ | refused _ => none
  | wrote c _ | failed c _ _ => some c

def left : Step → Option Nat
  | connected c | wrote c _ => some c
  | refused _ | failed _ _ _ => none

def attempted? : Step → Option Bytes
  | connected _ | refused _ => none
  | wrote _ p | failed _ p _ => some p

def made? : Step → Option Nat
  | connected c => some c
  | _ => none

def isConnecting : Step → Bool
  | connected _ | refused _ => true
  | _ => false

def isFailedWrite : Step → Bool
  | failed _ _ _ => true
  | _ => false

/-- Each step starts from the connection that the one before it leaves. -/
def Path (held : Option Nat) : List Step → Option Nat → Prop
  | [], left => held = left
  | step :: steps, left => step.held = held ∧ Path step.left steps left

/-- No attempt to connect fails, and no write on a connection that was made since. -/
structure Steady (log : List Step) : Prop where
  connects : ∀ e, refused e ∉ log
  writes : log.Pairwise fun step later => step.made?.isSome = true → later.isFailedWrite = false

theorem path_append {held left : Option Nat} {steps steps' : List Step} :
    Path held (steps ++ steps') left ↔ ∃ c, Path held steps c ∧ Path c steps' left := by
  induction steps generalizing held with
  | nil => simp [Path]
  | cons step steps ih => simp [Path, ih, and_assoc]

theorem Path.connected_mem {held : Option Nat} {steps : List Step} {c : Nat}
    (h : Path held steps (some c)) : held = some c ∨ connected c ∈ steps := by
  induction steps generalizing held with
  | nil => exact .inl h
  | cons step steps ih =>
    obtain ⟨rfl, h⟩ := h
    rcases ih h with hl | hm
    · cases step with
      | connected c' =>
        obtain rfl : c' = c := Option.some.inj hl
        exact .inr List.mem_cons_self
      | wrote c' p => exact .inl hl
      | refused e | failed c' p e => cases hl
    · exact .inr (List.mem_cons_of_mem _ hm)

/-- After a failed write, nothing is written before a new connection is made. -/
theorem Path.connected_between {held left : Option Nat} {before between after : List Step}
    {c c' : Nat} {p : Bytes} {e : SocketError} {step : Step}
    (h : Path held (before ++ failed c p e :: (between ++ step :: after)) left)
    (hs : step.held = some c') : connected c' ∈ between := by
  obtain ⟨_, -, -, h⟩ := path_append.mp h
  obtain ⟨_, h, rfl, -⟩ := path_append.mp h
  rw [hs] at h
  exact h.connected_mem.resolve_left (Option.some_ne_none c' ·.symm)

theorem Path.not_held_again {held left : Option Nat} {before after : List Step} {c : Nat}
    {p : Bytes} {e : SocketError} (h : Path held (before ++ failed c p e :: after) left)
    (hn : (held.toList ++ (before ++ failed c p e :: after).filterMap made?).Nodup) :
    ∀ step ∈ after, step.held ≠ some c := by
  intro step hm hs
  obtain ⟨between, after, rfl⟩ := List.append_of_mem hm
  have hmade : connected c ∈ failed c p e :: (between ++ step :: after) :=
    List.mem_cons_of_mem _ (List.mem_append_left _ (h.connected_between hs))
  have hafter := List.mem_filterMap.mpr ⟨_, hmade, (rfl : made? (connected c) = some c)⟩
  obtain ⟨_, hb, rfl, -⟩ := path_append.mp h
  rw [List.filterMap_append, ← List.append_assoc, List.nodup_append'] at hn
  refine List.disjoint_left.mp hn.2.2 ?_ hafter
  rcases hb.connected_mem with rfl | hc
  · exact List.mem_append_left _ List.mem_cons_self
  · exact List.mem_append_right _ (List.mem_filterMap.mpr ⟨_, hc, rfl⟩)

theorem Steady.of_append {log log' : List Step} (h : Steady (log ++ log')) : Steady log' :=
  ⟨fun e he => h.connects e (List.mem_append_right _ he), (List.pairwise_append.mp h.writes).2.1⟩

end Step

inductive Contact
  | connect (answer : Except SocketError Nat)
  | write (c : Nat) (bytes : Bytes) (answer : Except SocketError Unit)

def Contact.written? : Contact → Option Bytes
  | connect _ => none
  | write _ bytes _ => some bytes

/-- A network that keeps a record of what is asked of it. -/
structure Taped (ν : Type) where
  network : ν
  tape : List Contact

instance {ν : Type} [Network ν] : Network (Taped ν) where
  connect n :=
    let (answer, network) := Network.connect n.network
    (answer, ⟨network, n.tape ++ [.connect answer]⟩)
  write c bytes n :=
    let (answer, network) := Network.write c bytes n.network
    (answer, ⟨network, n.tape ++ [.write c bytes answer]⟩)

namespace Step

def ofWrite (c : Nat) (payload : Bytes) : Except SocketError Unit → Step
  | .ok () => wrote c payload
  | .error e => failed c payload e

/-- What a network sees of a step. A datagram is one write. On a stream the length is written first,
and the payload only if that went well; a payload that is too long for its prefix is not written at
all. -/
inductive Seen : SocketKind → Step → List Contact → Prop
  | connected {kind : SocketKind} (c : Nat) : Seen kind (connected c) [.connect (.ok c)]
  | refused {kind : SocketKind} (e : SocketError) : Seen kind (refused e) [.connect (.error e)]
  | datagram {kind : SocketKind} (hk : kind ≠ .stream) (c : Nat) (p : Bytes)
      (answer : Except SocketError Unit) : Seen kind (ofWrite c p answer) [.write c p answer]
  | frame (c : Nat) {p : Bytes} (hp : p.length < UInt32.size) (answer : Except SocketError Unit) :
      Seen .stream (ofWrite c p answer)
        [.write c (Framing.lengthPrefix p.length) (.ok ()), .write c p answer]
  | broken (c : Nat) {p : Bytes} (hp : p.length < UInt32.size) (e : SocketError) :
      Seen .stream (failed c p e) [.write c (Framing.lengthPrefix p.length) (.error e)]
  | tooLong (c : Nat) {p : Bytes} (hp : UInt32.size ≤ p.length) :
      Seen .stream (failed c p .tooLongForPrefix) []

theorem Seen.written {kind : SocketKind} {step : Step} {seen : List Contact}
    (h : Seen kind step seen) (hk : kind ≠ .stream) :
    seen.filterMap Contact.written? = step.attempted?.toList := by
  cases h with
  | connected c => rfl
  | refused e => rfl
  | datagram _ c p answer => cases answer <;> rfl
  | frame | broken | tooLong => exact absurd rfl hk

theorem written_flatten {kind : SocketKind} {steps : List Step} {seen : List (List Contact)}
    (h : List.Forall₂ (Seen kind) steps seen) (hk : kind ≠ .stream) :
    seen.flatten.filterMap Contact.written? = steps.filterMap attempted? := by
  induction h with
  | nil => rfl
  | @cons step seen steps rest hs _ ih =>
    rw [List.flatten_cons, List.filterMap_append, hs.written hk, ih]
    cases hstep : step.attempted? <;> simp [hstep]

end Step

/-- A socket whose connection can be taken out of its place. -/
structure Holder (ν : Type) where
  kind : SocketKind
  network : ν
  hold : Hold

structure Call where
  before : Hold
  payload : Bytes
  steps : List Step
  result : Except SocketError Nat
  after : Hold

namespace Call

def log (calls : List Call) : List Step := calls.flatMap Call.steps

def fails (call : Call) : Bool := !call.result.isOk

end Call

namespace Hold

def ofConnection : Option Nat → Hold
  | some c => ready c
  | none => disconnected

def rank : Hold → Nat
  | disconnected => 1
  | ready _ | moved => 0

theorem ofConnection_ne_moved (connection : Option Nat) : ofConnection connection ≠ moved := by
  cases connection <;> simp [ofConnection]

end Hold

namespace Holder

variable {ν : Type} [Network ν]

def ofSocket (s : Socket ν) : Holder ν := ⟨s.kind, s.network, .ofConnection s.connection⟩

def take (h : Holder ν) : Hold × Holder ν := (h.hold, { h with hold := .moved })

/-- One turn of the loop: what it did, the result if the call returns, and the holder. There is no
turn for a holder with nothing in its place. -/
def turn (h : Holder ν) (payload : Bytes) :
    Option (Step × Option (Except SocketError Nat) × Holder ν) :=
  let (old, h) := h.take
  match old with
  | .moved => none
  | .disconnected =>
    match Network.connect h.network with
    | (.ok c, network) => some (.connected c, none, { h with network, hold := .ready c })
    | (.error e, network) =>
      some (.refused e, some (.error e), { h with network, hold := .disconnected })
  | .ready c =>
    match Socket.writePayload h.kind c payload h.network with
    | (.ok (), network) =>
      some (.wrote c payload, some (.ok payload.length), { h with network, hold := .ready c })
    | (.error e, network) =>
      some (.failed c payload e, some (.error e), { h with network, hold := .disconnected })

theorem rank_turn {h h' : Holder ν} {payload : Bytes} {step : Step}
    (ht : h.turn payload = some (step, none, h')) : h'.hold.rank < h.hold.rank := by
  obtain ⟨kind, network, hold⟩ := h
  cases hold with
  | moved => simp [turn, take] at ht
  | disconnected =>
    simp only [turn, take] at ht
    split at ht <;> simp only [Option.some.injEq, Prod.mk.injEq, reduceCtorEq, false_and,
      and_false] at ht
    obtain ⟨-, -, rfl⟩ := ht
    exact Nat.zero_lt_one
  | ready c =>
    simp only [turn, take] at ht
    split at ht <;> simp at ht

/-- A call: turns, with no bound on their number, until one of them returns. -/
def loop (h : Holder ν) (payload : Bytes) :
    Option (List Step × Except SocketError Nat × Holder ν) :=
  match _ : h.turn payload with
  | none => none
  | some (step, some result, h') => some ([step], result, h')
  | some (step, none, h') =>
    (h'.loop payload).map fun (steps, result, h'') => (step :: steps, result, h'')
termination_by h.hold.rank
decreasing_by exact rank_turn ‹_›

def sendEach (h : Holder ν) : List Bytes → Option (List Call × Holder ν)
  | [] => some ([], h)
  | p :: ps => do
    let (steps, result, h') ← h.loop p
    let (calls, h'') ← h'.sendEach ps
    return (⟨h.hold, p, steps, result, h'.hold⟩ :: calls, h'')

end Holder

namespace Socket

variable {ν : Type} [Network ν]

def sendAll (s : Socket ν) : List Bytes → List (Except SocketError Nat) × Socket ν
  | [] => ([], s)
  | p :: ps =>
    let (result, s) := s.send p
    let (results, s) := s.sendAll ps
    (result :: results, s)

end Socket

namespace Call

/-- All that a call can do: one case for each way out of the loop, with and without connecting
first. -/
inductive Conducted (p : Bytes) : Option Nat → Call → Option Nat → Prop
  | refused (e : SocketError) :
      Conducted p none ⟨.disconnected, p, [.refused e], .error e, .disconnected⟩ none
  | wrote (c : Nat) :
      Conducted p (some c) ⟨.ready c, p, [.wrote c p], .ok p.length, .ready c⟩ (some c)
  | failed (c : Nat) (e : SocketError) :
      Conducted p (some c) ⟨.ready c, p, [.failed c p e], .error e, .disconnected⟩ none
  | connectedWrote (c : Nat) :
      Conducted p none
        ⟨.disconnected, p, [.connected c, .wrote c p], .ok p.length, .ready c⟩ (some c)
  | connectedFailed (c : Nat) (e : SocketError) :
      Conducted p none
        ⟨.disconnected, p, [.connected c, .failed c p e], .error e, .disconnected⟩ none

inductive ConductedAll : List Bytes → Option Nat → List Call → Option Nat → Prop
  | nil {held : Option Nat} : ConductedAll [] held [] held
  | cons {p : Bytes} {ps : List Bytes} {held between left : Option Nat} {call : Call}
      {calls : List Call} (hc : Conducted p held call between)
      (hcs : ConductedAll ps between calls left) :
      ConductedAll (p :: ps) held (call :: calls) left

namespace Conducted

variable {p : Bytes} {held left : Option Nat} {call : Call} (h : Conducted p held call left)

include h

theorem eq_mk : call = ⟨.ofConnection held, p, call.steps, call.result, .ofConnection left⟩ := by
  cases h <;> rfl

theorem ends : call.before = .ofConnection held ∧ call.payload = p ∧
    call.after = .ofConnection left := by
  rw [h.eq_mk]
  exact ⟨rfl, rfl, rfl⟩

theorem path : Step.Path held call.steps left := by
  cases h <;> simp [Step.Path, Step.held, Step.left]

theorem attempted : (call.steps.filterMap Step.attempted?).Sublist [p] := by
  cases h <;> simp [List.filterMap_cons, Step.attempted?]

theorem length_steps : call.steps.length ≤ 2 := by
  cases h <;> simp

theorem countP_isConnecting :
    call.steps.countP Step.isConnecting = if call.before = .disconnected then 1 else 0 := by
  cases h <;> simp [List.countP_cons, Step.isConnecting]

theorem isOk_iff_wrote : call.result.isOk = true ↔ ∃ c, .wrote c p ∈ call.steps := by
  cases h <;> simp [Except.isOk, Except.toBool]

theorem isOk_iff_ready : call.result.isOk = true ↔ ∃ c, call.after = .ready c := by
  cases h <;> simp [Except.isOk, Except.toBool]

end Conducted

namespace ConductedAll

variable {ps : List Bytes} {held left : Option Nat} {calls : List Call}

theorem map_payload (h : ConductedAll ps held calls left) : calls.map payload = ps := by
  induction h with
  | nil => rfl
  | cons hc _ ih => rw [List.map_cons, ih, hc.ends.2.1]

theorem of_mem (h : ConductedAll ps held calls left) {call : Call} (hm : call ∈ calls) :
    ∃ held' left', Conducted call.payload held' call left' := by
  induction h with
  | nil => cases hm
  | cons hc _ ih =>
    rcases List.mem_cons.mp hm with rfl | hm
    · exact ⟨_, _, hc.ends.2.1.symm ▸ hc⟩
    · exact ih hm

theorem path (h : ConductedAll ps held calls left) : Step.Path held (log calls) left := by
  induction h with
  | nil => rfl
  | cons hc _ ih => exact Step.path_append.mpr ⟨_, hc.path, ih⟩

theorem attempted (h : ConductedAll ps held calls left) :
    ((log calls).filterMap Step.attempted?).Sublist ps := by
  induction h with
  | nil => exact .slnil
  | cons hc _ ih =>
    rw [log, List.flatMap_cons, List.filterMap_append]
    exact hc.attempted.append ih

theorem of_append {early late : List Call} (h : ConductedAll ps held (early ++ late) left) :
    ∃ ps' held', ConductedAll ps' held' late left := by
  induction early generalizing ps held with
  | nil => exact ⟨ps, held, h⟩
  | cons call early ih =>
    cases h with
    | cons _ hcs => exact ih hcs

theorem not_fails (h : ConductedAll ps held calls left) (hr : ∀ e, .refused e ∉ log calls)
    (hw : ∀ step ∈ log calls, step.isFailedWrite = false) : ∀ call ∈ calls, call.fails = false := by
  intro call hm
  have hsteps : ∀ step ∈ call.steps, step ∈ log calls :=
    fun step hs => List.mem_flatMap.mpr ⟨call, hm, hs⟩
  obtain ⟨_, _, hc⟩ := h.of_mem hm
  generalize call.payload = p at hc
  cases hc with
  | refused e => exact absurd (hsteps _ List.mem_cons_self) (hr e)
  | failed c e => cases hw _ (hsteps _ List.mem_cons_self)
  | connectedFailed c e => cases hw _ (hsteps _ (List.mem_cons_of_mem _ List.mem_cons_self))
  | wrote c | connectedWrote c => rfl

/-- While all goes well with new connections, the only call to fail is one that uses the connection
held before. -/
theorem fails_once (h : ConductedAll ps held calls left) (hs : Step.Steady (log calls)) :
    (calls.filter fails).length ≤ 1 ∧
      ∀ call ∈ calls, call.fails = true → ∃ c, held = some c ∧ call.before = .ready c := by
  induction h with
  | nil => simp
  | @cons _ _ _ _ _ _ rest hc hcs ih =>
    have hlater := ih hs.of_append
    cases hc with
    | refused e => exact absurd List.mem_cons_self (hs.connects e)
    | wrote c =>
      refine ⟨?_, ?_⟩
      · rw [List.filter_cons_of_neg Bool.false_ne_true]
        exact hlater.1
      · intro call hm hf
        rcases List.mem_cons.mp hm with rfl | hm
        · cases hf
        · exact hlater.2 call hm hf
    | failed c e =>
      -- The rest starts from no connection, so nothing of it fails.
      have hrest : ∀ call ∈ rest, call.fails = false := fun call hm => by
        by_contra hf
        obtain ⟨_, hn, -⟩ := hlater.2 call hm (by simpa using hf)
        cases hn
      refine ⟨?_, ?_⟩
      · rw [List.filter_cons_of_pos rfl, List.filter_eq_nil_iff.mpr (by simpa using hrest)]
        exact le_rfl
      · intro call hm hf
        rcases List.mem_cons.mp hm with rfl | hm
        · exact ⟨c, rfl, rfl⟩
        · rw [hrest call hm] at hf
          cases hf
    | connectedWrote c =>
      have hw := (List.pairwise_cons.mp hs.writes).1
      have hrest := hcs.not_fails (fun e => hs.of_append.connects e)
        fun step hm => hw step (List.mem_append_right _ hm) rfl
      refine ⟨?_, ?_⟩
      · rw [List.filter_cons_of_neg Bool.false_ne_true,
          List.filter_eq_nil_iff.mpr (by simpa using hrest)]
        exact Nat.zero_le 1
      · intro call hm hf
        rcases List.mem_cons.mp hm with rfl | hm
        · cases hf
        · rw [hrest call hm] at hf
          cases hf
    | connectedFailed c e =>
      have hw := (List.pairwise_cons.mp hs.writes).1
      cases hw _ List.mem_cons_self rfl

end ConductedAll
end Call

namespace Holder

variable {ν : Type} [Network ν]

open Call

theorem loop_of_over {h h' : Holder ν} {p : Bytes} {step : Step}
    {result : Except SocketError Nat} (ht : h.turn p = some (step, some result, h')) :
    h.loop p = some ([step], result, h') := by
  rw [loop]
  split <;> simp_all

theorem loop_of_again {h h' : Holder ν} {p : Bytes} {step : Step}
    (ht : h.turn p = some (step, none, h')) :
    h.loop p = (h'.loop p).map fun (steps, result, h'') => (step :: steps, result, h'') := by
  rw [loop]
  split <;> simp_all

theorem loop_ready (s : Socket ν) (c : Nat) (p : Bytes) :
    ∃ call, Conducted p (some c) call (s.sendOn c p).2.connection ∧
      call.result = (s.sendOn c p).1 ∧
      loop ⟨s.kind, s.network, .ready c⟩ p =
        some (call.steps, call.result, ofSocket (s.sendOn c p).2) := by
  rcases hw : Socket.writePayload s.kind c p s.network with ⟨_ | ⟨⟨⟩⟩, network⟩
  · rename_i e
    have hs : s.sendOn c p = (.error e, { s with network, connection := none }) := by
      simp only [Socket.sendOn, hw]
    rw [hs]
    exact ⟨_, .failed c e, rfl, loop_of_over (by simp only [turn, take, hw]; rfl)⟩
  · have hs : s.sendOn c p = (.ok p.length, { s with network, connection := some c }) := by
      simp only [Socket.sendOn, hw]
    rw [hs]
    exact ⟨_, .wrote c, rfl, loop_of_over (by simp only [turn, take, hw]; rfl)⟩

/-- The loop is what a socket does when it sends. -/
theorem loop_ofSocket (s : Socket ν) (p : Bytes) :
    ∃ call, Conducted p s.connection call (s.send p).2.connection ∧
      call.result = (s.send p).1 ∧
      (ofSocket s).loop p = some (call.steps, call.result, ofSocket (s.send p).2) := by
  obtain ⟨kind, network, connection⟩ := s
  cases connection with
  | some c =>
    obtain ⟨call, hc, hr, hl⟩ := loop_ready ⟨kind, network, some c⟩ c p
    exact ⟨call, hc, hr, hl⟩
  | none =>
    rcases hn : Network.connect network with ⟨e | c, network'⟩
    · have hs : Socket.send ⟨kind, network, none⟩ p = (.error e, ⟨kind, network', none⟩) := by
        simp only [Socket.send, hn]
      rw [hs]
      refine ⟨_, .refused e, rfl, loop_of_over ?_⟩
      simp only [turn, take, ofSocket, Hold.ofConnection, hn]
    · have hs : Socket.send ⟨kind, network, none⟩ p = Socket.sendOn ⟨kind, network', none⟩ c p := by
        simp only [Socket.send, hn]
      have ht : turn (ofSocket ⟨kind, network, none⟩) p =
          some (.connected c, none, ⟨kind, network', .ready c⟩) := by
        simp only [turn, take, ofSocket, Hold.ofConnection, hn]
      obtain ⟨call, hc, hr, hl⟩ := loop_ready ⟨kind, network', none⟩ c p
      rw [hs, loop_of_again ht, hl]
      generalize (Socket.sendOn ⟨kind, network', none⟩ c p).2.connection = left at hc
      cases hc with
      | wrote => exact ⟨_, .connectedWrote c, hr, rfl⟩
      | failed c e => exact ⟨_, .connectedFailed c e, hr, rfl⟩

theorem sendEach_ofSocket (s : Socket ν) (ps : List Bytes) :
    ∃ calls, ConductedAll ps s.connection calls (s.sendAll ps).2.connection ∧
      calls.map Call.result = (s.sendAll ps).1 ∧
      (ofSocket s).sendEach ps = some (calls, ofSocket (s.sendAll ps).2) := by
  induction ps generalizing s with
  | nil => exact ⟨[], .nil, rfl, rfl⟩
  | cons p ps ih =>
    obtain ⟨call, hc, hr, hl⟩ := loop_ofSocket s p
    obtain ⟨calls, hcs, hrs, hls⟩ := ih (s.send p).2
    refine ⟨call :: calls, .cons hc hcs, ?_, ?_⟩
    · rw [List.map_cons, hr, hrs]
      rfl
    · simp only [sendEach, hl, hls, Option.bind_eq_bind, Option.bind_some]
      exact congrArg (fun call => some (call :: calls, _)) hc.eq_mk.symm

end Holder

section Taping

variable {ν : Type}

def Socket.taped (s : Socket ν) (tape : List Contact) : Socket (Taped ν) :=
  ⟨s.kind, ⟨s.network, tape⟩, s.connection⟩

def Holder.taped (h : Holder ν) (tape : List Contact) : Holder (Taped ν) :=
  ⟨h.kind, ⟨h.network, tape⟩, h.hold⟩

theorem Holder.ofSocket_injective : Function.Injective (ofSocket : Socket ν → Holder ν) := by
  rintro ⟨kind, network, connection⟩ ⟨kind', network', connection'⟩ h
  cases connection <;> cases connection' <;> simp_all [ofSocket, Hold.ofConnection]

variable [Network ν]

open Step Call

theorem Socket.writePayload_taped (kind : SocketKind) (c : Nat) (p : Bytes) (n : ν)
    (tape : List Contact) :
    ∃ seen, Seen kind (ofWrite c p (writePayload kind c p n).1) seen ∧
      writePayload kind c p (Taped.mk n tape) =
        ((writePayload kind c p n).1, ⟨(writePayload kind c p n).2, tape ++ seen⟩) := by
  cases kind with
  | udp => exact ⟨_, .datagram (by decide) c p _, rfl⟩
  | datagram => exact ⟨_, .datagram (by decide) c p _, rfl⟩
  | stream =>
    by_cases hp : p.length < UInt32.size
    · rcases hw : Network.write c (Framing.lengthPrefix p.length) n with ⟨e | ⟨⟨⟩⟩, n'⟩
      · have hf : writePayload .stream c p n = (.error e, n') := by simp [writePayload, hp, hw]
        rw [hf]
        exact ⟨_, .broken c hp e, by simp [writePayload, hp, hw, Network.write]⟩
      · have hf : writePayload .stream c p n = Network.write c p n' := by
          simp [writePayload, hp, hw]
        rw [hf]
        exact ⟨_, .frame c hp _, by simp [writePayload, hp, hw, Network.write]⟩
    · have hf : writePayload .stream c p n = (.error .tooLongForPrefix, n) := by
        simp [writePayload, hp]
      rw [hf]
      exact ⟨[], .tooLong c (not_lt.mp hp), by simp [writePayload, hp]⟩

namespace Holder

variable {h h' : Holder ν} {p : Bytes}

theorem turn_taped {step : Step} {result : Option (Except SocketError Nat)}
    (ht : h.turn p = some (step, result, h')) (tape : List Contact) :
    ∃ seen, Seen h.kind step seen ∧ h'.kind = h.kind ∧
      (h.taped tape).turn p = some (step, result, h'.taped (tape ++ seen)) := by
  obtain ⟨kind, n, hold⟩ := h
  cases hold with
  | moved => simp [turn, take] at ht
  | disconnected =>
    rcases hn : Network.connect n with ⟨e | c, n'⟩
    · simp only [turn, take, hn, Option.some.injEq, Prod.mk.injEq] at ht
      obtain ⟨rfl, rfl, rfl⟩ := ht
      exact ⟨_, .refused e, rfl, by simp [turn, take, taped, Network.connect, hn]⟩
    · simp only [turn, take, hn, Option.some.injEq, Prod.mk.injEq] at ht
      obtain ⟨rfl, rfl, rfl⟩ := ht
      exact ⟨_, .connected c, rfl, by simp [turn, take, taped, Network.connect, hn]⟩
  | ready c =>
    obtain ⟨seen, hseen, hw⟩ := Socket.writePayload_taped kind c p n tape
    rcases hn : Socket.writePayload kind c p n with ⟨e | ⟨⟨⟩⟩, n'⟩
    · rw [hn] at hseen hw
      simp only [turn, take, hn, Option.some.injEq, Prod.mk.injEq] at ht
      obtain ⟨rfl, rfl, rfl⟩ := ht
      exact ⟨seen, hseen, rfl, by simp [turn, take, taped, hw]⟩
    · rw [hn] at hseen hw
      simp only [turn, take, hn, Option.some.injEq, Prod.mk.injEq] at ht
      obtain ⟨rfl, rfl, rfl⟩ := ht
      exact ⟨seen, hseen, rfl, by simp [turn, take, taped, hw]⟩

theorem loop_taped {steps : List Step} {result : Except SocketError Nat}
    (hl : h.loop p = some (steps, result, h')) (tape : List Contact) :
    ∃ seen, List.Forall₂ (Seen h.kind) steps seen ∧ h'.kind = h.kind ∧
      (h.taped tape).loop p = some (steps, result, h'.taped (tape ++ seen.flatten)) := by
  fun_induction loop h p generalizing steps tape with
  | case1 h hn => cases hl
  | case2 h step result' h'' ht =>
    simp only [Option.some.injEq, Prod.mk.injEq] at hl
    obtain ⟨rfl, rfl, rfl⟩ := hl
    obtain ⟨seen, hseen, hk, ht'⟩ := turn_taped ht tape
    exact ⟨[seen], .cons hseen .nil, hk, by simpa using loop_of_over ht'⟩
  | case3 h step h'' ht ih =>
    obtain ⟨⟨steps', result', last⟩, hl', he⟩ := Option.map_eq_some_iff.mp hl
    simp only [Prod.mk.injEq] at he
    obtain ⟨rfl, rfl, rfl⟩ := he
    obtain ⟨seen, hseen, hk, ht'⟩ := turn_taped ht tape
    obtain ⟨rest, hrest, hk', hl''⟩ := ih hl' (tape ++ seen)
    refine ⟨seen :: rest, .cons hseen (hk ▸ hrest), hk'.trans hk, ?_⟩
    rw [loop_of_again ht', hl'']
    simp

theorem sendEach_taped {ps : List Bytes} {calls : List Call} (hs : h.sendEach ps = some (calls, h'))
    (tape : List Contact) :
    ∃ seen, List.Forall₂ (Seen h.kind) (log calls) seen ∧
      (h.taped tape).sendEach ps = some (calls, h'.taped (tape ++ seen.flatten)) := by
  induction ps generalizing h calls tape with
  | nil =>
    simp only [sendEach, Option.some.injEq, Prod.mk.injEq] at hs
    obtain ⟨rfl, rfl⟩ := hs
    exact ⟨[], .nil, by simp [sendEach]⟩
  | cons p ps ih =>
    simp only [sendEach, Option.bind_eq_bind, Option.bind_eq_some_iff] at hs
    obtain ⟨⟨steps, result, h₁⟩, hl, ⟨calls', h₂⟩, hs', he⟩ := hs
    simp only [Option.pure_def, Option.some.injEq, Prod.mk.injEq] at he
    obtain ⟨rfl, rfl⟩ := he
    obtain ⟨seen, hseen, hk, hl'⟩ := loop_taped hl tape
    obtain ⟨rest, hrest, hr⟩ := ih hs' (tape ++ seen.flatten)
    refine ⟨seen ++ rest, List.rel_append hseen (hk ▸ hrest), ?_⟩
    simp only [sendEach, hl', hr, Option.bind_eq_bind, Option.bind_some]
    simp [taped]

end Holder

theorem Socket.sendAll_taped {s : Socket ν} {ps : List Bytes} {calls : List Call}
    (hs : (Holder.ofSocket s).sendEach ps = some (calls, Holder.ofSocket (s.sendAll ps).2))
    (hr : calls.map Call.result = (s.sendAll ps).1) :
    ∃ seen, List.Forall₂ (Seen s.kind) (log calls) seen ∧
      (s.taped []).sendAll ps = ((s.sendAll ps).1, (s.sendAll ps).2.taped seen.flatten) := by
  obtain ⟨seen, hseen, ht⟩ := Holder.sendEach_taped hs []
  obtain ⟨calls', -, hr', hs'⟩ := Holder.sendEach_ofSocket (s.taped []) ps
  have he : some (calls', Holder.ofSocket ((s.taped []).sendAll ps).2) =
      some (calls, (Holder.ofSocket (s.sendAll ps).2).taped seen.flatten) := hs'.symm.trans ht
  simp only [Option.some.injEq, Prod.mk.injEq] at he
  obtain ⟨rfl, hsocket⟩ := he
  refine ⟨seen, hseen, Prod.ext (hr'.symm.trans hr) (Holder.ofSocket_injective ?_)⟩
  exact hsocket

end Taping

namespace Socket

variable {ν : Type} [Network ν]

open Call Step

/-- Whatever goes wrong, the place for the connection is never found empty. A call takes at most two
turns; it tries to connect just if no connection is held, writes its payload at most once, and
succeeds just if that went well, and just then a connection is held afterwards. Between a failed
write and the next write there is a new connection. So no payload is written twice, and from when on
new connections work, at most one more call fails, one that uses the connection held until then. A
record of what the network is asked shows these steps and nothing else; on a datagram socket it has
one write for each payload. -/
theorem sends_conducted (s : Socket ν) (ps : List Bytes) :
    ∃ calls : List Call,
      (Holder.ofSocket s).sendEach ps = some (calls, Holder.ofSocket (s.sendAll ps).2) ∧
      calls.map payload = ps ∧ calls.map Call.result = (s.sendAll ps).1 ∧
      (∀ call ∈ calls,
        (call.before ≠ .moved ∧ call.after ≠ .moved) ∧
        call.steps.length ≤ 2 ∧
        call.steps.countP isConnecting = (if call.before = .disconnected then 1 else 0) ∧
        (call.steps.filterMap attempted?).Sublist [call.payload] ∧
        (call.result.isOk = true ↔ ∃ c, .wrote c call.payload ∈ call.steps) ∧
        (call.result.isOk = true ↔ ∃ c, call.after = .ready c)) ∧
      Path s.connection (log calls) (s.sendAll ps).2.connection ∧
      (∀ before c p e between step after,
        log calls = before ++ .failed c p e :: (between ++ step :: after) →
          ∀ c', step.held = some c' → .connected c' ∈ between) ∧
      ((s.connection.toList ++ (log calls).filterMap made?).Nodup →
        ∀ before c p e after, log calls = before ++ .failed c p e :: after →
          ∀ step ∈ after, step.held ≠ some c) ∧
      ((log calls).filterMap attempted?).Sublist ps ∧
      (∀ early late, calls = early ++ late → Steady (log late) →
        (late.filter fails).length ≤ 1 ∧
          ∀ call ∈ late, call.fails = true →
            ∃ c, call.before = .ready c ∧ late.head?.map Call.before = some (.ready c)) ∧
      ∃ seen : List (List Contact), List.Forall₂ (Seen s.kind) (log calls) seen ∧
        (s.taped []).sendAll ps = ((s.sendAll ps).1, (s.sendAll ps).2.taped seen.flatten) ∧
        (s.kind ≠ .stream →
          seen.flatten.filterMap Contact.written? = (log calls).filterMap attempted?) := by
  obtain ⟨calls, hc, hr, hl⟩ := Holder.sendEach_ofSocket s ps
  obtain ⟨seen, hseen, htaped⟩ := sendAll_taped hl hr
  refine ⟨calls, hl, hc.map_payload, hr, ?_, hc.path, ?_, ?_, hc.attempted, ?_,
    seen, hseen, htaped, written_flatten hseen⟩
  · intro call hm
    obtain ⟨held, left, h⟩ := hc.of_mem hm
    obtain ⟨hb, -, ha⟩ := h.ends
    refine ⟨⟨?_, ?_⟩, h.length_steps, h.countP_isConnecting, h.attempted, h.isOk_iff_wrote,
      h.isOk_iff_ready⟩
    · rw [hb]
      exact Hold.ofConnection_ne_moved held
    · rw [ha]
      exact Hold.ofConnection_ne_moved left
  · intro before c p e between step after he c' hs
    exact Path.connected_between (he ▸ hc.path) hs
  · intro hn before c p e after he
    rw [he] at hn
    exact Path.not_held_again (he ▸ hc.path) hn
  · intro early late he hs
    subst he
    obtain ⟨ps', held, hlate⟩ := hc.of_append
    obtain ⟨hone, hstale⟩ := hlate.fails_once hs
    refine ⟨hone, ?_⟩
    intro call hm hf
    obtain ⟨c, rfl, hb⟩ := hstale call hm hf
    refine ⟨c, hb, ?_⟩
    generalize (s.sendAll ps).2.connection = left at hlate
    cases hlate with
    | nil => cases hm
    | cons h _ => exact congrArg some h.ends.1

end Socket
end MetricPipeline
