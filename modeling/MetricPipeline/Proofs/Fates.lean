import Mathlib
import MetricPipeline.Delivery.Workers

namespace MetricPipeline

/-- The end that a payload comes to. -/
inductive Fate
  | sent
  | failed
  | discarded
  | crashed
  /-- It was in line when the last worker crashed. -/
  | left
deriving DecidableEq, Repr

def Outcome.fate : Outcome → Fate
  | sent _ => .sent
  | failed => .failed
  | crashed => .crashed

namespace Fate

/-- How the end of a payload is counted, if it is. What is counted goes back to the pool. -/
def event? (size : UInt64) : Fate → Option Telemetry.Event
  | sent => some (.sent size)
  | failed => some (.sendFailed size)
  | discarded => some (.droppedAtQueue size)
  | crashed | left => none

def isSettled : Fate → Bool
  | sent | failed | discarded => true
  | crashed | left => false

def isTried : Fate → Bool
  | sent | failed | crashed => true
  | discarded | left => false

end Fate

/-- Payloads with their ends, the first to end first. -/
abbrev Log := List (Buffer × Fate)

namespace Log

def payloads (log : Log) : List Buffer := log.map Prod.fst

def ending (log : Log) (f : Fate) : List Buffer := payloads (log.filter fun e => e.2 = f)

def settled (log : Log) : List Buffer := payloads (log.filter fun e => e.2.isSettled)

def tried (log : Log) : List Buffer := payloads (log.filter fun e => e.2.isTried)

def events (log : Log) : List Telemetry.Event :=
  log.filterMap fun e => e.2.event? e.1.length.toUInt64

variable (log log' : Log)

@[simp] theorem payloads_append : payloads (log ++ log') = payloads log ++ payloads log' := by
  simp [payloads]

@[simp] theorem ending_append (f : Fate) :
    ending (log ++ log') f = ending log f ++ ending log' f := by
  simp [ending]

@[simp] theorem settled_append : settled (log ++ log') = settled log ++ settled log' := by
  simp [settled]

@[simp] theorem tried_append : tried (log ++ log') = tried log ++ tried log' := by
  simp [tried]

@[simp] theorem events_append : events (log ++ log') = events log ++ events log' := by
  simp [events]

/-- The payloads of a log that came to one of several ends, one end after another. -/
theorem endings_of_nodup {fs : List Fate} (h : fs.Nodup) :
    (fs.flatMap (ending log)).Perm (payloads (log.filter fun e => e.2 ∈ fs)) := by
  induction fs with
  | nil => simp [payloads]
  | cons f fs ih =>
    obtain ⟨hf, hfs⟩ := List.nodup_cons.mp h
    -- What came to one of these ends came to the first of them or, as they differ, to a later one.
    have hp := List.filter_append_perm (fun e => e.2 = f) (log.filter fun e => e.2 ∈ f :: fs)
    have hfirst : (log.filter fun e => e.2 ∈ f :: fs).filter (fun e => e.2 = f) =
        log.filter fun e => e.2 = f := by
      rw [List.filter_filter]
      apply List.filter_congr
      intro e he
      by_cases hef : e.2 = f
      · simp [hef]
      · simp [hef]
    have hrest : (log.filter fun e => e.2 ∈ f :: fs).filter (fun e => !decide (e.2 = f)) =
        log.filter fun e => e.2 ∈ fs := by
      rw [List.filter_filter]
      apply List.filter_congr
      intro e he
      by_cases hef : e.2 = f
      · simp [hef, hf]
      · simp [hef]
    rw [hfirst, hrest] at hp
    rw [List.flatMap_cons]
    exact ((ih hfs).append_left _).trans (by simpa [ending, payloads] using hp.map Prod.fst)

theorem endings_perm :
    (ending log .sent ++ ending log .failed ++ ending log .discarded ++ ending log .crashed ++
      ending log .left).Perm (payloads log) := by
  have hn : [Fate.sent, .failed, .discarded, .crashed, .left].Nodup := by decide
  have hp := endings_of_nodup log hn
  have hall : (log.filter fun e => e.2 ∈ [Fate.sent, .failed, .discarded, .crashed, .left]) =
      log := by
    rw [List.filter_eq_self]
    rintro ⟨b, f⟩ he
    cases f <;> rfl
  rw [hall] at hp
  simpa using hp

theorem settled_perm :
    (ending log .sent ++ ending log .failed ++ ending log .discarded).Perm (settled log) := by
  have hn : [Fate.sent, .failed, .discarded].Nodup := by decide
  have hp := endings_of_nodup log hn
  have hset : (log.filter fun e => e.2 ∈ [Fate.sent, .failed, .discarded]) =
      log.filter fun e => e.2.isSettled := by
    apply List.filter_congr
    rintro ⟨b, f⟩ he
    cases f <;> rfl
  rw [hset] at hp
  simpa [settled] using hp

end Log

def totalLength (bs : List Buffer) : Nat := (bs.map Buffer.length).sum

@[simp] theorem totalLength_append (bs bs' : List Buffer) :
    totalLength (bs ++ bs') = totalLength bs + totalLength bs' := by
  simp [totalLength]

namespace Telemetry.Snapshot

def tally (s : Snapshot) (log : Log) : Snapshot :=
  { s with
    packetsSent := s.packetsSent + (Log.ending log .sent).length.toUInt64
    bytesSent := s.bytesSent + (totalLength (Log.ending log .sent)).toUInt64
    packetsDroppedByWriter := s.packetsDroppedByWriter + (Log.ending log .failed).length.toUInt64
    bytesDroppedByWriter :=
      s.bytesDroppedByWriter + (totalLength (Log.ending log .failed)).toUInt64
    packetsDroppedAtQueue :=
      s.packetsDroppedAtQueue + (Log.ending log .discarded).length.toUInt64
    bytesDroppedAtQueue :=
      s.bytesDroppedAtQueue + (totalLength (Log.ending log .discarded)).toUInt64 }

theorem tally_nil (s : Snapshot) : s.tally [] = s := by
  simp [tally, Log.ending, Log.payloads, totalLength]

theorem tally_append (s : Snapshot) (log log' : Log) :
    s.tally (log ++ log') = (s.tally log).tally log' := by
  simp [tally, UInt64.add_assoc]

theorem foldl_record (s : Snapshot) (log : Log) :
    (Log.events log).foldl record s = s.tally log := by
  induction log generalizing s with
  | nil => rw [tally_nil]; rfl
  | cons e log ih =>
    obtain ⟨b, f⟩ := e
    have hf : (Log.events [(b, f)]).foldl record s = s.tally [(b, f)] := by
      cases f <;> simp [Log.events, Fate.event?, record, tally, Log.ending, Log.payloads,
        totalLength]
    have hc : (b, f) :: log = [(b, f)] ++ log := rfl
    rw [hc, Log.events_append, List.foldl_append, hf, ih, tally_append]

end Telemetry.Snapshot

theorem Telemetry.counts_foldl_record (es : List Event) (t : Telemetry) :
    (es.foldl record t).counts = es.foldl Snapshot.record t.counts := by
  induction es generalizing t with
  | nil => rfl
  | cons e es ih => exact ih _

namespace Outbox

def withWaiting (o : Outbox) (bs : List Buffer) : Outbox :=
  { o with queue := { o.queue with waiting := bs } }

def settle (o : Outbox) (b : Buffer) (f : Fate) : Outbox :=
  match f.event? b.length.toUInt64 with
  | some e => (o.record e).release b
  | none => o

def shut (o : Outbox) (last : Bool) : Outbox := if last then o.close else o

theorem shut_waiting_of_nil {o : Outbox} (h : o.queue.waiting = []) (last : Bool) :
    (o.shut last).queue.waiting = [] := by
  cases last
  · exact h
  · rfl

theorem take_of_nil {o : Outbox} (h : o.queue.waiting = []) : o.take = none := by
  simp [take, Queue.take, h]

theorem take_of_cons {o : Outbox} {b : Buffer} {bs : List Buffer}
    (h : o.queue.waiting = b :: bs) : o.take = some (b, o.withWaiting bs) := by
  simp [take, Queue.take, h, withWaiting]

variable (o : Outbox) (b : Buffer) (f : Fate)

@[simp] theorem shut_telemetry (last : Bool) : (o.shut last).telemetry = o.telemetry := by
  cases last <;> rfl

@[simp] theorem shut_pool (last : Bool) : (o.shut last).pool = o.pool := by
  cases last <;> rfl

@[simp] theorem settle_sent :
    o.settle b .sent = (o.record (.sent b.length.toUInt64)).release b := rfl

@[simp] theorem settle_failed :
    o.settle b .failed = (o.record (.sendFailed b.length.toUInt64)).release b := rfl

@[simp] theorem settle_discarded : o.settle b .discarded = o.drop b := rfl

@[simp] theorem drop_queue : (o.drop b).queue = o.queue := rfl

@[simp] theorem settle_queue : (o.settle b f).queue = o.queue := by
  cases f <;> rfl

theorem settle_telemetry :
    (o.settle b f).telemetry = (Log.events [(b, f)]).foldl Telemetry.record o.telemetry := by
  cases f <;> rfl

theorem settle_pool : (o.settle b f).pool = (Log.settled [(b, f)]).foldl Pool.release o.pool := by
  cases f <;> rfl

end Outbox

namespace Worker

def payload? : Worker → Option Buffer
  | sending b _ => some b
  | _ => none

def isStopping : Worker → Bool
  | listening stopping | sending _ stopping => stopping
  | _ => false

end Worker

namespace Delivery

variable {τ : Type} [Transport τ]

def waiting (d : Delivery τ) : List Buffer := d.outbox.queue.waiting

/-- The payloads that have come to no end: those in the workers' hands and those in line. -/
def pending (d : Delivery τ) : List Buffer := d.workers.filterMap Worker.payload? ++ d.waiting

def closes (d : Delivery τ) (w : Nat) (x : Worker) : Bool :=
  (d.workers.set w x).all Worker.isGone && !d.heldOpen

/-- What is left in line when worker `w` crashes as the last one. -/
def leftBehind (d : Delivery τ) (w : Nat) : List Buffer :=
  if d.closes w .crashed then d.waiting else []

/-- The payloads that come to their end in a move. -/
def fates (d : Delivery τ) : Move → Log
  | .take w =>
    match d.workers[w]?, d.waiting with
    | some (.listening true), b :: _ => if d.drain then [] else [(b, .discarded)]
    | _, _ => []
  | .send w =>
    match d.workers[w]? with
    | some (.sending b _) =>
      match (Transport.send b.bytes d.transport).1 with
      | .crashed => (b, .crashed) :: (d.leftBehind w).map (·, .left)
      | outcome => [(b, outcome.fate)]
    | _ => []
  | .stop _ => []

/-- All that a move can do, with the log of it. -/
inductive Moved (d : Delivery τ) : Log → Delivery τ → Prop
  | idle : Moved d [] d
  | heed {w : Nat} (hw : d.workers[w]? = some (.listening false)) (hs : d.mayStop = true) :
      Moved d [] { d with workers := d.workers.set w (.listening true) }
  | take {w : Nat} {stopping : Bool} {b : Buffer} {bs : List Buffer}
      (hw : d.workers[w]? = some (.listening stopping)) (hq : d.waiting = b :: bs)
      (hd : stopping = true → d.drain = true) :
      Moved d []
        { d with
          outbox := d.outbox.withWaiting bs
          workers := d.workers.set w (.sending b stopping) }
  | discard {w : Nat} {b : Buffer} {bs : List Buffer}
      (hw : d.workers[w]? = some (.listening true)) (hq : d.waiting = b :: bs)
      (hd : d.drain = false) :
      Moved d [(b, .discarded)]
        { d with outbox := (d.outbox.withWaiting bs).settle b .discarded }
  | finish {w : Nat} (hw : d.workers[w]? = some (.listening true)) (hq : d.waiting = []) :
      Moved d []
        { d with
          outbox := d.outbox.shut (d.closes w .finished)
          workers := d.workers.set w .finished }
  | settle {w : Nat} {stopping : Bool} {b : Buffer} {t : τ} {outcome : Outcome}
      (hw : d.workers[w]? = some (.sending b stopping))
      (hs : Transport.send b.bytes d.transport = (outcome, t)) (hc : outcome ≠ .crashed) :
      Moved d [(b, outcome.fate)]
        { d with
          transport := t
          outbox := d.outbox.settle b outcome.fate
          workers := d.workers.set w (.listening stopping) }
  | crash {w : Nat} {stopping : Bool} {b : Buffer} {t : τ}
      (hw : d.workers[w]? = some (.sending b stopping))
      (hs : Transport.send b.bytes d.transport = (.crashed, t)) :
      Moved d ((b, .crashed) :: (d.leftBehind w).map (·, .left))
        { d with
          transport := t
          outbox := d.outbox.shut (d.closes w .crashed)
          workers := d.workers.set w .crashed }

omit [Transport τ] in
theorem setWorker_eq (d : Delivery τ) (w : Nat) (x : Worker) :
    d.setWorker w x =
      { d with outbox := d.outbox.shut (d.closes w x), workers := d.workers.set w x } := by
  by_cases h : d.closes w x = true
  · simp only [closes] at h
    simp only [setWorker, closes, Outbox.shut, h, if_true]
  · simp only [closes, Bool.not_eq_true] at h
    simp only [setWorker, closes, Outbox.shut, h, Bool.false_eq_true, if_false]

omit [Transport τ] in
theorem setWorker_of_staying {d : Delivery τ} {w : Nat} {x y : Worker}
    (hw : d.workers[w]? = some x) (hy : y.isGone = false) :
    d.setWorker w y = { d with workers := d.workers.set w y } := by
  obtain ⟨hlt, -⟩ := List.getElem?_eq_some_iff.mp hw
  have hm : y ∈ d.workers.set w y := List.mem_set hlt y
  have ha : (d.workers.set w y).all Worker.isGone = false := by
    rw [List.all_eq_false]
    exact ⟨y, hm, by simp [hy]⟩
  simp [setWorker_eq, closes, ha, Outbox.shut]

theorem moved_take (d : Delivery τ) (w : Nat) : Moved d (d.fates (.take w)) (d.step (.take w)) := by
  cases hw : d.workers[w]? with
  | none => simpa [step, fates, hw] using Moved.idle
  | some x =>
    cases x with
    | listening stopping =>
      cases hq : d.waiting with
      | nil =>
        have ht := Outbox.take_of_nil hq
        cases stopping with
        | false => simpa [step, fates, takeStep, hw, hq, ht] using Moved.idle
        | true =>
          simpa [step, fates, takeStep, hw, hq, ht, setWorker_eq] using Moved.finish hw hq
      | cons b bs =>
        have ht := Outbox.take_of_cons hq
        by_cases hd : (stopping && !d.drain) = true
        · obtain ⟨rfl, hn⟩ : stopping = true ∧ d.drain = false := by simpa using hd
          simpa [step, fates, takeStep, hw, hq, ht, hn] using Moved.discard hw hq hn
        · have hset : ({ d with outbox := d.outbox.withWaiting bs } : Delivery τ).setWorker w
              (.sending b stopping) = _ := setWorker_of_staying hw rfl
          have hn : stopping = true → d.drain = true := by simpa using hd
          have hf : d.fates (.take w) = [] := by
            cases stopping with
            | false => simp [fates, hw]
            | true => simp [fates, hw, hq, hn rfl]
          rw [hf]
          simpa [step, takeStep, hw, ht, hd, hset] using Moved.take hw hq hn
    | sending b stopping => simpa [step, fates, hw] using Moved.idle
    | finished => simpa [step, fates, hw] using Moved.idle
    | crashed => simpa [step, fates, hw] using Moved.idle

theorem moved_send (d : Delivery τ) (w : Nat) : Moved d (d.fates (.send w)) (d.step (.send w)) := by
  cases hw : d.workers[w]? with
  | none => simpa [step, fates, hw] using Moved.idle
  | some x =>
    cases x with
    | sending b stopping =>
      rcases hs : Transport.send b.bytes d.transport with ⟨outcome, t⟩
      have hset (o : Outbox) : ({ d with transport := t, outbox := o } : Delivery τ).setWorker w
          (.listening stopping) = _ := setWorker_of_staying hw rfl
      cases outcome with
      | sent n =>
        have hm := Moved.settle hw hs (by simp)
        simpa [step, fates, sendStep, Delivery.settle, Outcome.fate, hw, hs, hset] using hm
      | failed =>
        have hm := Moved.settle hw hs (by simp)
        simpa [step, fates, sendStep, Delivery.settle, Outcome.fate, hw, hs, hset] using hm
      | crashed =>
        simpa [step, fates, sendStep, hw, hs, setWorker_eq, closes] using Moved.crash hw hs
    | listening stopping => simpa [step, fates, hw] using Moved.idle
    | finished => simpa [step, fates, hw] using Moved.idle
    | crashed => simpa [step, fates, hw] using Moved.idle

theorem moved_stop (d : Delivery τ) (w : Nat) : Moved d (d.fates (.stop w)) (d.step (.stop w)) := by
  have hf : d.fates (.stop w) = [] := rfl
  simp only [hf, step]
  split
  · rename_i hw
    split
    · rename_i hs
      rw [setWorker_of_staying hw rfl]
      exact .heed hw hs
    · exact .idle
  · exact .idle

theorem moved (d : Delivery τ) (m : Move) : Moved d (d.fates m) (d.step m) := by
  cases m with
  | take w => exact d.moved_take w
  | send w => exact d.moved_send w
  | stop w => exact d.moved_stop w

theorem set_perm {α : Type} {l : List α} {i : Nat} {x : α} (h : l[i]? = some x) (y : α) :
    (x :: l.set i y).Perm (y :: l) := by
  obtain ⟨hi, rfl⟩ := List.getElem?_eq_some_iff.mp h
  calc
    (l[i] :: l.set i y).Perm (l[i] :: y :: l.eraseIdx i) :=
      (List.set_perm_cons_eraseIdx hi y).cons _
    _ |>.Perm (y :: l[i] :: l.eraseIdx i) := .swap _ _ _
    _ |>.Perm (y :: l) := (List.getElem_cons_eraseIdx_perm hi).cons _

omit [Transport τ] in
theorem pending_of_gone {d : Delivery τ} (h : ∀ x ∈ d.workers, x.isGone = true) :
    d.pending = d.waiting := by
  have hn : d.workers.filterMap Worker.payload? = [] := by
    rw [List.filterMap_eq_nil_iff]
    intro x hx
    have hg := h x hx
    cases x with
    | finished | crashed => rfl
    | listening stopping => rfl
    | sending b stopping => simp [Worker.isGone] at hg
  rw [pending, hn, List.nil_append]

namespace Moved

variable {d d' : Delivery τ} {log : Log}

omit [Transport τ] in
theorem payloads_set {w : Nat} {x : Worker} (hw : d.workers[w]? = some x) (y : Worker) :
    (x.payload?.toList ++ (d.workers.set w y).filterMap Worker.payload?).Perm
      (y.payload?.toList ++ d.workers.filterMap Worker.payload?) := by
  have hp := (set_perm hw y).filterMap Worker.payload?
  have hc (z : Worker) (zs : List Worker) : (z :: zs).filterMap Worker.payload? =
      z.payload?.toList ++ zs.filterMap Worker.payload? := by
    cases hz : z.payload? <;> simp [hz]
  rwa [hc, hc] at hp

omit [Transport τ] in
theorem leftBehind_append (w : Nat) :
    d.leftBehind w ++ (d.outbox.shut (d.closes w .crashed)).queue.waiting = d.waiting := by
  unfold leftBehind Outbox.shut
  split
  · simp [Outbox.close, Queue.close]
  · rfl

/-- No payload is lost or made up. -/
theorem pending_perm (h : Moved d log d') :
    (Log.payloads log ++ d'.pending).Perm d.pending := by
  have count {w : Nat} {x : Worker} (hw : d.workers[w]? = some x) (y : Worker) (b : Buffer) :=
    (payloads_set hw y).count_eq b
  -- Up to order, so it is enough to count one payload before and after.
  rw [List.perm_iff_count]
  intro c
  cases h with
  | idle => rfl
  | heed hw hs =>
    have hc := count hw (.listening true) c
    simp only [pending, waiting, Log.payloads, Worker.payload?, List.map_nil, Option.toList_none,
      List.count_append, List.count_nil] at hc ⊢
    omega
  | @take w stopping b bs hw hq hd =>
    have hc := count hw (.sending b stopping) c
    simp only [waiting] at hq
    simp only [pending, waiting, Log.payloads, Worker.payload?, Outbox.withWaiting, hq,
      List.map_nil, Option.toList_none, Option.toList_some, List.count_append, List.count_cons,
      List.count_nil] at hc ⊢
    omega
  | discard hw hq hd =>
    simp only [waiting] at hq
    simp only [pending, waiting, Log.payloads, Outbox.settle_queue, Outbox.withWaiting, hq,
      List.map_cons, List.map_nil, List.count_append, List.count_cons, List.count_nil]
    omega
  | @finish w hw hq =>
    have hc := count hw .finished c
    have hs := Outbox.shut_waiting_of_nil hq (d.closes w .finished)
    simp only [waiting] at hq
    simp only [pending, waiting, Log.payloads, Worker.payload?, hs, hq, List.map_nil,
      Option.toList_none, List.count_append, List.count_nil] at hc ⊢
    omega
  | @settle w stopping b t outcome hw hs ho =>
    have hc := count hw (.listening stopping) c
    simp only [pending, waiting, Log.payloads, Worker.payload?, Outbox.settle_queue, List.map_cons,
      List.map_nil, Option.toList_none, Option.toList_some, List.count_append, List.count_cons,
      List.count_nil] at hc ⊢
    omega
  | @crash w stopping b t hw hs =>
    have hc := count hw .crashed c
    have hl := congrArg (List.count c) (leftBehind_append (d := d) w)
    simp only [pending, waiting, Log.payloads, Worker.payload?, List.map_cons, List.map_map,
      Function.comp_def, List.map_id', Option.toList_none, Option.toList_some, List.count_append,
      List.count_cons, List.count_nil] at hc hl ⊢
    omega

theorem drain_eq (h : Moved d log d') : d'.drain = d.drain := by
  cases h <;> rfl

theorem stopped_eq (h : Moved d log d') : d'.stopped = d.stopped := by
  cases h <;> rfl

theorem length_workers (h : Moved d log d') : d'.workers.length = d.workers.length := by
  cases h <;> simp

/-- The counters change by what is logged, and by nothing else. -/
theorem telemetry_eq (h : Moved d log d') :
    d'.outbox.telemetry = (Log.events log).foldl Telemetry.record d.outbox.telemetry := by
  cases h with
  | idle | heed | take => rfl
  | discard hw hq hd => exact Outbox.settle_telemetry _ _ _
  | finish => simp [Log.events]
  | settle => exact Outbox.settle_telemetry _ _ _
  | crash =>
    simp [Log.events, Fate.event?, List.filterMap_map]

/-- The pool gets back the buffers of the settled payloads, and no other. -/
theorem pool_eq (h : Moved d log d') :
    d'.outbox.pool = (Log.settled log).foldl Pool.release d.outbox.pool := by
  cases h with
  | idle | heed | take => rfl
  | discard hw hq hd => exact Outbox.settle_pool _ _ _
  | finish => simp [Log.settled, Log.payloads]
  | settle => exact Outbox.settle_pool _ _ _
  | crash =>
    simp [Log.settled, Log.payloads, Fate.isSettled, List.filter_map, Function.comp_def]

theorem finished_waiting (h : Moved d log d') (hf : .finished ∈ d.workers → d.waiting = [])
    (hm : .finished ∈ d'.workers) : d'.waiting = [] := by
  -- A worker that changes to anything else leaves those that have finished as they are.
  have keep {w : Nat} {x : Worker} (hx : x ≠ .finished)
      (hm : Worker.finished ∈ d.workers.set w x) : d.waiting = [] :=
    hf ((List.mem_or_eq_of_mem_set hm).resolve_right (Ne.symm hx))
  cases h with
  | idle => exact hf hm
  | heed hw hs => exact keep (by simp) hm
  | take hw hq hd => simp [keep (by simp) hm] at hq
  | discard hw hq hd => simp [hf hm] at hq
  | finish hw hq => exact Outbox.shut_waiting_of_nil hq _
  | @settle w stopping b t outcome hw hs ho =>
    have hk := keep (by simp) hm
    simpa [waiting] using hk
  | crash hw hs => exact Outbox.shut_waiting_of_nil (keep (by simp) hm) _

theorem count_crashed (h : Moved d log d') :
    d'.workers.count .crashed = d.workers.count .crashed + (Log.ending log .crashed).length := by
  have count {w : Nat} {x : Worker} (hw : d.workers[w]? = some x) (y : Worker) :=
    (set_perm hw y).count_eq .crashed
  cases h with
  | idle | discard => rfl
  | heed hw hs =>
    have hc := count hw (.listening true)
    simpa [Log.ending, Log.payloads] using hc
  | @take w stopping b bs hw hq hd =>
    have hc := count hw (.sending b stopping)
    simpa [Log.ending, Log.payloads] using hc
  | finish hw hq =>
    have hc := count hw .finished
    simpa [Log.ending, Log.payloads] using hc
  | @settle w stopping b t outcome hw hs ho =>
    have hc := count hw (.listening stopping)
    have hf : outcome.fate ≠ .crashed := by cases outcome <;> simp_all [Outcome.fate]
    simpa [Log.ending, Log.payloads, hf] using hc
  | crash hw hs =>
    have hc := count hw .crashed
    simpa [Log.ending, Log.payloads, List.filter_map, Function.comp_def] using hc

end Moved
end Delivery
end MetricPipeline
