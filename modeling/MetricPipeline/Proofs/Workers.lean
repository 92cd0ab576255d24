import MetricPipeline.Proofs.Fates

namespace MetricPipeline

inductive Happening
  | move (m : Move)
  /-- The workers are told to stop. -/
  | signal
  /-- The last one who could enqueue anything is gone. -/
  | desert
deriving DecidableEq

def sendAll {τ : Type} [Transport τ] : List Buffer → τ → List Outcome × τ
  | [], t => ([], t)
  | b :: bs, t =>
    let (outcome, t) := Transport.send b.bytes t
    let (outcomes, t) := sendAll bs t
    (outcome :: outcomes, t)

theorem sendAll_append {τ : Type} [Transport τ] (bs bs' : List Buffer) (t : τ) :
    sendAll (bs ++ bs') t =
      ((sendAll bs t).1 ++ (sendAll bs' (sendAll bs t).2).1, (sendAll bs' (sendAll bs t).2).2) := by
  induction bs generalizing t with
  | nil => rfl
  | cons b bs ih => simp only [List.cons_append, sendAll, ih]

def Log.triedFates (log : Log) : List Fate := (log.filter fun e => e.2.isTried).map Prod.snd

@[simp] theorem Log.triedFates_append (log log' : Log) :
    triedFates (log ++ log') = triedFates log ++ triedFates log' := by
  simp [triedFates]

namespace Delivery

variable {τ : Type} [Transport τ]

namespace Moved

variable {d d' : Delivery τ} {log : Log}

theorem sendAll_tried (h : Moved d log d') :
    (sendAll (Log.tried log) d.transport).2 = d'.transport ∧
      (sendAll (Log.tried log) d.transport).1.map Outcome.fate = Log.triedFates log := by
  cases h with
  | idle | heed | take | discard | finish => exact ⟨rfl, rfl⟩
  | @settle w stopping b t outcome hw hs ho =>
    have ht : outcome.fate.isTried = true := by cases outcome <;> rfl
    simp [Log.tried, Log.triedFates, Log.payloads, ht, sendAll, hs]
  | @crash w stopping b t hw hs =>
    simp [Log.tried, Log.triedFates, Log.payloads, Fate.isTried, List.filter_map,
      Function.comp_def, sendAll, hs, Outcome.fate]

/-- Payloads are left behind only by crashed workers: one that has finished found none in line. -/
theorem left_crashed (h : Moved d log d') (hf : .finished ∈ d.workers → d.waiting = [])
    (hl : Log.ending log .left ≠ []) : ∀ x ∈ d'.workers, x = .crashed := by
  cases h with
  | idle | heed | take | finish => exact absurd rfl hl
  | discard hw hq hd => simp [Log.ending, Log.payloads] at hl
  | @settle w stopping b t outcome hw hs ho =>
    have hn : outcome.fate ≠ .left := by cases outcome <;> simp [Outcome.fate]
    simp [Log.ending, Log.payloads, hn] at hl
  | @crash w stopping b t hw hs =>
    have hb : d.leftBehind w ≠ [] := by
      intro hb
      simp [hb, Log.ending, Log.payloads] at hl
    -- Something was left behind, so the queue closed on it: no other worker is at work.
    unfold leftBehind at hb
    split at hb
    · rename_i hc
      intro x hx
      have hg : x.isGone = true := by
        simp only [closes, Bool.and_eq_true, List.all_eq_true] at hc
        exact hc.1 x hx
      cases x with
      | finished =>
        have hm := (List.mem_or_eq_of_mem_set hx).resolve_right (by simp)
        exact absurd (hf hm) hb
      | crashed => rfl
      | listening stopping => simp [Worker.isGone] at hg
      | sending b stopping => simp [Worker.isGone] at hg
    · exact absurd rfl hb

theorem busy (h : Moved d log d') (hc : ∀ x ∈ d.workers, x = .crashed) : d' = d ∧ log = [] := by
  have crashed {w : Nat} {x : Worker} (hw : d.workers[w]? = some x) : x = .crashed :=
    hc x (List.mem_of_getElem? hw)
  cases h with
  | idle => exact ⟨rfl, rfl⟩
  | heed hw | take hw | discard hw | finish hw | settle hw | crash hw => cases crashed hw

theorem stopping_told (h : Moved d log d')
    (hd : ∀ x ∈ d.workers, x.isStopping = true → d.stopped = true ∨ d.waiting = []) :
    ∀ x ∈ d'.workers, x.isStopping = true → d'.stopped = true ∨ d'.waiting = [] := by
  intro x hx hst
  cases h with
  | idle => exact hd x hx hst
  | heed hw hs =>
    simp only [mayStop, Bool.or_eq_true, Bool.and_eq_true, List.isEmpty_iff] at hs
    exact hs.imp_right And.right
  | @take w stopping b bs hw hq hn =>
    -- A payload was in line, so whoever is stopping was told to.
    left
    rcases List.mem_or_eq_of_mem_set hx with hm | rfl
    · exact (hd x hm hst).resolve_right (by simp [hq])
    · exact (hd _ (List.mem_of_getElem? hw) hst).resolve_right (by simp [hq])
  | discard hw hq hn =>
    left
    exact (hd x hx hst).resolve_right (by simp [hq])
  | finish hw hq => exact .inr (Outbox.shut_waiting_of_nil hq _)
  | @settle w stopping b t outcome hw hs ho =>
    have hw' : ({ d with outbox := d.outbox.settle b outcome.fate } : Delivery τ).waiting =
        d.waiting := by simp [waiting]
    rcases List.mem_or_eq_of_mem_set hx with hm | rfl
    · exact (hd x hm hst).imp_right fun hq => hw'.trans hq
    · exact (hd _ (List.mem_of_getElem? hw) hst).imp_right fun hq => hw'.trans hq
  | crash hw hs =>
    rcases List.mem_or_eq_of_mem_set hx with hm | rfl
    · exact (hd x hm hst).imp_right fun hq => Outbox.shut_waiting_of_nil hq _
    · simp [Worker.isStopping] at hst

/-- Only a worker that was told to stop discards, and only if it is not to drain. -/
theorem discarded_told (h : Moved d log d')
    (hd : ∀ x ∈ d.workers, x.isStopping = true → d.stopped = true ∨ d.waiting = [])
    (hl : Log.ending log .discarded ≠ []) : d.drain = false ∧ d.stopped = true := by
  cases h with
  | idle | heed | take | finish => exact absurd rfl hl
  | discard hw hq hn =>
    exact ⟨hn, (hd _ (List.mem_of_getElem? hw) rfl).resolve_right (by simp [hq])⟩
  | @settle w stopping b t outcome hw hs ho =>
    have hf : outcome.fate ≠ .discarded := by cases outcome <;> simp [Outcome.fate]
    simp [Log.ending, Log.payloads, hf] at hl
  | crash hw hs =>
    simp [Log.ending, Log.payloads, List.filter_map, Function.comp_def] at hl

end Moved

def staffed (d : Delivery τ) (n : Nat) : Delivery τ :=
  { d with workers := crew n, stopped := false }

def happen (d : Delivery τ) : Happening → Delivery τ
  | .move m => d.step m
  | .signal => { d with stopped := true }
  | .desert => { d with orphaned := true }

def after (d : Delivery τ) (hs : List Happening) : Delivery τ := hs.foldl happen d

def entries (d : Delivery τ) : Happening → Log
  | .move m => d.fates m
  | .signal | .desert => []

def chronicle (d : Delivery τ) : List Happening → Log
  | [] => []
  | h :: hs => d.entries h ++ (d.happen h).chronicle hs

theorem chronicle_induction {motive : Log → Delivery τ → Prop} {d : Delivery τ}
    (start : motive [] d)
    (next : ∀ log d h, motive log d → motive (log ++ d.entries h) (d.happen h))
    (hs : List Happening) : motive (d.chronicle hs) (d.after hs) := by
  -- The log of the time before is carried along: it is what the motive is about after each step.
  suffices h : ∀ log d, motive log d → motive (log ++ d.chronicle hs) (d.after hs) from
    h [] d start
  induction hs with
  | nil =>
    intro log d hd
    simpa [chronicle, after] using hd
  | cons h hs ih =>
    intro log d hd
    have hn := ih _ _ (next log d h hd)
    simpa [chronicle, after] using hn

theorem stopped_after {d : Delivery τ} {hs : List Happening} (h : (d.after hs).stopped = true) :
    d.stopped = true ∨ .signal ∈ hs := by
  induction hs generalizing d with
  | nil => exact .inl h
  | cons e hs ih =>
    rcases ih h with hd | hd
    · cases e with
      | move m => exact .inl (by simpa [happen, (d.moved m).stopped_eq] using hd)
      | signal => exact .inr (by simp)
      | desert => exact .inl hd
    · exact .inr (List.mem_cons_of_mem _ hd)

/-- How things stand after some time, with the log of it: what came to an end is accounted for, what
did not is still there, and what workers may do is bound by how they were told to stop. -/
structure Ledger (d₀ : Delivery τ) (log : Log) (d : Delivery τ) : Prop where
  pending : (Log.payloads log ++ d.pending).Perm d₀.pending
  telemetry : d.outbox.telemetry = (Log.events log).foldl Telemetry.record d₀.outbox.telemetry
  pool : d.outbox.pool = (Log.settled log).foldl Pool.release d₀.outbox.pool
  transport : (sendAll (Log.tried log) d₀.transport).2 = d.transport
  fates : (sendAll (Log.tried log) d₀.transport).1.map Outcome.fate = Log.triedFates log
  drain : d.drain = d₀.drain
  crew : d.workers.length = d₀.workers.length
  crashed : d.workers.count .crashed = d₀.workers.count .crashed + (Log.ending log .crashed).length
  finished : .finished ∈ d.workers → d.waiting = []
  left : Log.ending log .left ≠ [] → ∀ x ∈ d.workers, x = .crashed
  stopping : ∀ x ∈ d.workers, x.isStopping = true → d.stopped = true ∨ d.waiting = []
  discarded : Log.ending log .discarded ≠ [] → d.drain = false ∧ d.stopped = true

theorem ledger_start (d : Delivery τ) (n : Nat) : Ledger (d.staffed n) [] (d.staffed n) := by
  have hx (x : Worker) (hx : x ∈ (d.staffed n).workers) : x = .listening false :=
    List.eq_of_mem_replicate hx
  refine ⟨.refl _, rfl, rfl, rfl, rfl, rfl, rfl, rfl, ?_, by simp [Log.ending, Log.payloads], ?_,
    by simp [Log.ending, Log.payloads]⟩
  · intro hm
    cases hx _ hm
  · intro x hm hst
    rw [hx x hm] at hst
    simp [Worker.isStopping] at hst

theorem Ledger.moved {d₀ d d' : Delivery τ} {log log' : Log} (h : Ledger d₀ log d)
    (hm : Moved d log' d') : Ledger d₀ (log ++ log') d' := by
  obtain ⟨ht, hf⟩ := hm.sendAll_tried
  refine ⟨?_, ?_, ?_, ?_, ?_, hm.drain_eq.trans h.drain, hm.length_workers.trans h.crew, ?_,
    hm.finished_waiting h.finished, ?_, hm.stopping_told h.stopping, ?_⟩
  · rw [Log.payloads_append, List.append_assoc]
    exact (hm.pending_perm.append_left _).trans h.pending
  · rw [hm.telemetry_eq, h.telemetry, Log.events_append, List.foldl_append]
  · rw [hm.pool_eq, h.pool, Log.settled_append, List.foldl_append]
  · rw [Log.tried_append, sendAll_append, h.transport, ht]
  · rw [Log.tried_append, sendAll_append, h.transport, List.map_append, h.fates, hf,
      Log.triedFates_append]
  · rw [hm.count_crashed, h.crashed, Log.ending_append, List.length_append, Nat.add_assoc]
  · intro hl
    by_cases hn : Log.ending log .left = []
    · rw [Log.ending_append, hn, List.nil_append] at hl
      exact hm.left_crashed h.finished hl
    -- Where payloads were left before, nobody moves any more.
    · rw [(hm.busy (h.left hn)).1]
      exact h.left hn
  · intro hl
    rw [hm.drain_eq, hm.stopped_eq]
    by_cases hn : Log.ending log .discarded = []
    · rw [Log.ending_append, hn, List.nil_append] at hl
      exact hm.discarded_told h.stopping hl
    · exact h.discarded hn

theorem Ledger.happen {d₀ d : Delivery τ} {log : Log} (h : Ledger d₀ log d) (e : Happening) :
    Ledger d₀ (log ++ d.entries e) (d.happen e) := by
  cases e with
  | move m => exact h.moved (d.moved m)
  | signal =>
    simp only [entries, List.append_nil]
    exact ⟨h.pending, h.telemetry, h.pool, h.transport, h.fates, h.drain, h.crew, h.crashed,
      h.finished, h.left, fun _ _ _ => .inl rfl, fun hl => ⟨(h.discarded hl).1, rfl⟩⟩
  | desert =>
    simp only [entries, List.append_nil]
    exact ⟨h.pending, h.telemetry, h.pool, h.transport, h.fates, h.drain, h.crew, h.crashed,
      h.finished, h.left, h.stopping, h.discarded⟩

theorem ledger_after (d : Delivery τ) (n : Nat) (hs : List Happening) :
    Ledger (d.staffed n) ((d.staffed n).chronicle hs) ((d.staffed n).after hs) :=
  chronicle_induction (d.ledger_start n) (fun _ _ e h => h.happen e) hs

/-- How things stand with one worker: payloads came to their ends in the order of the queue, those
that were tried before all others. -/
structure Single (d₀ : Delivery τ) (log : Log) (d : Delivery τ) (x : Worker) : Prop where
  workers : d.workers = [x]
  order : Log.payloads log ++ x.payload?.toList ++ d.waiting = d₀.waiting
  /-- Once a payload was not tried, no payload will be. -/
  tried_first : ∃ tries rest, log = tries ++ rest ∧ (∀ e ∈ tries, e.2.isTried = true) ∧
    (∀ e ∈ rest, e.2.isTried = false) ∧
      (rest ≠ [] → x.isGone = true ∨ x = .listening true ∧ d.drain = false)

theorem Single.moved {d₀ d d' : Delivery τ} {log log' : Log} {x : Worker}
    (h : Single d₀ log d x) (hm : Moved d log' d') : ∃ y, Single d₀ (log ++ log') d' y := by
  obtain ⟨hws, ho, tries, rest, rfl, ht, hr, hlast⟩ := h
  have worker {w : Nat} {y : Worker} (hw : d.workers[w]? = some y) : w = 0 ∧ y = x := by
    rw [hws] at hw
    cases w with
    | zero => exact ⟨rfl, by simpa using hw.symm⟩
    | succ w => simp at hw
  -- A worker that is neither gone nor emptying the queue has only tried payloads so far.
  have only_tries (hg : x.isGone = false) (hx : x = .listening true → d.drain = true) :
      rest = [] := by
    by_contra hn
    rcases hlast hn with h | ⟨h, hd⟩
    · simp [h] at hg
    · simp [hx h] at hd
  cases hm with
  | idle => exact ⟨x, hws, by simpa using ho, tries, rest, by simp, ht, hr, hlast⟩
  | heed hw hs =>
    obtain ⟨rfl, rfl⟩ := worker hw
    have hn := only_tries rfl (by simp)
    refine ⟨.listening true, by simp [hws], by simpa [Worker.payload?, waiting] using ho, tries,
      rest, by simp, ht, hr, ?_⟩
    intro hne
    exact absurd hn hne
  | @take w stopping b bs hw hq hd =>
    obtain ⟨rfl, rfl⟩ := worker hw
    have hn := only_tries rfl (by simpa using hd)
    refine ⟨.sending b stopping, by simp [hws], ?_, tries, rest, by simp, ht, hr, ?_⟩
    · rw [← ho, hq]
      simp [Worker.payload?, waiting, Outbox.withWaiting]
    · intro hne
      exact absurd hn hne
  | @discard w b bs hw hq hd =>
    obtain ⟨rfl, rfl⟩ := worker hw
    refine ⟨.listening true, hws, ?_, tries, rest ++ [(b, .discarded)], by simp, ht, ?_,
      fun _ => .inr ⟨rfl, hd⟩⟩
    · rw [← ho, hq]
      simp [Log.payloads, Worker.payload?, waiting, Outbox.withWaiting]
    · intro e he
      rcases List.mem_append.mp he with he | he
      · exact hr e he
      · rw [List.mem_singleton.mp he]
        rfl
  | finish hw hq =>
    obtain ⟨rfl, rfl⟩ := worker hw
    refine ⟨.finished, by simp [hws], ?_, tries, rest, by simp, ht, hr, fun _ => .inl rfl⟩
    have hs := Outbox.shut_waiting_of_nil hq (d.closes 0 .finished)
    rw [← ho, hq]
    simp [Worker.payload?, waiting, hs]
  | @settle w stopping b t outcome hw hs hc =>
    obtain ⟨rfl, rfl⟩ := worker hw
    have hn := only_tries rfl (by simp)
    refine ⟨.listening stopping, by simp [hws], ?_, tries ++ [(b, outcome.fate)], [], by simp [hn],
      ?_, by simp, by simp⟩
    · rw [← ho]
      simp [Log.payloads, Worker.payload?, waiting]
    · intro e he
      rcases List.mem_append.mp he with he | he
      · exact ht e he
      · rw [List.mem_singleton.mp he]
        cases outcome <;> rfl
  | @crash w stopping b t hw hs =>
    obtain ⟨rfl, rfl⟩ := worker hw
    have hn := only_tries rfl (by simp)
    refine ⟨.crashed, by simp [hws], ?_, tries ++ [(b, .crashed)],
      (d.leftBehind 0).map (·, .left), by simp [hn], ?_, ?_, fun _ => .inl rfl⟩
    · have hl := Moved.leftBehind_append (d := d) 0
      rw [← ho, ← hl]
      simp [Log.payloads, Worker.payload?, waiting, Function.comp_def]
    · intro e he
      rcases List.mem_append.mp he with he | he
      · exact ht e he
      · rw [List.mem_singleton.mp he]
        rfl
    · intro e he
      obtain ⟨b', -, rfl⟩ := List.mem_map.mp he
      rfl

theorem single_after (d : Delivery τ) {n : Nat} (hn : n ≤ 1) (hs : List Happening) :
    ∃ x, Single (d.staffed n) ((d.staffed n).chronicle hs) ((d.staffed n).after hs) x := by
  apply chronicle_induction (motive := fun log d' => ∃ x, Single (d.staffed n) log d' x)
  · have hc : max n 1 = 1 := by omega
    exact ⟨.listening false, by simp [staffed, Delivery.crew, hc],
      by simp [Log.payloads, Worker.payload?], [], [], by simp⟩
  · rintro log d' e ⟨x, hx⟩
    cases e with
    | move m => exact hx.moved (d'.moved m)
    | signal | desert =>
      rw [entries, List.append_nil]
      exact ⟨x, hx.workers, hx.order, hx.tried_first⟩

omit [Transport τ] in
theorem Single.tried_prefix {d₀ d : Delivery τ} {log : Log} {x : Worker}
    (h : Single d₀ log d x) : Log.tried log <+: d₀.waiting := by
  obtain ⟨tries, rest, rfl, ht, hr, -⟩ := h.tried_first
  have hp : Log.tried (tries ++ rest) = Log.payloads tries := by
    rw [Log.tried_append, Log.tried, Log.tried, List.filter_eq_self.mpr ht,
      List.filter_eq_nil_iff.mpr (by simpa using hr)]
    simp [Log.payloads]
  rw [hp, ← h.order, Log.payloads_append]
  simp

theorem Ledger.left_at_end {d₀ d : Delivery τ} {log : Log} (h : Ledger d₀ log d)
    (hgone : ∀ x ∈ d.workers, x.isGone = true) (hl : Log.ending log .left ++ d.waiting ≠ []) :
    ∀ x ∈ d.workers, x = .crashed := by
  by_cases hn : Log.ending log .left = []
  · rw [hn, List.nil_append] at hl
    intro x hx
    have hg := hgone x hx
    cases x with
    | finished => exact absurd (h.finished hx) hl
    | crashed => rfl
    | listening stopping => simp [Worker.isGone] at hg
    | sending b stopping => simp [Worker.isGone] at hg
  · exact h.left hn

/-- Once all workers are gone, each payload of the queue was sent, failed, was discarded, was lost
with a worker that crashed, or is left. Counters, pool and transport are as these ends have it.
Payloads are left only if every worker crashed and discarded only if workers that do not drain were
told to stop; a single worker sends in the order of the queue. -/
theorem staffed_ends (d : Delivery τ) (n : Nat) (hs : List Happening)
    (hgone : ∀ x ∈ ((d.staffed n).after hs).workers, x.isGone = true) :
    let log := (d.staffed n).chronicle hs
    let d' := (d.staffed n).after hs
    let left := Log.ending log .left ++ d'.waiting
    (Log.ending log .sent ++ Log.ending log .failed ++ Log.ending log .discarded ++
        Log.ending log .crashed ++ left).Perm d.waiting ∧
      d'.outbox.telemetry = (Log.events log).foldl Telemetry.record d.outbox.telemetry ∧
      d'.outbox.telemetry.counts = d.outbox.telemetry.counts.tally log ∧
      d'.outbox.pool = (Log.settled log).foldl Pool.release d.outbox.pool ∧
      (Log.ending log .sent ++ Log.ending log .failed ++ Log.ending log .discarded).Perm
        (Log.settled log) ∧
      (sendAll (Log.tried log) d.transport).2 = d'.transport ∧
      (sendAll (Log.tried log) d.transport).1.map Outcome.fate = Log.triedFates log ∧
      (left ≠ [] → (∀ x ∈ d'.workers, x = .crashed) ∧
        (Log.ending log .crashed).length = max n 1) ∧
      ((Log.ending log .crashed).length < max n 1 → left = []) ∧
      (Log.ending log .discarded ≠ [] → d.drain = false ∧ .signal ∈ hs) ∧
      (n ≤ 1 → Log.tried log <+: d.waiting) := by
  intro log d' left
  have h : Ledger (d.staffed n) log d' := d.ledger_after n hs
  have hstart : (d.staffed n).pending = d.waiting := by
    simp [pending, staffed, crew, Worker.payload?, waiting]
  have hleft (hl : left ≠ []) : ∀ x ∈ d'.workers, x = .crashed := h.left_at_end hgone hl
  have hcount (hl : left ≠ []) : (Log.ending log .crashed).length = max n 1 := by
    have hc := h.crashed
    have hd := List.count_eq_length.mpr fun x hx => (hleft hl x hx).symm
    rw [hd, h.crew] at hc
    simpa [staffed, Delivery.crew, List.count_replicate] using hc.symm
  -- The ledger says it all but for the partition, the counts in one record and the three bounds.
  refine ⟨?_, h.telemetry, ?_, h.pool, Log.settled_perm log, h.transport, h.fates,
    fun hl => ⟨hleft hl, hcount hl⟩, ?_, ?_, ?_⟩
  · have hp := h.pending
    rw [hstart, pending_of_gone hgone] at hp
    have he := ((Log.endings_perm log).append_right d'.waiting).trans hp
    rwa [List.append_assoc] at he
  · rw [h.telemetry, Telemetry.counts_foldl_record, Telemetry.Snapshot.foldl_record]
    rfl
  · intro hlt
    by_contra hl
    have hc := hcount hl
    omega
  · intro hl
    obtain ⟨hdrain, hstop⟩ := h.discarded hl
    refine ⟨h.drain.symm.trans hdrain, ?_⟩
    exact (stopped_after hstop).resolve_left (by simp [staffed])
  · intro hn
    obtain ⟨x, hx⟩ := d.single_after hn hs
    exact hx.tried_prefix

/-- Three payloads for workers that do not drain; the second is one that a worker crashes on. -/
def threeWaiting : Delivery Recording :=
  { outbox :=
      { pool := Pool.create 1 2 ⟨64, 8⟩
        queue :=
          { bound := 4
            waiting := ["a:1|c", "PANIC:1|c", "b:1|c"].map fun line => Buffer.alone (ascii line) } }
    transport := {}
    workers := []
    drain := false }

theorem staffed_threeWaiting :
    let hs : List Happening :=
      [.move (.take 0), .move (.take 1), .move (.send 1), .signal, .move (.send 0),
        .move (.stop 0), .move (.take 0), .move (.take 0)]
    let log := (threeWaiting.staffed 2).chronicle hs
    (∀ x ∈ ((threeWaiting.staffed 2).after hs).workers, x.isGone = true) ∧
      log.map Prod.snd = [.crashed, .sent, .discarded] ∧
        ((threeWaiting.staffed 2).after hs).outbox.telemetry.counts =
          threeWaiting.outbox.telemetry.counts.tally log := by
  intro hs log
  have hgone : ∀ x ∈ ((threeWaiting.staffed 2).after hs).workers, x.isGone = true := by
    decide +kernel
  refine ⟨hgone, by decide +kernel, ?_⟩
  exact (staffed_ends threeWaiting 2 hs hgone).2.2.1

end Delivery
end MetricPipeline
