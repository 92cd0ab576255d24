import MetricPipeline.Proofs.Fates
import MetricPipeline.Proofs.Tracing

namespace MetricPipeline

namespace Telemetry

/-- The counts that tell the ends of payloads. -/
def Snapshot.ends (s : Snapshot) : Snapshot :=
  { packetsSent := s.packetsSent
    bytesSent := s.bytesSent
    packetsDroppedAtQueue := s.packetsDroppedAtQueue
    bytesDroppedAtQueue := s.bytesDroppedAtQueue
    packetsDroppedByWriter := s.packetsDroppedByWriter
    bytesDroppedByWriter := s.bytesDroppedByWriter }

theorem Snapshot.ends_tally (s : Snapshot) (log : Log) :
    (s.tally log).ends = s.ends.tally log := rfl

theorem Snapshot.ends_record (s : Snapshot) {e : Event} (h : e.isOfPacking = true) :
    (s.record e).ends = s.ends := by
  cases e with
  | points kind n => cases kind <;> rfl
  | sampledOut | rejected | oversized => rfl
  | sent n | sendFailed n | droppedAtQueue n => simp [Event.isOfPacking] at h

end Telemetry

namespace Delivery

variable {τ : Type} [Transport τ]

/-- How a delivery stands with the payloads handed over to it: those in the log came to their ends
and were counted, and the others are pending. -/
structure Account (handed : List Buffer) (log : Log) (d : Delivery τ) : Prop where
  pending : (Log.payloads log ++ d.pending).Perm handed
  counts : d.outbox.telemetry.counts.ends = Telemetry.Snapshot.tally {} log
  settled : ∀ e ∈ log, e.2.isSettled = true
  standing : .crashed ∉ d.workers
  finished : .finished ∈ d.workers → d.waiting = []

/-- No worker was told to stop, and none is gone. -/
structure Running (d : Delivery τ) : Prop where
  stopped : d.stopped = false
  orphaned : d.orphaned = false
  workers : ∀ x ∈ d.workers, x.isStopping = false ∧ x.isGone = false
  staffed : d.workers ≠ []

variable {handed : List Buffer} {log log' : Log} {d d' : Delivery τ}

/-- A transport on which no worker ever crashes. -/
def Sturdy (τ : Type) [Transport τ] : Prop :=
  ∀ (payload : Bytes) (t : τ), (Transport.send payload t).1 ≠ .crashed

theorem Account.moved (hτ : Sturdy τ) (h : Account handed log d) (hm : Moved d log' d') :
    Account handed (log ++ log') d' := by
  have hset : ∀ e ∈ log', e.2.isSettled = true := by
    cases hm with
    | idle | heed | take | finish => simp
    | discard => simp [Fate.isSettled]
    | @settle w stopping b t outcome hw hs hc =>
      cases outcome <;> simp_all [Outcome.fate, Fate.isSettled]
    | @crash w stopping b t hw hs => exact absurd (by rw [hs]) (hτ b.bytes d.transport)
  refine ⟨?_, ?_, ?_, ?_, hm.finished_waiting h.finished⟩
  · rw [Log.payloads_append, List.append_assoc]
    exact (hm.pending_perm.append_left _).trans h.pending
  · rw [hm.telemetry_eq, Telemetry.counts_foldl_record, Telemetry.Snapshot.foldl_record,
      Telemetry.Snapshot.ends_tally, h.counts, Telemetry.Snapshot.tally_append]
  · intro e he
    exact (List.mem_append.mp he).elim (h.settled e) (hset e)
  · rw [← List.count_eq_zero, hm.count_crashed, List.count_eq_zero.mpr h.standing]
    have hn : Log.ending log' .crashed = [] := by
      simp only [Log.ending, Log.payloads, List.map_eq_nil_iff, List.filter_eq_nil_iff]
      intro e he hf
      have hs := hset e he
      simp only [decide_eq_true_eq] at hf
      simp [hf, Fate.isSettled] at hs
    simp [hn]

theorem Running.moved (hτ : Sturdy τ) (h : Running d) (hm : Moved d log' d') : Running d' := by
  have worker {w : Nat} {x y : Worker} (hw : d.workers[w]? = some x)
      (hy : y.isStopping = x.isStopping ∧ y.isGone = x.isGone) :
      ∀ z ∈ d.workers.set w y, z.isStopping = false ∧ z.isGone = false := by
    intro z hz
    rcases List.mem_or_eq_of_mem_set hz with hz | rfl
    · exact h.workers z hz
    · rw [hy.1, hy.2]
      exact h.workers x (List.mem_of_getElem? hw)
  -- The other steps are those of a stopping worker, and there is none.
  have going {w : Nat} (hw : d.workers[w]? = some (.listening true)) : False := by
    simpa [Worker.isStopping] using h.workers _ (List.mem_of_getElem? hw)
  have hne : d'.workers ≠ [] := by
    apply List.ne_nil_of_length_pos
    rw [hm.length_workers]
    exact List.length_pos_iff.mpr h.staffed
  cases hm with
  | idle => exact h
  | heed hw hs => simp [mayStop, h.stopped, h.orphaned] at hs
  | take hw hq hd => exact ⟨h.stopped, h.orphaned, worker hw ⟨rfl, rfl⟩, hne⟩
  | discard hw hq hd => exact (going hw).elim
  | finish hw hq => exact (going hw).elim
  | settle hw hs hc => exact ⟨h.stopped, h.orphaned, worker hw ⟨rfl, rfl⟩, hne⟩
  | @crash w stopping b t hw hs => exact absurd (by rw [hs]) (hτ b.bytes d.transport)

theorem run_kept {I : Delivery τ → Prop} (hI : ∀ d m, I d → I (d.step m)) (h : I d)
    (moves : List Move) : I (d.run moves) := by
  induction moves generalizing d with
  | nil => exact h
  | cons m moves ih => exact ih (hI _ _ h)

/-- A relation between what was handed over and a delivery that outlives all that workers and
packers do. -/
structure Upheld (J : List Buffer → Delivery τ → Prop) : Prop where
  step : ∀ {hs : List Buffer} {d : Delivery τ} (m : Move), J hs d → J hs (d.step m)
  atTime : ∀ {hs : List Buffer} {d : Delivery τ} (clock : Nat), J hs d → J hs { d with clock }
  /-- Only the payloads in line and their counts matter of what is done to the outbox. -/
  withOutbox : ∀ {hs : List Buffer} {d : Delivery τ} {o : Outbox},
    o.queue.waiting = d.outbox.queue.waiting →
      o.telemetry.counts.ends = d.outbox.telemetry.counts.ends → J hs d →
        J hs { d with outbox := o }
  offer : ∀ {hs : List Buffer} {d : Delivery τ} {b : Buffer}, b.isEmpty = false → J hs d →
    J (hs ++ [b]) { d with outbox := d.outbox.enqueue b }

namespace Upheld

variable {J : List Buffer → Delivery τ → Prop}

theorem tick (hJ : Upheld J) (h : J handed d) : J handed d.tick :=
  run_kept (fun _ m h => hJ.step m h) (hJ.atTime _ h) _

theorem awaitRoom (hJ : Upheld J) (h : J handed d) (moves : List Move) :
    J handed (d.awaitRoom moves) := by
  induction moves generalizing d with
  | nil => exact h
  | cons m moves ih =>
    rw [Delivery.awaitRoom]
    split
    · exact ih (hJ.step m h)
    · exact h

theorem borrow (hJ : Upheld J) (h : J handed d) : J handed d.borrow.2 :=
  hJ.withOutbox rfl rfl (hJ.tick h)

theorem enqueue (hJ : Upheld J) (h : J handed d) {b : Buffer} (hb : b.isEmpty = false) :
    J (handed ++ [b]) (d.enqueue b) := by
  have ht := hJ.tick h
  cases hp : d.tick.policy with
  | drop => simpa [Delivery.enqueue, hp] using hJ.offer hb ht
  | block milliseconds =>
    have ha := hJ.awaitRoom (hJ.atTime (d.tick.clock + 1) ht) (d.tick.schedule d.tick.clock)
    simpa [Delivery.enqueue, hp, hb] using hJ.offer hb ha

theorem keeps (hJ : Upheld J) (handed : List Buffer) :
    Outlet.Keeps fun t : Traced (Delivery τ) => J (handed ++ t.handed) t.outlet := by
  refine ⟨?_, ?_, ?_, ?_⟩
  · intro t h
    exact hJ.borrow h
  · intro b t hb h
    have he := hJ.enqueue h hb
    rwa [List.append_assoc] at he
  · intro e t he h
    exact hJ.withOutbox rfl (Telemetry.Snapshot.ends_record _ he) h
  · intro n t h
    exact hJ.withOutbox rfl rfl h

end Upheld

/-- A running delivery that accounts for all that was handed over. -/
def Going (handed : List Buffer) (d : Delivery τ) : Prop :=
  Running d ∧ ∃ log, Account handed log d

namespace Going

theorem step (hτ : Sturdy τ) (h : Going handed d) (m : Move) : Going handed (d.step m) := by
  obtain ⟨hr, log, ha⟩ := h
  exact ⟨hr.moved hτ (d.moved m), _, ha.moved hτ (d.moved m)⟩

omit [Transport τ] in
theorem atTime (h : Going handed d) (clock : Nat) : Going handed { d with clock } := by
  obtain ⟨hr, log, ha⟩ := h
  exact ⟨⟨hr.stopped, hr.orphaned, hr.workers, hr.staffed⟩,
    log, ha.pending, ha.counts, ha.settled, ha.standing, ha.finished⟩

omit [Transport τ] in
theorem withOutbox (h : Going handed d) {o : Outbox}
    (hq : o.queue.waiting = d.outbox.queue.waiting)
    (hc : o.telemetry.counts.ends = d.outbox.telemetry.counts.ends) :
    Going handed { d with outbox := o } := by
  obtain ⟨hr, log, ha⟩ := h
  refine ⟨⟨hr.stopped, hr.orphaned, hr.workers, hr.staffed⟩, log, ?_, hc.trans ha.counts,
    ha.settled, ha.standing, fun hf => hq.trans (ha.finished hf)⟩
  have hp := ha.pending
  simp only [pending, waiting] at hp ⊢
  rwa [hq]

omit [Transport τ] in
theorem offer (h : Going handed d) {b : Buffer} (hb : b.isEmpty = false) :
    Going (handed ++ [b]) { d with outbox := d.outbox.enqueue b } := by
  obtain ⟨hr, log, ha⟩ := h
  -- Nobody has finished, so it does no harm that there is a payload in line again.
  have hf : .finished ∉ d.workers := by
    intro hf
    simpa [Worker.isGone] using (hr.workers _ hf).2
  refine ⟨⟨hr.stopped, hr.orphaned, hr.workers, hr.staffed⟩, ?_⟩
  cases ho : d.outbox.queue.offer b with
  | ok q =>
    have he : d.outbox.enqueue b = { d.outbox with queue := q } := by
      simp [Outbox.enqueue, hb, ho]
    have hq : q.waiting = d.waiting ++ [b] := Queue.waiting_of_offer ho
    rw [he]
    refine ⟨log, ?_, ha.counts, ha.settled, ha.standing, fun hm => absurd hm hf⟩
    have hp := ha.pending.append_right [b]
    simpa [pending, waiting, hq] using hp
  | error reason =>
    have he : d.outbox.enqueue b =
        (d.outbox.remark (.dropped reason b.length)).settle b .discarded := by
      simp [Outbox.enqueue, hb, ho]
    rw [he]
    refine ⟨log ++ [(b, .discarded)], ?_, ?_, ?_, ha.standing, fun hm => absurd hm hf⟩
    · have hp := ha.pending.append_right [b]
      rw [Log.payloads_append, List.append_assoc]
      refine (List.Perm.append_left _ List.perm_append_comm).trans ?_
      simpa [pending, waiting, Outbox.remark, Log.payloads] using hp
    · rw [Outbox.settle_telemetry, Telemetry.counts_foldl_record,
        Telemetry.Snapshot.foldl_record, Telemetry.Snapshot.ends_tally,
        Telemetry.Snapshot.tally_append]
      exact congrArg (Telemetry.Snapshot.tally · _) ha.counts
    · intro e hm
      rcases List.mem_append.mp hm with hm | hm
      · exact ha.settled e hm
      · rw [List.mem_singleton.mp hm]
        rfl

theorem upheld (hτ : Sturdy τ) : Upheld (Going (τ := τ)) where
  step m h := h.step hτ m
  atTime clock h := h.atTime clock
  withOutbox hq hc h := h.withOutbox hq hc
  offer hb h := h.offer hb

end Going

/-- How many steps a worker that is told to stop may still take, with `n` payloads in line. -/
def labour (n : Nat) : Option Worker → Nat
  | some (.listening true) => 2 * n + 1
  | some (.listening false) | some (.sending _ true) => 2 * n + 2
  | some (.sending _ false) => 2 * n + 3
  | some .finished | some .crashed | none => 0

theorem labour_le (n : Nat) (x : Option Worker) : labour n x ≤ 2 * n + 3 := by
  unfold labour
  split <;> omega

theorem isGone_of_labour {n : Nat} {x : Worker} (h : labour n (some x) = 0) : x.isGone = true := by
  cases x with
  | listening stopping => cases stopping <;> simp [labour] at h
  | sending b stopping => cases stopping <;> simp [labour] at h
  | finished | crashed => rfl

theorem labour_mono {n k : Nat} (h : n ≤ k) (x : Option Worker) : labour n x ≤ labour k x := by
  unfold labour
  split <;> omega

omit [Transport τ] in
theorem labour_setWorker {w : Nat} {x : Worker} (hw : d.workers[w]? = some x) (y : Worker) :
    labour (d.setWorker w y).waiting.length (d.setWorker w y).workers[w]? ≤
      labour d.waiting.length (some y) := by
  obtain ⟨hlt, -⟩ := List.getElem?_eq_some_iff.mp hw
  have hy : (d.setWorker w y).workers[w]? = some y := by simp [setWorker_eq, hlt]
  rw [hy]
  apply labour_mono
  rw [setWorker_eq]
  cases d.closes w y with
  | false => exact Nat.le_refl _
  | true => exact Nat.zero_le _

theorem labour_advance (hs : d.stopped = true) (w : Nat) :
    labour (advance w d).waiting.length (advance w d).workers[w]? ≤
      labour d.waiting.length d.workers[w]? - 1 := by
  cases hw : d.workers[w]? with
  | none => simp [advance, hw, labour]
  | some x =>
    match x with
    | .finished | .crashed => simp [advance, hw, labour]
    | .listening false =>
      have ha : advance w d = d.setWorker w (.listening true) := by
        simp [advance, step, hw, mayStop, hs]
      rw [ha]
      exact labour_setWorker hw (.listening true)
    | .listening true =>
      cases hq : d.waiting with
      | nil =>
        have ha : advance w d = d.setWorker w .finished := by
          simp [advance, step, takeStep, hw, Outbox.take_of_nil hq]
        rw [ha]
        exact (labour_setWorker hw .finished).trans (Nat.zero_le _)
      | cons b bs =>
        have ht := Outbox.take_of_cons hq
        cases hd : d.drain with
        | true =>
          have ha : advance w d =
              ({ d with outbox := d.outbox.withWaiting bs }).setWorker w (.sending b true) := by
            simp [advance, step, takeStep, hw, ht, hd]
          rw [ha]
          have hl := labour_setWorker
            (d := { d with outbox := d.outbox.withWaiting bs }) hw (.sending b true)
          simp only [labour, waiting, Outbox.withWaiting, List.length_cons] at hl ⊢
          omega
        | false =>
          have ha : advance w d = { d with outbox := (d.outbox.withWaiting bs).drop b } := by
            simp [advance, step, takeStep, hw, ht, hd]
          rw [ha]
          simp only [hw, labour, waiting, Outbox.drop_queue, Outbox.withWaiting, List.length_cons]
          omega
    | .sending b stopping =>
      have hl (d₁ : Delivery τ) (h₁ : d₁.workers = d.workers) (h₂ : d₁.waiting = d.waiting)
          (y : Worker) : labour (d₁.setWorker w y).waiting.length (d₁.setWorker w y).workers[w]? ≤
            labour d.waiting.length (some y) := by
        rw [← h₂]
        exact labour_setWorker (by rw [h₁, hw]) y
      have hs : labour d.waiting.length (some (.listening stopping)) ≤
          labour d.waiting.length (some (.sending b stopping)) - 1 := by
        cases stopping <;> simp [labour]
      rcases ho : Transport.send b.bytes d.transport with ⟨outcome, t⟩
      cases outcome with
      | sent n =>
        simp only [advance, step, sendStep, hw, ho]
        refine le_trans (hl _ ?_ ?_ _) hs
        · rfl
        · rfl
      | failed =>
        simp only [advance, step, sendStep, hw, ho]
        refine le_trans (hl _ ?_ ?_ _) hs
        · rfl
        · rfl
      | crashed =>
        simp only [advance, step, sendStep, hw, ho]
        refine le_trans (hl _ ?_ ?_ _) (Nat.zero_le _)
        · rfl
        · rfl

section Kept

variable {I : Delivery τ → Prop} (hI : ∀ d m, I d → I (d.step m))

include hI

theorem advance_kept (h : I d) (w : Nat) : I (advance w d) := by
  unfold advance
  split
  · exact hI _ _ h
  · exact hI _ _ h
  · exact hI _ _ h
  · exact h

theorem foldl_advance_kept (h : I d) (w : Nat) (ns : List Nat) :
    I (ns.foldl (fun d _ => advance w d) d) := by
  induction ns generalizing d with
  | nil => exact h
  | cons n ns ih => exact ih (advance_kept hI h w)

theorem foldl_finish_kept (h : I d) (ws : List Nat) : I (ws.foldl finish d) := by
  induction ws generalizing d with
  | nil => exact h
  | cons w ws ih => exact ih (foldl_advance_kept hI h w _)

end Kept

theorem step_stopped (d : Delivery τ) (m : Move) (h : d.stopped = true) :
    (d.step m).stopped = true :=
  (d.moved m).stopped_eq.trans h

theorem finish_gone (hs : d.stopped = true) {w : Nat} {x : Worker}
    (hx : (d.finish w).workers[w]? = some x) : x.isGone = true := by
  -- With n steps taken, n less are left to take; there were no more than the steps of `finish`.
  have hn (n : Nat) : labour ((List.range n).foldl (fun d _ => advance w d) d).waiting.length
      ((List.range n).foldl (fun d _ => advance w d) d).workers[w]? ≤
        labour d.waiting.length d.workers[w]? - n := by
    induction n with
    | zero => exact Nat.le_refl _
    | succ n ih =>
      rw [List.range_succ, List.foldl_append, List.foldl_cons, List.foldl_nil]
      have hs' := foldl_advance_kept step_stopped hs w (List.range n)
      have hl := labour_advance hs' w
      omega
  have hl := hn (2 * d.outbox.queue.length + 3)
  have hle := labour_le d.waiting.length d.workers[w]?
  have hz : labour (d.finish w).waiting.length (some x) = 0 := by
    rw [← hx]
    simp only [finish, Queue.length, waiting] at hl hle ⊢
    omega
  exact isGone_of_labour hz

theorem step_gone (i : Nat) (d : Delivery τ) (m : Move)
    (h : ∀ x, d.workers[i]? = some x → x.isGone = true) :
    ∀ x, (d.step m).workers[i]? = some x → x.isGone = true := by
  have keep {w : Nat} {y z : Worker} (hw : d.workers[w]? = some y) (hy : y.isGone = false) :
      ∀ x, (d.workers.set w z)[i]? = some x → x.isGone = true := by
    intro x hx
    by_cases hi : w = i
    · subst hi
      simp [h y hw] at hy
    · rw [List.getElem?_set_ne hi] at hx
      exact h x hx
  have hm := d.moved m
  revert hm
  generalize d.step m = d'
  generalize d.fates m = log
  intro hm
  cases hm with
  | idle | discard => exact h
  | heed hw | take hw | finish hw | settle hw | crash hw => exact keep hw rfl

theorem shutdown_kept {I : Delivery τ → Prop} (hI : ∀ d m, I d → I (d.step m))
    (h : I { d with stopped := true, clock := d.clock + 1 }) : I d.shutdown :=
  foldl_finish_kept hI (run_kept hI h _) _

theorem shutdown_gone (d : Delivery τ) : ∀ x ∈ d.shutdown.workers, x.isGone = true := by
  have hl : d.shutdown.workers.length = d.workers.length :=
    shutdown_kept (I := fun d' => d'.workers.length = d.workers.length)
      (fun d' m h => (d'.moved m).length_workers.trans h) rfl
  -- Workers come to their end in turn, and those before the one whose turn it is stay there.
  have hdone (n : Nat) : ∀ i, i < n → ∀ x,
      ((List.range n).foldl finish ({ d with stopped := true } : Delivery τ).tick).workers[i]? =
        some x → x.isGone = true := by
    induction n with
    | zero => intro i hi; omega
    | succ n ih =>
      intro i hi
      rw [List.range_succ, List.foldl_append, List.foldl_cons, List.foldl_nil]
      have hs : ((List.range n).foldl finish
          ({ d with stopped := true } : Delivery τ).tick).stopped = true :=
        foldl_finish_kept step_stopped (run_kept step_stopped rfl _) _
      by_cases hin : i = n
      · intro x hx
        subst hin
        exact finish_gone hs hx
      · exact foldl_advance_kept (step_gone i) (ih i (by omega)) _ _
  intro x hx
  obtain ⟨i, hi, rfl⟩ := List.mem_iff_getElem.mp hx
  exact hdone d.workers.length i (by omega) _ (List.getElem?_eq_getElem hi)

/-- After a shutdown every worker has finished, nothing is in line, and all that was handed over is
settled and counted. -/
theorem Going.shutdown (hτ : Sturdy τ) (h : Going handed d) :
    d.shutdown.waiting = [] ∧ ∃ log, (Log.payloads log).Perm handed ∧
      d.shutdown.outbox.telemetry.counts.ends = Telemetry.Snapshot.tally {} log ∧
        ∀ e ∈ log, e.2.isSettled = true := by
  obtain ⟨log, ha⟩ : ∃ log, Account handed log d.shutdown := by
    apply shutdown_kept (I := fun d' => ∃ log, Account handed log d')
    · rintro d' m ⟨log, ha⟩
      exact ⟨_, ha.moved hτ (d'.moved m)⟩
    · obtain ⟨-, log, ha⟩ := h
      exact ⟨log, ha.pending, ha.counts, ha.settled, ha.standing, ha.finished⟩
  -- No worker can have crashed, so each has seen an empty queue.
  have hfin : ∀ x ∈ d.shutdown.workers, x = .finished := by
    intro x hx
    have hg := d.shutdown_gone x hx
    cases x with
    | finished => rfl
    | crashed => exact absurd hx ha.standing
    | listening stopping => simp [Worker.isGone] at hg
    | sending b stopping => simp [Worker.isGone] at hg
  have hl : d.shutdown.workers ≠ [] :=
    shutdown_kept (I := fun d' => d'.workers ≠ []) (by
      intro d' m hd'
      apply List.ne_nil_of_length_pos
      rw [(d'.moved m).length_workers]
      exact List.length_pos_iff.mpr hd') h.1.staffed
  have hw : d.shutdown.waiting = [] := by
    obtain ⟨x, xs, hx⟩ := List.exists_cons_of_ne_nil hl
    apply ha.finished
    rw [← hfin x (by simp [hx]), hx]
    exact List.mem_cons_self
  refine ⟨hw, log, ?_, ha.counts, ha.settled⟩
  have hp := ha.pending
  rwa [pending_of_gone d.shutdown_gone, hw, List.append_nil] at hp

end Delivery
end MetricPipeline
