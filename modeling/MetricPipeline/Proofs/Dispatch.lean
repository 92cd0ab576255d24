import MetricPipeline.Proofs.Shutdown
import MetricPipeline.Proofs.Workers

namespace MetricPipeline

structure Logged (τ : Type) where
  transport : τ
  payloads : List Bytes := []

instance {τ : Type} [Transport τ] : Transport (Logged τ) where
  send payload l :=
    ((Transport.send payload l.transport).1,
      ⟨(Transport.send payload l.transport).2, l.payloads ++ [payload]⟩)
  label l := Transport.label l.transport

structure Sink where

instance : Transport Sink where
  send payload t := (.sent payload.length, t)
  label _ := "custom"

theorem Telemetry.Snapshot.packetsDropped_tally (s : Snapshot) (log : Log) :
    (s.tally log).packetsDropped =
      s.packetsDropped + ((Log.ending log .discarded).length.toUInt64 +
        (Log.ending log .failed).length.toUInt64) := by
  simp only [tally, packetsDropped]
  ac_rfl

variable {τ : Type} [Transport τ]

theorem sendAll_logged (bs : List Buffer) (l : Logged τ) :
    (sendAll bs l).2.payloads = l.payloads ++ bs.map Buffer.bytes := by
  induction bs generalizing l with
  | nil => simp [sendAll]
  | cons b bs ih =>
    have hb : (Transport.send b.bytes l).2.payloads = l.payloads ++ [b.bytes] := rfl
    simp only [sendAll, ih, hb, List.map_cons, List.append_assoc, List.singleton_append]

namespace Delivery

/-- A transport that sends whatever it is given. -/
def Reliable (τ : Type) [Transport τ] : Prop :=
  ∀ (payload : Bytes) (t : τ), ∃ n, (Transport.send payload t).1 = .sent n

theorem reliable_sink : Reliable Sink := fun payload _ => ⟨payload.length, rfl⟩

theorem Reliable.logged (h : Reliable τ) : Reliable (Logged τ) :=
  fun payload l => h payload l.transport

theorem Reliable.sturdy (h : Reliable τ) : Sturdy τ := by
  intro payload t
  obtain ⟨n, hn⟩ := h payload t
  simp [hn]

namespace Moved

variable {d d' : Delivery τ} {log : Log}

theorem ends_of_reliable (hτ : Reliable τ) (h : Moved d log d') :
    log = [] ∨ ∃ b, log = [(b, .sent)] ∨ log = [(b, .discarded)] := by
  cases h with
  | idle | heed | take | finish => exact .inl rfl
  | @discard w b bs hw hq hd => exact .inr ⟨b, .inr rfl⟩
  | @settle w stopping b t outcome hw hs hc =>
    obtain ⟨n, hn⟩ := hτ b.bytes d.transport
    rw [hs] at hn
    simp only at hn
    subst hn
    exact .inr ⟨b, .inl rfl⟩
  | @crash w stopping b t hw hs => exact absurd (by rw [hs]) (hτ.sturdy b.bytes d.transport)

theorem tried_sublist (h : Moved d log d') (hl : d.workers.length = 1) :
    (Log.tried log ++ d'.pending).Sublist d.pending := by
  obtain ⟨x, hx⟩ := List.length_eq_one_iff.mp hl
  have worker {w : Nat} {y : Worker} (hw : d.workers[w]? = some y) : w = 0 ∧ y = x := by
    rw [hx] at hw
    cases w with
    | zero => exact ⟨rfl, by simpa using hw.symm⟩
    | succ w => simp at hw
  cases h with
  | idle => simp [Log.tried, Log.payloads]
  | heed hw hs =>
    obtain ⟨rfl, rfl⟩ := worker hw
    simp [pending, waiting, hx, Log.tried, Log.payloads, Worker.payload?]
  | @take w stopping b bs hw hq hd =>
    obtain ⟨rfl, rfl⟩ := worker hw
    simp only [waiting] at hq
    simp [pending, waiting, hx, hq, Log.tried, Log.payloads, Worker.payload?, Outbox.withWaiting]
  | @discard w b bs hw hq hd =>
    obtain ⟨rfl, rfl⟩ := worker hw
    simp only [waiting] at hq
    simp [pending, waiting, hx, hq, Log.tried, Log.payloads, Worker.payload?, Outbox.withWaiting,
      Fate.isTried]
  | finish hw hq =>
    obtain ⟨rfl, rfl⟩ := worker hw
    have hs := Outbox.shut_waiting_of_nil hq (d.closes 0 .finished)
    have hf : [Worker.finished].filterMap Worker.payload? = [] := rfl
    simp [pending, waiting, hx, hs, hf, Log.tried, Log.payloads]
  | @settle w stopping b t outcome hw hs hc =>
    obtain ⟨rfl, rfl⟩ := worker hw
    have ht : outcome.fate.isTried = true := by cases outcome <;> rfl
    simp [pending, waiting, hx, ht, Log.tried, Log.payloads, Worker.payload?]
  | @crash w stopping b t hw hs =>
    obtain ⟨rfl, rfl⟩ := worker hw
    have hleft := leftBehind_append (d := d) 0
    have hn : (d.outbox.shut (d.closes 0 .crashed)).queue.waiting.Sublist d.waiting :=
      hleft ▸ List.sublist_append_right _ _
    have hc : [Worker.crashed].filterMap Worker.payload? = [] := rfl
    simpa [pending, waiting, hx, hc, Log.tried, Log.payloads, Worker.payload?, Fate.isTried,
      List.filter_map, Function.comp_def] using hn

end Moved

def HasWorkers (n : Nat) (_ : List Buffer) (d : Delivery τ) : Prop := d.workers.length = n

theorem upheld_hasWorkers (n : Nat) : Upheld (HasWorkers (τ := τ) n) where
  step {_ d} m h := (d.moved m).length_workers.trans h
  atTime _ h := h
  withOutbox _ _ h := h
  offer _ h := h

/-- How things stand with all that was handed over: what was sent is what the transport got, what
was dropped is reported, and the rest is pending. A single worker keeps to the order. -/
structure Dispatched (handed sent dropped : List Buffer) (d : Delivery (Logged τ)) : Prop where
  delivered : d.transport.payloads = sent.map Buffer.bytes
  pending : (sent ++ dropped ++ d.pending).Perm handed
  reported : d.outbox.telemetry.counts.packetsDropped = dropped.length.toUInt64
  inOrder : d.workers.length = 1 → (sent ++ d.pending).Sublist handed

namespace Dispatched

variable {handed sent dropped : List Buffer} {log : Log} {d d' : Delivery (Logged τ)}

theorem moved (hτ : Reliable τ) (h : Dispatched handed sent dropped d) (hm : Moved d log d') :
    Dispatched handed (sent ++ Log.tried log) (dropped ++ Log.ending log .discarded) d' := by
  have hends := hm.ends_of_reliable hτ.logged
  have hlog : (Log.tried log ++ Log.ending log .discarded).Perm (Log.payloads log) := by
    rcases hends with rfl | ⟨b, rfl | rfl⟩
    · rfl
    · rfl
    · rfl
  refine ⟨?_, ?_, ?_, ?_⟩
  · rw [← hm.sendAll_tried.1, sendAll_logged, h.delivered, List.map_append]
  · have hp := (hlog.append_right d'.pending).trans hm.pending_perm
    have hall := h.pending
    rw [List.perm_iff_count] at hp hall ⊢
    intro b
    have h₁ := hp b
    have h₂ := hall b
    simp only [List.count_append] at h₁ h₂ ⊢
    omega
  · rw [hm.telemetry_eq, Telemetry.counts_foldl_record, Telemetry.Snapshot.foldl_record,
      Telemetry.Snapshot.packetsDropped_tally, h.reported]
    rcases hends with rfl | ⟨b, rfl | rfl⟩
    · simp [Log.ending, Log.payloads]
    · simp [Log.ending, Log.payloads]
    · simp [Log.ending, Log.payloads]
  · intro hl
    rw [hm.length_workers] at hl
    refine .trans ?_ (h.inOrder hl)
    rw [List.append_assoc]
    exact (hm.tried_sublist hl).append_left _

omit [Transport τ] in
theorem offer (h : Dispatched handed sent dropped d) {b : Buffer} (hb : b.isEmpty = false) :
    ∃ dropped', Dispatched (handed ++ [b]) sent dropped'
      { d with outbox := d.outbox.enqueue b } := by
  cases ho : d.outbox.queue.offer b with
  | ok q =>
    have he : d.outbox.enqueue b = { d.outbox with queue := q } := by
      simp [Outbox.enqueue, hb, ho]
    have hq : q.waiting = d.waiting ++ [b] := Queue.waiting_of_offer ho
    rw [he]
    refine ⟨dropped, h.delivered, ?_, h.reported, ?_⟩
    · have hp := h.pending.append_right [b]
      simpa [Delivery.pending, waiting, hq] using hp
    · intro hl
      have hs := (h.inOrder hl).append_right [b]
      simpa [Delivery.pending, waiting, hq] using hs
  | error reason =>
    have he : d.outbox.enqueue b =
        (d.outbox.remark (.dropped reason b.length)).settle b .discarded := by
      simp [Outbox.enqueue, hb, ho]
    rw [he]
    refine ⟨dropped ++ [b], h.delivered, ?_, ?_, ?_⟩
    · have hp := h.pending
      rw [List.perm_iff_count] at hp ⊢
      intro c
      have hc := hp c
      simp only [Delivery.pending, waiting, Outbox.settle_queue, Outbox.remark,
        List.count_append] at hc ⊢
      omega
    · rw [Outbox.settle_telemetry, Telemetry.counts_foldl_record, Telemetry.Snapshot.foldl_record,
        Telemetry.Snapshot.packetsDropped_tally]
      simp [Outbox.remark, h.reported, Log.ending, Log.payloads]
    · intro hl
      refine .trans ?_ (List.sublist_append_left handed [b])
      simpa [Delivery.pending, waiting, Outbox.remark] using h.inOrder hl

theorem upheld (hτ : Reliable τ) :
    Upheld fun hs (d : Delivery (Logged τ)) => ∃ sent dropped, Dispatched hs sent dropped d where
  step := by
    rintro hs d m ⟨sent, dropped, h⟩
    exact ⟨_, _, h.moved hτ (d.moved m)⟩
  atTime := by
    rintro hs d clock ⟨sent, dropped, h⟩
    exact ⟨sent, dropped, h.delivered, h.pending, h.reported, h.inOrder⟩
  withOutbox := by
    rintro hs d o hq hc ⟨sent, dropped, h⟩
    have hw : ({ d with outbox := o } : Delivery (Logged τ)).pending = d.pending := by
      simp only [Delivery.pending, waiting, hq]
    have hr : o.telemetry.counts.packetsDropped = d.outbox.telemetry.counts.packetsDropped := by
      show o.telemetry.counts.ends.packetsDropped = d.outbox.telemetry.counts.ends.packetsDropped
      rw [hc]
    exact ⟨sent, dropped, h.delivered, hw ▸ h.pending, hr.trans h.reported, hw ▸ h.inOrder⟩
  offer := by
    rintro hs d b hb ⟨sent, dropped, h⟩
    exact ⟨sent, h.offer hb⟩

/-- If no dropped payload is reported once a delivery is shut down, and not because so many were
dropped that their count has wrapped around, then all that was handed over was sent. -/
theorem shutdown (hτ : Reliable τ) (h : Dispatched handed sent dropped d) (hg : Going handed d)
    (hr : d.shutdown.outbox.telemetry.counts.packetsDropped = 0)
    (hn : handed.length < d.shutdown.transport.payloads.length + UInt64.size) :
    ∃ sent', d.shutdown.transport.payloads = sent'.map Buffer.bytes ∧ sent'.Perm handed ∧
      (d.workers.length = 1 → sent' = handed) := by
  obtain ⟨sent', dropped', h'⟩ : ∃ sent' dropped', Dispatched handed sent' dropped' d.shutdown := by
    apply shutdown_kept (I := fun d' => ∃ sent' dropped', Dispatched handed sent' dropped' d')
    · rintro d' m ⟨sent', dropped', h'⟩
      exact ⟨_, _, h'.moved hτ (d'.moved m)⟩
    · exact ⟨sent, dropped, h.delivered, h.pending, h.reported, h.inOrder⟩
  have hworkers : d.shutdown.workers.length = d.workers.length :=
    shutdown_kept (I := fun d' => d'.workers.length = d.workers.length)
      (fun d' m h => (d'.moved m).length_workers.trans h) rfl
  have hnone : d.shutdown.pending = [] := by
    rw [pending_of_gone d.shutdown_gone]
    exact (hg.shutdown hτ.logged.sturdy).1
  have hp := h'.pending
  rw [hnone, List.append_nil] at hp
  -- Fewer than 2^64 payloads were dropped, so their number is what is reported.
  have hd : dropped' = [] := by
    have hlen := hp.length_eq
    rw [h'.delivered, List.length_map] at hn
    have hcount := congrArg UInt64.toNat (h'.reported.symm.trans hr)
    have hs : UInt64.size = 18446744073709551616 := rfl
    simp only [List.length_append] at hlen
    simp only [Nat.toUInt64, UInt64.toNat_ofNat', UInt64.toNat_zero] at hcount
    apply List.eq_nil_of_length_eq_zero
    omega
  rw [hd, List.append_nil] at hp
  refine ⟨sent', h'.delivered, hp, ?_⟩
  intro hl
  have hsub := h'.inOrder (hworkers.trans hl)
  rw [hnone, List.append_nil] at hsub
  exact hsub.eq_of_length hp.length_eq

end Dispatched
end Delivery
end MetricPipeline
