import MetricPipeline.Delivery.Loopback
import MetricPipeline.Proofs.Shards
import MetricPipeline.Proofs.Shutdown

namespace MetricPipeline

/-- The counts of sent, failed and dropped payloads come to so many packets and bytes, as far as
64 bits hold them. -/
structure Telemetry.Snapshot.Balances (s : Snapshot) (packets bytes : Nat) : Prop where
  packets_eq : s.packetsSent + s.packetsDroppedByWriter + s.packetsDroppedAtQueue = packets.toUInt64
  bytes_eq : s.bytesSent + s.bytesDroppedByWriter + s.bytesDroppedAtQueue = bytes.toUInt64
  packets_exact : packets < UInt64.size →
    s.packetsSent.toNat + s.packetsDroppedByWriter.toNat + s.packetsDroppedAtQueue.toNat = packets
  bytes_exact : bytes < UInt64.size →
    s.bytesSent.toNat + s.bytesDroppedByWriter.toNat + s.bytesDroppedAtQueue.toNat = bytes

theorem toUInt64_add_add {a b c n : Nat} (h : a + b + c = n) :
    a.toUInt64 + b.toUInt64 + c.toUInt64 = n.toUInt64 := by
  subst h
  simp

theorem toNat_add_add {a b c n : Nat} (h : a + b + c = n) (hn : n < UInt64.size) :
    a.toUInt64.toNat + b.toUInt64.toNat + c.toUInt64.toNat = n := by
  have hs : UInt64.size = 18446744073709551616 := rfl
  simp only [Nat.toUInt64, UInt64.toNat_ofNat']
  omega

theorem totalLength_eq (bs : List Buffer) :
    totalLength bs = (bs.map Buffer.bytes).flatten.length := by
  induction bs with
  | nil => rfl
  | cons b bs ih =>
    simp only [totalLength, List.map_cons, List.sum_cons, List.flatten_cons,
      List.length_append] at ih ⊢
    rw [ih, Buffer.length]

theorem Telemetry.Snapshot.balances_of_tally {s : Snapshot} {log : Log} {handed : List Buffer}
    (hs : s.ends = tally {} log) (hp : (Log.payloads log).Perm handed)
    (hl : ∀ e ∈ log, e.2.isSettled = true) :
    s.Balances handed.length (totalLength handed) ∧
      (Log.ending log .sent ++ Log.ending log .failed ++ Log.ending log .discarded).Perm
        handed := by
  have hall : Log.settled log = Log.payloads log := by
    rw [Log.settled, List.filter_eq_self.mpr hl]
  have hends := (hall ▸ Log.settled_perm log).trans hp
  have hlen := hends.length_eq
  have htot : totalLength _ = totalLength handed := (hends.map Buffer.length).sum_eq
  simp only [List.length_append, totalLength_append] at hlen htot
  have h₁ := congrArg packetsSent hs
  have h₂ := congrArg packetsDroppedByWriter hs
  have h₃ := congrArg packetsDroppedAtQueue hs
  have h₄ := congrArg bytesSent hs
  have h₅ := congrArg bytesDroppedByWriter hs
  have h₆ := congrArg bytesDroppedAtQueue hs
  simp only [ends, tally, UInt64.zero_add] at h₁ h₂ h₃ h₄ h₅ h₆
  refine ⟨⟨?_, ?_, ?_, ?_⟩, hends⟩
  · rw [h₁, h₂, h₃]
    exact toUInt64_add_add hlen
  · rw [h₄, h₅, h₆]
    exact toUInt64_add_add htot
  · rw [h₁, h₂, h₃]
    exact toNat_add_add hlen
  · rw [h₄, h₅, h₆]
    exact toNat_add_add htot

namespace Client

variable {σ τ : Type} [WordSource σ] [Transport τ]

/-- What a client is asked to do while it is open, and what it does by itself: a flush. -/
inductive Request
  | submit (m : Metric)
  | flush

def perform (c : Client σ τ) : Request → Client σ τ
  | .submit m => (c.submit m).2
  | .flush => c.flush

def performAll (c : Client σ τ) (rs : List Request) : Client σ τ := rs.foldl perform c

def next? (c : Client σ τ) : Option Packer :=
  if c.closed then none else c.shards[c.turn]?

def handedBy (c : Client σ τ) : Request → List Buffer
  | .submit m =>
    match c.next? with
    | some p => p.handed c.words c.delivery [.process (c.stamp m)]
    | none => []
  | .flush => (flushShards c.shards ({ outlet := c.delivery } : Traced (Delivery τ))).2.handed

def acceptedBy (c : Client σ τ) : Request → List Metric
  | .submit m =>
    match c.next? with
    | some _ => Packer.Call.accepted c.words (.process (c.stamp m))
    | none => []
  | .flush => []

def handed (c : Client σ τ) : List Request → List Buffer
  | [] => []
  | r :: rs => c.handedBy r ++ (c.perform r).handed rs

def accepted (c : Client σ τ) : List Request → List Metric
  | [] => []
  | r :: rs => c.acceptedBy r ++ (c.perform r).accepted rs

/-- The accounts of a client that has handed over these payloads and written the lines of these
cuts, from shards with the buffers `blanks` on. -/
structure Balanced (blanks handed : List Buffer) (cuts : List Cut) (c : Client σ τ) : Prop where
  going : Delivery.Going handed c.delivery
  carried : CarriedAll blanks (cuts.flatMap Cut.lines) (c.shards.map Packer.current) handed
  complete : ∀ k ∈ cuts, k.IsComplete
  isOpen : c.closed = false

variable {c : Client σ τ} {blanks payloads : List Buffer} {cuts : List Cut}

theorem submit_of_none (h : c.next? = none) (m : Metric) : (c.submit m).2 = c := by
  unfold next? at h
  unfold submit
  split
  · rfl
  · rename_i hc
    rw [if_neg hc] at h
    simp only [h]

theorem submit_of_some {p : Packer} (h : c.next? = some p) (m : Metric) :
    (c.submit m).2 =
      let r := p.call c.words c.delivery (.process (c.stamp m))
      { c with
        shards := c.shards.set c.turn r.1
        turns := c.turns + 1
        words := r.2.1
        delivery := r.2.2 } := by
  unfold next? at h
  unfold submit
  split at h
  · cases h
  · rename_i hc
    rw [if_neg hc]
    simp only [h]
    rfl

theorem submit_carried {p : Packer} (h : c.next? = some p) (m : Metric) :
    ∃ (cuts' : List Cut) (p' : Packer), cuts'.map Cut.metric = c.acceptedBy (.submit m) ∧
      (∀ k ∈ cuts', k.IsComplete) ∧
        (c.submit m).2.shards = c.shards.set c.turn p' ∧
          Carried p.current (cuts'.flatMap Cut.lines) p'.current (c.handedBy (.submit m)) := by
  let t : Traced (Delivery τ) := { outlet := c.delivery }
  let call : Packer.Call := .process (c.stamp m)
  obtain ⟨cuts', ps, hm, hk, hh, hc⟩ := p.call_carried c.words t call
  have hp : c.handedBy (.submit m) = ps := by
    simp only [handedBy, h]
    exact hh
  -- The call on the client's own delivery is the traced one, seen without its trace.
  have hv : p.call c.words c.delivery call = _ := Packer.call_view Traced.untraced p c.words t call
  refine ⟨cuts', (p.call c.words t call).1, ?_, hk, ?_, ?_⟩
  · simp only [acceptedBy, h]
    exact hm
  · rw [submit_of_some h]
    simp only [call] at hv
    simp only [hv]
    rfl
  · rw [hp]
    exact hc

/-- What outlives all that workers and packers do outlives a request. -/
theorem perform_upheld {J : List Buffer → Delivery τ → Prop} (hJ : Delivery.Upheld J)
    (h : J payloads c.delivery) (r : Request) :
    J (payloads ++ c.handedBy r) (c.perform r).delivery := by
  let t : Traced (Delivery τ) := { outlet := c.delivery }
  have ht : J (payloads ++ t.handed) t.outlet := by simpa [t] using h
  cases r with
  | submit m =>
    cases hn : c.next? with
    | none =>
      rw [perform, submit_of_none hn]
      simpa [handedBy, hn] using h
    | some p =>
      have hv : p.call c.words c.delivery (.process (c.stamp m)) = _ :=
        Packer.call_view Traced.untraced p c.words t _
      have hp : c.handedBy (.submit m) = (p.call c.words t (.process (c.stamp m))).2.2.handed := by
        simp only [handedBy, hn]
        rfl
      rw [perform, submit_of_some hn, hp]
      simp only [hv]
      exact (hJ.keeps payloads).process p (c.stamp m) c.words ht
  | flush =>
    have hv : flushShards c.shards c.delivery = _ := flushShards_view Traced.untraced c.shards t
    rw [perform, Client.flush, hv]
    exact flushShards_kept (hJ.keeps payloads) c.shards ht

theorem Balanced.submit (hτ : Delivery.Sturdy τ) (h : Balanced blanks payloads cuts c)
    (m : Metric) :
    ∃ cuts', cuts'.map Cut.metric = c.acceptedBy (.submit m) ∧
      Balanced blanks (payloads ++ c.handedBy (.submit m)) (cuts ++ cuts') (c.submit m).2 := by
  have hgoing := perform_upheld (Delivery.Going.upheld hτ) h.going (.submit m)
  cases hn : c.next? with
  | none =>
    refine ⟨[], by simp [acceptedBy, hn], ?_⟩
    rw [submit_of_none hn]
    simpa [handedBy, hn] using h
  | some p =>
    obtain ⟨cuts', p', hm, hk, hs, hc⟩ := submit_carried hn m
    have hi : c.shards[c.turn]? = some p := by
      simpa [next?, h.isOpen] using hn
    have hcur : (c.shards.map Packer.current)[c.turn]? = some p.current := by
      simp [hi]
    refine ⟨cuts', hm, hgoing, ?_, ?_, ?_⟩
    · rw [hs, List.map_set, List.flatMap_append]
      exact h.carried.trans (hc.set hcur)
    · intro k hkm
      exact (List.mem_append.mp hkm).elim (h.complete k) (hk k)
    · rw [submit_of_some hn]
      exact h.isOpen

theorem Balanced.flush (hτ : Delivery.Sturdy τ) (h : Balanced blanks payloads cuts c) :
    Balanced blanks (payloads ++ c.handedBy .flush) cuts c.flush := by
  have hgoing := perform_upheld (Delivery.Going.upheld hτ) h.going .flush
  let t : Traced (Delivery τ) := { outlet := c.delivery }
  obtain ⟨ps, hh, hc⟩ := flushShards_carried c.shards t
  have hp : c.handedBy .flush = ps := hh
  have hv : flushShards c.shards c.delivery = _ := flushShards_view Traced.untraced c.shards t
  have hcar := h.carried.trans hc
  rw [List.append_nil] at hcar
  refine ⟨hgoing, ?_, h.complete, h.isOpen⟩
  rw [Client.flush, hv, hp]
  exact hcar

theorem Balanced.perform (hτ : Delivery.Sturdy τ) (h : Balanced blanks payloads cuts c)
    (r : Request) :
    ∃ cuts', cuts'.map Cut.metric = c.acceptedBy r ∧
      Balanced blanks (payloads ++ c.handedBy r) (cuts ++ cuts') (c.perform r) := by
  cases r with
  | submit m => exact h.submit hτ m
  | flush => exact ⟨[], rfl, by simpa [Client.perform] using h.flush hτ⟩

theorem Balanced.performAll (hτ : Delivery.Sturdy τ) (h : Balanced blanks payloads cuts c)
    (rs : List Request) :
    ∃ cuts', cuts'.map Cut.metric = c.accepted rs ∧
      Balanced blanks (payloads ++ c.handed rs) (cuts ++ cuts') (c.performAll rs) := by
  induction rs generalizing c payloads cuts with
  | nil => exact ⟨[], rfl, by simpa [handed, performAll] using h⟩
  | cons r rs ih =>
    obtain ⟨cuts₁, hm₁, h₁⟩ := h.perform hτ r
    obtain ⟨cuts₂, hm₂, h₂⟩ := ih h₁
    refine ⟨cuts₁ ++ cuts₂, by simp [accepted, hm₁, hm₂], ?_⟩
    simpa [handed, performAll] using h₂

theorem performAll_upheld {J : List Buffer → Delivery τ → Prop} (hJ : Delivery.Upheld J)
    (h : J payloads c.delivery) (rs : List Request) :
    J (payloads ++ c.handed rs) (c.performAll rs).delivery := by
  induction rs generalizing c payloads with
  | nil => simpa [handed, performAll] using h
  | cons r rs ih =>
    have hr := ih (perform_upheld hJ h r)
    rw [List.append_assoc] at hr
    exact hr

def baseDelivery (s : Settings) (transport : τ) (schedule : Nat → List Move) : Delivery τ where
  outbox :=
    { pool := Pool.create s.initialBuffers s.maxBuffers s.limits
      queue := { bound := s.queueLength } }
  transport := transport
  schedule := schedule
  workers := Delivery.crew s.workers
  drain := s.drain
  policy := s.policy

omit [WordSource σ] in
theorem open_upheld {s : Settings} {transport : τ} {words : σ} {schedule : Nat → List Move}
    {J : List Buffer → Delivery τ → Prop} (hJ : Delivery.Upheld J)
    (hstart : J [] (baseDelivery s transport schedule))
    (h : open? s transport words schedule = .ok c) : J [] c.delivery := by
  unfold open? at h
  split at h
  · cases h
  · cases h
    exact createShards_kept (fun d hd => hJ.borrow hd) s.shards hstart

theorem requests_upheld {s : Settings} {transport : τ} {words : σ} {schedule : Nat → List Move}
    {J : List Buffer → Delivery τ → Prop} (hJ : Delivery.Upheld J)
    (hstart : J [] (baseDelivery s transport schedule))
    (h : open? s transport words schedule = .ok c) (rs : List Request) :
    J (c.handed rs) (c.performAll rs).delivery := by
  have hr := performAll_upheld hJ (open_upheld hJ hstart h) rs
  rwa [List.nil_append] at hr

omit [Transport τ] in
theorem going_base (s : Settings) (transport : τ) (schedule : Nat → List Move) :
    Delivery.Going [] (baseDelivery s transport schedule) := by
  have hx (x : Worker) (hx : x ∈ Delivery.crew s.workers) : x = .listening false :=
    List.eq_of_mem_replicate hx
  refine ⟨⟨rfl, rfl, ?_, ?_⟩, [], ?_, rfl, by simp, ?_, ?_⟩
  · intro x hm
    rw [hx x hm]
    exact ⟨rfl, rfl⟩
  · apply List.ne_nil_of_length_pos
    simp only [baseDelivery, Delivery.crew, List.length_replicate]
    omega
  · simp [baseDelivery, Delivery.pending, Delivery.crew, Delivery.waiting, Worker.payload?,
      Log.payloads]
  · intro hm
    cases hx _ hm
  · intro hm
    cases hx _ hm

omit [WordSource σ] in
theorem balanced_open {s : Settings} {transport : τ} {words : σ} {schedule : Nat → List Move}
    (hτ : Delivery.Sturdy τ) (h : open? s transport words schedule = .ok c) :
    Balanced (c.shards.map Packer.current) [] [] c ∧ ∀ p ∈ c.shards, p.current.bytes = [] := by
  have hgoing := open_upheld (Delivery.Going.upheld hτ) (going_base s transport schedule) h
  unfold open? at h
  split at h
  · cases h
  · cases h
    exact ⟨⟨hgoing, CarriedAll.refl _, by simp, rfl⟩, createShards_blank _ _⟩

omit [WordSource σ] [Transport τ] in
theorem Balanced.lines (h : Balanced blanks payloads cuts c)
    (hb : ∀ b ∈ blanks, b.bytes = []) (hc : ∀ p ∈ c.shards, p.current.bytes = []) :
    ∃ groups : List (List Bytes), payloads.map Buffer.bytes = groups.map List.flatten ∧
      groups.flatten.Perm (cuts.flatMap Cut.lines) := by
  obtain ⟨groups, last, hg, hl, hp⟩ := h.carried (blanks.map fun _ => []) (by
    rw [List.map_map]
    apply List.map_congr_left
    simpa using hb)
  have hheld : (blanks.map fun _ => ([] : List Bytes)).flatten = [] := by simp
  rw [hheld, List.nil_append] at hp
  -- What is left in the shards would be lines of cuts, and these are not empty.
  have hlast : last.flatten = [] := by
    rw [List.eq_nil_iff_forall_not_mem]
    intro line hline
    obtain ⟨lines, hlines, hmem⟩ := List.mem_flatten.mp hline
    have hempty : lines.flatten = [] := by
      have hm := List.mem_map_of_mem (f := List.flatten) hlines
      rw [← hl] at hm
      simp only [List.map_map, List.mem_map, Function.comp_def] at hm
      obtain ⟨p, hps, hpe⟩ := hm
      rw [← hpe, hc p hps]
    obtain ⟨k, hk, hkl⟩ := List.mem_flatMap.mp (hp.mem_iff.mp (List.mem_append_right _ hline))
    apply (h.complete k hk).ne_nil_of_mem_lines hkl
    exact List.flatten_eq_nil_iff.mp hempty _ hmem
  rw [hlast, List.append_nil] at hp
  exact ⟨groups, hg, hp⟩

theorem performAll_of_closed (hc : c.closed = true) (hb : ∀ p ∈ c.shards, p.current.bytes = [])
    (rs : List Request) : c.performAll rs = c := by
  induction rs with
  | nil => rfl
  | cons r rs ih =>
    have hr : c.perform r = c := by
      cases r with
      | submit m => simp [perform, Client.submit, hc]
      | flush =>
        rw [perform, Client.flush, flushShards_of_blank hb]
    rw [performAll, List.foldl_cons, hr]
    exact ih

theorem performAll_flush (c : Client σ τ) (rs : List Request) :
    c.performAll (rs ++ [.flush]) = (c.performAll rs).flush := by
  simp [performAll, List.foldl_append, perform]

theorem handed_append (c : Client σ τ) (rs rs' : List Request) :
    c.handed (rs ++ rs') = c.handed rs ++ (c.performAll rs).handed rs' := by
  induction rs generalizing c with
  | nil => rfl
  | cons r rs ih =>
    rw [List.cons_append, handed, handed, ih, List.append_assoc]
    rfl

/-- Over a transport that no worker crashes on, a client that is closed has left nothing in its
shards or in the queue. What its shards handed over was sent, failed or was dropped, counted packet
by packet and byte by byte, and holds the lines of the metrics it accepted. From then on it takes no
metric, and nothing changes. -/
theorem close_accounts {s : Settings} {transport : τ} {words : σ} {schedule : Nat → List Move}
    (hτ : Delivery.Sturdy τ) (hopen : open? s transport words schedule = .ok c)
    (rs : List Request) :
    let closed := (c.performAll rs).close
    let payloads := c.handed (rs ++ [.flush])
    (∀ p ∈ closed.shards, p.current.bytes = []) ∧
      closed.delivery.outbox.queue.waiting = [] ∧
      (∃ sent failed dropped : List Buffer, (sent ++ failed ++ dropped).Perm payloads ∧
        closed.telemetry.ends =
          { packetsSent := sent.length.toUInt64
            bytesSent := (totalLength sent).toUInt64
            packetsDroppedByWriter := failed.length.toUInt64
            bytesDroppedByWriter := (totalLength failed).toUInt64
            packetsDroppedAtQueue := dropped.length.toUInt64
            bytesDroppedAtQueue := (totalLength dropped).toUInt64 }) ∧
      (∃ (cuts : List Cut) (groups : List (List Bytes)),
        cuts.map Cut.metric = c.accepted rs ∧ (∀ k ∈ cuts, k.IsComplete) ∧
          payloads.map Buffer.bytes = groups.map List.flatten ∧
            groups.flatten.Perm (cuts.flatMap Cut.lines) ∧
              closed.telemetry.Balances payloads.length
                (cuts.flatMap Cut.lines).flatten.length) ∧
      closed.close = closed ∧ (∀ m, closed.submit m = (.error .closed, closed)) ∧
      ∀ rs', closed.performAll rs' = closed := by
  intro closed payloads
  obtain ⟨hstart, hblank⟩ := balanced_open hτ hopen
  obtain ⟨cuts, hm, hrun⟩ := hstart.performAll hτ rs
  rw [List.nil_append, List.nil_append] at hrun
  have hflush := hrun.flush hτ
  have hpay : payloads = c.handed rs ++ (c.performAll rs).handedBy .flush := by
    simp only [payloads, handed_append, handed, List.append_nil]
  rw [← hpay] at hflush
  have hshards : ∀ p ∈ (c.performAll rs).flush.shards, p.current.bytes = [] :=
    flushShards_blank _ _
  have hclosed : closed = { (c.performAll rs).flush with
      closed := true, delivery := (c.performAll rs).flush.delivery.shutdown } := by
    simp only [closed, Client.close, hrun.isOpen]
    rfl
  -- The flush leaves nothing in the shards, and the shutdown nothing in the queue.
  obtain ⟨hwait, log, hp, hcounts, hset⟩ := hflush.going.shutdown hτ
  obtain ⟨groups, hg, hperm⟩ := hflush.lines (by simpa using hblank) hshards
  obtain ⟨hbal, hends⟩ := Telemetry.Snapshot.balances_of_tally hcounts hp hset
  have hlen : totalLength payloads = (cuts.flatMap Cut.lines).flatten.length := by
    rw [totalLength_eq, hg, ← List.flatten_flatten]
    exact hperm.flatten.length_eq
  have hc : closed.closed = true := by rw [hclosed]
  have hb : ∀ p ∈ closed.shards, p.current.bytes = [] := by
    rw [hclosed]
    exact hshards
  refine ⟨hb, ?_, ⟨_, _, _, hends, ?_⟩, ⟨cuts, groups, hm, hflush.complete, hg, hperm, ?_⟩, ?_, ?_,
    performAll_of_closed hc hb⟩
  · rw [hclosed]
    exact hwait
  · rw [hclosed]
    refine hcounts.trans ?_
    simp [Telemetry.Snapshot.tally]
  · rw [hclosed, ← hlen]
    exact hbal
  · simp [Client.close, hc]
  · intro m
    simp [Client.submit, hc]

theorem sturdy_socket {ν : Type} [Network ν] : Delivery.Sturdy (Socket ν) := by
  intro payload s
  simp only [Transport.send]
  split <;> simp

def tightSettings : Settings :=
  { Settings.ofProcessors 2 with limits := ⟨16, 2⟩, queueLength := 1, workers := 2, drain := false }

def tightClient : Client Cycle (Socket Loopback) :=
  start tightSettings { kind := .udp, network := { kind := .udp, timeout := 1000 } }
    { words := [] } fun _ => [.take 0, .take 1, .send 0]

def tightRequests : List Request :=
  [.submit { name := "hits", value := .count 1 }, .flush,
    .submit { name := "beyond-all-limits", value := .count 1 }]

set_option maxRecDepth 2000 in
theorem close_tightClient :
    open? tightSettings tightClient.delivery.transport { words := [] }
        (fun _ => [.take 0, .take 1, .send 0]) = .ok tightClient ∧
      (tightClient.performAll tightRequests).close.delivery.outbox.queue.waiting = [] ∧
        ∃ bytes, (tightClient.performAll tightRequests).close.telemetry.Balances
          (tightClient.handed (tightRequests ++ [.flush])).length bytes := by
  have hopen : open? tightSettings tightClient.delivery.transport { words := [] }
      (fun _ => [.take 0, .take 1, .send 0]) = .ok tightClient := rfl
  obtain ⟨-, hwait, -, ⟨cuts, groups, -, -, -, -, hbal⟩, -⟩ :=
    close_accounts sturdy_socket hopen tightRequests
  exact ⟨hopen, hwait, _, hbal⟩

end Client
end MetricPipeline
