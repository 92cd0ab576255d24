import MetricPipeline.Proofs.Accounting
import MetricPipeline.Proofs.Dispatch
import MetricPipeline.Proofs.Newlines

namespace MetricPipeline

structure Row where
  frame : Frame
  points : List Bytes

namespace Row

def bytes (r : Row) : Bytes := r.frame.line r.points

def triples (r : Row) : List (Bytes × Bytes × Bytes) :=
  r.points.map fun p => (r.frame.header, p, r.frame.trailer)

end Row

/-- The points of a metric, each with the header and the trailer that belong to it. -/
def Metric.triples (m : Metric) : List (Bytes × Bytes × Bytes) :=
  m.value.points.map fun p => (m.header, p, m.trailer)

def Cut.rows (k : Cut) : List Row := k.runs.map fun run => ⟨k.metric.frame, run⟩

theorem Cut.bytes_rows (k : Cut) : k.rows.map Row.bytes = k.lines := by
  rw [rows, lines, List.map_map]
  rfl

theorem Cut.IsComplete.triples_rows {k : Cut} (h : k.IsComplete) :
    k.rows.flatMap Row.triples = k.metric.triples := by
  rw [Metric.triples, ← h.flatten_runs, List.map_flatten, Cut.rows, List.flatMap_map,
    List.flatMap_def]
  rfl

theorem Cut.IsComplete.ends_of_mem_lines {k : Cut} (h : k.IsComplete) {line : Bytes}
    (hl : line ∈ k.lines) : ∃ body, line = body ++ [newline] ∧ newline ∉ body := by
  obtain ⟨run, hrun, rfl⟩ := List.mem_map.mp hl
  apply k.metric.line_eq
  rw [← h.flatten_runs]
  intro p hp
  exact List.mem_flatten_of_mem hrun hp

/-- The lines of a text, each up to its newline. -/
def linesOf : Bytes → List Bytes
  | [] => []
  | b :: bs =>
    if b = newline then [b] :: linesOf bs
    else
      match linesOf bs with
      | [] => [[b]]
      | line :: lines => (b :: line) :: lines

theorem linesOf_append {body : Bytes} (h : newline ∉ body) (rest : Bytes) :
    linesOf (body ++ [newline] ++ rest) = (body ++ [newline]) :: linesOf rest := by
  induction body with
  | nil => simp [linesOf]
  | cons b body ih =>
    obtain ⟨hb, hbody⟩ : newline ≠ b ∧ newline ∉ body := by simpa using h
    simp only [List.cons_append, linesOf, if_neg (Ne.symm hb)]
    rw [ih hbody]

theorem linesOf_flatten {lines : List Bytes}
    (h : ∀ line ∈ lines, ∃ body, line = body ++ [newline] ∧ newline ∉ body) :
    linesOf lines.flatten = lines := by
  induction lines with
  | nil => rfl
  | cons line lines ih =>
    obtain ⟨body, rfl, hb⟩ := h line List.mem_cons_self
    rw [List.flatten_cons, linesOf_append hb, ih fun l hl => h l (List.mem_cons_of_mem _ hl)]

section Pages

variable {α β : Type}

theorem exists_of_perm_map {f : α → β} {ys : List β} {xs : List α} (h : ys.Perm (xs.map f)) :
    ∃ xs' : List α, ys = xs'.map f ∧ xs'.Perm xs := by
  have hc := congrFun (congrFun (List.eq_map_comp_perm f) ys) xs
  exact hc.mpr h

theorem exists_of_flatten_eq_map {f : α → β} {groups : List (List β)} {xs : List α}
    (h : groups.flatten = xs.map f) :
    ∃ groups' : List (List α), groups = groups'.map (List.map f) ∧ groups'.flatten = xs := by
  induction groups generalizing xs with
  | nil => exact ⟨[], rfl, (List.map_eq_nil_iff.mp h.symm).symm⟩
  | cons g groups ih =>
    rw [List.flatten_cons] at h
    obtain ⟨front, back, rfl, hf, hb⟩ := List.map_eq_append_iff.mp h.symm
    obtain ⟨groups', hg, rfl⟩ := ih hb.symm
    exact ⟨front :: groups', by rw [List.map_cons, hf, hg], rfl⟩

end Pages

/-- Whether a metric is written, unless that is left to chance. -/
def Metric.isWritten (m : Metric) : Bool := m.rate.chance = .always && m.rejection?.isNone

def Settings.stamp (s : Settings) (m : Metric) : Metric :=
  { m with
    scope := if m.scope = "" then s.scope else m.scope
    globalTags := if m.globalTags = [] then s.globalTags else m.globalTags }

namespace Client

def Request.metric? : Request → Option Metric
  | .submit m => some m
  | .flush => none

def submissions (rs : List Request) : List Metric := rs.filterMap Request.metric?

def writtenBy (s : Settings) (rs : List Request) : List Metric :=
  ((submissions rs).map s.stamp).filter Metric.isWritten

section Written

variable {σ τ : Type} [WordSource σ] [Transport τ] {c : Client σ τ}

omit [Transport τ] in
theorem length_flushShards {ω : Type} [Outlet ω] (ps : List Packer) (w : ω) :
    (flushShards ps w).1.length = ps.length := by
  induction ps generalizing w with
  | nil => rfl
  | cons p ps ih => simp [flushShards, ih]

structure Bearing (s : Settings) (c : Client σ τ) : Prop where
  isOpen : c.closed = false
  shards : c.shards.length = s.shards
  stamp : c.stamp = s.stamp

theorem Bearing.perform {s : Settings} (h : Bearing s c) (r : Request) :
    Bearing s (c.perform r) := by
  cases r with
  | submit m =>
    cases hn : c.next? with
    | none =>
      rw [Client.perform, submit_of_none hn]
      exact h
    | some p =>
      rw [Client.perform, submit_of_some hn]
      exact ⟨h.isOpen, by simpa using h.shards, h.stamp⟩
  | flush => exact ⟨h.isOpen, (length_flushShards _ _).trans h.shards, h.stamp⟩

omit [WordSource σ] in
theorem bearing_open {s : Settings} {transport : τ} {words : σ} {schedule : Nat → List Move}
    (h : open? s transport words schedule = .ok c) : Bearing s c ∧ 0 < s.shards := by
  have hlen {ω : Type} [Outlet ω] (n : Nat) (w : ω) : (createShards n w).1.length = n := by
    induction n generalizing w with
    | zero => rfl
    | succ n ih => simp [createShards, ih]
  unfold open? at h
  split at h
  · cases h
  · rename_i hv
    cases h
    refine ⟨⟨rfl, hlen _ _, rfl⟩, ?_⟩
    apply Nat.pos_of_ne_zero
    intro hz
    simp [Settings.invalid?, hz] at hv
    grind

theorem accepted_of_sure {m : Metric} (h : m.rate.chance ≠ .drawn) (s : σ) :
    (Packer.Call.process m).accepted s = [m].filter Metric.isWritten := by
  cases hc : m.rate.chance with
  | always =>
    simp only [Packer.Call.accepted, decideSample, hc, Bool.true_and, List.filter_cons,
      List.filter_nil, Metric.isWritten, decide_true]
  | never =>
    simp [Packer.Call.accepted, decideSample, Metric.isWritten, hc]
  | drawn => exact absurd hc h

theorem Bearing.accepted {s : Settings} (h : Bearing s c) (hs : 0 < s.shards) {rs : List Request}
    (hr : ∀ m ∈ submissions rs, m.rate.chance ≠ .drawn) : c.accepted rs = writtenBy s rs := by
  induction rs generalizing c with
  | nil => rfl
  | cons r rs ih =>
    cases r with
    | flush => exact ih (h.perform .flush) hr
    | submit m =>
      have hm : m.rate.chance ≠ .drawn := hr m List.mem_cons_self
      have hrest := ih (h.perform (.submit m)) fun m' hm' => hr m' (List.mem_cons_of_mem _ hm')
      obtain ⟨p, hp⟩ : ∃ p, c.next? = some p := by
        have hi : c.turn < c.shards.length := by
          apply Nat.mod_lt
          rw [h.shards]
          exact hs
        refine ⟨c.shards[c.turn], ?_⟩
        simp [next?, h.isOpen, hi]
      have hstamp : (s.stamp m).rate.chance ≠ .drawn := hm
      have hnow : c.acceptedBy (.submit m) = [s.stamp m].filter Metric.isWritten := by
        simp only [acceptedBy, hp, h.stamp, accepted_of_sure hstamp]
      rw [Client.accepted, hnow, hrest]
      exact (List.filter_append [s.stamp m] ((submissions rs).map s.stamp)).symm

theorem perform_carried {p : Packer} (hp : c.shards = [p]) (hc : c.closed = false) (r : Request) :
    ∃ (cuts : List Cut) (p' : Packer), cuts.map Cut.metric = c.acceptedBy r ∧
      (∀ k ∈ cuts, k.IsComplete) ∧ (c.perform r).shards = [p'] ∧ (c.perform r).closed = false ∧
        Carried p.current (cuts.flatMap Cut.lines) p'.current (c.handedBy r) := by
  cases r with
  | submit m =>
    have hturn : c.turn = 0 := by rw [turn, hp, List.length_singleton, Nat.mod_one]
    have hn : c.next? = some p := by simp [next?, hc, hp, hturn]
    obtain ⟨cuts, p', hm, hk, hs, hcar⟩ := submit_carried hn m
    refine ⟨cuts, p', hm, hk, ?_, ?_, hcar⟩
    · rw [perform, hs, hp, hturn]
      rfl
    · rw [perform, submit_of_some hn]
      exact hc
  | flush =>
    let t : Traced (Delivery τ) := { outlet := c.delivery }
    obtain ⟨payloads, hh, hcar⟩ := p.flush_carried t
    have hv : p.flush c.delivery = _ := Traced.untraced.flush_view p t
    refine ⟨[], (p.flush t).1, rfl, by simp, ?_, hc, ?_⟩
    · rw [perform, Client.flush, hp]
      simp only [flushShards, hv]
    · have hhanded : c.handedBy .flush = payloads := by
        simp only [handedBy, hp, flushShards]
        exact hh
      rw [hhanded]
      exact hcar

theorem performAll_carried {p : Packer} (hp : c.shards = [p]) (hc : c.closed = false)
    (rs : List Request) :
    ∃ (cuts : List Cut) (p' : Packer), cuts.map Cut.metric = c.accepted rs ∧
      (∀ k ∈ cuts, k.IsComplete) ∧ (c.performAll rs).shards = [p'] ∧
        Carried p.current (cuts.flatMap Cut.lines) p'.current (c.handed rs) := by
  induction rs generalizing c p with
  | nil => exact ⟨[], p, rfl, by simp, hp, Carried.refl _⟩
  | cons r rs ih =>
    obtain ⟨cuts, p', hm, hk, hs, hc', hcar⟩ := perform_carried hp hc r
    obtain ⟨cuts', p'', hm', hk', hs', hcar'⟩ := ih hs hc'
    refine ⟨cuts ++ cuts', p'', by rw [List.map_append, hm, hm', accepted], ?_, hs', ?_⟩
    · intro k hkm
      exact (List.mem_append.mp hkm).elim (hk k) (hk' k)
    · rw [List.flatMap_append, handed]
      exact hcar.trans hcar'

end Written

section Delivered

variable {σ τ : Type} [WordSource σ] [Transport τ]

/-- What the transport of a client has got once it is closed after the requests. -/
def delivered (c : Client σ (Logged τ)) (rs : List Request) : List Bytes :=
  (c.performAll rs).close.delivery.transport.payloads

/-- A client with settings `s` that reports no dropped packet when it is closed after the requests,
with the count of these not wrapped around. -/
structure Undropped (s : Settings) (rs : List Request) (c : Client σ (Logged τ)) : Prop where
  opened : ∃ (transport : τ) (words : σ) (schedule : Nat → List Move),
    open? s ({ transport } : Logged τ) words schedule = .ok c
  reported : (c.performAll rs).close.telemetry.packetsDropped = 0
  unwrapped : (c.handed (rs ++ [.flush])).length < (c.delivered rs).length + UInt64.size

variable {s : Settings} {rs : List Request} {c : Client σ (Logged τ)}

omit [WordSource σ] [Transport τ] in
theorem dispatched_base (s : Settings) (transport : τ) (schedule : Nat → List Move) :
    Delivery.Dispatched [] [] [] (baseDelivery s ({ transport } : Logged τ) schedule) := by
  refine ⟨rfl, ?_, rfl, ?_⟩
  · simp [baseDelivery, Delivery.pending, Delivery.waiting, Delivery.crew, Worker.payload?]
  · simp [baseDelivery, Delivery.pending, Delivery.waiting, Delivery.crew, Worker.payload?]

theorem Undropped.sent (hτ : Delivery.Reliable τ) (h : Undropped s rs c) :
    ∃ sent : List Buffer, c.delivered rs = sent.map Buffer.bytes ∧
      sent.Perm (c.handed (rs ++ [.flush])) ∧
        (s.workers = 1 → sent = c.handed (rs ++ [.flush])) := by
  obtain ⟨transport, words, schedule, hopen⟩ := h.opened
  have hsturdy := hτ.logged.sturdy
  have hgoing := requests_upheld (Delivery.Going.upheld hsturdy)
    (going_base s _ schedule) hopen (rs ++ [.flush])
  obtain ⟨sent, dropped, hd⟩ := requests_upheld (Delivery.Dispatched.upheld hτ)
    ⟨[], [], dispatched_base s transport schedule⟩ hopen (rs ++ [.flush])
  have hcrew := requests_upheld (Delivery.upheld_hasWorkers (max s.workers 1))
    List.length_replicate hopen (rs ++ [.flush])
  rw [performAll_flush] at hgoing hd hcrew
  obtain ⟨cuts, -, hrun⟩ := (balanced_open hsturdy hopen).1.performAll hsturdy rs
  have hclose : (c.performAll rs).close.delivery = (c.performAll rs).flush.delivery.shutdown := by
    simp only [Client.close, hrun.isOpen]
    rfl
  have hr := h.reported
  have hn := h.unwrapped
  rw [telemetry, hclose] at hr
  rw [delivered, hclose] at hn
  obtain ⟨sent', hs', hp', ho'⟩ := hd.shutdown hτ hgoing hr hn
  refine ⟨sent', ?_, hp', ?_⟩
  · rw [delivered, hclose]
    exact hs'
  · intro hw
    apply ho'
    have hone : max s.workers 1 = 1 := by omega
    exact hcrew.trans hone

theorem handed_lines {transport : τ} {words : σ} {schedule : Nat → List Move}
    (hτ : Delivery.Sturdy (Logged τ))
    (hopen : open? s ({ transport } : Logged τ) words schedule = .ok c)
    (hr : ∀ m ∈ submissions rs, m.rate.chance ≠ .drawn) :
    ∃ (cuts : List Cut) (groups : List (List Bytes)),
      cuts.map Cut.metric = writtenBy s rs ∧ (∀ k ∈ cuts, k.IsComplete) ∧
        (c.handed (rs ++ [.flush])).map Buffer.bytes = groups.map List.flatten ∧
          groups.flatten.Perm (cuts.flatMap Cut.lines) ∧
            (s.shards = 1 → groups.flatten = cuts.flatMap Cut.lines) := by
  obtain ⟨hstart, hblank⟩ := balanced_open hτ hopen
  obtain ⟨hbearing, hpos⟩ := bearing_open hopen
  have hsub : submissions (rs ++ [.flush]) = submissions rs := by
    simp [submissions, Request.metric?]
  have hwritten : c.accepted (rs ++ [.flush]) = writtenBy s rs := by
    rw [hbearing.accepted hpos (by rwa [hsub]), writtenBy, hsub, writtenBy]
  have hend : ∀ p ∈ (c.performAll (rs ++ [.flush])).shards, p.current.bytes = [] := by
    rw [performAll_flush]
    exact flushShards_blank _ _
  by_cases hs : s.shards = 1
  · obtain ⟨p, hp⟩ := List.length_eq_one_iff.mp (hbearing.shards.trans hs)
    obtain ⟨cuts, p', hm, hk, hp', hcar⟩ := performAll_carried hp hbearing.isOpen (rs ++ [.flush])
    obtain ⟨groups, last, hg, hl, hgl⟩ := hcar [] (hblank p (by simp [hp]))
    -- Nothing is left in the shard, and no line is empty, so no line is left either.
    have hlast : last = [] := by
      rw [hend p' (by simp [hp'])] at hl
      rw [List.eq_nil_iff_forall_not_mem]
      intro line hline
      have hmem : line ∈ cuts.flatMap Cut.lines := by
        rw [← List.nil_append (cuts.flatMap Cut.lines), ← hgl]
        exact List.mem_append_right _ hline
      obtain ⟨k, hkm, hkl⟩ := List.mem_flatMap.mp hmem
      apply (hk k hkm).ne_nil_of_mem_lines hkl
      exact List.flatten_eq_nil_iff.mp hl.symm line hline
    rw [hlast, List.append_nil, List.nil_append] at hgl
    exact ⟨cuts, groups, hm.trans hwritten, hk, hg, hgl ▸ .refl _, fun _ => hgl⟩
  · obtain ⟨cuts, hm, hrun⟩ := hstart.performAll hτ (rs ++ [.flush])
    obtain ⟨groups, hg, hperm⟩ := hrun.lines (by simpa using hblank) hend
    exact ⟨cuts, groups, hm.trans hwritten, hrun.complete, hg, hperm, fun h => absurd h hs⟩

theorem Undropped.lines (hτ : Delivery.Reliable τ) (h : Undropped s rs c)
    (hr : ∀ m ∈ submissions rs, m.rate.chance ≠ .drawn) :
    ∃ (cuts : List Cut) (groups : List (List Bytes)),
      cuts.map Cut.metric = writtenBy s rs ∧ (∀ k ∈ cuts, k.IsComplete) ∧
        c.delivered rs = groups.map List.flatten ∧
          groups.flatten.Perm (cuts.flatMap Cut.lines) ∧
            (s.shards = 1 → s.workers = 1 → groups.flatten = cuts.flatMap Cut.lines) := by
  obtain ⟨transport, words, schedule, hopen⟩ := h.opened
  obtain ⟨cuts, groups, hm, hk, hg, hperm, horder⟩ := handed_lines hτ.logged.sturdy hopen hr
  obtain ⟨sent, hs, hp, hsame⟩ := h.sent hτ
  by_cases hw : s.workers = 1
  · rw [hsame hw, hg] at hs
    exact ⟨cuts, groups, hm, hk, hs, hperm, fun h₁ _ => horder h₁⟩
  · have hpg := hp.map Buffer.bytes
    rw [hg] at hpg
    obtain ⟨groups', hg', hp'⟩ := exists_of_perm_map hpg
    exact ⟨cuts, groups', hm, hk, hs.trans hg', hp'.flatten.trans hperm, fun _ h₂ => absurd h₂ hw⟩

/-- The payloads are made up of these lines, each with at least one point. -/
def MadeUpOf (payloads : List Bytes) (pages : List (List Row)) : Prop :=
  payloads = pages.map (fun rows => rows.flatMap Row.bytes) ∧
    ∀ row ∈ pages.flatten, row.points ≠ []

theorem Undropped.pages (hτ : Delivery.Reliable τ) (h : Undropped s rs c)
    (hr : ∀ m ∈ submissions rs, m.rate.chance ≠ .drawn) :
    ∃ pages : List (List Row), MadeUpOf (c.delivered rs) pages ∧
      (pages.flatten.flatMap Row.triples).Perm ((writtenBy s rs).flatMap Metric.triples) ∧
        (s.shards = 1 → s.workers = 1 →
          pages.flatten.flatMap Row.triples = (writtenBy s rs).flatMap Metric.triples) := by
  obtain ⟨cuts, groups, hm, hk, hg, hperm, horder⟩ := h.lines hτ hr
  have hlines : cuts.flatMap Cut.lines = (cuts.flatMap Cut.rows).map Row.bytes := by
    rw [List.map_flatMap]
    simp only [Cut.bytes_rows]
  have htriples : (cuts.flatMap Cut.rows).flatMap Row.triples =
      (writtenBy s rs).flatMap Metric.triples := by
    rw [← hm, List.flatMap_map, List.flatMap_assoc]
    apply List.flatMap_congr
    intro k hkm
    exact (hk k hkm).triples_rows
  -- The lines as delivered are those of the cuts in some order, and in the same one if it is kept.
  obtain ⟨rows, hrows, hp, hsame⟩ : ∃ rows : List Row, groups.flatten = rows.map Row.bytes ∧
      rows.Perm (cuts.flatMap Cut.rows) ∧
        (s.shards = 1 → s.workers = 1 → rows = cuts.flatMap Cut.rows) := by
    by_cases ho : s.shards = 1 ∧ s.workers = 1
    · exact ⟨_, (horder ho.1 ho.2).trans hlines, .refl _, fun _ _ => rfl⟩
    · obtain ⟨rows, hrows, hp⟩ := exists_of_perm_map (hlines ▸ hperm)
      exact ⟨rows, hrows, hp, fun h₁ h₂ => absurd ⟨h₁, h₂⟩ ho⟩
  obtain ⟨pages, hpages, rfl⟩ := exists_of_flatten_eq_map hrows
  refine ⟨pages, ⟨?_, ?_⟩, ?_, ?_⟩
  · rw [hg, hpages, List.map_map]
    apply List.map_congr_left
    intro rows _
    exact (List.flatMap_def ..).symm
  · intro row hrow
    obtain ⟨k, hkm, hkr⟩ := List.mem_flatMap.mp (hp.mem_iff.mp hrow)
    obtain ⟨run, hrun, rfl⟩ := List.mem_map.mp hkr
    exact (hk k hkm).runs_ne_nil run hrun
  · rw [← htriples]
    exact hp.flatMap_right _
  · intro h₁ h₂
    rw [hsame h₁ h₂, htriples]

theorem Undropped.lines_of_single (hτ : Delivery.Reliable τ) (h : Undropped s rs c)
    (hr : ∀ m ∈ submissions rs, m.rate.chance ≠ .drawn)
    (hsize : ∀ m ∈ submissions rs, m.value.size = 1) :
    ((c.delivered rs).flatMap linesOf).Perm
      ((writtenBy s rs).map fun m => m.frame.line m.value.points) := by
  obtain ⟨cuts, groups, hm, hk, hg, hperm, -⟩ := h.lines hτ hr
  have hlines : cuts.flatMap Cut.lines =
      (writtenBy s rs).map fun m => m.frame.line m.value.points := by
    rw [← hm, List.map_map, List.map_eq_flatMap]
    apply List.flatMap_congr
    intro k hkm
    have hw : k.metric ∈ writtenBy s rs := hm ▸ List.mem_map_of_mem hkm
    obtain ⟨m, hmem, he⟩ := List.mem_map.mp (List.mem_of_mem_filter hw)
    have hone : k.metric.value.size = 1 := by
      rw [← he]
      exact hsize m hmem
    rw [Cut.lines, (hk k hkm).runs_of_single hone]
    rfl
  have hread : (c.delivered rs).flatMap linesOf = groups.flatten := by
    rw [hg, List.flatMap_map, List.flatten_eq_flatMap]
    apply List.flatMap_congr
    intro group hgroup
    apply linesOf_flatten
    intro line hline
    have hmem := hperm.mem_iff.mp (List.mem_flatten_of_mem hgroup hline)
    obtain ⟨k, hkm, hkl⟩ := List.mem_flatMap.mp hmem
    exact (hk k hkm).ends_of_mem_lines hkl
  rw [hread, ← hlines]
  exact hperm

end Delivered

/-- Two clients with the same scope and global tags get the same submissions, at rates that leave
nothing to chance, and flush when they like. If neither reports a dropped packet, both deliver the
points of the metrics written, each between its header and its trailer; with one shard and one
worker they come in order. If every metric has one value, the lines are the same byte for byte. -/
theorem deliveries_agree {σ σ' τ τ' : Type} [WordSource σ] [WordSource σ'] [Transport τ]
    [Transport τ'] (hτ : Delivery.Reliable τ) (hτ' : Delivery.Reliable τ') {s s' : Settings}
    (hscope : s.scope = s'.scope) (htags : s.globalTags = s'.globalTags) {rs rs' : List Request}
    (hrs : submissions rs = submissions rs')
    (hr : ∀ m ∈ submissions rs, m.rate.chance ≠ .drawn)
    {c : Client σ (Logged τ)} {c' : Client σ' (Logged τ')} (h : Undropped s rs c)
    (h' : Undropped s' rs' c') :
    let triples := (writtenBy s rs).flatMap Metric.triples
    (∃ pages : List (List Row), MadeUpOf (c.delivered rs) pages ∧
        (pages.flatten.flatMap Row.triples).Perm triples ∧
          (s.shards = 1 → s.workers = 1 → pages.flatten.flatMap Row.triples = triples)) ∧
      (∃ pages : List (List Row), MadeUpOf (c'.delivered rs') pages ∧
        (pages.flatten.flatMap Row.triples).Perm triples ∧
          (s'.shards = 1 → s'.workers = 1 → pages.flatten.flatMap Row.triples = triples)) ∧
        ((∀ m ∈ submissions rs, m.value.size = 1) →
          ((c.delivered rs).flatMap linesOf).Perm ((c'.delivered rs').flatMap linesOf)) := by
  intro triples
  have hstamp : s.stamp = s'.stamp := by
    funext m
    simp only [Settings.stamp, hscope, htags]
  have hwritten : writtenBy s rs = writtenBy s' rs' := by rw [writtenBy, writtenBy, hrs, hstamp]
  have hr' : ∀ m ∈ submissions rs', m.rate.chance ≠ .drawn := hrs ▸ hr
  refine ⟨h.pages hτ hr, ?_, ?_⟩
  · have hp := h'.pages hτ' hr'
    rwa [← hwritten] at hp
  · intro hsize
    have hl := h.lines_of_single hτ hr hsize
    have hl' := h'.lines_of_single hτ' hr' (hrs ▸ hsize)
    rw [← hwritten] at hl'
    exact hl.trans hl'.symm

section Fitting

variable {σ τ : Type} [WordSource σ] [Transport τ] {c : Client σ τ}

theorem submit_of_fits {p : Packer} (hn : c.next? = some p) {m : Metric}
    (hk : (decideSample m.rate c.words).1 = true) (hm : (c.stamp m).rejection? = none)
    (hf : p.current.room (c.stamp m).frame m.value.points = m.value.points.length) :
    (c.submit m).2 =
        { c with
          shards := c.shards.set c.turn
            ⟨(c.stamp m).frame, p.current.append ((c.stamp m).frame.line m.value.points)⟩
          turns := c.turns + 1
          words := (decideSample m.rate c.words).2
          delivery :=
            Outlet.record (.points m.value.kind m.value.points.length.toUInt64) c.delivery } ∧
      c.handedBy (.submit m) = [] := by
  have hp : m.value.points ≠ [] := by
    intro hnil
    have hs := m.value.length_points
    rw [hnil] at hs
    simp only [Metric.rejection?, stamp, ← hs, List.length_nil, if_true] at hm
    split at hm <;> cases hm
  have hcall {ω : Type} [Outlet ω] (w : ω) :
      p.call c.words w (.process (c.stamp m)) =
        (⟨(c.stamp m).frame, p.current.append ((c.stamp m).frame.line m.value.points)⟩,
          (decideSample m.rate c.words).2,
          Outlet.record (.points m.value.kind m.value.points.length.toUInt64) w) := by
    have hk' : (decideSample (c.stamp m).rate c.words).1 = true := hk
    have hv : (c.stamp m).value = m.value := rfl
    have hpack := Packer.pack_of_fits (c.stamp m).name w hp hf
    rw [Packer.call, Packer.process_of_kept hk', Packer.accept_of_writable hm]
    simp only [hv, hpack]
    rfl
  refine ⟨?_, ?_⟩
  · rw [submit_of_some hn]
    simp only [hcall]
  · simp only [handedBy, hn, Packer.handed, Packer.calls, hcall]
    rfl

end Fitting

def hits : Metric := { name := "hits", value := .count 1 }

def load : Metric := { name := "load", value := .histogramBatch [.one] "" }

def wideSettings : Settings :=
  { Settings.ofProcessors 1 with limits := ⟨64, 8⟩, scope := "app." }

def wideClient : Client Cycle (Logged Sink) :=
  start wideSettings { transport := {} } { words := [] } fun _ => []

def narrowSettings : Settings :=
  { Settings.ofProcessors 2 with
    limits := ⟨16, 1⟩, queueLength := 1, policy := .block 5, workers := 2, scope := "app." }

def narrowClient : Client Cycle (Logged Sink) :=
  start narrowSettings { transport := {} } { words := [] } fun _ => [.take 1, .take 0, .send 0]

set_option maxRecDepth 2000 in
theorem undropped_wideClient :
    Undropped wideSettings [.submit hits, .submit load] wideClient := by
  have h₁ := submit_of_fits (c := wideClient) (p := ⟨{}, (Blank.mk ⟨64, 8⟩ true).buffer⟩) rfl
    (m := hits) (by decide +kernel) (by decide +kernel) (by decide +kernel)
  have h₂ := submit_of_fits (c := (wideClient.submit hits).2) (m := load) (by rw [h₁.1]; rfl)
    (by rw [h₁.1]; decide +kernel) (by rw [h₁.1]; decide +kernel) (by decide +kernel)
  refine ⟨⟨_, _, _, rfl⟩, ?_, ?_⟩
  · simp only [performAll, List.foldl_cons, List.foldl_nil, perform]
    rw [h₂.1, h₁.1]
    decide +kernel
  · apply Nat.lt_add_left
    simp only [List.cons_append, List.nil_append, handed, perform, h₁.2, h₂.2]
    rw [h₂.1, h₁.1]
    decide +kernel

set_option maxRecDepth 2000 in
theorem undropped_narrowClient :
    Undropped narrowSettings [.submit hits, .submit load, .flush] narrowClient := by
  have h₁ := submit_of_fits (c := narrowClient) (p := ⟨{}, (Blank.mk ⟨16, 1⟩ true).buffer⟩) rfl
    (m := hits) (by decide +kernel) (by decide +kernel) (by decide +kernel)
  have h₂ := submit_of_fits (c := (narrowClient.submit hits).2) (m := load) (by rw [h₁.1]; rfl)
    (by rw [h₁.1]; decide +kernel) (by rw [h₁.1]; decide +kernel) (by decide +kernel)
  refine ⟨⟨_, _, _, rfl⟩, ?_, ?_⟩
  · simp only [performAll, List.foldl_cons, List.foldl_nil, perform]
    rw [h₂.1, h₁.1]
    decide +kernel
  · apply Nat.lt_add_left
    simp only [List.cons_append, List.nil_append, handed, perform, h₁.2, h₂.2]
    rw [h₂.1, h₁.1]
    decide +kernel

theorem deliveries_wide_narrow :
    (∃ pages : List (List Row),
      MadeUpOf (wideClient.delivered [.submit hits, .submit load]) pages ∧
        pages.flatten.flatMap Row.triples =
          (writtenBy wideSettings [.submit hits, .submit load]).flatMap Metric.triples) ∧
      ((wideClient.delivered [.submit hits, .submit load]).flatMap linesOf).Perm
        ((narrowClient.delivered [.submit hits, .submit load, .flush]).flatMap linesOf) := by
  obtain ⟨⟨pages, hp, -, ho⟩, -, hl⟩ :=
    deliveries_agree Delivery.reliable_sink Delivery.reliable_sink (by rfl) (by rfl) (by rfl)
      (by decide +kernel) undropped_wideClient undropped_narrowClient
  refine ⟨⟨pages, hp, ho rfl rfl⟩, hl ?_⟩
  decide +kernel

end Client
end MetricPipeline
