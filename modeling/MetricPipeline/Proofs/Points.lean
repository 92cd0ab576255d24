import MetricPipeline.Proofs.Counting
import MetricPipeline.Proofs.Custody
import MetricPipeline.Proofs.Rendering

namespace MetricPipeline

inductive Verdict
  | unsampled
  | rejected
  | accepted
deriving DecidableEq

def Metric.verdict {σ : Type} [WordSource σ] (m : Metric) (s : σ) : Verdict :=
  if (decideSample m.rate s).1 then if m.rejection?.isNone then .accepted else .rejected
  else .unsampled

/-- A call with a metric, and at which station it was made. -/
structure Intake where
  station : Nat
  metric : Metric
  verdict : Verdict

namespace Intake

def number (v : Verdict) (calls : List Intake) : Nat := calls.countP fun c => c.verdict = v

def accepted (calls : List Intake) : List Metric :=
  (calls.filter fun c => c.verdict = .accepted).map Intake.metric

def acceptedAt (i : Nat) (calls : List Intake) : List Metric :=
  accepted (calls.filter fun c => c.station = i)

variable (calls calls' : List Intake)

@[simp] theorem number_append (v : Verdict) :
    number v (calls ++ calls') = number v calls + number v calls' :=
  List.countP_append

@[simp] theorem accepted_append :
    accepted (calls ++ calls') = accepted calls ++ accepted calls' := by
  simp [accepted]

@[simp] theorem acceptedAt_append (i : Nat) :
    acceptedAt i (calls ++ calls') = acceptedAt i calls ++ acceptedAt i calls' := by
  simp [acceptedAt]

variable {calls} in
theorem acceptedAt_eq_accepted {i : Nat} (h : ∀ c ∈ calls, c.station = i) :
    acceptedAt i calls = accepted calls := by
  rw [acceptedAt, List.filter_eq_self.mpr fun c hc => decide_eq_true (h c hc)]

variable {calls} in
theorem acceptedAt_eq_nil {i : Nat} (h : ∀ c ∈ calls, c.station ≠ i) : acceptedAt i calls = [] := by
  rw [acceptedAt, List.filter_eq_nil_iff.mpr fun c hc he => h c hc (of_decide_eq_true he)]
  rfl

theorem length_eq : calls.length =
    number .unsampled calls + number .rejected calls + (accepted calls).length := by
  induction calls with
  | nil => rfl
  | cons c calls ih =>
    have hc := number_append [c] calls
    have ha := accepted_append [c] calls
    rw [List.singleton_append] at hc ha
    rw [List.length_cons, ih, hc, hc, ha, List.length_append]
    cases hv : c.verdict <;> simp [number, accepted, hv] <;> omega

end Intake

theorem Metric.sum_pointsOf (ms : List Metric) :
    (Kind.all.map (pointsOf ms)).sum = (ms.flatMap triples).length := by
  induction ms with
  | nil => rfl
  | cons m ms ih =>
    have hadd : pointsOf (m :: ms) = fun k => pointsOf [m] k + pointsOf ms k :=
      funext fun k => pointsOf_append [m] ms k
    have hone : (Kind.all.map (pointsOf [m])).sum = m.triples.length := by
      rw [triples, List.length_map, Value.length_points]
      simp only [Kind.all, List.map_cons, List.map_nil, pointsOf_singleton]
      cases m.value.kind <;> simp
    rw [hadd, List.sum_map_add, hone, ih, List.flatMap_cons, List.length_append]

/-- The counter has counted so many, and shows how many as long as it has not wrapped around. -/
def Shows (c : UInt64) (n : Nat) : Prop := c = n.toUInt64 ∧ (n < UInt64.size → c.toNat = n)

theorem Shows.of_eq {c : UInt64} {n : Nat} (h : c = n.toUInt64) : Shows c n :=
  ⟨h, fun hn => h ▸ UInt64.toNat_ofNat_of_lt' hn⟩

namespace Station

/-- From station `t` to `y`, with these payloads handed over and these calls begun, points are
counted as they are accepted and lines that are too long as they are laid on the tray. -/
structure Moved (L : Limits) (t : Station) (y : Option Station) (c c' : Tally)
    (handed : List Buffer) (calls : List Intake) : Prop where
  sampledOut : c'.sampledOut = c.sampledOut + (Intake.number .unsampled calls).toUInt64
  rejected : c'.rejected = c.rejected + (Intake.number .rejected calls).toUInt64
  points : ∀ k, c'.points k + (Metric.pointsOf (y.toList.flatMap underWay) k).toUInt64 =
    c.points k + (Metric.pointsOf (t.underWay ++ Intake.accepted calls) k).toUInt64
  oversized : c'.oversized + (MetricPipeline.oversized L t.tray).toUInt64 =
    c.oversized + (MetricPipeline.oversized L (handed ++ y.toList.flatMap tray)).toUInt64
  renders : ∀ ms before, Renders ms before (some t) →
    Renders (ms ++ Intake.accepted calls) (before ++ handed) y

theorem Moved.of_no_calls {L : Limits} {t : Station} {y : Option Station} {c c' : Tally}
    {handed : List Buffer} (hs : c'.sampledOut = c.sampledOut) (hr : c'.rejected = c.rejected)
    (hp : ∀ k, c'.points k + (Metric.pointsOf (y.toList.flatMap underWay) k).toUInt64 =
      c.points k + (Metric.pointsOf t.underWay k).toUInt64)
    (ho : c'.oversized + (MetricPipeline.oversized L t.tray).toUInt64 =
      c.oversized + (MetricPipeline.oversized L (handed ++ y.toList.flatMap tray)).toUInt64)
    (hm : ∀ ms before, Renders ms before (some t) → Renders ms (before ++ handed) y) :
    Moved L t y c c' handed [] := by
  refine ⟨?_, ?_, ?_, ho, ?_⟩
  · simpa [Intake.number] using hs
  · simpa [Intake.number] using hr
  · simpa [Intake.accepted] using hp
  · simpa [Intake.accepted] using hm

variable {σ : Type} [WordSource σ] {L : Limits} {t : Station} {o : Outbox}

theorem moved_begin (h : t.isIdle = true) (i : Nat) (m : Metric) (s : σ) :
    Moved L t (some (t.begin m s o).1) o.tally (t.begin m s o).2.2.tally []
      [⟨i, m, m.verdict s⟩] := by
  obtain ⟨htray, hjob⟩ := isIdle_iff.mp h
  by_cases hk : (decideSample m.rate s).1 = true
  · cases hr : m.rejection? with
    | some r =>
      have hv : m.verdict s = .rejected := by simp [Metric.verdict, hk, hr]
      rw [begin_of_rejection hk hr, hv]
      refine ⟨?_, ?_, fun k => ?_, ?_, fun ms before hm => ?_⟩
      · simp [Intake.number, Tally.count]
      · simp [Intake.number, Tally.count]
      · simp [Intake.accepted, Tally.count]
      · simp [Tally.count]
      · simpa [Intake.accepted] using hm
    | none =>
      have hv : m.verdict s = .accepted := by simp [Metric.verdict, hk, hr]
      rw [begin_of_writable hk hr, hv]
      refine ⟨?_, ?_, fun k => ?_, ?_, fun ms before hm => ?_⟩
      · simp [Intake.number]
      · simp [Intake.number]
      · simp [Intake.accepted, underWay, hjob]
      · simp
      · simp only [Renders, unwritten, hjob, Option.toList_none, List.flatMap_nil] at hm
        simpa [Renders, unwritten, Intake.accepted, Metric.triples] using hm.accept m
  · have hv : m.verdict s = .unsampled := by simp [Metric.verdict, hk]
    rw [begin_of_dropped (by simpa using hk), hv]
    refine ⟨?_, ?_, fun k => ?_, ?_, fun ms before hm => ?_⟩
    · simp [Intake.number, Tally.count]
    · simp [Intake.number, Tally.count]
    · simp [Intake.accepted, Tally.count]
    · simp [Tally.count]
    · simpa [Intake.accepted] using hm

omit [WordSource σ] in
theorem tally_round {m : Metric} {b : Buffer} {points : List Bytes}
    {r : List Bytes × Buffer × Desk} (hb : b.Pooled L) (hm : m.rejection? = none)
    (hp : points <:+ m.value.points)
    (h : Packer.Turn m.name m.frame b ({ outbox := o } : Desk) points r) :
    r.2.2.outbox.tally = { o.tally with
      oversized := o.tally.oversized + (MetricPipeline.oversized L r.2.2.tray).toUInt64 } := by
  cases h with
  | finish _ _ => simp [MetricPipeline.oversized]
  | cut _ _ =>
    simp [Outlet.enqueue, Outlet.borrow, MetricPipeline.oversized, Buffer.append, hb.limits_eq]
  | @alone p points hr he =>
    have hl := (hb.oversized hm hp hr he).limits_ne
    simp [Packer.sendAlone, Outlet.enqueue, Outlet.record, Outlet.remark, Tally.count,
      MetricPipeline.oversized, hl]
  | turnOver _ _ _ =>
    simp [Outlet.enqueue, Outlet.borrow, MetricPipeline.oversized, hb.limits_eq]

omit [WordSource σ] in
theorem moved_proceed (h : t.Sound L) :
    Moved L t (some (t.proceed o).1) o.tally (t.proceed o).2.1.tally (t.proceed o).2.2 [] := by
  obtain ⟨⟨f, b⟩, tray, job⟩ := t
  match tray, job with
  | b' :: tray, job =>
    apply Moved.of_no_calls
    · simp [Station.proceed]
    · simp [Station.proceed]
    · simp [Station.proceed, underWay]
    · simp [Station.proceed, MetricPipeline.oversized, List.countP_cons]
    · simp [Station.proceed, Renders, unwritten]
  | [], none =>
    apply Moved.of_no_calls <;> simp [Station.proceed]
  | [], some (m, []) =>
    apply Moved.of_no_calls
    · simp [Station.proceed, Tally.count]
    · simp [Station.proceed, Tally.count]
    · intro k
      simp only [Station.proceed, Outbox.tally_record, Tally.count, underWay, Option.toList_some,
        List.flatMap_singleton, Option.toList_none, List.map_nil, List.map_cons,
        Metric.pointsOf_nil, Metric.pointsOf_singleton, Value.length_points]
      split <;> simp
    · simp [Station.proceed, Tally.count]
    · simp [Station.proceed, Renders, unwritten]
  | [], some (m, p :: ps) =>
    obtain ⟨hf, hrej, hp⟩ := h.job m (p :: ps) rfl
    simp only at hf
    subst hf
    have htally := tally_round h.current hrej hp (Packer.round_turn m.name m.frame b
      ({ outbox := o } : Desk) (List.cons_ne_nil p ps))
    obtain ⟨runs, payloads, hne, hflat, hhanded, hcar⟩ := (Packer.round_turn m.name m.frame b
      ({ outlet := o } : Traced Outbox) (List.cons_ne_nil p ps)).carried
    rw [Plant.round_desk] at hflat hhanded hcar
    simp only [List.nil_append] at hflat hhanded hcar
    subst hhanded
    apply Moved.of_no_calls
    · simp [Station.proceed, htally]
    · simp [Station.proceed, htally]
    · simp [Station.proceed, htally, underWay]
    · simp [Station.proceed, htally, MetricPipeline.oversized]
    · intro ms before hm
      have hw : Rendered ms before b ((p :: ps).map fun p => (m.header, p, m.trailer)) := by
        simpa [Renders, unwritten] using hm
      rw [← hflat] at hw
      simpa [Station.proceed, Renders, unwritten] using hw.write hne hcar

omit [WordSource σ] in
theorem moved_flush (h : t.Sound L) (hidle : t.isIdle = true) :
    Moved L t (some (t.flush o).1) o.tally (t.flush o).2.tally [] [] := by
  obtain ⟨p, tray, job⟩ := t
  obtain ⟨rfl, rfl⟩ := isIdle_iff.mp hidle
  have hcur : p.current.limits = L := h.current.limits_eq
  simp only [Station.flush, Packer.flush]
  split
  · apply Moved.of_no_calls <;> simp
  · simp only [Packer.replace, Outlet.enqueue, Outlet.borrow]
    apply Moved.of_no_calls
    · simp
    · simp
    · simp [underWay]
    · simp [MetricPipeline.oversized, hcur]
    · intro ms before hm
      simp only [Renders, List.append_nil] at hm
      have hh := hm.handOver o.borrow.1.bytes_nil
      simpa [Renders, unwritten] using hh

omit [WordSource σ] in
theorem moved_retire (h : t.Sound L) (hidle : t.isIdle = true) :
    Moved L t none o.tally (t.packer.retire o).tally [t.packer.current] [] := by
  obtain ⟨p, tray, job⟩ := t
  obtain ⟨rfl, rfl⟩ := isIdle_iff.mp hidle
  have hcur : p.current.limits = L := h.current.limits_eq
  simp only [Packer.retire, Outlet.enqueue]
  apply Moved.of_no_calls
  · simp
  · simp
  · simp [underWay]
  · simp [MetricPipeline.oversized, hcur]
  · intro ms before hm
    simp only [Renders, List.append_nil] at hm
    have hh := hm.handOver (show Buffer.detached.bytes = [] from rfl)
    simpa [Renders, unwritten] using hh

end Station

theorem perm_flatMap_filter {α : Type} (key : α → Nat) {n : Nat} {l : List α}
    (h : ∀ x ∈ l, key x < n) :
    l.Perm ((List.range n).flatMap fun i => l.filter fun x => key x = i) := by
  induction n generalizing l with
  | zero =>
    obtain rfl : l = [] := List.eq_nil_iff_forall_not_mem.mpr fun x hx => Nat.not_lt_zero _ (h x hx)
    rfl
  | succ n ih =>
    have hlow : ∀ x ∈ l.filter (fun x => key x < n), key x < n :=
      fun x hx => of_decide_eq_true (List.mem_filter.mp hx).2
    have hrest : l.filter (fun x => !decide (key x < n)) = l.filter fun x => key x = n := by
      apply List.filter_congr
      intro x hx
      have hx := h x hx
      simp only [← decide_not, decide_eq_decide]
      omega
    have hsame : ((List.range n).flatMap fun i => (l.filter fun x => key x < n).filter fun x =>
        key x = i) = (List.range n).flatMap fun i => l.filter fun x => key x = i := by
      apply List.flatMap_congr
      intro i hi
      have hi := List.mem_range.mp hi
      rw [List.filter_filter]
      apply List.filter_congr
      intro x hx
      by_cases hk : key x = i <;> simp [hk, hi]
    have hsplit := (List.filter_append_perm (fun x => key x < n) l).symm
    rw [hrest] at hsplit
    rw [List.range_succ, List.flatMap_append, List.flatMap_singleton, ← hsame]
    exact hsplit.trans ((ih hlow).append_right _)

theorem flatMap_reduceOption {α β : Type} (l : List (Option α)) (f : α → List β) :
    l.reduceOption.flatMap f = l.flatMap fun x => x.toList.flatMap f := by
  induction l with
  | nil => rfl
  | cons x l ih => cases x <;> simp [ih]

namespace Plant

variable {σ : Type} [WordSource σ]

def handedFrom (P : Plant σ) (i : Nat) : List Buffer :=
  (P.handed.filter fun h => h.1 = i).map Prod.snd

omit [WordSource σ] in
theorem handedFrom_eq_nil {P : Plant σ} {i : Nat} (h : ∀ x ∈ P.handed, x.1 ≠ i) :
    P.handedFrom i = [] := by
  rw [handedFrom, List.filter_eq_nil_iff.mpr fun x hx he => h x hx (of_decide_eq_true he)]
  rfl

omit [WordSource σ] in
theorem handedFrom_put (P : Plant σ) (i j : Nat) (y : Option Station) (o : Outbox)
    (bs : List Buffer) :
    (P.put i y o bs).handedFrom j = P.handedFrom j ++ if j = i then bs else [] := by
  rw [handedFrom, Plant.put, List.filter_append, List.map_append, handedFrom]
  by_cases hji : j = i
  · simp [hji, List.filter_map, Function.comp_def]
  · simp [hji, Ne.symm hji, List.filter_map, Function.comp_def]

def intakesAt (P : Plant σ) : Act → List Intake
  | .process i m =>
    match P.stations[i]? with
    | some (some t) => if t.isIdle then [⟨i, m, m.verdict P.words⟩] else []
    | _ => []
  | _ => []

theorem intakesAt_of_unable (P : Plant σ) {a : Act} (h : P.Unable a) : P.intakesAt a = [] := by
  cases a with
  | process i m =>
    rw [intakesAt]
    split
    · rename_i t hi
      simp [h t hi]
    · rfl
  | _ => rfl

def intakesOf (policy : FullPolicy) (P : Plant σ) : Event → List Intake
  | .attempt a => if policy.waits && P.lacksRoom a then [] else P.intakesAt a
  | .insist a => P.intakesAt a
  | .attend a => if P.outbox.queue.isAwaitable then P.intakesAt a else []

def intakes (policy : FullPolicy) (P : Plant σ) : List Event → List Intake
  | [] => []
  | e :: es => P.intakesOf policy e ++ (P.happen policy e).intakes policy es

/-- The counters and the payloads are those of the calls. -/
structure Noted (L : Limits) (calls : List Intake) (P : Plant σ) : Prop where
  sampledOut : P.outbox.tally.sampledOut = (Intake.number .unsampled calls).toUInt64
  rejected : P.outbox.tally.rejected = (Intake.number .rejected calls).toUInt64
  points : ∀ k, P.outbox.tally.points k +
    (Metric.pointsOf (P.crew.flatMap Station.underWay) k).toUInt64 =
      (Metric.pointsOf (Intake.accepted calls) k).toUInt64
  oversized : P.outbox.tally.oversized = (MetricPipeline.oversized L (P.handed.map Prod.snd) +
    MetricPipeline.oversized L (P.crew.flatMap Station.tray)).toUInt64
  renders : ∀ i y, P.stations[i]? = some y →
    Station.Renders (Intake.acceptedAt i calls) (P.handedFrom i) y
  handed_lt : ∀ h ∈ P.handed, h.1 < P.stations.length
  calls_lt : ∀ c ∈ calls, c.station < P.stations.length

namespace Noted

variable {L : Limits} {calls : List Intake} {P P' : Plant σ}

section

omit [WordSource σ]

theorem start (pool : Pool) (bound : Nat) (s : σ) : (start pool bound s).Noted L [] := by
  refine ⟨rfl, rfl, fun k => by cases k <;> rfl, rfl, ?_, ?_, ?_⟩ <;> simp [Plant.start]

theorem aside (h : P.Noted L calls) (hs : P'.stations = P.stations) (hh : P'.handed = P.handed)
    (ht : P'.outbox.tally = P.outbox.tally) : P'.Noted L calls := by
  have hc : P'.crew = P.crew := congrArg List.reduceOption hs
  have hf (i : Nat) : P'.handedFrom i = P.handedFrom i := by rw [handedFrom, handedFrom, hh]
  refine ⟨?_, ?_, ?_, ?_, ?_, ?_, ?_⟩
  · rw [ht, h.sampledOut]
  · rw [ht, h.rejected]
  · rw [ht, hc]
    exact h.points
  · rw [ht, hh, hc, h.oversized]
  · intro i y hi
    rw [hf]
    exact h.renders i y (hs ▸ hi)
  · rw [hs, hh]
    exact h.handed_lt
  · rw [hs]
    exact h.calls_lt

theorem create (h : P.Noted L calls) (t : Station) (o : Outbox) (htray : t.tray = [])
    (hjob : t.job = none) (hcur : t.packer.current.bytes = []) (ho : o.tally = P.outbox.tally) :
    { P with stations := P.stations ++ [some t], outbox := o }.Noted L calls := by
  have hcrew : crew { P with stations := P.stations ++ [some t], outbox := o } = P.crew ++ [t] :=
    List.reduceOption_append P.stations [some t]
  refine ⟨?_, ?_, ?_, ?_, ?_, ?_, ?_⟩
  · exact (congrArg Tally.sampledOut ho).trans h.sampledOut
  · exact (congrArg Tally.rejected ho).trans h.rejected
  · intro k
    rw [hcrew, List.flatMap_append, ← h.points k, ← ho]
    simp [Station.underWay, hjob]
  · rw [hcrew, List.flatMap_append, ho, h.oversized]
    simp [htray]
  · intro i y hi
    by_cases hlt : i < P.stations.length
    · rw [List.getElem?_append_left hlt] at hi
      exact h.renders i y hi
    · -- Nothing was handed over from the new station, and no call was made there.
      have hfrom : P.handedFrom i = [] :=
        handedFrom_eq_nil fun x hx he => hlt (he ▸ h.handed_lt x hx)
      have hcalls : Intake.acceptedAt i calls = [] :=
        Intake.acceptedAt_eq_nil fun c hc he => hlt (he ▸ h.calls_lt c hc)
      rw [List.getElem?_append_right (Nat.le_of_not_lt hlt)] at hi
      obtain rfl : y = some t := by
        have hy := List.mem_of_getElem? hi
        simpa using hy
      rw [hcalls]
      show Rendered [] (P.handedFrom i ++ t.tray) t.packer.current t.unwritten
      rw [hfrom, htray, Station.unwritten, hjob]
      exact Rendered.blank hcur
  · intro x hx
    rw [List.length_append]
    exact Nat.lt_add_right 1 (h.handed_lt x hx)
  · intro c hc
    rw [List.length_append]
    exact Nat.lt_add_right 1 (h.calls_lt c hc)

theorem put {i : Nat} {t : Station} {y : Option Station} {o : Outbox} {bs : List Buffer}
    {begun : List Intake} (h : P.Noted L calls) (hi : P.stations[i]? = some (some t))
    (hm : Station.Moved L t y P.outbox.tally o.tally bs begun)
    (hb : ∀ c ∈ begun, c.station = i) : (P.put i y o bs).Noted L (calls ++ begun) := by
  have hlt : i < P.stations.length := (List.getElem?_eq_some_iff.mp hi).1
  obtain ⟨others, hbefore, hafter⟩ := crew_put hi y o bs
  have hw {l l' : List Station} (hl : l.Perm l') (k : Kind) :
      Metric.pointsOf (l.flatMap Station.underWay) k =
        Metric.pointsOf (l'.flatMap Station.underWay) k :=
    Metric.pointsOf_perm (hl.flatMap_right _) k
  have ht {l l' : List Station} (hl : l.Perm l') :
      MetricPipeline.oversized L (l.flatMap Station.tray) =
        MetricPipeline.oversized L (l'.flatMap Station.tray) :=
    (hl.flatMap_right _).countP_eq _
  refine ⟨?_, ?_, ?_, ?_, ?_, ?_, ?_⟩
  · rw [Intake.number_append, toUInt64_add, ← h.sampledOut]
    exact hm.sampledOut
  · rw [Intake.number_append, toUInt64_add, ← h.rejected]
    exact hm.rejected
  · intro k
    have hp := h.points k
    have hn := hm.points k
    rw [hw hbefore, List.flatMap_cons, Metric.pointsOf_append, toUInt64_add] at hp
    rw [Metric.pointsOf_append, toUInt64_add] at hn
    rw [hw hafter, List.flatMap_append, Metric.pointsOf_append, toUInt64_add,
      Intake.accepted_append, Metric.pointsOf_append, toUInt64_add, ← hp]
    show o.tally.points k + _ = _
    grind
  · have hp := h.oversized
    have hn := hm.oversized
    have hh : (P.put i y o bs).handed.map Prod.snd = P.handed.map Prod.snd ++ bs := by
      simp [Plant.put, Function.comp_def]
    rw [ht hbefore, List.flatMap_cons, oversized_append, toUInt64_add, toUInt64_add] at hp
    rw [oversized_append, toUInt64_add] at hn
    rw [ht hafter, hh, List.flatMap_append, oversized_append, oversized_append, toUInt64_add,
      toUInt64_add, toUInt64_add]
    show o.tally.oversized = _
    grind
  · intro j y' hj
    rw [handedFrom_put, Intake.acceptedAt_append]
    by_cases hji : j = i
    · subst hji
      obtain rfl : y' = y := by
        rw [Plant.put, List.getElem?_set_self hlt] at hj
        exact (Option.some.inj hj).symm
      rw [if_pos rfl, Intake.acceptedAt_eq_accepted hb]
      exact hm.renders _ _ (h.renders j _ hi)
    · have hnone : Intake.acceptedAt j begun = [] :=
        Intake.acceptedAt_eq_nil fun c hc he => hji (he ▸ hb c hc)
      rw [Plant.put, List.getElem?_set_ne (Ne.symm hji)] at hj
      rw [if_neg hji, hnone, List.append_nil, List.append_nil]
      exact h.renders j y' hj
  · intro x hx
    rw [Plant.put, List.length_set]
    rcases List.mem_append.mp hx with hx | hx
    · exact h.handed_lt x hx
    · obtain ⟨b, -, rfl⟩ := List.mem_map.mp hx
      exact hlt
  · intro c hc
    rw [Plant.put, List.length_set]
    rcases List.mem_append.mp hc with hc | hc
    · exact h.calls_lt c hc
    · exact hb c hc ▸ hlt

end

theorem act (h : P.Noted L calls) (hs : P.Sound L) (a : Act) :
    (P.act a).Noted L (calls ++ P.intakesAt a) := by
  have station {i : Nat} {t : Station} (hi : P.stations[i]? = some (some t)) : t.Sound L :=
    hs.stations t (List.mem_of_getElem? hi)
  have hl := P.act_leads a
  generalize P.act a = P' at hl ⊢
  cases hl with
  | nowhere hn => rwa [P.intakesAt_of_unable hn, List.append_nil]
  | create =>
    simp only [intakesAt, List.append_nil]
    exact h.create _ _ rfl rfl P.outbox.borrow.1.bytes_nil P.outbox.tally_borrow
  | @process i t m hi hidle =>
    have hcall : P.intakesAt (.process i m) = [⟨i, m, m.verdict P.words⟩] := by
      simp [intakesAt, hi, hidle]
    rw [hcall]
    exact (h.put hi (Station.moved_begin hidle i m P.words) (by simp)).aside rfl rfl rfl
  | flush hi hidle =>
    exact h.put hi (Station.moved_flush (station hi) hidle) (List.forall_mem_nil _)
  | retire hi hidle =>
    exact h.put hi (Station.moved_retire (station hi) hidle) (List.forall_mem_nil _)
  | proceed hi => exact h.put hi (Station.moved_proceed (station hi)) (List.forall_mem_nil _)
  | take _ =>
    simp only [intakesAt, List.append_nil]
    exact h.aside rfl rfl rfl
  | release _ =>
    simp only [intakesAt, List.append_nil]
    exact h.aside rfl rfl (P.outbox.tally_release _)
  | close =>
    simp only [intakesAt, List.append_nil]
    exact h.aside rfl rfl P.outbox.tally_close

theorem happen (h : P.Noted L calls) (hs : P.Sound L) (policy : FullPolicy) (e : Event) :
    (P.happen policy e).Noted L (calls ++ P.intakesOf policy e) := by
  have hnil : calls ++ [] = calls := List.append_nil calls
  cases e with
  | attempt a =>
    simp only [Plant.happen, intakesOf]
    split
    · rwa [hnil]
    · exact h.act hs a
  | insist a => exact h.act hs a
  | attend a =>
    simp only [Plant.happen, intakesOf]
    split
    · have hb {Q : Plant σ} {cs : List Intake} (hQ : Q.Noted L cs) (n : Nat) :
          (Q.withBound n).Noted L cs := hQ.aside rfl rfl rfl
      have hsb := hs.withBound (max 1 P.outbox.queue.bound)
      have ha := (hb h (max 1 P.outbox.queue.bound)).act hsb a
      have htake := ha.act (hsb.act a) .take
      have hi : (P.withBound (max 1 P.outbox.queue.bound)).intakesAt a = P.intakesAt a := by
        cases a <;> rfl
      have hn (Q : Plant σ) : Q.intakesAt .take = [] := rfl
      rw [hn, List.append_nil, hi] at htake
      exact hb htake _
    · rwa [hnil]

theorem after (h : P.Noted L calls) (hs : P.Sound L) (policy : FullPolicy) (es : List Event) :
    (P.after policy es).Noted L (calls ++ P.intakes policy es) := by
  induction es generalizing P calls with
  | nil =>
    rw [intakes, List.append_nil]
    exact h
  | cons e es ih =>
    rw [intakes, ← List.append_assoc]
    exact ih (h.happen hs policy e) (hs.after policy [e])

end Noted

def output (P : Plant σ) : List Buffer :=
  P.handed.map Prod.snd ++ P.crew.flatMap Station.output

section Output

variable {L : Limits} {calls : List Intake} {P : Plant σ}

omit [WordSource σ]

theorem flatMap_crew {β : Type} (P : Plant σ) (f : Station → List β) :
    P.crew.flatMap f =
      (List.range P.stations.length).flatMap fun i => (P.stations[i]?.join).toList.flatMap f := by
  have hs : P.stations = (List.range P.stations.length).map fun i => P.stations[i]?.join := by
    apply List.ext_getElem
    · simp
    · intro i hi _
      simp [hi]
  rw [crew, flatMap_reduceOption]
  conv_lhs => rw [hs]
  rw [List.flatMap_map]

theorem Sound.output (h : P.Sound L) : ∀ b ∈ P.output, b.IsPayload L := by
  intro b hb
  rcases List.mem_append.mp hb with hb | hb
  · obtain ⟨x, hx, rfl⟩ := List.mem_map.mp hb
    exact h.handed x hx
  · obtain ⟨t, ht, hb⟩ := List.mem_flatMap.mp hb
    have hst := h.stations t (List.reduceOption_mem_iff.mp ht)
    rcases List.mem_append.mp hb with hb | hb
    · exact hst.tray b hb
    · rw [List.mem_singleton.mp hb]
      exact .inl hst.current

theorem Noted.pages_of_stations (h : P.Noted L calls) {stations : List Nat}
    (hlt : ∀ i ∈ stations, i < P.stations.length) :
    ∃ pages : List (List Row),
      Client.MadeUpOf ((stations.flatMap fun i =>
        P.handedFrom i ++ P.stations[i]?.join.toList.flatMap Station.output).map Buffer.bytes)
          pages ∧
        (pages.flatten.flatMap Row.triples ++
          stations.flatMap fun i => P.stations[i]?.join.toList.flatMap Station.unwritten).Perm
            ((stations.flatMap fun i => Intake.acceptedAt i calls).flatMap Metric.triples) := by
  induction stations with
  | nil => exact ⟨[], ⟨rfl, by simp⟩, by simp⟩
  | cons i stations ih =>
    obtain ⟨pages', hmade', hperm'⟩ := ih fun j hj => hlt j (List.mem_cons_of_mem _ hj)
    have hy : P.stations[i]? = some P.stations[i]?.join := by simp [hlt i List.mem_cons_self]
    obtain ⟨pages, hmade, ht⟩ := (h.renders i _ hy).pages
    refine ⟨pages ++ pages', ?_, ?_⟩
    · rw [List.flatMap_cons, List.map_append]
      exact hmade.append hmade'
    · let w := pages.flatten.flatMap Row.triples
      let w' := pages'.flatten.flatMap Row.triples
      let u := P.stations[i]?.join.toList.flatMap Station.unwritten
      let us := stations.flatMap fun i => P.stations[i]?.join.toList.flatMap Station.unwritten
      -- What station `i` has still to write goes before what is written at the others.
      have hswap : (w ++ w' ++ (u ++ us)).Perm (w ++ u ++ (w' ++ us)) := by
        rw [List.append_assoc, List.append_assoc]
        apply List.Perm.append_left
        rw [← List.append_assoc, ← List.append_assoc]
        exact List.perm_append_comm.append_right us
      rw [List.flatten_append, List.flatMap_append, List.flatMap_cons, List.flatMap_cons,
        List.flatMap_append, ← ht]
      exact hswap.trans (hperm'.append_left (w ++ u))

/-- The points on all pages, in the payloads and in the open buffers, and those still to come are
the points of the metrics accepted. -/
theorem Noted.pages (h : P.Noted L calls) :
    ∃ pages : List (List Row), Client.MadeUpOf (P.output.map Buffer.bytes) pages ∧
      (pages.flatten.flatMap Row.triples ++ P.crew.flatMap Station.unwritten).Perm
        ((Intake.accepted calls).flatMap Metric.triples) := by
  have hhanded : (P.handed.map Prod.snd).Perm
      ((List.range P.stations.length).flatMap P.handedFrom) := by
    have hp := (perm_flatMap_filter Prod.fst h.handed_lt).map Prod.snd
    rwa [List.map_flatMap] at hp
  have hout : P.output.Perm ((List.range P.stations.length).flatMap fun i =>
      P.handedFrom i ++ P.stations[i]?.join.toList.flatMap Station.output) := by
    rw [output, flatMap_crew]
    exact (hhanded.append_right _).trans (List.flatMap_append_perm _ _ _)
  have haccepted : (Intake.accepted calls).Perm
      ((List.range P.stations.length).flatMap fun i => Intake.acceptedAt i calls) := by
    have hp := ((perm_flatMap_filter Intake.station h.calls_lt).filter
      fun c => c.verdict = .accepted).map Intake.metric
    rwa [List.filter_flatMap, List.map_flatMap] at hp
  obtain ⟨pages, hmade, hperm⟩ := h.pages_of_stations fun i hi => List.mem_range.mp hi
  rw [← flatMap_crew P Station.unwritten] at hperm
  obtain ⟨pages', hmade', hpages⟩ := hmade.perm (hout.map Buffer.bytes)
  refine ⟨pages', hmade', ?_⟩
  have hsame := ((hpages.flatten.flatMap_right Row.triples).append_right
    (P.crew.flatMap Station.unwritten)).trans hperm
  exact hsame.trans (haccepted.symm.flatMap_right _)

theorem Noted.totalPoints (h : P.Noted L calls) :
    P.outbox.telemetry.counts.totalPoints +
      ((P.crew.flatMap Station.underWay).flatMap Metric.triples).length.toUInt64 =
        ((Intake.accepted calls).flatMap Metric.triples).length.toUInt64 := by
  rw [Outbox.totalPoints_eq, ← Metric.sum_pointsOf, ← Metric.sum_pointsOf, toUInt64_sum,
    toUInt64_sum, ← List.sum_map_add]
  congr 1
  exact List.map_congr_left fun k _ => h.points k

end Output

section Accounts

/-- In a run of packers that share their counters, every call is not sampled, rejected or accepted,
and the first two are counted. At any moment the points of each type that were counted, with those
of the calls under way, are the points of the metrics accepted; and those are the points on the
lines of the payloads handed over, dropped ones included, of the payloads about to be handed over
and of the open buffers, with those that are still to be written. Payloads that are too long are
counted as they are made. So when no call is under way, what the counters show is what was written:
as many points in all as stand in the payloads handed over and in the open buffers, as many of each
type as the accepted metrics have, and as many long payloads as were handed over. -/
theorem points_accounted (policy : FullPolicy) (initial maximum bound : Nat) (L : Limits) (s : σ)
    (es : List Event) :
    let P₀ : Plant σ := start (Pool.create initial maximum L) bound s
    let P := P₀.after policy es
    let calls := P₀.intakes policy es
    let accepted := Intake.accepted calls
    let counts := P.outbox.telemetry.counts
    let handed := P.handed.map Prod.snd
    calls.length =
        Intake.number .unsampled calls + Intake.number .rejected calls + accepted.length ∧
      Shows counts.sampledOut (Intake.number .unsampled calls) ∧
      Shows counts.rejected (Intake.number .rejected calls) ∧
      (∀ k, counts.points k +
        (Metric.pointsOf (P.crew.flatMap Station.underWay) k).toUInt64 =
          (Metric.pointsOf accepted k).toUInt64) ∧
      (∃ pages : List (List Row), Client.MadeUpOf (P.output.map Buffer.bytes) pages ∧
        (pages.flatten.flatMap Row.triples ++ P.crew.flatMap Station.unwritten).Perm
          (accepted.flatMap Metric.triples) ∧
        counts.totalPoints +
          ((P.crew.flatMap Station.underWay).flatMap Metric.triples).length.toUInt64 =
            (pointsOn pages + (P.crew.flatMap Station.unwritten).length).toUInt64) ∧
      Shows counts.oversized (oversized L (handed ++ P.crew.flatMap Station.tray)) ∧
      (∀ b ∈ P.output, b.limits ≠ L ↔ b.Oversized L) ∧
      ((∀ t ∈ P.crew, t.isIdle = true) →
        (∀ k, Shows (counts.points k) (Metric.pointsOf accepted k)) ∧
        (∃ pages : List (List Row),
          Client.MadeUpOf
            ((handed ++ P.crew.map fun t => t.packer.current).map Buffer.bytes) pages ∧
          (pages.flatten.flatMap Row.triples).Perm (accepted.flatMap Metric.triples) ∧
          Shows counts.totalPoints (pointsOn pages)) ∧
        Shows counts.oversized (oversized L handed)) := by
  intro P₀ P calls accepted counts handed
  have hstart : P₀.Sound L := sound_start initial maximum bound s
  have hs : P.Sound L := hstart.after policy es
  have hn : P.Noted L calls := (Noted.start _ bound s).after hstart policy es
  obtain ⟨pages, hmade, hperm⟩ := hn.pages
  have hlength : pointsOn pages + (P.crew.flatMap Station.unwritten).length =
      (accepted.flatMap Metric.triples).length := by
    rw [pointsOn, ← List.length_append]
    exact hperm.length_eq
  have hover : counts.oversized =
      (oversized L (handed ++ P.crew.flatMap Station.tray)).toUInt64 := by
    rw [oversized_append]
    exact hn.oversized
  refine ⟨Intake.length_eq calls, .of_eq hn.sampledOut, .of_eq hn.rejected, hn.points,
    ⟨pages, hmade, hperm, ?_⟩, .of_eq hover, ?_, ?_⟩
  · rw [hlength]
    exact hn.totalPoints
  · exact fun b hb => (hs.output b hb).limits_ne_iff
  · intro hidle
    have hunder : P.crew.flatMap Station.underWay = [] :=
      List.flatMap_eq_nil_iff.mpr fun t ht => Station.underWay_of_isIdle (hidle t ht)
    have hunwritten : P.crew.flatMap Station.unwritten = [] :=
      List.flatMap_eq_nil_iff.mpr fun t ht => Station.unwritten_of_isIdle (hidle t ht)
    have htray : P.crew.flatMap Station.tray = [] :=
      List.flatMap_eq_nil_iff.mpr fun t ht => (Station.isIdle_iff.mp (hidle t ht)).1
    have hout : P.output = handed ++ P.crew.map fun t => t.packer.current := by
      have hone : P.crew.flatMap Station.output = P.crew.flatMap fun t => [t.packer.current] :=
        List.flatMap_congr fun t ht => Station.output_of_isIdle (hidle t ht)
      rw [output, hone]
      exact congrArg (handed ++ ·) List.map_eq_flatMap.symm
    refine ⟨fun k => .of_eq ?_, ⟨pages, ?_, ?_, .of_eq ?_⟩, .of_eq ?_⟩
    · have hp := hn.points k
      rw [hunder, Metric.pointsOf_nil] at hp
      exact (add_zero _).symm.trans hp
    · rw [← hout]
      exact hmade
    · rwa [hunwritten, List.append_nil] at hperm
    · have ht := hn.totalPoints
      rw [hunder] at ht
      rw [hunwritten, List.length_nil, Nat.add_zero] at hlength
      rw [hlength]
      simpa using ht
    · rw [hover, htray, List.append_nil]

end Accounts

/-- Calls on two packers overlap. One writes a batch that nobody has room for, the other a line that
is too long; then one call is not sampled and one is rejected. -/
def crossedEvents : List Event :=
  [.attempt .create, .attempt .create,
    .attempt (.process 0 { name := "load", value := .histogramBatch [.one, .one] "" }),
    .attempt (.process 1 { name := "beyond-all-limits", value := .count 1 }),
    .attempt (.proceed 1), .attempt (.proceed 0), .attempt (.proceed 1), .attempt (.proceed 0),
    .attempt (.process 0 { name := "load", value := .count 1, rate := .zero }),
    .attempt (.proceed 1), .attempt (.process 1 { name := "", value := .count 1 }),
    .attempt (.flush 0), .attempt (.proceed 0)]

theorem points_crossedEvents :
    let P₀ := start (Pool.create 1 2 ⟨16, 2⟩) 0 ({ words := [] } : Cycle)
    let P := P₀.after .drop crossedEvents
    let calls := P₀.intakes .drop crossedEvents
    let accepted := Intake.accepted calls
    let counts := P.outbox.telemetry.counts
    let handed := P.handed.map Prod.snd
    calls.map Intake.verdict = [.accepted, .accepted, .unsampled, .rejected] ∧
      P.crew.all Station.isIdle = true ∧ Metric.pointsOf accepted .histogram = 2 ∧
      Metric.pointsOf accepted .count = 1 ∧ oversized ⟨16, 2⟩ handed = 1 ∧
      (∀ k, Shows (counts.points k) (Metric.pointsOf accepted k)) ∧
        Shows counts.oversized (oversized ⟨16, 2⟩ handed) := by
  refine ⟨by decide +kernel, by decide +kernel, by decide +kernel, by decide +kernel,
    by decide +kernel, ?_⟩
  obtain ⟨-, -, -, -, -, -, -, hend⟩ :=
    points_accounted .drop 1 2 0 ⟨16, 2⟩ ({ words := [] } : Cycle) crossedEvents
  obtain ⟨hpoints, -, hoversized⟩ := hend (List.all_eq_true.mp (by decide +kernel))
  exact ⟨hpoints, hoversized⟩

end Plant
end MetricPipeline
