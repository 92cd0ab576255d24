import MetricPipeline.Proofs.Waiting

namespace MetricPipeline

namespace Binary64

theorem le_eq_not_lt {x y : Binary64} (hx : x.isNaN = false) (hy : y.isNaN = false) :
    x.le y = !y.lt x := by
  rw [le, lt, hx, hy, Bool.eq_iff_iff]
  simp

theorem isNaN_zero : zero.isNaN = false := by decide

theorem isNaN_one : one.isNaN = false := by decide

theorem signedUnits_zero_lt_one : zero.signedUnits < one.signedUnits := by decide +kernel

variable {rate : Binary64}

theorem chance_of_one_le (h : one.le rate = true) : rate.chance = .always := if_pos h

theorem chance_of_not_pos (h : (rate.le zero || rate.isNaN) = true) : rate.chance = .never := by
  have hlt := signedUnits_zero_lt_one
  have h₁ : one.le rate = false := by
    simp only [le, isNaN_zero, isNaN_one, Bool.or_eq_true, Bool.and_eq_true, Bool.not_eq_true',
      decide_eq_true_eq, Bool.and_eq_false_iff, decide_eq_false_iff_not] at h ⊢
    rcases h with ⟨-, h⟩ | h
    · right
      omega
    · simp [h]
  rw [Bool.or_comm] at h
  rw [chance, if_neg (by simp [h₁]), if_pos h]

theorem chance_eq_drawn_iff : rate.chance = .drawn ↔ (zero.lt rate && rate.lt one) = true := by
  cases hn : rate.isNaN with
  | true => simp [chance, lt, le, hn]
  | false =>
    rw [chance, le_eq_not_lt isNaN_one hn, le_eq_not_lt hn isNaN_zero, hn]
    cases zero.lt rate <;> cases rate.lt one <;> simp

end Binary64

section Sample

variable {σ : Type} [WordSource σ]

theorem words_decideSample (rate : Binary64) (s : σ) :
    (decideSample rate s).2 =
      if Binary64.zero.lt rate && rate.lt .one then (WordSource.next s).2 else s := by
  cases hd : Binary64.zero.lt rate && rate.lt .one with
  | true => rw [decideSample, Binary64.chance_eq_drawn_iff.mpr hd, if_pos rfl]
  | false =>
    rw [if_neg Bool.false_ne_true, decideSample]
    cases hc : rate.chance with
    | always => rfl
    | never => rfl
    | drawn => simp [Binary64.chance_eq_drawn_iff.mp hc] at hd

end Sample

namespace Metric

def hasNoName (m : Metric) : Bool := m.name.toList.all (· = '\n')

def hasNoPoints (m : Metric) : Bool := m.value.points.isEmpty

def hasNonFinite (m : Metric) : Bool := m.value.numbers.any (!·.isFinite)

def isMalformed (m : Metric) : Bool := m.hasNoName || m.hasNoPoints || m.hasNonFinite

/-- The defect that is reported, of those that a metric has. -/
def IsRejectedFor (m : Metric) : Rejection → Prop
  | .emptyName => m.hasNoName = true
  | .emptyValues name => name = m.name ∧ m.hasNoName = false ∧ m.hasNoPoints = true
  | .nonFiniteValue name =>
    name = m.name ∧ m.hasNoName = false ∧ m.hasNoPoints = false ∧ m.hasNonFinite = true

/-- Whether the metric is bound to be dropped or rejected, with no word drawn for it. -/
def isTraceless (m : Metric) : Bool :=
  (Binary64.one.le m.rate && m.isMalformed) || m.rate.le .zero || m.rate.isNaN

variable {m : Metric}

theorem rejection?_eq : m.rejection? =
    if m.hasNoName then some .emptyName
    else if m.hasNoPoints then some (.emptyValues m.name)
    else if m.hasNonFinite then some (.nonFiniteValue m.name)
    else none := by
  have hn : oneLine m.name = [] ↔ m.hasNoName = true := by simp [oneLine, hasNoName]
  have hp : m.value.size = 0 ↔ m.hasNoPoints = true := by
    rw [hasNoPoints, List.isEmpty_iff_length_eq_zero, Value.length_points]
  simp only [rejection?, hn, hp]
  rfl

theorem rejection?_eq_some_iff {r : Rejection} : m.rejection? = some r ↔ m.IsRejectedFor r := by
  rw [rejection?_eq]
  cases r <;> cases hn : m.hasNoName <;> cases hp : m.hasNoPoints <;>
    cases hf : m.hasNonFinite <;> simp [IsRejectedFor, hn, hp, hf, eq_comm]

theorem isSome_rejection? : m.rejection?.isSome = m.isMalformed := by
  rw [rejection?_eq, isMalformed]
  cases m.hasNoName <;> cases m.hasNoPoints <;> cases m.hasNonFinite <;> rfl

end Metric

namespace Telemetry

theorem Snapshot.record_right_comm (s : Snapshot) (e e' : Event) :
    (s.record e).record e' = (s.record e').record e := by
  cases e with
  | points kind n =>
    cases e' with
    | points kind' n' =>
      cases kind <;> cases kind' <;> simp [record, addPoints, add_right_comm]
    | _ => cases kind <;> rfl
  | _ =>
    cases e' with
    | points kind' n' => cases kind' <;> rfl
    | _ => simp [record, add_right_comm]

namespace Recorder

theorem add_eq (r : Recorder) (c : Counter) (n : UInt64) :
    r.add c n = r.map fun e => (e.1, if e.1 = c then e.2 + n else e.2) := by
  apply List.map_congr_left
  intro e _
  split <;> rfl

theorem add_comm (r : Recorder) (c c' : Counter) (n n' : UInt64) :
    (r.add c n).add c' n' = (r.add c' n').add c n := by
  simp only [add_eq, List.map_map]
  apply List.map_congr_left
  intro e _
  simp only [Function.comp_apply]
  split_ifs <;> simp [add_right_comm]

theorem record_right_comm (r : Recorder) (e e' : Event) :
    (r.record e).record e' = (r.record e').record e := by
  have hadd (r : Recorder) (i : Counter × UInt64) :
      (r.add i.1 i.2).record e' = (r.record e').add i.1 i.2 :=
    List.foldl_hom (fun r : Recorder => r.add i.1 i.2) fun r j => r.add_comm ..
  exact (List.foldl_hom (fun r : Recorder => r.record e') fun r i => (hadd r i).symm).symm

theorem lookup_add (r : Recorder) (c c' : Counter) (n : UInt64) :
    (r.add c n).lookup c' = (r.lookup c').map fun k => if c' = c then k + n else k := by
  rw [add_eq]
  induction r with
  | nil => rfl
  | cons e r ih =>
    obtain ⟨d, k⟩ := e
    simp only [List.map_cons, List.lookup_cons]
    by_cases hd : c' = d
    · subst hd
      simp
    · have hb : (c' == d) = false := beq_eq_false_iff_ne.mpr hd
      simpa [hb] using ih

theorem value_add_of_ne (r : Recorder) {c c' : Counter} (h : c' ≠ c) (n : UInt64) :
    (r.add c n).value c' = r.value c' := by
  rw [value, value, lookup_add]
  simp [h]

end Recorder
end Telemetry

theorem Telemetry.record_right_comm (t : Telemetry) (e e' : Event) :
    (t.record e).record e' = (t.record e').record e := by
  simp only [record, Snapshot.record_right_comm _ e, Recorder.record_right_comm _ e]

namespace Outbox

theorem record_right_comm (o : Outbox) (e e' : Telemetry.Event) :
    (o.record e).record e' = (o.record e').record e := by
  simp only [record, Telemetry.record_right_comm _ e]

theorem enqueue_record (o : Outbox) (e : Telemetry.Event) (b : Buffer) :
    (o.record e).enqueue b = (o.enqueue b).record e := by
  simp only [enqueue]
  split
  · rfl
  · have hq : (o.record e).queue = o.queue := rfl
    rw [hq]
    split
    · rfl
    · rename_i reason _
      exact congrArg (release · b)
        (record_right_comm (o.remark (.dropped reason b.length)) e _)

def recorded (e : Telemetry.Event) : OutletView Outbox Outbox where
  view o := o.record e
  borrow_view _ := rfl
  enqueue_view b o := o.enqueue_record e b
  record_view e' o := o.record_right_comm e e'
  remark_view _ _ := rfl

end Outbox

def Desk.recorded (e : Telemetry.Event) : OutletView Desk Desk where
  view d := { d with outbox := d.outbox.record e }
  borrow_view _ := rfl
  enqueue_view _ _ := rfl
  record_view e' d := congrArg (Desk.mk · d.tray) (d.outbox.record_right_comm e e')
  remark_view _ _ := rfl

namespace Station

variable {σ : Type} [WordSource σ]

theorem begin_record (t : Station) (m : Metric) (s : σ) (o : Outbox) (e : Telemetry.Event) :
    t.begin m s (o.record e) =
      ((t.begin m s o).1, (t.begin m s o).2.1, (t.begin m s o).2.2.record e) := by
  simp only [begin, o.record_right_comm e]
  split
  · rfl
  · split <;> rfl

theorem proceed_record (t : Station) (o : Outbox) (e : Telemetry.Event) :
    t.proceed (o.record e) =
      ((t.proceed o).1, (t.proceed o).2.1.record e, (t.proceed o).2.2) := by
  simp only [proceed]
  split
  · rw [o.enqueue_record e]
  · rfl
  · rw [o.record_right_comm e]
  · rename_i m p ps _ _
    have hr := (Desk.recorded e).round_view m.name t.packer.frame (p :: ps) t.packer.current
      { outbox := o }
    simp only [Desk.recorded] at hr
    rw [hr]

theorem flush_record (t : Station) (o : Outbox) (e : Telemetry.Event) :
    t.flush (o.record e) = ((t.flush o).1, (t.flush o).2.record e) := by
  have hf := (Desk.recorded e).flush_view t.packer { outbox := o }
  simp only [Desk.recorded] at hf
  simp only [flush, hf]

end Station

/-- Whether packers report such an event without having written anything. -/
def Telemetry.Event.isBare : Telemetry.Event → Bool
  | sampledOut | rejected => true
  | _ => false

namespace Packer

variable {σ : Type} [WordSource σ] (p : Packer) (m : Metric) (s : σ) (o : Outbox)

theorem process_error_iff {r : Rejection} :
    (p.process m s o).1 = .error r ↔
      (decideSample m.rate s).1 = true ∧ m.IsRejectedFor r := by
  rw [← Metric.rejection?_eq_some_iff]
  by_cases hk : (decideSample m.rate s).1 = true
  · rw [process_of_kept hk]
    cases hr : m.rejection? with
    | some r' => simp [accept_of_rejection hr, hk]
    | none => simp [accept_of_writable hr]
  · rw [process_of_dropped (by simpa using hk)]
    simp [hk]

theorem process_words :
    (p.process m s o).2.2.1 =
      if Binary64.zero.lt m.rate && m.rate.lt .one then (WordSource.next s).2 else s := by
  rw [← words_decideSample]
  by_cases hk : (decideSample m.rate s).1 = true
  · rw [process_of_kept hk]
  · rw [process_of_dropped (by simpa using hk)]

theorem process_of_error {r : Rejection} (h : (p.process m s o).1 = .error r) :
    (p.process m s o).2.1 = p ∧ (p.process m s o).2.2.2 = o.record .rejected := by
  obtain ⟨hk, hr⟩ := (process_error_iff p m s o).mp h
  rw [process_of_kept hk, accept_of_rejection (Metric.rejection?_eq_some_iff.mpr hr)]
  exact ⟨rfl, rfl⟩

end Packer

namespace Act

def isTraceless : Act → Bool
  | process _ m => m.isTraceless
  | _ => false

end Act

namespace Plant

namespace Event

def act : Event → Act
  | attempt a | insist a | attend a => a

def isTraceless (e : Event) : Bool := e.act.isTraceless

end Event

variable {σ : Type} [WordSource σ]

def record (P : Plant σ) (e : Telemetry.Event) : Plant σ :=
  { P with outbox := P.outbox.record e }

theorem act_record (P : Plant σ) (e : Telemetry.Event) (a : Act) :
    (P.record e).act a = (P.act a).record e := by
  cases a with
  | create => rfl
  | process i m =>
    simp only [act, record]
    split
    · split
      · rw [Station.begin_record]
        rfl
      · rfl
    · rfl
  | flush i =>
    simp only [act, record]
    split
    · split
      · rw [Station.flush_record]
        rfl
      · rfl
    · rfl
  | retire i =>
    simp only [act, record]
    split
    · rename_i t _
      split
      · exact congrArg (P.put i none · [t.packer.current])
          (P.outbox.enqueue_record e t.packer.current)
      · rfl
    · rfl
  | proceed i =>
    simp only [act, record]
    split
    · rw [Station.proceed_record]
      rfl
    · rfl
  | take =>
    cases hw : P.outbox.queue.waiting <;>
      simp [act, record, Outbox.record, Outbox.take, Queue.take, hw]
  | release k =>
    simp only [act, record]
    split <;> rfl
  | close => rfl

omit [WordSource σ] in
theorem lacksRoom_record (P : Plant σ) (e : Telemetry.Event) (a : Act) :
    (P.record e).lacksRoom a = P.lacksRoom a := by
  cases a <;> rfl

theorem happen_record (policy : FullPolicy) (P : Plant σ) (e : Telemetry.Event) (ev : Event) :
    (P.record e).happen policy ev = (P.happen policy ev).record e := by
  cases ev with
  | attempt a =>
    simp only [happen, lacksRoom_record]
    split
    · rfl
    · exact P.act_record e a
  | insist a => exact P.act_record e a
  | attend a =>
    have hq : (P.record e).outbox.queue = P.outbox.queue := rfl
    simp only [happen, attended, hq]
    split
    · have hb (P : Plant σ) (n : Nat) : (P.record e).withBound n = (P.withBound n).record e := rfl
      rw [hb, act_record, act_record, hb]
    · rfl

theorem after_record (policy : FullPolicy) (P : Plant σ) (e : Telemetry.Event) (es : List Event) :
    (P.record e).after policy es = (P.after policy es).record e :=
  List.foldl_hom (fun P : Plant σ => P.record e) fun P ev => P.happen_record policy e ev

def replyTo? (P : Plant σ) : Act → Option (Except Rejection Unit)
  | .process i m =>
    match P.stations[i]? with
    | some (some t) =>
      if t.isIdle then some (t.packer.process m P.words P.outbox).1 else none
    | _ => none
  | _ => none

/-- What a call that begins comes back with. It hands over nothing yet, so it is never put off. -/
def reply? (P : Plant σ) : Event → Option (Except Rejection Unit)
  | .attempt a | .insist a => P.replyTo? a
  | .attend a => if P.outbox.queue.isAwaitable then P.replyTo? a else none

def replies (policy : FullPolicy) (P : Plant σ) :
    List Event → List (Event × Option (Except Rejection Unit))
  | [] => []
  | e :: es => (e, P.reply? e) :: (P.happen policy e).replies policy es

theorem reply?_record (P : Plant σ) (e : Telemetry.Event) (ev : Event) :
    (P.record e).reply? ev = P.reply? ev := by
  have ha (a : Act) : (P.record e).replyTo? a = P.replyTo? a := by
    cases a with
    | process i m =>
      have hp (p : Packer) :
          (p.process m P.words (P.outbox.record e)).1 = (p.process m P.words P.outbox).1 := by
        have hv := (Outbox.recorded e).process_view p m P.words P.outbox
        simp only [Outbox.recorded] at hv
        rw [hv]
      simp only [replyTo?, record, hp]
    | _ => rfl
  cases ev with
  | attempt a | insist a => exact ha a
  | attend a =>
    simp only [reply?, ha]
    rfl

theorem replies_record (policy : FullPolicy) (P : Plant σ) (e : Telemetry.Event)
    (es : List Event) : (P.record e).replies policy es = P.replies policy es := by
  induction es generalizing P with
  | nil => rfl
  | cons ev es ih => rw [replies, replies, reply?_record, happen_record, ih]

/-- Some bare events more are counted in one plant than in the other. -/
def Counted : Plant σ → Plant σ → Prop :=
  Relation.ReflTransGen fun P P' => ∃ e, e.isBare = true ∧ P' = P.record e

namespace Counted

variable {P P' : Plant σ}

omit [WordSource σ] in
theorem single (P : Plant σ) {e : Telemetry.Event} (he : e.isBare = true) :
    Counted P (P.record e) :=
  Relation.ReflTransGen.single ⟨e, he, rfl⟩

omit [WordSource σ] in
theorem map (h : Counted P P') (f : Plant σ → Plant σ)
    (hf : ∀ P e, f (P.record e) = (f P).record e) : Counted (f P) (f P') := by
  induction h with
  | refl => exact .refl
  | tail _ hs ih =>
    obtain ⟨e, he, rfl⟩ := hs
    exact ih.tail ⟨e, he, hf _ e⟩

theorem replies (h : Counted P P') (policy : FullPolicy) (es : List Event) :
    P'.replies policy es = P.replies policy es := by
  induction h with
  | refl => rfl
  | tail _ hs ih =>
    obtain ⟨e, -, rfl⟩ := hs
    rw [replies_record, ih]

end Counted

/-- Two plants that differ at most in how many metrics were not sampled and how many rejected. -/
structure Alike (P P' : Plant σ) : Prop where
  stations : P'.stations = P.stations
  words : P'.words = P.words
  held : P'.held = P.held
  handed : P'.handed = P.handed
  pool : P'.outbox.pool = P.outbox.pool
  queue : P'.outbox.queue = P.outbox.queue
  notices : P'.outbox.notices = P.outbox.notices
  counts : P'.outbox.telemetry.counts =
    { P.outbox.telemetry.counts with
      sampledOut := P'.outbox.telemetry.counts.sampledOut
      rejected := P'.outbox.telemetry.counts.rejected }
  values : ∀ c, c ≠ .sampledOut → c ≠ .rejected →
    P'.outbox.telemetry.recorder.value c = P.outbox.telemetry.recorder.value c

omit [WordSource σ] in
theorem Counted.alike {P P' : Plant σ} (h : Counted P P') : Alike P P' := by
  induction h with
  | refl => exact ⟨rfl, rfl, rfl, rfl, rfl, rfl, rfl, rfl, fun _ _ _ => rfl⟩
  | tail _ hs ih =>
    obtain ⟨e, he, rfl⟩ := hs
    refine ⟨ih.stations, ih.words, ih.held, ih.handed, ih.pool, ih.queue, ih.notices, ?_, ?_⟩
    · have hc := ih.counts
      cases e <;> cases he <;> simp only [record, Outbox.record, Telemetry.record,
        Telemetry.Snapshot.record] <;> rw [hc]
    · intro c hs hr
      rw [← ih.values c hs hr]
      cases e <;> cases he
      · exact Telemetry.Recorder.value_add_of_ne _ hs 1
      · exact Telemetry.Recorder.value_add_of_ne _ hr 1

section Traceless

theorem begin_of_traceless (t : Station) {m : Metric} (h : m.isTraceless = true) (s : σ)
    (o : Outbox) : ∃ e : Telemetry.Event, e.isBare = true ∧ t.begin m s o = (t, s, o.record e) := by
  rw [Metric.isTraceless, Bool.or_assoc, Bool.or_eq_true, Bool.and_eq_true] at h
  rcases h with ⟨hr, hm⟩ | hr
  · have hd : decideSample m.rate s = (true, s) := by
      rw [decideSample, Binary64.chance_of_one_le hr]
    rw [← Metric.isSome_rejection?] at hm
    obtain ⟨r, hr⟩ := Option.isSome_iff_exists.mp hm
    exact ⟨.rejected, rfl, by rw [Station.begin_of_rejection (by rw [hd]) hr, hd]⟩
  · have hd : decideSample m.rate s = (false, s) := by
      rw [decideSample, Binary64.chance_of_not_pos hr]
    exact ⟨.sampledOut, rfl, by rw [Station.begin_of_dropped (by rw [hd]), hd]⟩

theorem counted_act (P : Plant σ) {a : Act} (h : a.isTraceless = true) : Counted P (P.act a) := by
  have hl := P.act_leads a
  generalize P.act a = P' at hl ⊢
  cases hl with
  | nowhere _ => exact .refl
  | @process i t m ht _ =>
    obtain ⟨e, he, hb⟩ := begin_of_traceless t h P.words P.outbox
    have hset : P.stations.set i (some t) = P.stations := by
      obtain ⟨hi, hg⟩ := List.getElem?_eq_some_iff.mp ht
      rw [← hg, List.set_getElem_self]
    have hp :
        P.record e = { P.put i (some t) (P.outbox.record e) [] with words := P.words } := by
      simp [record, put, hset]
    rw [hb]
    exact hp ▸ Counted.single P he
  | _ => simp [Act.isTraceless] at h

theorem act_take_of_nil {P : Plant σ} (h : P.outbox.queue.waiting = []) : P.act .take = P := by
  simp [act, Outbox.take, Queue.take, h]

theorem counted_happen (policy : FullPolicy) (P : Plant σ) {ev : Event}
    (h : ev.isTraceless = true) : Counted P (P.happen policy ev) := by
  cases ev with
  | attempt a =>
    rw [happen]
    split
    · exact .refl
    · exact P.counted_act h
  | insist a => exact P.counted_act h
  | attend a =>
    simp only [happen, attended]
    split
    · rename_i hq
      -- Nothing is in line, and nothing gets there: whoever waits goes on waiting.
      have hw : P.outbox.queue.waiting = [] := by
        simpa using (Bool.and_eq_true_iff.mp hq).2
      let P' := P.withBound (max 1 P.outbox.queue.bound)
      have ht : P'.act .take = P' := act_take_of_nil hw
      have hc := (P'.counted_act h).map (fun Q => (Q.act .take).withBound P.outbox.queue.bound)
        fun Q e => congrArg (withBound · P.outbox.queue.bound) (Q.act_record e .take)
      rw [ht] at hc
      exact hc
    · exact .refl

/-- By induction on the events, each that leaves no trace being passed over where it stands. -/
theorem counted_after (policy : FullPolicy) (P : Plant σ) (es : List Event) :
    Counted (P.after policy (es.filter (!·.isTraceless))) (P.after policy es) := by
  induction es generalizing P with
  | nil => exact .refl
  | cons ev es ih =>
    cases h : ev.isTraceless with
    | false =>
      rw [List.filter_cons_of_pos (by simp [h])]
      exact ih _
    | true =>
      rw [List.filter_cons_of_neg (by simp [h])]
      have hc := (P.counted_happen policy h).map
        (Plant.after policy · (es.filter (!·.isTraceless))) fun Q e => Q.after_record policy e _
      exact hc.trans (ih _)

theorem replies_filter (policy : FullPolicy) (P : Plant σ) (es : List Event) :
    (P.replies policy es).filter (!·.1.isTraceless) =
      P.replies policy (es.filter (!·.isTraceless)) := by
  induction es generalizing P with
  | nil => rfl
  | cons ev es ih =>
    cases h : ev.isTraceless with
    | false =>
      rw [List.filter_cons_of_pos (by simp [h]), replies, replies,
        List.filter_cons_of_pos (by simp [h]), ih]
    | true =>
      rw [List.filter_cons_of_neg (by simp [h]), replies, List.filter_cons_of_neg (by simp [h]), ih]
      exact (P.counted_happen policy h).replies policy _

end Traceless

/-- A call fails just if its metric is sampled and has a defect, the first of them being reported.
Then, or if the metric is not sampled, its packer stays as it is and so does all that packers share,
but for one count; a word is drawn just for the rates strictly between zero and one. And a run of a
plant without the calls that are bound to end like this is the same run, but for the two counts: the
other calls come back with the same. -/
theorem traceless_erased (policy : FullPolicy) (P : Plant σ) (es : List Event) :
    (∀ (p : Packer) (m : Metric) (s : σ) (o : Outbox),
      let call := p.process m s o
      let counts := o.telemetry.counts
      let recorder := o.telemetry.recorder
      (∀ r, call.1 = .error r ↔ (decideSample m.rate s).1 = true ∧ m.IsRejectedFor r) ∧
        call.2.2.1 =
          (if Binary64.zero.lt m.rate && m.rate.lt .one then (WordSource.next s).2 else s) ∧
        ((decideSample m.rate s).1 = false →
          call.1 = .ok () ∧ call.2.1 = p ∧
            call.2.2.2 =
              { o with
                telemetry.counts := { counts with sampledOut := counts.sampledOut + 1 }
                telemetry.recorder := recorder.add .sampledOut 1 }) ∧
        ∀ r, call.1 = .error r →
          call.2.1 = p ∧
            call.2.2.2 =
              { o with
                telemetry.counts := { counts with rejected := counts.rejected + 1 }
                telemetry.recorder := recorder.add .rejected 1 }) ∧
      Alike (P.after policy (es.filter (!·.isTraceless))) (P.after policy es) ∧
      P.replies policy (es.filter (!·.isTraceless)) =
        (P.replies policy es).filter (!·.1.isTraceless) := by
  refine ⟨?_, (P.counted_after policy es).alike, (P.replies_filter policy es).symm⟩
  intro p m s o
  refine ⟨fun r => p.process_error_iff m s o, p.process_words m s o, ?_,
    fun r => p.process_of_error m s o⟩
  intro hk
  rw [Packer.process_of_dropped hk]
  exact ⟨rfl, rfl, rfl⟩

end Plant
end MetricPipeline
