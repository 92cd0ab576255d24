import MetricPipeline.Proofs.Tracing

namespace MetricPipeline

/-- An outbox before which payloads are laid on a tray, to be handed over one at a time. -/
structure Desk where
  outbox : Outbox
  tray : List Buffer := []

instance : Outlet Desk where
  borrow d := ((Outlet.borrow d.outbox).1, { d with outbox := (Outlet.borrow d.outbox).2 })
  enqueue b d := { d with tray := d.tray ++ [b] }
  record e d := { d with outbox := Outlet.record e d.outbox }
  remark n d := { d with outbox := Outlet.remark n d.outbox }

structure Station where
  packer : Packer
  /-- The payloads to hand over before anything else. -/
  tray : List Buffer := []
  /-- The metric that is being written, and the points still to write. -/
  job : Option (Metric × List Bytes) := none

namespace Station

def isIdle (t : Station) : Bool := t.tray.isEmpty && t.job.isNone

theorem isIdle_iff {t : Station} : t.isIdle = true ↔ t.tray = [] ∧ t.job = none := by
  simp [isIdle]

variable {σ : Type} [WordSource σ]

def begin (t : Station) (m : Metric) (s : σ) (o : Outbox) : Station × σ × Outbox :=
  match decideSample m.rate s with
  | (false, s) => (t, s, o.record .sampledOut)
  | (true, s) =>
    match t.packer.frame.prepare m with
    | (.error _, _) => (t, s, o.record .rejected)
    | (.ok (), frame) =>
      ({ t with packer := { t.packer with frame }, job := some (m, m.value.points) }, s, o)

theorem begin_of_dropped {t : Station} {m : Metric} {s : σ} {o : Outbox}
    (h : (decideSample m.rate s).1 = false) :
    t.begin m s o = (t, (decideSample m.rate s).2, o.record .sampledOut) := by
  rw [begin]
  split <;> simp_all

theorem begin_of_rejection {t : Station} {m : Metric} {r : Rejection} {s : σ} {o : Outbox}
    (h : (decideSample m.rate s).1 = true) (hr : m.rejection? = some r) :
    t.begin m s o = (t, (decideSample m.rate s).2, o.record .rejected) := by
  rw [begin]
  split <;> simp_all [Frame.prepare, Metric.prepare]

theorem begin_of_writable {t : Station} {m : Metric} {s : σ} {o : Outbox}
    (h : (decideSample m.rate s).1 = true) (hr : m.rejection? = none) :
    t.begin m s o =
      ({ t with packer := ⟨m.frame, t.packer.current⟩, job := some (m, m.value.points) },
        (decideSample m.rate s).2, o) := by
  rw [begin]
  split <;> simp_all [Frame.prepare, Metric.prepare]

/-- Goes on with what was begun: hands over a payload, packs for one round, or comes to the end of
its metric. With the station and the outbox comes what was handed over. -/
def proceed (t : Station) (o : Outbox) : Station × Outbox × List Buffer :=
  match t.tray, t.job with
  | b :: tray, _ => ({ t with tray }, o.enqueue b, [b])
  | [], none => (t, o, [])
  | [], some (m, []) =>
    ({ t with job := none },
      o.record (.points m.value.kind m.value.points.length.toUInt64), [])
  | [], some (m, p :: ps) =>
    let (rest, current, desk) :=
      Packer.round m.name t.packer.frame (p :: ps) t.packer.current ({ outbox := o } : Desk)
    ({ packer := { t.packer with current }, tray := desk.tray, job := some (m, rest) },
      desk.outbox, [])

def flush (t : Station) (o : Outbox) : Station × Outbox :=
  let (packer, desk) := t.packer.flush ({ outbox := o } : Desk)
  ({ t with packer, tray := desk.tray }, desk.outbox)

end Station

/-- Packers side by side that share a pool, a queue and counters, and somebody who takes payloads
out of the queue and gives their buffers back. -/
structure Plant (σ : Type) where
  /-- One station for each packer ever made; a packer that is gone has left its station. -/
  stations : List (Option Station) := []
  words : σ
  outbox : Outbox
  /-- The payloads taken out of the queue whose buffers were not given back. -/
  held : List Buffer := []
  /-- All that was handed over so far, and from which station, oldest first. -/
  handed : List (Nat × Buffer) := []

/-- One access to what packers share, so that a list of acts is a run in which calls on different
packers overlap in any way. -/
inductive Act
  | create
  /-- A call on a packer that has nothing to do; it goes on by `proceed`. -/
  | process (station : Nat) (m : Metric)
  | flush (station : Nat)
  | retire (station : Nat)
  | proceed (station : Nat)
  /-- Somebody takes the oldest payload. -/
  | take
  /-- They give one of their buffers back. -/
  | release (index : Nat)
  | close

namespace Plant

variable {σ : Type} [WordSource σ]

def start (pool : Pool) (bound : Nat) (words : σ) : Plant σ :=
  { words, outbox := { pool, queue := { bound } } }

def put (P : Plant σ) (i : Nat) (t : Option Station) (o : Outbox) (handed : List Buffer) :
    Plant σ :=
  { P with
    stations := P.stations.set i t
    outbox := o
    handed := P.handed ++ handed.map (i, ·) }

def act (P : Plant σ) : Act → Plant σ
  | .create =>
    let (packer, outbox) := Packer.create P.outbox
    { P with stations := P.stations ++ [some { packer }], outbox }
  | .process i m =>
    match P.stations[i]? with
    | some (some t) =>
      if t.isIdle then
        let (t, words, outbox) := t.begin m P.words P.outbox
        { P.put i (some t) outbox [] with words }
      else P
    | _ => P
  | .flush i =>
    match P.stations[i]? with
    | some (some t) =>
      if t.isIdle then
        let (t, outbox) := t.flush P.outbox
        P.put i (some t) outbox []
      else P
    | _ => P
  | .retire i =>
    match P.stations[i]? with
    | some (some t) =>
      if t.isIdle then P.put i none (t.packer.retire P.outbox) [t.packer.current] else P
    | _ => P
  | .proceed i =>
    match P.stations[i]? with
    | some (some t) =>
      let (t, outbox, handed) := t.proceed P.outbox
      P.put i (some t) outbox handed
    | _ => P
  | .take =>
    match P.outbox.take with
    | none => P
    | some (b, outbox) => { P with outbox, held := P.held ++ [b] }
  | .release k =>
    match P.held[k]? with
    | none => P
    | some b => { P with outbox := P.outbox.release b, held := P.held.eraseIdx k }
  | .close => { P with outbox := P.outbox.close }

def run (P : Plant σ) (acts : List Act) : Plant σ := acts.foldl act P

/-- The act cannot be done: nobody is there to do it, they are busy, or there is nothing to take or
to give back. -/
def Unable (P : Plant σ) : Act → Prop
  | .process i _ | .flush i | .retire i => ∀ t, P.stations[i]? = some (some t) → t.isIdle = false
  | .proceed i => ∀ t, P.stations[i]? ≠ some (some t)
  | .take => P.outbox.queue.waiting = []
  | .release k => P.held[k]? = none
  | .create | .close => False

inductive Leads (P : Plant σ) : Act → Plant σ → Prop
  | nowhere {a : Act} (h : P.Unable a) : Leads P a P
  | create : Leads P .create { P with
      stations := P.stations ++ [some { packer := (Packer.create P.outbox).1 }]
      outbox := P.outbox.borrow.2 }
  | process {i : Nat} {t : Station} (m : Metric) (hi : P.stations[i]? = some (some t))
      (hidle : t.isIdle = true) : Leads P (.process i m) {
        P.put i (some (t.begin m P.words P.outbox).1) (t.begin m P.words P.outbox).2.2 [] with
        words := (t.begin m P.words P.outbox).2.1 }
  | flush {i : Nat} {t : Station} (hi : P.stations[i]? = some (some t))
      (hidle : t.isIdle = true) :
      Leads P (.flush i) (P.put i (some (t.flush P.outbox).1) (t.flush P.outbox).2 [])
  | retire {i : Nat} {t : Station} (hi : P.stations[i]? = some (some t))
      (hidle : t.isIdle = true) :
      Leads P (.retire i)
        (P.put i none (P.outbox.enqueue t.packer.current) [t.packer.current])
  | proceed {i : Nat} {t : Station} (hi : P.stations[i]? = some (some t)) :
      Leads P (.proceed i)
        (P.put i (some (t.proceed P.outbox).1) (t.proceed P.outbox).2.1 (t.proceed P.outbox).2.2)
  | take {b : Buffer} {rest : List Buffer} (hw : P.outbox.queue.waiting = b :: rest) :
      Leads P .take { P with
        outbox := { P.outbox with queue := { P.outbox.queue with waiting := rest } }
        held := P.held ++ [b] }
  | release {k : Nat} {b : Buffer} (hk : P.held[k]? = some b) :
      Leads P (.release k) { P with
        outbox := P.outbox.release b
        held := P.held.eraseIdx k }
  | close : Leads P .close { P with outbox := P.outbox.close }

theorem act_leads (P : Plant σ) (a : Act) : P.Leads a (P.act a) := by
  have absent {i : Nat} (hn : ∀ t, P.stations[i]? = some (some t) → False) :
      ∀ t, P.stations[i]? = some (some t) → t.isIdle = false := fun t ht => (hn t ht).elim
  have busy {i : Nat} {t : Station} (hi : P.stations[i]? = some (some t)) (hb : ¬t.isIdle = true) :
      ∀ t, P.stations[i]? = some (some t) → t.isIdle = false := by
    intro t' ht
    obtain rfl : t = t' := by simpa using hi.symm.trans ht
    simpa using hb
  cases a with
  | create => exact .create
  | process i m =>
    rw [act]
    split
    · rename_i t hi
      split
      · exact .process m hi ‹_›
      · exact .nowhere (busy hi ‹_›)
    · exact .nowhere (absent ‹_›)
  | flush i =>
    rw [act]
    split
    · rename_i t hi
      split
      · exact .flush hi ‹_›
      · exact .nowhere (busy hi ‹_›)
    · exact .nowhere (absent ‹_›)
  | retire i =>
    rw [act]
    split
    · rename_i t hi
      split
      · exact .retire hi ‹_›
      · exact .nowhere (busy hi ‹_›)
    · exact .nowhere (absent ‹_›)
  | proceed i =>
    rw [act]
    split
    · exact .proceed ‹_›
    · exact .nowhere ‹_›
  | take =>
    rw [act]
    cases hw : P.outbox.queue.waiting with
    | nil =>
      rw [Outbox.take, Queue.take, hw]
      exact .nowhere hw
    | cons b rest =>
      rw [Outbox.take, Queue.take, hw]
      exact .take hw
  | release k =>
    rw [act]
    split
    · exact .nowhere ‹_›
    · exact .release ‹_›
  | close => exact .close

section Alone

variable (P : Plant σ) {i : Nat}

omit [WordSource σ] in
theorem put_put (t t' : Option Station) (o o' : Outbox) (bs bs' : List Buffer) :
    (P.put i t o bs).put i t' o' bs' = P.put i t' o' (bs ++ bs') := by
  simp [put]

theorem act_proceed_put (hi : i < P.stations.length) (t : Station) (o : Outbox)
    (bs : List Buffer) :
    (P.put i (some t) o bs).act (.proceed i) =
      P.put i (some (t.proceed o).1) (t.proceed o).2.1 (bs ++ (t.proceed o).2.2) := by
  have ht : (P.put i (some t) o bs).stations[i]? = some (some t) := by simp [put, hi]
  simp only [act, ht, put_put]
  rfl

def Proceeds (i : Nat) (P P' : Plant σ) : Prop :=
  ∃ n, P.run (List.replicate n (.proceed i)) = P'

theorem Proceeds.trans {P P' P'' : Plant σ} (h : Proceeds i P P') (h' : Proceeds i P' P'') :
    Proceeds i P P'' := by
  obtain ⟨n, rfl⟩ := h
  obtain ⟨k, rfl⟩ := h'
  exact ⟨n + k, by rw [List.replicate_add, run, List.foldl_append]; rfl⟩

theorem proceeds_once (hi : i < P.stations.length) (t : Station) (o : Outbox)
    (bs : List Buffer) :
    Proceeds i (P.put i (some t) o bs)
      (P.put i (some (t.proceed o).1) (t.proceed o).2.1 (bs ++ (t.proceed o).2.2)) :=
  ⟨1, P.act_proceed_put hi t o bs⟩

theorem proceeds_tray (hi : i < P.stations.length) (p : Packer)
    (job : Option (Metric × List Bytes)) (tray : List Buffer) (o : Outbox) (bs : List Buffer) :
    Proceeds i (P.put i (some ⟨p, tray, job⟩) o bs)
      (P.put i (some ⟨p, [], job⟩) (tray.foldl Outbox.enqueue o) (bs ++ tray)) := by
  induction tray generalizing o bs with
  | nil => exact ⟨0, by simp [run]⟩
  | cons b tray ih =>
    have h := P.proceeds_once hi ⟨p, b :: tray, job⟩ o bs
    have ht := ih (o.enqueue b) (bs ++ [b])
    rw [List.append_assoc] at ht
    exact h.trans ht

theorem round_desk (name : String) (f : Frame) (points : List Bytes) (b : Buffer)
    (t : Traced Outbox) :
    Packer.round name f points b t =
      let d := Packer.round name f points b ({ outbox := t.outlet } : Desk)
      (d.1, d.2.1, ⟨d.2.2.tray.foldl Outbox.enqueue d.2.2.outbox, t.handed ++ d.2.2.tray⟩) := by
  simp only [Packer.round]
  split
  · simp
  · rfl
  · split <;> rfl

theorem proceeds_pack (hi : i < P.stations.length) (m : Metric) (f : Frame)
    (points : List Bytes) (b : Buffer) (t : Traced Outbox) :
    Proceeds i (P.put i (some ⟨⟨f, b⟩, [], some (m, points)⟩) t.outlet t.handed)
      (P.put i (some ⟨⟨f, (Packer.pack m.name f points b t).1⟩, [], some (m, [])⟩)
        (Packer.pack m.name f points b t).2.outlet
        (Packer.pack m.name f points b t).2.handed) := by
  fun_induction Packer.pack m.name f points b t with
  | case1 b t => exact ⟨0, rfl⟩
  | case2 points b t h rest next t' hr ih =>
    obtain ⟨p, ps, rfl⟩ := List.exists_cons_of_ne_nil h
    have hd := round_desk m.name f (p :: ps) b t
    rw [hr] at hd
    simp only [Prod.mk.injEq] at hd
    obtain ⟨rfl, rfl, rfl⟩ := hd
    -- One act for the round, one for each payload it laid on the tray, and then the rounds to come.
    have h1 := P.proceeds_once hi ⟨⟨f, b⟩, [], some (m, p :: ps)⟩ t.outlet t.handed
    rw [Station.proceed, List.append_nil] at h1
    exact (h1.trans (P.proceeds_tray hi _ _ _ _ _)).trans ih

/-- A call to process a metric, when nothing else happens, comes to the end that it has for the
packer by itself. -/
theorem process_alone {p : Packer} (h : P.stations[i]? = some (some { packer := p }))
    (m : Metric) :
    let r := p.process m P.words ({ outlet := P.outbox } : Traced Outbox)
    Proceeds i (P.act (.process i m))
      { P.put i (some { packer := r.2.1 }) r.2.2.2.outlet r.2.2.2.handed with
        words := r.2.2.1 } := by
  have hi : i < P.stations.length := (List.getElem?_eq_some_iff.mp h).1
  have hb : P.act (.process i m) =
      let b := Station.begin { packer := p } m P.words P.outbox
      { P.put i (some b.1) b.2.2 [] with words := b.2.1 } := by
    simp only [act, h]
    rfl
  rw [hb]
  by_cases hk : (decideSample m.rate P.words).1 = true
  · rw [Packer.process_of_kept hk]
    cases hr : m.rejection? with
    | some r =>
      rw [Packer.accept_of_rejection hr, Station.begin_of_rejection hk hr]
      exact ⟨0, rfl⟩
    | none =>
      rw [Packer.accept_of_writable hr, Station.begin_of_writable hk hr]
      let P' : Plant σ := { P with words := (decideSample m.rate P.words).2 }
      let packed := Packer.pack m.name m.frame m.value.points p.current
        ({ outlet := P.outbox } : Traced Outbox)
      have hp := P'.proceeds_pack hi m m.frame m.value.points p.current { outlet := P.outbox }
      have hl := P'.proceeds_once hi ⟨⟨m.frame, packed.1⟩, [], some (m, [])⟩ packed.2.outlet
        packed.2.handed
      rw [Station.proceed, List.append_nil] at hl
      exact hp.trans hl
  · rw [Packer.process_of_dropped (by simpa using hk),
      Station.begin_of_dropped (by simpa using hk)]
    exact ⟨0, rfl⟩

theorem flush_alone {p : Packer} (h : P.stations[i]? = some (some { packer := p })) :
    let r := p.flush ({ outlet := P.outbox } : Traced Outbox)
    Proceeds i (P.act (.flush i)) (P.put i (some { packer := r.1 }) r.2.outlet r.2.handed) := by
  have hi : i < P.stations.length := (List.getElem?_eq_some_iff.mp h).1
  simp only [act, h, Station.isIdle, List.isEmpty_nil, Option.isNone_none, Bool.and_self, if_true,
    Station.flush, Packer.flush]
  split
  · exact ⟨0, rfl⟩
  · exact P.proceeds_tray hi _ _ [p.current] _ []

end Alone

end Plant
end MetricPipeline
