import MetricPipeline.Proofs.Admission
import MetricPipeline.Proofs.Fates

namespace MetricPipeline

/-- What was passed to a queue and what became of it, oldest first. -/
structure Books where
  offers : List Offer := []
  /-- The payloads that somebody took out of the queue. -/
  taken : List Buffer := []
  /-- Those of them whose buffers were given back. -/
  released : List Buffer := []
  /-- The payloads that were in line when the queue was closed. -/
  lost : List Buffer := []

namespace Books

variable (B B' : Books)

def append : Books :=
  ⟨B.offers ++ B'.offers, B.taken ++ B'.taken, B.released ++ B'.released, B.lost ++ B'.lost⟩

theorem append_empty : B.append {} = B := by simp [append]

theorem append_assoc (B₁ B₂ B₃ : Books) :
    (B₁.append B₂).append B₃ = B₁.append (B₂.append B₃) := by
  simp [append]

def attempts : List Buffer := (B.offers.map Offer.payload).filter fun b => !b.isEmpty

def blanks : List Buffer := (B.offers.map Offer.payload).filter Buffer.isEmpty

def admitted : List Buffer := (B.offers.filter Offer.isAdmitted).map Offer.payload

def dropped : List Buffer := (B.offers.filter Offer.isDropped).map Offer.payload

@[simp] theorem blanks_append : (B.append B').blanks = B.blanks ++ B'.blanks := by
  simp [append, blanks]

@[simp] theorem admitted_append : (B.append B').admitted = B.admitted ++ B'.admitted := by
  simp [append, admitted]

@[simp] theorem dropped_append : (B.append B').dropped = B.dropped ++ B'.dropped := by
  simp [append, dropped]

theorem of_blank {f : Offer} (h : f.payload.isEmpty = true) :
    blanks { offers := [f] } = [f.payload] ∧ admitted { offers := [f] } = [] ∧
      dropped { offers := [f] } = [] := by
  simp [blanks, admitted, dropped, Offer.isAdmitted, Offer.isDropped, h]

theorem of_dropped {f : Offer} (h : f.isDropped = true) :
    blanks { offers := [f] } = [] ∧ admitted { offers := [f] } = [] ∧
      dropped { offers := [f] } = [f.payload] := by
  have hb : f.payload.isEmpty = false := by simp_all [Offer.isDropped]
  simp [blanks, admitted, dropped, Offer.isAdmitted, h, hb]

theorem of_admitted {f : Offer} (h : f.isAdmitted = true) :
    blanks { offers := [f] } = [] ∧ admitted { offers := [f] } = [f.payload] ∧
      dropped { offers := [f] } = [] := by
  have hb : f.payload.isEmpty = false ∧ f.isDropped = false := by simpa [Offer.isAdmitted] using h
  simp [blanks, admitted, dropped, h, hb]

theorem attempts_perm : B.attempts.Perm (B.admitted ++ B.dropped) := by
  let kept := B.offers.filter fun f => !f.payload.isEmpty
  have ha : B.attempts = kept.map Offer.payload := List.filter_map
  have hk : kept.filter (fun f => !f.isDropped) = B.offers.filter Offer.isAdmitted := by
    rw [List.filter_filter]
    exact List.filter_congr fun f _ => Bool.and_comm _ _
  have hd : kept.filter Offer.isDropped = B.offers.filter Offer.isDropped := by
    rw [List.filter_filter]
    exact List.filter_congr fun f _ => by simp +contextual [Offer.isDropped]
  have hp := (List.filter_append_perm Offer.isDropped kept).symm.trans List.perm_append_comm
  rw [hk, hd] at hp
  rw [ha, admitted, dropped, ← List.map_append]
  exact hp.map _

end Books

namespace Plant

variable {σ : Type} [WordSource σ]

/-- An act during which somebody may be waiting for a payload. -/
def serve (awaited : Bool) (P : Plant σ) (a : Act) : Plant σ :=
  if awaited then
    ((P.withBound (max 1 P.outbox.queue.bound)).act a).withBound P.outbox.queue.bound
  else P.act a

/-- The acts that an event comes to. Whoever waits for a payload takes it. -/
def acts (policy : FullPolicy) (P : Plant σ) : Event → List (Bool × Act)
  | .attempt a => if policy.waits && P.lacksRoom a then [] else [(false, a)]
  | .insist a => [(false, a)]
  | .attend a => if P.outbox.queue.isAwaitable then [(true, a), (false, .take)] else []

theorem act_take_withBound (P : Plant σ) (n : Nat) :
    (P.withBound n).act .take = (P.act .take).withBound n := by
  cases hw : P.outbox.queue.waiting <;>
    simp [act, withBound, Outbox.take, Queue.take, hw]

theorem happen_eq (policy : FullPolicy) (P : Plant σ) (e : Event) :
    P.happen policy e = (P.acts policy e).foldl (fun P s => P.serve s.1 s.2) P := by
  cases e with
  | attempt a =>
    simp only [happen, acts]
    split <;> rfl
  | insist a => rfl
  | attend a =>
    simp only [happen, acts]
    split
    · exact (act_take_withBound _ _).symm
    · rfl

/-- What is done in a plant whose pool and queue others use too. -/
inductive Deed
  | event (e : Event)
  | borrow
  /-- Somebody brings a payload of their own, to be handed over by `proceed`. -/
  | bring (payload : Buffer)

def does (policy : FullPolicy) (P : Plant σ) : Deed → Plant σ
  | .event e => P.happen policy e
  | .borrow => { P with outbox := P.outbox.borrow.2 }
  | .bring b =>
    { P with stations := P.stations ++ [some { packer := { current := .detached }, tray := [b] }] }

def follows (policy : FullPolicy) (P : Plant σ) (ds : List Deed) : Plant σ :=
  ds.foldl (does policy) P

/-- What the queue hands out at an act. -/
def takenAt (P : Plant σ) : Act → List Buffer
  | .take => P.outbox.take.toList.map Prod.fst
  | _ => []

def releasedAt (P : Plant σ) : Act → List Buffer
  | .release k => P.held[k]?.toList
  | _ => []

def entry (awaited : Bool) (P : Plant σ) (a : Act) : Books where
  offers := (P.offered? a).toList.map fun b => ⟨b, awaited, P.outbox, (P.serve awaited a).outbox⟩
  taken := P.takenAt a
  released := P.releasedAt a
  lost := P.lostAt (.insist a)

def entries (P : Plant σ) : List (Bool × Act) → Books
  | [] => {}
  | s :: ss => (P.entry s.1 s.2).append ((P.serve s.1 s.2).entries ss)

def entriesAt (policy : FullPolicy) (P : Plant σ) : Deed → Books
  | .event e => P.entries (P.acts policy e)
  | .borrow | .bring _ => {}

def books (policy : FullPolicy) (P : Plant σ) : List Deed → Books
  | [] => {}
  | d :: ds => (P.entriesAt policy d).append ((P.does policy d).books policy ds)

/-- What an act can do to the outbox, to what was taken and to what was handed over. -/
inductive Acted (awaited : Bool) (P P' : Plant σ) : Act → Prop
  | offer {a : Act} {b : Buffer} (ho : P.offered? a = some b)
      (houtbox : P'.outbox = P.outbox.serve awaited b) (hheld : P'.held = P.held)
      (hhanded : P'.handed.map Prod.snd = P.handed.map Prod.snd ++ [b])
      (ht : P.takenAt a = []) (hr : P.releasedAt a = []) (hl : P.lostAt (.insist a) = []) :
      Acted awaited P P' a
  | rest {a : Act} (ho : P.offered? a = none) (hquiet : P.outbox.Quiet P'.outbox)
      (hheld : P'.held = P.held) (hhanded : P'.handed = P.handed)
      (ht : P.takenAt a = []) (hr : P.releasedAt a = []) (hl : P.lostAt (.insist a) = []) :
      Acted awaited P P' a
  | take {b : Buffer} {rest : List Buffer} (hw : P.outbox.queue.waiting = b :: rest)
      (houtbox : P'.outbox =
        { P.outbox with queue := { P.outbox.queue with waiting := rest } })
      (hheld : P'.held = P.held ++ [b]) (hhanded : P'.handed = P.handed) : Acted awaited P P' .take
  | release {k : Nat} {b : Buffer} (hk : P.held[k]? = some b)
      (houtbox : P'.outbox = P.outbox.release b) (hheld : P'.held = P.held.eraseIdx k)
      (hhanded : P'.handed = P.handed) : Acted awaited P P' (.release k)
  | close (houtbox : P'.outbox = P.outbox.close) (hheld : P'.held = P.held)
      (hhanded : P'.handed = P.handed) : Acted awaited P P' .close

theorem quiet_proceed {t : Station} (ht : t.tray = []) (o : Outbox) :
    o.Quiet (t.proceed o).2.1 ∧ (t.proceed o).2.2 = [] := by
  obtain ⟨p, tray, job⟩ := t
  obtain rfl : tray = [] := ht
  match job with
  | none => exact ⟨.refl o, rfl⟩
  | some (m, []) => exact ⟨(Outbox.Quiet.refl o).record rfl, rfl⟩
  | some (m, q :: qs) =>
    have hturn := Packer.round_turn m.name p.frame p.current ({ outbox := o } : Desk)
      (List.cons_ne_nil q qs)
    exact ⟨(Outbox.Quiet.keeps o).keptByPacking.turn (.refl o) hturn, rfl⟩

theorem quiet_begin (t : Station) (m : Metric) (s : σ) (o : Outbox) :
    o.Quiet (t.begin m s o).2.2 := by
  by_cases hk : (decideSample m.rate s).1 = true
  · cases hr : m.rejection? with
    | some r =>
      rw [Station.begin_of_rejection hk hr]
      exact (Outbox.Quiet.refl o).record rfl
    | none =>
      rw [Station.begin_of_writable hk hr]
      exact .refl o
  · rw [Station.begin_of_dropped (by simpa using hk)]
    exact (Outbox.Quiet.refl o).record rfl

omit [WordSource σ] in
theorem offered?_of_unable (P : Plant σ) {a : Act} (h : P.Unable a) : P.offered? a = none := by
  cases a with
  | retire i =>
    rw [offered?]
    split
    · rename_i t hi
      simp [h t hi]
    · rfl
  | proceed i =>
    rw [offered?]
    split
    · rename_i t hi
      exact absurd hi (h t)
    · rfl
  | _ => rfl

omit [WordSource σ] in
theorem takenAt_of_unable (P : Plant σ) {a : Act} (h : P.Unable a) : P.takenAt a = [] := by
  cases a with
  | take =>
    have hw : P.outbox.queue.waiting = [] := h
    simp [takenAt, Outbox.take, Queue.take, hw]
  | _ => rfl

omit [WordSource σ] in
theorem releasedAt_of_unable (P : Plant σ) {a : Act} (h : P.Unable a) : P.releasedAt a = [] := by
  cases a with
  | release k =>
    have hk : P.held[k]? = none := h
    rw [releasedAt, hk, Option.toList_none]
  | _ => rfl

theorem acted_act (P : Plant σ) (a : Act) : Acted false P (P.act a) a := by
  have hl := P.act_leads a
  generalize P.act a = P' at hl ⊢
  cases hl with
  | nowhere hn =>
    exact .rest (P.offered?_of_unable hn) (.refl _) rfl rfl (P.takenAt_of_unable hn)
      (P.releasedAt_of_unable hn) (P.lostAt_of_unable hn)
  | create => exact .rest rfl (Outbox.Quiet.refl _).borrow rfl rfl rfl rfl rfl
  | process m _ _ =>
    exact .rest rfl (quiet_begin _ m P.words P.outbox) rfl (by simp [put]) rfl rfl rfl
  | @flush i t _ _ =>
    have hf : P.outbox.Quiet (t.flush P.outbox).2 :=
      (Outbox.Quiet.keeps P.outbox).flush t.packer (.refl _)
    exact .rest rfl hf rfl (by simp [put]) rfl rfl rfl
  | retire hi hidle =>
    exact .offer (by simp [offered?, hi, hidle]) rfl rfl (by simp [put]) rfl rfl rfl
  | @proceed i t hi =>
    cases htray : t.tray with
    | nil =>
      obtain ⟨hq, hh⟩ := quiet_proceed htray P.outbox
      exact .rest (by simp [offered?, hi, htray]) hq rfl (by simp [put, hh]) rfl rfl rfl
    | cons b tray =>
      have hp : t.proceed P.outbox = ({ t with tray }, P.outbox.enqueue b, [b]) := by
        simp only [Station.proceed, htray]
      rw [hp]
      exact .offer (by simp [offered?, hi, htray]) rfl rfl (by simp [put]) rfl rfl rfl
  | take hw => exact .take hw rfl rfl rfl
  | release hk => exact .release hk rfl rfl rfl
  | close => exact .close rfl rfl rfl

omit [WordSource σ] in
theorem offered?_withBound (P : Plant σ) (n : Nat) (a : Act) :
    (P.withBound n).offered? a = P.offered? a := by
  cases a <;> rfl

omit [WordSource σ] in
theorem takenAt_withBound (P : Plant σ) (n : Nat) (a : Act) :
    (P.withBound n).takenAt a = P.takenAt a := by
  cases a with
  | take =>
    cases hw : P.outbox.queue.waiting <;>
      simp [takenAt, withBound, Outbox.take, Queue.take, hw]
  | _ => rfl

theorem acted_serve (awaited : Bool) (P : Plant σ) (a : Act) :
    Acted awaited P (P.serve awaited a) a := by
  cases awaited with
  | false => exact acted_act P a
  | true =>
    simp only [serve, if_true]
    have ha := acted_act (P.withBound (max 1 P.outbox.queue.bound)) a
    have rebound {o o' : Outbox} (h : o = o') :
        o.withBound P.outbox.queue.bound = o'.withBound P.outbox.queue.bound := h ▸ rfl
    cases ha with
    | offer ho houtbox hheld hhanded ht hr hl =>
      rw [offered?_withBound] at ho
      rw [takenAt_withBound] at ht
      exact .offer ho (rebound houtbox) hheld hhanded ht hr hl
    | rest ho hquiet hheld hhanded ht hr hl =>
      rw [offered?_withBound] at ho
      rw [takenAt_withBound] at ht
      have hq := congrArg (fun q : Queue => { q with bound := P.outbox.queue.bound }) hquiet.queue
      exact .rest ho ⟨hq, hquiet.packets, hquiet.bytes, hquiet.returned⟩ hheld hhanded ht hr hl
    | take hw houtbox hheld hhanded =>
      exact .take hw (rebound houtbox) hheld hhanded
    | release hk houtbox hheld hhanded =>
      exact .release hk (rebound houtbox) hheld hhanded
    | close houtbox hheld hhanded =>
      exact .close (rebound houtbox) hheld hhanded

variable {awaited : Bool} {pool : Pool} {P P' : Plant σ} {B E : Books}

structure Entered (E : Books) (P P' : Plant σ) : Prop where
  settled : ∀ f ∈ E.offers, f.Settled
  handed : P'.handed.map Prod.snd = P.handed.map Prod.snd ++ E.offers.map Offer.payload
  line : P.outbox.queue.waiting ++ E.admitted = E.taken ++ E.lost ++ P'.outbox.queue.waiting
  taken : P.outbox.queue.waiting = [] → E.taken = []
  opened : P'.outbox.queue.isOpen = true → P.outbox.queue.isOpen = true ∧ E.lost = []
  closed : P'.outbox.queue.isOpen = false →
    (P.outbox.queue.isOpen = false → P.outbox.queue.waiting = []) → P'.outbox.queue.waiting = []
  packets : P'.outbox.telemetry.counts.packetsDroppedAtQueue =
    P.outbox.telemetry.counts.packetsDroppedAtQueue + E.dropped.length.toUInt64
  bytes : P'.outbox.telemetry.counts.bytesDroppedAtQueue =
    P.outbox.telemetry.counts.bytesDroppedAtQueue + (totalLength E.dropped).toUInt64
  held : (P'.held ++ E.released).Perm (P.held ++ E.taken)
  returned : P'.outbox.pool.returned =
    P.outbox.pool.returned + (E.blanks.length + E.dropped.length + E.released.length).toUInt64

namespace Entered

section

omit [WordSource σ]

theorem quiet (h : P.outbox.Quiet P'.outbox) (hheld : P'.held = P.held)
    (hhanded : P'.handed = P.handed) : Entered {} P P' := by
  refine ⟨by simp, by simp [hhanded], ?_, fun _ => rfl, by simp [h.queue], ?_, ?_, ?_,
    by simp [hheld], ?_⟩
  · simp [h.queue, Books.admitted]
  · exact fun hc hw => h.queue ▸ hw (h.queue ▸ hc)
  · simp [h.packets, Books.dropped]
  · simp [h.bytes, Books.dropped, totalLength]
  · simp [h.returned, Books.blanks, Books.dropped]

section Offer

variable {f : Offer} (hf : f.Settled) (hbefore : f.before = P.outbox) (hafter : f.after = P'.outbox)
  (hheld : P'.held = P.held)
  (hhanded : P'.handed.map Prod.snd = P.handed.map Prod.snd ++ [f.payload])

include hf hbefore hafter hheld hhanded

theorem blank (hb : f.payload.isEmpty = true) : Entered { offers := [f] } P P' := by
  obtain ⟨hblanks, hadmitted, hdropped⟩ := Books.of_blank hb
  have ho : P'.outbox = P.outbox.release f.payload := hafter ▸ hbefore ▸ hf.empty hb
  have hq : P'.outbox.queue = P.outbox.queue := ho ▸ rfl
  have hc : P'.outbox.telemetry = P.outbox.telemetry := ho ▸ rfl
  have hp : P'.outbox.pool.returned = P.outbox.pool.returned + 1 :=
    ho ▸ Pool.returned_release _ f.payload
  refine ⟨by simpa using hf, by simp [hhanded], ?_, fun _ => rfl, by simp [hq], ?_, ?_, ?_,
    by simp [hheld], ?_⟩
  · simp [hadmitted, hq]
  · exact fun hc hw => hq ▸ hw (hq ▸ hc)
  · simp [hdropped, hc]
  · simp [hdropped, hc, totalLength]
  · simp [hdropped, hblanks, hp]

theorem dropped (hd : f.isDropped = true) : Entered { offers := [f] } P P' := by
  obtain ⟨hblanks, hadmitted, hdropped⟩ := Books.of_dropped hd
  have ho : P'.outbox = P.outbox.turnDown f.payload := hafter ▸ hbefore ▸ hf.turned hd
  have hq : P'.outbox.queue = P.outbox.queue := ho ▸ rfl
  have hp : P'.outbox.pool.returned = P.outbox.pool.returned + 1 :=
    ho ▸ Pool.returned_release _ f.payload
  refine ⟨by simpa using hf, by simp [hhanded], ?_, fun _ => rfl, by simp [hq], ?_, ?_, ?_,
    by simp [hheld], ?_⟩
  · simp [hadmitted, hq]
  · exact fun hc hw => hq ▸ hw (hq ▸ hc)
  · rw [hdropped, ho]
    rfl
  · have hl : totalLength [f.payload] = f.payload.length := by simp [totalLength]
    rw [hdropped, hl, ho]
    rfl
  · simp [hdropped, hblanks, hp]

theorem admitted (hk : f.isAdmitted = true) : Entered { offers := [f] } P P' := by
  obtain ⟨hblanks, hadmitted, hdropped⟩ := Books.of_admitted hk
  have ho : P'.outbox = P.outbox.lineUp f.payload := hafter ▸ hbefore ▸ hf.admitted hk
  have hopen : P.outbox.queue.isOpen = true := by
    have hb : f.payload.isEmpty = false ∧ f.isDropped = false := by
      simpa [Offer.isAdmitted] using hk
    by_contra hn
    have hdrop := hf.dropped.mpr ⟨hb.1, .inl (by simpa [hbefore] using hn)⟩
    simp [hb.2] at hdrop
  have hopen' : P'.outbox.queue.isOpen = true := ho ▸ hopen
  have hw : P'.outbox.queue.waiting = P.outbox.queue.waiting ++ [f.payload] := ho ▸ rfl
  have hc : P'.outbox.telemetry = P.outbox.telemetry := ho ▸ rfl
  have hp : P'.outbox.pool = P.outbox.pool := ho ▸ rfl
  refine ⟨by simpa using hf, by simp [hhanded], ?_, fun _ => rfl, by simp [hopen], ?_, ?_, ?_,
    by simp [hheld], ?_⟩
  · simp [hadmitted, hw]
  · simp [hopen']
  · simp [hdropped, hc]
  · simp [hdropped, hc, totalLength]
  · simp [hdropped, hblanks, hp]

theorem offer : Entered { offers := [f] } P P' := by
  cases hb : f.payload.isEmpty with
  | true => exact blank hf hbefore hafter hheld hhanded hb
  | false =>
    cases hd : f.isDropped with
    | true => exact dropped hf hbefore hafter hheld hhanded hd
    | false =>
      have hk : f.isAdmitted = true := by simp [Offer.isAdmitted, hb, hd]
      exact admitted hf hbefore hafter hheld hhanded hk

end Offer

theorem take {b : Buffer} {rest : List Buffer} (hw : P.outbox.queue.waiting = b :: rest)
    (houtbox : P'.outbox = { P.outbox with queue := { P.outbox.queue with waiting := rest } })
    (hheld : P'.held = P.held ++ [b]) (hhanded : P'.handed = P.handed) :
    Entered { taken := [b] } P P' := by
  refine ⟨by simp, by simp [hhanded], ?_, by simp [hw], by simp [houtbox], ?_, ?_, ?_,
    by simp [hheld], ?_⟩
  · simp [hw, houtbox, Books.admitted]
  · intro hc hwait
    rw [houtbox] at hc
    simp [hwait hc] at hw
  · simp [houtbox, Books.dropped]
  · simp [houtbox, Books.dropped, totalLength]
  · simp [houtbox, Books.blanks, Books.dropped]

theorem release {k : Nat} {b : Buffer} (hk : P.held[k]? = some b)
    (houtbox : P'.outbox = P.outbox.release b) (hheld : P'.held = P.held.eraseIdx k)
    (hhanded : P'.handed = P.handed) : Entered { released := [b] } P P' := by
  have hq : P'.outbox.queue = P.outbox.queue := houtbox ▸ rfl
  have hc : P'.outbox.telemetry = P.outbox.telemetry := houtbox ▸ rfl
  have hp : P'.outbox.pool.returned = P.outbox.pool.returned + 1 :=
    houtbox ▸ Pool.returned_release _ b
  refine ⟨by simp, by simp [hhanded], ?_, fun _ => rfl, by simp [hq], ?_, ?_, ?_, ?_, ?_⟩
  · simp [hq, Books.admitted]
  · exact fun hc hw => hq ▸ hw (hq ▸ hc)
  · simp [hc, Books.dropped]
  · simp [hc, Books.dropped, totalLength]
  · obtain ⟨hlt, rfl⟩ := List.getElem?_eq_some_iff.mp hk
    rw [hheld, List.append_nil]
    exact (List.perm_append_singleton _ _).trans (List.getElem_cons_eraseIdx_perm hlt)
  · simp [hp, Books.blanks, Books.dropped]

theorem close (houtbox : P'.outbox = P.outbox.close) (hheld : P'.held = P.held)
    (hhanded : P'.handed = P.handed) : Entered { lost := P.outbox.queue.waiting } P P' := by
  refine ⟨by simp, by simp [hhanded], ?_, fun _ => rfl, ?_, ?_, ?_, ?_, by simp [hheld], ?_⟩
  · simp [houtbox, Outbox.close, Queue.close, Books.admitted]
  · simp [houtbox, Outbox.close, Queue.close]
  · simp [houtbox, Outbox.close, Queue.close]
  · simp [houtbox, Outbox.close, Books.dropped]
  · simp [houtbox, Outbox.close, Books.dropped, totalLength]
  · simp [houtbox, Outbox.close, Books.blanks, Books.dropped]

end

theorem serve (P : Plant σ) (awaited : Bool)
    (ha : awaited = true → P.outbox.queue.isAwaitable = true) (a : Act) :
    Entered (P.entry awaited a) P (P.serve awaited a) := by
  have hacted := acted_serve awaited P a
  generalize hP : P.serve awaited a = P' at hacted
  cases hacted with
  | @offer _ b ho houtbox hheld hhanded ht hr hl =>
    have he : P.entry awaited a = { offers := [⟨b, awaited, P.outbox, P'.outbox⟩] } := by
      simp [entry, ho, ht, hr, hl, hP]
    have hf := Offer.settled_serve ha b
    rw [← houtbox] at hf
    rw [he]
    exact offer hf rfl rfl hheld hhanded
  | rest ho hquiet hheld hhanded ht hr hl =>
    have he : P.entry awaited a = {} := by simp [entry, ho, ht, hr, hl]
    rw [he]
    exact quiet hquiet hheld hhanded
  | @take b rest hw houtbox hheld hhanded =>
    have he : P.entry awaited .take = { taken := [b] } := by
      simp [entry, offered?, takenAt, releasedAt, lostAt, Outbox.take, Queue.take, hw]
    rw [he]
    exact take hw houtbox hheld hhanded
  | @release k b hk houtbox hheld hhanded =>
    have he : P.entry awaited (.release k) = { released := [b] } := by
      simp [entry, offered?, takenAt, releasedAt, lostAt, hk]
    rw [he]
    exact release hk houtbox hheld hhanded
  | close houtbox hheld hhanded => exact close houtbox hheld hhanded

end Entered

structure Agrees (pool : Pool) (B : Books) (P : Plant σ) : Prop where
  settled : ∀ f ∈ B.offers, f.Settled
  handed : P.handed.map Prod.snd = B.offers.map Offer.payload
  line : B.taken ++ B.lost ++ P.outbox.queue.waiting = B.admitted
  lost_of_open : P.outbox.queue.isOpen = true → B.lost = []
  waiting_of_closed : P.outbox.queue.isOpen = false → P.outbox.queue.waiting = []
  packets : P.outbox.telemetry.counts.packetsDroppedAtQueue = B.dropped.length.toUInt64
  bytes : P.outbox.telemetry.counts.bytesDroppedAtQueue = (totalLength B.dropped).toUInt64
  held : (P.held ++ B.released).Perm B.taken
  returned : P.outbox.pool.returned =
    pool.returned + (B.blanks.length + B.dropped.length + B.released.length).toUInt64

namespace Agrees

omit [WordSource σ] in
theorem enter (h : Agrees pool B P) (he : Entered E P P') : Agrees pool (B.append E) P' := by
  -- Once payloads were lost nobody takes any more, so the lost ones stay behind the taken ones.
  have hswap : B.lost ++ E.taken = E.taken ++ B.lost := by
    cases ho : P.outbox.queue.isOpen with
    | true => simp [h.lost_of_open ho]
    | false => simp [he.taken (h.waiting_of_closed ho)]
  refine ⟨List.forall_mem_append.mpr ⟨h.settled, he.settled⟩, ?_, ?_, ?_,
    fun ho => he.closed ho h.waiting_of_closed, ?_, ?_, ?_, ?_⟩
  · rw [he.handed, h.handed, Books.append, List.map_append]
  · calc B.taken ++ E.taken ++ (B.lost ++ E.lost) ++ P'.outbox.queue.waiting
        = B.taken ++ (E.taken ++ B.lost) ++ E.lost ++ P'.outbox.queue.waiting := by
          simp only [List.append_assoc]
      _ = B.taken ++ B.lost ++ (E.taken ++ E.lost ++ P'.outbox.queue.waiting) := by
          rw [← hswap]
          simp only [List.append_assoc]
      _ = B.taken ++ B.lost ++ P.outbox.queue.waiting ++ E.admitted := by
          rw [← he.line]
          simp only [List.append_assoc]
      _ = (B.append E).admitted := by rw [h.line, Books.admitted_append]
  · intro ho
    rw [Books.append, h.lost_of_open (he.opened ho).1, (he.opened ho).2, List.append_nil]
  · rw [he.packets, h.packets, Books.dropped_append, List.length_append]
    exact (UInt64.ofNat_add _ _).symm
  · rw [he.bytes, h.bytes, Books.dropped_append, totalLength_append]
    exact (UInt64.ofNat_add _ _).symm
  · have hswap (xs ys zs : List Buffer) : (xs ++ (ys ++ zs)).Perm (xs ++ zs ++ ys) := by
      rw [List.append_assoc]
      exact List.perm_append_comm.append_left xs
    have hnow := (hswap P'.held B.released E.released).trans (he.held.append_right _)
    have hbefore := hswap P.held B.released E.taken
    rw [← List.append_assoc] at hbefore
    exact hnow.trans (hbefore.symm.trans (h.held.append_right _))
  · have hr : (B.append E).released.length = B.released.length + E.released.length :=
      List.length_append
    rw [he.returned, h.returned, Books.blanks_append, Books.dropped_append, List.length_append,
      List.length_append, hr, UInt64.add_assoc, ← toUInt64_add]
    congr 2
    omega

theorem serve (h : Agrees pool B P) (awaited : Bool)
    (ha : awaited = true → P.outbox.queue.isAwaitable = true) (a : Act) :
    Agrees pool (B.append (P.entry awaited a)) (P.serve awaited a) :=
  h.enter (.serve P awaited ha a)

theorem happen (h : Agrees pool B P) (policy : FullPolicy) (e : Event) :
    Agrees pool (B.append (P.entries (P.acts policy e))) (P.happen policy e) := by
  have once (a : Act) : Agrees pool (B.append (P.entries [(false, a)])) (P.serve false a) := by
    rw [entries, entries, Books.append_empty]
    exact h.serve false (by simp) a
  have never : Agrees pool (B.append (P.entries [])) P := by rwa [entries, Books.append_empty]
  rw [happen_eq]
  cases e with
  | attempt a =>
    rw [acts]
    split
    · exact never
    · exact once a
  | insist a => exact once a
  | attend a =>
    rw [acts]
    split
    · rename_i hq
      have hserved := (h.serve true (fun _ => hq) a).serve false (by simp) .take
      rw [Books.append_assoc] at hserved
      rwa [entries, entries, entries, Books.append_empty]
    · exact never

theorem does (h : Agrees pool B P) (policy : FullPolicy) (d : Deed) :
    Agrees pool (B.append (P.entriesAt policy d)) (P.does policy d) := by
  cases d with
  | event e => exact h.happen policy e
  | borrow => exact h.enter (.quiet (Outbox.Quiet.refl _).borrow rfl rfl)
  | bring b => exact h.enter (.quiet (.refl _) rfl rfl)

theorem follows (h : Agrees pool B P) (policy : FullPolicy) (ds : List Deed) :
    Agrees pool (B.append (P.books policy ds)) (P.follows policy ds) := by
  induction ds generalizing B P with
  | nil => rwa [books, Books.append_empty]
  | cons d ds ih =>
    rw [books, ← Books.append_assoc]
    exact ih (h.does policy d)

end Agrees

omit [WordSource σ] in
theorem agrees_start (pool : Pool) (bound : Nat) (s : σ) : Agrees pool {} (start pool bound s) := by
  constructor <;> simp [start, Books.admitted, Books.dropped, Books.blanks, totalLength]

theorem serve_within (P : Plant σ) (awaited : Bool)
    (ha : awaited = true → P.outbox.queue.isAwaitable = true) (a : Act) :
    (P.serve awaited a).outbox.queue.bound = P.outbox.queue.bound ∧
      (P.serve awaited a).outbox.queue.length ≤
        max P.outbox.queue.length (if awaited then 1 else P.outbox.queue.bound) := by
  cases acted_serve awaited P a with
  | offer ho houtbox hheld hhanded ht hr hl =>
    rw [houtbox]
    exact Outbox.serve_within ha _
  | rest ho hquiet hheld hhanded ht hr hl =>
    rw [hquiet.queue]
    exact ⟨rfl, le_max_left _ _⟩
  | take hw houtbox hheld hhanded =>
    rw [houtbox]
    refine ⟨rfl, le_trans ?_ (le_max_left _ _)⟩
    simp [Queue.length, hw]
  | release hk houtbox hheld hhanded =>
    rw [houtbox]
    exact ⟨rfl, le_max_left _ _⟩
  | close houtbox hheld hhanded =>
    rw [houtbox]
    exact ⟨rfl, Nat.zero_le _⟩

theorem length_act_take (P : Plant σ) :
    (P.act .take).outbox.queue.bound = P.outbox.queue.bound ∧
      (P.act .take).outbox.queue.length = P.outbox.queue.length - 1 := by
  cases hw : P.outbox.queue.waiting <;>
    simp [act, Outbox.take, Queue.take, Queue.length, hw]

def Within (n : Nat) (P : Plant σ) : Prop :=
  P.outbox.queue.bound = n ∧ P.outbox.queue.length ≤ n

theorem Within.does {n : Nat} (h : P.Within n) (policy : FullPolicy) (d : Deed) :
    (P.does policy d).Within n := by
  obtain ⟨hbound, hlength⟩ := h
  have once (a : Act) : (P.act a).Within n := by
    obtain ⟨hb, hl⟩ := P.serve_within false (by simp) a
    exact ⟨hb.trans hbound, hl.trans (by simp [hbound, hlength])⟩
  cases d with
  | event e =>
    cases e with
    | attempt a =>
      simp only [Plant.does, happen]
      split
      · exact ⟨hbound, hlength⟩
      · exact once a
    | insist a => exact once a
    | attend a =>
      rw [Plant.does, happen_eq, acts]
      split
      · rename_i hq
        -- The one payload that comes in is taken out again.
        obtain ⟨hb, hl⟩ := P.serve_within true (fun _ => hq) a
        obtain ⟨hb', hl'⟩ := length_act_take (P.serve true a)
        refine ⟨(hb'.trans hb).trans hbound, ?_⟩
        have hw : P.outbox.queue.isOpen = true ∧ P.outbox.queue.waiting = [] := by
          simpa [Queue.isAwaitable] using hq
        have hz : P.outbox.queue.length = 0 := by simp [Queue.length, hw.2]
        have hone : (P.serve true a).outbox.queue.length ≤ 1 := by simpa [hz] using hl
        have htaken : ((P.serve true a).act .take).outbox.queue.length ≤ n := by omega
        exact htaken
      · exact ⟨hbound, hlength⟩
  | borrow => exact ⟨hbound, hlength⟩
  | bring b => exact ⟨hbound, hlength⟩

theorem Within.follows {n : Nat} (h : P.Within n) (policy : FullPolicy) (ds : List Deed) :
    (P.follows policy ds).Within n := by
  induction ds generalizing P with
  | nil => exact h
  | cons d ds ih => exact ih (h.does policy d)

theorem awaited_of_mem_entries {f : Offer} {ss : List (Bool × Act)}
    (hf : f ∈ (P.entries ss).offers) : ∃ s ∈ ss, s.1 = f.awaited := by
  induction ss generalizing P with
  | nil => simp [entries] at hf
  | cons s ss ih =>
    rw [entries, Books.append] at hf
    rcases List.mem_append.mp hf with hf | hf
    · simp only [entry, List.mem_map] at hf
      obtain ⟨b, -, rfl⟩ := hf
      exact ⟨s, by simp, rfl⟩
    · obtain ⟨s', hs', he⟩ := ih hf
      exact ⟨s', by simp [hs'], he⟩

theorem attend_of_awaited {policy : FullPolicy} {f : Offer} {ds : List Deed}
    (hf : f ∈ (P.books policy ds).offers) (ha : f.awaited = true) :
    ∃ a, .event (.attend a) ∈ ds := by
  induction ds generalizing P with
  | nil => simp [books] at hf
  | cons d ds ih =>
    rw [books, Books.append] at hf
    rcases List.mem_append.mp hf with hf | hf
    · cases d with
      | event e =>
        obtain ⟨s, hs, hsa⟩ := awaited_of_mem_entries hf
        rw [ha] at hsa
        cases e with
        | attempt a =>
          rw [acts] at hs
          split at hs
          · simp at hs
          · simp_all
        | insist a => simp_all [acts]
        | attend a => exact ⟨a, by simp⟩
      | borrow => simp [entriesAt] at hf
      | bring b => simp [entriesAt] at hf
    · obtain ⟨a, hmem⟩ := ih hf
      exact ⟨a, by simp [hmem]⟩

/-- Whatever is done at a queue with any number of places, the payloads that were taken out, were
lost with the queue or are in line are those passed to it and not dropped, in their order. One with
something in it is dropped exactly when the queue is closed or full, which is counted and gives its
buffer back once; an empty one gives its buffer back and no more. Whoever takes payloads holds those
that were taken and not given back. Nobody waits for a payload but where that is said. -/
theorem offers_accounted (pool : Pool) (bound : Nat) (policy : FullPolicy) (s : σ)
    (ds : List Deed) :
    let P₀ := start pool bound s
    let P := P₀.follows policy ds
    let B := P₀.books policy ds
    let counts := P.outbox.telemetry.counts
    P.outbox.queue.length ≤ bound ∧
      B.offers.map Offer.payload = P.handed.map Prod.snd ∧
      B.taken ++ B.lost ++ P.outbox.queue.waiting = B.admitted ∧
      (P.outbox.queue.isOpen = true → B.lost = []) ∧
      (∀ f ∈ B.offers, f.Settled) ∧
      (∀ f ∈ B.offers, f.awaited = true → ∃ a, .event (.attend a) ∈ ds) ∧
      counts.packetsDroppedAtQueue = B.dropped.length.toUInt64 ∧
      counts.bytesDroppedAtQueue = (totalLength B.dropped).toUInt64 ∧
      (P.held ++ B.released).Perm B.taken ∧
      P.outbox.pool.returned =
        pool.returned + (B.blanks.length + B.dropped.length + B.released.length).toUInt64 ∧
      B.attempts.length =
        B.taken.length + P.outbox.queue.length + B.lost.length + B.dropped.length ∧
      totalLength B.attempts =
        totalLength B.taken + totalLength P.outbox.queue.waiting + totalLength B.lost +
          totalLength B.dropped := by
  intro P₀ P B counts
  have hw : P.Within bound := Within.follows ⟨rfl, Nat.zero_le _⟩ policy ds
  have ha : Agrees pool B P := by
    have h := (agrees_start pool bound s).follows policy ds
    have he : Books.append {} B = B := by simp [Books.append]
    rwa [he] at h
  have hperm : B.attempts.Perm (B.taken ++ B.lost ++ P.outbox.queue.waiting ++ B.dropped) :=
    ha.line ▸ B.attempts_perm
  have hbytes : totalLength B.attempts =
      totalLength (B.taken ++ B.lost ++ P.outbox.queue.waiting ++ B.dropped) :=
    (hperm.map Buffer.length).sum_eq
  have hpackets := hperm.length_eq
  simp only [totalLength_append] at hbytes
  simp only [List.length_append] at hpackets
  refine ⟨hw.2, ha.handed.symm, ha.line, ha.lost_of_open, ha.settled,
    fun f hf => attend_of_awaited hf, ha.packets, ha.bytes, ha.held, ha.returned, ?_, ?_⟩
  · rw [hpackets, Queue.length]
    omega
  · rw [hbytes]
    omega

/-- At a queue with two places the third payload is dropped, and so is one that comes after the
end; of the two in line, one is taken and one is lost. -/
example :
    let b : Buffer := ⟨⟨8, 1⟩, true, 0, ascii "hits:1|c\n", 1⟩
    let B := (start (Pool.create 0 4 ⟨16, 2⟩) 2 ({ words := [] } : Cycle)).books .drop
      ([.bring b, .bring b, .bring b, .bring b] ++
        [.proceed 0, .proceed 1, .proceed 2, .take, .close, .proceed 3].map fun a =>
          .event (.attempt a))
    B.attempts.length = 4 ∧ B.taken = [b] ∧ B.lost = [b] ∧ B.dropped = [b, b] := by
  decide +kernel

end Plant
end MetricPipeline
