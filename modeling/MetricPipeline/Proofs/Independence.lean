import MetricPipeline.Proofs.Stream
import MetricPipeline.Proofs.Waiting

namespace MetricPipeline

/-- An outlet that always has another blank, and takes everything. -/
structure Endless where
  limits : Limits

instance : Outlet Endless where
  borrow e := (Blank.mk e.limits false, e)
  enqueue _ e := e
  record _ e := e
  remark _ e := e

/-- A buffer, no matter whether and as which one it is tracked. -/
def Buffer.plain (b : Buffer) : Buffer := { b with tracked := false, number := 0 }

def Traced.payloads {ω : Type} (t : Traced ω) : List Bytes := t.handed.map Buffer.bytes

def Packer.plain (p : Packer) : Packer := { p with current := p.current.plain }

def Traced.plain {ω : Type} (L : Limits) (t : Traced ω) : Traced Endless :=
  ⟨⟨L⟩, t.handed.map Buffer.plain⟩

namespace Buffer

theorem plain_blank (k : Blank) : k.buffer.plain = (Blank.mk k.limits false).buffer := by
  simp [plain, Blank.mk, Blank.limits]

theorem write_plain (b : Buffer) (f : Frame) (points : List Bytes) :
    b.plain.write f points = ((b.write f points).1, (b.write f points).2.plain) := by
  have hr : b.plain.room f points = b.room f points := rfl
  by_cases h : b.room f points = 0
  · rw [write_of_room_zero h, write_of_room_zero (hr.trans h)]
  · rw [write_of_room_pos (Nat.pos_of_ne_zero h), write_of_room_pos (by omega), hr]
    rfl

end Buffer

section Rounds

variable {ω : Type} [Outlet ω] {L : Limits}

omit [Outlet ω] in
theorem Traced.payloads_plain (L : Limits) (t : Traced ω) : (t.plain L).payloads = t.payloads :=
  List.map_map

theorem Packer.payloads_retire (p : Packer) (t : Traced ω) :
    (p.retire t).payloads = t.payloads ++ [p.current.bytes] :=
  List.map_append

theorem Packer.replace_plain (b : Buffer) {t : Traced ω}
    (h : (Outlet.borrow t.outlet).1.limits = L) :
    (replace b.plain (t.plain L)).1.buffer = (replace b t).1.buffer.plain ∧
      (replace b.plain (t.plain L)).2 = (replace b t).2.plain L := by
  subst h
  refine ⟨(Buffer.plain_blank _).symm, ?_⟩
  simp only [replace, Traced.plain, Outlet.borrow, Outlet.enqueue, List.map_append]
  rfl

theorem Packer.sendAlone_plain (name : String) (line : Bytes) (b : Buffer) (t : Traced ω) :
    sendAlone name line b.plain (t.plain L) = (sendAlone name line b t).plain L := by
  simp only [sendAlone, Traced.plain, Outlet.enqueue, Outlet.record, Outlet.remark,
    List.map_append]
  rfl

theorem Packer.round_plain (name : String) (f : Frame) (points : List Bytes) (b : Buffer)
    {t : Traced ω} (h : (Outlet.borrow t.outlet).1.limits = L) :
    round name f points b.plain (t.plain L) =
      ((round name f points b t).1, (round name f points b t).2.1.plain,
        (round name f points b t).2.2.plain L) := by
  have he : b.plain.isEmpty = b.isEmpty := rfl
  rw [round, round, Buffer.write_plain]
  rcases b.write f points with ⟨written, b'⟩
  cases written with
  | complete => rfl
  | part n =>
    obtain ⟨h₁, h₂⟩ := replace_plain b' h
    simp only [h₁, h₂]
  | full =>
    obtain ⟨h₁, h₂⟩ := replace_plain b h
    simp only [he, h₁, h₂, sendAlone_plain]
    split <;> rfl

variable {I : ω → Prop}

theorem Packer.pack_plain (hI : Outlet.Supplies L I) {m : Metric} (points : List Bytes)
    (b : Buffer) (t : Traced ω) (hb : b.Pooled L) (ht : I t.outlet) (hm : m.rejection? = none)
    (hp : points <:+ m.value.points) :
    pack m.name m.frame points b.plain (t.plain L) =
        ((pack m.name m.frame points b t).1.plain, (pack m.name m.frame points b t).2.plain L) ∧
      (pack m.name m.frame points b t).1.Pooled L ∧
        I (pack m.name m.frame points b t).2.outlet := by
  fun_induction pack m.name m.frame points b t with
  | case1 b t =>
    refine ⟨?_, hb, ht⟩
    rw [pack, dif_pos rfl]
  | case2 points b t h rest next t' hr ih =>
    obtain ⟨hrest, hnext, ht'⟩ := hI.traced.round hb ht hm hp h
    have hround := round_plain m.name m.frame points b (hI.limits _ ht)
    rw [hr] at hrest hnext ht' hround
    rw [pack_of_round h hround]
    exact ih hnext ht' hrest

end Rounds

namespace Packer

/-- A call that finds the source of words, which other packers may draw from, in some state. -/
structure Visit (σ : Type) where
  call : Call
  words : σ

inductive Order
  | process (m : Metric) (kept : Bool)
  | flush
deriving DecidableEq

/-- What a call comes to: its result, and how much is then in the buffer. -/
structure Answer where
  result : Except Rejection Unit
  buffered : Nat

section Calls

variable {σ ω : Type} [WordSource σ] [Outlet ω]

def Visit.order (v : Visit σ) : Order :=
  match v.call with
  | .process m => .process m (decideSample m.rate v.words).1
  | .flush => .flush

def visit (p : Packer) (w : ω) (v : Visit σ) : Answer × Packer × ω :=
  match v.call with
  | .process m =>
    let (result, p, _, w) := p.process m v.words w
    (⟨result, p.current.length⟩, p, w)
  | .flush =>
    let (p, w) := p.flush w
    (⟨.ok (), p.current.length⟩, p, w)

def visits (p : Packer) (w : ω) : List (Visit σ) → List Answer × Packer × ω
  | [] => ([], p, w)
  | v :: vs =>
    let (answer, p, w) := p.visit w v
    let (answers, p, w) := p.visits w vs
    (answer :: answers, p, w)

def follow (p : Packer) (w : ω) : Order → Answer × Packer × ω
  | .process m true =>
    let (result, p, w) := p.accept m w
    (⟨result, p.current.length⟩, p, w)
  | .process _ false => (⟨.ok (), p.current.length⟩, p, Outlet.record .sampledOut w)
  | .flush =>
    let (p, w) := p.flush w
    (⟨.ok (), p.current.length⟩, p, w)

def followAll (p : Packer) (w : ω) : List Order → List Answer × Packer × ω
  | [] => ([], p, w)
  | o :: os =>
    let (answer, p, w) := p.follow w o
    let (answers, p, w) := p.followAll w os
    (answer :: answers, p, w)

theorem visit_eq_follow (p : Packer) (w : ω) (v : Visit σ) : p.visit w v = p.follow w v.order := by
  obtain ⟨call, s⟩ := v
  cases call with
  | process m =>
    by_cases hk : (decideSample m.rate s).1 = true
    · simp only [visit, process_of_kept hk, Visit.order, hk, follow]
    · rw [Bool.not_eq_true] at hk
      simp only [visit, process_of_dropped hk, Visit.order, hk, follow]
  | flush => rfl

theorem visits_eq_followAll (p : Packer) (w : ω) (vs : List (Visit σ)) :
    p.visits w vs = p.followAll w (vs.map Visit.order) := by
  induction vs generalizing p w with
  | nil => rfl
  | cons v vs ih => simp only [visits, List.map_cons, followAll, visit_eq_follow, ih]

variable {L : Limits} {I : ω → Prop}

theorem flush_plain (hI : Outlet.Supplies L I) {p : Packer} {t : Traced ω}
    (hp : p.current.Pooled L) (ht : I t.outlet) :
    p.plain.flush (t.plain L) = ((p.flush t).1.plain, (p.flush t).2.plain L) ∧
      (p.flush t).1.current.Pooled L ∧ I (p.flush t).2.outlet := by
  have he : p.plain.current.isEmpty = p.current.isEmpty := rfl
  obtain ⟨h₁, h₂⟩ := replace_plain p.current (hI.limits _ ht)
  simp only [flush, he]
  split
  · exact ⟨rfl, hp, ht⟩
  · refine ⟨?_, Buffer.pooled_blank _ (hI.limits _ ht),
      hI.enqueue _ _ (.inl hp) (hI.borrow _ ht)⟩
    simp only [plain, h₁, h₂]

theorem follow_plain (hI : Outlet.Supplies L I) {p : Packer} {t : Traced ω}
    (hp : p.current.Pooled L) (ht : I t.outlet) (o : Order) :
    p.plain.follow (t.plain L) o =
        ((p.follow t o).1, (p.follow t o).2.1.plain, (p.follow t o).2.2.plain L) ∧
      (p.follow t o).2.1.current.Pooled L ∧ I (p.follow t o).2.2.outlet := by
  cases o with
  | process m kept =>
    cases kept with
    | false => exact ⟨rfl, hp, hI.record _ _ ht⟩
    | true =>
      cases hr : m.rejection? with
      | some r =>
        simp only [follow, accept_of_rejection hr]
        exact ⟨rfl, hp, hI.record _ _ ht⟩
      | none =>
        obtain ⟨h₁, h₂, h₃⟩ :=
          pack_plain hI m.value.points p.current t hp ht hr (List.suffix_refl _)
        simp only [follow, accept_of_writable hr]
        refine ⟨?_, h₂, hI.record _ _ h₃⟩
        have hc : p.plain.current = p.current.plain := rfl
        rw [hc, h₁]
        rfl
  | flush =>
    obtain ⟨h₁, h₂, h₃⟩ := flush_plain hI hp ht
    simp only [follow, h₁]
    exact ⟨rfl, h₂, h₃⟩

theorem followAll_plain (hI : Outlet.Supplies L I) {p : Packer} {t : Traced ω}
    (hp : p.current.Pooled L) (ht : I t.outlet) (os : List Order) :
    p.plain.followAll (t.plain L) os =
      ((p.followAll t os).1, (p.followAll t os).2.1.plain, (p.followAll t os).2.2.plain L) := by
  induction os generalizing p t with
  | nil => rfl
  | cons o os ih =>
    obtain ⟨h₁, h₂, h₃⟩ := follow_plain hI hp ht o
    simp only [followAll, h₁, ih h₂ h₃]

def career (w : ω) (vs : List (Visit σ)) : List Answer × Packer × Traced ω :=
  (create ({ outlet := w } : Traced ω)).1.visits (create ({ outlet := w } : Traced ω)).2 vs

/-- A packer's career at an outlet that gives blanks with limits `L` is the one at the endless
outlet. -/
theorem career_plain (hI : Outlet.Supplies L I) {w : ω} (hw : I w) (vs : List (Visit σ)) :
    let blank : Packer := { current := (Blank.mk L false).buffer }
    blank.followAll ({ outlet := ⟨L⟩ } : Traced Endless) (vs.map Visit.order) =
      ((career w vs).1, (career w vs).2.1.plain, (career w vs).2.2.plain L) := by
  intro blank
  have hl : (Outlet.borrow w).1.limits = L := hI.limits w hw
  have hc : (create ({ outlet := w } : Traced ω)).1.plain = blank :=
    congrArg (Packer.mk {}) ((Buffer.plain_blank _).trans (by rw [hl]))
  have hp : (create ({ outlet := w } : Traced ω)).1.current.Pooled L := Buffer.pooled_blank _ hl
  have hf := followAll_plain (t := (create ({ outlet := w } : Traced ω)).2) hI hp
    (hI.borrow w hw) (vs.map Visit.order)
  rw [hc] at hf
  rw [career, visits_eq_followAll]
  exact hf

end Calls
end Packer

/-- The plant around a packer. Between any two of its accesses, and while it waits for room, the
other packers and whoever takes payloads do as scheduled. -/
structure Surroundings (σ : Type) where
  plant : Plant σ
  policy : FullPolicy
  schedule : Nat → List Plant.Event
  /-- Whether, at a moment, somebody waits for a payload if nothing is in line. -/
  awaited : Nat → Bool
  clock : Nat := 0

namespace Surroundings

variable {σ : Type} [WordSource σ]

def tick (s : Surroundings σ) : Surroundings σ :=
  { s with plant := s.plant.after s.policy (s.schedule s.clock), clock := s.clock + 1 }

def awaitRoom (s : Surroundings σ) : List Plant.Event → Surroundings σ
  | [] => s
  | e :: es =>
    if s.plant.outbox.queue.isOpen && s.plant.outbox.queue.isFull then
      { s with plant := s.plant.happen s.policy e }.awaitRoom es
    else s

/-- The moment at which a payload is offered: at once, or after a wait for room. -/
def offering (s : Surroundings σ) (b : Buffer) : Surroundings σ :=
  if s.policy.waits && !b.isEmpty then
    { s with clock := s.clock + 1 }.awaitRoom (s.schedule s.clock)
  else s

def offer (s : Surroundings σ) (b : Buffer) : Surroundings σ :=
  let put (P : Plant σ) : Plant σ := { P with outbox := P.outbox.enqueue b }
  if s.awaited s.clock && s.plant.outbox.queue.isAwaitable then
    { s with plant := s.plant.attended put }
  else { s with plant := put s.plant }

instance : Outlet (Surroundings σ) where
  borrow s := (s.tick.plant.outbox.borrow.1,
    { s.tick with plant := { s.tick.plant with outbox := s.tick.plant.outbox.borrow.2 } })
  enqueue b s := (s.tick.offering b).offer b
  record e s := { s with plant := { s.plant with outbox := s.plant.outbox.record e } }
  remark n s := { s with plant := { s.plant with outbox := s.plant.outbox.remark n } }

variable {L : Limits} {s : Surroundings σ}

theorem tick_sound (h : s.plant.Sound L) : s.tick.plant.Sound L := h.after _ _

theorem awaitRoom_sound (h : s.plant.Sound L) (es : List Plant.Event) :
    (s.awaitRoom es).plant.Sound L := by
  induction es generalizing s with
  | nil => exact h
  | cons e es ih =>
    rw [awaitRoom]
    split
    · exact ih (h.after s.policy [e])
    · exact h

theorem offering_sound (h : s.plant.Sound L) (b : Buffer) : (s.offering b).plant.Sound L := by
  rw [offering]
  split
  · exact awaitRoom_sound (s := { s with clock := s.clock + 1 }) h _
  · exact h

theorem offer_sound {b : Buffer} (h : s.plant.Sound L) (hb : b.IsPayload L) :
    (s.offer b).plant.Sound L := by
  have hput (P : Plant σ) (hP : P.Sound L) :
      Plant.Sound L { P with outbox := P.outbox.enqueue b } :=
    ⟨hP.stations, hP.outbox.enqueue hb, hP.held, hP.handed⟩
  rw [offer]
  split
  · exact ((hput _ (h.withBound _)).act .take).withBound _
  · exact hput _ h

theorem supplies : Outlet.Supplies L fun s : Surroundings σ => s.plant.Sound L := by
  refine ⟨?_, ?_, ?_, ?_, ?_⟩
  · intro s h
    exact (tick_sound h).outbox.borrow.1
  · intro s h
    have ht := tick_sound h
    exact ⟨ht.stations, ht.outbox.borrow.2, ht.held, ht.handed⟩
  · intro b s hb h
    exact offer_sound (offering_sound (tick_sound h) b) hb
  · intro e s h
    exact ⟨h.stations, h.outbox.record e, h.held, h.handed⟩
  · intro n s h
    exact ⟨h.stations, h.outbox.remark n, h.held, h.handed⟩

end Surroundings

/-- What a packer may find around it at first, and what happens there in time. -/
structure Circumstances (σ : Type) where
  initial : Nat
  maximum : Nat
  bound : Nat
  policy : FullPolicy
  /-- Where the other packers get their random words. -/
  words : σ
  schedule : Nat → List Plant.Event
  awaited : Nat → Bool

namespace Circumstances

variable {σ σ' : Type} [WordSource σ] [WordSource σ']

def begin (c : Circumstances σ) (L : Limits) : Surroundings σ where
  plant := .start (Pool.create c.initial c.maximum L) c.bound c.words
  policy := c.policy
  schedule := c.schedule
  awaited := c.awaited

/-- In any two circumstances, the same calls on a packer with the same decisions come to the same
answers, and hand over the same payloads, be it kept or retired in the end. -/
theorem career_independent (c : Circumstances σ) (c' : Circumstances σ') (L : Limits)
    {vs : List (Packer.Visit σ)} {vs' : List (Packer.Visit σ')}
    (h : vs.map Packer.Visit.order = vs'.map Packer.Visit.order) :
    let r := Packer.career (c.begin L) vs
    let r' := Packer.career (c'.begin L) vs'
    r.1 = r'.1 ∧ r.2.2.payloads = r'.2.2.payloads ∧
      (r.2.1.retire r.2.2).payloads = (r'.2.1.retire r'.2.2).payloads := by
  intro r r'
  have hr := Packer.career_plain Surroundings.supplies
    (w := c.begin L) (Plant.sound_start c.initial c.maximum c.bound c.words) vs
  have hr' := Packer.career_plain Surroundings.supplies
    (w := c'.begin L) (Plant.sound_start c'.initial c'.maximum c'.bound c'.words) vs'
  rw [h] at hr
  have hrr : (r.1, r.2.1.plain, r.2.2.plain L) = (r'.1, r'.2.1.plain, r'.2.2.plain L) :=
    hr.symm.trans hr'
  simp only [Prod.mk.injEq] at hrr
  obtain ⟨hanswers, hpacker, htraced⟩ := hrr
  have hhanded : r.2.2.payloads = r'.2.2.payloads := by
    rw [← Traced.payloads_plain L, htraced, Traced.payloads_plain]
  have hlast : r.2.1.current.bytes = r'.2.1.current.bytes := by
    change r.2.1.plain.current.bytes = r'.2.1.plain.current.bytes
    rw [hpacker]
  refine ⟨hanswers, hhanded, ?_⟩
  rw [Packer.payloads_retire, Packer.payloads_retire, hhanded, hlast]

/-- Nobody else, a pool without a buffer to keep, and a queue that is soon full. -/
def lone : Circumstances Cycle where
  initial := 0
  maximum := 1
  bound := 1
  policy := .drop
  words := { words := [] }
  schedule _ := []
  awaited _ := false

/-- Another packer fills buffers of the same pool, its payloads are taken and given back, and in the
end the queue is closed. -/
def crowded : Circumstances Cycle where
  initial := 2
  maximum := 2
  bound := 0
  policy := .block 1
  words := { words := [7] }
  schedule n :=
    if n = 0 then
      [.attempt .create, .attempt (.process 0 { name := "hits", value := .count 1 }),
        .attempt (.proceed 0), .attempt (.flush 0), .attend (.proceed 0), .attempt (.release 0)]
    else if n = 5 then [.attempt (.retire 0), .attempt .close]
    else []
  awaited n := n % 2 = 1

/-- A metric kept at every other draw, and one that a buffer of two lines cannot hold. -/
def threeVisits (s s' : Cycle) : List (Packer.Visit Cycle) :=
  [⟨.process { name := "rare", value := .count 1, rate := ⟨0x3fe0000000000000⟩ }, s⟩,
    ⟨.process { name := "rare", value := .count 2, rate := ⟨0x3fe0000000000000⟩ }, s'⟩,
    ⟨.process { name := "load", value := .histogramBatch [.one, .one, .one] "" }, s⟩, ⟨.flush, s⟩]

theorem career_crowded :
    let vs := threeVisits { words := [0] } { words := [0xffffffffffffffff] }
    let vs' := threeVisits { words := [1, 2], drawn := 4 } { words := [0xfffffffffffff000] }
    let r := Packer.career (lone.begin ⟨16, 2⟩) vs
    let r' := Packer.career (crowded.begin ⟨16, 2⟩) vs'
    vs.map Packer.Visit.order = vs'.map Packer.Visit.order ∧
      r.1 = r'.1 ∧ r.2.2.payloads = r'.2.2.payloads ∧
        (r.2.1.retire r.2.2).payloads = (r'.2.1.retire r'.2.2).payloads := by
  have h : (threeVisits { words := [0] } { words := [0xffffffffffffffff] }).map
      Packer.Visit.order =
      (threeVisits { words := [1, 2], drawn := 4 } { words := [0xfffffffffffff000] }).map
        Packer.Visit.order := by decide +kernel
  exact ⟨h, career_independent lone crowded ⟨16, 2⟩ h⟩

end Circumstances
end MetricPipeline
