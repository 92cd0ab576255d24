import MetricPipeline.Proofs.Newlines
import MetricPipeline.Proofs.Plant
import MetricPipeline.Proofs.Pooling

namespace MetricPipeline

/-- A line of a metric that can be written, with some of its points, one after another. -/
def IsLine (points : List Bytes) (line : Bytes) : Prop :=
  ∃ m : Metric, m.rejection? = none ∧ points ≠ [] ∧ points <:+: m.value.points ∧
    line = m.frame.line points

theorem IsLine.eq_append_newline {points : List Bytes} {line : Bytes} (h : IsLine points line) :
    ∃ body, line = body ++ [newline] ∧ newline ∉ body := by
  obtain ⟨m, -, -, hp, rfl⟩ := h
  exact m.line_eq hp.subset

namespace Buffer

structure Holds (b : Buffer) (lines : List Bytes) : Prop where
  bytes_eq : b.bytes = lines.flatten
  lines_eq : b.lines = lines.length
  isLine : ∀ line ∈ lines, ∃ points, IsLine points line

theorem Holds.count_newline {b : Buffer} {lines : List Bytes} (h : b.Holds lines) :
    b.bytes.count newline = b.lines := by
  rw [h.bytes_eq, h.lines_eq, List.count_flatten]
  have hl : lines.map (List.count newline) = lines.map fun _ => 1 := by
    apply List.map_congr_left
    intro line hm
    obtain ⟨points, hp⟩ := h.isLine line hm
    obtain ⟨body, rfl, hb⟩ := hp.eq_append_newline
    simp [List.count_eq_zero_of_not_mem hb]
  simp [hl]

theorem Holds.eq_nil {b : Buffer} {lines : List Bytes} (h : b.Holds lines)
    (he : b.isEmpty = true) : lines = [] := by
  have hb : lines.flatten = [] := by rw [← h.bytes_eq]; simpa [isEmpty] using he
  cases lines with
  | nil => rfl
  | cons line rest =>
    obtain ⟨points, hp⟩ := h.isLine line (by simp)
    obtain ⟨body, rfl, -⟩ := hp.eq_append_newline
    simp at hb

theorem Holds.getLast?_eq {b : Buffer} {lines : List Bytes} (h : b.Holds lines)
    (he : b.isEmpty = false) : b.bytes.getLast? = some newline := by
  cases hl : lines.getLast? with
  | none =>
    rw [List.getLast?_eq_none_iff] at hl
    simp [isEmpty, h.bytes_eq, hl] at he
  | some line =>
    obtain ⟨front, rfl⟩ := List.getLast?_eq_some_iff.mp hl
    obtain ⟨points, hp⟩ := h.isLine line (by simp)
    obtain ⟨body, rfl, -⟩ := hp.eq_append_newline
    rw [h.bytes_eq, List.flatten_append]
    simp [← List.append_assoc]

/-- A buffer as the pool makes them, within its limits. -/
structure Pooled (L : Limits) (b : Buffer) : Prop where
  limits_eq : b.limits = L
  length_le : b.length ≤ L.length
  lines_le : b.lines ≤ L.lines
  holds : ∃ lines, b.Holds lines

/-- One line with one point, which a pooled buffer cannot take. -/
def Oversized (L : Limits) (b : Buffer) : Prop :=
  ∃ p line, IsLine [p] line ∧ b = alone line ∧ (L.length < line.length ∨ L.lines = 0)

def IsPayload (L : Limits) (b : Buffer) : Prop := b.Pooled L ∨ b.Oversized L

variable {L : Limits} {b : Buffer}

theorem Oversized.holds (h : b.Oversized L) : ∃ lines, b.Holds lines := by
  obtain ⟨p, line, hl, rfl, -⟩ := h
  exact ⟨[line], by simp [alone], rfl, by simpa using ⟨_, hl⟩⟩

theorem IsPayload.holds (h : b.IsPayload L) : ∃ lines, b.Holds lines :=
  h.elim Pooled.holds Oversized.holds

theorem IsPayload.within (h : b.IsPayload L) :
    b.length ≤ b.limits.length ∧ b.lines ≤ b.limits.lines := by
  rcases h with h | ⟨p, line, -, rfl, -⟩
  · rw [h.limits_eq]
    exact ⟨h.length_le, h.lines_le⟩
  · exact ⟨Nat.le_refl _, Nat.le_refl _⟩

theorem pooled_blank (k : Blank) (h : k.limits = L) : k.buffer.Pooled L :=
  ⟨h, by simp [length], by simp, [], by simp, by simp, by simp⟩

theorem Pooled.write {m : Metric} {points : List Bytes} (h : b.Pooled L)
    (hm : m.rejection? = none) (hp : points <:+ m.value.points)
    (hr : 0 < b.room m.frame points) :
    (b.append (m.frame.line (points.take (b.room m.frame points)))).Pooled L := by
  -- The guard of the write leaves room for the line, in bytes and in lines.
  obtain ⟨hl, hf⟩ := room_pos hr
  have hne : points.take (b.room m.frame points) ≠ [] := by
    apply List.ne_nil_of_length_pos
    have hle := b.room_le m.frame points
    rw [List.length_take]
    omega
  have hi : points.take (b.room m.frame points) <:+: m.value.points :=
    (List.take_prefix _ _).isInfix.trans hp.isInfix
  obtain ⟨lines, hb⟩ := h.holds
  simp only [hasLineRoom, fits, remaining, h.limits_eq, decide_eq_true_eq] at hl hf
  have hlen := h.length_le
  refine ⟨h.limits_eq, ?_, hl, lines ++ [m.frame.line (points.take (b.room m.frame points))],
    ?_, ?_, ?_⟩
  · simp only [length, append, List.length_append] at *
    omega
  · simp [append, hb.bytes_eq]
  · simp [append, hb.lines_eq]
  · intro line hline
    rcases List.mem_append.mp hline with hline | hline
    · exact hb.isLine line hline
    · exact ⟨_, m, hm, hne, hi, List.mem_singleton.mp hline⟩

theorem Pooled.oversized {m : Metric} {p : Bytes} {points : List Bytes} (h : b.Pooled L)
    (hm : m.rejection? = none) (hp : p :: points <:+ m.value.points)
    (hr : b.room m.frame (p :: points) = 0) (he : b.isEmpty = true) :
    (alone (m.frame.line [p])).Oversized L := by
  have hi : [p] <:+: m.value.points := by
    apply List.IsInfix.trans _ hp.isInfix
    exact ⟨[], points, rfl⟩
  refine ⟨p, _, ⟨m, hm, by simp, hi, rfl⟩, rfl, ?_⟩
  obtain ⟨lines, hb⟩ := h.holds
  have hl := hb.lines_eq
  have hb0 : b.length = 0 := by simpa [length, isEmpty] using he
  rw [hb.eq_nil he] at hl
  -- The buffer holds nothing, so its room is all the room there ever is.
  rcases no_room hr with hn | hn
  · right
    simpa [hasLineRoom, hl, h.limits_eq] using hn
  · left
    simpa [remaining, hb0, h.limits_eq] using hn

end Buffer

/-- While `I` holds, an outlet gives blanks with limits `L`, and `I` is kept. -/
structure Outlet.Supplies {ω : Type} [Outlet ω] (L : Limits) (I : ω → Prop) : Prop where
  limits : ∀ w, I w → (Outlet.borrow w).1.limits = L
  borrow : ∀ w, I w → I (Outlet.borrow w).2
  enqueue : ∀ b w, b.IsPayload L → I w → I (Outlet.enqueue b w)
  record : ∀ e w, I w → I (Outlet.record e w)
  remark : ∀ n w, I w → I (Outlet.remark n w)

theorem Outlet.Supplies.round {ω : Type} [Outlet ω] {L : Limits} {I : ω → Prop} {m : Metric}
    {points : List Bytes} {b : Buffer} {w : ω} (h : Supplies L I) (hb : b.Pooled L) (hw : I w)
    (hm : m.rejection? = none) (hp : points <:+ m.value.points) (hne : points ≠ []) :
    let r := Packer.round m.name m.frame points b w
    r.1 <:+ m.value.points ∧ r.2.1.Pooled L ∧ I r.2.2 := by
  intro r
  have hblank : (Outlet.borrow w).1.buffer.Pooled L := Buffer.pooled_blank _ (h.limits w hw)
  have ht : Packer.Turn m.name m.frame b w points r := Packer.round_turn m.name m.frame b w hne
  clear_value r
  cases ht with
  | finish _ hr =>
    have hwrite := hb.write hm hp (by rw [hr]; exact List.length_pos_iff.mpr hne)
    rw [hr, List.take_length] at hwrite
    exact ⟨List.nil_suffix, hwrite, hw⟩
  | cut hr _ =>
    exact ⟨(List.drop_suffix _ _).trans hp, hblank,
      h.enqueue _ _ (.inl (hb.write hm hp hr)) (h.borrow _ hw)⟩
  | @alone p points hr he =>
    exact ⟨(List.suffix_cons p points).trans hp, hb,
      h.enqueue _ _ (.inr (hb.oversized hm hp hr he)) (h.record _ _ (h.remark _ _ hw))⟩
  | turnOver _ _ _ => exact ⟨hp, hblank, h.enqueue _ _ (.inl hb) (h.borrow _ hw)⟩

theorem Outlet.Supplies.traced {ω : Type} [Outlet ω] {L : Limits} {I : ω → Prop}
    (h : Supplies L I) : Supplies L fun t : Traced ω => I t.outlet :=
  ⟨fun t => h.limits t.outlet, fun t => h.borrow t.outlet, fun b t => h.enqueue b t.outlet,
    fun e t => h.record e t.outlet, fun n t => h.remark n t.outlet⟩

variable {L : Limits}

structure Outbox.Sound (L : Limits) (o : Outbox) : Prop where
  pool_limits : o.pool.limits = L
  free : ∀ k ∈ o.pool.free, k.limits = L
  waiting : ∀ b ∈ o.queue.waiting, b.IsPayload L

namespace Outbox.Sound

variable {o : Outbox}

theorem borrow (h : o.Sound L) : o.borrow.1.limits = L ∧ o.borrow.2.Sound L := by
  have hb := o.pool.borrowed_borrow
  rw [Outbox.borrow]
  generalize o.pool.borrow = r at hb ⊢
  cases hb with
  | reused hf =>
    have hfree := h.free
    rw [hf, List.forall_mem_cons] at hfree
    exact ⟨hfree.1, h.pool_limits, hfree.2, h.waiting⟩
  | grown _ _ => exact ⟨h.pool_limits, h.pool_limits, h.free, h.waiting⟩
  | transient _ _ => exact ⟨h.pool_limits, h.pool_limits, h.free, h.waiting⟩

/-- What a payload leaves in the pool is fit for the next one: an oversized buffer is not kept. -/
theorem release {b : Buffer} (h : o.Sound L) (hb : b.IsPayload L) : (o.release b).Sound L := by
  refine ⟨Pool.limits_release.trans h.pool_limits, ?_, h.waiting⟩
  by_cases ha : o.pool.Accepts b
  · have hl : b.limits = L := by
      rcases hb with hb | ⟨p, line, -, rfl, -⟩
      · exact hb.limits_eq
      · exact absurd ha (Pool.not_accepts_of_untracked rfl)
    rw [Outbox.release, Pool.release_of_accepts ha]
    intro k hk
    rcases List.mem_append.mp hk with hk | hk
    · exact h.free k hk
    · rw [List.mem_singleton.mp hk]
      exact hl
  · rw [Outbox.release, Pool.release_of_not_accepts ha]
    exact h.free

theorem record (h : o.Sound L) (e : Telemetry.Event) : (o.record e).Sound L :=
  ⟨h.pool_limits, h.free, h.waiting⟩

theorem remark (h : o.Sound L) (n : Notice) : (o.remark n).Sound L :=
  ⟨h.pool_limits, h.free, h.waiting⟩

theorem enqueue {b : Buffer} (h : o.Sound L) (hb : b.IsPayload L) : (o.enqueue b).Sound L := by
  unfold Outbox.enqueue
  split
  · exact h.release hb
  · split
    · rename_i queue hq
      refine ⟨h.pool_limits, h.free, ?_⟩
      intro b' hm
      rw [Queue.waiting_of_offer hq] at hm
      rcases List.mem_append.mp hm with hm | hm
      · exact h.waiting b' hm
      · rwa [List.mem_singleton.mp hm]
    · exact ((h.remark _).record _).release hb

theorem take {b : Buffer} {o' : Outbox} (h : o.Sound L) (ht : o.take = some (b, o')) :
    b.IsPayload L ∧ o'.Sound L := by
  simp only [Outbox.take, Queue.take] at ht
  cases hw : o.queue.waiting with
  | nil => simp [hw] at ht
  | cons b₀ rest =>
    have hwait := h.waiting
    rw [hw] at hwait
    simp only [hw, Option.map_some, Option.some.injEq, Prod.mk.injEq] at ht
    obtain ⟨rfl, rfl⟩ := ht
    exact ⟨hwait b₀ (by simp), h.pool_limits, h.free,
      fun b hb => hwait b (List.mem_cons_of_mem _ hb)⟩

theorem close (h : o.Sound L) : o.close.Sound L :=
  ⟨h.pool_limits, h.free, by simp [Outbox.close, Queue.close]⟩

end Outbox.Sound

structure Station.Sound (L : Limits) (t : Station) : Prop where
  current : t.packer.current.Pooled L
  tray : ∀ b ∈ t.tray, b.IsPayload L
  job : ∀ m points, t.job = some (m, points) →
    t.packer.frame = m.frame ∧ m.rejection? = none ∧ points <:+ m.value.points

namespace Station.Sound

variable {σ : Type} [WordSource σ] {t : Station} {o : Outbox}

theorem begin (h : t.Sound L) (ho : o.Sound L) (m : Metric) (s : σ) :
    (t.begin m s o).1.Sound L ∧ (t.begin m s o).2.2.Sound L := by
  by_cases hk : (decideSample m.rate s).1 = true
  · cases hr : m.rejection? with
    | some r =>
      rw [begin_of_rejection hk hr]
      exact ⟨h, ho.record _⟩
    | none =>
      rw [begin_of_writable hk hr]
      refine ⟨⟨h.current, h.tray, ?_⟩, ho⟩
      intro m' points hj
      simp only [Option.some.injEq, Prod.mk.injEq] at hj
      obtain ⟨rfl, rfl⟩ := hj
      exact ⟨rfl, hr, List.suffix_refl _⟩
  · rw [begin_of_dropped (by simpa using hk)]
    exact ⟨h, ho.record _⟩

theorem desk_supplies :
    Outlet.Supplies L fun d : Desk => d.outbox.Sound L ∧ ∀ b ∈ d.tray, b.IsPayload L := by
  refine ⟨fun d hd => hd.1.borrow.1, fun d hd => ⟨hd.1.borrow.2, hd.2⟩, ?_,
    fun e d hd => ⟨hd.1.record e, hd.2⟩, fun n d hd => ⟨hd.1.remark n, hd.2⟩⟩
  intro b d hb hd
  refine ⟨hd.1, fun b' hb' => ?_⟩
  rcases List.mem_append.mp hb' with hb' | hb'
  · exact hd.2 b' hb'
  · rwa [List.mem_singleton.mp hb']

theorem proceed (h : t.Sound L) (ho : o.Sound L) :
    (t.proceed o).1.Sound L ∧ (t.proceed o).2.1.Sound L ∧
      ∀ b ∈ (t.proceed o).2.2, b.IsPayload L := by
  obtain ⟨⟨f, b⟩, tray, job⟩ := t
  match tray, job with
  | b' :: tray, job =>
    have hb' : b'.IsPayload L := h.tray b' (by simp)
    exact ⟨⟨h.current, fun c hc => h.tray c (List.mem_cons_of_mem _ hc), h.job⟩, ho.enqueue hb',
      by simpa [Station.proceed] using hb'⟩
  | [], none => exact ⟨h, ho, by simp [Station.proceed]⟩
  | [], some (m, []) =>
    exact ⟨⟨h.current, h.tray, by simp [Station.proceed]⟩, ho.record _, by simp [Station.proceed]⟩
  | [], some (m, p :: ps) =>
    obtain ⟨hf, hm, hp⟩ := h.job m (p :: ps) rfl
    simp only at hf
    subst hf
    obtain ⟨hrest, hcurrent, hout, htray⟩ :=
      desk_supplies.round (w := ({ outbox := o } : Desk)) h.current ⟨ho, by simp⟩ hm hp (by simp)
    refine ⟨⟨hcurrent, htray, ?_⟩, hout, by simp [Station.proceed]⟩
    intro m' points hj
    simp only [Station.proceed, Option.some.injEq, Prod.mk.injEq] at hj
    obtain ⟨rfl, rfl⟩ := hj
    exact ⟨rfl, hm, hrest⟩

theorem flush (h : t.Sound L) (ho : o.Sound L) (hi : t.isIdle = true) :
    (t.flush o).1.Sound L ∧ (t.flush o).2.Sound L := by
  simp only [Station.flush, Packer.flush]
  split
  · exact ⟨⟨h.current, by simp, h.job⟩, ho⟩
  · have hjob : t.job = none := (isIdle_iff.mp hi).2
    refine ⟨⟨Buffer.pooled_blank _ ho.borrow.1, ?_, by simp [hjob]⟩, ho.borrow.2⟩
    intro b hb
    rw [List.mem_singleton.mp hb]
    exact .inl h.current

end Station.Sound

namespace Plant

variable {σ : Type} [WordSource σ]

structure Sound (L : Limits) (P : Plant σ) : Prop where
  stations : ∀ t, some t ∈ P.stations → t.Sound L
  outbox : P.outbox.Sound L
  held : ∀ b ∈ P.held, b.IsPayload L
  handed : ∀ h ∈ P.handed, h.2.IsPayload L

omit [WordSource σ] in
theorem Sound.put {P : Plant σ} {t : Option Station} {o : Outbox} {bs : List Buffer}
    (h : P.Sound L) (i : Nat) (ht : ∀ t', t = some t' → t'.Sound L) (ho : o.Sound L)
    (hbs : ∀ b ∈ bs, b.IsPayload L) : (P.put i t o bs).Sound L := by
  refine ⟨?_, ho, h.held, ?_⟩
  · intro t' hm
    rcases List.mem_or_eq_of_mem_set hm with hm | hm
    · exact h.stations t' hm
    · exact ht t' hm.symm
  · intro x hx
    rcases List.mem_append.mp hx with hx | hx
    · exact h.handed x hx
    · obtain ⟨b, hb, rfl⟩ := List.mem_map.mp hx
      exact hbs b hb

theorem Sound.act {P : Plant σ} (h : P.Sound L) (a : Act) : (P.act a).Sound L := by
  have station {i : Nat} {t : Station} (hi : P.stations[i]? = some (some t)) : t.Sound L :=
    h.stations t (List.mem_of_getElem? hi)
  have hl := P.act_leads a
  generalize P.act a = P' at hl ⊢
  cases hl with
  | nowhere _ => exact h
  | create =>
    refine ⟨?_, h.outbox.borrow.2, h.held, h.handed⟩
    intro t hm
    rcases List.mem_append.mp hm with hm | hm
    · exact h.stations t hm
    · obtain rfl : t = _ := by simpa using hm
      exact ⟨Buffer.pooled_blank _ h.outbox.borrow.1, by simp, by simp⟩
  | @process i t m hi _ =>
    obtain ⟨ht, ho⟩ := (station hi).begin h.outbox m P.words
    have hp : (P.put i (some (t.begin m P.words P.outbox).1)
        (t.begin m P.words P.outbox).2.2 []).Sound L :=
      h.put i (by rintro t' ⟨⟩; exact ht) ho (by simp)
    exact ⟨hp.stations, hp.outbox, hp.held, hp.handed⟩
  | @flush i t hi hidle =>
    obtain ⟨ht, ho⟩ := (station hi).flush h.outbox hidle
    exact h.put i (by rintro t' ⟨⟩; exact ht) ho (by simp)
  | @retire i t hi _ =>
    have hc : t.packer.current.IsPayload L := .inl (station hi).current
    exact h.put i (by simp) (h.outbox.enqueue hc) (by simpa using hc)
  | @proceed i t hi =>
    obtain ⟨ht, ho, hbs⟩ := (station hi).proceed h.outbox
    exact h.put i (by rintro t' ⟨⟩; exact ht) ho hbs
  | @take b rest hw =>
    obtain ⟨hb, ho⟩ := h.outbox.take (b := b) (by rw [Outbox.take, Queue.take, hw]; rfl)
    refine ⟨h.stations, ho, ?_, h.handed⟩
    intro b' hb'
    rcases List.mem_append.mp hb' with hb' | hb'
    · exact h.held b' hb'
    · rwa [List.mem_singleton.mp hb']
  | release hk =>
    exact ⟨h.stations, h.outbox.release (h.held _ (List.mem_of_getElem? hk)),
      fun b' hb' => h.held b' (List.mem_of_mem_eraseIdx hb'), h.handed⟩
  | close => exact ⟨h.stations, h.outbox.close, h.held, h.handed⟩

theorem Sound.run {P : Plant σ} (h : P.Sound L) (acts : List Act) : (P.run acts).Sound L := by
  induction acts generalizing P with
  | nil => exact h
  | cons a acts ih => exact ih (h.act a)

omit [WordSource σ] in
theorem sound_start (initial maximum bound : Nat) (s : σ) :
    (start (Pool.create initial maximum L) bound s).Sound L := by
  rw [Pool.create_eq]
  refine ⟨by simp [start], ⟨rfl, ?_, by simp [start]⟩, by simp [start], by simp [start]⟩
  intro k hk
  obtain ⟨n, -, rfl⟩ := List.mem_map.mp hk
  rfl

/-- Every buffer that is somewhere in the plant. -/
def live (P : Plant σ) : List Buffer :=
  P.stations.reduceOption.flatMap (fun t => t.packer.current :: t.tray) ++
    P.outbox.queue.waiting ++ P.held ++
    P.outbox.pool.free.map Blank.buffer

omit [WordSource σ] in
theorem Sound.live {P : Plant σ} (h : P.Sound L) : ∀ b ∈ P.live, b.IsPayload L := by
  intro b hb
  simp only [Plant.live, List.mem_append, List.mem_flatMap, List.mem_map] at hb
  rcases hb with ((⟨t, ht, hb⟩ | hb) | hb) | ⟨k, hk, rfl⟩
  · have hs := h.stations t (List.reduceOption_mem_iff.mp ht)
    rcases List.mem_cons.mp hb with rfl | hb
    · exact .inl hs.current
    · exact hs.tray b hb
  · exact h.outbox.waiting b hb
  · exact h.held b hb
  · exact .inl (Buffer.pooled_blank _ (h.outbox.free k hk))

/-- In any run of packers over one pool, a payload that is not empty is whole lines within the
pool's limits, or one line with one point that is beyond them; each line ends with the only newline
it has. No buffer ever exceeds its own limits, so a write is made only where there is room. -/
theorem payloads_framed (initial maximum bound : Nat) (L : Limits) (s : σ) (acts : List Act) :
    let P := (start (Pool.create initial maximum L) bound s).run acts
    (∀ h ∈ P.handed, h.2.isEmpty = false →
      h.2.bytes.getLast? = some newline ∧ h.2.bytes.count newline = h.2.lines ∧
        (∃ lines, h.2.Holds lines) ∧
        ((h.2.limits = L ∧ h.2.length ≤ L.length ∧ 1 ≤ h.2.lines ∧ h.2.lines ≤ L.lines) ∨
          h.2.Oversized L)) ∧
    ∀ b ∈ P.live,
      b.length ≤ b.limits.length ∧ b.remaining + b.length = b.limits.length ∧
        b.lines ≤ b.limits.lines ∧
        ∀ f points, b.write f points = (.full, b) ∨
          ∃ line, (b.write f points).2 = b.append line ∧
            b.hasLineRoom = true ∧ b.fits line.length = true := by
  intro P
  have hP : P.Sound L := (sound_start initial maximum bound s).run acts
  refine ⟨?_, ?_⟩
  · intro h hh he
    have hpay := hP.handed h hh
    obtain ⟨lines, hl⟩ := hpay.holds
    refine ⟨hl.getLast?_eq he, hl.count_newline, ⟨lines, hl⟩, ?_⟩
    rcases hpay with hp | hp
    · left
      refine ⟨hp.limits_eq, hp.length_le, ?_, hp.lines_le⟩
      rw [hl.lines_eq]
      apply List.length_pos_iff.mpr
      intro hn
      simp [Buffer.isEmpty, hl.bytes_eq, hn] at he
    · exact .inr hp
  · intro b hb
    obtain ⟨hlen, hlines⟩ := (hP.live b hb).within
    refine ⟨hlen, Nat.sub_add_cancel hlen, hlines, ?_⟩
    intro f points
    by_cases hr : b.room f points = 0
    · exact .inl (Buffer.write_of_room_zero hr)
    · obtain ⟨hl, hf⟩ := Buffer.room_pos (Nat.pos_of_ne_zero hr)
      exact .inr ⟨_, by rw [Buffer.write_of_room_pos (Nat.pos_of_ne_zero hr)], hl, hf⟩

end Plant
end MetricPipeline
