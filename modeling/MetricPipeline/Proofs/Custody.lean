import MetricPipeline.Proofs.Waiting

namespace MetricPipeline

/-- How a pool stands with the buffers that are out of it, some of them oversized ones that it did
not make. -/
structure Pool.Custody (maximum : Nat) (p : Pool) (out : List Buffer) (oversized : Nat) :
    Prop where
  tracked : p.tracked = p.available + out.countP (·.tracked)
  untracked : p.stats.transient + oversized.toUInt64 =
    p.stats.discarded + (out.countP (!·.tracked)).toUInt64
  maximum_eq : p.maximum = maximum
  bounded : p.tracked ≤ maximum
  allocated : p.stats.allocated = p.tracked.toUInt64
  /-- Whatever is free goes back when it has been used. -/
  free : ∀ k ∈ p.free, k.tracked = true

namespace Pool.Custody

variable {maximum : Nat} {p : Pool} {b b' : Buffer} {out out' : List Buffer} {n : Nat}

theorem perm (h : p.Custody maximum out n) (hp : out.Perm out') : p.Custody maximum out' n := by
  refine ⟨?_, ?_, h.maximum_eq, h.bounded, h.allocated, h.free⟩
  · rw [h.tracked, hp.countP_eq]
  · rw [h.untracked, hp.countP_eq]

theorem borrow (h : p.Custody maximum out n) :
    p.borrow.2.Custody maximum (p.borrow.1.buffer :: out) n := by
  obtain ⟨ht, hu, hm, hle, ha, hf⟩ := h
  simp only [available] at ht
  have hb := p.borrowed_borrow
  generalize p.borrow = r at hb ⊢
  cases hb with
  | @reused k rest hfree =>
    rw [hfree] at ht hf
    rw [List.forall_mem_cons] at hf
    have hk : k.buffer.tracked = true := hf.1
    refine ⟨?_, ?_, hm, hle, ha, hf.2⟩
    · simp only [available, List.countP_cons, hk, List.length_cons, if_true] at ht ⊢
      omega
    · simpa [hk] using hu
  | grown hfree hlt =>
    rw [hfree] at ht
    refine ⟨?_, ?_, hm, hm ▸ hlt, ?_, hf⟩
    · simp only [available, hfree, List.countP_cons, Blank.mk, List.length_nil, if_true] at ht ⊢
      omega
    · simpa [Blank.mk] using hu
    · rw [toUInt64_add, ha]
      rfl
  | transient hfree _ =>
    refine ⟨?_, ?_, hm, hle, ha, hf⟩
    · simpa [available, Blank.mk] using ht
    · simp only [List.countP_cons, Blank.mk, Bool.not_false, if_true, toUInt64_add]
      grind

/-- A tracked buffer finds room in the pool: it is one of those the pool made. -/
theorem release (h : p.Custody maximum (b :: out) n)
    (hb : b.tracked = true → b.limits.length = p.limits.length) :
    (p.release b).Custody maximum out n := by
  obtain ⟨ht, hu, hm, hle, ha, hf⟩ := h
  rw [List.countP_cons] at ht hu
  cases hbt : b.tracked with
  | true =>
    rw [hbt] at ht hu
    rw [if_pos rfl] at ht
    have hroom : p.available < p.maximum := by omega
    rw [release_of_accepts ⟨hbt, hb hbt, hroom⟩]
    refine ⟨?_, hu, hm, hle, ha, ?_⟩
    · simp only [available, List.length_append, List.length_singleton] at ht ⊢
      omega
    · intro k hk
      rcases List.mem_append.mp hk with hk | hk
      · exact hf k hk
      · rw [List.mem_singleton.mp hk]
        exact hbt
  | false =>
    rw [hbt] at ht hu
    rw [release_of_not_accepts (not_accepts_of_untracked hbt)]
    refine ⟨ht, ?_, hm, hle, ha, hf⟩
    simp only [Bool.not_false, if_true, toUInt64_add] at hu
    simp only [discard]
    grind

theorem alone (h : p.Custody maximum out n) (line : Bytes) :
    p.Custody maximum (Buffer.alone line :: out) (n + 1) := by
  refine ⟨?_, ?_, h.maximum_eq, h.bounded, h.allocated, h.free⟩
  · simpa [Buffer.alone] using h.tracked
  · have hu := h.untracked
    simp only [Buffer.alone, List.countP_cons, Bool.not_false, if_true, toUInt64_add]
    grind

theorem rewritten (h : p.Custody maximum (b :: out) n) (ht : b'.tracked = b.tracked) :
    p.Custody maximum (b' :: out) n := by
  refine ⟨?_, ?_, h.maximum_eq, h.bounded, h.allocated, h.free⟩
  · rw [h.tracked, List.countP_cons, List.countP_cons, ht]
  · rw [h.untracked, List.countP_cons, List.countP_cons, ht]

end Pool.Custody

variable {maximum : Nat} {L : Limits}

/-- How many of the buffers are not of the pool's kind. -/
def oversized (L : Limits) (bs : List Buffer) : Nat := bs.countP fun b => b.limits ≠ L

@[simp] theorem oversized_append (bs bs' : List Buffer) :
    oversized L (bs ++ bs') = oversized L bs + oversized L bs' :=
  List.countP_append

namespace Buffer

variable {b : Buffer}

theorem Oversized.limits_ne (h : b.Oversized L) : b.limits ≠ L := by
  obtain ⟨p, line, -, rfl, hl⟩ := h
  rintro rfl
  rcases hl with hl | hl
  · exact Nat.lt_irrefl _ hl
  · simp [alone] at hl

theorem IsPayload.limits_ne_iff (h : b.IsPayload L) : b.limits ≠ L ↔ b.Oversized L := by
  refine ⟨?_, Oversized.limits_ne⟩
  intro hn
  exact h.resolve_left fun hp => hn hp.limits_eq

theorem IsPayload.limits_of_tracked (h : b.IsPayload L) (ht : b.tracked = true) :
    b.limits = L := by
  rcases h with h | ⟨p, line, -, rfl, -⟩
  · exact h.limits_eq
  · simp [alone] at ht

end Buffer

theorem Outbox.custody_enqueue {o : Outbox} {b : Buffer} {out : List Buffer} {n : Nat}
    (h : o.pool.Custody maximum (b :: out ++ o.queue.waiting) n) (ho : o.Sound L)
    (hb : b.IsPayload L) :
    (o.enqueue b).pool.Custody maximum (out ++ (o.enqueue b).queue.waiting) n := by
  have hl (ht : b.tracked = true) : b.limits.length = o.pool.limits.length := by
    rw [hb.limits_of_tracked ht, ho.pool_limits]
  unfold Outbox.enqueue
  split
  · exact h.release hl
  · split
    · rename_i queue hq
      refine h.perm ?_
      rw [Queue.waiting_of_offer hq, ← List.append_assoc]
      show ([b] ++ _).Perm (_ ++ [b])
      exact List.perm_append_comm
    · exact h.release hl

namespace Station

def buffers (t : Station) : List Buffer := t.packer.current :: t.tray

theorem countP_buffers (q : Buffer → Bool) (ts : List Station) :
    (ts.flatMap buffers).countP q =
      ts.countP (fun t => q t.packer.current) + (ts.flatMap tray).countP q := by
  induction ts with
  | nil => rfl
  | cons t ts ih =>
    simp only [List.flatMap_cons, List.countP_append, buffers, List.countP_cons, ih]
    omega

theorem custody_round {m : Metric} {points : List Bytes} {b : Buffer} {o : Outbox}
    {out : List Buffer} {n : Nat} (h : o.pool.Custody maximum (b :: out ++ o.queue.waiting) n)
    (hb : b.Pooled L) (hm : m.rejection? = none) (hp : points <:+ m.value.points)
    (hne : points ≠ []) :
    let r := Packer.round m.name m.frame points b ({ outbox := o } : Desk)
    r.2.2.outbox.pool.Custody maximum (r.2.1 :: r.2.2.tray ++ out ++ r.2.2.outbox.queue.waiting)
      (n + oversized L r.2.2.tray) := by
  intro r
  have ht : Packer.Turn m.name m.frame b ({ outbox := o } : Desk) points r :=
    Packer.round_turn m.name m.frame b _ hne
  -- A buffer of the pool's kind that is laid on the tray changes nothing but its place.
  have hswap {b' : Buffer} (hl : b'.limits = L) (htr : b'.tracked = b.tracked) :
      o.borrow.2.pool.Custody maximum
        (o.borrow.1.buffer :: [b'] ++ out ++ o.borrow.2.queue.waiting)
        (n + oversized L [b']) := by
    have hz : oversized L [b'] = 0 := by simp [oversized, hl]
    rw [hz]
    exact (h.rewritten htr).borrow
  clear_value r
  cases ht with
  | finish _ hr => exact h.rewritten rfl
  | cut hr _ => exact hswap hb.limits_eq rfl
  | @alone p points hr he =>
    have hl := (hb.oversized hm hp hr he).limits_ne
    have hone : oversized L [Buffer.alone (m.frame.line [p])] = 1 := by simp [oversized, hl]
    have ha := h.alone (m.frame.line [p])
    exact (hone ▸ ha).perm (.swap _ _ _)
  | turnOver _ _ _ => exact hswap hb.limits_eq rfl

theorem custody_proceed {t : Station} {o : Outbox} {out : List Buffer} {n : Nat}
    (h : o.pool.Custody maximum (t.buffers ++ out ++ o.queue.waiting) (n + oversized L t.tray))
    (ht : t.Sound L) (ho : o.Sound L) :
    let r := t.proceed o
    r.2.1.pool.Custody maximum (r.1.buffers ++ out ++ r.2.1.queue.waiting)
      (n + oversized L (r.2.2 ++ r.1.tray)) := by
  obtain ⟨⟨f, b⟩, tray, job⟩ := t
  match tray, job with
  | b' :: tray, job =>
    exact Outbox.custody_enqueue (h.perm (.swap _ _ _)) ho (ht.tray b' (by simp))
  | [], none => exact h
  | [], some (m, []) => exact h
  | [], some (m, p :: ps) =>
    obtain ⟨hf, hm, hp⟩ := ht.job m (p :: ps) rfl
    simp only at hf
    subst hf
    exact custody_round h ht.current hm hp (by simp)

theorem custody_flush {t : Station} {o : Outbox} {out : List Buffer} {n : Nat}
    (h : o.pool.Custody maximum (t.buffers ++ out ++ o.queue.waiting) (n + oversized L t.tray))
    (ht : t.Sound L) (hi : t.isIdle = true) :
    let r := t.flush o
    r.2.pool.Custody maximum (r.1.buffers ++ out ++ r.2.queue.waiting)
      (n + oversized L r.1.tray) := by
  obtain ⟨⟨f, b⟩, tray, job⟩ := t
  obtain rfl : tray = [] := (isIdle_iff.mp hi).1
  simp only [Station.flush, Packer.flush]
  split
  · exact h
  · have hl : b.limits = L := ht.current.limits_eq
    have hz : oversized L [b] = 0 := by simp [oversized, hl]
    have hb := h.borrow
    change o.borrow.2.pool.Custody maximum
      (o.borrow.1.buffer :: [b] ++ out ++ o.borrow.2.queue.waiting) (n + oversized L [b])
    rw [hz]
    exact hb

theorem begin_kept {σ : Type} [WordSource σ] (t : Station) (m : Metric) (s : σ) (o : Outbox) :
    (t.begin m s o).1.buffers = t.buffers ∧ (t.begin m s o).1.tray = t.tray ∧
      (t.begin m s o).2.2.pool = o.pool ∧ (t.begin m s o).2.2.queue = o.queue := by
  by_cases hk : (decideSample m.rate s).1 = true
  · cases hr : m.rejection? with
    | some r =>
      rw [begin_of_rejection hk hr]
      exact ⟨rfl, rfl, rfl, rfl⟩
    | none =>
      rw [begin_of_writable hk hr]
      exact ⟨rfl, rfl, rfl, rfl⟩
  · rw [begin_of_dropped (by simpa using hk)]
    exact ⟨rfl, rfl, rfl, rfl⟩

end Station

namespace Plant

variable {σ : Type} [WordSource σ]

def lostAt (P : Plant σ) : Event → List Buffer
  | .attempt .close | .insist .close => P.outbox.queue.waiting
  | _ => []

omit [WordSource σ] in
theorem lostAt_of_unable (P : Plant σ) {a : Act} (h : P.Unable a) : P.lostAt (.insist a) = [] := by
  cases a with
  | close => exact h.elim
  | _ => rfl

def lost (policy : FullPolicy) (P : Plant σ) : List Event → List Buffer
  | [] => []
  | e :: es => P.lostAt e ++ (P.happen policy e).lost policy es

def crew (P : Plant σ) : List Station := P.stations.reduceOption

def Custody (maximum : Nat) (L : Limits) (lost : List Buffer) (P : Plant σ) : Prop :=
  P.outbox.pool.Custody maximum
    (P.crew.flatMap Station.buffers ++ (P.held ++ lost) ++ P.outbox.queue.waiting)
    (oversized L (P.handed.map Prod.snd) + oversized L (P.crew.flatMap Station.tray))

section Put

omit [WordSource σ]

theorem reduceOption_perm {α : Type} {l : List (Option α)} {i : Nat} {x : Option α}
    (h : l[i]? = some x) : l.reduceOption.Perm (x.toList ++ (l.eraseIdx i).reduceOption) := by
  obtain ⟨hi, rfl⟩ := List.getElem?_eq_some_iff.mp h
  have hp := (List.getElem_cons_eraseIdx_perm hi).symm.filterMap id
  rw [List.filterMap_cons] at hp
  cases hx : l[i] <;> simpa [List.reduceOption, hx] using hp

variable {P : Plant σ} {lost : List Buffer} {t : Station} {i : Nat}

theorem crew_put (hi : P.stations[i]? = some (some t)) (y : Option Station) (o : Outbox)
    (bs : List Buffer) :
    ∃ others : List Station, P.crew.Perm (t :: others) ∧
      (P.put i y o bs).crew.Perm (y.toList ++ others) := by
  have hlt : i < P.stations.length := (List.getElem?_eq_some_iff.mp hi).1
  have hy : (P.stations.set i y)[i]? = some y := by simp [hlt]
  have hp := reduceOption_perm hy
  rw [List.eraseIdx_set_eq] at hp
  exact ⟨(P.stations.eraseIdx i).reduceOption, reduceOption_perm hi, hp⟩

theorem Custody.put (h : P.Custody maximum L lost) (hi : P.stations[i]? = some (some t))
    (y : Option Station) (o : Outbox) (bs : List Buffer)
    (hstep : ∀ out n,
      P.outbox.pool.Custody maximum (t.buffers ++ out ++ P.outbox.queue.waiting)
          (n + oversized L t.tray) →
        o.pool.Custody maximum (y.toList.flatMap Station.buffers ++ out ++ o.queue.waiting)
          (n + oversized L (bs ++ y.toList.flatMap Station.tray))) :
    (P.put i y o bs).Custody maximum L lost := by
  obtain ⟨others, hbefore, hafter⟩ := crew_put hi y o bs
  have hnb : oversized L (P.crew.flatMap Station.tray) =
      oversized L t.tray + oversized L (others.flatMap Station.tray) :=
    ((hbefore.flatMap_right Station.tray).countP_eq _).trans (oversized_append _ _)
  have hna : oversized L ((P.put i y o bs).crew.flatMap Station.tray) =
      oversized L (y.toList.flatMap Station.tray) + oversized L (others.flatMap Station.tray) := by
    rw [← oversized_append, ← List.flatMap_append]
    exact (hafter.flatMap_right Station.tray).countP_eq _
  -- The other stations and all that is elsewhere stand aside.
  have hb := h.perm ((hbefore.flatMap_right Station.buffers).append_right _
    |>.append_right _)
  rw [hnb, List.flatMap_cons, List.append_assoc t.buffers] at hb
  have ho := hstep (others.flatMap Station.buffers ++ (P.held ++ lost))
    (oversized L (P.handed.map Prod.snd) + oversized L (others.flatMap Station.tray))
    (by rwa [add_right_comm, add_assoc])
  have hout : (y.toList.flatMap Station.buffers ++
      (others.flatMap Station.buffers ++ (P.held ++ lost)) ++ o.queue.waiting).Perm
        ((P.put i y o bs).crew.flatMap Station.buffers ++ (P.held ++ lost) ++ o.queue.waiting) := by
    rw [← List.append_assoc (y.toList.flatMap Station.buffers), ← List.flatMap_append]
    exact ((hafter.symm.flatMap_right Station.buffers).append_right _).append_right _
  have hp := ho.perm hout
  have hm : (P.put i y o bs).handed.map Prod.snd = P.handed.map Prod.snd ++ bs := by
    simp [Plant.put, Function.comp_def]
  have hn : oversized L ((P.put i y o bs).handed.map Prod.snd) +
      oversized L ((P.put i y o bs).crew.flatMap Station.tray) =
        oversized L (P.handed.map Prod.snd) + oversized L (others.flatMap Station.tray) +
          oversized L (bs ++ y.toList.flatMap Station.tray) := by
    simp only [hm, hna, oversized_append]
    omega
  rw [Custody, hn]
  exact hp

end Put

variable {P : Plant σ} {lost : List Buffer}

theorem Custody.act (h : P.Custody maximum L lost) (hs : P.Sound L) (a : Act) :
    (P.act a).Custody maximum L (lost ++ P.lostAt (.insist a)) := by
  have station {i : Nat} {t : Station} (hi : P.stations[i]? = some (some t)) : t.Sound L :=
    hs.stations t (List.mem_of_getElem? hi)
  have hl := P.act_leads a
  generalize P.act a = P' at hl ⊢
  cases hl with
  | nowhere hn => rwa [P.lostAt_of_unable hn, List.append_nil]
  | create =>
    let t : Station := { packer := (Packer.create P.outbox).1 }
    let P' : Plant σ := { P with stations := P.stations ++ [some t], outbox := P.outbox.borrow.2 }
    have hcrew : P'.crew = P.crew ++ [t] := List.reduceOption_append P.stations [some t]
    have hb : P.outbox.pool.borrow.2.Custody maximum
        (t.packer.current :: (P.crew.flatMap Station.buffers ++ (P.held ++ lost) ++
          P.outbox.queue.waiting)) _ := Pool.Custody.borrow h
    have htray : t.tray = [] := rfl
    show P'.Custody maximum L (lost ++ [])
    simp only [List.append_nil, Custody, hcrew, List.flatMap_append, List.flatMap_singleton, htray]
    refine hb.perm ?_
    simp only [Station.buffers, htray, List.append_assoc, List.cons_append, List.nil_append]
    exact List.perm_middle.symm
  | @process i t m hi _ =>
    obtain ⟨hbuf, htray, hpool, hqueue⟩ := t.begin_kept m P.words P.outbox
    have hp : (P.put i (some (t.begin m P.words P.outbox).1)
        (t.begin m P.words P.outbox).2.2 []).Custody maximum L lost :=
      h.put hi _ _ _ fun out n hc => by simpa [hbuf, htray, hpool, hqueue] using hc
    simp only [lostAt, List.append_nil]
    exact hp
  | @flush i t hi hidle =>
    simp only [lostAt, List.append_nil]
    exact h.put hi (some (t.flush P.outbox).1) (t.flush P.outbox).2 [] fun out n hc => by
      simpa using Station.custody_flush hc (station hi) hidle
  | @retire i t hi hidle =>
    simp only [lostAt, List.append_nil]
    have hpay : t.packer.current.IsPayload L := .inl (station hi).current
    have htray : t.tray = [] := (Station.isIdle_iff.mp hidle).1
    have hz : oversized L [t.packer.current] = oversized L t.tray := by
      simp [htray, oversized, (station hi).current.limits_eq]
    refine h.put hi none (P.outbox.enqueue t.packer.current) _ fun out n hc => ?_
    rw [Station.buffers, htray] at hc
    have he := Outbox.custody_enqueue hc hs.outbox hpay
    simpa [hz, htray] using he
  | @proceed i t hi =>
    simp only [lostAt, List.append_nil]
    exact h.put hi (some (t.proceed P.outbox).1) (t.proceed P.outbox).2.1 (t.proceed P.outbox).2.2
      fun out n hc => by simpa using Station.custody_proceed hc (station hi) hs.outbox
  | @take b rest hw =>
    simp only [lostAt, List.append_nil]
    refine Pool.Custody.perm h ?_
    rw [hw]
    simp only [List.append_assoc, List.singleton_append]
    have hm (bs : List Buffer) : (lost ++ b :: bs).Perm (b :: (lost ++ bs)) := List.perm_middle
    exact ((hm _).append_left _).append_left _
  | @release k b hk =>
    simp only [lostAt, List.append_nil]
    obtain ⟨hlt, rfl⟩ := List.getElem?_eq_some_iff.mp hk
    have hb := (hs.held _ (List.getElem_mem hlt)).limits_of_tracked
    refine (Pool.Custody.perm h ?_).release fun ht => by rw [hb ht, hs.outbox.pool_limits]
    have hp := (List.getElem_cons_eraseIdx_perm hlt).symm
    refine (((hp.append_right lost).append_left _).append_right _).trans ?_
    simp only [List.append_assoc, List.cons_append]
    exact List.perm_middle
  | close =>
    refine Pool.Custody.perm h ?_
    simp only [lostAt, Outbox.close, Queue.close, List.append_assoc, List.append_nil]
    rfl

theorem Custody.happen (h : P.Custody maximum L lost) (hs : P.Sound L) (policy : FullPolicy)
    (e : Event) :
    (P.happen policy e).Custody maximum L (lost ++ P.lostAt e) := by
  cases e with
  | attempt a =>
    have hl : P.lostAt (.attempt a) = P.lostAt (.insist a) := by cases a <;> rfl
    rw [hl, Plant.happen]
    split
    · rename_i hoff
      -- What is put off hands over a payload, so it is not the end of the queue.
      have hn : P.lostAt (.insist a) = [] := by
        cases a with
        | close => simp [lacksRoom, offered?] at hoff
        | _ => rfl
      rwa [hn, List.append_nil]
    · exact h.act hs a
  | insist a => exact h.act hs a
  | attend a =>
    have hl : P.lostAt (.attend a) = [] := rfl
    rw [hl, List.append_nil, Plant.happen]
    split
    · rename_i hq
      let P₁ := P.withBound (max 1 P.outbox.queue.bound)
      have hn : P₁.lostAt (.insist a) = [] := by
        cases a with
        | close => simp_all [Queue.isAwaitable, P₁, lostAt, Plant.withBound]
        | _ => rfl
      have hs₁ : P₁.Sound L := hs.withBound _
      have h₁ := Custody.act (P := P₁) h hs₁ a
      rw [hn, List.append_nil] at h₁
      have h₂ := h₁.act (hs₁.act a) .take
      have ht : (P₁.act a).lostAt (.insist .take) = [] := rfl
      rwa [ht, List.append_nil] at h₂
    · exact h

theorem Custody.after (h : P.Custody maximum L lost) (hs : P.Sound L) (policy : FullPolicy)
    (es : List Event) : (P.after policy es).Custody maximum L (lost ++ P.lost policy es) := by
  induction es generalizing P lost with
  | nil => rwa [Plant.lost, List.append_nil]
  | cons e es ih =>
    have he := ih (h.happen hs policy e) (hs.after policy [e])
    rwa [List.append_assoc] at he

omit [WordSource σ] in
theorem custody_start (initial maximum bound : Nat) (s : σ) :
    (start (Pool.create initial maximum L) bound s).Custody maximum L [] := by
  rw [Pool.create_eq]
  refine ⟨?_, rfl, rfl, Nat.min_le_right initial maximum, rfl, ?_⟩
  · simp [start, Pool.available, crew]
  · intro k hk
    obtain ⟨n, -, rfl⟩ := List.mem_map.mp hk
    rfl

/-- The buffers that a pool tracks are free, with packers, about to be handed over, in line, taken,
or lost with the queue, each in one place. When packers are gone and nothing is in line, taken or
lost, all of them are free again, and what was discarded are the buffers that were not tracked. The
counts show all this modulo 2^64. -/
theorem buffers_accounted (initial maximum bound : Nat) (L : Limits) (policy : FullPolicy) (s : σ)
    (es : List Event) :
    let P₀ := start (Pool.create initial maximum L) bound s
    let P := P₀.after policy es
    let lost := P₀.lost policy es
    P.outbox.pool.tracked =
        P.outbox.pool.available + P.crew.countP (·.packer.current.tracked) +
          (P.crew.flatMap Station.tray).countP (·.tracked) +
          P.outbox.queue.waiting.countP (·.tracked) + P.held.countP (·.tracked) +
          lost.countP (·.tracked) ∧
      P.outbox.pool.stats.allocated = P.outbox.pool.tracked.toUInt64 ∧
      P.outbox.pool.maximum = maximum ∧ P.outbox.pool.tracked ≤ maximum ∧
      (maximum < UInt64.size → P.outbox.pool.allocated = P.outbox.pool.tracked) ∧
      ((∀ t ∈ P.crew, t.isIdle = true) → P.crew.flatMap Station.tray = []) ∧
      (P.crew = [] → P.outbox.queue.waiting = [] → P.held = [] → lost = [] →
        P.outbox.pool.available = P.outbox.pool.tracked ∧
          P.outbox.pool.stats.discarded =
            P.outbox.pool.stats.transient + (oversized L (P.handed.map Prod.snd)).toUInt64) ∧
      ∀ h ∈ P.handed, h.2.limits ≠ L ↔ h.2.Oversized L := by
  intro P₀ P lost
  have hs₀ : P₀.Sound L := sound_start initial maximum bound s
  have hs : P.Sound L := hs₀.after policy es
  have hc : P.Custody maximum L lost := (custody_start initial maximum bound s).after hs₀ policy es
  refine ⟨?_, hc.allocated, hc.maximum_eq, hc.bounded, ?_, ?_, ?_,
    fun h hh => (hs.handed h hh).limits_ne_iff⟩
  · have ht := hc.tracked
    simp only [List.countP_append, Station.countP_buffers] at ht
    omega
  · intro hsize
    have hlt : P.outbox.pool.tracked < UInt64.size := hc.bounded.trans_lt hsize
    rw [Pool.allocated, hc.allocated]
    exact UInt64.toNat_ofNat_of_lt' hlt
  · intro hidle
    rw [List.flatMap_eq_nil_iff]
    intro t ht
    have hi := hidle t ht
    simp_all [Station.isIdle]
  · intro hcrew hwait hheld hlost
    have ht := hc.tracked
    have hu := hc.untracked
    simp only [hcrew, hwait, hheld, hlost, List.flatMap_nil, List.append_nil, List.countP_nil,
      oversized, Nat.add_zero] at ht hu
    exact ⟨ht.symm, (hu.trans (UInt64.add_zero _)).symm⟩

/-- Two packers share one tracked buffer. One waits until somebody is there for its payload, the
other has its long line dropped. -/
def scarceEvents : List Event :=
  [.attempt .create, .attempt .create,
    .attempt (.process 0 { name := "hits", value := .count 1 }), .attempt (.proceed 0),
    .attempt (.proceed 0), .attempt (.flush 0), .attempt (.proceed 0), .attend (.proceed 0),
    .attempt (.process 1 { name := "beyond-all-limits", value := .count 1 }),
    .attempt (.proceed 1), .insist (.proceed 1), .attempt (.proceed 1), .attempt (.retire 0),
    .attempt (.retire 1), .attempt (.release 0)]

theorem buffers_scarceEvents :
    let P₀ := start (Pool.create 1 1 ⟨16, 2⟩) 0 ({ words := [] } : Cycle)
    let P := P₀.after (.block 5) scarceEvents
    P.crew.isEmpty = true ∧ P.outbox.queue.waiting = [] ∧ P.held = [] ∧
      P₀.lost (.block 5) scarceEvents = [] ∧
        oversized ⟨16, 2⟩ (P.handed.map Prod.snd) = 1 ∧ P.outbox.pool.allocated = 1 ∧
        P.outbox.pool.available = P.outbox.pool.tracked ∧
          P.outbox.pool.stats.discarded =
            P.outbox.pool.stats.transient +
              (oversized ⟨16, 2⟩ (P.handed.map Prod.snd)).toUInt64 := by
  refine ⟨by decide +kernel, by decide +kernel, by decide +kernel, by decide +kernel,
    by decide +kernel, by decide +kernel, ?_⟩
  apply (buffers_accounted 1 1 0 ⟨16, 2⟩ (.block 5) ({ words := [] } : Cycle)
    scarceEvents).2.2.2.2.2.2.1
  · exact List.isEmpty_iff.mp (by decide +kernel)
  · decide +kernel
  · decide +kernel
  · decide +kernel

end Plant
end MetricPipeline
