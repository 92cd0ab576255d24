import MetricPipeline.Proofs.Parcels
import MetricPipeline.Proofs.Independence

namespace MetricPipeline

/-- The bytes and the lines of a buffer are those of a parcel. -/
structure Buffer.Carries (b : Buffer) (g : Parcel) : Prop where
  bytes_eq : b.bytes = g.page
  lines_eq : b.lines = g.lines.length

namespace Buffer.Carries

variable {L : Limits} {b : Buffer} {g : Parcel} {source : Source} {points : List Bytes}

theorem blank (k : Blank) : k.buffer.Carries [] := ⟨k.bytes_nil, k.lines_zero⟩

theorem write (h : b.Carries g) (hg : ∀ s ∈ g, s.source ≠ source) (hp : points ≠ []) :
    (b.append (source.frame.line points)).Carries (g ++ Spot.ofPoints source points) := by
  refine ⟨?_, ?_⟩
  · rw [Parcel.page_append_points hg hp, ← h.bytes_eq]
    rfl
  · rw [Parcel.lines_append_points hg hp, List.length_append, ← h.lines_eq]
    rfl

theorem fits (h : b.Carries g) (hb : b.Pooled L) : g.Fits L :=
  ⟨h.bytes_eq ▸ hb.length_le, h.lines_eq ▸ hb.lines_le⟩

theorem admissible (h : b.Carries g) (hb : b.Pooled L) : g.Admissible L := .inr (h.fits hb)

theorem isEmpty_iff (h : b.Carries g) : b.isEmpty = true ↔ g = [] := by
  rw [← Parcel.page_eq_nil_iff, ← h.bytes_eq, isEmpty, List.isEmpty_iff]

theorem not_fits (h : b.Carries g) (hb : b.Pooled L) (hg : ∀ s ∈ g, s.source ≠ source)
    (hr : b.room source.frame points < points.length) :
    ¬ Parcel.Fits L
      (g ++ Spot.ofPoints source (points.take (b.room source.frame points + 1))) := by
  have hne : points.take (b.room source.frame points + 1) ≠ [] := by
    apply List.ne_nil_of_length_pos
    rw [List.length_take]
    omega
  rintro ⟨hlength, hlines⟩
  rw [Parcel.page_append_points hg hne, List.length_append, ← h.bytes_eq, Frame.length_line]
    at hlength
  rw [Parcel.lines_append_points hg hne, List.length_append, ← h.lines_eq, List.length_singleton]
    at hlines
  have hl : b.hasLineRoom = true := by
    rw [hasLineRoom, hb.limits_eq]
    exact decide_eq_true hlines
  have hgreatest : b.room source.frame points = _ := room_eq_findGreatest hl
  have hlong := Nat.findGreatest_is_greatest (Nat.lt_add_one_of_le hgreatest.ge) hr
  rw [remaining, hb.limits_eq, length] at hlong
  omega

theorem ends (h : b.Carries g) (hb : b.Pooled L) (hg : ∀ s ∈ g, s.source ≠ source)
    (hr : b.room source.frame points < points.length) (later : List Spot) :
    Parcel.Ends L (g ++ Spot.ofPoints source (points.take (b.room source.frame points)))
      (Spot.ofPoints source (points.drop (b.room source.frame points)) ++ later) := by
  have hnot := h.not_fits hb hg hr
  rw [List.drop_eq_getElem_cons hr]
  rw [List.take_succ_eq_append_getElem hr, Spot.ofPoints_append, ← List.append_assoc] at hnot
  intro s hs
  obtain rfl : ⟨source, points[b.room source.frame points]⟩ = s := Option.some.inj hs
  exact hnot

end Buffer.Carries

/-- How far a stream of points has been packed: the parcels that were handed over, the parcel in the
buffer, and the points to come. -/
structure Packed (L : Limits) (stream : List Spot) (handed : List Buffer) (b : Buffer)
    (closed : List Parcel) (opened : Parcel) (future : List Spot) : Prop where
  flatten_eq : closed.flatten ++ opened ++ future = stream
  handed_eq : handed.map Buffer.bytes = closed.map Parcel.page
  carries : b.Carries opened
  ne_nil : ∀ g ∈ closed, g ≠ []
  admissible : ∀ g ∈ closed, g.Admissible L
  ends : (closed ++ [opened ++ future]).IsChain (Parcel.Ends L)

namespace Packed

variable {L : Limits} {stream : List Spot} {handed : List Buffer} {b : Buffer}
  {closed : List Parcel} {opened : Parcel} {future : List Spot} {source : Source}
  {points : List Bytes}

theorem begin (hb : b.Pooled L) (he : b.isEmpty = true) (stream : List Spot) :
    Packed L stream [] b [] [] stream := by
  obtain ⟨lines, hlines⟩ := hb.holds
  obtain rfl := hlines.eq_nil he
  exact ⟨rfl, rfl, ⟨hlines.bytes_eq, hlines.lines_eq⟩, by simp, by simp,
    List.isChain_singleton _⟩

theorem write (h : Packed L stream handed b closed opened (Spot.ofPoints source points ++ future))
    (hs : ∀ s ∈ opened, s.source ≠ source) (hp : points ≠ []) :
    Packed L stream handed (b.append (source.frame.line points)) closed
      (opened ++ Spot.ofPoints source points) future where
  flatten_eq := by simpa using h.flatten_eq
  handed_eq := h.handed_eq
  carries := h.carries.write hs hp
  ne_nil := h.ne_nil
  admissible := h.admissible
  ends := by simpa using h.ends

theorem isChain_close {g rest rest' : Parcel} (h : (closed ++ [rest]).IsChain (Parcel.Ends L))
    (hhead : g.head? = rest.head?) (hend : g.Ends L rest') :
    (closed ++ [g] ++ [rest']).IsChain (Parcel.Ends L) := by
  obtain ⟨hclosed, -, hlast⟩ := List.isChain_append.mp h
  refine List.isChain_append.mpr ⟨?_, List.isChain_singleton _, by simpa using hend⟩
  refine List.isChain_append.mpr ⟨hclosed, List.isChain_singleton _, ?_⟩
  intro k hk g' hg'
  obtain rfl : g = g' := by simpa using hg'
  rw [Parcel.Ends, hhead]
  exact hlast k hk rest (by simp)

theorem handOver (h : Packed L stream handed b closed opened future) (hb : b.Pooled L)
    (hne : opened ≠ []) (hend : opened.Ends L future) (k : Blank) :
    Packed L stream (handed ++ [b]) k.buffer (closed ++ [opened]) [] future where
  flatten_eq := by simpa using h.flatten_eq
  handed_eq := by simp [h.handed_eq, h.carries.bytes_eq]
  carries := .blank k
  ne_nil := List.forall_mem_append.mpr ⟨h.ne_nil, by simpa using hne⟩
  admissible :=
    List.forall_mem_append.mpr ⟨h.admissible, by simpa using h.carries.admissible hb⟩
  ends := isChain_close h.ends (by cases opened <;> simp_all) hend

theorem sendAlone {s : Spot} (h : Packed L stream handed b closed [] (s :: future))
    (hs : ¬ Parcel.Fits L [s]) :
    Packed L stream (handed ++ [Buffer.alone (s.source.frame.line [s.text])]) b
      (closed ++ [[s]]) [] future where
  flatten_eq := by simpa using h.flatten_eq
  handed_eq := by simp [h.handed_eq, Buffer.alone, Parcel.page_singleton, Parcel.line]
  carries := h.carries
  ne_nil := List.forall_mem_append.mpr ⟨h.ne_nil, by simp⟩
  admissible := List.forall_mem_append.mpr ⟨h.admissible, by simp [Parcel.Admissible]⟩
  ends := by
    refine isChain_close (g := [s]) h.ends rfl ?_
    intro t _ hfits
    exact hs (hfits.of_infix (List.prefix_append _ _).isInfix)

theorem packing (h : Packed L stream handed b closed opened []) (hb : b.Pooled L) :
    ∃ parcels, IsPacking L stream parcels ∧
      parcels.map Parcel.page =
        handed.map Buffer.bytes ++ (if b.isEmpty then [] else [b.bytes]) ∧
      parcels.IsChain (Parcel.Ends L) := by
  have hflat := h.flatten_eq
  have hends := h.ends
  rw [List.append_nil] at hflat hends
  by_cases ho : opened = []
  · subst ho
    rw [List.append_nil] at hflat
    refine ⟨closed, ⟨hflat, h.ne_nil, h.admissible⟩, ?_, hends.left_of_append⟩
    rw [if_pos (h.carries.isEmpty_iff.mpr rfl), h.handed_eq, List.append_nil]
  · have hempty : ¬ b.isEmpty = true := mt h.carries.isEmpty_iff.mp ho
    refine ⟨closed ++ [opened], ⟨by simpa using hflat, ?_, ?_⟩, ?_, hends⟩
    · exact List.forall_mem_append.mpr ⟨h.ne_nil, by simpa using ho⟩
    · exact List.forall_mem_append.mpr ⟨h.admissible, by simpa using h.carries.admissible hb⟩
    · simp [hempty, h.handed_eq, h.carries.bytes_eq]

end Packed

namespace Packer

variable {ω : Type} [Outlet ω] {L : Limits} {stream : List Spot}

/-- A round packs on, for points of a metric that is not in the buffer yet. If it leaves points, it
leaves them a buffer with nothing in it. -/
theorem Turn.packed {name : String} {b : Buffer} {t : Traced ω} {points : List Bytes}
    {r : List Bytes × Buffer × Traced ω} {source : Source} {closed : List Parcel} {opened : Parcel}
    {later : List Spot} (ht : Turn name source.frame b t points r)
    (h : Packed L stream t.handed b closed opened (Spot.ofPoints source points ++ later))
    (hb : b.Pooled L)
    (hwrite : 0 < b.room source.frame points →
      (b.append (source.frame.line (points.take (b.room source.frame points)))).Pooled L)
    (hs : ∀ s ∈ opened, s.source ≠ source) :
    ∃ closed' opened',
      Packed L stream r.2.2.handed r.2.1 closed' opened' (Spot.ofPoints source r.1 ++ later) ∧
        (r.1 ≠ [] → opened' = []) ∧ ∀ s ∈ opened', s ∈ opened ∨ s.source = source := by
  cases ht with
  | finish hp hr =>
    refine ⟨closed, _, h.write hs hp, fun hn => absurd rfl hn, fun s hm => ?_⟩
    exact (List.mem_append.mp hm).imp_right Spot.source_of_mem
  | cut hr hl =>
    have hne : points.take (b.room source.frame points) ≠ [] := by
      apply List.ne_nil_of_length_pos
      rw [List.length_take]
      omega
    have hend := h.carries.ends hb hs hl later
    rw [← List.take_append_drop (b.room source.frame points) points, Spot.ofPoints_append,
      List.append_assoc] at h
    have hrun : Spot.ofPoints source (points.take (b.room source.frame points)) ≠ [] :=
      mt List.map_eq_nil_iff.mp hne
    have hw := h.write hs hne
    exact ⟨_, [], hw.handOver (hwrite hr) (List.append_ne_nil_of_right_ne_nil _ hrun) hend _,
      fun _ => rfl, by simp⟩
  | @alone p points hr he =>
    obtain rfl : opened = [] := h.carries.isEmpty_iff.mp he
    have hlt : b.room source.frame (p :: points) < (p :: points).length := by simp [hr]
    have hnot : ¬ Parcel.Fits L [⟨source, p⟩] := by
      simpa [hr, Spot.ofPoints] using h.carries.not_fits hb hs hlt
    exact ⟨_, [], h.sendAlone hnot, fun _ => rfl, by simp⟩
  | turnOver hp hr he =>
    have hne : opened ≠ [] := by
      intro ho
      rw [h.carries.isEmpty_iff.mpr ho] at he
      cases he
    have hend := h.carries.ends hb hs (hr ▸ List.length_pos_iff.mpr hp) later
    have hnone : opened ++ Spot.ofPoints source (points.take 0) = opened := List.append_nil _
    rw [hr, List.drop_zero, hnone] at hend
    exact ⟨_, [], h.handOver hb hne hend _, fun _ => rfl, by simp⟩

variable {I : ω → Prop}

theorem pack_packed (hI : Outlet.Supplies L I) {m : Metric} {i : Nat} (points : List Bytes)
    (b : Buffer) (t : Traced ω) {closed : List Parcel} {opened : Parcel} {later : List Spot}
    (h : Packed L stream t.handed b closed opened (Spot.ofPoints ⟨i, m.frame⟩ points ++ later))
    (hb : b.Pooled L) (ht : I t.outlet) (hm : m.rejection? = none)
    (hp : points <:+ m.value.points)
    (hs : points ≠ [] → ∀ s ∈ opened, s.source ≠ ⟨i, m.frame⟩) :
    ∃ closed' opened',
      Packed L stream (pack m.name m.frame points b t).2.handed
          (pack m.name m.frame points b t).1 closed' opened' later ∧
        ∀ s ∈ opened', s ∈ opened ∨ s.source = ⟨i, m.frame⟩ := by
  fun_induction pack m.name m.frame points b t generalizing closed opened with
  | case1 b t => exact ⟨closed, opened, h, fun s hs => .inl hs⟩
  | case2 points b t hne rest next t' hr ih =>
    obtain ⟨hrest, hnext, ht'⟩ := hI.traced.round hb ht hm hp hne
    have hturn : Turn m.name (Source.frame ⟨i, m.frame⟩) b t points _ :=
      round_turn m.name m.frame b t hne
    obtain ⟨closed', opened', h', hopened, hmem⟩ := hturn.packed h hb (hb.write hm hp) (hs hne)
    rw [hr] at hrest hnext ht' h' hopened
    obtain ⟨closed'', opened'', h'', hmem'⟩ :=
      ih h' hnext ht' hrest fun hn => by simp [hopened hn]
    exact ⟨closed'', opened'', h'', fun s hs' => (hmem' s hs').elim (hmem s) .inr⟩

section Calls

variable {τ : Type} [WordSource τ]

/-- The payloads that a packer handed over, and what is in its buffer if anything. -/
def pages (p : Packer) (t : Traced ω) : List Bytes :=
  t.payloads ++ if p.current.isEmpty then [] else [p.current.bytes]

def Visit.accepted (v : Visit τ) : List Metric := v.call.accepted v.words

def processing (e : Metric × τ) : Visit τ := ⟨.process e.1, e.2⟩

theorem visit_supplies (hI : Outlet.Supplies L I) {p : Packer} {t : Traced ω}
    (hp : p.current.Pooled L) (ht : I t.outlet) (v : Visit τ) :
    (p.visit t v).2.1.current.Pooled L ∧ I (p.visit t v).2.2.outlet := by
  rw [visit_eq_follow]
  exact (follow_plain hI hp ht v.order).2

theorem visits_supplies (hI : Outlet.Supplies L I) {p : Packer} {t : Traced ω}
    (hp : p.current.Pooled L) (ht : I t.outlet) (vs : List (Visit τ)) :
    (p.visits t vs).2.1.current.Pooled L ∧ I (p.visits t vs).2.2.outlet := by
  induction vs generalizing p t with
  | nil => exact ⟨hp, ht⟩
  | cons v vs ih =>
    obtain ⟨hp', ht'⟩ := visit_supplies hI hp ht v
    exact ih hp' ht'

theorem career_supplies (hI : Outlet.Supplies L I) {w : ω} (hw : I w) (vs : List (Visit τ)) :
    (career w vs).2.1.current.Pooled L ∧ I (career w vs).2.2.outlet :=
  visits_supplies (t := (create ({ outlet := w } : Traced ω)).2) hI
    (Buffer.pooled_blank _ (hI.limits w hw)) (hI.borrow w hw) vs

omit [WordSource τ] in
theorem flush_isEmpty (p : Packer) (w : ω) : (p.flush w).1.current.isEmpty = true := by
  rw [flush]
  split
  · assumption
  · exact Buffer.isEmpty_blank _

theorem visits_flush_isEmpty (p : Packer) (w : ω) (vs : List (Visit τ)) (s : τ) :
    (p.visits w (vs ++ [⟨.flush, s⟩])).2.1.current.isEmpty = true := by
  induction vs generalizing p w with
  | nil => exact p.flush_isEmpty w
  | cons v vs ih => exact ih _ _

theorem career_flush_isEmpty (w : ω) (vs : List (Visit τ)) (s : τ) :
    (career w (vs ++ [⟨.flush, s⟩])).2.1.current.isEmpty = true :=
  visits_flush_isEmpty (create ({ outlet := w } : Traced ω)).1
    (create ({ outlet := w } : Traced ω)).2 vs s

theorem visit_packed (hI : Outlet.Supplies L I) {p : Packer} {t : Traced ω} {i : Nat}
    {closed : List Parcel} {opened : Parcel} {ms : List Metric} (m : Metric) (s : τ)
    (h : Packed L stream t.handed p.current closed opened
      (Spot.ofMetrics i (Visit.accepted ⟨.process m, s⟩ ++ ms)))
    (hp : p.current.Pooled L) (ht : I t.outlet) (hi : ∀ s ∈ opened, s.source.place < i) :
    let r := p.visit t (⟨.process m, s⟩ : Visit τ)
    ∃ closed' opened' j, Packed L stream r.2.2.handed r.2.1.current closed' opened'
      (Spot.ofMetrics j ms) ∧ ∀ s ∈ opened', s.source.place < j := by
  intro r
  simp only [Visit.accepted, Call.accepted] at h
  by_cases hk : (decideSample m.rate s).1 = true
  · cases hr : m.rejection? with
    | some reason =>
      simp only [hk, hr] at h
      have hr' : r = (⟨.error reason, p.current.length⟩, p, Outlet.record .rejected t) := by
        simp only [r, visit, process_of_kept hk, accept_of_rejection hr]
      rw [hr']
      exact ⟨closed, opened, i, h, hi⟩
    | none =>
      simp only [hk, hr] at h
      have hfresh (hn : m.value.points ≠ []) : ∀ s ∈ opened, s.source ≠ ⟨i, m.frame⟩ := by
        intro s hs he
        have hlt := hi s hs
        simp [he] at hlt
      obtain ⟨closed', opened', h', hmem⟩ :=
        pack_packed hI m.value.points p.current t h hp ht hr (List.suffix_refl _) hfresh
      simp only [r, visit, process_of_kept hk, accept_of_writable hr]
      refine ⟨closed', opened', i + 1, h', fun s hs => ?_⟩
      rcases hmem s hs with hs | hs
      · exact Nat.lt_succ_of_lt (hi s hs)
      · simp [hs]
  · have hr' : r = (⟨.ok (), p.current.length⟩, p, Outlet.record .sampledOut t) := by
      simp only [r, visit, process_of_dropped (by simpa using hk)]
    simp only [hk] at h
    rw [hr']
    exact ⟨closed, opened, i, h, hi⟩

theorem visits_packed (hI : Outlet.Supplies L I) {p : Packer} {t : Traced ω} {i : Nat}
    {closed : List Parcel} {opened : Parcel} (metrics : List (Metric × τ))
    (h : Packed L stream t.handed p.current closed opened
      (Spot.ofMetrics i ((metrics.map processing).flatMap Visit.accepted)))
    (hp : p.current.Pooled L) (ht : I t.outlet) (hi : ∀ s ∈ opened, s.source.place < i) :
    let r := p.visits t (metrics.map processing)
    ∃ closed' opened', Packed L stream r.2.2.handed r.2.1.current closed' opened' [] := by
  induction metrics generalizing p t i closed opened with
  | nil => exact ⟨closed, opened, h⟩
  | cons e metrics ih =>
    obtain ⟨closed', opened', j, h', hj⟩ := visit_packed hI e.1 e.2 h hp ht hi
    obtain ⟨hp', ht'⟩ := visit_supplies hI hp ht (processing e)
    exact ih h' hp' ht' hj

end Calls

end Packer

namespace Circumstances

variable {σ τ : Type} [WordSource σ] [WordSource τ]

/-- Whatever goes on around a packer with nothing in its buffer, calls to process metrics cut the
points of the metrics they accept into the fewest payloads that any cut has. Each of them ends
where the next point could not be written any more. -/
theorem fewest_payloads (c : Circumstances σ) (L : Limits) (before : List (Packer.Visit τ))
    (metrics : List (Metric × τ))
    (h : (Packer.career (c.begin L) before).2.1.current.isEmpty = true) :
    let r := Packer.career (c.begin L) before
    let vs := metrics.map Packer.processing
    let r' := r.2.1.visits ({ outlet := r.2.2.outlet } : Traced (Surroundings σ)) vs
    let stream := Spot.ofMetrics 0 (vs.flatMap Packer.Visit.accepted)
    let pages := r'.2.1.pages r'.2.2
    (∃ parcels, IsPacking L stream parcels ∧ parcels.map Parcel.page = pages ∧
        parcels.IsChain (Parcel.Ends L)) ∧
      IsLeast {n | ∃ parcels, IsPacking L stream parcels ∧ parcels.length = n} pages.length := by
  intro r vs r' stream pages
  obtain ⟨hp, hs⟩ := Packer.career_supplies Surroundings.supplies
    (w := c.begin L) (Plant.sound_start c.initial c.maximum c.bound c.words) before
  obtain ⟨closed, opened, hpacked⟩ := Packer.visits_packed Surroundings.supplies metrics
    (t := { outlet := r.2.2.outlet }) (i := 0) (.begin hp h stream) hp hs (by simp)
  have hp' : r'.2.1.current.Pooled L :=
    (Packer.visits_supplies (t := { outlet := r.2.2.outlet }) Surroundings.supplies hp hs vs).1
  obtain ⟨parcels, hpacking, hpages, hends⟩ := hpacked.packing hp'
  have hlen : pages.length = parcels.length := by
    rw [← List.length_map Parcel.page, hpages]
    rfl
  rw [hlen]
  exact ⟨⟨parcels, hpacking, hpages, hends⟩, hpacking.isLeast hends⟩

/-- A batch that takes two payloads, a metric without a name, a count that goes beside neither of
them, and a line that is beyond all limits. -/
def mixedMetrics : List Metric :=
  [{ name := "load", value := .histogramBatch [.one, .one, .one, .one, .one, .one] "" },
    { name := "", value := .count 1 }, { name := "q", value := .count 1 },
    { name := "beyond-all-limits", value := .count 1 }]

def mixedCallers : List (Metric × Cycle) := mixedMetrics.map (·, { words := [] })

/-- A cut of the points of those among them that are accepted. -/
def mixedParcels : List Parcel :=
  let load := (mixedMetrics.take 1).flatMap fun m => m.value.points
  let frame (i : Nat) : Frame := (mixedMetrics[i]?.map Metric.frame).getD {}
  [Spot.ofPoints ⟨0, frame 0⟩ (load.take 4), Spot.ofPoints ⟨0, frame 0⟩ (load.drop 4),
    Spot.ofPoints ⟨1, frame 2⟩ [ascii "1"], Spot.ofPoints ⟨2, frame 3⟩ [ascii "1"]]

theorem fewest_crowded :
    let r := Packer.career (crowded.begin ⟨16, 2⟩) (mixedCallers.map Packer.processing ++
      [⟨.flush, { words := [] }⟩])
    let r' := r.2.1.visits ({ outlet := r.2.2.outlet } : Traced (Surroundings Cycle))
      (mixedCallers.map Packer.processing)
    let stream := Spot.ofMetrics 0
      ((mixedCallers.map Packer.processing).flatMap Packer.Visit.accepted)
    let pages := r'.2.1.pages r'.2.2
    r.2.1.current.isEmpty = true ∧
      IsLeast {n | ∃ parcels, IsPacking ⟨16, 2⟩ stream parcels ∧ parcels.length = n}
        pages.length ∧
      pages.length ≤ mixedParcels.length := by
  have h := Packer.career_flush_isEmpty (crowded.begin ⟨16, 2⟩)
    (mixedCallers.map Packer.processing) { words := [] }
  have hleast := (fewest_payloads crowded ⟨16, 2⟩ _ mixedCallers h).2
  have hpacking : IsPacking ⟨16, 2⟩
      (Spot.ofMetrics 0 ((mixedCallers.map Packer.processing).flatMap Packer.Visit.accepted))
      mixedParcels :=
    ⟨by decide +kernel, by decide +kernel, by decide +kernel⟩
  exact ⟨h, hleast, hleast.2 ⟨mixedParcels, hpacking, rfl⟩⟩

end Circumstances
end MetricPipeline
