import MetricPipeline.Proofs.Fitting

namespace MetricPipeline

/-- A metric in a stream: its place there, and what frames its lines. -/
structure Source where
  place : Nat
  frame : Frame
deriving DecidableEq

structure Spot where
  source : Source
  text : Bytes
deriving DecidableEq

namespace Spot

def ofPoints (source : Source) (points : List Bytes) : List Spot := points.map (⟨source, ·⟩)

theorem source_of_mem {source : Source} {points : List Bytes} {s : Spot}
    (h : s ∈ ofPoints source points) : s.source = source := by
  obtain ⟨p, -, rfl⟩ := List.mem_map.mp h
  rfl

theorem ofPoints_append (source : Source) (points points' : List Bytes) :
    ofPoints source (points ++ points') = ofPoints source points ++ ofPoints source points' :=
  List.map_append

def ofMetrics (i : Nat) : List Metric → List Spot
  | [] => []
  | m :: ms => ofPoints ⟨i, m.frame⟩ m.value.points ++ ofMetrics (i + 1) ms

def joins (s t : Spot) : Bool := s.source = t.source

def width (s : Spot) : Nat := 1 + s.text.length

end Spot

/-- Points that may go into one payload. -/
abbrev Parcel := List Spot

namespace Parcel

def line : Parcel → Bytes
  | [] => []
  | s :: run => s.source.frame.line ((s :: run).map Spot.text)

/-- One line for each run of points of the same metric. -/
def lines (g : Parcel) : List Bytes := (g.splitBy Spot.joins).map line

def page (g : Parcel) : Bytes := g.lines.flatten

def Fits (L : Limits) (g : Parcel) : Prop := g.page.length ≤ L.length ∧ g.lines.length ≤ L.lines

/-- A single point goes into a payload of its own, however long its line is. -/
def Admissible (L : Limits) (g : Parcel) : Prop := g.length = 1 ∨ g.Fits L

instance (L : Limits) : DecidablePred (Fits L) :=
  fun g => inferInstanceAs (Decidable (g.page.length ≤ L.length ∧ g.lines.length ≤ L.lines))

instance (L : Limits) : DecidablePred (Admissible L) :=
  fun g => inferInstanceAs (Decidable (g.length = 1 ∨ g.Fits L))

/-- The parcel has no room for the first of the points to come. -/
def Ends (L : Limits) (g rest : Parcel) : Prop := ∀ s ∈ rest.head?, ¬ Fits L (g ++ [s])

end Parcel

/-- A stream cut into consecutive parcels, each of them fit for a payload. -/
structure IsPacking (L : Limits) (stream : List Spot) (parcels : List Parcel) : Prop where
  flatten_eq : parcels.flatten = stream
  ne_nil : ∀ g ∈ parcels, g ≠ []
  admissible : ∀ g ∈ parcels, g.Admissible L

namespace Parcel

variable {s t : Spot} {g g' : Parcel} {L : Limits}

theorem exists_splitBy_cons (s : Spot) (g : Parcel) :
    ∃ run rest, (s :: g).splitBy Spot.joins = (s :: run) :: rest := by
  have hne : (s :: g).splitBy Spot.joins ≠ [] := by simp
  obtain ⟨run, rest, hrun⟩ := List.exists_cons_of_ne_nil hne
  have hmem : run ∈ (s :: g).splitBy Spot.joins := hrun ▸ List.mem_cons_self
  obtain ⟨t, run, rfl⟩ := List.exists_cons_of_ne_nil (List.ne_nil_of_mem_splitBy hmem)
  have hflat := List.flatten_splitBy Spot.joins (s :: g)
  rw [hrun, List.flatten_cons, List.cons_append, List.cons.injEq] at hflat
  exact ⟨run, rest, hflat.1 ▸ hrun⟩

/-- Another point in front joins the first run, or makes one of its own. -/
theorem splitBy_cons_cons (s t : Spot) (g : Parcel) :
    (s :: t :: g).splitBy Spot.joins =
      if s.joins t then ((t :: g).splitBy Spot.joins).modifyHead (s :: ·)
      else [s] :: (t :: g).splitBy Spot.joins := by
  split
  · rename_i hj
    obtain ⟨run, rest, hrun⟩ := exists_splitBy_cons t g
    obtain ⟨hflat, hnil, hchain, hends⟩ := List.splitBy_eq_iff.mp hrun
    rw [hrun, List.modifyHead_cons]
    refine List.splitBy_eq_iff.mpr ⟨by simp [hflat], by simp_all, ?_, ?_⟩
    · intro r hr
      rcases List.mem_cons.mp hr with rfl | hr
      · exact List.isChain_cons_cons.mpr ⟨hj, hchain _ List.mem_cons_self⟩
      · exact hchain r (List.mem_cons_of_mem _ hr)
    · cases rest with
      | nil => exact List.isChain_singleton _
      | cons r rest =>
        -- The run that grew at its head still ends as it did.
        obtain ⟨⟨_, hr, hhead⟩, htail⟩ := List.isChain_cons_cons.mp hends
        refine List.isChain_cons_cons.mpr ⟨⟨by simp, hr, ?_⟩, htail⟩
        rw [List.getLast_cons (List.cons_ne_nil t run)]
        exact hhead
  · rename_i hj
    exact List.splitBy_append_cons (l := [s]) g (by simpa using hj)

theorem length_line (s : Spot) (run : Parcel) :
    (line (s :: run)).length = s.source.frame.size + ((s :: run).map Spot.width).sum := by
  rw [line, Frame.length_line, Frame.lineLength, Frame.size, List.map_map]
  rfl

theorem size_cons_cons (s t : Spot) (g : Parcel) :
    (page (s :: t :: g)).length = (page (t :: g)).length + s.width +
        (if s.joins t then 0 else s.source.frame.size) ∧
      (lines (s :: t :: g)).length = (lines (t :: g)).length + if s.joins t then 0 else 1 := by
  obtain ⟨run, rest, hrun⟩ := exists_splitBy_cons t g
  have hone := length_line s []
  have hrest := length_line t run
  have hmore := length_line s (t :: run)
  by_cases hj : s.joins t = true
  · have hs : s.source = t.source := by simpa [Spot.joins] using hj
    simp only [page, lines, splitBy_cons_cons, hrun, if_pos hj, List.modifyHead_cons,
      List.map_cons, List.flatten_cons, List.length_append, List.length_cons, List.sum_cons,
      hs, add_zero, and_true] at hrest hmore ⊢
    omega
  · simp only [page, lines, splitBy_cons_cons, hrun, if_neg hj, List.map_cons,
      List.flatten_cons, List.length_append, List.length_cons, List.map_nil, List.sum_cons,
      List.sum_nil, and_true] at hone ⊢
    omega

theorem page_singleton (s : Spot) : page [s] = line [s] := List.append_nil _

theorem size_singleton_le (s : Spot) (g : Parcel) :
    (page [s]).length ≤ (page (s :: g)).length ∧ 1 ≤ (lines (s :: g)).length := by
  obtain ⟨run, rest, hrun⟩ := exists_splitBy_cons s g
  have hone := length_line s []
  have hline := length_line s run
  simp only [List.map_cons, List.map_nil, List.sum_cons, List.sum_nil] at hone hline
  rw [page_singleton]
  simp only [page, lines, hrun, List.map_cons, List.flatten_cons, List.length_append,
    List.length_cons]
  omega

theorem size_le_cons (s : Spot) (g : Parcel) :
    g.page.length ≤ (page (s :: g)).length ∧ g.lines.length ≤ (lines (s :: g)).length := by
  cases g with
  | nil => exact ⟨Nat.zero_le _, Nat.zero_le _⟩
  | cons t g =>
    have h := size_cons_cons s t g
    omega

theorem size_le_append_right (g g' : Parcel) :
    g'.page.length ≤ (page (g ++ g')).length ∧ g'.lines.length ≤ (lines (g ++ g')).length := by
  induction g with
  | nil => exact ⟨le_rfl, le_rfl⟩
  | cons s g ih =>
    have h := size_le_cons s (g ++ g')
    exact ⟨ih.1.trans h.1, ih.2.trans h.2⟩

theorem size_le_append_left (g g' : Parcel) :
    g.page.length ≤ (page (g ++ g')).length ∧ g.lines.length ≤ (lines (g ++ g')).length := by
  induction g with
  | nil => exact ⟨Nat.zero_le _, Nat.zero_le _⟩
  | cons s g ih =>
    cases g with
    | nil => exact size_singleton_le s g'
    | cons t g =>
      have h := size_cons_cons s t g
      have h' := size_cons_cons s t (g ++ g')
      simp only [List.cons_append] at ih h' ⊢
      omega

theorem Fits.of_infix (h : g'.Fits L) (hg : g <:+: g') : g.Fits L := by
  obtain ⟨before, after, rfl⟩ := hg
  have hl := size_le_append_left (before ++ g) after
  have hr := size_le_append_right before g
  exact ⟨(hr.1.trans hl.1).trans h.1, (hr.2.trans hl.2).trans h.2⟩

theorem lines_append_points {source : Source} {points : List Bytes}
    (h : ∀ s ∈ g, s.source ≠ source) (hp : points ≠ []) :
    lines (g ++ Spot.ofPoints source points) = g.lines ++ [source.frame.line points] := by
  obtain ⟨p, ps, rfl⟩ := List.exists_cons_of_ne_nil hp
  have hrun : (Spot.ofPoints source (p :: ps)).splitBy Spot.joins =
      [Spot.ofPoints source (p :: ps)] := by
    apply List.splitBy_of_isChain (by simp [Spot.ofPoints])
    apply List.Pairwise.isChain
    apply List.pairwise_of_forall_mem_list
    intro s hs t ht
    simp [Spot.joins, Spot.source_of_mem hs, Spot.source_of_mem ht]
  rw [lines, List.splitBy_append, List.map_append, hrun]
  · simp [lines, Spot.ofPoints, line, Function.comp_def]
  · intro s hs t ht
    have ht' := Spot.source_of_mem (List.mem_of_mem_head? ht)
    simpa [Spot.joins, ht'] using h s (List.mem_of_getLast? hs)

theorem page_append_points {source : Source} {points : List Bytes}
    (h : ∀ s ∈ g, s.source ≠ source) (hp : points ≠ []) :
    page (g ++ Spot.ofPoints source points) = g.page ++ source.frame.line points := by
  simp [page, lines_append_points h hp]

theorem page_eq_nil_iff : g.page = [] ↔ g = [] := by
  refine ⟨fun h => ?_, fun h => h ▸ rfl⟩
  cases g with
  | nil => rfl
  | cons s g =>
    exfalso
    have hle := (size_singleton_le s g).1
    rw [h, page_singleton, length_line] at hle
    simp [Spot.width] at hle

theorem Ends.append (h : g.Ends L g') (hg : g' ≠ []) (later : List Spot) :
    g.Ends L (g' ++ later) := by
  rwa [Ends, List.head?_append_of_ne_nil g' hg]

/-- A parcel that begins no later than one that had to end does not end later either. -/
theorem Ends.suffix (front : List Spot) {o rest later : List Spot} (h : g.Ends L rest)
    (hg : g ≠ []) (ho : Admissible L o) (heq : o ++ later = front ++ g ++ rest) :
    rest <:+ later := by
  rcases List.append_eq_append_iff.mp heq with ⟨front', -, hlater⟩ | ⟨more, hmore, hrest⟩
  · exact ⟨front', hlater.symm⟩
  · cases more with
    | nil => exact ⟨[], hrest⟩
    | cons s more =>
      exfalso
      -- Otherwise it would hold one more point than the other could.
      have hinfix : g ++ [s] <:+: o := ⟨front, more, by simp [hmore]⟩
      have hnot : ¬ Fits L (g ++ [s]) := h s (by simp [hrest])
      rcases ho with hone | hfits
      · have hlen := hinfix.length_le
        have hpos := List.length_pos_iff.mpr hg
        simp only [List.length_append, List.length_singleton] at hlen
        omega
      · exact hnot (hfits.of_infix hinfix)

end Parcel

variable {L : Limits} {parcels others : List Parcel}

/-- Parcels that end only where they have to are no more than those of any cut of the same stream,
or of one that began earlier. -/
theorem length_le_of_ends (hends : parcels.IsChain (Parcel.Ends L))
    (hne : ∀ g ∈ parcels, g ≠ []) (hadm : ∀ g ∈ others, g.Admissible L)
    (hsuffix : parcels.flatten <:+ others.flatten) : parcels.length ≤ others.length := by
  induction others generalizing parcels with
  | nil =>
    cases parcels with
    | nil => exact le_rfl
    | cons g gs => simp_all
  | cons o os ih =>
    match parcels with
    | [] => exact Nat.zero_le _
    | [g] => simp
    | g :: g' :: gs =>
      obtain ⟨front, hfront⟩ := hsuffix
      obtain ⟨hend, hends⟩ := List.isChain_cons_cons.mp hends
      have hend' : g.Ends L (g' :: gs).flatten := hend.append (hne g' (by simp)) gs.flatten
      have hbehind : (g' :: gs).flatten <:+ os.flatten := by
        apply hend'.suffix front (hne g (by simp)) (hadm o (by simp))
        rw [← List.flatten_cons, ← hfront, List.flatten_cons, List.append_assoc]
      have hle := ih hends (fun k hk => hne k (List.mem_cons_of_mem _ hk))
        (fun k hk => hadm k (List.mem_cons_of_mem _ hk)) hbehind
      simpa using hle

theorem IsPacking.isLeast {stream : List Spot} (h : IsPacking L stream parcels)
    (hends : parcels.IsChain (Parcel.Ends L)) :
    IsLeast {n | ∃ parcels, IsPacking L stream parcels ∧ parcels.length = n} parcels.length := by
  refine ⟨⟨parcels, h, rfl⟩, ?_⟩
  rintro n ⟨others, hothers, rfl⟩
  apply length_le_of_ends hends h.ne_nil hothers.admissible
  rw [hothers.flatten_eq, h.flatten_eq]

end MetricPipeline
