import MetricPipeline.Proofs.Plant
import MetricPipeline.Proofs.Tuning

namespace MetricPipeline

/-- The payloads and then the buffer hold, line after line, the points of the metrics but for those
that are still to come. -/
def Rendered (ms : List Metric) (payloads : List Buffer) (b : Buffer)
    (rest : List (Bytes × Bytes × Bytes)) : Prop :=
  ∃ (blank : Buffer) (rows : List Row), blank.bytes = [] ∧ (∀ row ∈ rows, row.points ≠ []) ∧
    rows.flatMap Row.triples ++ rest = ms.flatMap Metric.triples ∧
      Carried blank (rows.map Row.bytes) b payloads

namespace Rendered

variable {ms : List Metric} {payloads : List Buffer} {b : Buffer}
  {rest : List (Bytes × Bytes × Bytes)}

theorem blank (h : b.bytes = []) : Rendered [] [] b [] :=
  ⟨b, [], h, by simp, rfl, Carried.refl b⟩

theorem accept (h : Rendered ms payloads b []) (m : Metric) :
    Rendered (ms ++ [m]) payloads b m.triples := by
  obtain ⟨blank, rows, hb, hne, ht, hc⟩ := h
  refine ⟨blank, rows, hb, hne, ?_, hc⟩
  rw [List.append_nil] at ht
  rw [ht, List.flatMap_append, List.flatMap_singleton]

theorem handOver (h : Rendered ms payloads b rest) {b' : Buffer} (hb' : b'.bytes = []) :
    Rendered ms (payloads ++ [b]) b' rest := by
  obtain ⟨blank, rows, hb, hne, ht, hc⟩ := h
  have hh : Carried b [] b' [b] := fun held hheld => ⟨[held], [], by simp [hheld], by simp [hb'],
    by simp⟩
  have hall := hc.trans hh
  rw [List.append_nil] at hall
  exact ⟨blank, rows, hb, hne, ht, hall⟩

theorem write {m : Metric} {points : List Bytes} {runs : List (List Bytes)} {b' : Buffer}
    {payloads' : List Buffer}
    (h : Rendered ms payloads b ((runs.flatten ++ points).map fun p => (m.header, p, m.trailer)))
    (hruns : ∀ run ∈ runs, run ≠ []) (hc' : Carried b (runs.map m.frame.line) b' payloads') :
    Rendered ms (payloads ++ payloads') b' (points.map fun p => (m.header, p, m.trailer)) := by
  obtain ⟨blank, rows, hb, hne, ht, hc⟩ := h
  let k : Cut := ⟨m, runs⟩
  refine ⟨blank, rows ++ k.rows, hb, ?_, ?_, ?_⟩
  · intro row hrow
    rcases List.mem_append.mp hrow with hrow | hrow
    · exact hne row hrow
    · obtain ⟨run, hrun, rfl⟩ := List.mem_map.mp hrow
      exact hruns run hrun
  · have hk : k.rows.flatMap Row.triples =
        runs.flatten.map fun p => (m.header, p, m.trailer) := by
      rw [Cut.rows, List.flatMap_map, List.map_flatten, ← List.flatMap_def]
      rfl
    rw [List.flatMap_append, hk, List.append_assoc, ← List.map_append, ht]
  · rw [List.map_append, k.bytes_rows]
    exact hc.trans hc'

theorem pages (h : Rendered ms payloads b rest) :
    ∃ pages : List (List Row), Client.MadeUpOf ((payloads ++ [b]).map Buffer.bytes) pages ∧
      pages.flatten.flatMap Row.triples ++ rest = ms.flatMap Metric.triples := by
  obtain ⟨blank, rows, hb, hne, ht, hc⟩ := h
  obtain ⟨groups, last, hg, hl, hgl⟩ := hc [] (by simpa using hb)
  have hflat : (groups ++ [last]).flatten = rows.map Row.bytes := by simpa using hgl
  obtain ⟨pages, hp, rfl⟩ := exists_of_flatten_eq_map hflat
  refine ⟨pages, ⟨?_, hne⟩, ht⟩
  have hall : (payloads ++ [b]).map Buffer.bytes = (groups ++ [last]).map List.flatten := by
    simp [hg, hl]
  rw [hall, hp, List.map_map]
  exact List.map_congr_left fun page _ => (List.flatMap_def ..).symm

end Rendered

theorem Client.MadeUpOf.append {payloads payloads' : List Bytes} {pages pages' : List (List Row)}
    (h : MadeUpOf payloads pages) (h' : MadeUpOf payloads' pages') :
    MadeUpOf (payloads ++ payloads') (pages ++ pages') := by
  refine ⟨by rw [h.1, h'.1, List.map_append], ?_⟩
  intro row hrow
  rw [List.flatten_append] at hrow
  rcases List.mem_append.mp hrow with hrow | hrow
  · exact h.2 row hrow
  · exact h'.2 row hrow

theorem Client.MadeUpOf.perm {payloads payloads' : List Bytes} {pages : List (List Row)}
    (h : MadeUpOf payloads pages) (hp : payloads'.Perm payloads) :
    ∃ pages' : List (List Row), MadeUpOf payloads' pages' ∧ pages'.Perm pages := by
  rw [h.1] at hp
  obtain ⟨pages', hpages, hperm⟩ := exists_of_perm_map hp
  exact ⟨pages', ⟨hpages, fun row hrow => h.2 row (hperm.flatten.mem_iff.mp hrow)⟩, hperm⟩

def pointsOn (pages : List (List Row)) : Nat := (pages.flatten.flatMap Row.triples).length

theorem Row.bytes_ne_nil {r : Row} (h : r.points ≠ []) : r.bytes ≠ [] := r.frame.line_ne_nil h

namespace Station

/-- The metric that is being written. Its points are counted when it is done. -/
def underWay (t : Station) : List Metric := t.job.toList.map Prod.fst

def unwritten (t : Station) : List (Bytes × Bytes × Bytes) :=
  t.job.toList.flatMap fun j => j.2.map fun p => (j.1.header, p, j.1.trailer)

/-- What a station has handed over and what it still has are the points of its metrics. -/
def Renders (ms : List Metric) (handed : List Buffer) : Option Station → Prop
  | some t => Rendered ms (handed ++ t.tray) t.packer.current t.unwritten
  | none => Rendered ms handed .detached []

def output (t : Station) : List Buffer := t.tray ++ [t.packer.current]

theorem Renders.pages {ms : List Metric} {handed : List Buffer} {y : Option Station}
    (h : Renders ms handed y) :
    ∃ pages : List (List Row),
      Client.MadeUpOf ((handed ++ y.toList.flatMap output).map Buffer.bytes) pages ∧
        pages.flatten.flatMap Row.triples ++ y.toList.flatMap unwritten =
          ms.flatMap Metric.triples := by
  cases y with
  | some t =>
    have hp := Rendered.pages h
    simpa [output] using hp
  | none =>
    obtain ⟨pages, ⟨hmade, hne⟩, ht⟩ := Rendered.pages h
    -- The last page is that of a buffer without bytes, and no line is without bytes.
    rw [List.map_append] at hmade
    obtain ⟨front, back, rfl, hfront, hback⟩ := List.map_eq_append_iff.mp hmade.symm
    obtain ⟨page, rfl⟩ := List.length_eq_one_iff.mp (by simpa using congrArg List.length hback)
    obtain rfl : page = [] := by
      rw [List.eq_nil_iff_forall_not_mem]
      intro row hrow
      have hb : page.flatMap Row.bytes = [] := by simpa [Buffer.detached] using hback
      exact Row.bytes_ne_nil (hne row (by simp [hrow])) (List.flatMap_eq_nil_iff.mp hb row hrow)
    rw [List.flatten_append] at hne ht
    simp only [List.flatten_singleton, List.append_nil] at hne ht
    exact ⟨front, ⟨by simpa using hfront.symm, hne⟩, by simpa using ht⟩

section Idle

variable {t : Station}

theorem underWay_of_isIdle (h : t.isIdle = true) : t.underWay = [] := by
  simp [underWay, (isIdle_iff.mp h).2]

theorem unwritten_of_isIdle (h : t.isIdle = true) : t.unwritten = [] := by
  simp [unwritten, (isIdle_iff.mp h).2]

theorem output_of_isIdle (h : t.isIdle = true) : t.output = [t.packer.current] := by
  simp [output, (isIdle_iff.mp h).1]

end Idle

end Station
end MetricPipeline
