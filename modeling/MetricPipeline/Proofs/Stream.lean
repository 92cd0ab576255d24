import MetricPipeline.Proofs.Tracing

namespace MetricPipeline

/-- A metric cut into lines, each with a run of its points. -/
structure Cut where
  metric : Metric
  runs : List (List Bytes)

namespace Cut

def lines (c : Cut) : List Bytes := c.runs.map c.metric.frame.line

structure IsComplete (c : Cut) : Prop where
  flatten_runs : c.runs.flatten = c.metric.value.points
  runs_ne_nil : ∀ run ∈ c.runs, run ≠ []

theorem IsComplete.length_runs_le {c : Cut} (h : c.IsComplete) :
    c.runs.length ≤ c.metric.value.size := by
  rw [← Value.length_points, ← h.flatten_runs, List.length_flatten]
  have hp : ∀ n ∈ c.runs.map List.length, 1 ≤ n := by
    intro n hn
    obtain ⟨run, hr, rfl⟩ := List.mem_map.mp hn
    exact List.length_pos_iff.mpr (h.runs_ne_nil run hr)
  simpa using List.card_nsmul_le_sum _ 1 hp

theorem IsComplete.runs_of_single {c : Cut} (h : c.IsComplete) (hs : c.metric.value.size = 1) :
    c.runs = [c.metric.value.points] := by
  have hl := h.length_runs_le
  have hf := h.flatten_runs
  have hp := c.metric.value.length_points
  match hc : c.runs with
  | [] =>
    simp only [hc, List.flatten_nil] at hf
    simp [← hf, hs] at hp
  | [run] => simpa [hc] using hf
  | _ :: _ :: _ => simp [hc, hs] at hl

theorem IsComplete.ne_nil_of_mem_lines {c : Cut} (h : c.IsComplete) {line : Bytes}
    (hl : line ∈ c.lines) : line ≠ [] := by
  obtain ⟨run, hrun, rfl⟩ := List.mem_map.mp hl
  exact c.metric.frame.line_ne_nil (h.runs_ne_nil run hrun)

end Cut

/-- From buffer `b` to buffer `b'` the lines were added and the payloads handed over: put one after
another, the payloads and `b'` hold what `b` held and then the lines, cut between lines only. -/
def Carried (b : Buffer) (lines : List Bytes) (b' : Buffer) (payloads : List Buffer) : Prop :=
  ∀ held : List Bytes, b.bytes = held.flatten →
    ∃ (groups : List (List Bytes)) (last : List Bytes),
      payloads.map Buffer.bytes = groups.map List.flatten ∧
        b'.bytes = last.flatten ∧ groups.flatten ++ last = held ++ lines

namespace Carried

theorem refl (b : Buffer) : Carried b [] b [] := by
  intro held hb
  exact ⟨[], held, rfl, hb, by simp⟩

theorem append (b : Buffer) (line : Bytes) : Carried b [line] (b.append line) [] := by
  intro held hb
  refine ⟨[], held ++ [line], rfl, ?_, by simp⟩
  simp [Buffer.append, hb]

theorem handOver (b : Buffer) (blank : Blank) : Carried b [] blank.buffer [b] := by
  intro held hb
  exact ⟨[held], [], by simp [hb], by simp, by simp⟩

theorem alone {b : Buffer} (h : b.isEmpty = true) (line : Bytes) :
    Carried b [line] b [Buffer.alone line] := by
  intro held hb
  have hn : b.bytes = [] := by simpa [Buffer.isEmpty] using h
  refine ⟨[held ++ [line]], [], ?_, by simp [hn], by simp⟩
  rw [hn] at hb
  simp [Buffer.alone, ← hb]

theorem trans {b b' b'' : Buffer} {lines lines' : List Bytes} {payloads payloads' : List Buffer}
    (h : Carried b lines b' payloads) (h' : Carried b' lines' b'' payloads') :
    Carried b (lines ++ lines') b'' (payloads ++ payloads') := by
  intro held hb
  obtain ⟨groups, last, hp, hl, hg⟩ := h held hb
  obtain ⟨groups', last', hp', hl', hg'⟩ := h' last hl
  refine ⟨groups ++ groups', last', by simp [hp, hp'], hl', ?_⟩
  rw [List.flatten_append, List.append_assoc, hg', ← List.append_assoc, hg, List.append_assoc]

theorem flatten_eq {b b' : Buffer} {lines : List Bytes} {payloads : List Buffer}
    (h : Carried b lines b' payloads) :
    payloads.flatMap Buffer.bytes ++ b'.bytes = b.bytes ++ lines.flatten := by
  obtain ⟨groups, last, hp, hl, hg⟩ := h [b.bytes] (by simp)
  have hf := congrArg List.flatten hg
  rw [List.flatMap_def, hp, hl, ← List.flatten_flatten, ← List.flatten_append, hf]
  simp

end Carried

namespace Packer

variable {σ ω : Type} [WordSource σ] [Outlet ω]

theorem Turn.carried {name : String} {f : Frame} {b : Buffer} {t : Traced ω}
    {points : List Bytes} {r : List Bytes × Buffer × Traced ω}
    (h : Turn name f b t points r) :
    ∃ (runs : List (List Bytes)) (payloads : List Buffer),
      (∀ run ∈ runs, run ≠ []) ∧ runs.flatten ++ r.1 = points ∧
        r.2.2.handed = t.handed ++ payloads ∧ Carried b (runs.map f.line) r.2.1 payloads := by
  cases h with
  | finish hp hr =>
    exact ⟨[points], [], by simpa using hp, by simp, by simp, Carried.append b _⟩
  | cut hr hl =>
    refine ⟨[points.take (b.room f points)], [b.append (f.line (points.take (b.room f points)))],
      ?_, by simp, rfl, (Carried.append b _).trans (Carried.handOver _ _)⟩
    intro run hrun
    rw [List.mem_singleton.mp hrun]
    apply List.ne_nil_of_length_pos
    rw [List.length_take]
    omega
  | @alone p points hr hb =>
    exact ⟨[[p]], [Buffer.alone (f.line [p])], by simp, by simp, rfl, Carried.alone hb _⟩
  | turnOver hp hr hb =>
    exact ⟨[], [b], by simp, by simp, rfl, Carried.handOver b _⟩

theorem pack_carried (name : String) (f : Frame) (points : List Bytes) (b : Buffer)
    (t : Traced ω) :
    ∃ (runs : List (List Bytes)) (payloads : List Buffer),
      (∀ run ∈ runs, run ≠ []) ∧ runs.flatten = points ∧
        (pack name f points b t).2.handed = t.handed ++ payloads ∧
          Carried b (runs.map f.line) (pack name f points b t).1 payloads := by
  fun_induction pack name f points b t with
  | case1 b t => exact ⟨[], [], by simp, rfl, by simp, Carried.refl b⟩
  | case2 points b t h rest next t' hr ih =>
    have ht := (round_turn name f b t h).carried
    rw [hr] at ht
    -- The round took points from the front, and the loop writes the rest.
    obtain ⟨runs, payloads, hne, hf, hh, hc⟩ := ht
    obtain ⟨runs', payloads', hne', hf', hh', hc'⟩ := ih
    refine ⟨runs ++ runs', payloads ++ payloads', ?_, ?_, ?_, ?_⟩
    · intro run hrun
      exact (List.mem_append.mp hrun).elim (hne run) (hne' run)
    · rw [List.flatten_append, hf', hf]
    · rw [hh', hh, List.append_assoc]
    · rw [List.map_append]
      exact hc.trans hc'

theorem flush_carried (p : Packer) (t : Traced ω) :
    ∃ payloads, (p.flush t).2.handed = t.handed ++ payloads ∧
      Carried p.current [] (p.flush t).1.current payloads := by
  rw [flush]
  split
  · exact ⟨[], by simp, Carried.refl _⟩
  · exact ⟨[p.current], rfl, Carried.handOver _ _⟩

inductive Call
  | process (m : Metric)
  | flush

/-- The metrics that a call accepts: the one to process, if it is kept and can be written. -/
def Call.accepted (s : σ) : Call → List Metric
  | .process m => if (decideSample m.rate s).1 && m.rejection?.isNone then [m] else []
  | .flush => []

def Call.drawn (s : σ) : Call → σ
  | .process m => (decideSample m.rate s).2
  | .flush => s

def call (p : Packer) (s : σ) (w : ω) : Call → Packer × σ × ω
  | .process m => (p.process m s w).2
  | .flush => ((p.flush w).1, s, (p.flush w).2)

def calls (p : Packer) (s : σ) (w : ω) : List Call → Packer × σ × ω
  | [] => (p, s, w)
  | c :: cs => calls (p.call s w c).1 (p.call s w c).2.1 (p.call s w c).2.2 cs

def accepted (s : σ) : List Call → List Metric
  | [] => []
  | c :: cs => c.accepted s ++ accepted (c.drawn s) cs

def handed (p : Packer) (s : σ) (w : ω) (cs : List Call) : List Buffer :=
  (p.calls s ({ outlet := w } : Traced ω) cs).2.2.handed

theorem call_words (p : Packer) (s : σ) (w : ω) (c : Call) : (p.call s w c).2.1 = c.drawn s := by
  cases c with
  | process m =>
    by_cases hk : (decideSample m.rate s).1 = true
    · simp only [call, process_of_kept hk, Call.drawn]
    · simp only [call, process_of_dropped (by simpa using hk), Call.drawn]
  | flush => rfl

theorem call_carried (p : Packer) (s : σ) (t : Traced ω) (c : Call) :
    ∃ (cuts : List Cut) (payloads : List Buffer),
      cuts.map Cut.metric = c.accepted s ∧ (∀ c ∈ cuts, c.IsComplete) ∧
        (p.call s t c).2.2.handed = t.handed ++ payloads ∧
          Carried p.current (cuts.flatMap Cut.lines) (p.call s t c).1.current payloads := by
  cases c with
  | process m =>
    simp only [call, Call.accepted]
    by_cases hk : (decideSample m.rate s).1 = true
    · rw [process_of_kept hk]
      cases hr : m.rejection? with
      | some r =>
        rw [accept_of_rejection hr]
        exact ⟨[], [], by simp, by simp, (List.append_nil _).symm, Carried.refl _⟩
      | none =>
        rw [accept_of_writable hr]
        obtain ⟨runs, payloads, hne, hf, hh, hc⟩ :=
          pack_carried m.name m.frame m.value.points p.current t
        refine ⟨[⟨m, runs⟩], payloads, by simp [hk], ?_, hh, by simpa [Cut.lines] using hc⟩
        intro c hc
        rw [List.mem_singleton.mp hc]
        exact ⟨hf, hne⟩
    · rw [process_of_dropped (by simpa using hk)]
      exact ⟨[], [], by simp [hk], by simp, (List.append_nil _).symm, Carried.refl _⟩
  | flush =>
    obtain ⟨payloads, hh, hc⟩ := p.flush_carried t
    exact ⟨[], payloads, rfl, by simp, hh, hc⟩

theorem calls_carried (p : Packer) (s : σ) (t : Traced ω) (cs : List Call) :
    ∃ (cuts : List Cut) (payloads : List Buffer),
      cuts.map Cut.metric = accepted s cs ∧ (∀ c ∈ cuts, c.IsComplete) ∧
        (p.calls s t cs).2.2.handed = t.handed ++ payloads ∧
          Carried p.current (cuts.flatMap Cut.lines) (p.calls s t cs).1.current payloads := by
  induction cs generalizing p s t with
  | nil => exact ⟨[], [], rfl, by simp, by simp [calls], Carried.refl _⟩
  | cons c cs ih =>
    obtain ⟨cuts, payloads, hm, hc, hh, hd⟩ := p.call_carried s t c
    obtain ⟨cuts', payloads', hm', hc', hh', hd'⟩ :=
      ih (p.call s t c).1 (p.call s t c).2.1 (p.call s t c).2.2
    refine ⟨cuts ++ cuts', payloads ++ payloads', ?_, ?_, ?_, ?_⟩
    · rw [List.map_append, hm, hm', call_words, accepted]
    · intro k hk
      exact (List.mem_append.mp hk).elim (hc k) (hc' k)
    · rw [calls, hh', hh, List.append_assoc]
    · rw [List.flatMap_append]
      exact hd.trans hd'

theorem call_view {ω' : Type} [Outlet ω'] (v : OutletView ω ω') (p : Packer) (s : σ) (w : ω)
    (c : Call) :
    p.call s (v.view w) c =
      ((p.call s w c).1, (p.call s w c).2.1, v.view (p.call s w c).2.2) := by
  cases c with
  | process m => simp only [call, v.process_view]
  | flush => simp only [call, v.flush_view]

theorem calls_view {ω' : Type} [Outlet ω'] (v : OutletView ω ω') (p : Packer) (s : σ) (w : ω)
    (cs : List Call) :
    p.calls s (v.view w) cs =
      ((p.calls s w cs).1, (p.calls s w cs).2.1, v.view (p.calls s w cs).2.2) := by
  induction cs generalizing p s w with
  | nil => rfl
  | cons c cs ih =>
    simp only [calls, call_view v]
    rw [ih]

/-- A packer that starts with nothing written hands over, and at last holds, exactly the lines of
the metrics it accepted: every point once and in order, and payloads of whole lines. -/
theorem handed_eq_lines (p : Packer) (s : σ) (w : ω) (cs : List Call)
    (h : p.current.bytes = []) :
    ∃ (cuts : List Cut) (groups : List (List Bytes)) (last : List Bytes),
      cuts.map Cut.metric = accepted s cs ∧
        (∀ c ∈ cuts, c.IsComplete ∧
          (c.metric.value.size = 1 → c.runs = [c.metric.value.points])) ∧
        (p.handed s w cs).map Buffer.bytes = groups.map List.flatten ∧
        (p.calls s w cs).1.current.bytes = last.flatten ∧
        groups.flatten ++ last = cuts.flatMap Cut.lines ∧
        (p.handed s w cs).flatMap Buffer.bytes ++ (p.calls s w cs).1.current.bytes =
          (cuts.flatMap Cut.lines).flatten := by
  obtain ⟨cuts, payloads, hm, hc, hh, hd⟩ := p.calls_carried s ({ outlet := w } : Traced ω) cs
  have hp : p.handed s w cs = payloads := by rw [handed, hh, List.nil_append]
  have hv := calls_view Traced.untraced p s ({ outlet := w } : Traced ω) cs
  have hcur : (p.calls s w cs).1 = (p.calls s ({ outlet := w } : Traced ω) cs).1 :=
    congrArg Prod.fst hv
  obtain ⟨groups, last, hg, hl, hgl⟩ := hd [] (by simpa using h)
  refine ⟨cuts, groups, last, hm, ?_, by rw [hp, hg], by rw [hcur, hl], by simpa using hgl, ?_⟩
  · intro c hk
    exact ⟨hc c hk, (hc c hk).runs_of_single⟩
  · rw [hp, hcur, hd.flatten_eq, h, List.nil_append]

/-- A packer whose payloads hold two lines and eight bytes at most. -/
def narrowPacker : Packer × Outbox :=
  create { pool := Pool.create 1 2 ⟨8, 2⟩, queue := { bound := 4 } }

/-- A batch that is cut, a metric without a name, one that is not kept and one beyond all limits. -/
def mixedCalls : List Call :=
  [.process { name := "q", value := .histogramBatch [⟨0x3ff0000000000000⟩, ⟨0x4000000000000000⟩,
      ⟨0x4008000000000000⟩] "" },
    .process { name := "", value := .count 1 }, .flush,
    .process { name := "requests", value := .count 1, rate := .zero },
    .process { name := "beyond-all-limits", value := .count 1 }]

theorem handed_narrowPacker :
    narrowPacker.1.current.bytes = [] ∧
      ∃ cuts : List Cut, cuts.map (fun c => c.metric.name) = ["q", "beyond-all-limits"] ∧
        (∀ c ∈ cuts, c.IsComplete) ∧
          (narrowPacker.1.handed ({ words := [] } : Cycle) narrowPacker.2 mixedCalls).flatMap
              Buffer.bytes ++
            (narrowPacker.1.calls ({ words := [] } : Cycle) narrowPacker.2
              mixedCalls).1.current.bytes =
            (cuts.flatMap Cut.lines).flatten := by
  refine ⟨rfl, ?_⟩
  obtain ⟨cuts, groups, last, hm, hc, -, -, -, hb⟩ :=
    handed_eq_lines narrowPacker.1 ({ words := [] } : Cycle) narrowPacker.2 mixedCalls rfl
  have hn : (accepted ({ words := [] } : Cycle) mixedCalls).map Metric.name =
      ["q", "beyond-all-limits"] := by
    decide +kernel
  refine ⟨cuts, ?_, fun c hk => (hc c hk).1, hb⟩
  rw [← hn, ← hm, List.map_map]
  rfl

end Packer
end MetricPipeline
