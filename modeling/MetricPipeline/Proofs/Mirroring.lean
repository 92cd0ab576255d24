import MetricPipeline.Proofs.Erasure

namespace MetricPipeline

theorem Kind.name_injective : Function.Injective Kind.name := by
  intro k k' h
  cases k <;> cases k' <;> first | rfl | exact absurd h (by decide)

theorem eq_of_append_cons_eq {α : Type} [DecidableEq α] {a : α} {xs ys s t : List α} (hx : a ∉ xs)
    (hy : a ∉ ys) (h : xs ++ a :: s = ys ++ a :: t) : xs = ys := by
  have hcut {zs u : List α} (hz : a ∉ zs) : (zs ++ a :: u).takeWhile (· ≠ a) = zs := by
    have hall : ∀ z ∈ zs, decide (z ≠ a) = true := by
      intro z hz'
      exact decide_eq_true (ne_of_mem_of_not_mem hz' hz)
    rw [List.takeWhile_append_of_pos hall, List.takeWhile_cons_of_neg (by simp), List.append_nil]
  rw [← hcut hx, h, hcut hy]

namespace Telemetry

namespace Counter

theorem mem_all (c : Counter) : c ∈ all := by
  cases c with
  | pointsOf kind => cases kind <;> decide
  | _ => decide

theorem brace_notMem_name (c : Counter) : '\x7b' ∉ c.name.toList := by
  cases c with
  | pointsOf kind =>
    rw [name]
    decide
  | _ => decide

theorem eq_of_name_eq {c c' : Counter} (h : c.name = c'.name) :
    c = c' ∨ ∃ kind kind', c = pointsOf kind ∧ c' = pointsOf kind' := by
  cases c <;> cases c' <;>
    first
    | exact .inl rfl
    | exact .inr ⟨_, _, rfl, rfl⟩
    | exact absurd h (by simp only [name]; decide)

theorem key_eq (transport : String) (c : Counter) :
    c.key transport = "datadog.dogstatsd.client." ++ c.name ++ "\x7b" ++
      String.intercalate "," ((c.labels transport).map fun l => l.1 ++ "=" ++ l.2) ++ "\x7d" := rfl

theorem intercalate_concat (separator last : String) {texts : List String} (h : texts ≠ []) :
    String.intercalate separator (texts ++ [last]) =
      String.intercalate separator texts ++ separator ++ last := by
  induction texts with
  | nil => exact absurd rfl h
  | cons t texts ih =>
    cases texts with
    | nil => simp
    | cons t' texts =>
      have ih := ih (List.cons_ne_nil t' texts)
      rw [List.cons_append, List.cons_append, String.intercalate_cons_cons,
        String.intercalate_cons_cons, ← List.cons_append, ih]
      simp only [String.append_assoc]

/-- The name is told from the labels by the brace, the types from each other by the last label. -/
theorem key_injective (transport : String) : Function.Injective (key transport) := by
  intro c c' h
  rw [key_eq, key_eq] at h
  have hname : c.name = c'.name := by
    have hchars := congrArg String.toList h
    have hb : "\x7b".toList = ['\x7b'] := by decide
    simp only [String.toList_append, List.append_assoc, hb] at hchars
    have hrest := List.append_cancel_left hchars
    rw [List.singleton_append, List.singleton_append] at hrest
    exact String.toList_injective
      (eq_of_append_cons_eq (brace_notMem_name c) (brace_notMem_name c') hrest)
  rcases eq_of_name_eq hname with rfl | ⟨kind, kind', rfl, rfl⟩
  · rfl
  · have hlabels (k : Kind) : (pointsOf k).labels transport =
        points.labels transport ++ [("metrics_type", k.name)] := rfl
    have hne : (points.labels transport).map (fun l => l.1 ++ "=" ++ l.2) ≠ [] :=
      List.cons_ne_nil _ _
    rw [hname, String.append_left_inj, String.append_right_inj, hlabels, hlabels, List.map_append,
      List.map_append, List.map_singleton, List.map_singleton, intercalate_concat _ _ hne,
      intercalate_concat _ _ hne, String.append_right_inj, String.append_right_inj] at h
    rw [Kind.name_injective h]

end Counter

def Event.added (e : Event) (c : Counter) : UInt64 :=
  ((e.increments.filter fun i => i.1 = c).map Prod.snd).sum

namespace Recorder

def showing (f : Counter → UInt64) : Recorder := Counter.all.map fun c => (c, f c)

theorem initial_eq : initial = showing fun _ => 0 := rfl

theorem showing_add (f : Counter → UInt64) (c : Counter) (n : UInt64) :
    (showing f).add c n = showing fun d => f d + if c = d then n else 0 := by
  rw [add_eq, showing, showing, List.map_map]
  apply List.map_congr_left
  intro d _
  by_cases hd : d = c
  · simp [hd]
  · simp [hd, Ne.symm hd]

theorem showing_record (f : Counter → UInt64) (e : Event) :
    (showing f).record e = showing fun c => f c + e.added c := by
  rw [record]
  unfold Event.added
  generalize e.increments = is
  induction is generalizing f with
  | nil => simp
  | cons i is ih =>
    rw [List.foldl_cons, showing_add, ih]
    congr 1
    funext c
    by_cases hc : i.1 = c <;> simp [hc, add_assoc]

end Recorder

namespace Snapshot

/-- The number that answers to a counter. -/
def shown (s : Snapshot) : Counter → UInt64
  | .points => s.totalPoints
  | .pointsOf kind => s.points kind
  | .sampledOut => s.sampledOut
  | .rejected => s.rejected
  | .oversized => s.oversized
  | .packetsSent => s.packetsSent
  | .bytesSent => s.bytesSent
  | .packetsDropped => s.packetsDropped
  | .bytesDropped => s.bytesDropped
  | .packetsDroppedAtQueue => s.packetsDroppedAtQueue
  | .bytesDroppedAtQueue => s.bytesDroppedAtQueue
  | .packetsDroppedByWriter => s.packetsDroppedByWriter
  | .bytesDroppedByWriter => s.bytesDroppedByWriter

theorem points_addPoints (s : Snapshot) (n : UInt64) (kind k : Kind) :
    (s.addPoints n kind).points k = s.points k + if kind = k then n else 0 := by
  cases kind <;> cases k <;> simp [addPoints, points]

theorem totalPoints_addPoints (s : Snapshot) (n : UInt64) (kind : Kind) :
    (s.addPoints n kind).totalPoints = s.totalPoints + n := by
  cases kind <;> simp [addPoints, totalPoints] <;> ac_rfl

theorem shown_record (s : Snapshot) (e : Event) (c : Counter) :
    (s.record e).shown c = s.shown c + e.added c := by
  cases e with
  | points kind n =>
    have htotal := s.totalPoints_addPoints n kind
    have hpoints := s.points_addPoints n kind
    cases c with
    | points => simp [record, shown, Event.added, Event.increments, htotal]
    | pointsOf k =>
      rw [record, shown, shown, hpoints]
      by_cases hk : kind = k <;> simp [Event.added, Event.increments, hk]
    | _ =>
      cases kind <;>
        simp [record, shown, Event.added, Event.increments, addPoints, packetsDropped, bytesDropped]
  | _ =>
    cases c with
    | pointsOf k => cases k <;> simp [record, shown, Event.added, Event.increments, points]
    | _ =>
      simp [record, shown, Event.added, Event.increments, totalPoints, packetsDropped,
        bytesDropped] <;> ac_rfl

theorem toNat_totalPoints (s : Snapshot) :
    s.totalPoints.toNat = (Kind.all.map fun k => (s.points k).toNat).sum % UInt64.size := by
  simp only [totalPoints, Kind.all, List.map_cons, List.map_nil, List.sum_cons, List.sum_nil,
    points, UInt64.toNat_add, UInt64.size]
  omega

end Snapshot

def report (transport : String) (t : Telemetry) : List (String × UInt64) :=
  t.recorder.map fun e => (e.1.key transport, e.2)

theorem lookup_report {t : Telemetry} {f : Counter → UInt64} (h : t.recorder = .showing f)
    (transport : String) (c : Counter) :
    (t.report transport).lookup (c.key transport) = some (f c) := by
  have hmem := c.mem_all
  rw [report, h, Recorder.showing, List.map_map]
  generalize Counter.all = cs at hmem
  induction cs with
  | nil => exact absurd hmem List.not_mem_nil
  | cons d cs ih =>
    rw [List.map_cons, Function.comp_apply, List.lookup_cons]
    by_cases hd : c = d
    · simp [hd]
    · have hk : (c.key transport == d.key transport) = false :=
        beq_eq_false_iff_ne.mpr fun he => hd (Counter.key_injective transport he)
      rw [hk]
      exact ih ((List.mem_cons.mp hmem).resolve_left hd)

theorem recorder_record {t : Telemetry} (h : t.recorder = .showing t.counts.shown) (e : Event) :
    (t.record e).recorder = .showing (t.record e).counts.shown := by
  have hs : (t.record e).counts.shown = fun c => t.counts.shown c + e.added c :=
    funext fun c => t.counts.shown_record e c
  rw [hs, record, h, Recorder.showing_record]

theorem recorder_foldl {t : Telemetry} (h : t.recorder = .showing t.counts.shown)
    (es : List Event) :
    (es.foldl record t).recorder = .showing (es.foldl record t).counts.shown := by
  induction es generalizing t with
  | nil => exact h
  | cons e es ih => exact ih (recorder_record h e)

theorem shown_foldl (t : Telemetry) (es : List Event) (c : Counter) :
    (es.foldl record t).counts.shown c = t.counts.shown c + (es.map fun e => e.added c).sum := by
  induction es generalizing t with
  | nil => simp
  | cons e es ih =>
    rw [List.foldl_cons, ih, List.map_cons, List.sum_cons, ← add_assoc]
    congr 1
    exact t.counts.shown_record e c

theorem shown_initial (c : Counter) : ({} : Snapshot).shown c = 0 := by
  cases c with
  | pointsOf kind => cases kind <;> rfl
  | _ => rfl

/-- Whatever was counted so far, the recorder has just the registered counters, under keys that are
all different, and each shows what the snapshot has for it: the number of its cause, and for the
points, the dropped packets and the dropped bytes in all the sum of their parts, modulo the size of
a word. That is what all events together add to the counter. -/
theorem counters_mirrored (transport : String) (es : List Event) :
    let t : Telemetry := es.foldl record {}
    let s := t.counts
    (t.report transport).map Prod.fst = Counter.all.map (Counter.key transport) ∧
      ((t.report transport).map Prod.fst).Nodup ∧
      (∀ c : Counter, (t.report transport).lookup (c.key transport) = some (s.shown c)) ∧
      (∀ c : Counter, s.shown c = (es.map fun e => e.added c).sum) ∧
      (s.shown .points).toNat =
        (Kind.all.map fun k => (s.points k).toNat).sum % UInt64.size ∧
      (s.shown .packetsDropped).toNat =
        (s.packetsDroppedAtQueue.toNat + s.packetsDroppedByWriter.toNat) % UInt64.size ∧
      (s.shown .bytesDropped).toNat =
        (s.bytesDroppedAtQueue.toNat + s.bytesDroppedByWriter.toNat) % UInt64.size := by
  intro t s
  have hstart : ({} : Telemetry).recorder = .showing ({} : Telemetry).counts.shown :=
    Recorder.initial_eq.trans (congrArg Recorder.showing (funext fun c => (shown_initial c).symm))
  have hshow : t.recorder = .showing s.shown := recorder_foldl hstart es
  have hkeys : (t.report transport).map Prod.fst = Counter.all.map (Counter.key transport) := by
    rw [report, hshow, Recorder.showing, List.map_map, List.map_map]
    rfl
  refine ⟨hkeys, ?_, lookup_report hshow transport, ?_, s.toNat_totalPoints,
    UInt64.toNat_add _ _, UInt64.toNat_add _ _⟩
  · rw [hkeys]
    exact (by decide : Counter.all.Nodup).map (Counter.key_injective transport)
  · intro c
    rw [shown_foldl, shown_initial, zero_add]

end Telemetry
end MetricPipeline
