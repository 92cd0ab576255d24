import MetricPipeline.Client.Session
import MetricPipeline.Proofs.Stream

namespace MetricPipeline

/-- From buffers `bs` to buffers `bs'` the lines were added and the payloads handed over: together,
the payloads and the buffers `bs'` hold what `bs` held and the lines, cut between lines only. -/
def CarriedAll (bs : List Buffer) (lines : List Bytes) (bs' payloads : List Buffer) : Prop :=
  ∀ held : List (List Bytes), bs.map Buffer.bytes = held.map List.flatten →
    ∃ groups last : List (List Bytes),
      payloads.map Buffer.bytes = groups.map List.flatten ∧
        bs'.map Buffer.bytes = last.map List.flatten ∧
          (groups.flatten ++ last.flatten).Perm (held.flatten ++ lines)

namespace CarriedAll

variable {bs bs' bs'' : List Buffer} {lines lines' : List Bytes} {payloads payloads' : List Buffer}

theorem refl (bs : List Buffer) : CarriedAll bs [] bs [] := by
  intro held hb
  exact ⟨[], held, rfl, hb, by simp⟩

theorem trans (h : CarriedAll bs lines bs' payloads) (h' : CarriedAll bs' lines' bs'' payloads') :
    CarriedAll bs (lines ++ lines') bs'' (payloads ++ payloads') := by
  intro held hb
  obtain ⟨groups, last, hp, hl, hg⟩ := h held hb
  obtain ⟨groups', last', hp', hl', hg'⟩ := h' last hl
  refine ⟨groups ++ groups', last', by simp [hp, hp'], hl', ?_⟩
  -- The lines in between are taken from the first part and handed to the second.
  calc
    ((groups ++ groups').flatten ++ last'.flatten).Perm
        (groups.flatten ++ (groups'.flatten ++ last'.flatten)) := by simp
    _ |>.Perm (groups.flatten ++ (last.flatten ++ lines')) := hg'.append_left _
    _ |>.Perm ((groups.flatten ++ last.flatten) ++ lines') := by simp
    _ |>.Perm ((held.flatten ++ lines) ++ lines') := hg.append_right _
    _ |>.Perm (held.flatten ++ (lines ++ lines')) := by simp

theorem cons (b : Buffer) (h : CarriedAll bs lines bs' payloads) :
    CarriedAll (b :: bs) lines (b :: bs') payloads := by
  intro held hb
  match held with
  | [] => simp at hb
  | first :: held =>
    simp only [List.map_cons, List.cons.injEq] at hb
    obtain ⟨groups, last, hp, hl, hg⟩ := h held hb.2
    refine ⟨groups, first :: last, hp, by simp [hb.1, hl], ?_⟩
    rw [List.perm_iff_count] at hg ⊢
    intro line
    have hc := hg line
    simp only [List.flatten_cons, List.count_append] at hc ⊢
    omega

end CarriedAll

theorem Carried.head {b b' : Buffer} {lines : List Bytes} {payloads : List Buffer}
    (h : Carried b lines b' payloads) (bs : List Buffer) :
    CarriedAll (b :: bs) lines (b' :: bs) payloads := by
  intro held hb
  match held with
  | [] => simp at hb
  | first :: held =>
    simp only [List.map_cons, List.cons.injEq] at hb
    obtain ⟨groups, last, hp, hl, hg⟩ := h first hb.1
    refine ⟨groups, last :: held, hp, by simp [hb.2, hl], ?_⟩
    rw [List.perm_iff_count]
    intro line
    have hc := congrArg (List.count line) hg
    simp only [List.flatten_cons, List.count_append] at hc ⊢
    omega

/-- What one of the buffers carries, all of them carry. -/
theorem Carried.set {b b' : Buffer} {lines : List Bytes} {payloads bs : List Buffer} {i : Nat}
    (hi : bs[i]? = some b) (h : Carried b lines b' payloads) :
    CarriedAll bs lines (bs.set i b') payloads := by
  induction bs generalizing i with
  | nil => simp at hi
  | cons c bs ih =>
    cases i with
    | zero =>
      obtain rfl : c = b := by simpa using hi
      exact h.head bs
    | succ i => exact (ih (by simpa using hi)).cons c

namespace Packer

variable {σ ω : Type} [WordSource σ] [Outlet ω]

theorem flush_bytes (p : Packer) (w : ω) : (p.flush w).1.current.bytes = [] := by
  rw [flush]
  split
  · rename_i h
    simpa [Buffer.isEmpty] using h
  · exact Blank.bytes_nil _

theorem flush_of_blank {p : Packer} (h : p.current.bytes = []) (w : ω) : p.flush w = (p, w) := by
  simp [flush, Buffer.isEmpty, h]

end Packer

namespace Client

variable {ω ω' : Type} [Outlet ω] [Outlet ω']

theorem createShards_blank (n : Nat) (w : ω) :
    ∀ p ∈ (createShards n w).1, p.current.bytes = [] := by
  induction n generalizing w with
  | zero => simp [createShards]
  | succ n ih =>
    intro p hp
    rcases List.mem_cons.mp hp with rfl | hp
    · exact Blank.bytes_nil _
    · exact ih _ p hp

theorem createShards_kept {I : ω → Prop} (hI : ∀ w, I w → I (Outlet.borrow w).2) (n : Nat) {w : ω}
    (h : I w) : I (createShards n w).2 := by
  induction n generalizing w with
  | zero => exact h
  | succ n ih => exact ih (hI w h)

theorem flushShards_blank (ps : List Packer) (w : ω) :
    ∀ p ∈ (flushShards ps w).1, p.current.bytes = [] := by
  induction ps generalizing w with
  | nil => simp [flushShards]
  | cons p ps ih =>
    intro q hq
    rcases List.mem_cons.mp hq with rfl | hq
    · exact p.flush_bytes w
    · exact ih _ q hq

theorem flushShards_of_blank {ps : List Packer} (h : ∀ p ∈ ps, p.current.bytes = []) (w : ω) :
    flushShards ps w = (ps, w) := by
  induction ps with
  | nil => rfl
  | cons p ps ih =>
    rw [flushShards, Packer.flush_of_blank (h p List.mem_cons_self)]
    simp only [ih fun q hq => h q (List.mem_cons_of_mem _ hq)]

theorem flushShards_carried (ps : List Packer) (t : Traced ω) :
    ∃ payloads, (flushShards ps t).2.handed = t.handed ++ payloads ∧
      CarriedAll (ps.map Packer.current) [] ((flushShards ps t).1.map Packer.current) payloads := by
  induction ps generalizing t with
  | nil => exact ⟨[], by simp [flushShards], CarriedAll.refl _⟩
  | cons p ps ih =>
    obtain ⟨payloads, hh, hc⟩ := p.flush_carried t
    obtain ⟨payloads', hh', hc'⟩ := ih (p.flush t).2
    refine ⟨payloads ++ payloads', ?_, ?_⟩
    · rw [← List.append_assoc, ← hh, ← hh']
      rfl
    · exact (hc.head _).trans (hc'.cons _)

theorem flushShards_view (v : OutletView ω ω') (ps : List Packer) (w : ω) :
    flushShards ps (v.view w) = ((flushShards ps w).1, v.view (flushShards ps w).2) := by
  induction ps generalizing w with
  | nil => rfl
  | cons p ps ih => simp only [flushShards, v.flush_view, ih]

theorem flushShards_kept {I : ω → Prop} (hI : Outlet.Keeps I) (ps : List Packer) {w : ω}
    (h : I w) : I (flushShards ps w).2 := by
  induction ps generalizing w with
  | nil => exact h
  | cons p ps ih => exact ih (hI.flush p h)

end Client
end MetricPipeline
