import MetricPipeline.Proofs.Newlines

namespace MetricPipeline

def stripped (s : String) : String := String.ofList (oneLine s)

@[simp] theorem oneLine_stripped (s : String) : oneLine (stripped s) = oneLine s := by
  simp [stripped, oneLine]

@[simp] theorem written_stripped (s : String) : written (stripped s) = written s := by
  simp [written]

theorem stripped_eq_empty_iff {s : String} : stripped s = "" ↔ oneLine s = [] := by
  rw [← String.toList_inj]
  simp [stripped]

def Rejection.stripped : Rejection → Rejection
  | emptyName => emptyName
  | emptyValues name => emptyValues (MetricPipeline.stripped name)
  | nonFiniteValue name => nonFiniteValue (MetricPipeline.stripped name)

namespace Value

def stripped : Value → Value
  | set member => set (MetricPipeline.stripped member)
  | histogramBatch samples tags => histogramBatch samples (MetricPipeline.stripped tags)
  | distributionBatch samples tags => distributionBatch samples (MetricPipeline.stripped tags)
  | v => v

/-- Whether the value is a batch whose joined tags are newlines, at least one, and nothing else. -/
def hasBlankTags (v : Value) : Bool :=
  v.joinedTags?.any fun tags => tags ≠ "" && (oneLine tags).isEmpty

variable (v : Value)

@[simp] theorem kind_stripped : v.stripped.kind = v.kind := by
  cases v <;> rfl

@[simp] theorem size_stripped : v.stripped.size = v.size := by
  cases v <;> rfl

@[simp] theorem numbers_stripped : v.stripped.numbers = v.numbers := by
  cases v <;> rfl

theorem joinedTags?_stripped :
    v.stripped.joinedTags? = v.joinedTags?.map MetricPipeline.stripped := by
  cases v <;> rfl

theorem points_stripped : v.stripped.points = v.points := by
  cases v <;> simp [stripped, points]

theorem hasBlankTags_iff {v : Value} :
    v.hasBlankTags = true ↔ ∃ tags, v.joinedTags? = some tags ∧ tags ≠ "" ∧ oneLine tags = [] := by
  cases h : v.joinedTags? <;> simp [hasBlankTags, h]

end Value

section Tags

variable (tags : List String)

theorem tagSection_map_stripped : tagSection (tags.map stripped) = tagSection tags := by
  cases tags with
  | nil => rfl
  | cons tag tags => simp [tagSection, List.flatMap_map]

theorem length_tagSection_lt : (tagSection tags).length < (tagSection (tags ++ [""])).length := by
  cases tags with
  | nil => decide
  | cons tag tags =>
    have hc : 0 < (ascii "," ++ written "").length := by decide
    simp only [tagSection, List.cons_append, List.flatMap_append, List.flatMap_singleton,
      List.length_append] at hc ⊢
    omega

end Tags

namespace Metric

def stripped (m : Metric) : Metric where
  name := MetricPipeline.stripped m.name
  value := m.value.stripped
  scope := MetricPipeline.stripped m.scope
  globalTags := m.globalTags.map MetricPipeline.stripped
  tags := m.tags.map MetricPipeline.stripped
  rate := m.rate

variable (m : Metric)

theorem rejection?_stripped : m.stripped.rejection? = m.rejection?.map Rejection.stripped := by
  simp only [rejection?, stripped, oneLine_stripped, Value.size_stripped, Value.numbers_stripped]
  split
  · rfl
  · split
    · rfl
    · split <;> rfl

theorem isOk_prepare : m.prepare.isOk = m.rejection?.isNone := by
  rw [prepare]
  cases m.rejection? <;> rfl

theorem header_stripped : m.stripped.header = m.header := by
  simp [header, stripped]

theorem writtenTags_stripped (h : m.value.hasBlankTags = false) :
    m.stripped.writtenTags = m.writtenTags.map MetricPipeline.stripped := by
  simp only [writtenTags, stripped, Value.joinedTags?_stripped, List.map_append]
  congr 1
  cases hj : m.value.joinedTags? with
  | none => rfl
  | some joined =>
    -- The only place where a text is tested for being empty before its newlines are removed.
    by_cases he : joined = ""
    · subst he
      rfl
    · have hs : MetricPipeline.stripped joined ≠ "" := by
        intro hs
        have hb := Value.hasBlankTags_iff.mpr ⟨joined, hj, he, stripped_eq_empty_iff.mp hs⟩
        simp [h] at hb
      simp [he, hs]

theorem trailer_stripped (h : m.value.hasBlankTags = false) : m.stripped.trailer = m.trailer := by
  simp only [trailer, m.writtenTags_stripped h, tagSection_map_stripped]
  simp [stripped]

/-- Joined tags that are only newlines are one more tag, and none once stripped. -/
theorem trailer_of_hasBlankTags (h : m.value.hasBlankTags = true) :
    let beforeTags := m.value.kind.marker ++ rateSection m.rate
    m.trailer = beforeTags ++ tagSection (m.globalTags ++ [""]) ++ [newline] ∧
      m.stripped.trailer = beforeTags ++ tagSection m.globalTags ++ [newline] := by
  obtain ⟨joined, hj, hne, hb⟩ := Value.hasBlankTags_iff.mp h
  have hs : MetricPipeline.stripped joined = "" := stripped_eq_empty_iff.mpr hb
  have hw : m.writtenTags = m.globalTags ++ [joined] := by simp [writtenTags, hj, hne]
  have hw' : m.stripped.writtenTags = m.globalTags.map MetricPipeline.stripped := by
    simp [writtenTags, stripped, Value.joinedTags?_stripped, hj, hs]
  refine ⟨?_, ?_⟩
  · rw [trailer, hw, ← tagSection_map_stripped, List.map_append, List.map_singleton, hs,
      ← tagSection_map_stripped (m.globalTags ++ [""]), List.map_append]
    rfl
  · rw [trailer, hw', tagSection_map_stripped]
    simp [stripped]

/-- Stripped of the newlines in its texts, a metric is accepted or rejected as before, with the same
header and points. The trailer is the same just when the tags of a batch were not newlines alone;
these stand in the line as an empty tag, which goes with them. -/
theorem stripped_transparent :
    m.stripped.prepare.isOk = m.prepare.isOk ∧
      m.stripped.frame.header = m.frame.header ∧
      m.stripped.value.points = m.value.points ∧
      (m.stripped.frame.trailer = m.frame.trailer ↔ m.value.hasBlankTags = false) ∧
      (m.value.hasBlankTags = false →
        m.stripped.prepare = m.prepare.mapError Rejection.stripped) ∧
      (m.value.hasBlankTags = true →
        let beforeTags := m.value.kind.marker ++ rateSection m.rate
        m.frame.trailer = beforeTags ++ tagSection (m.globalTags ++ [""]) ++ [newline] ∧
          m.stripped.frame.trailer = beforeTags ++ tagSection m.globalTags ++ [newline]) := by
  refine ⟨?_, m.header_stripped, m.value.points_stripped, ?_, ?_, m.trailer_of_hasBlankTags⟩
  · rw [isOk_prepare, isOk_prepare, rejection?_stripped, Option.isNone_map]
  · refine ⟨fun ht => ?_, m.trailer_stripped⟩
    by_contra hb
    obtain ⟨h₁, h₂⟩ := m.trailer_of_hasBlankTags (by simpa using hb)
    have hl := congrArg List.length ht
    simp only [frame, h₁, h₂, List.length_append] at hl
    have hlt := length_tagSection_lt m.globalTags
    omega
  · intro hb
    have hf : m.stripped.frame = m.frame := by
      rw [frame, frame, m.header_stripped, m.trailer_stripped hb]
    rw [prepare, prepare, rejection?_stripped, hf]
    cases m.rejection? <;> rfl

/-- The newline in this batch's tags leaves the mark of a tag section behind. -/
theorem stripped_newline_tags :
    let m : Metric := { name := "load", value := .histogramBatch [.one] "\n" }
    m.prepare = .ok ⟨ascii "load", ascii "|h|#\n"⟩ ∧
      m.stripped.prepare = .ok ⟨ascii "load", ascii "|h\n"⟩ := by
  decide +kernel

end Metric
end MetricPipeline
