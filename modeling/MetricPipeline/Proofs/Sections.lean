import MetricPipeline.Proofs.Layouts
import MetricPipeline.Proofs.Rounds

namespace MetricPipeline

namespace Section

def texts (bytes : Bytes) : List (List Char) :=
  ((bytes.map fun b => Char.ofNat b.toNat).splitOn ':').tail

def numerals? (bytes : Bytes) : Option (List Numeral) := (texts bytes).mapM Numeral.read?

def floats? (bytes : Bytes) : Option (List Binary64) := (numerals? bytes).map (·.map Numeral.value)

def integer? (n : Numeral) : Option Int64 :=
  if n.places = 0 then
    some (Int64.ofInt (if n.negative then -(n.coefficient : Int) else n.coefficient))
  else none

def integers? (bytes : Bytes) : Option (List Int64) := (numerals? bytes).bind (·.mapM integer?)

theorem map_utf8 {cs : List Char} (h : ∀ c ∈ cs, c.toNat < 128) :
    (utf8 cs).map (fun b => Char.ofNat b.toNat) = cs := by
  induction cs with
  | nil => rfl
  | cons c cs ih =>
    have hc : c.toNat < 128 := h c List.mem_cons_self
    have hbyte : String.utf8EncodeChar c = [UInt8.ofNat c.toNat] := by
      rw [String.utf8EncodeChar.eq_1]
      exact if_pos (Nat.le_of_lt_succ hc)
    have hchar : Char.ofNat (UInt8.ofNat c.toNat).toNat = c := by
      rw [UInt8.toNat_ofNat_of_lt' (by simp only [UInt8.size]; omega), Char.ofNat_toNat]
    have ih := ih fun d hd => h d (List.mem_cons_of_mem c hd)
    rw [utf8] at ih ⊢
    rw [List.flatMap_cons, hbyte, List.map_append, List.map_singleton, hchar, ih]
    rfl

theorem splitOn_flatMap {pre : List Char} (hpre : ':' ∉ pre) {ts : List (List Char)}
    (h : ∀ t ∈ ts, ':' ∉ t) : (pre ++ ts.flatMap (':' :: ·)).splitOn ':' = pre :: ts := by
  induction ts generalizing pre with
  | nil => rw [List.flatMap_nil, List.append_nil, List.splitOn_eq_singleton hpre]
  | cons t ts ih =>
    have ih := ih (h t List.mem_cons_self) fun u hu => h u (List.mem_cons_of_mem t hu)
    rw [List.flatMap_cons, List.cons_append, List.splitOn_append_cons_self_of_not_mem hpre, ih]

/-- Texts of ASCII characters other than the colon are found again. -/
theorem texts_values {ts : List (List Char)} (h : ∀ t ∈ ts, ∀ c ∈ t, c.toNat < 128 ∧ c ≠ ':') :
    texts (Frame.values (ts.map utf8)) = ts := by
  have hbytes : Frame.values (ts.map utf8) = utf8 (ts.flatMap (':' :: ·)) := by
    simp [Frame.values, ascii, utf8, List.flatMap_map, List.flatMap_assoc]
  have hascii : ∀ c ∈ ts.flatMap (':' :: ·), c.toNat < 128 := by
    intro c hc
    obtain ⟨t, ht, hc⟩ := List.mem_flatMap.mp hc
    rcases List.mem_cons.mp hc with rfl | hc
    · decide
    · exact (h t ht c hc).1
  have hcolon : ∀ t ∈ ts, ':' ∉ t := fun t ht hc => (h t ht ':' hc).2 rfl
  have hsplit := splitOn_flatMap List.not_mem_nil hcolon
  rw [List.nil_append] at hsplit
  rw [texts, hbytes, map_utf8 hascii, hsplit, List.tail_cons]

theorem mem_text {n : Numeral} {c : Char} (hc : c ∈ n.text) : c.toNat < 128 ∧ c ≠ ':' := by
  have hcases : c = '-' ∨ c = '.' ∨ c.isDigit = true := by
    rw [Numeral.text_eq, Numeral.unsigned] at hc
    rcases List.mem_append.mp hc with hc | hc
    · split at hc
      · exact .inl (List.mem_singleton.mp hc)
      · exact absurd hc List.not_mem_nil
    · rcases List.mem_append.mp hc with hc | hc
      · exact .inr (.inr (Numeral.isDigit_of_mem_whole hc))
      · split at hc
        · exact absurd hc List.not_mem_nil
        · rcases List.mem_cons.mp hc with hc | hc
          · exact .inr (.inl hc)
          · exact .inr (.inr (isDigit_of_mem_lastDigits hc))
  rcases hcases with rfl | rfl | hdigit
  · decide
  · decide
  · have hrange := toNat_of_isDigit hdigit
    refine ⟨by omega, ?_⟩
    rintro rfl
    exact absurd hrange.2 (by decide)

theorem mapM_eq_some {α β : Type} {f : α → Option β} {as : List α} {bs : List β}
    (h : as.map f = bs.map some) : as.mapM f = some bs := by
  induction as generalizing bs with
  | nil =>
    obtain rfl : bs = [] := by simpa using h.symm
    rfl
  | cons a as ih =>
    cases bs with
    | nil => cases h
    | cons b bs =>
      obtain ⟨ha, has⟩ := List.cons.inj h
      rw [List.mapM_cons, ha, ih has]
      rfl

theorem numerals?_values (ns : List Numeral) :
    numerals? (Frame.values (ns.map fun n => utf8 n.text)) = some ns := by
  have htexts : texts (Frame.values ((ns.map Numeral.text).map utf8)) = ns.map Numeral.text := by
    apply texts_values
    intro t ht c hc
    obtain ⟨n, -, rfl⟩ := List.mem_map.mp ht
    exact mem_text hc
  rw [List.map_map] at htexts
  have hread : (ns.map Numeral.text).map Numeral.read? = ns.map some := by
    rw [List.map_map]
    exact List.map_congr_left fun n _ => Numeral.read?_text n
  rw [numerals?, ← mapM_eq_some hread, ← htexts]
  rfl

theorem floats?_values {vs : List Binary64} (h : ∀ v ∈ vs, v.isFinite = true) :
    floats? (Frame.values (vs.map fun v => utf8 v.shortestText)) = some vs := by
  have hpoints : (vs.map fun v => utf8 v.shortestText) =
      (vs.map Binary64.shortest).map fun n => utf8 n.text := by
    rw [List.map_map]
    apply List.map_congr_left
    intro v hv
    rw [Binary64.shortestText, if_pos (h v hv), Function.comp_apply]
  have hvalues : (vs.map Binary64.shortest).map Numeral.value = vs := by
    rw [List.map_map]
    exact (List.map_congr_left fun v hv => Binary64.value_shortest (h v hv)).trans (List.map_id vs)
  rw [floats?, hpoints, numerals?_values, Option.map_some, hvalues]

def ofInt (n : Int) : Numeral := ⟨n < 0, n.natAbs, 0⟩

theorem text_ofInt (n : Int) : (ofInt n).text = integerText n := by
  have hone : tenPow 0 = 1 := rfl
  rw [Numeral.text_eq, Numeral.unsigned, Numeral.whole, ofInt, integerText, hone, Nat.div_one]
  by_cases h : n < 0 <;> simp [h]

theorem integer?_ofInt (n : Int64) : integer? (ofInt n.toInt) = some n := by
  have habs : (if (ofInt n.toInt).negative then -((ofInt n.toInt).coefficient : Int)
      else (ofInt n.toInt).coefficient) = n.toInt := by
    simp only [ofInt, decide_eq_true_eq]
    split <;> omega
  rw [integer?, habs, Int64.ofInt_toInt]
  exact if_pos rfl

theorem integers?_values (ns : List Int64) :
    integers? (Frame.values (ns.map fun n => utf8 (integerText n.toInt))) = some ns := by
  have hpoints : (ns.map fun n => utf8 (integerText n.toInt)) =
      (ns.map fun n => ofInt n.toInt).map fun n => utf8 n.text := by
    rw [List.map_map]
    apply List.map_congr_left
    intro n _
    rw [Function.comp_apply, text_ofInt]
  have hread : (ns.map fun n => ofInt n.toInt).map integer? = ns.map some := by
    rw [List.map_map]
    exact List.map_congr_left fun n _ => integer?_ofInt n
  rw [integers?, hpoints, numerals?_values, Option.bind_some, mapM_eq_some hread]

/-- Floating-point samples are written with the fewest digits, whatever kind they are of. -/
theorem points_eq {value : Value} (h : value.kind ∈ [.gauge, .histogram, .distribution]) :
    value.points = value.numbers.map fun v => utf8 v.shortestText := by
  cases value with
  | count | set | timing => simp [Value.kind] at h
  | _ => rfl

theorem bytes_write {b : Buffer} {f : Frame} {points : List Bytes} (h : 0 < b.room f points) :
    (b.write f points).2.bytes =
      b.bytes ++ (f.header ++ Frame.values (points.take (b.room f points)) ++ f.trailer) := by
  rw [Buffer.write_of_room_pos h]
  rfl

theorem floats?_written {value : Value} (hk : value.kind ∈ [.gauge, .histogram, .distribution])
    (hv : ∀ v ∈ value.numbers, v.isFinite = true) (start k : Nat) :
    floats? (Frame.values ((value.points.drop start).take k)) =
      some ((value.numbers.drop start).take k) := by
  rw [points_eq hk, ← List.map_drop, ← List.map_take]
  apply floats?_values
  intro v hmem
  exact hv v (List.mem_of_mem_drop (List.mem_of_mem_take hmem))

theorem integers?_written {b : Buffer} {f : Frame} {n : Int64} {start : Nat}
    (h : 0 < b.room f ((Value.count n).points.drop start)) :
    integers? (Frame.values (((Value.count n).points.drop start).take
      (b.room f ((Value.count n).points.drop start)))) = some [n] := by
  have hle := b.room_le f ((Value.count n).points.drop start)
  have hlen : ((Value.count n).points.drop start).length = 1 - start := List.length_drop
  obtain rfl : start = 0 := by omega
  have hall : ((Value.count n).points.drop 0).take (b.room f ((Value.count n).points.drop 0)) =
      [n].map fun n => utf8 (integerText n.toInt) := List.take_of_length_le (by omega)
  rw [hall, integers?_values]

end Section

open Section in
/-- A finite number is written in the plain form, with its sign, so that rounding to the nearest
number gives it back bit for bit, and with the fewest digits that do. Whatever shortest digits the
two layouts are made of, the choice between them comes out so. A section of such numbers, or of
whole numbers, determines them, and so does a section that is written into a buffer. -/
theorem sections_decodable :
    (∀ x : Binary64, x.isFinite = true → Represents x.shortestText x ∧
      ∃ d : Decimal, d.IsShortest x ∧ x.shortestText =
        Decimal.pick (Decimal.signed x.negative d.compact)
          (Decimal.signed x.negative d.expanded)) ∧
      (∀ (x : Binary64) (d d' : Decimal), d.IsShortest x → d'.IsShortest x →
        Represents (Decimal.pick (Decimal.signed x.negative d.compact)
          (Decimal.signed x.negative d'.expanded)) x) ∧
      (∀ (x : Binary64) (n : Numeral), x.isFinite = true →
        (n.value = x ↔ n.negative = x.negative ∧ Binary64.RoundsTo n.magnitude x)) ∧
      (∀ vs ws : List Binary64, (∀ v ∈ vs, v.isFinite = true) → (∀ w ∈ ws, w.isFinite = true) →
        Frame.values (vs.map fun v => utf8 v.shortestText) =
          Frame.values (ws.map fun w => utf8 w.shortestText) → vs = ws) ∧
      (∀ ms ns : List Int64, Frame.values (ms.map fun m => utf8 (integerText m.toInt)) =
        Frame.values (ns.map fun n => utf8 (integerText n.toInt)) → ms = ns) ∧
      ∀ (b : Buffer) (f : Frame) (value : Value) (start : Nat),
        0 < b.room f (value.points.drop start) → ∃ bytes : Bytes,
          (b.write f (value.points.drop start)).2.bytes =
              b.bytes ++ (f.header ++ bytes ++ f.trailer) ∧
            (value.kind ∈ [.gauge, .histogram, .distribution] →
              (∀ v ∈ value.numbers, v.isFinite = true) →
              floats? bytes =
                some ((value.numbers.drop start).take (b.room f (value.points.drop start)))) ∧
            ∀ n : Int64, value = .count n → integers? bytes = some [n] := by
  refine ⟨fun x hx => ⟨x.represents_shortestText hx, ?_⟩, fun x d d' => Decimal.represents_pick,
    fun x n => n.value_eq_iff, fun vs ws hv hw h => ?_, fun ms ns h => ?_,
    fun b f value start hroom => ⟨_, bytes_write hroom, fun hk hv => floats?_written hk hv _ _, ?_⟩⟩
  · obtain ⟨d, hd, hshortest⟩ := Binary64.exists_isShortest hx
    refine ⟨d, hd, ?_⟩
    rw [Decimal.pick_eq x.negative hd.mod_ten, ite_self, Binary64.shortestText, if_pos hx,
      hshortest]
  · have hread := floats?_values hv
    rw [h, floats?_values hw] at hread
    exact (Option.some.inj hread).symm
  · have hread := integers?_values ms
    rw [h, integers?_values ns] at hread
    exact (Option.some.inj hread).symm
  · rintro n rfl
    exact integers?_written hroom

end MetricPipeline
