import MetricPipeline.Proofs.Digits

namespace MetricPipeline.SocketAddress

theorem noDigit_cons {base : Nat} {c : Char} (h : hexValue? c = none) (rest : List Char) :
    NoDigit base (c :: rest) := by
  intro d hd
  obtain rfl : c = d := Option.some.inj hd
  exact digitIn?_eq_none h

theorem noDigit_nil (base : Nat) : NoDigit base [] := by
  intro c hc
  exact absurd hc (Option.not_mem_none c)

section Ipv4

variable {rest : List Char}

theorem readOctet_digits (o : UInt8) (hr : NoDigit 10 rest) :
    readOctet (digits o.toNat ++ rest) = some (o, rest) := by
  have hn : readNumber 10 UInt8.size (digits o.toNat ++ rest) = some (o.toNat, rest) :=
    readNumber_toDigits (by omega) (by omega) o.toNat_lt hr
  have hzero : ((digits o.toNat ++ rest).head? = some '0' &&
      (digits o.toNat ++ rest).length - rest.length != 1) = false := by
    rw [digits, List.head?_append_of_ne_nil _ Nat.toDigits_ne_nil]
    by_cases hz : (Nat.toDigits 10 o.toNat).head? = some '0'
    · have ho : o.toNat = 0 := head?_toDigits (by omega) hz
      rw [ho]
      simp
    · rw [decide_eq_false hz, Bool.false_and]
  rw [readOctet, hn]
  simp only [hzero, UInt8.ofNat_toNat]
  rfl

theorem exists_of_vector (v : Vector UInt8 4) : ∃ a b c d, v = #v[a, b, c, d] := by
  obtain ⟨⟨l⟩, hl⟩ := v
  match l, hl with
  | [a, b, c, d], _ => exact ⟨a, b, c, d, rfl⟩

theorem readIpv4_octetsText (v : Vector UInt8 4) (hr : NoDigit 10 rest) :
    readIpv4 (octetsText v.toList ++ rest) = some (v, rest) := by
  obtain ⟨a, b, c, d, rfl⟩ := exists_of_vector v
  have ht : octetsText #v[a, b, c, d].toList ++ rest =
      digits a.toNat ++ '.' :: (digits b.toNat ++ '.' :: (digits c.toNat ++ '.' ::
        (digits d.toNat ++ rest))) := by
    simp [octetsText, List.intercalate]
  have hdot (cs : List Char) : NoDigit 10 ('.' :: cs) := noDigit_cons (by decide) cs
  rw [ht, readIpv4]
  simp [readOctet_digits, hdot, hr, expect]

theorem mem_head?_dropWhile {p : Char → Bool} {c : Char} {t : List Char}
    (hr : rest.dropWhile p = rest) (hc : c ∈ ((t ++ rest).dropWhile p).head?) :
    c ∈ t ∨ c ∈ rest.head? := by
  induction t with
  | nil => exact .inr (hr ▸ hc)
  | cons d t ih =>
    rw [List.cons_append, List.dropWhile_cons] at hc
    split at hc
    · exact (ih hc).imp_left (List.mem_cons_of_mem d)
    · exact .inl (Option.some.inj hc ▸ List.mem_cons_self)

theorem readOctet_rest {cs left : List Char} {o : UInt8} (h : readOctet cs = some (o, left)) :
    left = cs.dropWhile fun c => (digitIn? 10 c).isSome := by
  rw [readOctet, readNumber] at h
  grind

theorem expect_of_head? {c : Char} {cs : List Char} (h : c ∉ cs.head?) : expect c cs = none := by
  cases cs with
  | nil => rfl
  | cons d cs =>
    refine if_neg fun hd => h ?_
    rw [hd]
    rfl

theorem readIpv4_of_no_dot {t : List Char} (ht : '.' ∉ t) (hd : '.' ∉ rest.head?)
    (hr : NoDigit 10 rest) : readIpv4 (t ++ rest) = none := by
  rw [readIpv4]
  cases ho : readOctet (t ++ rest) with
  | none => rfl
  | some r =>
    have hdot : expect '.' r.2 = none := by
      apply expect_of_head?
      rw [readOctet_rest ho]
      intro hc
      exact (mem_head?_dropWhile hr.dropWhile hc).elim ht hd
    simp [hdot]

end Ipv4

section Groups

/-- Neither a digit of a group nor a dot stands in front. -/
def EndsGroup (rest : List Char) : Prop := ∀ c ∈ rest.head?, hexValue? c = none ∧ c ≠ '.'

/-- No group comes, with or without a colon before it. -/
def EndsGroups (rest : List Char) : Prop :=
  EndsGroup rest ∧ ∀ left, rest = ':' :: left → EndsGroup left

theorem endsGroup_cons {c : Char} (h : hexValue? c = none) (hd : c ≠ '.') (rest : List Char) :
    EndsGroup (c :: rest) := by
  intro d hc
  obtain rfl : c = d := Option.some.inj hc
  exact ⟨h, hd⟩

theorem endsGroups_cons {c : Char} (h : hexValue? c = none) (hd : c ≠ '.') (hc : c ≠ ':')
    (rest : List Char) : EndsGroups (c :: rest) :=
  ⟨endsGroup_cons h hd rest, fun _ he => absurd (List.cons.inj he).1 hc⟩

variable {rest : List Char}

theorem EndsGroup.noDigit (h : EndsGroup rest) (base : Nat) : NoDigit base rest :=
  fun c hc => digitIn?_eq_none (h c hc).1

theorem EndsGroup.no_dot (h : EndsGroup rest) : '.' ∉ rest.head? := fun hc => (h '.' hc).2 rfl

theorem EndsGroup.readIpv4 (h : EndsGroup rest) : readIpv4 rest = none :=
  readIpv4_of_no_dot (t := []) List.not_mem_nil h.no_dot (h.noDigit 10)

theorem EndsGroup.readGroup (h : EndsGroup rest) : readGroup rest = none := by
  rw [SocketAddress.readGroup, (h.noDigit 16).readNumber]

theorem readGroup_groupText (g : UInt16) (hr : NoDigit 16 rest) :
    readGroup (groupText g ++ rest) = some (g, rest) := by
  have hn : readNumber 16 UInt16.size (groupText g ++ rest) = some (g.toNat, rest) :=
    readNumber_toDigits (by omega) (by omega) g.toNat_lt hr
  have hlen : (groupText g).length ≤ 4 :=
    (Nat.length_toDigits_le_iff (by omega) (by omega)).mpr g.toNat_lt
  rw [readGroup, hn]
  simp [hlen]

theorem no_dot_groupText (g : UInt16) : '.' ∉ groupText g := by
  intro hc
  obtain ⟨d, hd, he⟩ := exists_of_mem_toDigits (by omega) hc
  have hall : ∀ d : Fin 16, '.' ≠ d.val.digitChar := by decide
  exact hall ⟨d, hd⟩ he

def laterGroups (gs : List UInt16) : List Char := gs.flatMap fun g => ':' :: groupText g

theorem groupsText_cons (g : UInt16) (gs : List UInt16) :
    groupsText (g :: gs) = groupText g ++ laterGroups gs := by
  induction gs generalizing g with
  | nil => simp [groupsText, laterGroups, List.intercalate]
  | cons g' gs ih =>
    have hcons : groupsText (g :: g' :: gs) = groupText g ++ ':' :: groupsText (g' :: gs) := by
      simp [groupsText, List.intercalate]
    rw [hcons, ih, laterGroups, laterGroups, List.flatMap_cons, List.cons_append]

variable {n : Nat} {first : Bool} {cs : List Char}

theorem readGroups_of_ends
    (h : ∀ start, (if first then some cs else (expect ':' cs).map (·.2)) = some start →
      EndsGroup start) : readGroups n first cs = ([], false, cs) := by
  cases n with
  | zero => rfl
  | succ n =>
    rw [readGroups]
    split
    · rfl
    · rename_i start hs
      have he := h start hs
      simp [he.readIpv4, he.readGroup]

theorem readGroups_of_group {g : UInt16}
    (h : (if first then some cs else (expect ':' cs).map (·.2)) = some (groupText g ++ rest))
    (hr : EndsGroup rest) :
    readGroups (n + 1) first cs =
      (g :: (readGroups n false rest).1, (readGroups n false rest).2.1,
        (readGroups n false rest).2.2) := by
  have hv : readIpv4 (groupText g ++ rest) = none :=
    readIpv4_of_no_dot (no_dot_groupText g) hr.no_dot (hr.noDigit 10)
  rw [readGroups, h]
  simp [hv, readGroup_groupText g (hr.noDigit 16)]

theorem endsGroup_laterGroups (hr : EndsGroup rest) (gs : List UInt16) :
    EndsGroup (laterGroups gs ++ rest) := by
  cases gs with
  | nil => exact hr
  | cons g gs => exact endsGroup_cons (by decide) (by decide) _

theorem readGroups_laterGroups (gs : List UInt16) (hn : gs.length ≤ n) (hr : EndsGroups rest) :
    readGroups n false (laterGroups gs ++ rest) = (gs, false, rest) := by
  induction gs generalizing n with
  | nil =>
    apply readGroups_of_ends
    intro start hs
    obtain ⟨r, hx, rfl⟩ := Option.map_eq_some_iff.mp hs
    have hcolon : rest = ':' :: r.2 := by
      cases rest with
      | nil => exact absurd hx (by simp [laterGroups, expect])
      | cons c left =>
        simp only [laterGroups, expect, List.flatMap_nil, List.nil_append] at hx
        grind
    exact hr.2 r.2 hcolon
  | cons g gs ih =>
    obtain ⟨n, rfl⟩ : ∃ m, n = m + 1 := Nat.exists_eq_add_one.mpr (Nat.lt_of_lt_of_le (by simp) hn)
    have hstart : (if false then some (laterGroups (g :: gs) ++ rest)
        else (expect ':' (laterGroups (g :: gs) ++ rest)).map (·.2)) =
          some (groupText g ++ (laterGroups gs ++ rest)) := by
      simp [laterGroups, expect]
    rw [readGroups_of_group hstart (endsGroup_laterGroups hr.1 gs), ih (by simpa using hn)]

theorem readGroups_groupsText (gs : List UInt16) (hn : gs.length ≤ n) (hr : EndsGroups rest) :
    readGroups n true (groupsText gs ++ rest) = (gs, false, rest) := by
  cases gs with
  | nil =>
    apply readGroups_of_ends
    intro start hs
    obtain rfl : rest = start := Option.some.inj hs
    exact hr.1
  | cons g gs =>
    obtain ⟨n, rfl⟩ : ∃ m, n = m + 1 := Nat.exists_eq_add_one.mpr (Nat.lt_of_lt_of_le (by simp) hn)
    have hstart : (if true then some (groupsText (g :: gs) ++ rest)
        else (expect ':' (groupsText (g :: gs) ++ rest)).map (·.2)) =
          some (groupText g ++ (laterGroups gs ++ rest)) := by
      simp [groupsText_cons]
    rw [readGroups_of_group hstart (endsGroup_laterGroups hr.1 gs),
      readGroups_laterGroups gs (by simpa using hn) hr]

theorem eq_zeroRun_append (gs : List UInt16) :
    gs = List.replicate (zeroRun gs) 0 ++ gs.drop (zeroRun gs) := by
  induction gs with
  | nil => rfl
  | cons g gs ih =>
    by_cases hg : g = 0
    · have hz : zeroRun (g :: gs) = zeroRun gs + 1 := by simp [zeroRun, hg]
      rw [hz, List.replicate_succ, List.drop_succ_cons, List.cons_append, ← ih, hg]
    · simp [zeroRun, hg]

theorem zeroRun_le (gs : List UInt16) : zeroRun gs ≤ gs.length :=
  (List.takeWhile_prefix _).length_le

theorem longestRun_cons (g : UInt16) (gs : List UInt16) :
    longestRun (g :: gs) =
      if (longestRun gs).2 ≤ zeroRun (g :: gs) then (0, zeroRun (g :: gs))
      else ((longestRun gs).1 + 1, (longestRun gs).2) := rfl

theorem eq_longestRun_append (gs : List UInt16) :
    (longestRun gs).1 + (longestRun gs).2 ≤ gs.length ∧
      gs = gs.take (longestRun gs).1 ++ List.replicate (longestRun gs).2 0 ++
        gs.drop ((longestRun gs).1 + (longestRun gs).2) := by
  induction gs with
  | nil => exact ⟨le_rfl, rfl⟩
  | cons g gs ih =>
    rw [longestRun_cons]
    split
    · refine ⟨by simpa using zeroRun_le (g :: gs), ?_⟩
      simpa using eq_zeroRun_append (g :: gs)
    · have hsum : (longestRun gs).1 + 1 + (longestRun gs).2 =
          (longestRun gs).1 + (longestRun gs).2 + 1 := Nat.add_right_comm _ _ _
      refine ⟨by simpa [hsum] using ih.1, ?_⟩
      simpa [hsum] using ih.2

end Groups

section Ipv6

variable {rest : List Char}

theorem ofGroups?_toList (v : Vector UInt16 8) : ofGroups? v.toList = some v := by
  rw [ofGroups?, dif_pos v.length_toList]
  rfl

theorem exists_of_toList {v : Vector UInt16 8} (h : v.toList.take 6 = [0, 0, 0, 0, 0, 0xffff]) :
    ∃ g g', v.toList = [0, 0, 0, 0, 0, 0xffff, g, g'] := by
  have hl := v.length_toList
  have hd : (v.toList.drop 6).length = 2 := by rw [List.length_drop, hl]
  obtain ⟨g, g', hg⟩ := List.length_eq_two.mp hd
  refine ⟨g, g', ?_⟩
  rw [← List.take_append_drop 6 v.toList, h, hg]
  rfl

theorem group_octets (g : UInt16) (gs : List UInt8) : groups (octets g ++ gs) = g :: groups gs := by
  have hg : group (UInt8.ofNat (g.toNat / UInt8.size)) (UInt8.ofNat g.toNat) = g := by
    apply UInt16.toNat.inj
    have hlt : g.toNat < 65536 := g.toNat_lt
    simp only [group, UInt8.toNat_ofNat', UInt16.toNat_ofNat', UInt8.size]
    omega
  rw [octets, List.cons_append, List.cons_append, List.nil_append, groups, hg]

/-- Groups before and after `::`, which stands for the zeros between them. -/
theorem readIpv6_of_gap {v : Vector UInt16 8} {cs left : List Char} {front back : List UInt16}
    {embedded : Bool} (hfront : readGroups 8 true cs = (front, false, ':' :: ':' :: left))
    (hlen : front.length ≠ 8)
    (hback : readGroups (7 - front.length) true left = (back, embedded, rest))
    (hv : v.toList =
      front ++ List.replicate (8 - front.length - back.length) 0 ++ back) :
    readIpv6 cs = some (v, rest) := by
  have hgroups : ofGroups? (front ++ (List.replicate (8 - front.length - back.length) 0 ++ back)) =
      some v := by
    rw [← List.append_assoc, ← hv, ofGroups?_toList]
  rw [readIpv6, hfront]
  simp [hlen, expect, hback, hgroups]

theorem endsGroups_gap (cs : List Char) : EndsGroups (':' :: ':' :: cs) := by
  refine ⟨endsGroup_cons (by decide) (by decide) _, fun left he => ?_⟩
  rw [← (List.cons.inj he).2]
  exact endsGroup_cons (by decide) (by decide) cs

/-- The eight groups with `::` in place of some zeros. -/
theorem readIpv6_compressed {v : Vector UInt16 8} {front back : List UInt16} {zeros : Nat}
    (hv : v.toList = front ++ List.replicate (zeros + 1) 0 ++ back) (hr : EndsGroups rest) :
    readIpv6 (groupsText front ++ "::".toList ++ groupsText back ++ rest) = some (v, rest) := by
  have hl : front.length + (zeros + 1 + back.length) = 8 := by
    have hl := congrArg List.length hv
    rw [v.length_toList] at hl
    simpa using hl.symm
  have htext : groupsText front ++ "::".toList ++ groupsText back ++ rest =
      groupsText front ++ ':' :: ':' :: (groupsText back ++ rest) := by simp
  have hzeros : 8 - front.length - back.length = zeros + 1 := by omega
  rw [htext]
  apply readIpv6_of_gap (readGroups_groupsText front (by omega) (endsGroups_gap _)) (by omega)
    (readGroups_groupsText back (by omega) hr)
  rw [hzeros, hv]

theorem readIpv6_embedded {v : Vector UInt16 8} (h : v.toList.take 6 = [0, 0, 0, 0, 0, 0xffff])
    (hr : NoDigit 10 rest) :
    readIpv6 ("::ffff:".toList ++ octetsText ((v.toList.drop 6).flatMap octets) ++ rest) =
      some (v, rest) := by
  obtain ⟨g, g', hv⟩ := exists_of_toList h
  have hlen : (octets g ++ octets g').length = 4 := rfl
  have hipv4 := readIpv4_octetsText ⟨(octets g ++ octets g').toArray, hlen⟩ hr
  have htext : "::ffff:".toList ++ octetsText ((v.toList.drop 6).flatMap octets) ++ rest =
      ':' :: ':' :: (groupText 0xffff ++ ':' :: (octetsText (octets g ++ octets g') ++ rest)) := by
    have hf : groupText 0xffff = ['f', 'f', 'f', 'f'] := by decide
    simp [hv, hf]
  have hback : readGroups 7 true
      (groupText 0xffff ++ ':' :: (octetsText (octets g ++ octets g') ++ rest)) =
        ([0xffff, g, g'], true, rest) := by
    have hlast : readGroups 6 false (':' :: (octetsText (octets g ++ octets g') ++ rest)) =
        ([g, g'], true, rest) := by
      have hgroups : groups (octets g ++ octets g') = [g, g'] := by
        rw [group_octets, ← List.append_nil (octets g'), group_octets]
        rfl
      have hread : readIpv4 (octetsText (octets g ++ octets g') ++ rest) =
          some (⟨(octets g ++ octets g').toArray, hlen⟩, rest) := hipv4
      rw [readGroups]
      simp [expect, hread, hgroups]
    rw [readGroups_of_group (g := 0xffff) rfl (endsGroup_cons (by decide) (by decide) _), hlast]
  rw [htext]
  exact readIpv6_of_gap (readGroups_of_ends fun start hs =>
    Option.some.inj hs ▸ (endsGroups_gap _).1) (by decide) hback hv

theorem readIpv6_ipv6Text (v : Vector UInt16 8) (hr : EndsGroups rest) :
    readIpv6 (ipv6Text v ++ rest) = some (v, rest) := by
  rw [ipv6Text]
  split
  · rename_i h
    exact readIpv6_embedded h (hr.1.noDigit 10)
  · obtain ⟨hle, hrun⟩ := eq_longestRun_append v.toList
    simp only
    split
    · rename_i hlong
      obtain ⟨zeros, hz⟩ := Nat.exists_eq_add_one.mpr (Nat.zero_lt_of_lt hlong)
      rw [hz] at hrun ⊢
      exact readIpv6_compressed hrun hr
    · have hg := readGroups_groupsText (n := 8) v.toList v.length_toList.le hr
      rw [readIpv6, hg]
      simp [ofGroups?_toList]

end Ipv6

theorem readPort_digits (port : UInt16) :
    readPort (':' :: digits port.toNat) = some (port, []) := by
  have hn := readNumber_toDigits (by omega : 1 < 10) (by omega) port.toNat_lt (noDigit_nil 10)
  rw [List.append_nil] at hn
  have hread : readNumber 10 UInt16.size (digits port.toNat) = some (port.toNat, []) := hn
  rw [readPort]
  simp [expect, hread]

def zone (scope : UInt32) : List Char := if scope = 0 then [] else '%' :: digits scope.toNat

theorem readScope_zone (scope : UInt32) (rest : List Char) :
    (readScope (zone scope ++ ']' :: rest)).getD (0, zone scope ++ ']' :: rest) =
      (scope, ']' :: rest) := by
  have hn : readNumber 10 UInt32.size (digits scope.toNat ++ ']' :: rest) =
      some (scope.toNat, ']' :: rest) :=
    readNumber_toDigits (by omega) (by omega) scope.toNat_lt (noDigit_cons (by decide) rest)
  rw [zone, readScope]
  split
  · rename_i hz
    simp [expect, hz]
  · simp [expect, hn]

theorem endsGroups_zone (scope : UInt32) (rest : List Char) :
    EndsGroups (zone scope ++ ']' :: rest) := by
  rw [zone]
  split
  · exact endsGroups_cons (by decide) (by decide) (by decide) rest
  · exact endsGroups_cons (by decide) (by decide) (by decide) _

theorem read?_text (a : SocketAddress) : read? a.text = some a := by
  obtain ⟨ip, port⟩ := a
  cases ip with
  | v4 octets =>
    have hip := readIpv4_octetsText octets
      (noDigit_cons (by decide) (digits port.toNat) : NoDigit 10 (':' :: digits port.toNat))
    have hread : readV4 (text ⟨.v4 octets, port⟩) = some (⟨.v4 octets, port⟩, []) := by
      rw [readV4, text]
      simp [hip, readPort_digits]
    rw [read?, hread]
    rfl
  | v6 groups scope =>
    have htext : text ⟨.v6 groups scope, port⟩ =
        '[' :: (ipv6Text groups ++ (zone scope ++ ']' :: ':' :: digits port.toNat)) := by
      simp [text, zone]
    have hno : readV4 (text ⟨.v6 groups scope, port⟩) = none := by
      have hip := (endsGroup_cons (c := '[') (by decide) (by decide)
        (ipv6Text groups ++ (zone scope ++ ']' :: ':' :: digits port.toNat))).readIpv4
      rw [readV4, htext, hip]
      rfl
    have hip := readIpv6_ipv6Text groups (endsGroups_zone scope (':' :: digits port.toNat))
    have hscope := readScope_zone scope (':' :: digits port.toNat)
    have hread : readV6 (text ⟨.v6 groups scope, port⟩) = some (⟨.v6 groups scope, port⟩, []) := by
      rw [readV6, htext]
      simp [expect, hip, hscope, readPort_digits]
    rw [read?, hno, hread]
    rfl

end MetricPipeline.SocketAddress
