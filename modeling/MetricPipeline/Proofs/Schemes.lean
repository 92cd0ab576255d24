import MetricPipeline.Address.Remote
import MetricPipeline.Proofs.Literals

namespace MetricPipeline

namespace SocketAddress

theorem mem_intercalate {α : Type} {a : α} {separator : List α} {xs : List (List α)}
    (h : a ∈ separator.intercalate xs) : a ∈ separator ∨ ∃ x ∈ xs, a ∈ x := by
  induction xs with
  | nil => exact absurd h List.not_mem_nil
  | cons x xs ih =>
    cases xs with
    | nil => exact .inr ⟨x, List.mem_singleton_self x, by simpa [List.intercalate] using h⟩
    | cons x' xs =>
      rw [List.intercalate_cons_cons, List.mem_append, List.mem_append] at h
      rcases h with (h | h) | h
      · exact .inr ⟨x, List.mem_cons_self, h⟩
      · exact .inl h
      · exact (ih h).imp_right fun ⟨y, hy, hm⟩ => ⟨y, List.mem_cons_of_mem x hy, hm⟩

theorem slash_notMem_toDigits {base : Nat} (hlow : 1 < base) (hhigh : base ≤ 16) (n : Nat) :
    '/' ∉ Nat.toDigits base n := by
  intro hc
  obtain ⟨d, hd, he⟩ := exists_of_mem_toDigits hlow hc
  have hall : ∀ d : Fin 16, '/' ≠ d.val.digitChar := by decide
  exact hall ⟨d, by omega⟩ he

theorem slash_notMem_digits (n : Nat) : '/' ∉ digits n :=
  slash_notMem_toDigits (by omega) (by omega) n

theorem slash_notMem_octetsText (octets : List UInt8) : '/' ∉ octetsText octets := by
  intro hc
  rcases mem_intercalate hc with hc | ⟨x, hx, hc⟩
  · exact absurd hc (by decide)
  · obtain ⟨o, -, rfl⟩ := List.mem_map.mp hx
    exact slash_notMem_digits o.toNat hc

theorem slash_notMem_groupsText (gs : List UInt16) : '/' ∉ groupsText gs := by
  intro hc
  rcases mem_intercalate hc with hc | ⟨x, hx, hc⟩
  · exact absurd hc (by decide)
  · obtain ⟨g, -, rfl⟩ := List.mem_map.mp hx
    exact slash_notMem_toDigits (by omega) (by omega) g.toNat hc

theorem slash_notMem_ipv6Text (v : Vector UInt16 8) : '/' ∉ ipv6Text v := by
  rw [ipv6Text]
  split
  · have ho := slash_notMem_octetsText ((v.toList.drop 6).flatMap octets)
    simp [ho]
  · simp only
    split
    · simp [slash_notMem_groupsText]
    · exact slash_notMem_groupsText v.toList

theorem slash_notMem_text (a : SocketAddress) : '/' ∉ a.text := by
  obtain ⟨ip, port⟩ := a
  cases ip with
  | v4 octets => simp [text, slash_notMem_octetsText, slash_notMem_digits]
  | v6 groups scope =>
    have hz : '/' ∉ (if scope = 0 then [] else '%' :: digits scope.toNat) := by
      split <;> simp [slash_notMem_digits]
    simp [text, slash_notMem_ipv6Text, slash_notMem_digits, hz]

end SocketAddress

namespace RemoteAddress

def schemeEnd : List Char := "://".toList

theorem schemeEnd_eq : schemeEnd = [':', '/', '/'] := by decide

theorem splitScheme?_cons (c : Char) (cs : List Char) :
    splitScheme? (c :: cs) =
      if schemeEnd.isPrefixOf (c :: cs) then some ([], (c :: cs).drop 3)
      else (splitScheme? cs).map fun (scheme, rest) => (c :: scheme, rest) := rfl

/-- The cut is made where `://` stands for the first time. -/
theorem splitScheme?_append {scheme : List Char} (h : ¬schemeEnd <:+: scheme) (rest : List Char) :
    splitScheme? (scheme ++ schemeEnd ++ rest) = some (scheme, rest) := by
  induction scheme with
  | nil => simp [schemeEnd_eq, splitScheme?_cons]
  | cons c scheme ih =>
    have hrest : ¬schemeEnd <:+: scheme :=
      fun hi => h (hi.trans (List.suffix_cons c scheme).isInfix)
    -- An earlier one would lie within the scheme, as a colon is no slash.
    have hno : schemeEnd.isPrefixOf (c :: (scheme ++ schemeEnd ++ rest)) = false := by
      rw [Bool.eq_false_iff, ne_eq, List.isPrefixOf_iff_prefix]
      intro hp
      apply h
      match scheme with
      | [] => simp [schemeEnd_eq] at hp
      | [d] => simp [schemeEnd_eq] at hp
      | d :: d' :: scheme =>
        simp only [schemeEnd_eq, List.cons_append, List.cons_prefix_cons] at hp ⊢
        obtain ⟨rfl, rfl, rfl, -⟩ := hp
        exact (List.prefix_append [':', '/', '/'] scheme).isInfix
    rw [List.cons_append, List.cons_append, splitScheme?_cons, hno, ih hrest]
    rfl

theorem splitScheme?_eq_none {cs : List Char} (h : ¬schemeEnd <:+: cs) :
    splitScheme? cs = none := by
  induction cs with
  | nil => rfl
  | cons c cs ih =>
    have hno : schemeEnd.isPrefixOf (c :: cs) = false := by
      rw [Bool.eq_false_iff, ne_eq, List.isPrefixOf_iff_prefix]
      exact fun hp => h hp.isInfix
    rw [splitScheme?_cons, hno, ih fun hi => h (hi.trans (List.suffix_cons c cs).isInfix)]
    rfl

theorem splitScheme?_of_no_slash {cs : List Char} (h : '/' ∉ cs) : splitScheme? cs = none := by
  apply splitScheme?_eq_none
  exact fun hi => h (hi.subset (by decide))

variable (lookup : Lookup)

theorem read_of_no_scheme {text : String} (h : splitScheme? text.toList = none) :
    read text lookup = readUdp lookup text.toList := by
  rw [read, h]

def readAs (scheme rest : String) : Except AddressError RemoteAddress :=
  match scheme with
  | "udp" => readUdp lookup rest.toList
  | "unix" => .ok (stream rest)
  | "unixgram" => .ok (datagram rest)
  | other => .error (.unknownScheme other)

theorem read_append {scheme : String} (h : ¬schemeEnd <:+: scheme.toList) (rest : String) :
    read (scheme ++ "://" ++ rest) lookup = readAs lookup scheme rest := by
  have hsplit : splitScheme? (scheme ++ "://" ++ rest).toList =
      some (scheme.toList, rest.toList) := by
    rw [String.toList_append, String.toList_append]
    exact splitScheme?_append h rest.toList
  rw [read, hsplit]
  simp only [String.ofList_toList]
  rfl

theorem read_udp (rest : String) : read ("udp://" ++ rest) lookup = readUdp lookup rest.toList :=
  read_append lookup (by decide : ¬schemeEnd <:+: "udp".toList) rest

theorem read_udp_of_no_scheme {text : String} (h : ¬schemeEnd <:+: text.toList) :
    read ("udp://" ++ text) lookup = read text lookup := by
  rw [read_udp, read_of_no_scheme lookup (splitScheme?_eq_none h)]

theorem readUdp_text (a : SocketAddress) : readUdp lookup a.text = .ok (udp [a]) := by
  rw [readUdp, resolve, SocketAddress.read?_text]

theorem read_socketAddress (a : SocketAddress) :
    read (String.ofList a.text) lookup = .ok (udp [a]) := by
  have hno : splitScheme? (String.ofList a.text).toList = none := by
    rw [String.toList_ofList]
    exact splitScheme?_of_no_slash a.slash_notMem_text
  rw [read_of_no_scheme lookup hno, String.toList_ofList, readUdp_text]

/-- A path after `unix://` or `unixgram://` is taken as it stands. The canonical text of a socket
address is read as that one address, with `udp://` before it or nothing, and so is any other text
without a scheme read as after `udp://`. Any other scheme, which is all that stands before the first
`://`, is refused and named. All this is so whatever names the system knows. -/
theorem addresses_read (lookup : Lookup) :
    (∀ path : String, read ("unix://" ++ path) lookup = .ok (stream path) ∧
      read ("unixgram://" ++ path) lookup = .ok (datagram path)) ∧
      (∀ a : SocketAddress, read (String.ofList a.text) lookup = .ok (udp [a]) ∧
        read ("udp://" ++ String.ofList a.text) lookup = .ok (udp [a])) ∧
      (∀ text : String, ¬schemeEnd <:+: text.toList →
        read ("udp://" ++ text) lookup = read text lookup) ∧
      ∀ scheme rest : String, ¬schemeEnd <:+: scheme.toList →
        scheme ∉ ["udp", "unix", "unixgram"] →
        read (scheme ++ "://" ++ rest) lookup = .error (.unknownScheme scheme) ∧
          (AddressError.unknownScheme scheme).message =
            "invalid scheme '" ++ scheme ++ "' (expected 'udp', 'unix' or 'unixgram')" := by
  refine ⟨fun path => ⟨?_, ?_⟩, fun a => ⟨read_socketAddress lookup a, ?_⟩,
    fun text h => read_udp_of_no_scheme lookup h, fun scheme rest h hs => ⟨?_, rfl⟩⟩
  · exact read_append lookup (by decide : ¬schemeEnd <:+: "unix".toList) path
  · exact read_append lookup (by decide : ¬schemeEnd <:+: "unixgram".toList) path
  · rw [read_udp, String.toList_ofList, readUdp_text]
  · have hno : scheme ≠ "udp" ∧ scheme ≠ "unix" ∧ scheme ≠ "unixgram" := by simpa using hs
    rw [read_append lookup h, readAs]
    · exact hno.1
    · exact hno.2.1
    · exact hno.2.2

end RemoteAddress
end MetricPipeline
