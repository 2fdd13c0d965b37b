import PS5Torrent.HttpServer.UrlCoding

/-!
# Percent decoding

What `http_url_decode` computes for any string, next to the reference decoding
(`decodeEscapes`), which leaves a `%` without two hexadecimal digits as it is.
The decoder takes any two characters after a `%` for digits, so that the two
agree on the strings whose escapes are well formed, and on no others
(`httpUrlDecode_eq_iff`): an escape that is not is cut off or read as another
byte. The beginning of a string is decoded as the whole only if nothing more
than the rest of an escape for `%` is missing (`cstr_urlDecode_take_eq_iff`).
-/

namespace PS5Torrent

/-! ## The reference -/

/-- The byte that two hexadecimal digits other than `00` denote. -/
def escapeVal (a b : UInt8) : Option UInt8 :=
  match hexDigitVal a, hexDigitVal b with
  | some i, some j => if 16 * i + j = 0 then none else some (UInt8.ofNat (16 * i + j))
  | _, _ => none

/-- A byte that is not part of an escape. -/
def plainVal (c : UInt8) : UInt8 := if c = chr '+' then chr ' ' else c

/-- The reference decoding. -/
def decodeEscapes : Bytes → Bytes
  | [] => []
  | c :: a :: b :: s =>
    match if c = chr '%' then escapeVal a b else none with
    | some v => v :: decodeEscapes s
    | none => plainVal c :: decodeEscapes (a :: b :: s)
  | c :: s => plainVal c :: decodeEscapes s

/-- Every `%` with two characters after it is followed by two hexadecimal digits other than `00`. -/
def WellEscaped (s : Bytes) : Prop :=
  ∀ x a b y, s = x ++ chr '%' :: a :: b :: y → (escapeVal a b).isSome

variable {a b c v : UInt8} {s : Bytes} {i j : ℕ}

theorem wellEscaped_cons :
    WellEscaped (c :: s) ↔
      (∀ a b y, c = chr '%' → s = a :: b :: y → (escapeVal a b).isSome) ∧ WellEscaped s := by
  constructor
  · intro h
    constructor
    · rintro a b y rfl rfl
      exact h [] a b y rfl
    · rintro x a b y rfl
      exact h (c :: x) a b y rfl
  · rintro ⟨hhead, h⟩ x a b y heq
    cases x with
    | nil =>
      obtain ⟨hc, hs⟩ := List.cons.inj heq
      exact hhead a b y hc hs
    | cons c' x =>
      obtain ⟨-, hs⟩ := List.cons.inj heq
      exact h x a b y hs

theorem wellEscaped_cons_of_ne (hc : c ≠ chr '%') : WellEscaped (c :: s) ↔ WellEscaped s := by
  rw [wellEscaped_cons]
  exact and_iff_right fun a b y heq => absurd heq hc

/-- An escape too close to the end is left as it is. -/
theorem wellEscaped_of_length (h : s.length < 3) : WellEscaped s := by
  rintro x a b y rfl
  simp only [List.length_append, List.length_cons] at h
  omega

theorem exists_of_escapeVal (h : escapeVal a b = some v) :
    ∃ i j, hexDigitVal a = some i ∧ hexDigitVal b = some j ∧ 16 * i + j ≠ 0 ∧
      v = UInt8.ofNat (16 * i + j) := by
  rw [escapeVal] at h
  split at h
  · rename_i i j ha hb
    split at h
    · cases h
    · rename_i hne
      exact ⟨i, j, ha, hb, hne, (Option.some.inj h).symm⟩
  · cases h

theorem hexDigitVal_lt (h : hexDigitVal a = some i) : i < 16 := by
  rw [hexDigitVal] at h
  split_ifs at h with h0 ha hA
  · have := UInt8.le_iff_toNat_le.1 h0.2
    have h57 : (chr '9').toNat = 57 := rfl
    have := Option.some.inj h
    omega
  · have := UInt8.le_iff_toNat_le.1 ha.2
    have h102 : (chr 'f').toNat = 102 := rfl
    have := Option.some.inj h
    omega
  · have := UInt8.le_iff_toNat_le.1 hA.2
    have h70 : (chr 'F').toNat = 70 := rfl
    have := Option.some.inj h
    omega

/-- The characters of an escape start no other one. -/
theorem ne_percent_of_hexDigitVal (h : hexDigitVal a = some i) : a ≠ chr '%' := by
  rintro rfl
  have hnone : hexDigitVal (chr '%') = none := by decide
  rw [hnone] at h
  cases h

theorem wellEscaped_escape (h : escapeVal a b = some v) :
    WellEscaped (chr '%' :: a :: b :: s) ↔ WellEscaped s := by
  obtain ⟨i, j, ha, hb, -⟩ := exists_of_escapeVal h
  rw [wellEscaped_cons, wellEscaped_cons_of_ne (ne_percent_of_hexDigitVal ha),
    wellEscaped_cons_of_ne (ne_percent_of_hexDigitVal hb)]
  refine and_iff_right ?_
  rintro a' b' y - heq
  obtain ⟨ha', htail⟩ := List.cons.inj heq
  obtain ⟨hb', -⟩ := List.cons.inj htail
  rw [← ha', ← hb', h, Option.isSome_some]

/-! ## Escapes as they are read -/

/-- A well-formed escape is read as the byte it denotes, which is not NUL. -/
theorem toChar_of_escapeVal (h : escapeVal a b = some v) :
    toChar (strtolHex [a, b]) = v ∧ v ≠ 0 := by
  obtain ⟨i, j, ha, hb, hne, rfl⟩ := exists_of_escapeVal h
  have hi := hexDigitVal_lt ha
  have hj := hexDigitVal_lt hb
  have htoNat : (UInt8.ofNat (16 * i + j)).toNat = 16 * i + j :=
    UInt8.toNat_ofNat_of_lt' (Nat.lt_of_lt_of_le (by omega : 16 * i + j < 256) le_rfl)
  constructor
  · rw [strtolHex_pair ha hb]
    have hchar := toChar_toNat (UInt8.ofNat (16 * i + j))
    rwa [htoNat] at hchar
  · intro hzero
    rw [hzero] at htoNat
    exact hne htoNat.symm

/-- The value of the digits that `strtol` reads. -/
def hexPrefix (digits : Bytes) : ℕ :=
  ((digits.map hexDigitVal).takeWhile Option.isSome).foldl (fun n d => n * 16 + d.getD 0) 0

theorem hexPrefix_singleton_le (b : UInt8) : hexPrefix [b] ≤ 15 := by
  rw [hexPrefix, List.map_singleton]
  cases hb : hexDigitVal b with
  | none => exact Nat.zero_le _
  | some j =>
    have hj := hexDigitVal_lt hb
    change 0 * 16 + j ≤ 15
    omega

/-- Without two digits other than `00`, at most one counts. -/
theorem hexPrefix_pair_le (h : escapeVal a b = none) : hexPrefix [a, b] ≤ 15 := by
  rw [hexPrefix, List.map_cons, List.map_singleton]
  cases ha : hexDigitVal a with
  | none => exact Nat.zero_le _
  | some i =>
    have hi := hexDigitVal_lt ha
    cases hb : hexDigitVal b with
    | none =>
      change 0 * 16 + i ≤ 15
      omega
    | some j =>
      rw [escapeVal, ha, hb] at h
      dsimp only at h
      split at h
      · change (0 * 16 + i) * 16 + j ≤ 15
        omega
      · cases h

theorem natAbs_strtolHex_le {str : Bytes} (hnil : hexPrefix (str.dropWhile isSpace) ≤ 15)
    (htail : hexPrefix (str.dropWhile isSpace).tail ≤ 15) : (strtolHex str).natAbs ≤ 15 := by
  rw [strtolHex, ← hexPrefix]
  generalize str.dropWhile isSpace = s at hnil htail
  have hdigits : hexPrefix (if s.head? = some (chr '-') ∨ s.head? = some (chr '+') then s.tail
      else s) ≤ 15 := by
    split
    · exact htail
    · exact hnil
  split
  · rwa [Int.natAbs_neg, Int.natAbs_natCast]
  · rwa [Int.natAbs_natCast]

/-- A malformed escape is read as a small number. -/
theorem natAbs_strtolHex_pair_le (h : escapeVal a b = none) :
    (strtolHex [a, b]).natAbs ≤ 15 := by
  have hzero : hexPrefix [] ≤ 15 := Nat.zero_le _
  have hsingle := hexPrefix_singleton_le b
  refine natAbs_strtolHex_le ?_ ?_
  · rw [List.dropWhile_cons, List.dropWhile_cons, List.dropWhile_nil]
    split_ifs
    · exact hzero
    · exact hsingle
    · exact hexPrefix_pair_le h
  · rw [List.dropWhile_cons, List.dropWhile_cons, List.dropWhile_nil]
    split_ifs
    · exact hzero
    · exact hzero
    · exact hsingle

/-- It is not read as the `%` that it starts with. -/
theorem toChar_ne_percent (h : escapeVal a b = none) : toChar (strtolHex [a, b]) ≠ chr '%' := by
  have hle := natAbs_strtolHex_pair_le h
  intro heq
  have htoNat := congrArg UInt8.toNat heq
  have h37 : (chr '%').toNat = 37 := rfl
  have hlt : (strtolHex [a, b] % 256).toNat < 256 := by omega
  rw [toChar, h37, UInt8.toNat_ofNat_of_lt' hlt] at htoNat
  omega

/-! ## Decoding -/

theorem cstr_cons (hv : v ≠ 0) : cstr (v :: s) = v :: cstr s :=
  List.takeWhile_cons_of_pos (decide_eq_true hv)

theorem plainVal_ne_zero (hc : c ≠ 0) : plainVal c ≠ 0 := by
  rw [plainVal]
  split
  · decide
  · exact hc

/-- A byte that is not part of an escape is decoded alike. -/
theorem urlDecode_plain (hc : c ≠ chr '%' ∨ s.length < 2) :
    urlDecode (c :: s) = plainVal c :: urlDecode s ∧
      decodeEscapes (c :: s) = plainVal c :: decodeEscapes s := by
  rcases s with _ | ⟨a, _ | ⟨b, s⟩⟩
  · exact ⟨rfl, rfl⟩
  · exact ⟨rfl, rfl⟩
  · have hne : c ≠ chr '%' := hc.resolve_right (by simp)
    rw [urlDecode, decodeEscapes, if_neg hne, if_neg hne, plainVal]
    split <;> exact ⟨rfl, rfl⟩

/-! ## Cut off -/

/-- A string that is cut off after `n` bytes inside the escape of a `%` at its end, so that what
    is left of the escape is read as the string ends. -/
def CutEscape (n : ℕ) (s : Bytes) : Prop :=
  ∃ x, n = x.length + 1 ∧ s = x ++ lit "%25" ∨
    n = x.length + 2 ∧ (s = x ++ lit "%252" ∨ s = x ++ lit "%25%32")

/-- The first bytes of a string are decoded as the reference decodes the whole. -/
def DecodesWithin (n : ℕ) (s : Bytes) : Prop :=
  WellEscaped (s.take n) ∧ (s.length ≤ n ∨ CutEscape n s)

variable {n : ℕ} {t : Bytes}

theorem eq_of_hexDigitVal (h : hexDigitVal a = some i) (hi : i ≤ 9) : a = UInt8.ofNat (48 + i) := by
  have htoNat : a.toNat = 48 + i := by
    rw [hexDigitVal] at h
    split_ifs at h with h0 ha hA
    · have hl := UInt8.le_iff_toNat_le.1 h0.1
      have h48 : (chr '0').toNat = 48 := rfl
      have := Option.some.inj h
      omega
    · have hl := UInt8.le_iff_toNat_le.1 ha.1
      have h97 : (chr 'a').toNat = 97 := rfl
      have := Option.some.inj h
      omega
    · have hl := UInt8.le_iff_toNat_le.1 hA.1
      have h65 : (chr 'A').toNat = 65 := rfl
      have := Option.some.inj h
      omega
  rw [← htoNat, UInt8.ofNat_toNat]

/-- The escapes of `%` and of `2`. -/
theorem escapeVal_eq_some (h : escapeVal a b = some v) :
    (v = chr '%' → a = chr '2' ∧ b = chr '5') ∧ (v = chr '2' → a = chr '3' ∧ b = chr '2') := by
  obtain ⟨i, j, ha, hb, hne, rfl⟩ := exists_of_escapeVal h
  have hi := hexDigitVal_lt ha
  have hj := hexDigitVal_lt hb
  have htoNat : (UInt8.ofNat (16 * i + j)).toNat = 16 * i + j :=
    UInt8.toNat_ofNat_of_lt' (Nat.lt_of_lt_of_le (by omega : 16 * i + j < 256) le_rfl)
  constructor
  · intro heq
    have hval : 16 * i + j = 37 := htoNat.symm.trans (congrArg UInt8.toNat heq)
    obtain ⟨rfl, rfl⟩ : i = 2 ∧ j = 5 := by omega
    exact ⟨eq_of_hexDigitVal ha (by decide), eq_of_hexDigitVal hb (by decide)⟩
  · intro heq
    have hval : 16 * i + j = 50 := htoNat.symm.trans (congrArg UInt8.toNat heq)
    obtain ⟨rfl, rfl⟩ : i = 3 ∧ j = 2 := by omega
    exact ⟨eq_of_hexDigitVal ha (by decide), eq_of_hexDigitVal hb (by decide)⟩

theorem decodeEscapes_ne_nil (hs : s ≠ []) : decodeEscapes s ≠ [] := by
  rcases s with _ | ⟨c, _ | ⟨a, _ | ⟨b, t⟩⟩⟩
  · exact absurd rfl hs
  · exact List.cons_ne_nil _ _
  · exact List.cons_ne_nil _ _
  · rw [decodeEscapes]
    split <;> exact List.cons_ne_nil _ _

theorem decodeEscapes_eq_nil : decodeEscapes s = [] ↔ s = [] :=
  ⟨not_imp_not.1 decodeEscapes_ne_nil, fun h => h.symm ▸ rfl⟩

/-- What is decoded to a `2` alone. -/
theorem decodeEscapes_eq_two : decodeEscapes s = lit "2" ↔ s = lit "2" ∨ s = lit "%32" := by
  constructor
  · intro h
    have hplain : ∀ c : UInt8, plainVal c = chr '2' → c = chr '2' := by
      intro c hc
      rw [plainVal] at hc
      split at hc
      · exact absurd hc (by decide)
      · exact hc
    rcases s with _ | ⟨c, _ | ⟨a, _ | ⟨b, t⟩⟩⟩
    · exact absurd h.symm (List.cons_ne_nil _ _)
    · exact Or.inl (congrArg (· :: []) (hplain c (List.cons.inj h).1))
    · exact absurd (List.cons.inj h).2 (List.cons_ne_nil _ _)
    · rw [decodeEscapes] at h
      split at h
      · rename_i v hv
        obtain ⟨hhead, htail⟩ := List.cons.inj h
        split at hv
        · rename_i hc
          obtain ⟨rfl, rfl⟩ := (escapeVal_eq_some hv).2 hhead
          rw [hc, decodeEscapes_eq_nil.1 htail]
          exact Or.inr rfl
        · cases hv
      · exact absurd (List.cons.inj h).2 (decodeEscapes_ne_nil (List.cons_ne_nil _ _))
  · rintro (rfl | rfl) <;> rfl

/-- Where the first byte does not start the escape that is cut off, it moves the cut. -/
theorem cutEscape_cons (h : lit "%25" <+: c :: s → 2 ≤ n) :
    CutEscape (n + 1) (c :: s) ↔ CutEscape n s := by
  constructor
  · rintro ⟨x, hx⟩
    rcases x with _ | ⟨d, x⟩
    · have hpercent : lit "%25" <+: c :: s := by
        rcases hx with ⟨-, hs⟩ | ⟨-, hs | hs⟩ <;> rw [hs]
        · exact List.prefix_rfl
        · exact ⟨lit "2", rfl⟩
        · exact ⟨lit "%32", rfl⟩
      have hn := h hpercent
      rcases hx with ⟨hlen, -⟩ | ⟨hlen, -⟩
      · rw [List.length_nil] at hlen
        omega
      · rw [List.length_nil] at hlen
        omega
    · refine ⟨x, ?_⟩
      simp only [List.length_cons, Nat.add_right_cancel_iff, List.cons_append, List.cons.injEq] at hx
      exact hx.imp (fun h => ⟨by omega, h.2.2⟩) fun h => ⟨by omega, h.2.imp And.right And.right⟩
  · rintro ⟨x, hx⟩
    refine ⟨c :: x, ?_⟩
    simp only [List.length_cons, Nat.add_right_cancel_iff, List.cons_append, List.cons.injEq,
      true_and]
    exact hx.imp (fun h => ⟨by omega, h.2⟩) fun h => ⟨by omega, h.2⟩

/-- The two decodings agree behind a byte that is decoded alike. -/
theorem decodesWithin_cons (hc : c ≠ 0)
    (hurl : urlDecode (c :: s.take n) = plainVal c :: urlDecode (s.take n))
    (hdecode : decodeEscapes (c :: s) = plainVal c :: decodeEscapes s)
    (hwell : WellEscaped (c :: s.take n) ↔ WellEscaped (s.take n)) (hpercent : ¬lit "%25" <+: c :: s)
    (h : cstr (urlDecode (s.take n)) = decodeEscapes s ↔ DecodesWithin n s) :
    cstr (urlDecode ((c :: s).take (n + 1))) = decodeEscapes (c :: s) ↔
      DecodesWithin (n + 1) (c :: s) := by
  rw [List.take_succ_cons, hurl, hdecode, cstr_cons (plainVal_ne_zero hc), List.cons.injEq,
    and_iff_right rfl, h, DecodesWithin, DecodesWithin, List.take_succ_cons, hwell,
    cutEscape_cons fun h => absurd h hpercent, List.length_cons, Nat.add_le_add_iff_right]

theorem percent25_prefix_cons : lit "%25" <+: c :: s ↔ c = chr '%' ∧ lit "25" <+: s := by
  have hlit : lit "%25" = chr '%' :: lit "25" := rfl
  rw [hlit, List.cons_prefix_cons, eq_comm]

/-- The two decodings agree behind an escape. -/
theorem decodesWithin_escape (hv : escapeVal a b = some v)
    (h : cstr (urlDecode (s.take n)) = decodeEscapes s ↔ DecodesWithin n s) :
    cstr (urlDecode ((chr '%' :: a :: b :: s).take (n + 3))) =
        decodeEscapes (chr '%' :: a :: b :: s) ↔ DecodesWithin (n + 3) (chr '%' :: a :: b :: s) := by
  obtain ⟨hchar, hne⟩ := toChar_of_escapeVal hv
  obtain ⟨i, j, ha, hb, -⟩ := exists_of_escapeVal hv
  have hcut : CutEscape (n + 3) (chr '%' :: a :: b :: s) ↔ CutEscape n s := by
    rw [cutEscape_cons fun _ => Nat.le_add_left 2 n,
      cutEscape_cons fun h => absurd (percent25_prefix_cons.1 h).1 (ne_percent_of_hexDigitVal ha),
      cutEscape_cons fun h => absurd (percent25_prefix_cons.1 h).1 (ne_percent_of_hexDigitVal hb)]
  have htake : (chr '%' :: a :: b :: s).take (n + 3) = chr '%' :: a :: b :: s.take n := rfl
  rw [DecodesWithin, htake, wellEscaped_escape hv, hcut, urlDecode, if_pos rfl, hchar, cstr_cons hne,
    decodeEscapes, if_pos rfl, hv, List.cons.injEq, and_iff_right rfl, h, DecodesWithin]
  simp only [List.length_cons, Nat.add_le_add_iff_right]

/-- An escape that is cut off reads as the reference does only if it is for the `%` at the end. -/
theorem decodesWithin_cut (hv : escapeVal a b = some v) (hn : n < 2) :
    cstr (urlDecode ((chr '%' :: a :: b :: s).take (n + 1))) =
        decodeEscapes (chr '%' :: a :: b :: s) ↔ DecodesWithin (n + 1) (chr '%' :: a :: b :: s) := by
  have hdecode : decodeEscapes (chr '%' :: a :: b :: s) = v :: decodeEscapes s := by
    rw [decodeEscapes, if_pos rfl, hv]
  have hwell : WellEscaped ((chr '%' :: a :: b :: s).take (n + 1)) :=
    wellEscaped_of_length ((List.length_take_le (n + 1) _).trans_lt (by omega))
  have hlong : ¬(chr '%' :: a :: b :: s).length ≤ n + 1 := by
    simp only [List.length_cons]
    omega
  rw [DecodesWithin, and_iff_right hwell, or_iff_right hlong, hdecode]
  obtain ⟨i, j, ha, -⟩ := exists_of_escapeVal hv
  have hpercent := ne_percent_of_hexDigitVal ha
  have hzero : a ≠ 0 := by
    rintro rfl
    exact absurd ha (by decide +revert)
  have h25 : escapeVal (chr '2') (chr '5') = some (chr '%') := rfl
  have hlit : lit "%25" = [chr '%', chr '2', chr '5'] := rfl
  obtain rfl | rfl : n = 0 ∨ n = 1 := by omega
  · have hurl : cstr (urlDecode ((chr '%' :: a :: b :: s).take (0 + 1))) = [chr '%'] := rfl
    rw [hurl, List.cons.injEq, @eq_comm _ [], decodeEscapes_eq_nil]
    constructor
    · rintro ⟨hv', rfl⟩
      obtain ⟨rfl, rfl⟩ := (escapeVal_eq_some hv).1 hv'.symm
      exact ⟨[], Or.inl ⟨rfl, rfl⟩⟩
    · rintro ⟨x, ⟨hx, hs⟩ | ⟨hx, -⟩⟩
      · obtain rfl : x = [] := List.eq_nil_of_length_eq_zero (by omega)
        rw [List.nil_append, hlit] at hs
        simp only [List.cons.injEq, true_and] at hs
        obtain ⟨rfl, rfl, rfl⟩ := hs
        exact ⟨Option.some.inj (h25.symm.trans hv), rfl⟩
      · omega
  · have hshort : [a].length < 2 := by simp
    have hurl : cstr (urlDecode ((chr '%' :: a :: b :: s).take (1 + 1))) = [chr '%', plainVal a] := by
      have htake : (chr '%' :: a :: b :: s).take (1 + 1) = [chr '%', a] := rfl
      rw [htake, (urlDecode_plain (Or.inr hshort)).1, (urlDecode_plain (Or.inl hpercent)).1,
        cstr_cons (plainVal_ne_zero (by decide)), cstr_cons (plainVal_ne_zero hzero)]
      rfl
    rw [hurl, List.cons.injEq]
    constructor
    · rintro ⟨hv', hs⟩
      obtain ⟨rfl, rfl⟩ := (escapeVal_eq_some hv).1 hv'.symm
      refine ⟨[], Or.inr ⟨rfl, ?_⟩⟩
      rcases decodeEscapes_eq_two.1 hs.symm with rfl | rfl
      · exact Or.inl rfl
      · exact Or.inr rfl
    · rintro ⟨x, ⟨hx, hs⟩ | ⟨hx, hs⟩⟩
      · obtain ⟨d, rfl⟩ := List.length_eq_one_iff.1 (Nat.add_right_cancel hx).symm
        rw [hlit, List.singleton_append] at hs
        exact absurd (List.cons.inj (List.cons.inj hs).2).1 hpercent
      · obtain rfl : x = [] := List.eq_nil_of_length_eq_zero (by omega)
        have hsplit : ∀ y, chr '%' :: a :: b :: s = lit "%25" ++ y →
            a = chr '2' ∧ b = chr '5' ∧ s = y := by
          intro y hy
          rw [hlit] at hy
          simpa using hy
        have hrest : a = chr '2' ∧ b = chr '5' ∧ (s = lit "2" ∨ s = lit "%32") := by
          rcases hs with hs | hs
          · obtain ⟨ha, hb, hs⟩ := hsplit (lit "2") hs
            exact ⟨ha, hb, Or.inl hs⟩
          · obtain ⟨ha, hb, hs⟩ := hsplit (lit "%32") hs
            exact ⟨ha, hb, Or.inr hs⟩
        obtain ⟨rfl, rfl, hs'⟩ := hrest
        exact ⟨Option.some.inj (h25.symm.trans hv), (decodeEscapes_eq_two.2 hs').symm⟩

/-- `http_url_decode` decodes the first bytes of a string as the reference does the whole if their
    escapes are well formed and nothing is cut off but the rest of an escape for `%`. -/
theorem cstr_urlDecode_take_eq_iff (hs : 0 ∉ s) :
    cstr (urlDecode (s.take n)) = decodeEscapes s ↔ DecodesWithin n s := by
  induction hk : s.length using Nat.strong_induction_on generalizing s n with
  | h k ih =>
    rcases s with _ | ⟨c, s⟩
    · rw [List.take_nil]
      refine iff_of_true rfl ⟨?_, Or.inl (Nat.zero_le n)⟩
      rw [List.take_nil]
      exact wellEscaped_of_length (by simp)
    rcases n with _ | n
    · rw [List.take_zero]
      refine iff_of_false (fun h => decodeEscapes_ne_nil (List.cons_ne_nil c s) h.symm) ?_
      rintro ⟨-, hlen | ⟨x, ⟨hx, -⟩ | ⟨hx, -⟩⟩⟩
      · exact absurd hlen (Nat.not_succ_le_zero _)
      · cases hx
      · cases hx
    have hc : c ≠ 0 := fun h => hs (h ▸ List.mem_cons_self)
    have hrest := @ih s.length (by rw [← hk]; exact Nat.lt_succ_self _) s n
      (fun h => hs (List.mem_cons_of_mem c h)) rfl
    by_cases hplain : c ≠ chr '%' ∨ s.length < 2
    · have hshort : s.length < 2 → (s.take n).length < 2 := (List.length_take_le' n s).trans_lt
      obtain ⟨hurl, -⟩ := @urlDecode_plain c (s.take n) (hplain.imp_right hshort)
      refine decodesWithin_cons hc hurl (urlDecode_plain hplain).2 ?_ ?_ hrest
      · rcases hplain with hne | hlen
        · exact wellEscaped_cons_of_ne hne
        · have hlen := hshort hlen
          exact iff_of_true (wellEscaped_of_length (Nat.succ_lt_succ hlen))
            (wellEscaped_of_length (hlen.trans (by decide)))
      · intro hpercent
        obtain ⟨rfl, h25⟩ := percent25_prefix_cons.1 hpercent
        exact hplain.elim (fun h => h rfl) fun h => absurd h25.length_le (not_le.2 h)
    rw [not_or, not_not, not_lt] at hplain
    obtain ⟨rfl, hlen⟩ := hplain
    obtain ⟨a, b, t, rfl⟩ : ∃ a b t, s = a :: b :: t := by
      rcases s with _ | ⟨a, _ | ⟨b, t⟩⟩
      · exact absurd hlen (by decide)
      · exact absurd hlen (by simp)
      · exact ⟨a, b, t, rfl⟩
    cases hv : escapeVal a b with
    | some v =>
      rcases lt_or_ge n 2 with hn | hn
      · exact decodesWithin_cut hv hn
      · obtain ⟨n, rfl⟩ := Nat.exists_eq_add_of_le' hn
        exact decodesWithin_escape hv (@ih t.length (by rw [← hk]; simp only [List.length_cons]; omega)
          t n (fun h => hs (by simp [h])) rfl)
    | none =>
      have hpercent : ¬lit "%25" <+: chr '%' :: a :: b :: t := by
        rintro ⟨u, hu⟩
        have hab := (List.cons.inj hu).2
        rw [← (List.cons.inj hab).1, ← (List.cons.inj (List.cons.inj hab).2).1] at hv
        exact absurd hv (by decide)
      have hdecode : decodeEscapes (chr '%' :: a :: b :: t) =
          plainVal (chr '%') :: decodeEscapes (a :: b :: t) := by
        rw [decodeEscapes, if_pos rfl, hv]
      rcases lt_or_ge n 2 with hn | hn
      · have hshort : ((a :: b :: t).take n).length < 2 := (List.length_take_le _ _).trans_lt hn
        refine decodesWithin_cons hc (urlDecode_plain (Or.inr hshort)).1 hdecode ?_ hpercent hrest
        exact iff_of_true (wellEscaped_of_length (Nat.succ_lt_succ hshort))
            (wellEscaped_of_length (hshort.trans (by decide)))
      · obtain ⟨n, rfl⟩ := Nat.exists_eq_add_of_le' hn
        have htake : (chr '%' :: a :: b :: t).take (n + 2 + 1) = chr '%' :: a :: b :: t.take n := rfl
        rw [DecodesWithin, htake, hdecode, urlDecode, if_pos rfl]
        refine iff_of_false (fun h => ?_) fun h => ?_
        · by_cases hzero : toChar (strtolHex [a, b]) = 0
          · rw [hzero] at h
            exact absurd h.symm (List.cons_ne_nil _ _)
          · rw [cstr_cons hzero] at h
            exact toChar_ne_percent hv (List.cons.inj h).1
        · have hsome := h.1 [] a b (t.take n) rfl
          rw [hv] at hsome
          exact absurd hsome (by simp)

/-- The two decodings agree on the well-escaped strings, and on no others. -/
theorem cstr_urlDecode_eq_iff (hs : 0 ∉ s) :
    cstr (urlDecode s) = decodeEscapes s ↔ WellEscaped s := by
  have h := @cstr_urlDecode_take_eq_iff s s.length hs
  rwa [DecodesWithin, List.take_length, and_iff_left (Or.inl le_rfl)] at h

/-- `http_url_decode` decodes a string as the reference does if every `%` with two characters
    after it is followed by two hexadecimal digits other than `00`, and only then. -/
theorem httpUrlDecode_eq_iff (str : Bytes) :
    httpUrlDecode str = decodeEscapes (cstr str) ↔ WellEscaped (cstr str) :=
  cstr_urlDecode_eq_iff (not_mem_cstr str)

/-- A malformed escape cuts off the text. -/
theorem httpUrlDecode_malformed : httpUrlDecode (lit "a%zzb") = lit "a" ∧
    httpUrlDecode (lit "a%zzb") ≠ decodeEscapes (cstr (lit "a%zzb")) := by
  have hdecoded : httpUrlDecode (lit "a%zzb") = lit "a" := rfl
  have hreference : decodeEscapes (cstr (lit "a%zzb")) = lit "a%zzb" := rfl
  refine ⟨hdecoded, ?_⟩
  rw [hdecoded, hreference]
  decide

end PS5Torrent
