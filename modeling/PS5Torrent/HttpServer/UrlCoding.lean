import PS5Torrent.HttpServer.Escape
import PS5Torrent.WebSeed

/-!
# Percent encoding

Three encoders write bytes as `%` and two hexadecimal digits: that of the
trackers' requests (`net_url_encode`), that of the web seeds' URLs
(`append_url_path`) and that of the browser (`encodeURIComponent`). They differ
in the bytes that stand for themselves and in the case of the digits. All are
read back by `http_url_decode` (`httpUrlDecode_encode`), and what is read back
from a part of an encoding is known (`httpUrlDecode_take_iff`).
-/

namespace PS5Torrent

/-- What an encoder may do: neither `%` nor `+` stands for itself. -/
structure PercentCoding where
  safe : UInt8 → Bool
  hex : ℕ → UInt8
  safe_percent : safe (chr '%') = false
  safe_plus : safe (chr '+') = false
  hexDigitVal_hex : ∀ n < 16, hexDigitVal (hex n) = some n

namespace PercentCoding

/-- What is written for a byte. -/
def byte (e : PercentCoding) (c : UInt8) : Bytes :=
  if e.safe c then [c] else [chr '%', e.hex (c.toNat / 16), e.hex (c.toNat % 16)]

def encode (e : PercentCoding) (s : Bytes) : Bytes := s.flatMap e.byte

end PercentCoding

/-! ## The encoders -/

/-- The characters that `net_url_encode` leaves as they are. -/
def isUnreserved (c : UInt8) : Bool :=
  (chr '0' ≤ c ∧ c ≤ chr '9') || (chr 'a' ≤ c ∧ c ≤ chr 'z') || (chr 'A' ≤ c ∧ c ≤ chr 'Z') ||
    c = chr '.' || c = chr '-' || c = chr '_' || c = chr '~'

def netUrlEncode (input : Bytes) : Bytes :=
  input.flatMap fun c =>
    if isUnreserved c then [c] else [chr '%', hexChar (c.toNat / 16), hexChar (c.toNat % 16)]

/-- The characters that `encodeURIComponent` leaves as they are. -/
def isUriComponentChar (c : UInt8) : Bool :=
  (chr '0' ≤ c ∧ c ≤ chr '9') || (chr 'a' ≤ c ∧ c ≤ chr 'z') || (chr 'A' ≤ c ∧ c ≤ chr 'Z') ||
    c ∈ lit "-_.!~*'()"

def netCoding : PercentCoding where
  safe := isUnreserved
  hex := hexChar
  safe_percent := by decide
  safe_plus := by decide
  hexDigitVal_hex := by decide

def pathCoding : PercentCoding where
  safe := isUrlPathChar
  hex := upperHex
  safe_percent := by decide
  safe_plus := by decide
  hexDigitVal_hex := by decide

def uriCoding : PercentCoding where
  safe := isUriComponentChar
  hex := upperHex
  safe_percent := by decide
  safe_plus := by decide
  hexDigitVal_hex := by decide

theorem netUrlEncode_eq (input : Bytes) : netUrlEncode input = netCoding.encode input := rfl

/-! ## Decoding -/

variable {e : PercentCoding} {c : UInt8} {s rest : Bytes}

/-- A hexadecimal digit is neither a space nor a sign. -/
theorem isSpace_of_hexDigitVal {a : UInt8} {n : ℕ} (h : hexDigitVal a = some n) :
    isSpace a = false ∧ a ≠ chr '-' ∧ a ≠ chr '+' := by
  have hle : 48 ≤ a.toNat := by
    rw [hexDigitVal] at h
    split_ifs at h with h0 ha hA
    · exact UInt8.le_iff_toNat_le.1 h0.1
    · exact (by decide : 48 ≤ 97).trans (UInt8.le_iff_toNat_le.1 ha.1)
    · exact (by decide : 48 ≤ 65).trans (UInt8.le_iff_toNat_le.1 hA.1)
  refine ⟨?_, ?_, ?_⟩
  · exact isSpace_of_lt (by omega)
  · rintro rfl
    exact absurd hle (by decide)
  · rintro rfl
    exact absurd hle (by decide)

theorem strtolHex_pair {a b : UInt8} {i j : ℕ} (ha : hexDigitVal a = some i)
    (hb : hexDigitVal b = some j) : strtolHex [a, b] = (16 * i + j : ℕ) := by
  obtain ⟨hspace, hminus, hplus⟩ := isSpace_of_hexDigitVal ha
  have hdrop : [a, b].dropWhile isSpace = [a, b] :=
    List.dropWhile_cons_of_neg (by rw [hspace]; exact Bool.false_ne_true)
  rw [strtolHex, hdrop]
  simp [hminus, hplus, ha, hb]
  ring

theorem toChar_toNat (c : UInt8) : toChar (c.toNat : ℤ) = c := by
  have hlt := c.toNat_lt
  have hmod : ((c.toNat : ℤ) % 256).toNat = c.toNat := by omega
  rw [toChar, hmod, UInt8.ofNat_toNat]

/-- A byte that is neither `%` nor `+` stands for itself. -/
theorem urlDecode_cons (hpercent : c ≠ chr '%') (hplus : c ≠ chr '+') :
    urlDecode (c :: rest) = c :: urlDecode rest := by
  rcases rest with _ | ⟨a, _ | ⟨b, rest⟩⟩
  · simp [urlDecode, hplus]
  · simp [urlDecode, hplus]
  · rw [urlDecode, if_neg hpercent, if_neg hplus]

theorem urlDecode_byte (e : PercentCoding) (c : UInt8) (rest : Bytes) :
    urlDecode (e.byte c ++ rest) = c :: urlDecode rest := by
  rw [PercentCoding.byte]
  split
  case isTrue hsafe =>
    refine urlDecode_cons ?_ ?_
    · rintro rfl
      rw [e.safe_percent] at hsafe
      exact Bool.false_ne_true hsafe
    · rintro rfl
      rw [e.safe_plus] at hsafe
      exact Bool.false_ne_true hsafe
  case isFalse =>
    have hlt := c.toNat_lt
    have hval := strtolHex_pair (e.hexDigitVal_hex (c.toNat / 16) (by omega))
      (e.hexDigitVal_hex (c.toNat % 16) (by omega))
    rw [Nat.div_add_mod] at hval
    rw [List.cons_append, List.cons_append, List.cons_append, List.nil_append, urlDecode,
      if_pos rfl, hval, toChar_toNat]

theorem urlDecode_encode (e : PercentCoding) (s rest : Bytes) :
    urlDecode (e.encode s ++ rest) = s ++ urlDecode rest := by
  induction s with
  | nil => rfl
  | cons c s ih =>
    rw [PercentCoding.encode, List.flatMap_cons, List.append_assoc, urlDecode_byte, List.cons_append]
    exact congrArg (c :: ·) ih

theorem hex_ne_zero (e : PercentCoding) {n : ℕ} (hn : n < 16) : e.hex n ≠ 0 := by
  intro h
  have hval := e.hexDigitVal_hex n hn
  have hzero : hexDigitVal 0 = none := by decide
  rw [h, hzero] at hval
  cases hval

/-- An encoding has no NUL, if the string has none. -/
theorem not_mem_encode (e : PercentCoding) (hs : 0 ∉ s) : 0 ∉ e.encode s := by
  rw [PercentCoding.encode, List.mem_flatMap]
  rintro ⟨c, hc, hmem⟩
  have hlt := c.toNat_lt
  rw [PercentCoding.byte] at hmem
  split at hmem
  · obtain rfl := List.mem_singleton.1 hmem
    exact hs hc
  · rcases List.mem_cons.1 hmem with h | hmem
    · exact absurd h (by decide)
    · rcases List.mem_cons.1 hmem with h | hmem
      · exact hex_ne_zero e (by omega) h.symm
      · exact hex_ne_zero e (by omega) (List.mem_singleton.1 hmem).symm

/-- An encoding is read back. -/
theorem httpUrlDecode_encode (e : PercentCoding) (hs : 0 ∉ s) : httpUrlDecode (e.encode s) = s := by
  have hdecode := urlDecode_encode e s []
  rw [List.append_nil, urlDecode, List.append_nil] at hdecode
  rw [httpUrlDecode, cstr_of_not_mem (not_mem_encode e hs), hdecode, cstr_of_not_mem hs]

/-! ## Parts of an encoding -/

theorem encode_append (e : PercentCoding) (s t : Bytes) :
    e.encode (s ++ t) = e.encode s ++ e.encode t := List.flatMap_append

theorem encode_cons (e : PercentCoding) (c : UInt8) (s : Bytes) :
    e.encode (c :: s) = e.byte c ++ e.encode s := List.flatMap_cons

/-- Safe bytes stand for themselves. -/
theorem encode_of_safe (h : ∀ b ∈ s, e.safe b) : e.encode s = s := by
  induction s with
  | nil => rfl
  | cons b s ih =>
    rw [List.forall_mem_cons] at h
    rw [encode_cons, PercentCoding.byte, if_pos h.1, ih h.2]
    rfl

/-- The beginning of an encoding is that of a beginning of the string, with a part of what is
    written for the next byte. -/
theorem exists_take_encode (e : PercentCoding) {s : Bytes} {k : ℕ} (hk : k < (e.encode s).length) :
    ∃ s₁ c s₂ j, s = s₁ ++ c :: s₂ ∧ (e.encode s).take k = e.encode s₁ ++ (e.byte c).take j ∧
      k = (e.encode s₁).length + j ∧ j < (e.byte c).length := by
  induction s generalizing k with
  | nil => exact absurd hk (Nat.not_lt_zero k)
  | cons c s ih =>
    rw [encode_cons] at hk ⊢
    rcases lt_or_ge k (e.byte c).length with hlt | hge
    · refine ⟨[], c, s, k, rfl, ?_, (Nat.zero_add k).symm, hlt⟩
      rw [List.take_append_of_le_length hlt.le]
      rfl
    · rw [List.length_append] at hk
      obtain ⟨s₁, c', s₂, j, rfl, htake, hj, hlt⟩ := ih (k := k - (e.byte c).length) (by omega)
      refine ⟨c :: s₁, c', s₂, j, rfl, ?_, ?_, hlt⟩
      · rw [List.take_append, List.take_of_length_le hge, htake, encode_cons, List.append_assoc]
      · rw [encode_cons, List.length_append]
        omega

/-- An escape that is cut off stays as it is. -/
theorem urlDecode_take_byte (e : PercentCoding) {c : UInt8} {j : ℕ} (hj : j < (e.byte c).length) :
    urlDecode ((e.byte c).take j) = (e.byte c).take j := by
  rw [PercentCoding.byte] at hj ⊢
  split at hj
  case isTrue hsafe =>
    obtain rfl : j = 0 := Nat.lt_one_iff.1 hj
    rfl
  case isFalse hsafe =>
    rw [if_neg hsafe]
    rcases j with _ | _ | _ | j
    · rfl
    · rfl
    · have hplus : e.hex (c.toNat / 16) ≠ chr '+' := by
        have hlt := c.toNat_lt
        exact (isSpace_of_hexDigitVal (e.hexDigitVal_hex (c.toNat / 16) (by omega))).2.2
      have hne : chr '%' ≠ chr '+' := by decide
      simp [urlDecode, hplus, hne]
    · simp only [List.length_cons, List.length_nil] at hj
      omega

theorem httpUrlDecode_part {t part : Bytes} (ht : 0 ∉ t) (hpart : 0 ∉ part)
    (hdecode : urlDecode part = part) (e : PercentCoding) :
    httpUrlDecode (e.encode t ++ part) = t ++ part := by
  have hmem : 0 ∉ e.encode t ++ part := fun h =>
    (List.mem_append.1 h).elim (not_mem_encode e ht) hpart
  have hmem' : 0 ∉ t ++ part := fun h => (List.mem_append.1 h).elim ht hpart
  rw [httpUrlDecode, cstr_of_not_mem hmem, urlDecode_encode, hdecode, cstr_of_not_mem hmem']

/-- A part of an encoding is read back as the string only if nothing is cut off, or if two bytes
    are, and what is left of an escape for `%` makes up the end of the string. -/
theorem httpUrlDecode_take_iff (hs : 0 ∉ s) (k : ℕ) :
    httpUrlDecode ((uriCoding.encode s).take k) = s ↔ (uriCoding.encode s).length ≤ k ∨
      (uriCoding.encode s).length = k + 2 ∧ (lit "%" <:+ s ∨ lit "%2" <:+ s) := by
  by_cases hk : (uriCoding.encode s).length ≤ k
  · rw [List.take_of_length_le hk]
    exact iff_of_true (httpUrlDecode_encode uriCoding hs) (.inl hk)
  rw [or_iff_right hk]
  constructor
  · intro h
    obtain ⟨s₁, c, s₂, j, rfl, htake, rfl, hj⟩ := exists_take_encode uriCoding (not_le.1 hk)
    have hs₁ : 0 ∉ s₁ := fun hmem => hs (List.mem_append_left _ hmem)
    have hbyte : 0 ∉ (uriCoding.byte c).take j := by
      intro hmem
      refine not_mem_encode uriCoding (s := [c]) (fun hc => ?_) ?_
      · exact hs (List.mem_append_right _ (List.mem_singleton.1 hc ▸ List.mem_cons_self))
      · rw [encode_cons]
        exact List.mem_append_left _ (List.mem_of_mem_take hmem)
    rw [htake, httpUrlDecode_part hs₁ hbyte (urlDecode_take_byte uriCoding hj)] at h
    have hpart := List.append_cancel_left h
    rw [encode_append, encode_cons, List.length_append, List.length_append]
    rw [PercentCoding.byte] at hpart hj ⊢
    split at hpart
    case isTrue hsafe =>
      rw [if_pos hsafe, List.length_singleton, Nat.lt_one_iff] at hj
      rw [hj, List.take_zero] at hpart
      cases hpart
    case isFalse hsafe =>
      rw [if_neg hsafe] at hj ⊢
      rcases j with _ | _ | _ | j
      · cases hpart
      · -- the escape is cut after the percent sign
        obtain ⟨rfl, rfl⟩ := List.cons.inj hpart
        exact ⟨by simp [PercentCoding.encode], .inl (List.suffix_append _ _)⟩
      · -- the escape is cut after its first digit
        obtain ⟨rfl, rfl⟩ := List.cons.inj hpart
        refine ⟨?_, .inr (List.suffix_append _ _)⟩
        have hdigit : uriCoding.encode [uriCoding.hex ((chr '%').toNat / 16)] = lit "2" := by decide
        rw [List.take_succ_cons, List.take_zero, hdigit]
        rfl
      · simp only [List.length_cons, List.length_nil] at hj
        omega
  · rintro ⟨hlength, ⟨t, rfl⟩ | ⟨t, rfl⟩⟩
    · have ht : 0 ∉ t := fun hmem => hs (List.mem_append_left _ hmem)
      have hencode : uriCoding.encode (lit "%") = lit "%25" := by decide
      rw [encode_append, hencode] at hlength ⊢
      have hlit : (lit "%25").length = 3 := by decide
      rw [List.length_append] at hlength
      have htake : (uriCoding.encode t ++ lit "%25").take k = uriCoding.encode t ++ lit "%" := by
        obtain rfl : k = (uriCoding.encode t).length + 1 := by omega
        rw [List.take_length_add_append]
        rfl
      rw [htake, httpUrlDecode_part ht (by decide) (by decide)]
    · have ht : 0 ∉ t := fun hmem => hs (List.mem_append_left _ hmem)
      have hencode : uriCoding.encode (lit "%2") = lit "%252" := by decide
      rw [encode_append, hencode] at hlength ⊢
      have hlit : (lit "%252").length = 4 := by decide
      rw [List.length_append] at hlength
      have htake : (uriCoding.encode t ++ lit "%252").take k = uriCoding.encode t ++ lit "%2" := by
        obtain rfl : k = (uriCoding.encode t).length + 2 := by omega
        rw [List.take_length_add_append]
        rfl
      rw [htake, httpUrlDecode_part ht (by decide) (by decide)]

/-! ## Parameters -/

/-- A parameter as the browser writes it. -/
def formParam (pair : Bytes × Bytes) : Bytes := pair.1 ++ chr '=' :: uriCoding.encode pair.2

/-- The parameters of a form. -/
def formQuery : List (Bytes × Bytes) → Bytes
  | [] => []
  | [pair] => formParam pair
  | pair :: pair' :: pairs => formParam pair ++ chr '&' :: formQuery (pair' :: pairs)

/-- A key has none of the characters that separate. -/
structure IsKey (key : Bytes) : Prop where
  amp : chr '&' ∉ key
  eq : chr '=' ∉ key
  nul : 0 ∉ key

/-- A parameter is found exactly if it is there, and read as its first value if this is shorter
    than the buffer. -/
structure ReadsParam (pairs : List (Bytes × Bytes)) (key : Bytes) (valLen : ℕ) : Prop where
  found : (httpGetParam (formQuery pairs) key valLen).isSome ↔ key ∈ pairs.map Prod.fst
  value : ∀ v ∈ pairs.lookup key, v.length < valLen →
    httpGetParam (formQuery pairs) key valLen = some v

variable {key key' x y : Bytes} {pairs : List (Bytes × Bytes)} {valLen : ℕ}

theorem takeWhile_ne_eq_self {b : UInt8} (hx : b ∉ x) : x.takeWhile (· ≠ b) = x :=
  List.takeWhile_eq_self_iff.2 fun _ ha => decide_eq_true (ne_of_mem_of_not_mem ha hx)

/-- Between parameters, the search goes on to the next separator. -/
theorem findParam_skip (hx : chr '&' ∉ x) (y : Bytes) :
    findParam key valLen false (x ++ chr '&' :: y) = findParam key valLen true y := by
  induction x with
  | nil => simp [findParam]
  | cons c x ih =>
    rw [List.mem_cons, not_or] at hx
    have hc : c ≠ chr '&' := fun h => hx.1 h.symm
    rw [List.cons_append, findParam, ← ih hx.2]
    simp [hc]

theorem findParam_none (hx : chr '&' ∉ x) : findParam key valLen false x = none := by
  induction x with
  | nil => rfl
  | cons c x ih =>
    rw [List.mem_cons, not_or] at hx
    have hc : c ≠ chr '&' := fun h => hx.1 h.symm
    rw [findParam, ← ih hx.2]
    simp [hc]

/-- A parameter begins with a key only if this is its own. -/
theorem prefix_formParam_iff (hkey : chr '=' ∉ key) (hkey' : chr '=' ∉ key') :
    key ++ [chr '='] <+: key' ++ chr '=' :: y ↔ key = key' := by
  constructor
  · rintro ⟨t, ht⟩
    rw [List.append_assoc] at ht
    have htake := congrArg (List.takeWhile (· ≠ chr '=')) ht
    rwa [List.singleton_append, takeWhile_ne_append hkey, takeWhile_ne_append hkey'] at htake
  · rintro rfl
    exact ⟨y, by simp⟩

/-- At the start of a parameter, either its key is the one looked for or it is skipped. -/
theorem findParam_formParam (hkey : IsKey key) (hkey' : IsKey key') (y : Bytes) :
    findParam key valLen true (key' ++ chr '=' :: y) =
      if key = key' then
        some (httpUrlDecode ((y.takeWhile (· ≠ chr '&')).take (valLen - 1)))
      else findParam key valLen false (key' ++ chr '=' :: y) := by
  obtain ⟨c, p, hcp⟩ : ∃ c p, key' ++ chr '=' :: y = c :: p :=
    List.exists_cons_of_ne_nil (by simp)
  have hc : c ≠ chr '&' := by
    rintro rfl
    cases key' with
    | nil => exact absurd (List.cons.inj hcp).1 (by decide)
    | cons b key' => exact hkey'.amp ((List.cons.inj hcp).1 ▸ List.mem_cons_self)
  have hprefix : (key ++ [chr '=']).isPrefixOf (c :: p) ↔ key = key' := by
    rw [List.isPrefixOf_iff_prefix, ← hcp]
    exact prefix_formParam_iff hkey.eq hkey'.eq
  rw [hcp]
  by_cases heq : key = key'
  · rw [if_pos heq, findParam, if_pos (by simp [hc, hprefix.2 heq]), ← hcp, heq,
      List.drop_length_add_append, List.drop_one, List.tail_cons]
  · rw [if_neg heq, findParam, if_neg (by simp [mt hprefix.1 heq]), findParam,
      if_neg (by simp)]

theorem not_mem_encode_amp (s : Bytes) : chr '&' ∉ uriCoding.encode s := by
  rw [PercentCoding.encode, List.mem_flatMap]
  rintro ⟨c, -, hmem⟩
  have hlt := c.toNat_lt
  have hdigit : ∀ n < 16, chr '&' ≠ uriCoding.hex n := by decide
  rw [PercentCoding.byte] at hmem
  split at hmem
  case isTrue hsafe =>
    obtain rfl := List.mem_singleton.1 hmem
    exact absurd hsafe (by decide)
  case isFalse =>
    rcases List.mem_cons.1 hmem with h | hmem
    · exact absurd h (by decide)
    · rcases List.mem_cons.1 hmem with h | hmem
      · exact hdigit _ (by omega) h
      · exact hdigit _ (by omega) (List.mem_singleton.1 hmem)

theorem not_mem_formParam (hkey : IsKey key) (v : Bytes) : chr '&' ∉ formParam (key, v) := by
  rw [formParam, List.mem_append, List.mem_cons]
  rintro (h | h | h)
  · exact hkey.amp h
  · exact absurd h (by decide)
  · exact not_mem_encode_amp v h

/-- The search finds the first parameter with the key. -/
theorem findParam_formQuery (hkey : IsKey key) (hpairs : ∀ pair ∈ pairs, IsKey pair.1) :
    findParam key valLen true (formQuery pairs) = (pairs.lookup key).map fun v =>
      httpUrlDecode ((uriCoding.encode v).take (valLen - 1)) := by
  induction pairs with
  | nil => rfl
  | cons pair pairs ih =>
    obtain ⟨key', v⟩ := pair
    rw [List.forall_mem_cons] at hpairs
    obtain ⟨hkey', hpairs⟩ := hpairs
    have ih := ih hpairs
    rw [List.lookup_cons]
    cases pairs with
    | nil =>
      rw [formQuery, formParam, findParam_formParam hkey hkey',
        takeWhile_ne_eq_self (not_mem_encode_amp v)]
      by_cases heq : key = key'
      · simp [heq]
      · rw [if_neg heq, beq_false_of_ne heq]
        exact findParam_none (not_mem_formParam hkey' v)
    | cons pair' pairs =>
      rw [formQuery, formParam, List.append_assoc, List.cons_append,
        findParam_formParam hkey hkey', takeWhile_ne_append (not_mem_encode_amp v)]
      by_cases heq : key = key'
      · simp [heq]
      · rw [if_neg heq, beq_false_of_ne heq, ← List.cons_append, ← List.append_assoc]
        exact (findParam_skip (not_mem_formParam hkey' v) _).trans ih

theorem not_mem_formQuery (hpairs : ∀ pair ∈ pairs, IsKey pair.1 ∧ 0 ∉ pair.2) :
    0 ∉ formQuery pairs := by
  have hparam : ∀ pair ∈ pairs, 0 ∉ formParam pair := by
    intro pair hpair hmem
    rw [formParam, List.mem_append, List.mem_cons] at hmem
    rcases hmem with h | h | h
    · exact (hpairs pair hpair).1.nul h
    · exact absurd h (by decide)
    · exact not_mem_encode uriCoding (hpairs pair hpair).2 h
  induction pairs with
  | nil => exact List.not_mem_nil
  | cons pair pairs ih =>
    rw [List.forall_mem_cons] at hpairs hparam
    cases pairs with
    | nil => exact hparam.1
    | cons pair' pairs =>
      rw [formQuery, List.mem_append, List.mem_cons]
      rintro (h | h | h)
      · exact hparam.1 h
      · exact absurd h (by decide)
      · exact ih hpairs.2 hparam.2 h

theorem httpGetParam_formQuery (hkey : IsKey key)
    (hpairs : ∀ pair ∈ pairs, IsKey pair.1 ∧ 0 ∉ pair.2) :
    httpGetParam (formQuery pairs) key valLen = (pairs.lookup key).map fun v =>
      httpUrlDecode ((uriCoding.encode v).take (valLen - 1)) := by
  rw [httpGetParam, cstr_of_not_mem (not_mem_formQuery hpairs)]
  exact findParam_formQuery hkey fun pair hpair => (hpairs pair hpair).1

/-- A parameter is read right exactly if the encoding of its value is shorter than the buffer, or
    if it is two bytes too long and the value ends with `%` or `%2`. -/
theorem readsParam_iff (hkey : IsKey key) (hpairs : ∀ pair ∈ pairs, IsKey pair.1 ∧ 0 ∉ pair.2)
    (hlen : 0 < valLen) :
    ReadsParam pairs key valLen ↔ ∀ v ∈ pairs.lookup key, v.length < valLen →
      (uriCoding.encode v).length < valLen ∨
        (uriCoding.encode v).length = valLen + 1 ∧ (lit "%" <:+ v ∨ lit "%2" <:+ v) := by
  have hget := @httpGetParam_formQuery key pairs valLen hkey hpairs
  have hfound : (httpGetParam (formQuery pairs) key valLen).isSome ↔ key ∈ pairs.map Prod.fst := by
    rw [hget, Option.isSome_map, List.lookup_isSome_iff, List.mem_map]
    refine exists_congr fun pair => and_congr_right fun _ => ?_
    rw [beq_iff_eq]
    exact eq_comm
  have hvalue (v : Bytes) (hv : v ∈ pairs.lookup key) :
      httpGetParam (formQuery pairs) key valLen = some v ↔ (uriCoding.encode v).length < valLen ∨
        (uriCoding.encode v).length = valLen + 1 ∧ (lit "%" <:+ v ∨ lit "%2" <:+ v) := by
    obtain ⟨before, after, hsplit, -⟩ := List.lookup_eq_some_iff.1 hv
    have hnul : 0 ∉ v := (hpairs (key, v) (hsplit ▸ List.mem_append_right _ List.mem_cons_self)).2
    rw [hget, Option.mem_def.1 hv, Option.map_some, Option.some.injEq, httpUrlDecode_take_iff hnul]
    have h₁ : (uriCoding.encode v).length ≤ valLen - 1 ↔ (uriCoding.encode v).length < valLen := by
      omega
    have h₂ : (uriCoding.encode v).length = valLen - 1 + 2 ↔
        (uriCoding.encode v).length = valLen + 1 := by
      omega
    rw [h₁, h₂]
  constructor
  · intro h v hv hlt
    exact (hvalue v hv).1 (h.value v hv hlt)
  · intro h
    exact ⟨hfound, fun v hv hlt => (hvalue v hv).2 (h v hv hlt)⟩

/-- A short destination is read right. -/
theorem readsParam_path :
    ReadsParam [(lit "magnet", lit "magnet:?xt=a&dn=b"), (lit "path", lit "/mnt/usb0/é")] (lit "path")
      512 :=
  (readsParam_iff ⟨by decide, by decide, by decide⟩ (by
      rintro pair (_ | ⟨_, _ | ⟨_, ⟨⟩⟩⟩)
      · exact ⟨⟨by decide, by decide, by decide⟩, by decide +kernel⟩
      · exact ⟨⟨by decide, by decide, by decide⟩, by decide +kernel⟩)
    (by decide)).2 (by decide +kernel)

/-- A destination of 200 bytes that are all escaped is cut off. -/
theorem not_readsParam_long :
    ¬ReadsParam [(lit "path", List.replicate 200 (chr '/'))] (lit "path") 512 := by
  intro h
  have hvalue := h.value (List.replicate 200 (chr '/')) List.lookup_cons_self
    (by rw [List.length_replicate]; decide)
  revert hvalue
  decide +kernel

end PS5Torrent
