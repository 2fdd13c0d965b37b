import PS5Torrent.Library.Separated
import PS5Torrent.FileIo.Contents
import PS5Torrent.HttpServer.Decoding
import PS5Torrent.TorrentMgr.Magnet

/-!
# What a magnet link stands for

The parameters of a magnet link stand between `?` and `&`. A torrent is added
as the parameters say (`ReadMagnet`), if their names are found where they are:
`torrent_mgr_add_magnet` looks for `xt=urn:btih:`, `dn=` and `tr=` anywhere in
the link, and takes what follows for a hash, whatever it is. The law
(`MagnetLaw`) holds of exactly the links that are refused or plain
(`magnetLaw_iff`).
-/

namespace PS5Torrent

open Search

/-- The parameters of a magnet link. -/
def magnetParams (magnetUri : Bytes) : Option (List Bytes) :=
  if lit "magnet:?" <+: cstr magnetUri then
    some (((cstr magnetUri).drop (lit "magnet:?").length).splitOn (chr '&'))
  else none

/-- A place in a magnet link where a parameter starts. -/
def StartsParam (magnetUri place : Bytes) : Prop :=
  cstr magnetUri = lit "magnet:?" ++ place ∨ chr '&' :: place <:+ cstr magnetUri

/-- The places where `torrent_mgr_add_magnet` finds the parameters that it reads. -/
def readPlaces (magnetUri : Bytes) : List Bytes :=
  (strstr magnetUri (lit "xt=urn:btih:")).toList ++ (strstr magnetUri (lit "dn=")).toList ++
    occurrences (lit "tr=") (chr '&') 8 (cstr magnetUri)

/-- The text of an info hash: 40 hexadecimal digits. -/
def IsHexHash (digits : Bytes) : Prop := digits.length = 40 ∧ ∀ c ∈ digits, (hexDigitVal c).isSome

/-- The bytes that pairs of hexadecimal digits denote. -/
def bytesOfDigits : Bytes → Bytes
  | a :: b :: digits =>
    UInt8.ofNat (16 * (hexDigitVal a).getD 0 + (hexDigitVal b).getD 0) :: bytesOfDigits digits
  | _ => []

/-- A torrent is added as the parameters of a magnet link say, which are read where they start. -/
structure ReadMagnet (m : TorrentMgr) (magnetUri : Bytes) (params : List Bytes)
    (r : Option ℕ × TorrentMgr) : Prop where
  params_eq : magnetParams magnetUri = some params
  places : ∀ place ∈ readPlaces magnetUri, StartsParam magnetUri place
  added : ∃ digits mt, (marked (lit "xt=urn:btih:") params).head? = some digits ∧
    IsHexHash digits ∧ r.1 = some m.torrents.length ∧ r.2.torrents = m.torrents ++ [mt] ∧
    mt.torrent.infoHash = bytesOfDigits digits ∧
    mt.torrent.name = some (((marked (lit "dn=") params).head?.map decodeEscapes).getD digits) ∧
    mt.torrent.announceList = ((marked (lit "tr=") params).take 8).map decodeEscapes

/-- The call fails and changes nothing, or it adds what the link stands for. -/
def MagnetLaw (m : TorrentMgr) (magnetUri : Bytes) (r : Option ℕ × TorrentMgr) : Prop :=
  r = (none, m) ∨ ∃ params, ReadMagnet m magnetUri params r

/-- Parameters without a name in the wrong place, and with values that are read as they are. -/
structure PlainMagnet (params : List Bytes) : Prop where
  hash : ∃ digits, (marked (lit "xt=urn:btih:") params).head? = some digits ∧ IsHexHash digits
  hash_atStart : AtStart (lit "xt=urn:btih:") params 1
  name : ∀ v ∈ (marked (lit "dn=") params).head?, v ≠ [] ∧ DecodesWithin 255 v
  name_atStart : AtStart (lit "dn=") params 1
  trackers : ∀ v ∈ (marked (lit "tr=") params).take 8, WellEscaped v
  trackers_atStart : AtStart (lit "tr=") params 8

/-! ## Places -/

/-- A name that is looked for in a magnet link. -/
structure IsMarker (w : Bytes) : Prop where
  ne_nil : w ≠ []
  amp : chr '&' ∉ w
  question : chr '?' ∉ w
  scheme : search w (lit "magnet:") = none

theorem isMarker_xt : IsMarker (lit "xt=urn:btih:") := ⟨by decide, by decide, by decide, by decide⟩

theorem isMarker_dn : IsMarker (lit "dn=") := ⟨by decide, by decide, by decide, by decide⟩

theorem isMarker_tr : IsMarker (lit "tr=") := ⟨by decide, by decide, by decide, by decide⟩

variable {m : TorrentMgr} {magnetUri w rest s : Bytes} {params : List Bytes} {n : ℕ}

theorem exists_of_magnetParams (h : magnetParams magnetUri = some params) :
    ∃ rest, cstr magnetUri = lit "magnet:?" ++ rest ∧ separated (chr '&') params = chr '&' :: rest ∧
      ∀ p ∈ params, chr '&' ∉ p := by
  rw [magnetParams] at h
  split at h
  · rename_i hscheme
    obtain ⟨rest, hrest⟩ := hscheme
    obtain rfl := Option.some.inj h
    rw [← hrest, List.drop_left]
    exact ⟨rest, rfl, separated_splitOn (chr '&') rest⟩
  · cases h

/-- The names are looked for in the parameters alone. -/
theorem occurrences_magnet (hw : IsMarker w)
    (hrest : separated (chr '&') params = chr '&' :: rest) :
    occurrences w (chr '&') n (lit "magnet:?" ++ rest) =
        occurrences w (chr '&') n (separated (chr '&') params) ∧
      occurrences w (chr '&') n (lit "magnet:?" ++ rest) = occurrences w (chr '&') n rest := by
  have hlit : lit "magnet:?" ++ rest = lit "magnet:" ++ chr '?' :: rest := rfl
  have hskip : occurrences w (chr '&') n (chr '&' :: rest) = occurrences w (chr '&') n rest :=
    occurrences_skip (p := []) hw.ne_nil hw.amp (search_nil hw.ne_nil)
  rw [hlit, occurrences_skip hw.ne_nil hw.question hw.scheme, hrest, hskip]
  exact ⟨rfl, rfl⟩

theorem startsParam_iff (huri : cstr magnetUri = lit "magnet:?" ++ rest) (hs : s <:+ rest) :
    StartsParam magnetUri s ↔ chr '&' :: s <:+ chr '&' :: rest := by
  rw [StartsParam, huri, List.append_right_inj, List.suffix_cons_iff, List.cons.injEq,
    and_iff_right rfl, @eq_comm _ rest]
  refine or_congr_right' fun hne => ?_
  refine ⟨fun h => ?_, fun h => h.trans (List.suffix_append _ rest)⟩
  have hlen : s.length ≠ rest.length := fun hlen => hne (hs.eq_of_length hlen)
  exact List.suffix_of_suffix_length_le h (List.suffix_append _ rest) (hs.length_le.lt_of_ne hlen)

/-- The places where a name is found first start parameters exactly if it is at the start of the
    first parameters that contain it. -/
theorem startsParam_occurrences_iff (hw : IsMarker w) (h : magnetParams magnetUri = some params) :
    (∀ place ∈ occurrences w (chr '&') n (cstr magnetUri), StartsParam magnetUri place) ↔
      AtStart w params n := by
  obtain ⟨rest, huri, hrest, hparams⟩ := exists_of_magnetParams h
  obtain ⟨heq, heq'⟩ := occurrences_magnet (n := n) hw hrest
  rw [← cons_suffix_iff hw.ne_nil hw.amp hparams, huri, ← heq, heq']
  refine forall₂_congr fun s hs => ?_
  rw [startsParam_iff huri (of_mem_occurrences hs).1, hrest]

theorem map_valueAfter_magnet (hw : IsMarker w) (h : magnetParams magnetUri = some params)
    (hstart : AtStart w params n) :
    (occurrences w (chr '&') n (cstr magnetUri)).map (valueAfter w (chr '&')) =
      (marked w params).take n := by
  obtain ⟨rest, huri, hrest, hparams⟩ := exists_of_magnetParams h
  obtain ⟨heq, -⟩ := occurrences_magnet (n := n) hw hrest
  rw [huri, heq, map_valueAfter hw.ne_nil hw.amp hparams hstart]

/-- The value after the place that `strstr` finds is that of the first parameter with the name. -/
theorem map_valueAfter_strstr (hw : IsMarker w) (h : magnetParams magnetUri = some params)
    (hstart : AtStart w params 1) :
    (strstr magnetUri w).map (valueAfter w (chr '&')) = (marked w params).head? := by
  have hmap := map_valueAfter_magnet hw h hstart
  have hstrstr : strstr magnetUri w = searchFrom w (cstr magnetUri) := rfl
  rw [occurrences_one] at hmap
  have hhead : (marked w params).head? = ((marked w params).take 1).head? := by
    rw [List.head?_take, if_neg one_ne_zero]
  rw [hstrstr, hhead, ← hmap]
  cases searchFrom w (cstr magnetUri) with
  | none => rfl
  | some s => rfl

theorem readPlaces_iff (h : magnetParams magnetUri = some params) :
    (∀ place ∈ readPlaces magnetUri, StartsParam magnetUri place) ↔
      AtStart (lit "xt=urn:btih:") params 1 ∧ AtStart (lit "dn=") params 1 ∧
        AtStart (lit "tr=") params 8 := by
  have hxt := startsParam_occurrences_iff (n := 1) isMarker_xt h
  have hdn := startsParam_occurrences_iff (n := 1) isMarker_dn h
  have htr := startsParam_occurrences_iff (n := 8) isMarker_tr h
  rw [occurrences_one] at hxt hdn
  rw [readPlaces, List.forall_mem_append, List.forall_mem_append, htr]
  exact (and_congr_left' (and_congr hxt hdn)).trans and_assoc

/-! ## The info hash -/

theorem ne_of_isHexHash {digits : Bytes} (h : IsHexHash digits) {c d : UInt8} (hc : c ∈ digits)
    (hd : hexDigitVal d = none) : c ≠ d := by
  rintro rfl
  have hsome := h.2 c hc
  rw [hd] at hsome
  exact Bool.false_ne_true hsome

/-- The digits that are read are the parameter's, if it is a hash. -/
theorem hashDigits_eq {digits xt : Bytes} (h : IsHexHash digits)
    (hxt : xt.takeWhile (· ≠ chr '&') = digits) : hashDigits xt = digits := by
  have hwhile : xt.takeWhile (fun c => c ≠ chr '&' ∧ c ≠ chr '?') =
      (xt.takeWhile (· ≠ chr '&')).takeWhile (· ≠ chr '?') := by
    rw [List.takeWhile_takeWhile]
    refine congrArg (xt.takeWhile ·) (funext fun c => decide_eq_decide.2 ?_)
    rw [decide_eq_true_iff, decide_eq_true_iff, and_comm]
  rw [hashDigits, hwhile, hxt, List.takeWhile_eq_self_iff.2 fun c hc =>
    decide_eq_true (ne_of_isHexHash h hc rfl), List.take_of_length_le h.1.le]

/-- Two hexadecimal digits are converted to the byte that they denote. -/
theorem toChar_strtolHex {a b : UInt8} (ha : (hexDigitVal a).isSome) (hb : (hexDigitVal b).isSome) :
    toChar (strtolHex (cstr [a, b])) =
      UInt8.ofNat (16 * (hexDigitVal a).getD 0 + (hexDigitVal b).getD 0) := by
  obtain ⟨i, hi⟩ := Option.isSome_iff_exists.1 ha
  obtain ⟨j, hj⟩ := Option.isSome_iff_exists.1 hb
  have hzero : hexDigitVal 0 = none := rfl
  have hmem : 0 ∉ [a, b] := by
    intro h
    rcases List.mem_cons.1 h with rfl | h
    · rw [hzero] at hi
      cases hi
    · rw [← List.mem_singleton.1 h, hzero] at hj
      cases hj
  have hlt₁ := hexDigitVal_lt hi
  have hlt₂ := hexDigitVal_lt hj
  have hmod : (((16 * i + j : ℕ) : ℤ) % 256).toNat = 16 * i + j := by omega
  rw [cstr_of_not_mem hmem, strtolHex_pair hi hj, toChar, hmod, hi, hj, Option.getD_some,
    Option.getD_some]

theorem map_range_digits {n : ℕ} {digits : Bytes} (hlen : digits.length = 2 * n)
    (hdigits : ∀ c ∈ digits, (hexDigitVal c).isSome) (tail : Bytes) :
    ((List.range n).map fun i => toChar (strtolHex (cstr
      [(digits ++ tail).getD (2 * i) 0, (digits ++ tail).getD (2 * i + 1) 0]))) =
      bytesOfDigits digits := by
  induction n generalizing digits with
  | zero =>
    obtain rfl := List.eq_nil_of_length_eq_zero hlen
    rfl
  | succ n ih =>
    obtain ⟨a, b, digits, rfl⟩ : ∃ a b ds, digits = a :: b :: ds := by
      rcases digits with _ | ⟨a, _ | ⟨b, ds⟩⟩
      · cases hlen
      · rw [List.length_singleton] at hlen
        omega
      · exact ⟨a, b, ds, rfl⟩
    rw [List.forall_mem_cons, List.forall_mem_cons] at hdigits
    obtain ⟨ha, hb, hdigits⟩ := hdigits
    have hlen' : digits.length = 2 * n := by
      simp only [List.length_cons] at hlen
      omega
    rw [List.range_succ_eq_map, List.map_cons, List.map_map, bytesOfDigits, ← ih hlen' hdigits]
    exact congrArg₂ List.cons (toChar_strtolHex ha hb) rfl

theorem hashBytes_eq {digits : Bytes} (h : IsHexHash digits) (stack : Bytes) :
    hashBytes stack digits = bytesOfDigits digits :=
  map_range_digits (n := 20) h.1 h.2 (0 :: stack)

/-! ## Names and trackers -/

theorem not_mem_valueAfter (hs : s <:+ cstr magnetUri) : 0 ∉ valueAfter w (chr '&') s := fun h =>
  not_mem_cstr magnetUri (hs.subset (List.mem_of_mem_drop ((List.takeWhile_subset _) h)))

theorem magnetTrackers_eq (n : ℕ) {l : Bytes} (hl : 0 ∉ l) :
    magnetTrackers n l =
      ((occurrences (lit "tr=") (chr '&') n l).map (valueAfter (lit "tr=") (chr '&'))).map
        httpUrlDecode := by
  induction n generalizing l with
  | zero => rfl
  | succ n ih =>
    have hstrstr : strstr l (lit "tr=") = searchFrom (lit "tr=") l := by
      rw [strstr, cstr_of_not_mem hl, searchFrom]
    rw [magnetTrackers, occurrences, hstrstr]
    cases hs : searchFrom (lit "tr=") l with
    | none => rfl
    | some s =>
      have hvalue : 0 ∉ s.drop (lit "tr=").length := fun h =>
        hl ((suffix_of_searchFrom hs).subset (List.mem_of_mem_drop h))
      have hnext : 0 ∉ (s.drop (lit "tr=").length).dropWhile (· ≠ chr '&') := fun h =>
        hvalue ((List.dropWhile_subset _) h)
      have hlen : (lit "tr=").length = 3 := rfl
      dsimp only
      rw [← hlen]
      split
      · rw [ih hnext]
        rfl
      · rfl

theorem zero_not_mem_of_mem_marked (hw : IsMarker w) (h : magnetParams magnetUri = some params)
    (hstart : AtStart w params n) {v : Bytes} (hv : v ∈ (marked w params).take n) : 0 ∉ v := by
  rw [← map_valueAfter_magnet hw h hstart] at hv
  obtain ⟨s, hs, rfl⟩ := List.mem_map.1 hv
  exact not_mem_valueAfter (of_mem_occurrences hs).1

/-- The trackers are decoded right exactly if they are well escaped. -/
theorem magnetTrackers_eq_iff (h : magnetParams magnetUri = some params)
    (hstart : AtStart (lit "tr=") params n) :
    magnetTrackers n magnetUri = ((marked (lit "tr=") params).take n).map decodeEscapes ↔
      ∀ v ∈ (marked (lit "tr=") params).take n, WellEscaped v := by
  have hcstr : magnetTrackers n magnetUri = magnetTrackers n (cstr magnetUri) := by
    cases n with
    | zero => rfl
    | succ n =>
      rw [magnetTrackers, magnetTrackers, strstr, strstr, cstr_cstr]
  rw [hcstr, magnetTrackers_eq n (not_mem_cstr magnetUri), map_valueAfter_magnet isMarker_tr h hstart,
    List.map_inj_left]
  refine forall₂_congr fun v hv => ?_
  have hnul := zero_not_mem_of_mem_marked isMarker_tr h hstart hv
  rw [httpUrlDecode, cstr_of_not_mem hnul, cstr_urlDecode_eq_iff hnul]

/-- Where the decoding is cut off at its start, the reference keeps a `%`. -/
theorem head?_decodeEscapes {v : Bytes} (hv : 0 ∉ v) (hne : v ≠ [])
    (h : cstr (urlDecode (v.take (n + 1))) = []) : (decodeEscapes v).head? = some (chr '%') := by
  obtain ⟨c, t, rfl⟩ := List.exists_cons_of_ne_nil hne
  have hc : c ≠ 0 := fun hc => hv (hc ▸ List.mem_cons_self)
  rw [List.take_succ_cons] at h
  by_cases hplain : c ≠ chr '%' ∨ (t.take n).length < 2
  · rw [(urlDecode_plain hplain).1, cstr_cons (plainVal_ne_zero hc)] at h
    exact absurd h (List.cons_ne_nil _ _)
  rw [not_or, not_not, not_lt] at hplain
  obtain ⟨rfl, hlen⟩ := hplain
  obtain ⟨a, b, s, hs⟩ : ∃ a b s, t.take n = a :: b :: s := by
    rcases ht : t.take n with _ | ⟨a, _ | ⟨b, s⟩⟩
    · rw [ht] at hlen
      exact absurd hlen (by decide)
    · rw [ht] at hlen
      exact absurd hlen (by simp)
    · exact ⟨a, b, s, rfl⟩
  have ht : t = a :: b :: (s ++ t.drop n) := by
    rw [← List.cons_append, ← List.cons_append, ← hs, List.take_append_drop]
  rw [hs, urlDecode, if_pos rfl] at h
  cases hval : escapeVal a b with
  | some v =>
    obtain ⟨hchar, hzero⟩ := toChar_of_escapeVal hval
    rw [hchar, cstr_cons hzero] at h
    exact absurd h (List.cons_ne_nil _ _)
  | none =>
    rw [ht, decodeEscapes, if_pos rfl, hval]
    rfl

/-- The name is the parameter's exactly if this is not empty and decoded right. -/
theorem magnetName_eq_iff {digits : Bytes} (h : magnetParams magnetUri = some params)
    (hstart : AtStart (lit "dn=") params 1) (hdigits : IsHexHash digits) :
    magnetName magnetUri digits = ((marked (lit "dn=") params).head?.map decodeEscapes).getD digits ↔
      ∀ v ∈ (marked (lit "dn=") params).head?, v ≠ [] ∧ DecodesWithin 255 v := by
  have hvalue := map_valueAfter_strstr isMarker_dn h hstart
  cases hs : strstr magnetUri (lit "dn=") with
  | none =>
    rw [hs] at hvalue
    rw [← hvalue, magnetName, displayName, hs]
    exact iff_of_true rfl fun v hv => absurd hv (Option.not_mem_none v)
  | some s =>
    rw [hs, Option.map_some] at hvalue
    have hnul : 0 ∉ valueAfter (lit "dn=") (chr '&') s :=
      not_mem_valueAfter (suffix_of_searchFrom hs)
    have hname : displayName magnetUri =
        cstr (urlDecode ((valueAfter (lit "dn=") (chr '&') s).take 255)) := by
      have htake := cstr_of_not_mem fun h => hnul (List.mem_of_mem_take (i := 255) h)
      rw [displayName, hs]
      exact congrArg (fun v => cstr (urlDecode v)) htake
    rw [← hvalue, Option.map_some, Option.getD_some, magnetName, hname]
    generalize valueAfter (lit "dn=") (chr '&') s = v at hnul
    have hdecode := @cstr_urlDecode_take_eq_iff v 255 hnul
    have hiff : (∀ v' ∈ some v, v' ≠ [] ∧ DecodesWithin 255 v') ↔
        v ≠ [] ∧ DecodesWithin 255 v :=
      ⟨fun h => h v rfl, fun h v' hv' => Option.some.inj hv' ▸ h⟩
    rw [hiff, ← hdecode]
    split
    · rename_i hempty
      -- the digits are no name that the reference decodes
      refine iff_of_false (fun heq => ?_) fun ⟨hne, heq⟩ => ?_
      · by_cases hne : v = []
        · rw [hne] at heq
          exact absurd hdigits.1 (heq ▸ by decide)
        · have hhead := head?_decodeEscapes hnul hne hempty
          rw [← heq] at hhead
          exact ne_of_isHexHash hdigits (List.mem_of_head? hhead) rfl rfl
      · rw [hempty] at heq
        exact decodeEscapes_ne_nil hne heq.symm
    · rename_i hne
      refine ⟨fun heq => ⟨?_, heq⟩, And.right⟩
      rintro rfl
      exact hne rfl

/-! ## The law -/

theorem magnetHash_isSome_iff :
    (magnetHash magnetUri).isSome ↔
      lit "magnet:" <+: cstr magnetUri ∧ lit "xt=urn:btih:" <:+: cstr magnetUri := by
  rw [magnetHash]
  by_cases hscheme : lit "magnet:" <+: cstr magnetUri
  · have hpre := List.isPrefixOf_iff_prefix.2 hscheme
    rw [hpre, Bool.not_true, if_neg Bool.false_ne_true, and_iff_right hscheme, Option.isSome_map,
      strstr, Option.isSome_map, infix_iff_search]
  · have hpre : (lit "magnet:").isPrefixOf (cstr magnetUri) = false :=
      Bool.eq_false_iff.2 fun h => hscheme (List.isPrefixOf_iff_prefix.1 h)
    rw [hpre, Bool.not_false, if_pos rfl]
    exact iff_of_false Bool.false_ne_true fun h => hscheme h.1

/-- A link that is accepted is read as it stands exactly if it is plain. -/
theorem readMagnet_iff {xt : Bytes} (savePath peerId stack : Bytes)
    (hroom : m.torrents.length < MAX_TORRENTS) (hxt : magnetHash magnetUri = some xt) :
    ReadMagnet m magnetUri params (m.torrentMgrAddMagnet magnetUri savePath peerId stack) ↔
      magnetParams magnetUri = some params ∧ PlainMagnet params := by
  have hadd : m.torrentMgrAddMagnet magnetUri savePath peerId stack =
      (some m.torrents.length, { m with
        nextGeneration := m.nextGeneration + 1
        torrents := m.torrents ++ [.added m.nextGeneration
          (magnetTorrent (hashBytes stack (hashDigits xt)) (some (magnetName magnetUri (hashDigits xt)))
            (magnetTrackers 8 magnetUri)) savePath true magnetUri peerId] }) := by
    rw [TorrentMgr.torrentMgrAddMagnet, hxt]
    exact if_neg (not_le.2 hroom)
  -- the digits that the call reads, if the parameter is a hash
  have hhash (hparams : magnetParams magnetUri = some params)
      (hstart : AtStart (lit "xt=urn:btih:") params 1) {digits : Bytes}
      (hdigits : (marked (lit "xt=urn:btih:") params).head? = some digits)
      (hhex : IsHexHash digits) : hashDigits xt = digits := by
    rw [← map_valueAfter_strstr isMarker_xt hparams hstart] at hdigits
    obtain ⟨s, hs, hvalue⟩ := Option.map_eq_some_iff.1 hdigits
    rw [magnetHash, hs] at hxt
    split at hxt
    · cases hxt
    · obtain rfl := Option.some.inj hxt
      exact hashDigits_eq hhex hvalue
  rw [hadd]
  constructor
  · rintro ⟨hparams, hplaces, digits, mt, hdigits, hhex, -, hmt, -, hname, htrackers⟩
    obtain ⟨hxtStart, hdnStart, htrStart⟩ := (readPlaces_iff hparams).1 hplaces
    obtain rfl := (List.cons.inj (List.append_cancel_left hmt)).1
    have hdigits' := hhash hparams hxtStart hdigits hhex
    subst hdigits'
    exact ⟨hparams, ⟨_, hdigits, hhex⟩, hxtStart,
      (magnetName_eq_iff hparams hdnStart hhex).1 (Option.some.inj hname), hdnStart,
      (magnetTrackers_eq_iff hparams htrStart).1 htrackers, htrStart⟩
  · rintro ⟨hparams, ⟨digits, hdigits, hhex⟩, hxtStart, hname, hdnStart, htrackers, htrStart⟩
    refine ⟨hparams, (readPlaces_iff hparams).2 ⟨hxtStart, hdnStart, htrStart⟩, digits, _,
      hdigits, hhex,
      rfl, rfl, ?_, ?_, ?_⟩
    · rw [hhash hparams hxtStart hdigits hhex]
      exact hashBytes_eq hhex stack
    · rw [hhash hparams hxtStart hdigits hhex]
      exact congrArg some ((magnetName_eq_iff hparams hdnStart hhex).2 hname)
    · exact (magnetTrackers_eq_iff hparams htrStart).2 htrackers

/-- The law holds of a call exactly if the link is refused or plain. -/
theorem magnetLaw_iff (m : TorrentMgr) (magnetUri savePath peerId stack : Bytes) :
    MagnetLaw m magnetUri (m.torrentMgrAddMagnet magnetUri savePath peerId stack) ↔
      MAX_TORRENTS ≤ m.torrents.length ∨
        ¬(lit "magnet:" <+: cstr magnetUri ∧ lit "xt=urn:btih:" <:+: cstr magnetUri) ∨
        ∃ params, magnetParams magnetUri = some params ∧ PlainMagnet params := by
  have hadded := m.added_torrentMgrAddMagnet magnetUri savePath peerId stack
  rw [← magnetHash_isSome_iff]
  by_cases hroom : m.torrents.length < MAX_TORRENTS
  · cases hxt : magnetHash magnetUri with
    | none =>
      refine iff_of_true (Or.inl (hadded.rejected fun h => ?_)) (Or.inr (Or.inl Bool.false_ne_true))
      rw [hxt] at h
      exact Bool.false_ne_true h.1
    | some xt =>
      have hsome : (magnetHash magnetUri).isSome := hxt ▸ rfl
      have hne : m.torrentMgrAddMagnet magnetUri savePath peerId stack ≠ (none, m) := by
        intro heq
        have hindex := (hadded.added hsome hroom).1
        rw [heq] at hindex
        cases hindex
      rw [MagnetLaw, or_iff_right hne, or_iff_right (not_le.2 hroom),
        or_iff_right (not_not.2 Option.isSome_some)]
      exact exists_congr fun params => readMagnet_iff savePath peerId stack hroom hxt
  · exact iff_of_true (Or.inl (hadded.rejected fun h => hroom h.2)) (Or.inl (not_lt.1 hroom))

/-- A link whose hash is written in base 32, with 32 characters. -/
def base32Link : Bytes := lit "magnet:?xt=urn:btih:ABCDEFGHIJKLMNOPQRSTUVWXYZ234567"

/-- A manager without torrents. -/
def bareMgr : TorrentMgr :=
  .init (sysWith []) (fun _ => []) fun k => ⟨k, true, .incomplete⟩

/-- The hash in base 32 is read as another one. -/
theorem not_magnetLaw_base32 :
    ¬MagnetLaw bareMgr base32Link
      (bareMgr.torrentMgrAddMagnet base32Link (lit "/data") [] []) := by
  rintro (h | ⟨params, hparams, -, digits, mt, hdigits, hhex, -⟩)
  · have hsome : (magnetHash base32Link).isSome := by decide
    have hroom : bareMgr.torrents.length < MAX_TORRENTS := by decide
    have hadded :=
      (bareMgr.added_torrentMgrAddMagnet base32Link (lit "/data") [] []).added hsome hroom
    rw [h] at hadded
    cases hadded.1
  · have hread : magnetParams base32Link =
        some [lit "xt=urn:btih:ABCDEFGHIJKLMNOPQRSTUVWXYZ234567"] := by decide
    obtain rfl := Option.some.inj (hread.symm.trans hparams)
    have hfirst : (marked (lit "xt=urn:btih:")
        [lit "xt=urn:btih:ABCDEFGHIJKLMNOPQRSTUVWXYZ234567"]).head? =
          some (lit "ABCDEFGHIJKLMNOPQRSTUVWXYZ234567") := by decide
    obtain rfl := Option.some.inj (hfirst.symm.trans hdigits)
    exact absurd hhex.1 (by decide)

end PS5Torrent
