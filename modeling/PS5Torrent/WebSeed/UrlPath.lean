import PS5Torrent.HttpServer.UrlCoding
import PS5Torrent.Library.Buffer

/-!
# Writing a URL

`append_url_path` once more, with the buffer that it writes to: it never writes
outside of it, and fails only if the URL does not fit (`appendUrlPathTo_spec`).
The result without the buffer is `appendUrlPath`.
-/

namespace PS5Torrent

open Buffer

/-- `snprintf` to the start of a buffer. -/
def snprintfTo (out text : Bytes) : Option Bytes :=
  if out.length = 0 then some out else Buffer.write out 0 (text.take (out.length - 1) ++ [0])

/-- The loop of `append_url_path`, at a position of the buffer. -/
def appendEscapedTo (out : Bytes) (pos : ℕ) : Bytes → Option (Bool × Bytes)
  | [] => (Buffer.write out pos [0]).map (true, ·)
  | c :: path =>
    if isUrlPathChar c then
      if pos + 1 ≥ out.length then some (false, out)
      else (Buffer.write out pos [c]).bind fun out => appendEscapedTo out (pos + 1) path
    else if pos + 3 ≥ out.length then some (false, out)
    else
      (Buffer.write out pos [chr '%', upperHex (c.toNat / 16), upperHex (c.toNat % 16)]).bind fun out =>
        appendEscapedTo out (pos + 3) path

/-- The base with the slash after it. -/
def slashedBase (base : Bytes) : Bytes :=
  base ++ if base.getLast? = some (chr '/') then [] else [chr '/']

/-- `append_url_path` on a buffer: whether it succeeds, and the buffer after it. -/
def appendUrlPathTo (out base path : Bytes) : Option (Bool × Bytes) :=
  let text := slashedBase (cstr base)
  (snprintfTo out text).bind fun out =>
    if text.length ≥ out.length then some (false, out) else appendEscapedTo out text.length (cstr path)

variable {out out' base path : Bytes} {pos : ℕ}

/-! ## The loop -/

theorem appendEscapedTo_cons (c : UInt8) (path : Bytes) :
    appendEscapedTo out pos (c :: path) =
      if pos + (pathCoding.byte c).length ≥ out.length then some (false, out)
      else (Buffer.write out pos (pathCoding.byte c)).bind fun out =>
        appendEscapedTo out (pos + (pathCoding.byte c).length) path := by
  rw [appendEscapedTo, PercentCoding.byte]
  by_cases hsafe : isUrlPathChar c = true
  · rw [if_pos hsafe, if_pos (show pathCoding.safe c = true from hsafe)]
    rfl
  · rw [if_neg hsafe, if_neg (show ¬pathCoding.safe c = true from hsafe)]
    rfl

theorem appendEscapedTo_of_lt (hfit : pos + (pathCoding.encode path).length < out.length) :
    appendEscapedTo out pos path =
      (Buffer.write out pos (pathCoding.encode path ++ [0])).map (true, ·) := by
  induction path generalizing out pos with
  | nil => rfl
  | cons c path ih =>
    rw [encode_cons, List.length_append] at hfit
    obtain ⟨out', hwrite, hlength⟩ :=
      exists_write out pos (pathCoding.byte c) (by omega)
    have hwhole := write_write out pos (pathCoding.byte c) (pathCoding.encode path ++ [0])
    rw [hwrite, Option.bind_some] at hwhole
    rw [appendEscapedTo_cons, if_neg (by omega), hwrite, Option.bind_some, ih (by omega), hwhole,
      encode_cons, List.append_assoc]

theorem appendEscapedTo_of_ge (path : Bytes) (hpos : pos < out.length)
    (hfit : out.length ≤ pos + (pathCoding.encode path).length) :
    ∃ out', appendEscapedTo out pos path = some (false, out') ∧ out'.length = out.length := by
  induction path generalizing out pos with
  | nil => exact absurd hpos (not_lt.2 hfit)
  | cons c path ih =>
    rw [encode_cons, List.length_append] at hfit
    rw [appendEscapedTo_cons]
    split
    · exact ⟨out, rfl, rfl⟩
    case isFalse hroom =>
      obtain ⟨out', hwrite, hlength⟩ :=
        exists_write out pos (pathCoding.byte c) (by omega)
      obtain ⟨out'', hrest, hlength'⟩ := @ih out' (pos + (pathCoding.byte c).length) (by omega)
        (by omega)
      rw [hwrite, Option.bind_some]
      exact ⟨out'', hrest, hlength'.trans hlength⟩

theorem exists_snprintfTo (out text : Bytes) :
    ∃ out', snprintfTo out text = some out' ∧ out'.length = out.length ∧
      (text.length < out.length → Buffer.write out 0 (text ++ [0]) = some out') := by
  rw [snprintfTo]
  split
  case isTrue hzero => exact ⟨out, rfl, rfl, fun h => absurd h (by omega)⟩
  case isFalse hpos =>
    have hlength := List.length_take (i := out.length - 1) (l := text)
    obtain ⟨out', hwrite, hout'⟩ :=
      exists_write out 0 (text.take (out.length - 1) ++ [0])
        (by rw [List.length_append, List.length_singleton]; omega)
    refine ⟨out', hwrite, hout', fun hlt => ?_⟩
    rw [List.take_of_length_le (by omega)] at hwrite
    exact hwrite

/-! ## The whole function -/

/-- The URL that `append_url_path` is to write. -/
def urlWithPath (base path : Bytes) : Bytes := slashedBase base ++ pathCoding.encode path

/-- The end of the string of `snprintf` is written over. -/
theorem write_of_write_nul {text : Bytes} (part : Bytes) (h : Buffer.write out 0 (text ++ [0]) = some out')
    (hfit : (text ++ part).length < out.length) :
    (Buffer.write out' text.length (part ++ [0])).map (true, ·) =
      (Buffer.write out 0 (text ++ (part ++ [0]))).map (true, ·) := by
  obtain ⟨hle, rfl⟩ := write_eq_some h
  rw [List.length_append] at hfit
  have hlength := length_write h
  have hwrite : Buffer.write out 0 (text ++ (part ++ [0])) =
      some (out.take 0 ++ (text ++ (part ++ [0])) ++ out.drop (0 + (text ++ (part ++ [0])).length)) :=
    write_of_le (by simp only [List.length_append, List.length_singleton]; omega)
  rw [hwrite, write_of_le (by rw [hlength, List.length_append, List.length_singleton]; omega),
    Option.map_some, Option.map_some]
  simp only [List.take_zero, List.nil_append, List.append_assoc, List.length_append,
    List.length_singleton, Nat.zero_add, List.take_left, List.singleton_append]
  have hdrop : (text ++ 0 :: out.drop (text.length + 1)).drop (text.length + (part.length + 1)) =
      out.drop (text.length + (part.length + 1)) := by
    rw [List.drop_length_add_append, List.drop_succ_cons, List.drop_drop]
    congr 1
    omega
  rw [hdrop]

/-- The URL is written exactly if it fits with its NUL; nothing is written outside the buffer, and
    what was appended is read back as the path. -/
theorem appendUrlPathTo_spec (out : Bytes) (hbase : 0 ∉ base) (hpath : 0 ∉ path) :
    ∃ ok out', appendUrlPathTo out base path = some (ok, out') ∧ out'.length = out.length ∧
      (ok ↔ (urlWithPath base path).length + 1 ≤ out.length) ∧
      (ok → urlWithPath base path ++ [0] <+: out' ∧
        httpUrlDecode ((urlWithPath base path).drop (slashedBase base).length) = path) := by
  have happended : httpUrlDecode ((urlWithPath base path).drop (slashedBase base).length) = path := by
    rw [urlWithPath, List.drop_left]
    exact httpUrlDecode_encode pathCoding hpath
  obtain ⟨out₁, hprint, hlength, hwrite⟩ := exists_snprintfTo out (slashedBase base)
  have hurl : (urlWithPath base path).length =
      (slashedBase base).length + (pathCoding.encode path).length := List.length_append
  rw [appendUrlPathTo, cstr_of_not_mem hbase, cstr_of_not_mem hpath, hprint, Option.bind_some]
  split
  case isTrue hfull =>
    exact ⟨false, out₁, rfl, hlength, iff_of_false Bool.false_ne_true (by omega),
      fun h => absurd h Bool.false_ne_true⟩
  case isFalse hroom =>
    rcases lt_or_ge (urlWithPath base path).length out.length with hfit | hfull
    · have hsome := write_of_write_nul (pathCoding.encode path) (hwrite (by omega)) hfit
      obtain ⟨out', hout', hout'length⟩ := exists_write out 0
        (slashedBase base ++ (pathCoding.encode path ++ [0]))
        (by rw [List.length_append, List.length_append, List.length_singleton]; omega)
      rw [appendEscapedTo_of_lt (by omega), hsome, hout']
      refine ⟨true, out', rfl, hout'length, iff_of_true rfl hfit, fun _ => ⟨?_, happended⟩⟩
      rw [urlWithPath, List.append_assoc]
      exact prefix_of_write hout'
    · obtain ⟨out', hout', hout'length⟩ := appendEscapedTo_of_ge path (not_le.1 hroom)
        (by omega)
      exact ⟨false, out', hout', hout'length.trans hlength,
        iff_of_false Bool.false_ne_true (by omega), fun h => absurd h Bool.false_ne_true⟩

/-- The two encoders are inverted by the decoder, and a URL is written exactly if it fits. -/
theorem urls_read_back {s : Bytes} (hs : 0 ∉ s) (hbase : 0 ∉ base) (hpath : 0 ∉ path) (out : Bytes) :
    httpUrlDecode (netUrlEncode s) = s ∧
      ∃ ok out', appendUrlPathTo out base path = some (ok, out') ∧ out'.length = out.length ∧
        (ok ↔ (urlWithPath base path).length + 1 ≤ out.length) ∧
        (ok → urlWithPath base path ++ [0] <+: out' ∧
          httpUrlDecode ((urlWithPath base path).drop (slashedBase base).length) = path) :=
  ⟨httpUrlDecode_encode netCoding hs, appendUrlPathTo_spec out hbase hpath⟩

/-- A path with a space fills a buffer to its end. -/
theorem urls_read_back_space :
    httpUrlDecode (netUrlEncode (lit "a b+%")) = lit "a b+%" ∧
      ∃ ok out', appendUrlPathTo (List.replicate 16 7) (lit "http://t") (lit "a b") = some (ok, out') ∧
        out'.length = 16 ∧ (ok ↔ (urlWithPath (lit "http://t") (lit "a b")).length + 1 ≤ 16) ∧
        (ok → urlWithPath (lit "http://t") (lit "a b") ++ [0] <+: out' ∧
          httpUrlDecode ((urlWithPath (lit "http://t") (lit "a b")).drop
            (slashedBase (lit "http://t")).length) = lit "a b") :=
  urls_read_back (by decide) (by decide) (by decide) (List.replicate 16 7)

/-! ## Without the buffer -/

theorem appendEscaped_eq {outSize : ℕ} (h : out.length < outSize) :
    appendEscaped outSize out path =
      if out.length + (pathCoding.encode path).length < outSize then
        some (out ++ pathCoding.encode path)
      else none := by
  induction path generalizing out with
  | nil =>
    rw [appendEscaped, PercentCoding.encode, List.flatMap_nil, List.append_nil]
    exact (if_pos h).symm
  | cons c path ih =>
    have hstep : appendEscaped outSize out (c :: path) =
        if out.length + (pathCoding.byte c).length ≥ outSize then none
        else appendEscaped outSize (out ++ pathCoding.byte c) path := by
      rw [appendEscaped, PercentCoding.byte]
      by_cases hsafe : isUrlPathChar c = true
      · rw [if_pos hsafe, if_pos (show pathCoding.safe c = true from hsafe)]
        rfl
      · rw [if_neg hsafe, if_neg (show ¬pathCoding.safe c = true from hsafe)]
        rfl
    rw [hstep, encode_cons, List.length_append]
    split
    case isTrue hfull => rw [if_neg (by omega)]
    case isFalse hroom =>
      rw [ih (by rw [List.length_append]; omega), List.length_append, List.append_assoc, Nat.add_assoc]

/-- The function that the fetches use has the same result. -/
theorem appendUrlPath_eq (outSize : ℕ) (base path : Bytes) :
    appendUrlPath outSize base path =
      if (urlWithPath base path).length + 1 ≤ outSize then some (urlWithPath base path) else none := by
  rw [urlWithPath, List.length_append, appendUrlPath, ← slashedBase]
  split
  case isTrue hfull => rw [if_neg (by omega)]
  case isFalse hroom => exact appendEscaped_eq (not_le.1 hroom)

end PS5Torrent
