import PS5Torrent.Library.Buffer
import PS5Torrent.Library.Paging
import PS5Torrent.Main.Replies

/-!
# The listing of a directory

`console_files_list` prints a page of a directory into one buffer, entry after
entry, and does not check that there is room: its position is the sum of what
`snprintf` returns. Names are escaped in another buffer first, which
`console_files_mkdir` has too. Here the buffers are explicit, and a call that
is defined has written within them only.

The room is enough (`listing_fits`): an entry takes at most 1560 bytes, and a
page has at most 128 of them.
-/

namespace PS5Torrent

open Json

/-! ## Directories -/

/-- What `stat` tells of an entry. -/
inductive EntryKind
  | directory
  | regular
  | other
deriving DecidableEq

/-- An entry that `readdir` gives; there is no kind if `stat` fails. -/
structure DirEntry where
  name : Bytes
  kind : Option EntryKind

/-- The directories: what they hold, in a fixed order, and whether they are writable. Resolved paths
    are shorter than `PATH_MAX`, names have at most `NAME_MAX` bytes, and what is counted in a
    `long` fits it. -/
structure ConsoleDir extends ConsoleDisk where
  readdir : Bytes → List DirEntry
  writable : Bytes → Bool
  length_realpath : ∀ path, ∀ resolved ∈ realpath path, resolved.length < 4096
  length_name : ∀ path, ∀ entry ∈ readdir path, entry.name.length ≤ 255
  name_nul : ∀ path, ∀ entry ∈ readdir path, 0 ∉ entry.name
  length_readdir : ∀ path, (readdir path).length < 2 ^ 63

/-- The directory that is opened for a path. -/
def ConsoleDir.opened (dir : ConsoleDir) (path : Bytes) : Option Bytes :=
  if path.head? = some (chr '/') then ((dir.realpath path).map cstr).filter dir.opendir else none

namespace DirEntry

def child (entry : DirEntry) (resolved : Bytes) : Bytes := resolved ++ chr '/' :: entry.name

/-- The entry is not skipped. -/
def listed (resolved : Bytes) (directoriesOnly : Bool) (entry : DirEntry) : Bool :=
  entry.name ≠ lit "." && entry.name ≠ lit ".." && (entry.child resolved).length < 4096 &&
    (entry.kind = some .directory ||
      !directoriesOnly && entry.kind = some .regular && torrentName entry.name)

end DirEntry

/-! ## Buffers -/

/-- `escape`, into a buffer. -/
def escapeTo (out : Bytes) (pos : ℕ) : Bytes → Option Bytes
  | [] => Buffer.write out pos [0]
  | c :: s =>
    (Buffer.write out pos (escapeByte c)).bind fun out => escapeTo out (pos + (escapeByte c).length) s

/-- A call of `snprintf`: where, for how many bytes, and what is printed. -/
structure Print where
  pos : ℕ
  size : ℕ
  text : Bytes

/-- The buffer `json` and the position in it, with the calls of `snprintf` so far. -/
structure JsonOut where
  json : Bytes
  pos : ℕ
  prints : List Print

/-- `pos += snprintf(json + pos, 262144 - pos, …)` -/
def JsonOut.print (out : JsonOut) (text : Bytes) : Option JsonOut :=
  let size := (toUInt64 (262144 - out.pos)).toNat
  let written :=
    if size = 0 then some out.json else Buffer.write out.json out.pos (text.take (size - 1) ++ [0])
  written.map fun json =>
    ⟨json, toSize (out.pos + text.length), out.prints ++ [⟨out.pos, size, text⟩]⟩

/-- The two buffers, with whatever is in them. -/
structure ListBuffers where
  escaped : Bytes
  json : Bytes
  length_escaped : escaped.length = 24577
  length_json : json.length = 262144

/-! ## The request -/

def listPath (req : HttpRequest) : Bytes :=
  (httpGetParam req.query (lit "path") 1024).getD (lit "/")

def listDirectoriesOnly (req : HttpRequest) : Bool :=
  (httpGetParam req.query (lit "directories") 8).getD [] = lit "1"

def listOffset (req : HttpRequest) : ℤ :=
  max 0 (strtol ((httpGetParam req.query (lit "offset") 24).getD (lit "0"))).1

/-! ## The listing -/

def boolText (b : Bool) : Bytes := if b then lit "true" else lit "false"

/-- What is printed before the entries. -/
def headerText (escaped : Bytes) (writable : Bool) : Bytes :=
  lit "\x7b\"path\":\"" ++ escaped ++ lit "\",\"writable\":" ++ boolText writable ++
    lit ",\"entries\":["

/-- What is printed for an entry. -/
def entryText (escaped : Bytes) (directory : Bool) : Bytes :=
  lit "\x7b\"name\":\"" ++ escaped ++ lit "\",\"directory\":" ++ boolText directory ++ lit "\x7d"

/-- What is printed after the entries. -/
def tailText (next : ℤ) : Bytes := lit "],\"next\":" ++ printInt next ++ lit "\x7d"

/-- The state of the loop; `count` is the number of entries that are shown. -/
structure ListState where
  escaped : Bytes
  out : JsonOut
  seen : ℤ
  shown : List DirEntry

/-- An entry is printed. -/
def showEntry (entry : DirEntry) (s : ListState) : Option ListState :=
  (escapeTo s.escaped 0 entry.name).bind fun escaped =>
    (s.out.print ((if s.shown.length ≠ 0 then lit "," else []) ++
      entryText (cstr escaped) (entry.kind = some .directory))).map fun out =>
        ⟨escaped, out, s.seen + 1, s.shown ++ [entry]⟩

/-- The loop over the entries, with the flag `more`. -/
def listEntries (resolved : Bytes) (directoriesOnly : Bool) (offset : ℤ) :
    List DirEntry → ListState → Option (ListState × Bool)
  | [], s => some (s, false)
  | entry :: entries, s =>
    if !entry.listed resolved directoriesOnly then
      listEntries resolved directoriesOnly offset entries s
    else if s.seen < offset then
      listEntries resolved directoriesOnly offset entries { s with seen := s.seen + 1 }
    else if s.shown.length = 128 then some ({ s with seen := s.seen + 1 }, true)
    else (showEntry entry s).bind (listEntries resolved directoriesOnly offset entries)

/-- What a call does: its reply, what was printed for it, the entries it shows, and the offset of
    the next page, `-1` if there is none. -/
structure Listing where
  reply : Reply
  prints : List Print
  shown : List DirEntry
  next : ℤ

def consoleFilesList (dir : ConsoleDir) (buffers : ListBuffers) (req : HttpRequest) :
    Option Listing :=
  match dir.opened (listPath req) with
  | none =>
    some ⟨.json 403 (lit "\x7b\"error\":\"Cannot read this directory\"\x7d"), [], [], -1⟩
  | some resolved =>
    (escapeTo buffers.escaped 0 resolved).bind fun escaped =>
      (JsonOut.print ⟨buffers.json, 0, []⟩
        (headerText (cstr escaped) (dir.writable resolved))).bind fun out =>
          (listEntries resolved (listDirectoriesOnly req) (listOffset req) (dir.readdir resolved)
            ⟨escaped, out, 0, []⟩).bind fun (s, more) =>
              let next := if more then toInt64 (listOffset req + s.shown.length) else -1
              (s.out.print (tailText next)).map fun out =>
                ⟨.counted 200 (cstr out.json) out.pos, out.prints, s.shown, next⟩

/-! ## Escaping in a buffer -/

variable {dir : ConsoleDir} {entry : DirEntry} {entries : List DirEntry} {out : JsonOut}
  {resolved s text t buf : Bytes} {directoriesOnly : Bool}

/-- The characters are written as one text, with its NUL. -/
theorem escapeTo_eq (buf : Bytes) (pos : ℕ) (s : Bytes) :
    escapeTo buf pos s = Buffer.write buf pos (s.flatMap escapeByte ++ [0]) := by
  induction s generalizing buf pos with
  | nil => rfl
  | cons c s ih =>
    have hwrite := Buffer.write_write buf pos (escapeByte c) (s.flatMap escapeByte ++ [0])
    rw [escapeTo, List.flatMap_cons, List.append_assoc, ← hwrite]
    exact congrArg _ (funext fun buf => ih buf _)

theorem not_mem_escapeByte {c : UInt8} (hc : c ≠ 0) : 0 ∉ escapeByte c := by
  have hhex : ∀ n < 16, (0 : UInt8) ≠ hexChar n := by decide
  have hlt := c.toNat_lt
  rw [escapeByte]
  split
  · rw [List.mem_cons, List.mem_singleton, not_or]
    exact ⟨by decide, hc.symm⟩
  · split
    · rw [List.mem_append, not_or, List.mem_cons, List.mem_singleton, not_or]
      exact ⟨by decide, hhex _ (by omega), hhex _ (by omega)⟩
    · rw [List.mem_singleton]
      exact hc.symm

theorem not_mem_flatMap (hs : 0 ∉ s) : 0 ∉ s.flatMap escapeByte := by
  rw [List.mem_flatMap]
  rintro ⟨c, hc, hmem⟩
  exact not_mem_escapeByte (ne_of_mem_of_not_mem hc hs) hmem

/-- A short string is escaped within the buffer, and read from it as its escaped text. -/
theorem exists_escapeTo (hbuf : buf.length = 24577) (hs : 0 ∉ s) (hlength : s.length < 4096) :
    ∃ buf', escapeTo buf 0 s = some buf' ∧ buf'.length = 24577 ∧
      cstr buf' = s.flatMap escapeByte := by
  have hle := length_flatMap_le s
  rw [escapeTo_eq]
  obtain ⟨buf', hwrite, hbuf'⟩ := Buffer.exists_write buf 0 (s.flatMap escapeByte ++ [0])
    (by rw [List.length_append, List.length_singleton]; omega)
  refine ⟨buf', hwrite, hbuf'.trans hbuf, ?_⟩
  obtain ⟨rest, rfl⟩ := Buffer.prefix_of_write hwrite
  rw [List.append_assoc]
  exact cstr_append_nul (not_mem_flatMap hs) rest

/-! ## Printing -/

/-- The text is in the buffer, and every call of `snprintf` had room for all it printed. -/
structure JsonOut.Holds (out : JsonOut) (text : Bytes) : Prop where
  length_json : out.json.length = 262144
  pos : out.pos = text.length
  text : text <+: out.json
  prints : ∀ p ∈ out.prints, p.pos + p.size = 262144 ∧ p.pos + p.text.length < 262144

/-- A text that fits is appended, and its NUL is in the buffer after it. -/
theorem JsonOut.Holds.exists_print (h : out.Holds text) (hfit : text.length + t.length < 262144) :
    ∃ out', out.print t = some out' ∧ out'.Holds (text ++ t) ∧ text ++ t ++ [0] <+: out'.json ∧
      out'.pos = (text ++ t).length := by
  have hpos := h.pos
  have hlength := h.length_json
  have hsize : (toUInt64 (262144 - out.pos)).toNat = 262144 - out.pos := by
    rw [toUInt64_of_mem (by omega) (by simp only [INT64_MAX]; omega)]
    omega
  obtain ⟨json, hwrite, hjson⟩ := Buffer.exists_write out.json out.pos (t ++ [0])
    (by rw [List.length_append, List.length_singleton]; omega)
  have htext : text ++ t ++ [0] <+: json := by
    obtain ⟨rest, hrest⟩ := h.text
    have htake := Buffer.take_write hwrite
    rw [hpos, ← hrest, List.take_left, ← List.append_assoc] at htake
    exact htake ▸ List.take_prefix _ _
  have hnew : toSize (out.pos + t.length) = (text ++ t).length := by
    rw [toSize_of_lt (by omega), List.length_append, hpos]
  refine ⟨⟨json, toSize (out.pos + t.length), out.prints ++ [⟨out.pos, 262144 - out.pos, t⟩]⟩, ?_,
    ⟨hjson.trans hlength, hnew, (List.prefix_append _ _).trans htext, ?_⟩, htext, hnew⟩
  · rw [JsonOut.print, hsize, if_neg (by omega), List.take_of_length_le (by omega), hwrite]
    rfl
  · rw [List.forall_mem_append, List.forall_mem_singleton]
    refine ⟨h.prints, ?_, ?_⟩
    · show out.pos + (262144 - out.pos) = 262144
      omega
    · show out.pos + t.length < 262144
      omega

/-! ## Entries -/

/-- An entry of the page, as it is to be printed. -/
def DirEntry.object (entry : DirEntry) : Bytes :=
  entryText (entry.name.flatMap escapeByte) (entry.kind = some .directory)

/-- The beginning of a page. -/
def pageText (header : Bytes) (shown : List DirEntry) : Bytes :=
  header ++ commas (shown.map DirEntry.object)

theorem length_boolText_le (b : Bool) : (boolText b).length ≤ 5 := by
  cases b
  · exact Nat.le_of_ble_eq_true rfl
  · exact Nat.le_of_ble_eq_true rfl

theorem length_headerText_le (hs : s.length < 4096) (writable : Bool) :
    (headerText (s.flatMap escapeByte) writable).length ≤ 24609 := by
  have hescape := length_flatMap_le s
  have hbool := length_boolText_le writable
  have hopen : (lit "\x7b\"path\":\"").length = 9 := rfl
  have hwritable : (lit "\",\"writable\":").length = 13 := rfl
  have hentries : (lit ",\"entries\":[").length = 12 := rfl
  simp only [headerText, List.length_append]
  omega

theorem length_object_le (hname : entry.name.length ≤ 255) : entry.object.length ≤ 1559 := by
  have hescape := length_flatMap_le entry.name
  have hbool := length_boolText_le (entry.kind = some .directory)
  have hopen : (lit "\x7b\"name\":\"").length = 9 := rfl
  have hdirectory : (lit "\",\"directory\":").length = 14 := rfl
  have hclose : (lit "\x7d").length = 1 := rfl
  simp only [DirEntry.object, entryText, List.length_append]
  omega

theorem length_tailText_le {next : ℤ} (hmin : -1 ≤ next) (hmax : next < 10 ^ 19) :
    (tailText next).length ≤ 30 := by
  have hopen : (lit "],\"next\":").length = 9 := rfl
  have hclose : (lit "\x7d").length = 1 := rfl
  have hprint : (printInt next).length ≤ 20 := by
    have hdigits := Decimal.length_print_le (show 0 < 19 by decide)
      (show next.natAbs < 10 ^ 19 by omega)
    rw [printInt]
    split
    · rw [List.length_cons]
      omega
    · omega
  simp only [tailText, List.length_append]
  omega

/-- An entry is appended with a comma before it, unless it is the first. -/
theorem pageText_append (header : Bytes) (shown : List DirEntry) (entry : DirEntry) :
    pageText header (shown ++ [entry]) =
      pageText header shown ++ ((if shown.length ≠ 0 then lit "," else []) ++ entry.object) := by
  have hcomma : lit "," = [code ','] := rfl
  rw [pageText, List.map_append, List.map_singleton, commas_append_singleton, List.length_map,
    pageText, hcomma, List.append_assoc]

/-- The room for a page, entry by entry. -/
structure ListState.Ok (s : ListState) (header : Bytes) : Prop where
  length_escaped : s.escaped.length = 24577
  out : s.out.Holds (pageText header s.shown)
  length_text : (pageText header s.shown).length ≤ 24609 + 1560 * s.shown.length
  count : s.shown.length ≤ 128

variable {st : ListState} {header : Bytes}

theorem ListState.Ok.see (h : st.Ok header) (seen : ℤ) : ({ st with seen := seen }).Ok header :=
  ⟨h.length_escaped, h.out, h.length_text, h.count⟩

theorem exists_showEntry (h : st.Ok header) (hcount : st.shown.length ≠ 128)
    (hname : entry.name.length ≤ 255) (hnul : 0 ∉ entry.name) :
    ∃ st', showEntry entry st = some st' ∧ st'.Ok header ∧ st'.seen = st.seen + 1 ∧
      st'.shown = st.shown ++ [entry] := by
  obtain ⟨escaped, hescape, hescaped, hcstr⟩ :=
    exists_escapeTo h.length_escaped hnul (hname.trans_lt (by decide))
  have hlength := h.length_text
  have hcount' := h.count
  have htext := length_object_le hname
  have hcomma : (if st.shown.length ≠ 0 then lit "," else []).length ≤ 1 := by
    split
    · exact le_rfl
    · exact Nat.zero_le 1
  obtain ⟨out, hprint, hholds, -⟩ := h.out.exists_print
    (t := (if st.shown.length ≠ 0 then lit "," else []) ++ entry.object)
    (by rw [List.length_append]; omega)
  rw [← pageText_append] at hholds
  refine ⟨⟨escaped, out, st.seen + 1, st.shown ++ [entry]⟩, ?_,
    ⟨hescaped, hholds, ?_, ?_⟩, rfl, rfl⟩
  · rw [showEntry, hescape, Option.bind_some, hcstr]
    show (st.out.print ((if st.shown.length ≠ 0 then lit "," else []) ++ entry.object)).map _ = _
    rw [hprint]
    rfl
  · rw [pageText_append, List.length_append, List.length_append, List.length_append,
      List.length_singleton]
    omega
  · rw [List.length_append, List.length_singleton]
    omega

/-- The loop makes a page of the entries that are listed. -/
theorem exists_listEntries (resolved : Bytes) (directoriesOnly : Bool) (offset : ℕ) {seen : ℕ}
    (h : st.Ok header) (hseen : st.seen = seen) (hskip : seen < offset → st.shown = [])
    (hentries : ∀ entry ∈ entries, entry.name.length ≤ 255 ∧ 0 ∉ entry.name) :
    ∃ st', listEntries resolved directoriesOnly offset entries st =
        some (st', (Paging.collect (DirEntry.listed resolved directoriesOnly) (offset - seen)
          (128 - st.shown.length) entries).2) ∧ st'.Ok header ∧
      st'.shown = st.shown ++ (Paging.collect (DirEntry.listed resolved directoriesOnly)
        (offset - seen) (128 - st.shown.length) entries).1 := by
  induction entries generalizing st seen with
  | nil => exact ⟨st, rfl, h, (List.append_nil _).symm⟩
  | cons entry entries ih =>
    rw [List.forall_mem_cons] at hentries
    rw [listEntries, Paging.collect, hseen]
    split
    · exact ih h hseen hskip hentries.2
    · by_cases hlt : seen < offset
      · -- an entry before the page
        have hstep : offset - seen - 1 = offset - (seen + 1) := by omega
        rw [if_pos (by exact_mod_cast hlt), if_pos (by omega), hstep]
        have hshown := hskip hlt
        obtain ⟨st', hst', hok, hshown'⟩ := @ih { st with seen := (seen : ℤ) + 1 } (seen + 1)
          (h.see _) (by push_cast; rfl) (fun _ => hshown) hentries.2
        exact ⟨st', hst', hok, hshown'⟩
      · have hzero : offset - seen = 0 := by omega
        have hnone : ¬(0 : ℕ) ≠ 0 := not_not.2 rfl
        rw [if_neg (by exact_mod_cast hlt), hzero, if_neg hnone]
        by_cases hfull : st.shown.length = 128
        · -- the first entry after the page
          rw [if_pos hfull, if_pos (by omega)]
          exact ⟨_, rfl, h.see _, (List.append_nil _).symm⟩
        · obtain ⟨st₁, hshow, hok, hseen₁, hshown₁⟩ :=
            exists_showEntry h hfull hentries.1.1 hentries.1.2
          have hcount := h.count
          rw [if_neg hfull, if_neg (by omega), hshow, Option.bind_some]
          obtain ⟨st', hst', hok', hshown'⟩ := @ih st₁ (seen + 1) hok
            (by rw [hseen₁, hseen]; push_cast; rfl) (fun hlt' => absurd hlt' (by omega)) hentries.2
          have hlimit : 128 - st₁.shown.length = 128 - st.shown.length - 1 := by
            rw [hshown₁, List.length_append, List.length_singleton]
            omega
          have hzero' : offset - (seen + 1) = 0 := by omega
          rw [hlimit, hzero'] at hst' hshown'
          refine ⟨st', hst', hok', ?_⟩
          rw [hshown', hshown₁, List.append_assoc, List.singleton_append]

/-! ## The whole listing -/

/-- The entries that are listed, on some page. -/
def ConsoleDir.eligible (dir : ConsoleDir) (resolved : Bytes) (directoriesOnly : Bool) :
    List DirEntry :=
  (dir.readdir resolved).filter (DirEntry.listed resolved directoriesOnly)

/-- The number for the next page in a reply. -/
def nextNumber : Option ℕ → ℤ
  | none => -1
  | some offset => offset

/-- The reply with a page. -/
def pageReply (dir : ConsoleDir) (resolved : Bytes) (shown : List DirEntry) (next : ℤ) : Reply :=
  .json 200 (pageText (headerText (resolved.flatMap escapeByte) (dir.writable resolved)) shown ++
    tailText next)

variable {req : HttpRequest} {path : Bytes}

theorem of_opened (h : dir.opened path = some resolved) : 0 ∉ resolved ∧ resolved.length < 4096 := by
  rw [ConsoleDir.opened] at h
  split at h
  · obtain ⟨hmap, -⟩ := Option.filter_eq_some_iff.1 h
    obtain ⟨r, hr, rfl⟩ := Option.map_eq_some_iff.1 hmap
    exact ⟨not_mem_cstr r, (length_cstr_le r).trans_lt (dir.length_realpath path r hr)⟩
  · cases h

theorem not_mem_boolText (b : Bool) : 0 ∉ boolText b := by
  cases b
  · decide
  · decide

theorem not_mem_headerText (hs : 0 ∉ s) (writable : Bool) : 0 ∉ headerText s writable := by
  simp only [headerText, List.mem_append, not_or]
  exact ⟨⟨⟨⟨by decide, hs⟩, by decide⟩, not_mem_boolText writable⟩, by decide⟩

theorem not_mem_object (hname : 0 ∉ entry.name) : 0 ∉ entry.object := by
  simp only [DirEntry.object, entryText, List.mem_append, not_or]
  exact ⟨⟨⟨⟨by decide, not_mem_flatMap hname⟩, by decide⟩, not_mem_boolText _⟩, by decide⟩

theorem not_mem_tailText (next : ℤ) : 0 ∉ tailText next := by
  have hdigits : 0 ∉ Decimal.print next.natAbs := fun h =>
    absurd (Decimal.isDigit_of_mem_print h) (by decide)
  simp only [tailText, List.mem_append, not_or]
  refine ⟨⟨by decide, ?_⟩, by decide⟩
  rw [printInt]
  split
  · rw [List.mem_cons, not_or]
    exact ⟨by decide, hdigits⟩
  · exact hdigits

variable {es : List DirEntry}

/-- There is a next page only if this one is full. -/
theorem next_eq (hcount : es.length < 2 ^ 63) (offset : ℕ) :
    (if decide (offset + 128 < es.length) then
      toInt64 (offset + (Paging.page 128 es offset).length) else -1) =
      nextNumber (Paging.next 128 es offset) := by
  rw [Paging.next]
  by_cases hmore : offset + 128 < es.length
  · have hfull : (Paging.page 128 es offset).length = 128 := by
      rw [Paging.page, List.length_take, List.length_drop]
      omega
    rw [if_pos (decide_eq_true hmore), if_pos hmore, hfull,
      toInt64_of_mem (by simp only [INT64_MIN]; omega) (by simp only [INT64_MAX]; omega)]
    rfl
  · rw [if_neg (by simpa using hmore), if_neg hmore]
    rfl

theorem nextNumber_range (hcount : es.length < 2 ^ 63) (offset : ℕ) :
    -1 ≤ nextNumber (Paging.next 128 es offset) ∧
      nextNumber (Paging.next 128 es offset) < 2 ^ 63 := by
  rcases hnext : Paging.next 128 es offset with _ | o
  · exact ⟨le_rfl, by decide⟩
  · obtain ⟨-, hlt⟩ := Paging.next_eq_some hnext
    simp only [nextNumber]
    omega

/-- The page at the offset is shown, with the offset of the next one. -/
theorem exists_listing (buffers : ListBuffers) (hopened : dir.opened (listPath req) = some resolved) :
    ∃ listing, consoleFilesList dir buffers req = some listing ∧
      listing.shown = Paging.page 128 (dir.eligible resolved (listDirectoriesOnly req))
        (listOffset req).toNat ∧
      listing.next = nextNumber (Paging.next 128 (dir.eligible resolved (listDirectoriesOnly req))
        (listOffset req).toNat) ∧
      listing.reply = pageReply dir resolved listing.shown listing.next ∧
      ∀ p ∈ listing.prints, p.pos + p.size = 262144 ∧ p.pos + p.text.length < 262144 := by
  obtain ⟨hnul, hlength⟩ := of_opened hopened
  obtain ⟨escaped, hescape, hescaped, hcstr⟩ := exists_escapeTo buffers.length_escaped hnul hlength
  have hheader := length_headerText_le hlength (dir.writable resolved)
  have hempty : JsonOut.Holds ⟨buffers.json, 0, []⟩ [] :=
    ⟨buffers.length_json, rfl, List.nil_prefix, by simp⟩
  obtain ⟨out, hprint, hholds, -⟩ := hempty.exists_print
    (t := headerText (resolved.flatMap escapeByte) (dir.writable resolved))
    (by rw [List.length_nil]; omega)
  rw [List.nil_append] at hholds
  have hpageText : pageText (headerText (resolved.flatMap escapeByte) (dir.writable resolved)) [] =
      headerText (resolved.flatMap escapeByte) (dir.writable resolved) := List.append_nil _
  have hstart : ListState.Ok ⟨escaped, out, 0, []⟩
      (headerText (resolved.flatMap escapeByte) (dir.writable resolved)) :=
    ⟨hescaped, by rw [hpageText]; exact hholds, by rw [hpageText]; exact hheader, Nat.zero_le _⟩
  obtain ⟨offset, hoffset⟩ : ∃ offset : ℕ, listOffset req = offset :=
    Int.eq_ofNat_of_zero_le (le_max_left _ _)
  obtain ⟨st, hloop, hok, hshown⟩ := exists_listEntries resolved (listDirectoriesOnly req) offset
    hstart Nat.cast_zero.symm (fun _ => rfl) fun entry hentry =>
      ⟨dir.length_name resolved entry hentry, dir.name_nul resolved entry hentry⟩
  rw [Paging.collect_eq, List.nil_append] at hshown
  rw [Paging.collect_eq] at hloop
  change st.shown = Paging.page 128 (dir.eligible resolved (listDirectoriesOnly req)) offset at hshown
  change listEntries resolved (listDirectoriesOnly req) offset (dir.readdir resolved) _ = some (st,
    decide (offset + 128 < (dir.eligible resolved (listDirectoriesOnly req)).length)) at hloop
  have hcount : (dir.eligible resolved (listDirectoriesOnly req)).length < 2 ^ 63 :=
    (List.length_filter_le _ _).trans_lt (dir.length_readdir resolved)
  have hnext := next_eq hcount offset
  have hrange := nextNumber_range hcount offset
  rw [← hshown] at hnext
  generalize hn : nextNumber
    (Paging.next 128 (dir.eligible resolved (listDirectoriesOnly req)) offset) = next at hnext hrange
  have htext := hok.length_text
  have hcount' := hok.count
  have htail := length_tailText_le hrange.1 (hrange.2.trans (by norm_num))
  obtain ⟨out', hprint', hholds', hnul', hpos'⟩ := hok.out.exists_print (t := tailText next) (by omega)
  refine ⟨⟨.counted 200 (cstr out'.json) out'.pos, out'.prints, st.shown, next⟩, ?_, ?_, ?_, ?_,
    hholds'.prints⟩
  · rw [consoleFilesList, hopened]
    dsimp only
    rw [hescape, Option.bind_some, hcstr, hprint, Option.bind_some, hoffset, hloop, Option.bind_some]
    dsimp only
    rw [hnext, hprint']
    rfl
  · rw [hoffset]
    exact hshown
  · rw [hoffset]
    exact hn.symm
  · obtain ⟨rest, hjson⟩ := hnul'
    have hmem : 0 ∉ pageText (headerText (resolved.flatMap escapeByte) (dir.writable resolved))
        st.shown ++ tailText next := by
      rw [pageText, List.mem_append, List.mem_append, not_or, not_or]
      refine ⟨⟨not_mem_headerText (not_mem_flatMap hnul) _, ?_⟩, not_mem_tailText next⟩
      refine not_mem_commas (by decide) fun text htext => ?_
      obtain ⟨entry, hentry, rfl⟩ := List.mem_map.1 htext
      rw [hshown] at hentry
      have hread := List.mem_of_mem_filter (List.mem_of_mem_drop (List.mem_of_mem_take hentry))
      exact not_mem_object (dir.name_nul resolved entry hread)
    rw [pageReply, Reply.json, ← hpos', ← hjson, List.append_assoc, List.singleton_append,
      cstr_append_nul hmem]

/-! ## No overrun -/

/-- `console_files_mkdir`, with the buffer that it escapes the path in. -/
def consoleFilesMkdirTo (escaped : Bytes) (disk : ConsoleDisk) (req : HttpRequest) : Option Reply :=
  match req.posted with
  | none => some (folderError 405 (lit "POST required"))
  | some body =>
    let parent := (httpGetParam body (lit "path") 2048).getD []
    let name := (httpGetParam body (lit "name") 2048).getD []
    if name = [] ∨ name.length > 255 ∨ name = lit "." ∨ name = lit ".." then
      some (folderError 400 (lit "Nome de pasta inválido."))
    else if name.any badFolderChar then some (folderError 400 (lit "Nome de pasta inválido."))
    else
      match if parent.head? = some (chr '/') then (disk.realpath parent).map cstr else none with
      | none => some (folderError 403 (lit "Não foi possível abrir esta pasta."))
      | some resolved =>
        let child := resolved ++ (if resolved = lit "/" then [] else lit "/") ++ name
        if child.length ≥ 4096 then some (folderError 400 (lit "Caminho muito longo."))
        else if !disk.opendir resolved then
          some (folderError 403 (lit "Não foi possível abrir esta pasta."))
        else
          match disk.mkdirat resolved name with
          | some errno =>
            some (folderError (if errno = .EEXIST then 409 else 403)
              (if errno = .EEXIST then lit "Já existe um item com esse nome."
                else lit "Não foi possível criar a pasta."))
          | none =>
            (escapeTo escaped 0 child).map fun escaped =>
              .printed 200 24640
                (lit "\x7b\"success\":true,\"path\":\"" ++ cstr escaped ++ lit "\"\x7d")

/-- The path of the new folder is escaped within its buffer. -/
theorem consoleFilesMkdirTo_eq (hbuf : buf.length = 24577) (disk : ConsoleDisk) (req : HttpRequest) :
    consoleFilesMkdirTo buf disk req = some (consoleFilesMkdir disk req) := by
  rw [consoleFilesMkdirTo, consoleFilesMkdir]
  cases req.posted with
  | none => rfl
  | some body =>
    dsimp only
    have hname := not_mem_getD_httpGetParam body (lit "name") 2048
    generalize (httpGetParam body (lit "path") 2048).getD [] = parent
    generalize (httpGetParam body (lit "name") 2048).getD [] = name at hname
    split
    · rfl
    · split
      · rfl
      · rcases hresolved : (if parent.head? = some (chr '/') then
            (disk.realpath parent).map cstr else none) with _ | resolved
        · rfl
        · have hnul : 0 ∉ resolved ++ (if resolved = lit "/" then [] else lit "/") ++ name := by
            rw [List.mem_append, List.mem_append, not_or, not_or]
            refine ⟨⟨?_, ?_⟩, hname⟩
            · split at hresolved
              · obtain ⟨r, -, rfl⟩ := Option.map_eq_some_iff.1 hresolved
                exact not_mem_cstr r
              · cases hresolved
            · split
              · exact List.not_mem_nil
              · decide
          dsimp only
          generalize resolved ++ (if resolved = lit "/" then [] else lit "/") ++ name = child
            at hnul
          split
          · rfl
          case isFalse hchild =>
            split
            · rfl
            · obtain ⟨buf', hescape, -, hcstr⟩ := exists_escapeTo hbuf hnul (not_le.1 hchild)
              cases disk.mkdirat resolved name with
              | some errno => rfl
              | none =>
                dsimp only
                rw [hescape, Option.map_some, hcstr, escape, cstr_of_not_mem hnul]

/-- Whatever a directory holds and whatever is asked, the buffers are long enough: nothing is
    written outside, the position stays before the end, and no text is cut off. -/
theorem listing_fits (dir : ConsoleDir) (buffers : ListBuffers) (req : HttpRequest) :
    (∃ listing, consoleFilesList dir buffers req = some listing ∧
      (∀ p ∈ listing.prints, p.pos + p.size = 262144 ∧ p.pos + p.text.length < 262144) ∧
      listing.reply.bodyLen = listing.reply.text.length) ∧
    ∀ req, consoleFilesMkdirTo buffers.escaped dir.toConsoleDisk req =
        some (consoleFilesMkdir dir.toConsoleDisk req) ∧
      (consoleFilesMkdir dir.toConsoleDisk req).bodyLen =
        (consoleFilesMkdir dir.toConsoleDisk req).text.length := by
  refine ⟨?_, fun req => ⟨consoleFilesMkdirTo_eq buffers.length_escaped _ req, ?_⟩⟩
  · rcases hopened : dir.opened (listPath req) with _ | resolved
    · refine ⟨⟨.json 403 (lit "\x7b\"error\":\"Cannot read this directory\"\x7d"), [], [], -1⟩, ?_,
        by simp, rfl⟩
      rw [consoleFilesList, hopened]
    · obtain ⟨listing, hlisting, -, -, hreply, hprints⟩ := exists_listing buffers hopened
      refine ⟨listing, hlisting, hprints, ?_⟩
      rw [hreply]
      rfl
  · exact body_httpResponseNew_iff.1 ((complete_consoleFilesMkdir dir.toConsoleDisk req).body 0)

end PS5Torrent
