import PS5Torrent.ConsoleFiles.Listing
import PS5Torrent.HttpServer.UrlCoding

/-!
# Reading a directory page by page

The entries of a directory that are listed are shown in pages of 128. A reply
is a JSON text with the page at the offset that was asked for, and the offset
of the next one; a client that asks for this until it is `-1` has read every
entry once (`pages_of_eligible`).
-/

namespace PS5Torrent

open Json

/-! ## The replies -/

def DirEntry.value (entry : DirEntry) : Value :=
  .obj [(lit "name", .str entry.name), (lit "directory", .bool (entry.kind = some .directory))]

/-- What a client is told of a page. -/
def pageValue (dir : ConsoleDir) (resolved : Bytes) (shown : List DirEntry) (next : ℤ) : Value :=
  .obj [(lit "path", .str resolved), (lit "writable", .bool (dir.writable resolved)),
    (lit "entries", .arr (shown.map DirEntry.value)), (lit "next", .num (printInt next))]

variable {dir : ConsoleDir} {path resolved : Bytes} {directoriesOnly : Bool} {offset : ℕ}

theorem isText_boolText (b : Bool) : IsText (.bool b) (boolText b) := by
  cases b
  · exact .false
  · exact .true

theorem isText_int (x : ℤ) : IsText (.num (printInt x)) (printInt x) := by
  rw [printInt]
  split
  · exact .num (isNumber_neg_print _)
  · exact .num (isNumber_print _)

theorem isText_object (entry : DirEntry) : IsText entry.value entry.object := by
  have hobj := IsText.obj (.cons (isMember_of_plain (lit "name") rfl
      (.str (isBody_flatMap entry.name)))
    (.cons (isMember_of_plain (lit "directory") rfl
      (isText_boolText (entry.kind = some .directory))) .nil))
  have hopen : lit "\x7b\"name\":\"" =
      code '{' :: chr '"' :: lit "name" ++ [chr '"', chr ':', code '"'] := rfl
  have hdirectory : lit "\",\"directory\":" =
      code '"' :: code ',' :: chr '"' :: lit "directory" ++ [chr '"', chr ':'] := rfl
  have hclose : lit "\x7d" = [code '}'] := rfl
  rw [DirEntry.object, entryText, hopen, hdirectory, hclose]
  simpa [commas, DirEntry.value] using hobj

theorem forall₂_object (shown : List DirEntry) :
    List.Forall₂ IsText (shown.map DirEntry.value) (shown.map DirEntry.object) := by
  induction shown with
  | nil => exact .nil
  | cons entry shown ih => exact .cons (isText_object entry) ih

/-- A reply is the text of its page. -/
theorem isText_pageReply (dir : ConsoleDir) (resolved : Bytes) (shown : List DirEntry) (next : ℤ) :
    IsText (pageValue dir resolved shown next) (pageReply dir resolved shown next).text := by
  have hobj := IsText.obj (.cons (isMember_of_plain (lit "path") rfl (.str (isBody_flatMap resolved)))
    (.cons (isMember_of_plain (lit "writable") rfl (isText_boolText (dir.writable resolved)))
      (.cons (isMember_of_plain (lit "entries") rfl (.arr (forall₂_object shown)))
        (.cons (isMember_of_plain (lit "next") rfl (isText_int next)) .nil))))
  have hopen : lit "\x7b\"path\":\"" =
      code '{' :: chr '"' :: lit "path" ++ [chr '"', chr ':', code '"'] := rfl
  have hwritable : lit "\",\"writable\":" =
      code '"' :: code ',' :: chr '"' :: lit "writable" ++ [chr '"', chr ':'] := rfl
  have hentries : lit ",\"entries\":[" =
      code ',' :: chr '"' :: lit "entries" ++ [chr '"', chr ':', code '['] := rfl
  have hnext : lit "],\"next\":" =
      code ']' :: code ',' :: chr '"' :: lit "next" ++ [chr '"', chr ':'] := rfl
  have hclose : lit "\x7d" = [code '}'] := rfl
  show IsText _ (pageText (headerText _ _) shown ++ tailText next)
  rw [pageText, headerText, tailText, hopen, hwritable, hentries, hnext, hclose]
  simpa [commas, pageValue] using hobj

/-! ## The requests -/

/-- A request for a page of a directory. -/
structure Asks (req : HttpRequest) (path : Bytes) (directoriesOnly : Bool) (offset : ℕ) : Prop where
  path : listPath req = path
  directoriesOnly : listDirectoriesOnly req = directoriesOnly
  offset : listOffset req = offset

/-- The parameters of the browser. -/
def listParams (path : Bytes) (directoriesOnly : Bool) (offset : ℕ) : List (Bytes × Bytes) :=
  (if directoriesOnly then [(lit "directories", lit "1")] else []) ++
    [(lit "path", path), (lit "offset", Decimal.print offset)]

/-- The browser's request. -/
def listRequest (path : Bytes) (directoriesOnly : Bool) (offset : ℕ) : HttpRequest where
  method := .get
  path := lit "/api/files"
  query := formQuery (listParams path directoriesOnly offset)
  body := none
  contentType := []

theorem encode_print (n : ℕ) : uriCoding.encode (Decimal.print n) = Decimal.print n := by
  refine encode_of_safe fun b hb => ?_
  have hdigit := Decimal.isDigit_iff.1 (Decimal.isDigit_of_mem_print hb)
  have hrange : chr '0' ≤ b ∧ b ≤ chr '9' :=
    ⟨UInt8.le_iff_toNat_le.2 hdigit.1, UInt8.le_iff_toNat_le.2 hdigit.2⟩
  show isUriComponentChar b
  simp [isUriComponentChar, hrange]

/-- A parameter of the browser's query is read back, if it fits its buffer. -/
theorem httpGetParam_eq {pairs : List (Bytes × Bytes)} {key v : Bytes} {valLen : ℕ}
    (hkey : IsKey key) (hpairs : ∀ pair ∈ pairs, IsKey pair.1 ∧ 0 ∉ pair.2)
    (hlookup : pairs.lookup key = some v) (hfit : (uriCoding.encode v).length < valLen)
    (hnul : 0 ∉ v) : httpGetParam (formQuery pairs) key valLen = some v := by
  rw [httpGetParam_formQuery hkey hpairs, hlookup, Option.map_some,
    List.take_of_length_le (by omega), httpUrlDecode_encode uriCoding hnul]

theorem isKey_path : IsKey (lit "path") := ⟨by decide, by decide, by decide⟩

theorem isKey_offset : IsKey (lit "offset") := ⟨by decide, by decide, by decide⟩

theorem isKey_directories : IsKey (lit "directories") := ⟨by decide, by decide, by decide⟩

theorem isKey_listParams (hnul : 0 ∉ path) (directoriesOnly : Bool) (offset : ℕ) :
    ∀ pair ∈ listParams path directoriesOnly offset, IsKey pair.1 ∧ 0 ∉ pair.2 := by
  have hdigits : 0 ∉ Decimal.print offset := fun h =>
    absurd (Decimal.isDigit_of_mem_print h) (by decide)
  cases directoriesOnly with
  | true => simp [listParams, isKey_directories, isKey_path, isKey_offset, hnul, hdigits]; decide
  | false => simp [listParams, isKey_path, isKey_offset, hnul, hdigits]

/-- The browser's query asks for the page, if the path fits its buffer. -/
theorem asks_listRequest (hnul : 0 ∉ path) (hlength : (uriCoding.encode path).length < 1024)
    (hoffset : offset < 2 ^ 63) :
    Asks (listRequest path directoriesOnly offset) path directoriesOnly offset := by
  have hpairs := isKey_listParams hnul directoriesOnly offset
  have hdigits : 0 ∉ Decimal.print offset := fun h =>
    absurd (Decimal.isDigit_of_mem_print h) (by decide)
  have hlengthPrint := Decimal.length_print_le (show 0 < 19 by decide)
    (show offset < 10 ^ 19 by omega)
  refine ⟨?_, ?_, ?_⟩
  · have hlookup : (listParams path directoriesOnly offset).lookup (lit "path") = some path := by
      cases directoriesOnly with
      | true => rfl
      | false => rfl
    rw [listPath, listRequest, httpGetParam_eq isKey_path hpairs hlookup hlength hnul,
      Option.getD_some]
  · rw [listDirectoriesOnly, listRequest]
    cases directoriesOnly with
    | true =>
      rw [httpGetParam_eq isKey_directories hpairs rfl (by decide) (by decide), Option.getD_some]
      exact decide_eq_true rfl
    | false =>
      rw [httpGetParam_formQuery isKey_directories hpairs]
      rfl
  · have hlookup : (listParams path directoriesOnly offset).lookup (lit "offset") =
        some (Decimal.print offset) := by
      cases directoriesOnly with
      | true => rfl
      | false => rfl
    rw [listOffset, listRequest, httpGetParam_eq isKey_offset hpairs hlookup
      (by rw [encode_print]; omega) hdigits, Option.getD_some,
      strtol_print (by simp only [INT64_MAX]; omega)]
    exact max_eq_right (Int.natCast_nonneg offset)

/-! ## The pages -/

/-- A page that is asked for, and the offset of the next one. -/
def fetchPage (dir : ConsoleDir) (buffers : ℕ → ListBuffers) (request : ℕ → HttpRequest)
    (offset : ℕ) : Option (List DirEntry × Option ℕ) :=
  (consoleFilesList dir (buffers offset) (request offset)).map fun listing =>
    (listing.shown, if listing.next < 0 then none else some listing.next.toNat)

theorem nextNumber_lt_zero (next : Option ℕ) :
    (if nextNumber next < 0 then none else some (nextNumber next).toNat) = next := by
  cases next with
  | none => rfl
  | some offset => exact if_neg (by simp only [nextNumber]; omega)

variable {request : ℕ → HttpRequest}

theorem fetches_eligible (buffers : ℕ → ListBuffers) (hopened : dir.opened path = some resolved)
    (hrequest : ∀ offset < 2 ^ 63, Asks (request offset) path directoriesOnly offset) :
    Paging.Fetches (fetchPage dir buffers request) 128 (dir.eligible resolved directoriesOnly) := by
  intro offset hle
  have hcount : (dir.eligible resolved directoriesOnly).length < 2 ^ 63 :=
    (List.length_filter_le _ _).trans_lt (dir.length_readdir resolved)
  obtain ⟨rfl, rfl, hoffset⟩ := hrequest offset (hle.trans_lt hcount)
  obtain ⟨listing, hlisting, hshown, hnext, -⟩ := exists_listing (buffers offset) hopened
  rw [hoffset, Int.toNat_natCast] at hshown hnext
  rw [fetchPage, hlisting, Option.map_some, hshown, hnext, nextNumber_lt_zero]

/-- A page is the part of the list at the offset, for every request; and following `next` from the
    start ends, and gives every entry that is listed once and in order. -/
theorem pages_of_eligible (buffers : ℕ → ListBuffers) (hopened : dir.opened path = some resolved)
    (hrequest : ∀ offset < 2 ^ 63, Asks (request offset) path directoriesOnly offset) :
    (∀ (buffers : ListBuffers) (req : HttpRequest) (offset : ℕ), Asks req path directoriesOnly offset →
      ∃ listing, consoleFilesList dir buffers req = some listing ∧
        listing.shown = ((dir.eligible resolved directoriesOnly).drop offset).take 128 ∧
        listing.next = (if offset + 128 < (dir.eligible resolved directoriesOnly).length then
          (offset + 128 : ℤ) else -1) ∧
        listing.reply.bodyLen = listing.reply.text.length ∧
        IsText (pageValue dir resolved listing.shown listing.next) listing.reply.text) ∧
    (∃ pages, Paging.Follows (fetchPage dir buffers request) 0 pages) ∧
    ∀ pages, Paging.Follows (fetchPage dir buffers request) 0 pages →
      pages.flatten = dir.eligible resolved directoriesOnly ∧ ∀ page ∈ pages, page.length ≤ 128 := by
  have hfetch := fetches_eligible buffers hopened hrequest
  refine ⟨fun buffers req offset hasks => ?_, Paging.exists_follows hfetch (by decide) (Nat.zero_le _),
    fun pages hpages => Paging.flatten_of_follows hfetch (Nat.zero_le _) hpages⟩
  obtain ⟨rfl, rfl, hoffset⟩ := hasks
  obtain ⟨listing, hlisting, hshown, hnext, hreply, -⟩ := exists_listing buffers hopened
  rw [hoffset, Int.toNat_natCast] at hshown hnext
  refine ⟨listing, hlisting, hshown, ?_, ?_, ?_⟩
  · rw [hnext, Paging.next]
    split
    · rfl
    · rfl
  · rw [hreply]
    rfl
  · rw [hreply]
    exact isText_pageReply dir resolved listing.shown listing.next

/-! ### A stick -/

/-- A stick with a folder, a text and a metainfo file. -/
def usbEntries : List DirEntry :=
  [⟨lit ".", some .directory⟩, ⟨lit "games", some .directory⟩, ⟨lit "notes.txt", some .regular⟩,
    ⟨lit "linux.Torrent", some .regular⟩]

def usbDir : ConsoleDir where
  regularFile _ := none
  realpath path := if path = lit "/mnt/usb0" then some path else none
  opendir _ := true
  mkdirat _ _ := none
  readdir _ := usbEntries
  writable _ := true
  length_realpath := by
    intro path resolved h
    split at h
    · obtain rfl := Option.some.inj h
      subst path
      decide
    · cases h
  length_name _ := by decide
  name_nul _ := by decide
  length_readdir _ := by decide

def blankBuffers : ListBuffers where
  escaped := List.replicate 24577 0
  json := List.replicate 262144 0
  length_escaped := List.length_replicate
  length_json := List.length_replicate

/-- More folders than a page has entries. -/
def shelfEntries : List DirEntry :=
  (List.range 150).map fun k => ⟨List.replicate (k + 1) (chr 'a'), some .directory⟩

def shelfDir : ConsoleDir where
  toConsoleDisk := usbDir.toConsoleDisk
  readdir _ := shelfEntries
  writable _ := true
  length_realpath := usbDir.length_realpath
  length_name _ := by decide +kernel
  name_nul _ := by decide +kernel
  length_readdir _ := by decide +kernel

/-- All folders are shown, on more than one page. -/
theorem pages_of_eligible_shelf :
    ∃ pages, Paging.Follows (fetchPage shelfDir (fun _ => blankBuffers)
        (listRequest (lit "/mnt/usb0") false)) 0 pages ∧
      pages.flatten = shelfEntries ∧ 2 ≤ pages.length := by
  have hopened : shelfDir.opened (lit "/mnt/usb0") = some (lit "/mnt/usb0") := by decide
  obtain ⟨-, ⟨pages, hpages⟩, hflatten⟩ := pages_of_eligible (fun _ => blankBuffers) hopened
    fun offset hoffset => asks_listRequest (by decide) (by decide) hoffset
  obtain ⟨hall, hlength⟩ := hflatten pages hpages
  have heligible : shelfDir.eligible (lit "/mnt/usb0") false = shelfEntries :=
    List.filter_eq_self.2 (by decide +kernel)
  rw [heligible] at hall
  refine ⟨pages, hpages, hall, ?_⟩
  -- one page would hold at most 128 of the 150 folders
  have hcount : pages.flatten.length = 150 := by
    rw [hall, shelfEntries, List.length_map, List.length_range]
  rcases pages with _ | ⟨page, _ | ⟨page', pages⟩⟩
  · simp at hcount
  · rw [List.flatten_singleton] at hcount
    have hle := hlength page (List.mem_singleton_self page)
    omega
  · exact Nat.le_add_left _ _

end PS5Torrent
