import PS5Torrent.HttpServer

/-!
# Uploads

The body a browser builds from a form with a path and a file
(`UploadForm.body`), and what the server reads from it. The file arrives
exactly if its content does not contain a line that starts with two dashes
and the path does not pass for the field of the file
(`httpGetUpload_of_form`).
-/

namespace PS5Torrent

open Search

/-! ## The body of a form -/

def CR : UInt8 := chr '\r'

def LF : UInt8 := chr '\n'

def QUOTE : UInt8 := chr '"'

/-- A form with a path and a file, as a browser sends it. Neither the boundary
    nor what stands in a header breaks the line or the quotes. -/
structure UploadForm where
  boundary : Bytes
  path : Bytes
  filename : Bytes
  contentType : Bytes
  content : Bytes
  boundary_plain : CR ∉ boundary ∧ QUOTE ∉ boundary
  filename_plain : CR ∉ filename
  contentType_plain : CR ∉ contentType
  content_ne_nil : content ≠ []

namespace UploadForm

variable (f : UploadForm)

def pathHeader : Bytes :=
  lit "--" ++ f.boundary ++ lit "\r\nContent-Disposition: form-data; name=\"path\"\r\n\r\n"

def fileHeader : Bytes :=
  lit "\r\n--" ++ f.boundary ++
    lit "\r\nContent-Disposition: form-data; name=\"torrent\"; filename=\"" ++ f.filename ++
    lit "\"\r\nContent-Type: " ++ f.contentType ++ lit "\r\n\r\n"

def body : Bytes :=
  f.pathHeader ++ f.path ++ f.fileHeader ++ f.content ++ lit "\r\n--" ++ f.boundary ++ lit "--\r\n"

end UploadForm

/-- The start of a part up to the first line that starts with two dashes. -/
def untilDashes (b : Bytes) : Bytes := b.take ((search (lit "\r\n--") b).getD b.length)

/-- The lines before the blank line of the file. -/
def UploadForm.headerLines (f : UploadForm) : Bytes :=
  lit "--" ++ f.boundary ++ lit "\r\nContent-Disposition: form-data; name=\"torrent\"; filename=\"" ++
    f.filename ++ lit "\"\r\nContent-Type: " ++ f.contentType ++ lit "\r\n"

/-- What passes for the file, if the path contains the name of its field and
    later a blank line: the path from there on, or the lines before the content
    if the blank line is that at the end of the path. -/
def UploadForm.shadow (f : UploadForm) : Option Bytes :=
  (search (lit "name=\"torrent\"") f.path).bind fun i =>
    (search (lit "\r\n\r\n") (f.path.drop i ++ [CR, LF])).map fun j =>
      if j + 4 ≤ (f.path.drop i).length then untilDashes ((f.path.drop i).drop (j + 4))
      else f.headerLines

/-! ## The words the server looks for -/

theorem unbordered_dashes : Unbordered (lit "\r\n--") := by decide

theorem findBytes_eq {haystack needle : Bytes} (h : needle ≠ []) :
    findBytes haystack needle = search needle haystack := if_neg h

theorem dashes_ne_nil : lit "\r\n--" ≠ [] := by decide

theorem blank_ne_nil : lit "\r\n\r\n" ≠ [] := by decide

theorem fieldSearch_torrent : fieldSearch (lit "torrent") = some (lit "name=\"torrent\"") := by decide

theorem fieldSearch_path : fieldSearch (lit "path") = some (lit "name=\"path\"") := by decide

theorem multipartDataStart_of_blank {field : Bytes} {i : ℕ}
    (h : search (lit "\r\n\r\n") field = some i) : multipartDataStart field = some (i + 4) := by
  rw [multipartDataStart, findBytes_eq blank_ne_nil, h]

theorem drop_blank (x rest : Bytes) :
    (x ++ (lit "\r\n\r\n" ++ rest)).drop (x.length + 4) = rest := by
  have hlen : (x ++ lit "\r\n\r\n").length = x.length + 4 := by
    rw [List.length_append]
    rfl
  rw [← List.append_assoc, ← hlen, List.drop_left]

theorem dashes_getD_le (b : Bytes) : (search (lit "\r\n--") b).getD b.length ≤ b.length := by
  cases h : search (lit "\r\n--") b with
  | none => exact le_rfl
  | some i => exact le_of_add_le_left (add_length_le dashes_ne_nil h)

/-- A part is read to its end exactly if no line in it starts with two dashes. -/
theorem untilDashes_eq_self {b : Bytes} : untilDashes b = b ↔ ¬ lit "\r\n--" <:+: b := by
  rw [← search_eq_none, untilDashes, List.take_eq_self_iff]
  cases h : search (lit "\r\n--") b with
  | none => exact iff_of_true le_rfl rfl
  | some i =>
    have hle := add_length_le dashes_ne_nil h
    have hlen : (lit "\r\n--").length = 4 := rfl
    refine iff_of_false ?_ (Option.some_ne_none i)
    rw [Option.getD_some]
    omega

/-- What is read contains no such line. -/
theorem not_infix_untilDashes (b : Bytes) : ¬ lit "\r\n--" <:+: untilDashes b := by
  rw [untilDashes]
  cases h : search (lit "\r\n--") b with
  | none =>
    rw [Option.getD_none, List.take_length]
    exact search_eq_none.1 h
  | some i => exact not_infix_take dashes_ne_nil h

theorem untilDashes_append (b rest : Bytes) :
    untilDashes (b ++ (lit "\r\n--" ++ rest)) = untilDashes b := by
  rw [untilDashes, search_append_self dashes_ne_nil unbordered_dashes, Option.getD_some,
    List.take_append_of_le_length (dashes_getD_le b), untilDashes]

/-! ## The path -/

namespace UploadForm

variable (f : UploadForm)

/-- The parts of the body before and after the name of the field of the path. -/
theorem body_eq_path : f.body = (lit "--" ++ f.boundary ++ lit "\r\nContent-Disposition: form-data; ") ++
    (lit "name=\"path\"" ++ (lit "\r\n\r\n" ++ (f.path ++ (lit "\r\n--" ++ (f.fileHeader.drop 4 ++
      f.content ++ lit "\r\n--" ++ f.boundary ++ lit "--\r\n"))))) := by
  have hheader : lit "\r\nContent-Disposition: form-data; name=\"path\"\r\n\r\n" =
    lit "\r\nContent-Disposition: form-data; " ++ (lit "name=\"path\"" ++ lit "\r\n\r\n") := by decide
  have hfile : f.fileHeader = lit "\r\n--" ++ f.fileHeader.drop 4 := by
    rw [fileHeader]
    rfl
  rw [body, pathHeader, hheader, hfile]
  simp only [List.append_assoc]
  rfl

/-- The value of the path is cut off where a line starts with two dashes, and
    at the end of the buffer. -/
theorem httpGetMultipartField_path {valueLen : ℕ} (hlen : 0 < valueLen) :
    httpGetMultipartField f.body (lit "path") valueLen =
      some ((untilDashes f.path).take (valueLen - 1)) := by
  have hname : search (lit "name=\"path\"") f.body =
      some (lit "--" ++ f.boundary ++ lit "\r\nContent-Disposition: form-data; ").length := by
    rw [body_eq_path]
    refine search_of_not_mem (k := 5) (c := QUOTE) (by decide) ?_
    simp only [List.mem_append, not_or]
    exact ⟨⟨⟨by decide, f.boundary_plain.2⟩, by decide⟩, by decide⟩
  have hblank (rest : Bytes) : multipartDataStart (lit "name=\"path\"" ++ (lit "\r\n\r\n" ++ rest)) =
      some ((lit "name=\"path\"").length + 4) :=
    multipartDataStart_of_blank
      (search_of_not_mem (k := 0) (c := CR) (by decide) (by decide))
  have hle := dashes_getD_le f.path
  rw [httpGetMultipartField, if_neg (by omega), fieldSearch_path, Option.bind_some,
    findBytes_eq (by decide), hname]
  simp only [Option.bind_eq_bind, Option.bind_some, pure]
  rw [body_eq_path, List.drop_left, hblank, Option.bind_some, drop_blank, findBytes_eq dashes_ne_nil,
    search_append_self dashes_ne_nil unbordered_dashes, Option.bind_some, untilDashes, List.take_take]
  split_ifs with hfull
  · rw [List.take_append_of_le_length (by omega), Nat.min_eq_left (by omega)]
  · rw [List.take_append_of_le_length hle, Nat.min_eq_right (by omega)]

/-- A path that fits the buffer is read exactly if no line in it starts with two dashes. -/
theorem httpGetMultipartField_path_eq {valueLen : ℕ} (hfit : f.path.length < valueLen) :
    httpGetMultipartField f.body (lit "path") valueLen = some f.path ↔
      ¬ lit "\r\n--" <:+: f.path := by
  have hle : (untilDashes f.path).length ≤ valueLen - 1 := by
    rw [untilDashes, List.length_take]
    omega
  rw [httpGetMultipartField_path f (by omega), List.take_of_length_le hle, Option.some_inj,
    untilDashes_eq_self]

end UploadForm

/-! ## The file -/

theorem searchFrom_blank_skip {x y : Bytes} {c : UInt8} (hc : c ∉ lit "\r\n\r\n")
    (hx : x.count CR < 2) :
    searchFrom (lit "\r\n\r\n") (x ++ c :: y) = searchFrom (lit "\r\n\r\n") y :=
  searchFrom_skip blank_ne_nil hc (search_eq_none_of_count (c := CR) hx)

/-- What the server reads once the field and its blank line are found. -/
theorem httpGetUpload_eq {body field data filename : Bytes} {filenameLen : ℕ}
    (hfield : searchFrom (lit "name=\"torrent\"") body = some field)
    (hdata : searchFrom (lit "\r\n\r\n") field = some (lit "\r\n\r\n" ++ data)) :
    (httpGetUpload body (lit "torrent") filename filenameLen).1 =
      if untilDashes data = [] then none else some (untilDashes data) := by
  obtain ⟨i, hi, rfl⟩ := Option.map_eq_some_iff.1 hfield
  obtain ⟨j, hj, hdrop⟩ := Option.map_eq_some_iff.1 hdata
  have hdata' : (body.drop i).drop (j + 4) = data := by
    rw [← List.drop_drop, hdrop]
    rfl
  rw [httpGetUpload, fieldSearch_torrent, Option.bind_some, findBytes_eq (by decide), hi]
  dsimp only
  rw [multipartDataStart_of_blank hj]
  dsimp only
  rw [hdata', findBytes_eq dashes_ne_nil, untilDashes]
  have hle := dashes_getD_le data
  by_cases hlen : (search (lit "\r\n--") data).getD data.length = 0
  · rw [hlen, List.take_zero, if_pos rfl, if_neg (Nat.lt_irrefl 0)]
  · rw [if_pos (Nat.pos_of_ne_zero hlen), if_neg]
    intro hnil
    have := congrArg List.length hnil
    rw [List.length_take, List.length_nil] at this
    omega

namespace UploadForm

variable (f : UploadForm)

/-- The body from the field of the file on. -/
def fileField : Bytes :=
  lit "name=\"torrent\"" ++ (lit "; filename=\"" ++ f.filename ++ lit "\"\r\nContent-Type: " ++
    f.contentType ++ (lit "\r\n\r\n" ++ (f.content ++ (lit "\r\n--" ++ (f.boundary ++ lit "--\r\n")))))

/-- The body from the line after the path on. -/
def filePart : Bytes :=
  lit "-" ++ f.boundary ++ lit "\r\nContent-Disposition: form-data; " ++ f.fileField

theorem body_eq_file : f.body = f.pathHeader ++ (f.path ++ (CR :: LF :: chr '-' :: f.filePart)) := by
  have hheader : lit "\r\nContent-Disposition: form-data; name=\"torrent\"; filename=\"" =
    lit "\r\nContent-Disposition: form-data; " ++ (lit "name=\"torrent\"" ++ lit "; filename=\"") := by
    decide
  have hdashes : lit "\r\n--" = CR :: LF :: chr '-' :: lit "-" := by decide
  rw [body, fileHeader, filePart, fileField, hheader]
  nth_rewrite 1 [hdashes]
  simp only [List.append_assoc, List.cons_append]

/-- The content follows the blank line of its field. -/
theorem searchFrom_blank_fileField : searchFrom (lit "\r\n\r\n") f.fileField =
    some (lit "\r\n\r\n" ++ (f.content ++ (lit "\r\n--" ++ (f.boundary ++ lit "--\r\n")))) := by
  have hline : lit "\"\r\nContent-Type: " = lit "\"\r\n" ++ chr 'C' :: lit "ontent-Type: " := by decide
  have hfield : f.fileField =
      (lit "name=\"torrent\"; filename=\"" ++ f.filename ++ lit "\"\r\n") ++ chr 'C' ::
        ((lit "ontent-Type: " ++ f.contentType) ++
          (lit "\r\n\r\n" ++ (f.content ++ (lit "\r\n--" ++ (f.boundary ++ lit "--\r\n"))))) := by
    have hname : lit "name=\"torrent\"; filename=\"" = lit "name=\"torrent\"" ++ lit "; filename=\"" := by
      decide
    rw [fileField, hline, hname]
    simp only [List.append_assoc, List.cons_append]
  rw [hfield, searchFrom_blank_skip (by decide) ?_]
  · refine searchFrom_of_not_mem (k := 0) (c := CR) (by decide) ?_
    simp only [List.mem_append, not_or]
    exact ⟨⟨by decide, f.contentType_plain⟩, by decide⟩
  · simp only [List.count_append, List.count_eq_zero_of_not_mem f.filename_plain]
    decide

/-- From the line after the path on, the next blank line is that before the content. -/
theorem searchFrom_blank_filePart :
    searchFrom (lit "\r\n\r\n") f.filePart = searchFrom (lit "\r\n\r\n") f.fileField := by
  have hline : lit "\r\nContent-Disposition: form-data; " =
    lit "\r\nContent-Disposition: form-data;" ++ [chr ' '] := by decide
  have hpart : f.filePart =
      (lit "-" ++ f.boundary ++ lit "\r\nContent-Disposition: form-data;") ++ chr ' ' :: f.fileField := by
    rw [filePart, hline]
    simp only [List.append_assoc, List.cons_append, List.nil_append]
  rw [hpart, searchFrom_blank_skip (by decide)]
  simp only [List.count_append, List.count_eq_zero_of_not_mem f.boundary_plain.1]
  decide

/-- The field of the file is found after the path, unless its name occurs in it. -/
theorem searchFrom_torrent : searchFrom (lit "name=\"torrent\"") f.body =
    match search (lit "name=\"torrent\"") f.path with
    | some i => some (f.path.drop i ++ CR :: LF :: chr '-' :: f.filePart)
    | none => some f.fileField := by
  have hne : lit "name=\"torrent\"" ≠ [] := by decide
  have hheader : lit "\r\nContent-Disposition: form-data; name=\"path\"\r\n\r\n" =
    CR :: (lit "\nContent-Disposition: form-data; name=\"path\"\r\n\r" ++ [LF]) := by decide
  have hbody : f.body = (lit "--" ++ f.boundary) ++ CR ::
      (lit "\nContent-Disposition: form-data; name=\"path\"\r\n\r" ++ LF ::
        (f.path ++ CR :: LF :: chr '-' :: f.filePart)) := by
    rw [body_eq_file, pathHeader, hheader]
    simp only [List.append_assoc, List.cons_append, List.nil_append]
  have hnone : search (lit "name=\"torrent\"") (lit "--" ++ f.boundary) = none := by
    refine search_eq_none_of_not_mem (c := QUOTE) (by decide) ?_
    rw [List.mem_append, not_or]
    exact ⟨by decide, f.boundary_plain.2⟩
  rw [hbody, searchFrom_skip hne (by decide) hnone, searchFrom_skip hne (by decide) (by decide)]
  cases hpath : search (lit "name=\"torrent\"") f.path with
  | some i => exact searchFrom_left hne (by decide) hpath
  | none =>
    rw [searchFrom_skip hne (by decide) hpath]
    have hafter : LF :: chr '-' :: f.filePart =
        (lit "\n--" ++ f.boundary ++ lit "\r\nContent-Disposition: form-data; ") ++ f.fileField := by
      have hdashes : lit "\n--" = LF :: chr '-' :: lit "-" := by decide
      rw [filePart, hdashes]
      simp only [List.append_assoc, List.cons_append]
    rw [hafter, fileField]
    refine searchFrom_of_not_mem (k := 5) (c := QUOTE) (by decide) ?_
    simp only [List.mem_append, not_or]
    exact ⟨⟨⟨by decide, f.boundary_plain.2⟩, by decide⟩, by decide⟩

theorem dashFilePart_eq : chr '-' :: f.filePart = f.headerLines ++ (lit "\r\n" ++ (f.content ++
    (lit "\r\n--" ++ (f.boundary ++ lit "--\r\n")))) := by
  have hblank : lit "\r\n\r\n" = lit "\r\n" ++ lit "\r\n" := by decide
  have hheader : lit "\r\nContent-Disposition: form-data; name=\"torrent\"; filename=\"" =
    lit "\r\nContent-Disposition: form-data; " ++ (lit "name=\"torrent\"" ++ lit "; filename=\"") := by
    decide
  have hlines : f.headerLines = chr '-' :: (lit "-" ++ f.boundary ++
      lit "\r\nContent-Disposition: form-data; name=\"torrent\"; filename=\"" ++
      f.filename ++ lit "\"\r\nContent-Type: " ++ f.contentType ++ lit "\r\n") := rfl
  rw [filePart, fileField, hlines, hheader, hblank]
  simp only [List.append_assoc, List.cons_append]

/-- No header line starts with two dashes. -/
theorem search_dashes_headerLines : search (lit "\r\n--") f.headerLines = none := by
  have hline {x : Bytes} (hx : CR ∉ x) : search (lit "\r\n--") (x ++ lit "\r\n") = none := by
    rw [← Option.not_isSome_iff_eq_none]
    intro hsome
    obtain ⟨i, hi⟩ := Option.isSome_iff_exists.1 hsome
    have hlen := add_length_le dashes_ne_nil hi
    have hpre := prefix_of_search hi
    rw [List.length_append] at hlen
    have hlt : i < x.length := by
      have : (lit "\r\n--").length = 4 := rfl
      have : (lit "\r\n").length = 2 := rfl
      omega
    rw [List.drop_append_of_le_length hlt.le, ← List.cons_getElem_drop_succ (h := hlt)] at hpre
    obtain ⟨rest, hrest⟩ := hpre
    injection hrest with hhead _
    have hcr : CR = x[i] := hhead
    exact hx (hcr ▸ List.getElem_mem hlt)
  have hlines : f.headerLines = (lit "--" ++ f.boundary ++ lit "\r\n") ++ chr 'C' ::
      ((lit "ontent-Disposition: form-data; name=\"torrent\"; filename=\"" ++ f.filename ++ lit "\"" ++
        lit "\r\n") ++ chr 'C' :: (lit "ontent-Type: " ++ f.contentType ++ lit "\r\n")) := by
    have hdisposition : lit "\r\nContent-Disposition: form-data; name=\"torrent\"; filename=\"" =
      lit "\r\n" ++ chr 'C' :: lit "ontent-Disposition: form-data; name=\"torrent\"; filename=\"" := by
      decide
    have htype : lit "\"\r\nContent-Type: " =
      lit "\"" ++ lit "\r\n" ++ chr 'C' :: lit "ontent-Type: " := by decide
    rw [headerLines, hdisposition, htype]
    simp only [List.append_assoc, List.cons_append]
  have hboundary : CR ∉ lit "--" ++ f.boundary := by
    rw [List.mem_append, not_or]
    exact ⟨by decide, f.boundary_plain.1⟩
  have hfilename : CR ∉ lit "ontent-Disposition: form-data; name=\"torrent\"; filename=\"" ++
      f.filename ++ lit "\"" := by
    simp only [List.mem_append, not_or]
    exact ⟨⟨by decide, f.filename_plain⟩, by decide⟩
  have htype : CR ∉ lit "ontent-Type: " ++ f.contentType := by
    rw [List.mem_append, not_or]
    exact ⟨by decide, f.contentType_plain⟩
  rw [hlines, search_append_cons dashes_ne_nil (by decide), hline hboundary, Option.none_or,
    search_append_cons dashes_ne_nil (by decide), hline hfilename, hline htype]
  rfl

/-- What is taken when the blank line is that at the end of the path is the
    content only if the content consists of the header lines of the file. -/
theorem untilDashes_dashFilePart :
    untilDashes (chr '-' :: f.filePart) = f.content ↔ f.headerLines = f.content := by
  by_cases hstart : lit "--" <+: f.content
  · -- the content starts with two dashes, and the blank line before it ends the part
    obtain ⟨rest, hrest⟩ := hstart
    have hdashes : lit "\r\n" ++ (lit "--" ++ rest) = lit "\r\n--" ++ rest := by
      have : lit "\r\n--" = lit "\r\n" ++ lit "--" := by decide
      rw [this, List.append_assoc]
    rw [dashFilePart_eq, ← List.append_assoc (lit "\r\n"), ← hrest, hdashes, List.append_assoc,
      untilDashes_append, untilDashes, search_dashes_headerLines, Option.getD_none, List.take_length]
  · have hpart : lit "--" <+: chr '-' :: f.filePart := by
      have : chr '-' :: f.filePart = lit "--" ++ (f.filePart.drop 1) := by
        rw [filePart]
        rfl
      exact ⟨_, this.symm⟩
    refine iff_of_false (fun h => ?_) fun h => hstart ?_
    · -- what is taken starts with two dashes, and so does the content
      have hpos := List.length_pos_iff.2 f.content_ne_nil
      rw [← h] at hstart hpos
      rw [untilDashes, List.length_take] at hpos
      rw [untilDashes] at hstart
      have htwo : 2 ≤ (search (lit "\r\n--") (chr '-' :: f.filePart)).getD
          (chr '-' :: f.filePart).length := by
        cases hs : search (lit "\r\n--") (chr '-' :: f.filePart) with
        | none => exact hpart.length_le
        | some p =>
          rw [hs, Option.getD_some] at hpos
          rcases p with _ | _ | p
          · omega
          · obtain ⟨rest, hrest⟩ := prefix_of_search hs
            rw [filePart] at hrest
            injection hrest with hhead _
            exact absurd hhead (by decide)
          · exact Nat.le_add_left 2 p
      exact hstart (List.prefix_take_iff.2 ⟨hpart, htwo⟩)
    · rw [← h, headerLines]
      simp only [List.append_assoc]
      exact List.prefix_append _ _

/-- What the server takes for the file. -/
theorem httpGetUpload_torrent (filename : Bytes) (filenameLen : ℕ) :
    (httpGetUpload f.body (lit "torrent") filename filenameLen).1 = some f.content ↔
      untilDashes f.content = f.content ∧ ∀ d, f.shadow = some d → d = f.content := by
  have hsome (b : Bytes) : ((if b = [] then none else some b) = some f.content) ↔ b = f.content := by
    split_ifs with hb
    · exact iff_of_false (fun h => nomatch h) fun h => f.content_ne_nil (h.symm.trans hb)
    · exact Option.some_inj
  have hfound := f.searchFrom_torrent
  cases hpath : search (lit "name=\"torrent\"") f.path with
  | none =>
    have hshadow : f.shadow = none := by rw [shadow, hpath, Option.bind_none]
    rw [hpath] at hfound
    rw [httpGetUpload_eq hfound f.searchFrom_blank_fileField, untilDashes_append, hsome, hshadow]
    exact (and_iff_left fun _ h => nomatch h).symm
  | some i =>
    rw [hpath] at hfound
    dsimp only at hfound
    have hsplit : f.path.drop i ++ CR :: LF :: chr '-' :: f.filePart =
        (f.path.drop i ++ [CR, LF]) ++ chr '-' :: f.filePart := by
      rw [List.append_assoc]
      rfl
    rw [hsplit] at hfound
    cases hblank : search (lit "\r\n\r\n") (f.path.drop i ++ [CR, LF]) with
    | none =>
      have hshadow : f.shadow = none := by rw [shadow, hpath, Option.bind_some, hblank, Option.map_none]
      have hdata := searchFrom_skip (y := f.filePart) blank_ne_nil (c := chr '-') (by decide) hblank
      rw [searchFrom_blank_filePart, searchFrom_blank_fileField] at hdata
      rw [httpGetUpload_eq hfound hdata, untilDashes_append, hsome, hshadow]
      exact (and_iff_left fun _ h => nomatch h).symm
    | some j =>
      have hdata := searchFrom_left (y := f.filePart) blank_ne_nil (c := chr '-') (by decide) hblank
      obtain ⟨data, hpre⟩ := prefix_of_search hblank
      have hdrop : (f.path.drop i ++ [CR, LF]).drop (j + 4) = data := by
        rw [← List.drop_drop, ← hpre]
        rfl
      rw [← hpre, List.append_assoc (lit "\r\n\r\n")] at hdata
      rw [httpGetUpload_eq hfound hdata, hsome]
      by_cases hin : j + 4 ≤ (f.path.drop i).length
      · -- the blank line is within the path
        have hshadow : f.shadow = some (untilDashes ((f.path.drop i).drop (j + 4))) := by
          rw [shadow, hpath, Option.bind_some, hblank, Option.map_some, if_pos hin]
        have hrest : data ++ chr '-' :: f.filePart = (f.path.drop i).drop (j + 4) ++
            (lit "\r\n--" ++ f.filePart.drop 1) := by
          rw [← hdrop, List.drop_append_of_le_length hin, List.append_assoc, filePart]
          rfl
        rw [hrest, untilDashes_append, hshadow]
        refine ⟨fun h => ⟨?_, fun d hd => (Option.some.inj hd).symm.trans h⟩, fun h => h.2 _ rfl⟩
        rw [← h, untilDashes_eq_self]
        exact not_infix_untilDashes _
      · -- the blank line is that at the end of the path
        have hshadow : f.shadow = some f.headerLines := by
          rw [shadow, hpath, Option.bind_some, hblank, Option.map_some, if_neg hin]
        have hnil : data = [] := by
          have hlen : j + 4 ≤ (f.path.drop i ++ [CR, LF]).length := add_length_le blank_ne_nil hblank
          rw [← hdrop, List.drop_eq_nil_iff]
          rw [List.length_append] at hlen ⊢
          by_contra hlt
          have hget : (f.path.drop i ++ [CR, LF])[(f.path.drop i).length]? = some LF := by
            have : (f.path.drop i).length = j + 3 := by
              have : [CR, LF].length = 2 := rfl
              omega
            rw [this, ← List.getElem?_drop, ← hpre]
            rfl
          rw [List.getElem?_append_right le_rfl, Nat.sub_self] at hget
          exact absurd hget (by decide)
        rw [hnil, List.nil_append, untilDashes_dashFilePart, hshadow]
        refine ⟨fun h => ⟨?_, fun d hd => (Option.some.inj hd).symm.trans h⟩, fun h => h.2 _ rfl⟩
        rw [← h, untilDashes_eq_self]
        exact search_eq_none.1 f.search_dashes_headerLines

/-- The file arrives exactly if no line in it starts with two dashes and the
    path does not pass for it, and the path if no line in it starts with two
    dashes. -/
def Clear (valueLen : ℕ) : Prop :=
  ¬ lit "\r\n--" <:+: f.content ∧ (∀ d, f.shadow = some d → d = f.content) ∧
    (f.path.length < valueLen → ¬ lit "\r\n--" <:+: f.path)

theorem httpGetUpload_of_form (filename : Bytes) (filenameLen valueLen : ℕ) :
    ((httpGetUpload f.body (lit "torrent") filename filenameLen).1 = some f.content ∧
      (f.path.length < valueLen →
        httpGetMultipartField f.body (lit "path") valueLen = some f.path)) ↔ f.Clear valueLen := by
  rw [httpGetUpload_torrent, untilDashes_eq_self, Clear, and_assoc]
  refine and_congr_right fun _ => and_congr_right fun _ => forall_congr' fun hfit => ?_
  exact f.httpGetMultipartField_path_eq hfit

end UploadForm

/-- A metainfo with a piece hash that starts with a line break and two dashes. -/
def dashesForm : UploadForm where
  boundary := lit "----WebKitFormBoundary7MA4YWxkTrZu0gW"
  path := lit "/data"
  filename := lit "a.torrent"
  contentType := lit "application/x-bittorrent"
  content := lit "d4:infod6:lengthi1e4:name1:a12:piece lengthi1e6:pieces20:\r\n--aaaaaaaaaaaaaaaaee"
  boundary_plain := by decide
  filename_plain := by decide
  contentType_plain := by decide
  content_ne_nil := by decide

/-- The file is cut off there, although the delimiter occurs neither in it nor
    in the path. -/
theorem dashesForm_upload :
    ¬ lit "\r\n--" ++ dashesForm.boundary <:+: dashesForm.content ∧
    ¬ lit "\r\n--" ++ dashesForm.boundary <:+: dashesForm.path ∧
    dashesForm.body.length ≤ HTTP_MAX_BODY ∧
    (httpGetUpload dashesForm.body (lit "torrent") [] 256).1 =
      some (lit "d4:infod6:lengthi1e4:name1:a12:piece lengthi1e6:pieces20:") ∧
    (httpGetUpload dashesForm.body (lit "torrent") [] 256).1 ≠ some dashesForm.content := by
  decide +kernel

end PS5Torrent
