import PS5Torrent.Library.LexPath
import Mathlib.Logic.Function.Basic
import Mathlib.Tactic.Linarith

/-!
# A file system

A tree of directories and files, addressed by resolved paths, with the
operations of a program that creates directories and writes files: `mkdir`,
`openWrite` (for writing, creating the file if it does not exist) and
`pwrite`. An operation either fails, leaving the tree alone, or changes it at
its path only. A write beyond the end of a file fills the gap with zeros.
-/

namespace FileSystem

open LexPath

/-! ## Contents -/

/-- The content of a file after writing `d` at the offset `off`; an empty
    write changes nothing. -/
def writeAt (c : List UInt8) (off : ℕ) (d : List UInt8) : List UInt8 :=
  if d = [] then c
  else c.take off ++ List.replicate (off - c.length) 0 ++ d ++ c.drop (off + d.length)

@[simp]
theorem writeAt_nil (c : List UInt8) (off : ℕ) : writeAt c off [] = c := if_pos rfl

theorem length_writeAt {c : List UInt8} {off : ℕ} {d : List UInt8} (hd : d ≠ []) :
    (writeAt c off d).length = max c.length (off + d.length) := by
  simp only [writeAt, if_neg hd, List.length_append, List.length_take, List.length_replicate,
    List.length_drop]
  omega

/-- A write never shortens a file. -/
theorem length_le_writeAt (c : List UInt8) (off : ℕ) (d : List UInt8) :
    c.length ≤ (writeAt c off d).length := by
  by_cases hd : d = []
  · simp [hd]
  · simp [length_writeAt hd]

/-- The written bytes. -/
theorem getElem?_writeAt_of_mem {c : List UInt8} {off : ℕ} {d : List UInt8} {k : ℕ}
    (hl : off ≤ k) (hu : k < off + d.length) : (writeAt c off d)[k]? = d[k - off]? := by
  have hd : d ≠ [] := by
    rintro rfl
    simp only [List.length_nil] at hu
    omega
  have hlen : (c.take off ++ List.replicate (off - c.length) 0).length = off := by
    simp only [List.length_append, List.length_take, List.length_replicate]
    omega
  rw [writeAt, if_neg hd, List.append_assoc, List.getElem?_append_right (by omega), hlen,
    List.getElem?_append_left (by omega)]

/-- The other bytes of the file stay. -/
theorem getElem?_writeAt_of_not_mem {old : List UInt8} {off : ℕ} {d : List UInt8} {k : ℕ}
    (hk : k < old.length) (hout : k < off ∨ off + d.length ≤ k) :
    (writeAt old off d)[k]? = old[k]? := by
  by_cases hd : d = []
  · simp [hd]
  rw [writeAt, if_neg hd]
  rcases hout with hlt | hge
  · rw [List.append_assoc, List.append_assoc, List.getElem?_append_left (by simp; omega),
      List.getElem?_take_of_lt hlt]
  · have hlen : (old.take off ++ List.replicate (off - old.length) 0 ++ d).length =
        off + d.length := by
      simp only [List.length_append, List.length_take, List.length_replicate]
      omega
    rw [List.getElem?_append_right (by omega), hlen, List.getElem?_drop]
    congr 1
    omega

/-! ## The tree -/

/-- A node of the tree. -/
inductive Node
  | dir
  | file (content : List UInt8)

/-- A file system: the node at each path. The root is always a directory. -/
abbrev Fs := Path → Option Node

namespace Fs

/-- The content of the file at a path. -/
def content (fs : Fs) (p : Path) : Option (List UInt8) :=
  match fs p with
  | some (.file c) => some c
  | _ => none

def isDir (fs : Fs) (p : Path) : Bool :=
  match p, fs p with
  | [], _ => true
  | _, some .dir => true
  | _, _ => false

/-- Why an operation fails. -/
inductive Error
  | exists
  | noEntry
  | notDir
  | isDir

/-- Why the directory that is to hold `p` cannot be entered. -/
def parentError (fs : Fs) (p : Path) : Error :=
  if p.dropLast.inits.any fun q => (fs.content q).isSome then .notDir else .noEntry

def mkdir (fs : Fs) (p : Path) : Except Error Fs :=
  if p = [] ∨ (fs p).isSome then .error .exists
  else if fs.isDir p.dropLast then .ok (Function.update fs p (some .dir))
  else .error (fs.parentError p)

/-- Open for writing, creating the file and, if asked to, truncating it. A
    string with a trailing slash names no file. -/
def openWrite (fs : Fs) (p : Path) (trunc slash : Bool) : Except Error Fs :=
  if fs.isDir p then .error .isDir
  else match fs.content p with
  | some _ =>
    if slash then .error .notDir
    else .ok (if trunc then Function.update fs p (some (.file [])) else fs)
  | none =>
    if !fs.isDir p.dropLast then .error (fs.parentError p)
    else if slash then .error .isDir
    else .ok (Function.update fs p (some (.file [])))

/-- Write to the open file at `p`. -/
def pwrite (fs : Fs) (p : Path) (off : ℕ) (d : List UInt8) : Fs :=
  Function.update fs p (some (.file (writeAt ((fs.content p).getD []) off d)))

/-! ### Frames -/

variable {fs fs' : Fs} {p q : Path}

theorem content_update_of_ne (n : Option Node) (h : q ≠ p) :
    content (Function.update fs p n) q = fs.content q := by
  rw [content, Function.update_of_ne h, content]

theorem content_update_file (c : List UInt8) :
    content (Function.update fs p (some (.file c))) p = some c := by
  rw [content, Function.update_self]

/-- Creating a directory changes the content of no file. -/
theorem content_of_mkdir (h : fs.mkdir p = .ok fs') (q : Path) : fs'.content q = fs.content q := by
  rw [mkdir] at h
  split_ifs at h with hex hpar
  push Not at hex
  obtain rfl := Except.ok.inj h
  by_cases hq : q = p
  · subst hq
    have hnone : fs q = none := by simpa using hex.2
    rw [content, Function.update_self, content, hnone]
  · exact content_update_of_ne _ hq

/-- What a successful opening does. -/
theorem openWrite_eq_ok {trunc slash : Bool} (h : fs.openWrite p trunc slash = .ok fs') :
    (∃ c, fs.content p = some c ∧
      fs' = if trunc then Function.update fs p (some (.file [])) else fs) ∨
    (fs.content p = none ∧ fs' = Function.update fs p (some (.file []))) := by
  rw [openWrite] at h
  split at h
  · cases h
  split at h
  case h_1 c hc =>
    split at h
    · cases h
    · exact .inl ⟨c, hc, (Except.ok.inj h).symm⟩
  case h_2 hc =>
    split at h
    · cases h
    split at h
    · cases h
    · exact .inr ⟨hc, (Except.ok.inj h).symm⟩

/-- Opening a file leaves the other files alone. -/
theorem content_of_openWrite_of_ne {trunc slash : Bool} (h : fs.openWrite p trunc slash = .ok fs')
    (hq : q ≠ p) : fs'.content q = fs.content q := by
  obtain ⟨c, -, rfl⟩ | ⟨-, rfl⟩ := openWrite_eq_ok h
  · split
    · exact content_update_of_ne _ hq
    · rfl
  · exact content_update_of_ne _ hq

/-- An opened file is empty if it was truncated or created, and as it was otherwise. -/
theorem content_of_openWrite {trunc slash : Bool} (h : fs.openWrite p trunc slash = .ok fs') :
    fs'.content p = some (if trunc then [] else (fs.content p).getD []) := by
  obtain ⟨c, hc, rfl⟩ | ⟨hc, rfl⟩ := openWrite_eq_ok h
  · cases trunc
    · rw [if_neg Bool.false_ne_true, if_neg Bool.false_ne_true, hc, Option.getD_some]
    · rw [if_pos rfl, if_pos rfl, content_update_file]
  · rw [content_update_file, hc, Option.getD_none, ite_self]

end Fs

/-! ## Assembling files -/

/-- The contents of the files, path by path. -/
abbrev Contents := Path → Option (List UInt8)

/-- A write of some bytes to a file. -/
structure Write where
  path : Path
  off : ℕ
  data : List UInt8

/-- The contents after a write to a file that is created if need be. -/
def put (f : Contents) (w : Write) : Contents :=
  Function.update f w.path (some (writeAt ((f w.path).getD []) w.off w.data))

/-- The write puts a part of `s` where it belongs in `s`. -/
def Write.IsPartOf (w : Write) (s : List UInt8) : Prop :=
  w.off + w.data.length ≤ s.length ∧ w.data = (s.drop w.off).take w.data.length

/-- The write covers a position of its file. -/
def Write.Covers (w : Write) (k : ℕ) : Prop := w.off ≤ k ∧ k < w.off + w.data.length

section Assembling

variable {f : Contents} {w : Write} {ws : List Write} {p : Path} {s : List UInt8} {k : ℕ}

theorem put_of_ne (h : w.path ≠ p) : put f w p = f p := Function.update_of_ne h.symm _ _

/-- The contents after a write to an open file. -/
theorem content_pwrite (fs : Fs) (w : Write) :
    (fs.pwrite w.path w.off w.data).content = put fs.content w := by
  funext q
  by_cases hq : q = w.path
  · subst hq
    rw [Fs.pwrite, Fs.content_update_file, put, Function.update_self]
  · rw [Fs.pwrite, Fs.content_update_of_ne _ hq, put, Function.update_of_ne hq]

/-- Creating the file first makes no difference to a write. -/
theorem put_update_getD : put (Function.update f w.path (some ((f w.path).getD []))) w = put f w := by
  rw [put, put, Function.update_self, Option.getD_some, Function.update_idem]

theorem put_self : put f w w.path = some (writeAt ((f w.path).getD []) w.off w.data) :=
  Function.update_self _ _ _

/-- A file nothing is written to stays as it is. -/
theorem foldl_put_of_forall_ne (h : ∀ w ∈ ws, w.path ≠ p) : ws.foldl put f p = f p := by
  induction ws generalizing f with
  | nil => rfl
  | cons w ws ih =>
    rw [List.foldl_cons, ih fun v hv => h v (List.mem_cons_of_mem _ hv),
      put_of_ne (h w List.mem_cons_self)]

/-- No sequence of writes shortens a file. -/
theorem length_le_foldl_put : ((f p).getD []).length ≤ ((ws.foldl put f p).getD []).length := by
  induction ws generalizing f with
  | nil => rfl
  | cons w ws ih =>
    refine le_trans ?_ ih
    by_cases hp : w.path = p
    · subst hp
      rw [put_self, Option.getD_some]
      exact length_le_writeAt _ _ _
    · rw [put_of_ne hp]

theorem Write.IsPartOf.getElem? (h : w.IsPartOf s) (hk : w.Covers k) :
    w.data[k - w.off]? = s[k]? := by
  obtain ⟨hl, hu⟩ := hk
  rw [h.2, List.getElem?_take_of_lt (by omega), List.getElem?_drop]
  congr 1
  omega

/-- Writing a part of `s` leaves the positions right that were, and makes those it covers
    right. -/
theorem Write.IsPartOf.getElem?_writeAt {old : List UInt8} (h : w.IsPartOf s)
    (hk : w.Covers k ∨ k < s.length ∧ old[k]? = s[k]?) : (writeAt old w.off w.data)[k]? = s[k]? := by
  by_cases hcov : w.Covers k
  · rw [getElem?_writeAt_of_mem hcov.1 hcov.2, h.getElem? hcov]
  · obtain ⟨hks, heq⟩ := hk.resolve_left hcov
    have hkc : k < old.length := by
      rw [List.getElem?_eq_getElem hks] at heq
      exact (List.getElem?_eq_some_iff.1 heq).1
    rw [getElem?_writeAt_of_not_mem hkc (by simp only [Write.Covers] at hcov; omega), heq]

theorem Write.IsPartOf.length_writeAt_le {c : List UInt8} (h : w.IsPartOf s)
    (hc : c.length ≤ s.length) : (writeAt c w.off w.data).length ≤ s.length := by
  by_cases hd : w.data = []
  · rwa [hd, writeAt_nil]
  · rw [length_writeAt hd]
    exact max_le hc h.1

/-- A file that is no longer than `s`, and is overwritten by parts of `s` at all positions
    that do not hold the right byte yet, ends as `s`. -/
theorem foldl_put_getD_eq (hlen : ((f p).getD []).length ≤ s.length)
    (hparts : ∀ w ∈ ws, w.path = p → w.IsPartOf s)
    (hcover : ∀ k < s.length,
      (∃ w ∈ ws, w.path = p ∧ w.Covers k) ∨ ((f p).getD [])[k]? = s[k]?) :
    (ws.foldl put f p).getD [] = s := by
  induction ws generalizing f with
  | nil =>
    refine List.ext_getElem? fun k => ?_
    by_cases hk : k < s.length
    · obtain ⟨w, hw, -⟩ | heq := hcover k hk
      · exact absurd hw List.not_mem_nil
      · exact heq
    · rw [List.foldl_nil, List.getElem?_eq_none (by omega), List.getElem?_eq_none (by omega)]
  | cons w ws ih =>
    have hws := fun v hv => hparts v (List.mem_cons_of_mem _ hv)
    by_cases hp : w.path = p
    · subst hp
      have hw := hparts w List.mem_cons_self rfl
      refine ih ?_ hws fun k hk => ?_
      · rw [put_self, Option.getD_some]
        exact hw.length_writeAt_le hlen
      · rw [put_self, Option.getD_some]
        rcases hcover k hk with ⟨v, hv, hvp, hvk⟩ | heq
        · rcases List.mem_cons.1 hv with rfl | hv
          · exact .inr (hw.getElem?_writeAt (.inl hvk))
          · exact .inl ⟨v, hv, hvp, hvk⟩
        · exact .inr (hw.getElem?_writeAt (.inr ⟨hk, heq⟩))
    · refine ih ?_ hws fun k hk => ?_
      · rwa [put_of_ne hp]
      · rw [put_of_ne hp]
        rcases hcover k hk with ⟨v, hv, hvp, hvk⟩ | heq
        · rcases List.mem_cons.1 hv with rfl | hv
          · exact absurd hvp hp
          · exact .inl ⟨v, hv, hvp, hvk⟩
        · exact .inr heq

/-- A file no longer than `s`, covered by parts of `s`, ends as `s`. -/
theorem foldl_put_eq (hs : s ≠ []) (hlen : ((f p).getD []).length ≤ s.length)
    (hparts : ∀ w ∈ ws, w.path = p → w.IsPartOf s)
    (hcover : ∀ k < s.length, ∃ w ∈ ws, w.path = p ∧ w.Covers k) :
    ws.foldl put f p = some s := by
  have h := foldl_put_getD_eq hlen hparts fun k hk => .inl (hcover k hk)
  cases hfold : ws.foldl put f p with
  | none => exact absurd (by rw [← h, hfold]; rfl) hs
  | some c => rw [← h, hfold, Option.getD_some]

end Assembling

end FileSystem
