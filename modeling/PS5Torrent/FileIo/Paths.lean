import PS5Torrent.SavePath

/-!
# Containment

Whatever a metainfo names its files, the writer opens files and makes
directories only below the save path, or makes the save path and the
directories above it (`paths_within`). Both ends are guarded: the save path
has no dot components because `build_save_path` accepts none, the relative
path because `safe_relative_path` does. Symbolic links are assumed absent.
-/

namespace PS5Torrent

open LexPath FileSystem Effect

/-- The path is that of the directory `save`, of a directory above it, or lies
    strictly below it. -/
def Within (save path : Bytes) : Prop :=
  resolve path <+: resolve save ∨ (resolve save <+: resolve path ∧ resolve save ≠ resolve path)

/-- The path given to `open` or `mkdir` is within the save path. -/
def Syscall.Within (save : Bytes) : Syscall → Prop
  | .mkdir path => PS5Torrent.Within save path
  | .openFile path _ => PS5Torrent.Within save path
  | .stat _ | .lseek .. | .write .. => True

/-- The calls made are within the save path. -/
def CallsWithin (save : Bytes) (s s' : Sys) : Prop :=
  ∃ calls, s'.calls = calls ++ s.calls ∧ ∀ c ∈ calls, c.Within save

instance (save : Bytes) : IsPreorder Sys (CallsWithin save) where
  refl s := ⟨[], rfl, by simp⟩
  trans s₁ s₂ s₃ := by
    rintro ⟨calls, h, hall⟩ ⟨calls', h', hall'⟩
    refine ⟨calls' ++ calls, by rw [h', h, List.append_assoc], fun c hc => ?_⟩
    exact (List.mem_append.1 hc).elim (hall' c) (hall c)

variable {save rel path : Bytes}

/-! ## Paths -/

/-- A relative path without dots leads strictly below. -/
theorem within_append (hne : rel ≠ []) (hhead : rel.head? ≠ some sep) (hdots : NoDots rel) :
    Within save (save ++ sep :: rel) := by
  obtain ⟨c, hc, hcne⟩ := exists_component_ne_nil hne hhead
  have hmem : c ∈ (components rel).filter (· ≠ []) := List.mem_filter.2 ⟨hc, by simpa using hcne⟩
  rw [Within, resolve_append_of_noDots hdots]
  refine .inr ⟨List.prefix_append _ _, fun h => ?_⟩
  rw [List.self_eq_append_right.1 h] at hmem
  exact List.not_mem_nil hmem

/-- What is before a slash of a path below the save path is within it. -/
theorem within_of_append_eq {left right : Bytes} (hsave : NoDots save)
    (hhead : rel.head? ≠ some sep) (hdots : NoDots rel)
    (h : left ++ sep :: right = save ++ sep :: rel) : Within save left := by
  rcases List.append_eq_append_iff.1 h with ⟨gap, rfl, hgap⟩ | ⟨gap, rfl, hgap⟩
  · -- The slash is in the save path, or after it.
    cases gap with
    | nil => exact .inl (by rw [List.append_nil])
    | cons b gap =>
      obtain ⟨rfl, -⟩ := List.cons.inj hgap
      refine .inl ?_
      rw [resolve_append_of_noDots (noDots_append.1 hsave).2]
      exact List.prefix_append _ _
  · -- The slash is in the relative path.
    cases gap with
    | nil => exact .inl (by rw [List.append_nil])
    | cons b gap =>
      obtain ⟨rfl, rfl⟩ := List.cons.inj hgap
      refine within_append ?_ ?_ (noDots_append.1 hdots).1
      · rintro rfl
        exact hhead rfl
      · intro hgaphead
        refine hhead ?_
        cases gap with
        | nil => cases hgaphead
        | cons => exact hgaphead

/-- A string without its trailing slashes has the same components but for empty ones. -/
theorem noDots_rdropWhile {s : Bytes} (h : NoDots s) : NoDots (s.rdropWhile (· = sep)) := by
  have hsplit : s.rdropWhile (· = sep) ++ s.rtakeWhile (· = sep) = s :=
    List.rdropWhile_append_rtakeWhile
  cases hslashes : s.rtakeWhile (· = sep) with
  | nil => rwa [← hsplit, hslashes, List.append_nil] at h
  | cons b rest =>
    have hb : b = sep := by
      simpa using List.mem_rtakeWhile_imp (hslashes ▸ List.mem_cons_self : b ∈ s.rtakeWhile (· = sep))
    rw [← hsplit, hslashes, hb] at h
    exact (noDots_append.1 h).1

/-- The save path has no dot components, and no NUL ends it early. -/
theorem noDots_buildSavePath {client : Bytes} {size : ℕ} (hlen : client.length ≤ HTTP_MAX_BODY)
    (h : buildSavePath client size = some save) : NoDots save ∧ cstr save = save := by
  obtain ⟨-, -, hdots, rfl, -⟩ := (buildSavePath_eq_some_iff hlen size save).1 h
  have hlit : lit "/torrents/" = sep :: lit "torrents/" := rfl
  refine ⟨?_, cstr_of_not_mem fun h0 => ?_⟩
  · rw [hlit]
    exact noDots_append.2 ⟨noDots_rdropWhile hdots, by decide +kernel⟩
  · rcases List.mem_append.1 h0 with h0 | h0
    · have htrimmed : (cstr client).rdropWhile (· = chr '/') <+: cstr client :=
        List.rdropWhile_prefix _ _
      exact not_mem_cstr client (htrimmed.subset h0)
    · exact absurd h0 (by decide +kernel)

/-! ## Calls -/

theorem callsWithin_of_eq {s s' : Sys} (h : s'.calls = s.calls) : CallsWithin save s s' :=
  ⟨[], h, by simp⟩

theorem callsWithin_syscall {α : Type} {c : Syscall} {run : Option ℕ → Fs → Except Errno (α × Fs)}
    (hc : c.Within save) : Respects (CallsWithin save) (syscall c run) :=
  respects_syscall (fun _ _ => ⟨[c], rfl, by simpa using hc⟩)
    fun _ _ _ _ _ => ⟨[c], rfl, by simpa using hc⟩

theorem callsWithin_mkdir (h : Within save path) : Respects (CallsWithin save) (mkdir path) :=
  callsWithin_syscall (c := .mkdir path) h

theorem callsWithin_openFile (trunc : Bool) (h : Within save path) :
    Respects (CallsWithin save) (openFile path trunc) :=
  callsWithin_syscall (c := .openFile path trunc) h

theorem callsWithin_lseek (fd : Fd) (off : ℤ) : Respects (CallsWithin save) (lseek fd off) :=
  callsWithin_syscall (c := .lseek fd off) trivial

theorem callsWithin_write (fd : Fd) (off : ℕ) (data : Bytes) :
    Respects (CallsWithin save) (write fd off data) :=
  callsWithin_syscall (c := .write fd off data) trivial

theorem callsWithin_setErrno {ε : Type} (e : Errno) :
    Respects (CallsWithin save) (setErrno e : EStateM ε Sys Unit) :=
  fun _ => callsWithin_of_eq rfl

theorem callsWithin_mkdirIfAbsent (h : Within save path) :
    Respects (CallsWithin save) (mkdirIfAbsent path) :=
  (callsWithin_mkdir h).tryCatch fun _ => respects_get.bind fun _ =>
    respects_ite (fun _ => respects_throw _) fun _ => respects_pure _

/-- The directories of a path below the save path. -/
theorem callsWithin_createParents (hsave : NoDots save) (hhead : rel.head? ≠ some sep)
    (hdots : NoDots rel) (done rest : Bytes) (h : done ++ rest = save ++ sep :: rel) :
    Respects (CallsWithin save) (createParents done rest) := by
  induction rest generalizing done with
  | nil => exact respects_pure _
  | cons c rest ih =>
    have hnext := ih (done ++ [c]) (by rw [List.append_assoc]; exact h)
    refine respects_ite (fun _ => hnext) fun hc => ?_
    obtain rfl : c = sep := not_not.1 hc
    exact (callsWithin_mkdirIfAbsent (within_of_append_eq hsave hhead hdots h)).bind fun _ => hnext

theorem callsWithin_createParentDirectories (hsave : NoDots save) (hhead : rel.head? ≠ some sep)
    (hdots : NoDots rel) :
    Respects (CallsWithin save) (createParentDirectories (save ++ sep :: rel)) := by
  cases h : save ++ sep :: rel with
  | nil => exact respects_pure _
  | cons c rest => exact callsWithin_createParents hsave hhead hdots [c] rest h.symm

theorem callsWithin_seekWrite (fd : Fd) (offset : ℤ) (data : Bytes) :
    Respects (CallsWithin save) (seekWrite fd offset data) :=
  (callsWithin_lseek fd offset).bind fun _ => (callsWithin_write fd _ data).bind fun _ =>
    respects_ite (fun _ => respects_throw _) fun _ => respects_pure _

theorem eq_of_fullPath {base full : Bytes} (h : fullPath base path = some full) :
    full = cstr base ++ sep :: cstr path := by
  rw [fullPath, Option.ite_none_right_eq_some] at h
  exact (Option.some.inj h.2).symm

theorem callsWithin_writePart (hsave : NoDots save) (hcstr : cstr save = save) (data : Bytes)
    (file : TorrentFile) (writeStart : ℤ) (dataOffset writeLen : ℕ) :
    Respects (CallsWithin save) (writePart save data file writeStart dataOffset writeLen) := by
  refine respects_ite (fun _ => (callsWithin_setErrno _).bind fun _ => respects_throw _)
    fun hsafe => ?_
  cases hfull : fullPath save (file.path.getD []) with
  | none => exact respects_throw _
  | some full =>
    obtain ⟨rel, hrel, hne, hhead, -, hdots⟩ :=
      (safeRelativePath_iff file.path).1 (by simpa using hsafe)
    obtain ⟨path, hpath, rfl⟩ := Option.map_eq_some_iff.1 hrel
    obtain rfl := eq_of_fullPath hfull
    rw [hcstr, hpath, Option.getD_some]
    exact (callsWithin_createParentDirectories hsave hhead hdots).bind fun _ =>
      (callsWithin_openFile false (within_append hne hhead hdots)).bind fun _ =>
        callsWithin_seekWrite _ _ _

theorem callsWithin_fileWriterInit (hcstr : cstr save = save) (strdupOk : Bool) (t : Torrent) :
    Respects (CallsWithin save) (fileWriterInit strdupOk t save) := by
  refine respects_ite (fun _ => (callsWithin_setErrno _).bind fun _ => respects_throw _) fun _ => ?_
  refine respects_ite (fun _ => respects_pure _) fun _ => ?_
  refine respects_ite (fun _ => (callsWithin_setErrno _).bind fun _ => respects_throw _)
    fun hsafe => ?_
  cases hfull : fullPath save (t.outputName.getD []) with
  | none => exact (callsWithin_setErrno _).bind fun _ => respects_throw _
  | some full =>
    obtain ⟨rel, hrel, hne, hhead, -, hdots⟩ :=
      (safeRelativePath_iff t.outputName).1 (by simpa using hsafe)
    obtain ⟨path, hpath, rfl⟩ := Option.map_eq_some_iff.1 hrel
    obtain rfl := eq_of_fullPath hfull
    rw [hcstr, hpath, Option.getD_some]
    exact ((callsWithin_openFile true (within_append hne hhead hdots)).adaptExcept _).bind fun _ =>
      respects_pure _

/-- The calls of the file writer stay within the save path, whatever the metainfo,
    and the two guards accept exactly the paths they should. -/
theorem paths_within {client save : Bytes} (hlen : client.length ≤ HTTP_MAX_BODY)
    (hsave : buildSavePath client 512 = some save) :
    (∀ strdupOk t, Respects (CallsWithin save) (fileWriterInit strdupOk t save)) ∧
    (∀ fw : FileWriter, fw.basePath = some save → ∀ piece index,
      Respects (CallsWithin save) (fileWriterWritePiece fw piece index)) ∧
    (∀ path, safeRelativePath path ↔ ∃ s, path.map cstr = some s ∧ s ≠ [] ∧
      s.head? ≠ some (chr '/') ∧ (∀ b ∈ s, 0x20 ≤ b) ∧ NoDots s) ∧
    ∀ client' : Bytes, client'.length ≤ HTTP_MAX_BODY → ∀ size save',
      buildSavePath client' size = some save' ↔
        (cstr client').head? = some (chr '/') ∧ (∀ b ∈ cstr client', 0x20 ≤ b) ∧
        NoDots (cstr client') ∧
        save' = (cstr client').rdropWhile (· = chr '/') ++ lit "/torrents/" ∧
        save'.length < size := by
  obtain ⟨hdots, hcstr⟩ := noDots_buildSavePath hlen hsave
  refine ⟨fun strdupOk t => callsWithin_fileWriterInit hcstr strdupOk t, fun fw hfw piece index => ?_,
    safeRelativePath_iff, fun client' h size save' => buildSavePath_eq_some_iff h size save'⟩
  refine respects_fileWriterWritePiece index (fun _ offset => callsWithin_seekWrite _ _ _) ?_
  intro _ t _ file _ writeStart dataOffset writeLen
  rw [hfw, Option.getD_some]
  exact callsWithin_writePart hdots hcstr piece file writeStart dataOffset writeLen

theorem paths_within_data :
    (∀ strdupOk t, Respects (CallsWithin (lit "/data/torrents/"))
      (fileWriterInit strdupOk t (lit "/data/torrents/"))) ∧
    (∀ fw : FileWriter, fw.basePath = some (lit "/data/torrents/") → ∀ piece index,
      Respects (CallsWithin (lit "/data/torrents/")) (fileWriterWritePiece fw piece index)) :=
  have h := @paths_within (lit "/data//") (lit "/data/torrents/") (by decide +kernel)
    (by decide +kernel)
  ⟨h.1, h.2.1⟩

end PS5Torrent
