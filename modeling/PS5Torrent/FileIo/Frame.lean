import PS5Torrent.FileIo.Contents

/-!
# What the writer leaves alone

The output files of a torrent are those its writer opens: all it does, whether
it succeeds or fails, changes the content of these files only.
-/

namespace PS5Torrent

open LexPath FileSystem Effect

/-- The paths of the output files of a torrent. -/
def Torrent.outputPaths (t : Torrent) (base : Bytes) : List Path :=
  t.outputs.map (outputPath base)

/-- Only files at some paths change. -/
def ChangesOnlyAt (paths : List Path) (s s' : Sys) : Prop :=
  ∀ path ∉ paths, s'.fs.content path = s.fs.content path

instance (paths : List Path) : IsPreorder Sys (ChangesOnlyAt paths) where
  refl _ _ _ := rfl
  trans _ _ _ h h' path hpath := (h' path hpath).trans (h path hpath)

variable {paths : List Path} {s s' : Sys} {t : Torrent} {base : Bytes} {fw : FileWriter}

theorem SameContent.changesOnlyAt (h : SameContent s s') : ChangesOnlyAt paths s s' :=
  fun path _ => congrFun h path

theorem changesOnlyAt_setErrno {ε : Type} (e : Errno) :
    Respects (ChangesOnlyAt paths) (setErrno e : EStateM ε Sys Unit) :=
  fun _ _ _ => rfl

theorem changesOnlyAt_openFile {path : Bytes} (trunc : Bool) (hpath : resolve path ∈ paths) :
    Respects (ChangesOnlyAt paths) (openFile path trunc) :=
  respects_syscall (fun _ _ _ _ => rfl) fun s n fd fs h q hq => by
    split at h
    · rename_i hopen
      obtain ⟨-, rfl⟩ := Prod.mk.inj (Except.ok.inj h)
      have hne : q ≠ resolve path := fun heq => hq (heq ▸ hpath)
      exact Fs.content_of_openWrite_of_ne hopen hne
    · cases h

theorem changesOnlyAt_seekWrite {fd : Fd} (offset : ℤ) (data : Bytes)
    (hfd : ∀ path, fd = .file path → path ∈ paths) :
    Respects (ChangesOnlyAt paths) (seekWrite fd offset data) := by
  have hseek : Respects (ChangesOnlyAt paths) (lseek fd offset) :=
    respects_syscall (fun _ _ _ _ => rfl) fun s n a fs h q hq => by
      split at h
      · cases h
      · split at h
        · cases h
        · obtain ⟨-, rfl⟩ := Prod.mk.inj (Except.ok.inj h)
          rfl
  have hwrite (pos : ℕ) : Respects (ChangesOnlyAt paths) (write fd pos data) :=
    respects_syscall (fun _ _ _ _ => rfl) fun s n a fs h q hq => by
      cases fd with
      | file path =>
        obtain ⟨-, rfl⟩ := Prod.mk.inj (Except.ok.inj h)
        have hne : path ≠ q := fun heq => hq (heq ▸ hfd path rfl)
        exact (congrFun (content_pwrite s.fs ⟨path, pos, _⟩) q).trans (put_of_ne hne)
      | closed => cases h
      | zero => cases h
  exact hseek.bind fun pos => (hwrite pos).bind fun written =>
    respects_ite (fun _ => respects_throw _) fun _ => respects_pure _

theorem changesOnlyAt_writePart {file : TorrentFile} (hfile : outputPath base file ∈ paths)
    (data : Bytes) (writeStart : ℤ) (dataOffset writeLen : ℕ) :
    Respects (ChangesOnlyAt paths) (writePart base data file writeStart dataOffset writeLen) := by
  refine respects_ite (fun _ => (changesOnlyAt_setErrno _).bind fun _ => respects_throw _)
    fun _ => ?_
  cases hfull : fullPath base (file.path.getD []) with
  | none => exact respects_throw _
  | some full =>
    rw [← resolve_of_fullPath hfull] at hfile
    refine ((sameContent_createParentDirectories full).mono SameContent.changesOnlyAt).bind
      fun _ => (changesOnlyAt_openFile false hfile).bind_of_ok fun s fd s' hopen => ?_
    refine changesOnlyAt_seekWrite _ _ fun path hfd => ?_
    have heq := (openFile_eq_ok hopen).1.symm.trans hfd
    injection heq with heq
    exact heq ▸ hfile

/-- Writing a piece changes only output files. -/
theorem changesOnlyAt_fileWriterWritePiece (hfw : fw.For t base) (data : Bytes) (index : ℕ) :
    Respects (ChangesOnlyAt (t.outputPaths base)) (fileWriterWritePiece fw data index) := by
  refine respects_fileWriterWritePiece index (fun hmulti offset => ?_)
    fun hmulti t' ht' file hfile writeStart dataOffset writeLen => ?_
  · rw [hfw.multiFile_eq] at hmulti
    have hsingle : ¬t.isMultiFile := Bool.eq_false_iff.1 hmulti
    refine changesOnlyAt_seekWrite _ _ fun path hfd => ?_
    rw [hfw.fd_eq hsingle] at hfd
    injection hfd with hfd
    rw [Torrent.outputPaths, Torrent.outputs, if_neg hsingle, ← hfd]
    exact List.mem_singleton_self _
  · rw [hfw.multiFile_eq] at hmulti
    rw [hfw.torrent_eq, Option.some.injEq] at ht'
    subst ht'
    refine changesOnlyAt_writePart ?_ _ _ _ _
    rw [hfw.basePath_eq, Option.getD_some, outputPath_cstr, Torrent.outputPaths, Torrent.outputs,
      if_pos hmulti]
    exact List.mem_map_of_mem hfile

/-- Setting up the writer changes at most the single output file. -/
theorem changesOnlyAt_fileWriterInit (strdupOk : Bool) (t : Torrent) (base : Bytes) :
    Respects (ChangesOnlyAt (t.outputPaths base)) (fileWriterInit strdupOk t base) := by
  refine respects_ite (fun _ => (changesOnlyAt_setErrno _).bind fun _ => respects_throw _)
    fun _ => ?_
  refine respects_ite (fun _ => respects_pure _) fun hmulti => ?_
  refine respects_ite (fun _ => (changesOnlyAt_setErrno _).bind fun _ => respects_throw _)
    fun _ => ?_
  cases hfull : fullPath base (t.outputName.getD []) with
  | none => exact (changesOnlyAt_setErrno _).bind fun _ => respects_throw _
  | some full =>
    have hpath : resolve full = outputPath base ⟨t.outputName, t.length⟩ := resolve_of_fullPath hfull
    refine ((changesOnlyAt_openFile true ?_).adaptExcept _).bind fun _ => respects_pure _
    rw [Torrent.outputPaths, Torrent.outputs, if_neg hmulti, hpath]
    exact List.mem_singleton_self _

end PS5Torrent
