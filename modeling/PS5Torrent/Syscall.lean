import PS5Torrent.Basic
import PS5Torrent.Library.FileSystem
import PS5Torrent.Library.Effect

/-!
# System calls on files

The part of the operating system the program writes files through. The state
holds the file system, `errno`, and the history of the calls made. Any call
may fail for a reason outside the program (a full disk, a signal, missing
permissions), and a write may be cut short: `fault` says which calls do. A C
function that returns `-1` or `0` is a computation `SysM Unit` that fails or
succeeds.

A file descriptor stands for the resolved path of its file (nothing here
renames or removes files). Its offset is not kept: each write follows an
`lseek` on the same descriptor, and takes the offset that call returns.
-/

namespace PS5Torrent

open LexPath FileSystem

/-- An `errno` value, numbered as on the PS5. -/
abbrev Errno := ℕ

namespace Errno

def EPERM : Errno := 1
def ENOENT : Errno := 2
def EBADF : Errno := 9
def ENOMEM : Errno := 12
def EACCES : Errno := 13
def EEXIST : Errno := 17
def ENOTDIR : Errno := 20
def EISDIR : Errno := 21
def EINVAL : Errno := 22
def ENAMETOOLONG : Errno := 63

end Errno

/-- The `errno` of a failed operation on the tree. -/
def errnoOf : Fs.Error → Errno
  | .exists => .EEXIST
  | .noEntry => .ENOENT
  | .notDir => .ENOTDIR
  | .isDir => .EISDIR

/-- A descriptor: `-1`, the `0` that `memset` leaves (the standard input), or
    one obtained from `open`. -/
inductive Fd
  | closed
  | zero
  | file (path : Path)
deriving DecidableEq

/-- A call, with the data it acts on. -/
inductive Syscall
  | mkdir (path : Bytes)
  | stat (path : Bytes)
  | openFile (path : Bytes) (trunc : Bool)
  | lseek (fd : Fd) (off : ℤ)
  | write (fd : Fd) (off : ℕ) (data : Bytes)

/-- What may go wrong in a call from the outside. -/
inductive Fault
  | error (e : Errno)
  | short (n : ℕ)

/-- The state of the operating system, as far as files go. The calls are
    listed from the last one back. -/
structure Sys where
  fs : Fs
  errno : Errno
  calls : List Syscall
  fault : ℕ → Option Fault

/-- A C function that may fail. -/
abbrev SysM := EStateM Unit Sys

def setErrno {ε : Type} (e : Errno) : EStateM ε Sys Unit := modify fun s => { s with errno := e }

/-- Make a call: it is recorded, and unless it meets a fault acts on the tree. -/
def syscall {α : Type} (c : Syscall) (run : Option ℕ → Fs → Except Errno (α × Fs)) : SysM α :=
  fun s =>
    let s' := { s with calls := c :: s.calls }
    let result :=
      match s.fault s.calls.length with
      | none => run none s.fs
      | some (.short n) => run (some n) s.fs
      | some (.error e) => .error e
    match result with
    | .ok (a, fs) => .ok a { s' with fs := fs }
    | .error e => .error () { s' with errno := e }

/-- `mkdir(path, 0755)` -/
def mkdir (path : Bytes) : SysM Unit :=
  syscall (.mkdir path) fun _ fs =>
    match fs.mkdir (resolve path) with
    | .ok fs => .ok ((), fs)
    | .error e => .error (errnoOf e)

/-- `stat(path)`, with whether it is a directory. -/
def stat (path : Bytes) : SysM Bool :=
  syscall (.stat path) fun _ fs =>
    if fs.isDir (resolve path) then .ok (true, fs)
    else if (fs.content (resolve path)).isSome then .ok (false, fs)
    else .error (errnoOf (fs.parentError (resolve path)))

/-- `open(path, O_WRONLY | O_CREAT [| O_TRUNC], 0644)` -/
def openFile (path : Bytes) (trunc : Bool) : SysM Fd :=
  syscall (.openFile path trunc) fun _ fs =>
    match fs.openWrite (resolve path) trunc (path.getLast? = some sep) with
    | .ok fs => .ok (.file (resolve path), fs)
    | .error e => .error (errnoOf e)

/-- `lseek(fd, off, SEEK_SET)` -/
def lseek (fd : Fd) (off : ℤ) : SysM ℕ :=
  syscall (.lseek fd off) fun _ fs =>
    if fd = .closed then .error .EBADF
    else if off < 0 then .error .EINVAL
    else .ok (off.toNat, fs)

/-- `write(fd, data, len)` at the offset of the descriptor, with the number of
    bytes written. -/
def write (fd : Fd) (off : ℕ) (data : Bytes) : SysM ℕ :=
  syscall (.write fd off data) fun short fs =>
    match fd with
    | .file p =>
      let written := data.take (short.getD data.length)
      .ok (written.length, fs.pwrite p off written)
    | _ => .error .EBADF

/-! ## What a call does -/

variable {α : Type} {s s' : Sys}

theorem syscall_eq_ok {c : Syscall} {run : Option ℕ → Fs → Except Errno (α × Fs)} {a : α}
    (h : syscall c run s = .ok a s') :
    ∃ n fs, run n s.fs = .ok (a, fs) ∧ s' = { s with calls := c :: s.calls, fs := fs } := by
  rw [syscall] at h
  dsimp only at h
  split at h
  · rename_i fs hresult
    split at hresult
    · exact ⟨_, fs, by injection h with ha; rw [hresult, ha], by injection h with _ hs; exact hs.symm⟩
    · exact ⟨_, fs, by injection h with ha; rw [hresult, ha], by injection h with _ hs; exact hs.symm⟩
    · cases hresult
  · cases h

/-- A relation is kept by a call that keeps it when the call is recorded, with whatever
    `errno` it sets, and when the call acts on the tree. -/
theorem respects_syscall {R : Sys → Sys → Prop} {c : Syscall}
    {run : Option ℕ → Fs → Except Errno (α × Fs)}
    (herror : ∀ s e, R s { s with calls := c :: s.calls, errno := e })
    (hok : ∀ s n a fs, run n s.fs = .ok (a, fs) → R s { s with calls := c :: s.calls, fs := fs }) :
    Effect.Respects R (syscall c run) := by
  intro s
  cases h : syscall c run s with
  | ok a s' =>
    obtain ⟨n, fs, hrun, rfl⟩ := syscall_eq_ok h
    rw [Effect.final_of_ok h]
    exact hok s n a fs hrun
  | error e s' =>
    rw [Effect.final_of_error h]
    rw [syscall] at h
    dsimp only at h
    split at h
    · cases h
    · injection h with _ hs
      exact hs ▸ herror s _

/-! ### The contents of the files after successful calls -/

theorem openFile_eq_ok {path : Bytes} {trunc : Bool} {fd : Fd}
    (h : openFile path trunc s = .ok fd s') :
    fd = .file (resolve path) ∧ s'.fs.content = Function.update s.fs.content (resolve path)
      (some (if trunc then [] else (s.fs.content (resolve path)).getD [])) := by
  obtain ⟨n, fs, hrun, rfl⟩ := syscall_eq_ok h
  split at hrun
  · rename_i hopen
    obtain ⟨rfl, rfl⟩ := Prod.mk.inj (Except.ok.inj hrun)
    refine ⟨rfl, funext fun q => ?_⟩
    by_cases hq : q = resolve path
    · subst hq
      rw [Function.update_self, Fs.content_of_openWrite hopen]
    · rw [Function.update_of_ne hq, Fs.content_of_openWrite_of_ne hopen hq]
  · cases hrun

theorem lseek_eq_ok {fd : Fd} {off : ℤ} {pos : ℕ} (h : lseek fd off s = .ok pos s') :
    0 ≤ off ∧ pos = off.toNat ∧ s'.fs = s.fs := by
  obtain ⟨n, fs, hrun, rfl⟩ := syscall_eq_ok h
  split at hrun
  · cases hrun
  split at hrun
  · cases hrun
  · obtain ⟨rfl, rfl⟩ := Prod.mk.inj (Except.ok.inj hrun)
    exact ⟨by omega, rfl, rfl⟩

theorem write_eq_ok {fd : Fd} {off : ℕ} {data : Bytes} (h : write fd off data s = .ok data.length s') :
    ∃ p, fd = .file p ∧ s'.fs = s.fs.pwrite p off data := by
  obtain ⟨n, fs, hrun, rfl⟩ := syscall_eq_ok h
  cases fd with
  | file p =>
    obtain ⟨hlen, rfl⟩ := Prod.mk.inj (Except.ok.inj hrun)
    have hall : data.take (n.getD data.length) = data :=
      List.take_of_length_le (by rw [List.length_take] at hlen; omega)
    exact ⟨p, rfl, by rw [hall]⟩
  | closed => cases hrun
  | zero => cases hrun

end PS5Torrent
