import PS5Torrent.Basic
import PS5Torrent.Library.Tail

/-!
# The application log

`app_log.c`: every event is a line. The last lines are kept in memory; once the
log is open, all lines go to a file, which is moved to a second one when it
would get longer than 1 MiB. The operations on files succeed.

* `recent` is the window of the last 64 KiB of all lines;
* the two files are the end of one stream: what was in them when the log was
  opened, the window at that time, and the lines since; a line is lost only with
  the whole older file, when the newer one would get too long (`log_of_run`).
-/

namespace PS5Torrent

open Tail

def LOG_LIMIT : ℕ := 1024 * 1024

def LOG_TAIL : ℕ := 64 * 1024

def INT_MAX : ℕ := 2 ^ 31 - 1

/-- The static variables of `app_log.c`, and the files. -/
structure AppLog where
  files : Bytes → Option Bytes
  output : Bool
  logPath : Bytes
  previousPath : Bytes
  recent : Bytes
  fileLength : ℕ

namespace AppLog

/-- What is in a file; it is empty if it is not there. -/
def content (l : AppLog) (path : Bytes) : Bytes := (l.files path).getD []

/-- What `remember` leaves in a buffer of a size. -/
def remembered (size : ℕ) (recent line : Bytes) : Bytes :=
  let line := if line.length > size then line.drop (line.length - size) else line
  let recent :=
    if recent.length + line.length > size then recent.drop (recent.length + line.length - size)
    else recent
  recent ++ line

def remember (l : AppLog) (line : Bytes) : AppLog :=
  { l with recent := remembered LOG_TAIL l.recent line }

/-- `rotate`: a file that is there is moved, and a new one opened. -/
def rotate (l : AppLog) : AppLog :=
  let files :=
    if (l.files l.logPath).isSome then
      Function.update (Function.update l.files l.previousPath (l.files l.logPath)) l.logPath none
    else l.files
  { l with files := Function.update files l.logPath (some []), output := true, fileLength := 0 }

def persist (l : AppLog) (line : Bytes) : AppLog :=
  if !l.output then l
  else
    let l := if l.fileLength + line.length > LOG_LIMIT then l.rotate else l
    { l with
      files := Function.update l.files l.logPath (some (l.content l.logPath ++ line))
      fileLength := l.fileLength + line.length }

/-- A directory that the log cannot be in. -/
def badDirectory (directory : Bytes) : Bool :=
  directory.head? ≠ some (chr '/') || directory.length > 1024 - 32

def logFile (directory : Bytes) : Bytes := snprintf 1024 (directory ++ lit "/PS5Torrent.log")

def previousFile (directory : Bytes) : Bytes :=
  snprintf 1024 (directory ++ lit "/PS5Torrent.previous.log")

/-- The paths are set and the file is opened, as it is. -/
def openFile (directory : Bytes) (l : AppLog) : AppLog :=
  let l := { l with logPath := logFile directory, previousPath := previousFile directory }
  { l with
    output := true
    fileLength := (l.content l.logPath).length
    files := Function.update l.files l.logPath (some (l.content l.logPath)) }

/-- `app_log_open`, with what it returns. -/
def appLogOpen (directory : Bytes) (l : AppLog) : ℤ × AppLog :=
  if l.output then (0, l)
  else if badDirectory directory then (-1, l)
  else (0, (openFile directory l).persist (openFile directory l).recent)

/-- The line of an event: `snprintf` fails for more than `INT_MAX` characters, what is over the
    length of the buffer is cut off, and control characters become spaces. -/
def logLine (date level message : Bytes) : Bytes :=
  let text := lit "[" ++ cstr date ++ lit "] [" ++ cstr level ++ lit "] " ++ cstr message
  let length := if text.length > INT_MAX then 0 else text.length
  let length := if length ≥ 2048 - 1 then 2048 - 2 else length
  (text.take length).map (fun c => if c < 32 then chr ' ' else c) ++ [chr '\n']

/-- The end of `app_log_write`, for its line. -/
def writeLine (line : Bytes) (l : AppLog) : AppLog := (l.remember line).persist line

def appLogWrite (date level message : Bytes) (l : AppLog) : AppLog :=
  writeLine (logLine date level message) l

/-- A call, with the date at that time. -/
inductive Call
  | logOpen (directory : Bytes)
  | logWrite (date level message : Bytes)

def call : Call → AppLog → AppLog
  | .logOpen directory, l => (appLogOpen directory l).2
  | .logWrite date level message, l => appLogWrite date level message l

def run (l : AppLog) (calls : List Call) : AppLog := calls.foldl (fun l c => call c l) l

/-- The log before the first call. -/
def init (files : Bytes → Option Bytes) : AppLog where
  files := files
  output := false
  logPath := []
  previousPath := []
  recent := []
  fileLength := 0

end AppLog

/-! ## What the log is for -/

/-- All lines that were written; and once the log is open, its directory and the stream that its
    files are to hold the end of. -/
structure LogStream where
  lines : Bytes
  opened : Option (Bytes × Bytes)

namespace LogStream

def call (files : Bytes → Option Bytes) : AppLog.Call → LogStream → LogStream
  | .logOpen directory, s =>
    if s.opened.isSome || AppLog.badDirectory directory then s
    else
      { s with opened := some (directory, (files (AppLog.previousFile directory)).getD [] ++
          (files (AppLog.logFile directory)).getD [] ++ last LOG_TAIL s.lines) }
  | .logWrite date level message, s =>
    { lines := s.lines ++ AppLog.logLine date level message
      opened := s.opened.map fun o => (o.1, o.2 ++ AppLog.logLine date level message) }

def run (files : Bytes → Option Bytes) (calls : List AppLog.Call) : LogStream :=
  calls.foldl (fun s c => call files c s) ⟨[], none⟩

end LogStream

namespace AppLog

variable {files : Bytes → Option Bytes} {l : AppLog} {s : LogStream} {line directory : Bytes}

/-! ## Lines -/

theorem length_logLine_le (date level message : Bytes) :
    (logLine date level message).length ≤ 2047 := by
  have hcut (n : ℕ) : (if n ≥ 2048 - 1 then 2048 - 2 else n) ≤ 2046 := by
    split
    · omega
    · omega
  rw [logLine, List.length_append, List.length_map, List.length_take, List.length_singleton]
  exact Nat.succ_le_succ ((Nat.min_le_left _ _).trans (hcut _))

/-- A line has one control character, at its end. -/
theorem logLine_eq (date level message : Bytes) :
    ∃ text, logLine date level message = text ++ [chr '\n'] ∧ ∀ b ∈ text, 0x20 ≤ b := by
  refine ⟨_, rfl, fun b hb => ?_⟩
  obtain ⟨c, -, rfl⟩ := List.mem_map.1 hb
  split
  · decide
  case isFalse hc => exact UInt8.not_lt.1 hc

/-! ## The window -/

/-- The window goes on with the line. -/
theorem remembered_eq (size : ℕ) (recent line : Bytes) :
    remembered size recent line = last size (recent ++ line) := by
  rw [remembered]
  rcases Nat.lt_or_ge size line.length with hlong | hshort
  · -- the end of the line is all that stays
    have hend : (line.drop (line.length - size)).length = size := by
      rw [List.length_drop]
      omega
    have hnone : (if recent.length + size > size then
        recent.drop (recent.length + size - size) else recent) = [] := by
      split
      · rw [Nat.add_sub_cancel, List.drop_length]
      case isFalse hle => exact List.eq_nil_of_length_eq_zero (by omega)
    rw [if_pos hlong, hend, hnone, List.nil_append]
    refine eq_last ((List.drop_suffix _ _).trans (List.suffix_append _ _)) ?_
    rw [hend, List.length_append]
    omega
  · rw [if_neg (not_lt.2 hshort)]
    split
    · rw [last, List.length_append, List.drop_append_of_le_length (by omega)]
    case isFalse hle =>
      rw [last_of_le]
      rw [List.length_append]
      omega

/-! ## The files -/

/-- The two files in a directory. -/
def halvesIn (directory : Bytes) (l : AppLog) : Halves UInt8 :=
  ⟨l.content (previousFile directory), l.content (logFile directory)⟩

/-- The two files. -/
def halves (l : AppLog) : Halves UInt8 := ⟨l.content l.previousPath, l.content l.logPath⟩

/-- The log is open, and its length is that of its file. -/
structure Opened (l : AppLog) : Prop where
  output : l.output = true
  paths : l.previousPath ≠ l.logPath
  exists_file : (l.files l.logPath).isSome
  fileLength : l.fileLength = (l.content l.logPath).length

theorem Opened.persist (h : l.Opened) (line : Bytes) :
    (l.persist line).Opened ∧
      ((l.persist line).logPath = l.logPath ∧ (l.persist line).previousPath = l.previousPath ∧
        (l.persist line).recent = l.recent) ∧
      (l.persist line).halves = l.halves.append LOG_LIMIT line := by
  have houtput := h.output
  have hlength := h.fileLength
  obtain ⟨text, htext⟩ := Option.isSome_iff_exists.1 h.exists_file
  have hcontent : l.content l.logPath = text := by rw [content, htext, Option.getD_some]
  rw [AppLog.persist, houtput, if_neg (by simp)]
  by_cases hfull : l.fileLength + line.length > LOG_LIMIT
  · -- the file becomes the previous one
    rw [if_pos hfull]
    have hmoved : l.rotate.content l.logPath = [] ∧ l.rotate.content l.previousPath = text := by
      simp [rotate, content, htext, h.paths]
    refine ⟨⟨rfl, h.paths, ?_, ?_⟩, ⟨rfl, rfl, rfl⟩, ?_⟩
    · simp [rotate]
    · simp [rotate, content]
    · rw [halves, halves, Halves.append, if_pos (by rw [← hlength]; exact hfull), hcontent]
      simp [rotate, content, htext, h.paths]
  · rw [if_neg hfull]
    refine ⟨⟨houtput, h.paths, ?_, ?_⟩, ⟨rfl, rfl, rfl⟩, ?_⟩
    · simp
    · simp [content, hlength]
    · rw [halves, halves, Halves.append, if_neg (by rw [← hlength]; exact hfull)]
      simp [content, h.paths]

theorem logFile_ne (h : badDirectory directory = false) :
    previousFile directory ≠ logFile directory := by
  have hlength : directory.length ≤ 992 := by
    rw [badDirectory, Bool.or_eq_false_iff, decide_eq_false_iff_not, decide_eq_false_iff_not] at h
    omega
  have hlog : (lit "/PS5Torrent.log").length = 15 := rfl
  have hprevious : (lit "/PS5Torrent.previous.log").length = 24 := rfl
  rw [logFile, previousFile, snprintf, snprintf,
    List.take_of_length_le (by rw [List.length_append]; omega),
    List.take_of_length_le (by rw [List.length_append]; omega)]
  intro heq
  exact absurd (List.append_cancel_left heq) (by decide)

/-! ## Runs -/

/-- The log is open on the files of a directory. -/
structure OpenedIn (directory : Bytes) (l : AppLog) : Prop extends Opened l where
  logPath : l.logPath = logFile directory
  previousPath : l.previousPath = previousFile directory

theorem OpenedIn.halves_eq (h : l.OpenedIn directory) : l.halves = l.halvesIn directory := by
  rw [halves, halvesIn, h.logPath, h.previousPath]

/-- A line is added to the files of the directory. -/
theorem OpenedIn.persist (h : l.OpenedIn directory) (line : Bytes) :
    (l.persist line).OpenedIn directory ∧ (l.persist line).recent = l.recent ∧
      (l.persist line).halvesIn directory = (l.halvesIn directory).append LOG_LIMIT line := by
  obtain ⟨hopen, ⟨hlog, hprevious, hrecent⟩, hhalves⟩ := h.toOpened.persist line
  have hopen' : (l.persist line).OpenedIn directory :=
    ⟨hopen, hlog.trans h.logPath, hprevious.trans h.previousPath⟩
  rw [hopen'.halves_eq, h.halves_eq] at hhalves
  exact ⟨hopen', hrecent, hhalves⟩

theorem OpenedIn.writeLine (h : l.OpenedIn directory) (line : Bytes) :
    (AppLog.writeLine line l).OpenedIn directory ∧
      (AppLog.writeLine line l).recent = remembered LOG_TAIL l.recent line ∧
      (AppLog.writeLine line l).halvesIn directory =
        (l.halvesIn directory).append LOG_LIMIT line := by
  have hremember : (l.remember line).OpenedIn directory := { h with }
  exact hremember.persist line

/-- The log keeps the end of its stream. -/
structure Keeps (files : Bytes → Option Bytes) (l : AppLog) (s : LogStream) : Prop where
  recent : l.recent = last LOG_TAIL s.lines
  closed : s.opened = none → l.output = false ∧ l.files = files
  opened : ∀ directory stream, s.opened = some (directory, stream) →
    l.OpenedIn directory ∧ (l.halvesIn directory).IsEnd LOG_LIMIT stream

/-- The files that are there are not too long. -/
def Fits (files : Bytes → Option Bytes) : Prop :=
  ∀ path, ((files path).getD []).length ≤ LOG_LIMIT

theorem keeps_init (files : Bytes → Option Bytes) : Keeps files (init files) ⟨[], none⟩ :=
  ⟨(last_nil _).symm, fun _ => ⟨rfl, rfl⟩, fun _ _ h => absurd h (by simp)⟩

/-- A line is written. -/
theorem Keeps.writeLine (h : Keeps files l s) (hlimit : line.length ≤ LOG_LIMIT) :
    Keeps files (writeLine line l)
      ⟨s.lines ++ line, s.opened.map fun o => (o.1, o.2 ++ line)⟩ := by
  have hrecent : (l.remember line).recent = last LOG_TAIL (s.lines ++ line) := by
    rw [remember, remembered_eq, h.recent, last_append_last]
  rcases hopened : s.opened with _ | ⟨directory, stream⟩
  · obtain ⟨houtput, hfiles⟩ := h.closed hopened
    have hpersist : AppLog.writeLine line l = l.remember line := by
      rw [AppLog.writeLine, AppLog.persist, if_pos (by rw [remember, houtput]; rfl)]
    rw [hpersist]
    exact ⟨hrecent, fun _ => ⟨houtput, hfiles⟩, fun _ _ h' => absurd h' (by simp)⟩
  · obtain ⟨hopen, hend⟩ := h.opened directory stream hopened
    obtain ⟨hopen', hrecent', hhalves⟩ := hopen.writeLine line
    refine ⟨hrecent'.trans hrecent, fun h' => absurd h' (by simp), ?_⟩
    rintro directory' stream' h'
    rw [Option.map_some, Option.some.injEq, Prod.mk.injEq] at h'
    obtain ⟨rfl, rfl⟩ := h'
    exact ⟨hopen', hhalves ▸ hend.append hlimit⟩

theorem openedIn_openFile (h : badDirectory directory = false) (l : AppLog) :
    (openFile directory l).OpenedIn directory ∧
      (openFile directory l).halvesIn directory = l.halvesIn directory := by
  have hne := logFile_ne h
  refine ⟨⟨⟨rfl, hne, ?_, ?_⟩, rfl, rfl⟩, ?_⟩
  · simp [openFile]
  · simp [openFile, content]
  · simp [openFile, halvesIn, content, hne]

/-- The log is opened: the lines of the window are added to the files that are there. -/
theorem openedIn_logOpen (houtput : l.output = false) (h : badDirectory directory = false) :
    (call (.logOpen directory) l).OpenedIn directory ∧
      (call (.logOpen directory) l).recent = l.recent ∧
      (call (.logOpen directory) l).halvesIn directory =
        (l.halvesIn directory).append LOG_LIMIT l.recent := by
  obtain ⟨hopen, hhalves⟩ := openedIn_openFile h l
  rw [call, appLogOpen, houtput, if_neg Bool.false_ne_true, h, if_neg Bool.false_ne_true, ← hhalves]
  exact hopen.persist l.recent

/-- The log is opened, and gets the lines of the window. -/
theorem Keeps.logOpen (hfiles : Fits files) (h : Keeps files l s) (directory : Bytes) :
    Keeps files (call (.logOpen directory) l) (LogStream.call files (.logOpen directory) s) := by
  rw [LogStream.call]
  rcases hopened : s.opened with _ | ⟨directory', stream'⟩
  · -- the log was closed, so that its files are those of the start
    obtain ⟨houtput, hsame⟩ := h.closed hopened
    by_cases hbad : badDirectory directory = true
    · rw [call, appLogOpen, houtput, if_neg Bool.false_ne_true, if_pos hbad,
        if_pos (by rw [hbad]; rfl)]
      exact h
    · rw [if_neg (by simpa using hbad)]
      have hend : (l.halvesIn directory).IsEnd LOG_LIMIT
          ((files (previousFile directory)).getD [] ++ (files (logFile directory)).getD []) := by
        rw [halvesIn, content, content, hsame]
        exact ⟨List.suffix_rfl, hfiles _, hfiles _⟩
      have hwindow : l.recent.length ≤ LOG_LIMIT := by
        rw [h.recent, length_last]
        exact (Nat.min_le_left _ _).trans (by decide)
      obtain ⟨hopen, hrecent, hhalves⟩ := openedIn_logOpen houtput (Bool.eq_false_iff.2 hbad)
      refine ⟨hrecent.trans h.recent, fun h' => absurd h' (by simp), ?_⟩
      intro directory' stream' h'
      rw [Option.some.injEq, Prod.mk.injEq] at h'
      obtain ⟨rfl, rfl⟩ := h'
      refine ⟨hopen, ?_⟩
      rw [← h.recent]
      exact hhalves ▸ hend.append hwindow
  · obtain ⟨hopen, -⟩ := h.opened directory' stream' hopened
    rw [call, appLogOpen, hopen.output, if_pos rfl, if_pos (by simp)]
    exact h

theorem Keeps.call (hfiles : Fits files) (h : Keeps files l s) (c : Call) :
    Keeps files (call c l) (LogStream.call files c s) := by
  cases c with
  | logOpen directory => exact h.logOpen hfiles directory
  | logWrite date level message =>
    exact h.writeLine ((length_logLine_le date level message).trans (by decide))

theorem Keeps.run (hfiles : Fits files) (h : Keeps files l s) (calls : List Call) :
    Keeps files (run l calls) (calls.foldl (fun s c => LogStream.call files c s) s) := by
  induction calls generalizing l s with
  | nil => exact h
  | cons c calls ih => exact ih (h.call hfiles c)

theorem keeps_run (hfiles : Fits files) (calls : List Call) :
    Keeps files (AppLog.run (init files) calls) (LogStream.run files calls) :=
  (keeps_init files).run hfiles calls

end AppLog

/-- After any calls, the memory holds the end of all lines; once the log is open, its two files are
    the end of its stream, and neither is too long; and every event is one line. Opening the log
    adds the memory to the files that are there, every later write adds its line, and nothing else
    changes them. -/
theorem log_of_run {files : Bytes → Option Bytes} (hfiles : AppLog.Fits files)
    (calls : List AppLog.Call) :
    let l := AppLog.run (AppLog.init files) calls
    let s := LogStream.run files calls
    (l.recent <:+ s.lines ∧ l.recent.length = min LOG_TAIL s.lines.length) ∧
    (l.output ↔ s.opened.isSome) ∧
    (∀ directory stream, s.opened = some (directory, stream) →
      l.content (AppLog.previousFile directory) ++ l.content (AppLog.logFile directory) <:+ stream ∧
      (l.content (AppLog.previousFile directory)).length ≤ LOG_LIMIT ∧
      (l.content (AppLog.logFile directory)).length ≤ LOG_LIMIT ∧
      (∀ date level message, (AppLog.call (.logWrite date level message) l).halvesIn directory =
        (l.halvesIn directory).append LOG_LIMIT (AppLog.logLine date level message)) ∧
      ∀ directory', AppLog.call (.logOpen directory') l = l) ∧
    (s.opened = none → l.files = files ∧
      (∀ date level message, (AppLog.call (.logWrite date level message) l).files = l.files) ∧
      ∀ directory, if AppLog.badDirectory directory then AppLog.call (.logOpen directory) l = l
        else (AppLog.call (.logOpen directory) l).halvesIn directory =
          (l.halvesIn directory).append LOG_LIMIT l.recent) ∧
    ∀ date level message, (AppLog.logLine date level message).length ≤ 2047 ∧
      ∃ text, AppLog.logLine date level message = text ++ [chr '\n'] ∧ ∀ b ∈ text, 0x20 ≤ b := by
  have hkeeps := AppLog.keeps_run hfiles calls
  dsimp only
  generalize AppLog.run (AppLog.init files) calls = l at hkeeps
  generalize LogStream.run files calls = s at hkeeps
  refine ⟨⟨?_, ?_⟩, ?_, fun directory stream hopened => ?_, fun hopened => ?_,
    fun date level message =>
      ⟨AppLog.length_logLine_le date level message, AppLog.logLine_eq date level message⟩⟩
  · rw [hkeeps.recent]
    exact last_suffix _ _
  · rw [hkeeps.recent, length_last]
  · rcases hopened : s.opened with _ | ⟨directory, stream⟩
    · rw [(hkeeps.closed hopened).1]
      rfl
    · rw [(hkeeps.opened directory stream hopened).1.output]
      rfl
  · obtain ⟨hopen, hsuffix, hold, hnew⟩ := hkeeps.opened directory stream hopened
    refine ⟨hsuffix, hold, hnew, fun date level message => (hopen.writeLine _).2.2, fun _ => ?_⟩
    rw [AppLog.call, AppLog.appLogOpen, hopen.output, if_pos rfl]
  · obtain ⟨houtput, hsame⟩ := hkeeps.closed hopened
    refine ⟨hsame, fun date level message => ?_, fun directory => ?_⟩
    · rw [AppLog.call, AppLog.appLogWrite, AppLog.writeLine, AppLog.persist,
        if_pos (by rw [AppLog.remember, houtput]; rfl), AppLog.remember]
    · split
      case isTrue hbad =>
        rw [AppLog.call, AppLog.appLogOpen, houtput, if_neg Bool.false_ne_true, if_pos hbad]
      case isFalse hgood =>
        exact (AppLog.openedIn_logOpen houtput (Bool.eq_false_iff.2 hgood)).2.2

/-- Two lines, one of them before the log is opened on an empty disk. -/
theorem log_of_run_opened :
    let l := AppLog.run (AppLog.init fun _ => none)
      [.logWrite [] (lit "INFO") (lit "start"), .logOpen (lit "/data"),
        .logWrite [] (lit "INFO") (lit "end")]
    l.output ∧ l.content (lit "/data/PS5Torrent.previous.log") ++
      l.content (lit "/data/PS5Torrent.log") <:+ lit "[] [INFO] start\n[] [INFO] end\n" := by
  have hrun := @log_of_run (fun _ => none) (fun _ => Nat.zero_le _)
    [.logWrite [] (lit "INFO") (lit "start"), .logOpen (lit "/data"),
      .logWrite [] (lit "INFO") (lit "end")]
  refine ⟨hrun.2.1.2 (by decide +kernel), ?_⟩
  exact (hrun.2.2.1 (lit "/data") _ rfl).1

end PS5Torrent
