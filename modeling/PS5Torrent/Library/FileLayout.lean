import Mathlib.Algebra.BigOperators.Group.List.Basic
import Mathlib.Tactic.Linarith

/-!
# Consecutive files

Files laid out one after the other fill a range of positions. A range
`[a, b)` of positions meets each file in a part (`parts`), and the parts
follow one another and make up the range (`contiguous_parts`,
`sum_len_parts`). An empty file strictly inside the range is met in an empty
part; it belongs to the parts, but not to the nonempty ones.
-/

namespace FileLayout

variable {α : Type} (len : α → ℕ)

/-- The length of consecutive files. -/
def total (files : List α) : ℕ := (files.map len).sum

@[simp]
theorem total_nil : total len [] = 0 := rfl

@[simp]
theorem total_cons (f : α) (files : List α) : total len (f :: files) = len f + total len files :=
  List.sum_cons

@[simp]
theorem total_append (files files' : List α) :
    total len (files ++ files') = total len files + total len files' := by
  simp [total]

/-- A file ends before the end of them all. -/
theorem total_take_add_le {files : List α} {j : ℕ} {f : α} (h : files[j]? = some f) :
    total len (files.take j) + len f ≤ total len files := by
  obtain ⟨hlt, rfl⟩ := List.getElem?_eq_some_iff.1 h
  have hsplit := congrArg (total len) (List.take_append_drop j files)
  rw [total_append, List.drop_eq_getElem_cons hlt, total_cons] at hsplit
  omega

/-- A range inside a range. -/
theorem take_drop_take_drop {β : Type} {xs : List β} {a n p l : ℕ} (h : p + l ≤ n) :
    (((xs.drop a).take n).drop p).take l = (xs.drop (a + p)).take l := by
  rw [List.drop_take, List.take_take, List.drop_drop, Nat.min_eq_left (by omega)]

/-- The part of a file that a range covers: where it begins in the file and in
    the range, and its length. -/
structure Part (α : Type) where
  file : α
  off : ℕ
  pos : ℕ
  len : ℕ

/-- The part of the file at `start` that the range `[a, b)` covers. -/
def partOf (a b : ℕ) (f : α) (start : ℕ) : Part α :=
  ⟨f, a - start, start - a, min b (start + len f) - max a start⟩

/-- The parts of the files laid out from `start` on that the range `[a, b)` meets. -/
def parts (a b : ℕ) : List α → ℕ → List (Part α)
  | [], _ => []
  | f :: files, start =>
    if a < start + len f ∧ start < b then
      partOf len a b f start :: parts a b files (start + len f)
    else parts a b files (start + len f)

variable {len} {a b start : ℕ} {files : List α} {part : Part α}

/-- The bytes of a part are the same in the range and in the file. -/
theorem take_drop_partOf {β : Type} {xs : List β} {n : ℕ} {f : α} (hl : a < start + len f)
    (hu : start < a + n) :
    (((xs.drop a).take n).drop (partOf len a (a + n) f start).pos).take
        (partOf len a (a + n) f start).len =
      (((xs.drop start).take (len f)).drop (partOf len a (a + n) f start).off).take
        (partOf len a (a + n) f start).len := by
  simp only [partOf]
  rw [take_drop_take_drop (by omega), take_drop_take_drop (by omega)]
  congr 2
  omega

/-- A part is the part of one of the files. -/
theorem mem_parts : part ∈ parts len a b files start ↔
    ∃ pre f post, files = pre ++ f :: post ∧ a < start + total len pre + len f ∧
      start + total len pre < b ∧ part = partOf len a b f (start + total len pre) := by
  induction files generalizing start with
  | nil => simp [parts]
  | cons g files ih =>
    have htail : part ∈ parts len a b files (start + len g) ↔
        ∃ pre f post, g :: files = (g :: pre) ++ f :: post ∧
          a < start + total len (g :: pre) + len f ∧ start + total len (g :: pre) < b ∧
          part = partOf len a b f (start + total len (g :: pre)) := by
      rw [ih]
      simp only [List.cons_append, List.cons.injEq, true_and, total_cons, add_assoc]
    constructor
    · intro h
      rw [parts] at h
      split at h
      case isTrue hmeets =>
        rcases List.mem_cons.1 h with rfl | h
        · exact ⟨[], g, files, rfl, hmeets.1, hmeets.2, rfl⟩
        · obtain ⟨pre, f, post, h⟩ := htail.1 h
          exact ⟨g :: pre, f, post, h⟩
      case isFalse =>
        obtain ⟨pre, f, post, h⟩ := htail.1 h
        exact ⟨g :: pre, f, post, h⟩
    · rintro ⟨pre, f, post, hfiles, hl, hu, hpart⟩
      rw [parts]
      cases pre with
      | nil =>
        obtain ⟨rfl, rfl⟩ := List.cons.inj hfiles
        rw [if_pos ⟨hl, hu⟩, hpart]
        exact List.mem_cons_self
      | cons g' pre =>
        obtain ⟨rfl, -⟩ := List.cons.inj hfiles
        have hmem := htail.2 ⟨pre, f, post, hfiles, hl, hu, hpart⟩
        split
        · exact List.mem_cons_of_mem _ hmem
        · exact hmem

/-- The file at an index, whose part is among the parts if the range meets it. -/
theorem mem_parts_iff_getElem? : part ∈ parts len a b files start ↔
    ∃ j f, files[j]? = some f ∧ a < start + total len (files.take j) + len f ∧
      start + total len (files.take j) < b ∧
      part = partOf len a b f (start + total len (files.take j)) := by
  rw [mem_parts]
  constructor
  · rintro ⟨pre, f, post, rfl, h⟩
    exact ⟨pre.length, f, by simp, by rwa [List.take_left]⟩
  · rintro ⟨j, f, hj, h⟩
    obtain ⟨hlt, rfl⟩ := List.getElem?_eq_some_iff.1 hj
    exact ⟨files.take j, files[j], files.drop (j + 1), by simp, h⟩

/-- The parts from position `b` on are none. -/
theorem parts_of_le (h : b ≤ start) : parts len a b files start = [] := by
  induction files generalizing start with
  | nil => rfl
  | cons f files ih => rw [parts, if_neg (by omega), ih (by omega)]

/-! ## Making up the range -/

/-- The parts follow one another in the range, from a position on. -/
def Contiguous : ℕ → List (Part α) → Prop
  | _, [] => True
  | pos, part :: parts => part.pos = pos ∧ Contiguous (pos + part.len) parts

theorem contiguous_parts (len : α → ℕ) {a b : ℕ} (files : List α) (start : ℕ) (hab : a ≤ b) :
    Contiguous (min b start - a) (parts len a b files start) := by
  induction files generalizing start with
  | nil => trivial
  | cons f files ih =>
    rw [parts]
    split
    case isTrue hmeets =>
      refine ⟨?_, ?_⟩
      · rw [partOf]
        dsimp only
        omega
      · have hnext : min b start - a + (partOf len a b f start).len =
            min b (start + len f) - a := by
          rw [partOf]
          dsimp only
          omega
        rw [hnext]
        exact ih _
    case isFalse hmeets =>
      have hnext : min b start - a = min b (start + len f) - a := by omega
      rw [hnext]
      exact ih _

/-- The lengths of the parts add up to the length of the range that the files cover. -/
theorem sum_len_parts : ((parts len a b files start).map Part.len).sum =
    min b (start + total len files) - max a start := by
  induction files generalizing start with
  | nil =>
    rw [parts, total_nil]
    simp only [List.map_nil, List.sum_nil]
    omega
  | cons f files ih =>
    rw [parts, total_cons, ← add_assoc]
    split
    case isTrue hmeets =>
      rw [List.map_cons, List.sum_cons, ih, partOf]
      dsimp only
      omega
    case isFalse hmeets =>
      rw [ih]
      omega

/-! ## Positions of the range -/

/-- The part that a range covers of the file at an index, if it covers any of it. -/
def partAt (len : α → ℕ) (a b : ℕ) (files : List α) (start j : ℕ) : Option (Part α) :=
  files[j]?.bind fun f =>
    if max a (start + total len (files.take j)) < min b (start + total len (files.take j) + len f) then
      some (partOf len a b f (start + total len (files.take j)))
    else none

theorem partAt_eq_some {j : ℕ} : partAt len a b files start j = some part ↔
    ∃ f, files[j]? = some f ∧
      max a (start + total len (files.take j)) < min b (start + total len (files.take j) + len f) ∧
      partOf len a b f (start + total len (files.take j)) = part := by
  simp only [partAt, Option.bind_eq_some_iff, Option.ite_none_right_eq_some, Option.some.injEq]

theorem partAt_cons_succ (f : α) (j : ℕ) :
    partAt len a b (f :: files) start (j + 1) = partAt len a b files (start + len f) j := by
  simp only [partAt, List.getElem?_cons_succ, List.take_succ_cons, total_cons, add_assoc]

/-- The nonempty parts are those of the files that the range covers in a position, each
    once, in the order of the files. -/
theorem filter_parts (len : α → ℕ) (a b : ℕ) (files : List α) (start : ℕ) :
    ((parts len a b files start).filter fun part => 0 < part.len) =
      (List.range files.length).filterMap (partAt len a b files start) := by
  induction files generalizing start with
  | nil => rfl
  | cons f files ih =>
    have htail : ((List.range files.length).map Nat.succ).filterMap
        (partAt len a b (f :: files) start) =
          (parts len a b files (start + len f)).filter fun part => 0 < part.len := by
      rw [List.filterMap_map, ih]
      exact congrArg (List.filterMap · _) (funext fun j => partAt_cons_succ f j)
    rw [List.length_cons, List.range_succ_eq_map, parts]
    by_cases hcovers : max a start < min b (start + len f)
    case pos =>
      have hhead : partAt len a b (f :: files) start 0 = some (partOf len a b f start) :=
        partAt_eq_some.2 ⟨f, rfl, hcovers, rfl⟩
      have hpos : 0 < (partOf len a b f start).len := by
        rw [partOf]
        dsimp only
        omega
      rw [List.filterMap_cons_some hhead, htail, if_pos (by omega),
        List.filter_cons_of_pos (by simpa using hpos)]
    case neg =>
      have hhead : partAt len a b (f :: files) start 0 = none := by
        refine Option.eq_none_iff_forall_ne_some.2 fun part h => ?_
        obtain ⟨f', hf', hlt, -⟩ := partAt_eq_some.1 h
        obtain rfl := Option.some.inj hf'
        exact hcovers hlt
      have hempty : ¬0 < (partOf len a b f start).len := by
        rw [partOf]
        dsimp only
        omega
      rw [List.filterMap_cons_none hhead, htail]
      split
      · rw [List.filter_cons_of_neg (by simpa using hempty)]
      · rfl

/-- The file at a position. -/
theorem exists_file_at (len : α → ℕ) {files : List α} {start k : ℕ} (hstart : start ≤ k)
    (h : k < start + total len files) :
    ∃ j f, files[j]? = some f ∧ start + total len (files.take j) ≤ k ∧
      k < start + total len (files.take j) + len f := by
  induction files generalizing start with
  | nil =>
    rw [total_nil] at h
    omega
  | cons f files ih =>
    rw [total_cons] at h
    by_cases hf : k < start + len f
    · exact ⟨0, f, rfl, by simpa using hstart, by simpa using hf⟩
    · obtain ⟨j, f', hj, hl, hu⟩ := ih (show start + len f ≤ k by omega) (by omega)
      refine ⟨j + 1, f', hj, ?_, ?_⟩
      · rw [List.take_succ_cons, total_cons]
        omega
      · rw [List.take_succ_cons, total_cons]
        omega

/-- A file ends before the next ones begin. -/
theorem total_take_add_le_of_lt (len : α → ℕ) {i j : ℕ} {f : α} (h : files[i]? = some f)
    (hij : i < j) :
    total len (files.take i) + len f ≤ total len (files.take j) := by
  have hi : (files.take j)[i]? = some f := by rw [List.getElem?_take_of_lt hij, h]
  have hle := total_take_add_le len hi
  rwa [List.take_take, Nat.min_eq_left hij.le] at hle

/-- Every position of a range within the files is in the part of exactly one file. -/
theorem existsUnique_partAt {k : ℕ} (hk : a + k < b) (ha : start ≤ a)
    (hb : b ≤ start + total len files) :
    ∃! j, ∃ part, partAt len a b files start j = some part ∧ part.pos ≤ k ∧
      k < part.pos + part.len := by
  obtain ⟨j, f, hj, hl, hu⟩ := exists_file_at len (show start ≤ a + k by omega)
    (show a + k < start + total len files by omega)
  have hcovered {i : ℕ} {f' : α} (hi : files[i]? = some f') (part : Part α)
      (hpart : partAt len a b files start i = some part) (hpos : part.pos ≤ k)
      (hlen : k < part.pos + part.len) : start + total len (files.take i) ≤ a + k ∧
        a + k < start + total len (files.take i) + len f' := by
    obtain ⟨f'', hf'', hlt, rfl⟩ := partAt_eq_some.1 hpart
    obtain rfl := Option.some.inj (hi.symm.trans hf'')
    simp only [partOf] at hpos hlen
    omega
  refine ⟨j, ⟨partOf len a b f (start + total len (files.take j)),
    partAt_eq_some.2 ⟨f, hj, by omega, rfl⟩, ?_, ?_⟩, ?_⟩
  · simp only [partOf]
    omega
  · simp only [partOf]
    omega
  · rintro i ⟨part, hpart, hpos, hlen⟩
    obtain ⟨f', hi, -⟩ := partAt_eq_some.1 hpart
    obtain ⟨hl', hu'⟩ := hcovered hi part hpart hpos hlen
    -- Of two files that hold the position, neither is before the other.
    rcases lt_trichotomy i j with hlt | heq | hgt
    · have := total_take_add_le_of_lt len hi hlt
      omega
    · exact heq
    · have := total_take_add_le_of_lt len hj hgt
      omega

/-- A position of a part is the same position counted from the start of the files and from
    the start of the range. -/
theorem partAt_position {j k : ℕ} (h : partAt len a b files start j = some part)
    (hpos : part.pos ≤ k) (hlen : k < part.pos + part.len) :
    start + total len (files.take j) + (part.off + (k - part.pos)) = a + k := by
  obtain ⟨f, -, hlt, rfl⟩ := partAt_eq_some.1 h
  simp only [partOf] at hpos hlen ⊢
  omega

end FileLayout
