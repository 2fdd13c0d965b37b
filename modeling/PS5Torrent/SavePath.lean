import PS5Torrent.FileIo
import PS5Torrent.HttpServer
import Mathlib.Data.List.DropRight

/-!
# The save path

`build_save_path` (`main.c`) makes the directory of a download out of the
destination a client names: an absolute path without control characters and
without the components `.` and `..`, less its trailing slashes, and
`/torrents/` (`buildSavePath_eq_some_iff`). The same scan guards the paths in
a metainfo (`safeRelativePath_iff`).
-/

namespace PS5Torrent

open LexPath

/-- The loop that drops trailing slashes: the length left of `n` characters. -/
def trimSlashes (s : Bytes) : ℕ → ℕ
  | 0 => 0
  | 1 => 1
  | n + 2 => if s[n + 1]? = some (chr '/') then trimSlashes s (n + 1) else n + 2

/-- The first characters of a string that `%.*s` prints; a negative precision
    is ignored. -/
def printPrefix (precision : ℤ) (s : Bytes) : Bytes :=
  if precision < 0 then s else s.take precision.toNat

/-- `build_save_path`, for a buffer of the given size. -/
def buildSavePath (basePath : Bytes) (savePathSize : ℕ) : Option Bytes :=
  let base := cstr basePath
  if base.head? ≠ some (chr '/') || !scanPath none base then none
  else
    let baseLen := trimSlashes base base.length
    let savePath := printPrefix (toInt32 baseLen) base ++
      ((if baseLen = 1 then [] else [chr '/']) ++ lit "torrents/")
    if savePath.length < savePathSize then some savePath else none

@[simp]
theorem printPrefix_natCast (n : ℕ) (s : Bytes) : printPrefix n s = s.take n := by
  rw [printPrefix, if_neg (by omega), Int.toNat_natCast]

/-! ## The scan -/

theorem components_cons (c : UInt8) (s : Bytes) :
    components (c :: s) = if c = sep then [] :: components s
      else (components s).modifyHead (List.cons c) := by
  rw [components, List.splitOn_cons_eq_if_modifyHead]
  simp only [beq_iff_eq]
  rfl

/-- Where a component ends, the components start with an empty one. -/
theorem atComponentEnd_iff {s : Bytes} {w : Bytes} {ws : List Bytes} (h : components s = w :: ws) :
    atComponentEnd s ↔ w = [] := by
  cases s with
  | nil =>
    rw [components_nil] at h
    obtain ⟨rfl, -⟩ := List.cons.inj h
    exact iff_of_true rfl rfl
  | cons c s =>
    obtain ⟨v, vs, hv⟩ := List.exists_cons_of_ne_nil (List.splitOn_ne_nil sep s)
    rw [components_cons, components, hv] at h
    rw [atComponentEnd, decide_eq_true_eq]
    by_cases hc : c = sep
    · rw [if_pos hc] at h
      exact iff_of_true hc (List.cons.inj h).1.symm
    · rw [if_neg hc] at h
      exact iff_of_false hc fun hw => by
        rw [hw] at h
        exact List.cons_ne_nil _ _ (List.cons.inj h).1

/-- At the start of a component, the scan sees whether it is `.` or `..`. -/
theorem dot_iff {s w : Bytes} {ws : List Bytes} (h : components s = w :: ws) :
    (atComponentEnd s ∨ s.head? = some (chr '.') ∧ atComponentEnd s.tail) ↔
      w = [] ∨ w = [chr '.'] := by
  rw [atComponentEnd_iff h]
  refine or_congr_right ?_
  cases s with
  | nil =>
    rw [components_nil] at h
    obtain ⟨rfl, -⟩ := List.cons.inj h
    simp
  | cons c s =>
    obtain ⟨v, vs, hv⟩ := List.exists_cons_of_ne_nil (List.splitOn_ne_nil sep s)
    rw [List.head?_cons, List.tail_cons, atComponentEnd_iff hv, Option.some.injEq]
    rw [components_cons, components, hv] at h
    by_cases hc : c = sep
    · rw [if_pos hc] at h
      obtain ⟨rfl, -⟩ := List.cons.inj h
      refine iff_of_false (fun hdot => ?_) (by simp)
      exact absurd (hc.symm.trans hdot.1) (by decide)
    · rw [if_neg hc] at h
      obtain ⟨rfl, -⟩ := List.cons.inj h
      rw [List.cons.injEq]

/-- The scan accepts a string without control characters and dot components. In the
    middle of a component, the rest of that component may be anything. -/
theorem scanPath_iff (prev : Option UInt8) (s : Bytes) :
    scanPath prev s ↔ (∀ b ∈ s, 0x20 ≤ b) ∧
      ∀ w ∈ if prev = none ∨ prev = some (chr '/') then components s else (components s).tail,
        w ≠ dot ∧ w ≠ dotdot := by
  induction s generalizing prev with
  | nil =>
    rw [components_nil]
    refine iff_of_true rfl ⟨by simp, fun w hw => ?_⟩
    obtain rfl : w = [] := by
      split at hw
      · exact List.mem_singleton.1 hw
      · exact absurd hw List.not_mem_nil
    exact ⟨by decide, by decide⟩
  | cons c s ih =>
    obtain ⟨w, ws, hw⟩ := List.exists_cons_of_ne_nil (List.splitOn_ne_nil sep s)
    have hcons := components_cons c s
    have hend := dot_iff hw
    rw [scanPath]
    split
    case isTrue hbad =>
      refine iff_of_false Bool.false_ne_true fun ⟨hctrl, hdots⟩ => ?_
      rcases hbad with hlow | ⟨rfl, hprev, hdot⟩
      · exact absurd hlow (UInt8.not_lt.2 (hctrl c List.mem_cons_self))
      · rw [if_pos hprev, hcons, if_neg (by decide), components, hw] at hdots
        have hne := hdots _ List.mem_cons_self
        rcases hend.1 hdot with rfl | rfl
        · exact hne.1 rfl
        · exact hne.2 rfl
    case isFalse hgood =>
      have hlow : 0x20 ≤ c := UInt8.not_lt.1 fun h => hgood (.inl h)
      rw [ih, List.forall_mem_cons, and_assoc, and_iff_right hlow]
      refine and_congr_right fun _ => ?_
      by_cases hc : c = sep
      · -- After a slash, a component starts.
        rw [if_pos (.inr (congrArg some hc)), hcons, if_pos hc]
        split
        · rw [List.forall_mem_cons]
          exact (and_iff_right ⟨by decide, by decide⟩).symm
        · rw [List.tail_cons]
      · -- Otherwise the component goes on; at its start, it was found to be no dots.
        have hmid : ¬(some c = none ∨ some c = some (chr '/')) := by
          rintro (h | h)
          · cases h
          · exact hc (Option.some.inj h)
        rw [if_neg hmid, hcons, if_neg hc, components, hw]
        split
        case isTrue hprev =>
          rw [List.modifyHead_cons, List.forall_mem_cons, List.tail_cons]
          refine (and_iff_right ⟨fun h => ?_, fun h => ?_⟩).symm
          · obtain ⟨rfl, rfl⟩ := List.cons.inj h
            exact hgood (.inr ⟨rfl, hprev, hend.2 (.inl rfl)⟩)
          · obtain ⟨rfl, rfl⟩ := List.cons.inj h
            exact hgood (.inr ⟨rfl, hprev, hend.2 (.inr rfl)⟩)
        case isFalse => rfl

theorem scanPath_none_iff (s : Bytes) :
    scanPath none s ↔ (∀ b ∈ s, 0x20 ≤ b) ∧ NoDots s := by
  rw [scanPath_iff, if_pos (.inl rfl), NoDots]

/-- What `safe_relative_path` accepts. -/
theorem safeRelativePath_iff (path : Option Bytes) :
    safeRelativePath path ↔ ∃ s, path.map cstr = some s ∧ s ≠ [] ∧ s.head? ≠ some (chr '/') ∧
      (∀ b ∈ s, 0x20 ≤ b) ∧ NoDots s := by
  cases path with
  | none => simp [safeRelativePath]
  | some path =>
    simp only [safeRelativePath, Bool.and_eq_true, decide_eq_true_eq, scanPath_none_iff, and_assoc,
      Option.map_some, Option.some.injEq, exists_eq_left']

/-! ## The result -/

theorem trimSlashes_append (s : Bytes) (b : UInt8) {n : ℕ} (h : n ≤ s.length) :
    trimSlashes (s ++ [b]) n = trimSlashes s n := by
  induction n using trimSlashes.induct s with
  | case1 => rfl
  | case2 => rfl
  | case3 n hslash ih => 
    rw [trimSlashes, trimSlashes, List.getElem?_append_left (by omega), if_pos hslash,
      if_pos hslash, ih (by omega)]
  | case4 n hslash =>
    rw [trimSlashes, trimSlashes, List.getElem?_append_left (by omega), if_neg hslash, if_neg hslash]

theorem trimSlashes_le (s : Bytes) (n : ℕ) : trimSlashes s n ≤ n := by
  induction n using trimSlashes.induct s with
  | case1 => exact le_rfl
  | case2 => exact le_rfl
  | case3 n hslash ih =>
    rw [trimSlashes, if_pos hslash]
    omega
  | case4 n hslash => rw [trimSlashes, if_neg hslash]

/-- The characters left, with a slash after them but for a single one (the root), are the string
    without its trailing slashes and a slash. -/
theorem take_trimSlashes {s : Bytes} (h : s.head? = some (chr '/')) :
    s.take (trimSlashes s s.length) ++ (if trimSlashes s s.length = 1 then [] else [chr '/']) =
      s.rdropWhile (· = chr '/') ++ [chr '/'] := by
  induction s using List.reverseRecOn with
  | nil => cases h
  | append_singleton s b ih =>
    rw [List.length_append, List.length_singleton]
    cases hs : s with
    | nil =>
      rw [hs] at h
      obtain rfl := Option.some.inj h
      rfl
    | cons c s' =>
      rw [← hs]
      have hlen : s.length ≠ 0 := by simp [hs]
      have hhead : s.head? = some (chr '/') := by
        rw [hs] at h ⊢
        exact h
      obtain ⟨n, hn⟩ : ∃ n, s.length = n + 1 := ⟨s.length - 1, by omega⟩
      have hlast : (s ++ [b])[n + 1]? = some b := by
        rw [← hn, List.getElem?_concat_length]
      rw [hn, trimSlashes, hlast, List.rdropWhile_concat]
      by_cases hb : b = chr '/'
      · have hle := trimSlashes_le s (n + 1)
        rw [if_pos (congrArg some hb), if_pos (decide_eq_true hb), trimSlashes_append s b hn.ge,
          List.take_append_of_le_length (by omega), ← hn, ih hhead]
      · rw [if_neg fun h => hb (Option.some.inj h), if_neg (mt of_decide_eq_true hb),
          if_neg (show ¬n + 2 = 1 by omega),
          List.take_of_length_le (by simp [hn])]

/-- What `build_save_path` accepts and returns. -/
theorem buildSavePath_eq_some_iff {client : Bytes} (hlen : client.length ≤ HTTP_MAX_BODY)
    (size : ℕ) (savePath : Bytes) : buildSavePath client size = some savePath ↔
      (cstr client).head? = some (chr '/') ∧ (∀ b ∈ cstr client, 0x20 ≤ b) ∧
      NoDots (cstr client) ∧
      savePath = (cstr client).rdropWhile (· = chr '/') ++ lit "/torrents/" ∧
      savePath.length < size := by
  have hbaseLen : trimSlashes (cstr client) (cstr client).length ≤ 1024 * 1024 :=
    (trimSlashes_le _ _).trans ((length_cstr_le client).trans hlen)
  rw [buildSavePath]
  dsimp only
  split
  case isTrue hbad =>
    refine iff_of_false (fun h => nomatch h) fun ⟨hhead, hctrl, hdots, _⟩ => ?_
    rw [(scanPath_none_iff _).2 ⟨hctrl, hdots⟩] at hbad
    simp [hhead] at hbad
  case isFalse hgood =>
    simp only [Bool.or_eq_true, decide_eq_true_eq, not_or, not_not, Bool.not_eq_true',
      Bool.not_eq_false] at hgood
    obtain ⟨hhead, hscan⟩ := hgood
    obtain ⟨hctrl, hdots⟩ := (scanPath_none_iff _).1 hscan
    have hlit : lit "/torrents/" = [chr '/'] ++ lit "torrents/" := rfl
    rw [toInt32_of_mem (by omega) (by omega), printPrefix_natCast, ← List.append_assoc,
      take_trimSlashes hhead, List.append_assoc, ← hlit,
      and_iff_right hhead, and_iff_right hctrl, and_iff_right hdots,
      Option.ite_none_right_eq_some, Option.some.injEq]
    constructor
    · rintro ⟨hfits, rfl⟩
      exact ⟨rfl, hfits⟩
    · rintro ⟨rfl, hfits⟩
      exact ⟨hfits, rfl⟩

end PS5Torrent
