import PS5Torrent.Basic
import PS5Torrent.Library.Window

/-!
# The installed version

`contains_version` (`tile_state.c`) searches a file for a version, through a
buffer of 8192 bytes that `fread` fills as far as it likes.
-/

namespace PS5Torrent

/-- `contains_version`, for a file that `fread` returns in these blocks: it
    begins a call with the bytes carried over at the start of the buffer, and the
    file ends at the first call that returns nothing. -/
def containsVersion (version : Bytes) (blocks : List Bytes) : Bool :=
  let version := cstr version
  if version.length = 0 ∨ version.length ≥ 8192 then false else Window.scan version [] blocks

/-- Blocks that `fread` may return: none is empty, and each fits the buffer after the bytes that
    were carried over. -/
def Fits (version : Bytes) (carry : Bytes) : List Bytes → Prop
  | [] => True
  | block :: blocks => block ≠ [] ∧ carry.length + block.length ≤ 8192 ∧
      Fits version (Window.tail version (carry ++ block)) blocks

theorem Fits.ne_nil {version carry : Bytes} {blocks : List Bytes} (h : Fits version carry blocks) :
    ∀ block ∈ blocks, block ≠ [] := by
  induction blocks generalizing carry with
  | nil => exact List.forall_mem_nil _
  | cons block blocks ih =>
    obtain ⟨hne, -, hrest⟩ := h
    exact List.forall_mem_cons.2 ⟨hne, ih hrest⟩

/-- The version is found exactly if it occurs in the content of the file, wherever it lies. -/
theorem containsVersion_iff {version : Bytes} {blocks : List Bytes} (hversion : 0 ∉ version)
    (hpos : 1 ≤ version.length) (hle : version.length ≤ 8191) (hfits : Fits version [] blocks) :
    containsVersion version blocks ↔ version <:+: blocks.flatten := by
  rw [containsVersion, cstr_of_not_mem hversion, if_neg (by omega)]
  exact Window.scan_iff (List.length_pos_iff.1 hpos) hfits.ne_nil

/-- An occurrence over three blocks is found. -/
theorem containsVersion_split :
    containsVersion (lit "02.1") [lit "x0", lit "2", lit ".1y"] ↔
      lit "02.1" <:+: [lit "x0", lit "2", lit ".1y"].flatten :=
  containsVersion_iff (by decide) (by decide) (by decide)
    ⟨by decide, by decide, by decide, by decide, by decide, by decide, trivial⟩

end PS5Torrent
