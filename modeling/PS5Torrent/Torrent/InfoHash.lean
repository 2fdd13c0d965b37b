import PS5Torrent.Torrent
import PS5Torrent.Bencode.Encoding

/-!
# The info hash

The info hash of a torrent is the SHA-1 of the bytes of its info dictionary
in the `.torrent` file. `torrent_parse` hashes the re-encoding of the parsed
dictionary instead (`infoDictRaw`), "exactly as it was in the torrent file".
These bytes are the original ones (`infoSlice`) exactly if the original ones
are canonical (`infoDictRaw_eq_infoSlice_iff`): a leading zero is enough to
change the hash (`infoDictRaw_ne_infoSlice`).
-/

namespace PS5Torrent

open Bencode Sha1

/-- Where the value of the first entry with the given key starts and ends, in
    the loop of `parse_dict`. -/
def dictValueSpan (data key : Bytes) : ℕ → ℕ → Option (ℕ × ℕ)
  | 0, _ => none
  | fuel + 1, pos =>
    if data[pos]? = some (chr 'e') then none else do
      let (k, start) ← parseString data pos
      let (_, stop) ← parseValue data fuel start
      if k = key then some (start, stop) else dictValueSpan data key fuel stop

/-- The part of the input consumed for the value of the first `info` key of
    the top-level dictionary. -/
def infoSlice (data : Bytes) : Option Bytes :=
  (dictValueSpan data (lit "info") (parseFuel data - 1) 1).map fun (start, stop) =>
    (data.drop start).take (stop - start)

/-- The entry found in a parsed dictionary is the tree parsed from its span. -/
theorem exists_dictValueSpan {data key : Bytes} {node : BcodeNode} :
    ∀ {fuel pos : ℕ} {entries : List (Bytes × BcodeNode)} {pos' : ℕ},
    parseDictEntries data fuel pos = some (entries, pos') → bcodeDictGet entries key = some node →
      ∃ start stop fuel', dictValueSpan data key fuel pos = some (start, stop) ∧
        parseValue data fuel' start = some (node, stop)
  | 0, _, _, _, h, _ => by simp [parseDictEntries] at h
  | fuel + 1, pos, entries, pos', h, hget => by
    rw [parseDictEntries] at h
    split at h
    · simp at h
    rename_i c hc
    split_ifs at h with he
    · obtain ⟨rfl, -⟩ := Prod.mk.inj (Option.some.inj h)
      simp [bcodeDictGet] at hget
    · obtain ⟨⟨k, start⟩, hk, h⟩ := Option.bind_eq_some_iff.1 h
      obtain ⟨⟨val, stop⟩, hval, h⟩ := Option.bind_eq_some_iff.1 h
      obtain ⟨⟨rest, q⟩, hrest, h⟩ := Option.bind_eq_some_iff.1 h
      obtain ⟨rfl, -⟩ := Prod.mk.inj (Option.some.inj h)
      have hne : data[pos]? ≠ some (chr 'e') := by
        rw [hc]
        exact fun h => he (Option.some.inj h)
      simp only [dictValueSpan, if_neg hne, hk, hval, Option.bind_eq_bind, Option.bind_some]
      by_cases hkey : k = key
      · -- The first entry with the key is this one.
        simp only [bcodeDictGet, List.find?_cons, hkey, decide_true, Option.map_some,
          Option.some.injEq] at hget
        exact ⟨start, stop, fuel, if_pos hkey, hget ▸ hval⟩
      · simp only [bcodeDictGet, List.find?_cons, hkey, decide_false] at hget
        obtain ⟨start', stop', fuel', hspan, hnode⟩ := exists_dictValueSpan hrest hget
        exact ⟨start', stop', fuel', by rw [if_neg hkey, hspan], hnode⟩

/-- A top-level dictionary is read by the loop of `parse_dict` from its second
    byte on. -/
theorem parseDictEntries_of_bcodeParse {data : Bytes} {root : List (Bytes × BcodeNode)}
    (h : bcodeParse data = some (.dict root)) :
    ∃ pos', parseDictEntries data (parseFuel data - 1) 1 = some (root, pos') := by
  rw [bcodeParse, Option.ite_none_left_eq_some, Option.map_eq_some_iff] at h
  obtain ⟨-, ⟨node, pos'⟩, h, rfl⟩ := h
  rw [parseFuel, parseValue] at h
  split at h
  · simp at h
  split_ifs at h
  · simp at h
  · simp at h
  · simp at h
  · obtain ⟨⟨entries, q⟩, hentries, he⟩ := Option.map_eq_some_iff.1 h
    obtain ⟨he, rfl⟩ := Prod.mk.inj he
    cases he
    exact ⟨q, hentries⟩

/-- An accepted torrent hashes the bytes of its info dictionary exactly if they
    are canonical bencoding. -/
theorem infoDictRaw_eq_infoSlice_iff {data : Bytes} {t : Torrent}
    (hlen : data.length ≤ PTRDIFF_MAX) (h : torrentParse data = some t) :
    ∃ slice, infoSlice data = some slice ∧
      (t.infoDictRaw = slice ∧ t.infoHash = sha1Hash slice ↔ IsCanonicalInt64 slice) := by
  obtain ⟨root, info, layout, hroot, hinfo, -, rfl, -⟩ := torrentParse_eq_some h
  obtain ⟨pos', hentries⟩ := parseDictEntries_of_bcodeParse hroot
  obtain ⟨start, stop, fuel, hspan, hnode⟩ := exists_dictValueSpan hentries hinfo
  refine ⟨(data.drop start).take (stop - start), by rw [infoSlice, hspan]; rfl, ?_⟩
  rw [← bcodeEncode_eq_slice_iff hlen hnode]
  exact ⟨And.left, fun he => ⟨he, congrArg sha1Hash he⟩⟩

/-- A torrent of one file of five bytes, in canonical bencoding. -/
def smallTorrent : Bytes :=
  lit "d4:infod6:lengthi5e4:name1:a12:piece lengthi5e6:pieces20:aaaaaaaaaaaaaaaaaaaaee"

theorem infoDictRaw_eq_infoSlice_iff_small :
    ∃ t, torrentParse smallTorrent = some t ∧ ∃ slice, infoSlice smallTorrent = some slice ∧
      (t.infoDictRaw = slice ∧ t.infoHash = sha1Hash slice ↔ IsCanonicalInt64 slice) :=
  have hparse := torrentParse_eq_parsed (show (torrentParse smallTorrent).isSome by decide +kernel)
  ⟨_, hparse, infoDictRaw_eq_infoSlice_iff (by decide +kernel) hparse⟩

/-- A torrent of one file of five bytes, whose length is written `i05e`. -/
def leadingZeroTorrent : Bytes :=
  lit "d4:infod6:lengthi05e4:name1:a12:piece lengthi5e6:pieces20:aaaaaaaaaaaaaaaaaaaaee"

/-- The leading zero is lost, and with it the info hash. -/
theorem infoDictRaw_ne_infoSlice :
    ∃ t, torrentParse leadingZeroTorrent = some t ∧
      infoSlice leadingZeroTorrent = some (lit
        "d6:lengthi05e4:name1:a12:piece lengthi5e6:pieces20:aaaaaaaaaaaaaaaaaaaae") ∧
      t.infoDictRaw = lit
        "d6:lengthi5e4:name1:a12:piece lengthi5e6:pieces20:aaaaaaaaaaaaaaaaaaaae" ∧
      infoSlice leadingZeroTorrent ≠ some t.infoDictRaw := by
  refine ⟨parsed leadingZeroTorrent, torrentParse_eq_parsed (by decide +kernel), ?_, ?_, ?_⟩
  · decide +kernel
  · decide +kernel
  · decide +kernel

end PS5Torrent
