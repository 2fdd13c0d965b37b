import PS5Torrent.TorrentMgr.Verified

/-!
# What was published is what is downloaded

The two ends put together: whoever publishes a torrent hashes the pieces of its
payload, and whoever downloads it verifies these hashes. When a torrent whose
metainfo was published is done, its files begin with the files that were
published, unless the bytes on disk of some piece are others with the same
hash (`published_of_done`).
-/

namespace PS5Torrent

open Sha1

variable {sys : Sys} {strerror : Errno → Bytes} {env : ℕ → Outcome} {events : List Event}
  {mt : ManagedTorrent} {p : Publication}

/-- In every run in which no two torrents have an output file in common: the files of a torrent that
    writes no file twice and is done begin with what was published, or a piece on disk collides with
    a published one. -/
theorem published_of_done (hapart : (TorrentMgr.init sys strerror env).StaysApart events)
    (hmt : mt ∈ ((TorrentMgr.init sys strerror env).run events).torrents)
    (hdistinct : mt.outputPaths.Nodup) (hdone : mt.state = .done)
    (hlength : p.metainfo.length ≤ PTRDIFF_MAX)
    (hparse : torrentParse p.metainfo = some mt.torrent) :
    let disk := ((TorrentMgr.init sys strerror env).run events).sys.fs.content
    (∀ (j : ℕ) (file : PublishedFile), p.files[j]? = some file →
      ((disk (outputPath mt.savePath file.listed)).getD []).take file.content.length =
        file.content) ∨
    ∃ index < p.numPieces,
      (mt.torrent.pieceOnDisk mt.savePath disk index).length = (p.piece index).length ∧
      sha1Hash (mt.torrent.pieceOnDisk mt.savePath disk index) = sha1Hash (p.piece index) ∧
      mt.torrent.pieceOnDisk mt.savePath disk index ≠ p.piece index := by
  intro disk
  obtain ⟨hg, pieces, hpieces⟩ := exists_pieces_of_done hapart hmt hdistinct hdone
  have htorrent : mt.torrent = p.torrent := by
    rw [p.torrentParse_eq hlength, Option.some.injEq] at hparse
    exact hparse.symm
  have hread (index : ℕ) (hindex : index < mt.torrent.numPieces) :
      mt.torrent.pieceOnDisk mt.savePath disk index = pieces index :=
    (hpieces index hindex).2.2.pieceOnDisk_eq hg hindex (hpieces index hindex).1
  rw [ManagedTorrent.outputPaths, htorrent] at hdistinct
  rw [htorrent] at hg hpieces hread ⊢
  obtain ⟨hpay, hhashes⟩ := p.describes_payload
  by_cases hsame : ∀ index < p.numPieces, pieces index = p.piece index
  · left
    intro j file hj
    have houtput : p.torrent.outputs[j]? = some file.listed := by
      rw [p.outputs_torrent, List.getElem?_map, hj, Option.map_some]
    have hsize : file.listed.size = file.content.length := Int.toNat_natCast _
    have hcontent := Torrent.take_content_eq hg hdistinct hpay houtput fun index hindex => by
      rw [p.pieceData_payload, ← hsame index hindex]
      exact (hpieces index hindex).2.2
    rwa [hsize, p.outputSlice_payload hj] at hcontent
  · right
    simp only [not_forall] at hsame
    obtain ⟨index, hindex, hne⟩ := hsame
    obtain ⟨hlen, hhash, -⟩ := hpieces index hindex
    have hpublished := length_pieceData hg hpay hindex
    rw [p.pieceData_payload] at hpublished
    have hhashed := hhashes index hindex
    rw [p.pieceData_payload] at hhashed
    exact ⟨index, hindex, by rw [hread index hindex, hlen, hpublished],
      by rw [hread index hindex, hhash, hhashed], by rwa [hread index hindex]⟩

/-! ### A file from a web seed -/

deriving instance DecidableEq for Torrent

/-- A file of two bytes, in one piece. -/
def notePublication : Publication where
  name := lit "n"
  content := .single (lit "xy")
  pieceLength := 2
  announce := lit "http://t/a"
  announceList := []
  webSeeds := [lit "http://t/n"]
  payload_pos := by decide
  payload_le := by decide
  files_le := by decide
  pieceLength_pos := by decide
  pieceLength_le := by decide

def noteEvents : List Event :=
  [.addRaw notePublication.metainfo (lit "/d") [], .start 0, .tick, .webSeedDone 0 pieceNet, .tick,
    .tick]

def noteMgr : TorrentMgr := (TorrentMgr.init (sysWith []) (fun _ => []) calmEnv).run noteEvents

theorem staysApart_noteMgr :
    (TorrentMgr.init (sysWith []) (fun _ => []) calmEnv).StaysApart noteEvents :=
  staysApart_of_length (by decide +kernel)

theorem published_of_done_note : ∃ mt ∈ noteMgr.torrents,
    (∀ (j : ℕ) (file : PublishedFile), notePublication.files[j]? = some file →
      ((noteMgr.sys.fs.content (outputPath mt.savePath file.listed)).getD []).take
        file.content.length = file.content) ∨
    ∃ index < notePublication.numPieces,
      (mt.torrent.pieceOnDisk mt.savePath noteMgr.sys.fs.content index).length =
        (notePublication.piece index).length ∧
      sha1Hash (mt.torrent.pieceOnDisk mt.savePath noteMgr.sys.fs.content index) =
        sha1Hash (notePublication.piece index) ∧
      mt.torrent.pieceOnDisk mt.savePath noteMgr.sys.fs.content index ≠
        notePublication.piece index := by
  have hlength : notePublication.metainfo.length ≤ PTRDIFF_MAX := by decide +kernel
  have hfacts : ∃ mt ∈ noteMgr.torrents[0]?, mt.outputPaths.Nodup ∧ mt.state = .done ∧
      notePublication.torrent = mt.torrent := by
    decide +kernel
  obtain ⟨mt, hmt, hdistinct, hdone, htorrent⟩ := hfacts
  have hmem := List.mem_of_getElem? hmt
  rw [noteMgr] at hmem ⊢
  have hparse := notePublication.torrentParse_eq hlength
  rw [htorrent] at hparse
  exact ⟨mt, hmem, published_of_done staysApart_noteMgr hmem hdistinct hdone hlength hparse⟩

end PS5Torrent
