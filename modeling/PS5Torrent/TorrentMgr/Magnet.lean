import PS5Torrent.TorrentMgr
import PS5Torrent.HttpServer.Request

/-!
# Magnet links

`torrent_mgr_add_magnet`: the info hash, the name and up to eight trackers are
cut out of the link, and a torrent without pieces is added. A hash of fewer
than 40 digits leaves the rest of its buffer, which the conversion reads all
the same, as it is on the stack.
-/

namespace PS5Torrent

open Search

/-- `strstr`: the string from the first occurrence of a needle on. -/
def strstr (haystack needle : Bytes) : Option Bytes :=
  (search needle (cstr haystack)).map (cstr haystack).drop

/-- What comes after `xt=urn:btih:` in a magnet link. -/
def magnetHash (magnetUri : Bytes) : Option Bytes :=
  if !(lit "magnet:").isPrefixOf (cstr magnetUri) then none
  else (strstr magnetUri (lit "xt=urn:btih:")).map (·.drop 12)

/-- The digits of the info hash, up to 40 of them. -/
def hashDigits (xt : Bytes) : Bytes := (xt.takeWhile fun c => c ≠ chr '&' ∧ c ≠ chr '?').take 40

/-- The conversion of the digits to the bytes of the info hash. -/
def hashBytes (stack hashStr : Bytes) : Bytes :=
  (List.range 20).map fun i =>
    let buf := hashStr ++ 0 :: stack
    toChar (strtolHex (cstr [buf.getD (2 * i) 0, buf.getD (2 * i + 1) 0]))

/-- The display name, if there is one. -/
def displayName (magnetUri : Bytes) : Bytes :=
  match strstr magnetUri (lit "dn=") with
  | none => []
  | some dn => httpUrlDecode (((dn.drop 3).takeWhile (· ≠ chr '&')).take 255)

/-- The loop over the trackers, of which there is room for a number. -/
def magnetTrackers : ℕ → Bytes → List Bytes
  | 0, _ => []
  | n + 1, trPtr =>
    match strstr trPtr (lit "tr=") with
    | none => []
    | some tr =>
      let tr := tr.drop 3
      let decoded := httpUrlDecode (tr.takeWhile (· ≠ chr '&'))
      if chr '&' ∈ tr then decoded :: magnetTrackers n (tr.dropWhile (· ≠ chr '&')) else [decoded]

/-- The name of the torrent that a magnet link stands for. -/
def magnetName (magnetUri hashStr : Bytes) : Bytes :=
  if displayName magnetUri = [] then hashStr else displayName magnetUri

namespace TorrentMgr

/-- `torrent_mgr_add_magnet`, with the peer id that is drawn and what is on the stack. -/
def torrentMgrAddMagnet (m : TorrentMgr) (magnetUri savePath peerId stack : Bytes) :
    Option ℕ × TorrentMgr :=
  match magnetHash magnetUri with
  | none => (none, m)
  | some xt =>
    let hashStr := hashDigits xt
    let t := magnetTorrent (hashBytes stack hashStr) (some (magnetName magnetUri hashStr))
      (magnetTrackers 8 magnetUri)
    m.torrentMgrAdd t savePath true magnetUri peerId

variable {m : TorrentMgr}

/-- The two ways of adding a torrent: nothing happens, or there is room and the torrent becomes
    the last one. -/
structure Added (m : TorrentMgr) (accepted : Prop) (r : Option ℕ × TorrentMgr) : Prop where
  rejected : ¬(accepted ∧ m.torrents.length < MAX_TORRENTS) → r = (none, m)
  added : accepted → m.torrents.length < MAX_TORRENTS →
    r.1 = some m.torrents.length ∧ ∃ mt, r.2.torrents = m.torrents ++ [mt]

theorem added_torrentMgrAdd (t : Torrent) (savePath : Bytes) (isMagnet : Bool)
    (magnetUri peerId : Bytes) :
    m.Added True (m.torrentMgrAdd t savePath isMagnet magnetUri peerId) where
  rejected h := by
    rw [torrentMgrAdd, if_pos (not_lt.1 fun hroom => h ⟨trivial, hroom⟩)]
  added _ hroom := by
    rw [torrentMgrAdd, if_neg (not_le.2 hroom)]
    exact ⟨rfl, _, rfl⟩

theorem added_torrentMgrAddMagnet (magnetUri savePath peerId stack : Bytes) :
    m.Added (magnetHash magnetUri).isSome
      (m.torrentMgrAddMagnet magnetUri savePath peerId stack) := by
  rw [torrentMgrAddMagnet]
  cases magnetHash magnetUri with
  | none => exact ⟨fun _ => rfl, fun h => absurd h Bool.false_ne_true⟩
  | some xt =>
    have hadd := added_torrentMgrAdd (m := m) (magnetTorrent (hashBytes stack (hashDigits xt))
      (some (magnetName magnetUri (hashDigits xt))) (magnetTrackers 8 magnetUri)) savePath true
      magnetUri peerId
    exact ⟨fun h => hadd.rejected fun h' => h ⟨rfl, h'.2⟩, fun _ hroom => hadd.added trivial hroom⟩

theorem added_torrentMgrAddRaw (data savePath peerId : Bytes) :
    m.Added (torrentParse data).isSome (m.torrentMgrAddRaw data savePath peerId) := by
  rw [torrentMgrAddRaw]
  cases torrentParse data with
  | none => exact ⟨fun _ => rfl, fun h => absurd h Bool.false_ne_true⟩
  | some t =>
    have hadd := added_torrentMgrAdd (m := m) t savePath false [] peerId
    exact ⟨fun h => hadd.rejected fun h' => h ⟨rfl, h'.2⟩, fun _ hroom => hadd.added trivial hroom⟩

/-- Adding a magnet link is an event, if it is not rejected. -/
theorem torrentMgrAddMagnet_eq (magnetUri savePath peerId stack : Bytes) :
    ∃ events : List Event,
      (m.torrentMgrAddMagnet magnetUri savePath peerId stack).2 = m.run events := by
  rw [torrentMgrAddMagnet]
  cases magnetHash magnetUri with
  | none => exact ⟨[], rfl⟩
  | some xt => exact ⟨[.addMagnet _ _ _ magnetUri savePath peerId], rfl⟩

theorem torrentMgrAddRaw_eq {data : Bytes} (hlength : data.length ≤ HTTP_MAX_BODY)
    (savePath peerId : Bytes) :
    ∃ events : List Event, (m.torrentMgrAddRaw data savePath peerId).2 = m.run events :=
  ⟨[.addRaw data savePath peerId], (if_pos hlength).symm⟩

end TorrentMgr

end PS5Torrent
