import PS5Torrent.HttpServer.UrlCoding
import PS5Torrent.Numerals
import PS5Torrent.TorrentMgr.State

/-!
# Trackers

Where `tracker_announce` (`tracker.c`) and `tracker_announce_udp`
(`tracker_udp.c`) connect to for the URL of a tracker. The resolution of names
is given: a host that cannot be resolved is not connected to.
-/

namespace PS5Torrent

/-- `tracker_params_t` -/
structure TrackerParams where
  infoHash : Bytes
  peerId : Bytes
  port : ℕ
  uploaded : ℤ
  downloaded : ℤ
  left : ℤ
  compact : Bool

/-- The request of `tracker_announce`. -/
def announceRequest (params : TrackerParams) (path host : Bytes) : Bytes :=
  lit "GET " ++ path ++ (if chr '?' ∈ path then lit "&" else lit "?") ++
    lit "info_hash=" ++ netUrlEncode params.infoHash ++
    lit "&peer_id=" ++ netUrlEncode params.peerId ++
    lit "&port=" ++ Decimal.print params.port ++
    lit "&uploaded=" ++ printInt params.uploaded ++
    lit "&downloaded=" ++ printInt params.downloaded ++
    lit "&left=" ++ printInt params.left ++
    lit "&compact=" ++ printInt (if params.compact then 1 else 0) ++
    lit "&numwant=" ++ printInt MAX_TRACKER_PEERS ++
    lit " HTTP/1.0\r\nHost: " ++ host ++
    lit "\r\nUser-Agent: PS5Torrent/1.0\r\nConnection: close\r\n\r\n"

/-- The digits of a port, accumulated in an `int`, up to the first character that is none. -/
def scanPort : Bytes → ℤ → ℤ
  | [], port => port
  | c :: s, port =>
    if Decimal.isDigit c then scanPort s (toInt32 (port * 10 + (c.toNat - (chr '0').toNat))) else port

/-- The host and the port, as a `uint16_t`, that `tracker_announce` connects to for an `http://`
    URL. -/
def trackerConnection (resolve : Bytes → Option ℕ) (params : TrackerParams) (url : Bytes) :
    Option (Bytes × ℕ) :=
  if !(lit "http://").isPrefixOf url then none
  else
    let start := url.drop 7
    let authority := start.takeWhile (· ≠ chr '/')
    let path := start.dropWhile (· ≠ chr '/')
    let host := authority.takeWhile (· ≠ chr ':')
    let port :=
      if chr ':' ∈ authority then scanPort (authority.dropWhile (· ≠ chr ':')).tail 0 else 80
    if path = [] then none
    else if host.length ≥ 256 then none
    else if (announceRequest params path host).length ≥ 4096 then none
    else (resolve host).map fun _ => (host, (port % 2 ^ 16).toNat)

/-- The host and the port that `tracker_announce_udp` connects to. -/
def udpConnection (resolve : Bytes → Option ℕ) (url : Bytes) : Option (Bytes × ℕ) :=
  if !(lit "udp://").isPrefixOf url then none
  else
    let start := url.drop 6
    let host := start.takeWhile (· ≠ chr ':')
    let text := (start.dropWhile (· ≠ chr ':')).tail
    if chr ':' ∉ start ∨ host = [] ∨ host.length ≥ 256 then none
    else if (strtol text).2 = text ∨
        ((strtol text).2 ≠ [] ∧ (strtol text).2.head? ≠ some (chr '/')) ∨
        (strtol text).1 < 1 ∨ (strtol text).1 > 65535 then none
    else (resolve host).map fun _ => (host, (strtol text).1.toNat)

/-- The host and the port that `http_fetch_range` connects to. -/
def webSeedConnection (resolve : Bytes → Option ℕ) (url : Bytes) : Option (Bytes × ℕ) :=
  (parseHttpUrl url 256).bind fun target =>
    (resolve target.1).map fun _ => (target.1, (target.2.1 % 2 ^ 16).toNat)

end PS5Torrent
