import PS5Torrent.Basic
import PS5Torrent.Bencode.Accesses
import PS5Torrent.Bencode.RoundTrip
import PS5Torrent.Sha1.Contexts
import PS5Torrent.Torrent.InfoHash
import PS5Torrent.Torrent.NoOverflow
import PS5Torrent.FileIo.Writes
import PS5Torrent.FileIo.Paths
import PS5Torrent.WebSeed.Pieces
import PS5Torrent.WebSeed.UrlPath
import PS5Torrent.HttpServer.Multipart
import PS5Torrent.PeerWire.Frames
import PS5Torrent.PeerWire.Handshake
import PS5Torrent.TileState
import PS5Torrent.TorrentMgr.Holders
import PS5Torrent.TorrentMgr.Assembly
import PS5Torrent.TorrentMgr.Transfer
import PS5Torrent.TorrentMgr.Connections
import PS5Torrent.TorrentMgr.Resources
import PS5Torrent.TorrentMgr.Cooldown
import PS5Torrent.TorrentMgr.Announces
import PS5Torrent.TorrentMgr.Discovery
import PS5Torrent.TorrentMgr.Sources
import PS5Torrent.TorrentMgr.Disk
import PS5Torrent.TorrentMgr.Results
import PS5Torrent.TorrentMgr.Delivery
import PS5Torrent.TorrentMgr.MagnetLinks
import PS5Torrent.TorrentMgr.Completed
import PS5Torrent.Main.Replies
import PS5Torrent.Main.StaleId
import PS5Torrent.Main.Panel
import PS5Torrent.ConsoleFiles.Pages
import PS5Torrent.Main.Escapers
import PS5Torrent.AppLog
import PS5Torrent.Tracker.Urls
import PS5Torrent.Tracker.Exchange
import PS5Torrent.TorrentMgr.Candidates
import PS5Torrent.HttpServer.Decoding
import PS5Torrent.FileIo.Kept
import PS5Torrent.HttpServer.Parse
import PS5Torrent.HttpServer.Poll
import PS5Torrent.Library.Records
import PS5Torrent.Main.Loop
import PS5Torrent.Torrent.Publish
import PS5Torrent.TorrentMgr.Published
import PS5Torrent.TorrentMgr.Verified
import PS5Torrent.Tracker.Http
