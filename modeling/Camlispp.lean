import Camlispp.Library.Bytes
import Camlispp.Library.OrdMap
import Camlispp.Library.Peg
import Camlispp.Library.Paths
import Camlispp.Library.Paging
import Camlispp.Library.Avoids
import Camlispp.Library.Machine
import Camlispp.Library.Walk
import Camlispp.Library.Runs
import Camlispp.Library.Gossip
import Camlispp.Library.Actions
import Camlispp.Store.BlobKey
import Camlispp.Store.BlobIndex
import Camlispp.Store.ContentAddressing
import Camlispp.Store.History
import Camlispp.Store.Archive
import Camlispp.Store.Immutability
import Camlispp.Store.Paginate
import Camlispp.Store.Siblings
import Camlispp.Multipart.Grammar
import Camlispp.Multipart.FormData
import Camlispp.Multipart.Encoding
import Camlispp.Multipart.ContentType
import Camlispp.Multipart.Payload
import Camlispp.Multipart.Parameters
import Camlispp.Multipart.Splitting
import Camlispp.Http.Message
import Camlispp.Http.RequestParser
import Camlispp.Http.RequestGrammar
import Camlispp.Http.Numbers
import Camlispp.Http.ParserInvariant
import Camlispp.Server.Upload
import Camlispp.Server.Json
import Camlispp.Json.Escapes
import Camlispp.Json.Reader
import Camlispp.Json.Meaning
import Camlispp.Json.Grammar
import Camlispp.Json.RoundTrip
import Camlispp.Server.Query
import Camlispp.Server.Handler
import Camlispp.Server.Routing
import Camlispp.Server.Containment
import Camlispp.Server.Escapes
import Camlispp.Server.Replica
import Camlispp.Server.Threads
import Camlispp.Sync.Wire
import Camlispp.Sync.Enumeration
import Camlispp.Sync.Host
import Camlispp.Sync.Pull
import Camlispp.Sync.Push
import Camlispp.Sync.Numbering
import Camlispp.Sync.Reply
import Camlispp.Daemon.Run
import Camlispp.Sync.Termination
import Camlispp.Sync.Slash
import Camlispp.Sync.Exchange
import Camlispp.Sync.Network
import Camlispp.Daemon.Provenance
import Camlispp.Client.Views
import Camlispp.Client.Stat
import Camlispp.Library.BitStream
import Camlispp.Library.Gzip
import Camlispp.Zopfli.Block
import Camlispp.Zopfli.BlockSplit
import Camlispp.Zopfli.Containers
