import Libobject.Archive.SevenZip
import Libobject.Archive.SevenZipHeader
import Libobject.Archive.SevenZipMap
import Libobject.Archive.SevenZipNumber
import Libobject.Archive.SevenZipParse
import Libobject.Archive.SevenZipSafe
import Libobject.Archive.SquashfsOpen
import Libobject.Archive.SquashfsPending
import Libobject.Archive.SquashfsRead
import Libobject.Archive.SquashfsSave
import Libobject.Archive.SquashfsTree
import Libobject.Archive.SquashfsWrite
import Libobject.Archive.Tar
import Libobject.Archive.TarEnd
import Libobject.Argument.Command
import Libobject.BigNumber.Add
import Libobject.BigNumber.Basic
import Libobject.BigNumber.Div
import Libobject.BigNumber.Guess
import Libobject.BigNumber.Mul
import Libobject.BigNumber.Quotient
import Libobject.BigNumber.Sub
import Libobject.Board.EepromStorage
import Libobject.Board.Mtd
import Libobject.Bus.Framing
import Libobject.Bus.Invoke
import Libobject.Bus.Objects
import Libobject.Bus.Receive
import Libobject.Concurrent.Message
import Libobject.Concurrent.ServerPool
import Libobject.Core.Blob
import Libobject.Core.BlobParse
import Libobject.Core.BlobTree
import Libobject.Core.BlobWriter
import Libobject.Core.BufferSearch
import Libobject.Core.CjsonParse
import Libobject.Core.CommaSpaces
import Libobject.Core.Config
import Libobject.Core.CtrAlloc
import Libobject.Core.DateTime
import Libobject.Core.DirectoryWalk
import Libobject.Core.File
import Libobject.Core.FileSystem
import Libobject.Core.HashMap
import Libobject.Core.Heap
import Libobject.Core.IntervalTree
import Libobject.Core.IoBuffer
import Libobject.Core.LinkedList
import Libobject.Core.ListHead
import Libobject.Core.NTree
import Libobject.Core.Object
import Libobject.Core.OwnedMap
import Libobject.Core.RbTreeMap
import Libobject.Core.Rbmap
import Libobject.Core.Rbuf
import Libobject.Core.RingBuffer
import Libobject.Core.RingQueue
import Libobject.Core.RingSearch
import Libobject.Core.String
import Libobject.Core.StringFind
import Libobject.Core.StringReplace
import Libobject.Core.StringUtils
import Libobject.Core.Trie
import Libobject.Core.Vector
import Libobject.Core.VectorJson
import Libobject.Core.VectorMove
import Libobject.Core.VectorReset
import Libobject.Core.VectorSort
import Libobject.Crypto.Aes
import Libobject.Crypto.AesRound
import Libobject.Crypto.RoundTrip
import Libobject.Crypto.Skcipher
import Libobject.Database.Merge
import Libobject.Database.OrmConn
import Libobject.Database.Query
import Libobject.Encoding.Base64
import Libobject.Encoding.Crc32
import Libobject.Encoding.Crc32Errors
import Libobject.Encoding.Crc64
import Libobject.Encoding.Digest
import Libobject.Event.Base
import Libobject.Event.Registry
import Libobject.Event.Timer
import Libobject.Http.Containment
import Libobject.Http.Dispatch
import Libobject.Http.FileSend
import Libobject.Http.Forms
import Libobject.Http.Multipart
import Libobject.Http.Range
import Libobject.Http.Request
import Libobject.Http.Server
import Libobject.Http.Streaming
import Libobject.Http.Text
import Libobject.Lib.Assoc
import Libobject.Lib.BlockCipher
import Libobject.Lib.BlockHash
import Libobject.Lib.Buffer
import Libobject.Lib.Bytes
import Libobject.Lib.Calendar
import Libobject.Lib.Crc
import Libobject.Lib.Decimal
import Libobject.Lib.Digits
import Libobject.Lib.Forest
import Libobject.Lib.HeapOrder
import Libobject.Lib.Json
import Libobject.Lib.Lease
import Libobject.Lib.Machine
import Libobject.Lib.Matches
import Libobject.Lib.NameTree
import Libobject.Lib.Occurs
import Libobject.Lib.Octal
import Libobject.Lib.Paths
import Libobject.Lib.Program
import Libobject.Lib.Refine
import Libobject.Lib.Residual
import Libobject.Lib.Rfc4648
import Libobject.Lib.Ring
import Libobject.Lib.Rose
import Libobject.Lib.RoundCipher
import Libobject.Lib.Ruler
import Libobject.Lib.Run
import Libobject.Lib.Scan
import Libobject.Lib.SearchTree
import Libobject.Lib.SqlText
import Libobject.Lib.StableSort
import Libobject.Lib.Stride
import Libobject.Lib.Tlv
import Libobject.Lib.Touching
import Libobject.Lib.TreeCursor
import Libobject.Lib.X86
import Libobject.Net.Url
import Libobject.Net.UrlParts
import Libobject.Node.Fetching
import Libobject.Node.Memory
import Libobject.Node.Sending
import Libobject.Node.Transfer
import Libobject.P2p.Agreement
import Libobject.P2p.Rendezvous
import Libobject.P2p.Server
import Libobject.P2p.Signal
import Libobject.Scripts.FShell
import Libobject.Stub.Call
import Libobject.Stub.Hooks
import Libobject.Stub.Pool
import Libobject.Stun.Bounds
import Libobject.Stun.Client
import Libobject.Stun.Dialogue
import Libobject.Stun.Frames
import Libobject.Stun.Freshness
import Libobject.Stun.Message
import Libobject.Stun.Ports
import Libobject.Stun.Probe
import Libobject.Stun.Receiver
import Libobject.Stun.Request
import Libobject.Stun.Response
import Libobject.Turn.Bounds
import Libobject.Turn.Request
import Libobject.Turn.Response
import Libobject.Vpn.Control
import Libobject.Vpn.Ctx
import Libobject.Vpn.Exchange
import Libobject.Vpn.Net
import Libobject.Vpn.Pick
import Libobject.Vpn.Pool
import Libobject.Vpn.Text
import Libobject.Vpn.View
