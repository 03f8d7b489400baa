import Fs123.Common.Bytes
import Fs123.Common.Decimal
import Fs123.Common.Loop
import Fs123.Common.Memory
import Fs123.Common.Transition
import Fs123.Common.StableNodes
import Fs123.Common.Ends
import Fs123.Common.HashRing
import Fs123.Core.Exn
import Fs123.Core.Expiring
import Fs123.Core.ScanInt
import Fs123.Core.ScanIntExact
import Fs123.Core.Numeral
import Fs123.Core.IStream
import Fs123.Core.Netstring
import Fs123.Core.NetstringStream
import Fs123.Core.Crf
import Fs123.Core.HttpHeaders
import Fs123.Core.UcharSpan
import Fs123.Core.SpanBox
import Fs123.Core.UrlEscape
import Fs123.Core.Base64
import Fs123.Core.Stat
import Fs123.Core.StatScan
import Fs123.Core.Threeroe
import Fs123.Client.Reply123
import Fs123.Client.DecodedReply
import Fs123.Codec.Sodium
import Fs123.Codec.ContentCodec
import Fs123.Codec.RoundTrip
import Fs123.Codec.Opened
import Fs123.Codec.DecodeSafety
import Fs123.Client.Getreply
import Fs123.Client.CacheControl
import Fs123.Client.ReplyTimes
import Fs123.Client.CacheImage
import Fs123.Client.DiskcacheRefresh
import Fs123.Common.LowerBound
import Fs123.Common.Terminated
import Fs123.Client.RecentlyRefreshed
import Fs123.Client.BegetDecode
import Fs123.Client.Requests
import Fs123.Server.Libevent
import Fs123.Server.Req
import Fs123.Server.Reply
import Fs123.Server.Layout
import Fs123.Server.Parse
import Fs123.Server.Handed
import Fs123.Server.ParseSpec
import Fs123.Server.DispatchSpec
import Fs123.Server.RequestTransport
import Fs123.Server.ReplySpec
import Fs123.Server.SendSpec
import Fs123.Server.ErrorStatus
import Fs123.Server.EtagRoundTrip
import Fs123.Server.EncryptedOnly
import Fs123.Server.ErrorLeak
import Fs123.Server.ReplyRoundTrip
import Fs123.Server.Capacity
import Fs123.Server.Lifetime
import Fs123.Mount.OpenFileMap
import Fs123.Mount.Watch
import Fs123.Mount.OpenFileSpec
import Fs123.Mount.ScanSteps
import Fs123.Mount.OpenFileRep
import Fs123.Mount.Monitored
import Fs123.Mount.EarlyExpiry
import Fs123.Mount.AttrCache
import Fs123.Mount.Inomap
import Fs123.Mount.InomapCounts
import Fs123.Mount.Beget
import Fs123.Mount.BegetSpec
import Fs123.Mount.Read
import Fs123.Mount.ReadSpec
import Fs123.Mount.ReadFile
import Fs123.Server.PathConfinement
import Fs123.Exportd.CcRules
import Fs123.Exportd.CcRulesConfined
import Fs123.Exportd.MaxAge
import Fs123.Common.Greedy
import Fs123.Common.Leftmost
import Fs123.Exportd.DirChunks
import Fs123.Exportd.DirChunksSpec
import Fs123.Exportd.CcRulesCache
import Fs123.Exportd.AbsentRules
import Fs123.Exportd.Validator
import Fs123.Peer.PeerMap
import Fs123.Peer.ConsistentHashing
import Fs123.Peer.PeerSteps
import Fs123.Peer.PeersAgree
import Fs123.Peer.MulticastMessage
import Fs123.Peer.PeerUrl
import Fs123.Peer.NoCache
import Fs123.Common.DoublyLinked
import Fs123.Core.AddrinfoCache
import Fs123.Core.AddrinfoLru
import Fs123.Core.AddrinfoRuns
import Fs123.Core.Processlines
import Fs123.Core.ElasticThreadpool
import Fs123.Core.ThreadpoolSpec
import Fs123.Common.Blocks
import Fs123.Core.ThreeroeUpdate
import Fs123.Core.Bits
import Fs123.Core.Bloomfilter
import Fs123.Core.CounterBasedEngine
import Fs123.Core.CounterSequence
import Fs123.Peer.PeerReply
import Fs123.Peer.PeerHops
import Fs123.Mount.Readdir
import Fs123.Mount.ReaddirScan
import Fs123.Mount.ReaddirSpec
import Fs123.Mount.ReaddirRuns
import Fs123.Mount.ServedDirectory
import Fs123.Common.Files
import Fs123.Client.CacheProtocol
import Fs123.Mount.PageCache
import Fs123.Mount.Operations
import Fs123.Mount.CloseToOpen
import Fs123.Common.Condvar
import Fs123.Core.ProducerConsumerQueue
import Fs123.Core.PlainThreadpool
import Fs123.Core.ReadThrough
import Fs123.Codec.SharedkeyFiles
import Fs123.Codec.Sharedkeydir
import Fs123.Exportd.EstaleCookie
