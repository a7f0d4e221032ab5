import Icecast.Lib.Machine
import Icecast.Lib.Interleave
import Icecast.Lib.MachineInt
import Icecast.Lib.Socket
import Icecast.Lib.LinkedList
import Icecast.Lib.LinkQueue
import Icecast.Lib.Heap
import Icecast.Lib.Checked
import Icecast.Lib.Decimal
import Icecast.Lib.OrderedMap
import Icecast.Lib.Overlap
import Icecast.Lib.Workers
import Icecast.Lib.CString
import Icecast.Lib.Lines
import Icecast.Lib.Framing
import Icecast.Lib.RuleList
import Icecast.Lib.SearchTree
import Icecast.Lib.Snprintf
import Icecast.Lib.Base64
import Icecast.Lib.BigEndian
import Icecast.Lib.BlockHash
import Icecast.Lib.Broadcast
import Icecast.Lib.SharedList
import Icecast.Lib.TextLines
import Icecast.Lib.Highest
import Icecast.Lib.Slots
import Icecast.Source.Queue
import Icecast.Source.QueueInvariant
import Icecast.Source.BurstStart
import Icecast.Source.Lagging
import Icecast.Source.Broadcasting
import Icecast.Source.Listeners
import Icecast.Source.ListenerStat
import Icecast.Source.ListenerCount
import Icecast.Source.Activation
import Icecast.Source.ActivationInvariant
import Icecast.Format.Mp3Sender
import Icecast.Format.Mp3Framing
import Icecast.Format.OggSender
import Icecast.Format.EbmlSender
import Icecast.Format.EbmlBounds
import Icecast.Format.EbmlElements
import Icecast.Format.EbmlKeyframes
import Icecast.Format.EbmlNumbers
import Icecast.Format.EbmlMemory
import Icecast.Format.EbmlParser
import Icecast.Format.EbmlPassthrough
import Icecast.Format.EbmlProgress
import Icecast.Format.EbmlSyncPoints
import Icecast.Format.Mp3Reader
import Icecast.Format.Mp3Demux
import Icecast.Format.Mp3Relay
import Icecast.Auth.Stack
import Icecast.Auth.SharedStacks
import Icecast.Auth.Decision
import Icecast.Auth.ConfigParser
import Icecast.Auth.Outcome
import Icecast.Auth.Threads
import Icecast.Auth.ThreadRuns
import Icecast.Client.Lifecycle
import Icecast.Client.LifecycleInvariant
import Icecast.Connection.ListenSockets
import Icecast.Connection.Reuse
import Icecast.Connection.RequestQueue
import Icecast.Connection.Shoutcast
import Icecast.Connection.HeaderSplit
import Icecast.Util.Base64
import Icecast.Util.Base64Encode
import Icecast.Util.Md5
import Icecast.Util.ResponseHeader
import Icecast.Util.AcceptParser
import Icecast.Util.AcceptTokens
import Icecast.Util.AcceptHeader
import Icecast.Util.AcceptRoundTrip
import Icecast.Util.AcceptBest
import Icecast.Util.Uri
import Icecast.Util.UrlEscape
import Icecast.Source.Mounts
import Icecast.Source.Delivery
import Icecast.Source.Moving
import Icecast.Source.Fallbacks
import Icecast.Source.FormatData
import Icecast.Source.SharedBuffers
import Icecast.Source.PluginWrites
import Icecast.Source.ListenerPass
import Icecast.Source.Ownership
import Icecast.Source.StopRequest
import Icecast.Admin.Dispatch
import Icecast.Admin.KillClient
import Icecast.Auth.AccessControl
import Icecast.Auth.Htpasswd
import Icecast.Auth.HtpasswdAdd
import Icecast.Auth.PasswordHash
import Icecast.Connection.UserLimit
import Icecast.Connection.MatchFile
import Icecast.Event.Exec
import Icecast.Event.Queue
import Icecast.Event.QueueInvariant
import Icecast.Xslt.StylesheetCache
import Icecast.Source.DumpFile
import Icecast.Connection.Admission
import Icecast.Auth.UrlPost
import Icecast.Auth.LegacyUrl
import Icecast.Format.OggHeaders
import Icecast.Format.OggHeaderCounts
import Icecast.Format.OggHeaderOrder
import Icecast.Format.Comments
import Icecast.Format.ListenerHeaders
import Icecast.Format.OggCodecs
import Icecast.Format.OpusTags
import Icecast.Format.VorbisRebuild
import Icecast.Format.VorbisPackets
import Icecast.Format.VorbisRun
import Icecast.Format.Mp3Metadata
import Icecast.Format.Mp3TitleBlock
import Icecast.Format.Mp3InlineUrl
import Icecast.Stats.Events
import Icecast.Stats.Replica
import Icecast.Stats.Streamlist
import Icecast.Stats.Dump
import Icecast.Stats.Counters
import Icecast.Yp.Entry
import Icecast.Yp.Session
import Icecast.Yp.Directory
import Icecast.Yp.Announcements
import Icecast.Fserve.Delivery
import Icecast.Fserve.Range
import Icecast.Fserve.ServingThread
import Icecast.Fserve.MimeTypes
import Icecast.Slave.Relays
import Icecast.Slave.RelaySettings
import Icecast.Auth.HtpasswdDelete
