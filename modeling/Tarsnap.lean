import Tarsnap.Chunkify.Scans
import Tarsnap.Chunkify.FailingCallback
import Tarsnap.Multitape.History
import Tarsnap.Multitape.Format
import Tarsnap.Multitape.HeaderBuffer
import Tarsnap.Multitape.CheckpointStats
import Tarsnap.Chunks.Read
import Tarsnap.Multitape.Metaindex
import Tarsnap.Multitape.Chunkiter
import Tarsnap.Multitape.Iteration
import Tarsnap.Chunks.Stats
import Tarsnap.Multitape.Fsck
import Tarsnap.Multitape.FsckSafety
import Tarsnap.Multitape.Findinlist
import Tarsnap.Netpacket.Packet
import Tarsnap.Scryptenc.RoundTrip
import Tarsnap.Storage.Responses
import Tarsnap.Storage.Authenticated
import Tarsnap.Ccache.RoundTrip
import Tarsnap.Multitape.Write
import Tarsnap.Netproto.Integrity
import Tarsnap.Tar.Freshness
import Tarsnap.Tar.ReadError
import Tarsnap.Tar.ProcessLinesRuns
import Tarsnap.Network.WriteqRuns
import Tarsnap.Network.Transfers
import Tarsnap.Network.BwlimitRuns
import Tarsnap.Lib.Program
import Tarsnap.Datastruct.PatriciaRuns
import Tarsnap.Datastruct.PtrheapRuns
import Tarsnap.Events.TimerRuns
import Tarsnap.Storage.Flushed
import Tarsnap.Crypto.IntegerCodec
import Tarsnap.Crypto.Pss
import Tarsnap.Crypto.FileRuns
import Tarsnap.Crypto.KeySlotRuns
import Tarsnap.Recrypt.CopyRuns
import Tarsnap.Datastruct.RwhashtabRuns
import Tarsnap.Storage.DirectoryRuns
import Tarsnap.Chunks.DirectoryCommitRuns
import Tarsnap.Chunks.DirectoryCodec
import Tarsnap.Storage.ReadTransparent
import Tarsnap.Chunks.WriteRead
import Tarsnap.Netproto.KeyexchangeRuns
import Tarsnap.Tar.TraversalRuns
import Tarsnap.Keyfile.KeyfileRoundTrip
