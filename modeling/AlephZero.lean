import AlephZero.Cmp.Orders
import AlephZero.Deadman.Busy
import AlephZero.Deadman.Tenure
import AlephZero.Deadman.Wake
import AlephZero.Deadman.Shutdown
import AlephZero.Discovery.Announce
import AlephZero.Event
import AlephZero.File.Opening
import AlephZero.Latch
import AlephZero.Log
import AlephZero.Map.Fallible
import AlephZero.Map.Probing
import AlephZero.Packet.DeepCopy
import AlephZero.Packet.Flat
import AlephZero.Pathglob.InBounds
import AlephZero.Pathglob.Match
import AlephZero.Pathglob.Split
import AlephZero.Rand
import AlephZero.Reader.Agreement
import AlephZero.Reader.CanRead
import AlephZero.Reader.Close
import AlephZero.Reader.Config
import AlephZero.Reader.PubSub
import AlephZero.Reader.RandomAccess
import AlephZero.RefCnt
import AlephZero.Robust.Cnd
import AlephZero.Robust.Forks
import AlephZero.Rpc.Bounds
import AlephZero.Rpc.Residue
import AlephZero.Strconv.RoundTrip
import AlephZero.Tid
import AlephZero.Time.Add
import AlephZero.Time.Mono
import AlephZero.Time.Wall
import AlephZero.TopicPath
import AlephZero.Transport.Eviction
import AlephZero.Transport.Iteration
import AlephZero.Transport.Modes
import AlephZero.Transport.Opening
import AlephZero.Transport.Relock
import AlephZero.Transport.Shutdown
import AlephZero.Transport.UsedSpace
import AlephZero.Transport.Wait
import AlephZero.Transport.Wakeup
import AlephZero.Uuid
import AlephZero.Writer.Config
import AlephZero.Writer.Election
import AlephZero.Writer.Flatten
import AlephZero.Writer.Numbering
import AlephZero.Writer.Release
