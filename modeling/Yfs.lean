import Yfs.Lock.Correct
import Yfs.Extent.Correct
import Yfs.Rpc.AtMostOnce
import Yfs.Rpc.Forgotten
import Yfs.Machine.Serial
import Yfs.Extent.Concurrent
import Yfs.Client.Dir
import Yfs.Client.Ops
import Yfs.Client.System
import Yfs.Machine.Discipline
import Yfs.Client.Linear
import Yfs.Client.Running
import Yfs.Client.Unlink
import Yfs.Client.Alone
import Yfs.Client.Directory
import Yfs.Machine.Tree
import Yfs.Client.Namespace
import Yfs.Client.Failure
import Yfs.Lock.Plain
import Yfs.Lock.Queue
import Yfs.Lock.Pool
import Yfs.Machine.Bytes
import Yfs.Machine.OrderedMap
import Yfs.Rpc.Wire
import Yfs.Rpc.Marshall
import Yfs.Rpc.Unmarshall
import Yfs.Rpc.Message
import Yfs.Rpc.References
import Yfs.Client.Entries
import Yfs.Lock.Resend
import Yfs.Lock.Spurious
import Yfs.Lock.Tester
import Yfs.Extent.Limits
import Yfs.Extent.Missing
import Yfs.Extent.Times
import Yfs.Client.EndToEnd
import Yfs.Client.Promise
import Yfs.Client.DirectoryOnDisk
import Yfs.Client.Fuse
import Yfs.Extent.Bitmap
import Yfs.Rpc.Acknowledged
import Yfs.Rpc.Buffer
import Yfs.Machine.Holders
import Yfs.Rpc.Deadline
import Yfs.Rpc.Handle
import Yfs.Client.Deployed
import Yfs.Client.DeployedCorrect
import Yfs.Machine.Monitor
import Yfs.Rpc.Fifo
import Yfs.Rpc.Calls
import Yfs.Rpc.Stub
import Yfs.Client.Wired
import Yfs.Machine.Paging
import Yfs.Client.Mount
import Yfs.Client.Listing
import Yfs.Client.Stack
