import Argentum.Agfs.TxCache
import Argentum.Agfs.TxIsolation
import Argentum.Agfs.LockOrder
import Argentum.Agfs.Discard
import Argentum.Agfs.SuperRecovery
import Argentum.Agfs.FileContent
import Argentum.Agfs.Indices
import Argentum.Agfs.DirTree
import Argentum.Kernel.AclPermission
import Argentum.Fs.DirtyList
import Argentum.Mm.AddressView
import Argentum.Mm.ForkIsolation
import Argentum.Mm.PageIn
import Argentum.Kernel.Futex
import Argentum.Kernel.Sched
import Argentum.Kernel.SignalFrames
import Argentum.Fs.Locks
import Argentum.Kernel.WaitProtocol
import Argentum.Fs.Pipe
import Argentum.Agfs.Allocator
import Argentum.Agfs.Append
import Argentum.Agfs.Deletion
import Argentum.Sterling.ReadBack
import Argentum.Agfs.BTree.Journalled
import Argentum.Agfs.Query.Pattern
import Argentum.Agfs.InlineTail
import Argentum.Agfs.BTree.Listing
import Argentum.Agfs.Symlink
import Argentum.Userland.Decimal
