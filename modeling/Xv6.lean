import Xv6.Log.GroupCommit
import Xv6.Log.Capacity
import Xv6.Log.Crash
import Xv6.Proc.Locks
import Xv6.Proc.Monitor
import Xv6.Fs.Quota
import Xv6.Fs.Unlinked
import Xv6.Fs.Operations
import Xv6.Pipe.Stream
import Xv6.Pipe.Wakeup
import Xv6.Proc.Scan
import Xv6.Exec.Guarantees
import Xv6.Mkfs.Lookup
import Xv6.Fs.Offset
import Xv6.Syscall.ReadWrite
import Xv6.Proc.Accounts
import Xv6.Proc.SysSleep
import Xv6.Console.Discipline
import Xv6.Buf.Ide
import Xv6.Buf.Pool
import Xv6.Memmove
import Xv6.Syscall.Growproc
import Xv6.Mp
import Xv6.Proc.Interrupts
import Xv6.Sh.Accepts
import Xv6.User.MallocSize
import Xv6.User.Match
import Xv6.User.Chmod
import Xv6.Sh.Builtin
import Xv6.Kalloc
