import CoreZ.Proofs.Crypto.Sha256
import CoreZ.Proofs.Fs.Ext4.DirMap
import CoreZ.Proofs.Fs.Ext4.JournalAtomicity
import CoreZ.Proofs.Fs.Ext4.JournalMap
import CoreZ.Proofs.Fs.File.Runs
import CoreZ.Proofs.Fs.Ownership
import CoreZ.Proofs.Fs.Rename.Law
import CoreZ.Proofs.Mm.Cow.ForkPermissions
import CoreZ.Proofs.Mm.Cow.Frames
import CoreZ.Proofs.Mm.Cow.WriteXorExec
import CoreZ.Proofs.Mm.Kheap.Payloads
import CoreZ.Proofs.Net.TcpArrivals
import CoreZ.Proofs.Net.TcpWindow
import CoreZ.Proofs.Rbtree.Runs
import CoreZ.Proofs.Sched.Rwlock.Runs
import CoreZ.Proofs.Sched.StopContinue
import CoreZ.Proofs.Sched.Sync
import CoreZ.Proofs.Shell.Pipe
import CoreZ.Proofs.Syscall.Credentials
import CoreZ.Proofs.Syscall.Flock
import CoreZ.Proofs.Syscall.Futex.Runs
import CoreZ.Proofs.Syscall.Futex.Timeout
import CoreZ.Proofs.Syscall.NativePointers
import CoreZ.Proofs.Syscall.SignalRoundTrip
import CoreZ.Proofs.Syscall.UnixSocket
import CoreZ.Proofs.Userprog.CloneFails
import CoreZ.Proofs.Userprog.FreshImage
