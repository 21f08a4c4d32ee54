import Lestra.Mm.PmmAccounting
import Lestra.Mm.HeapRuns
import Lestra.Mm.VmmUser
import Lestra.Mm.Teardown
import Lestra.Syscall.Brk
import Lestra.Sched.Privilege
import Lestra.Sched.Running
import Lestra.Sched.Orphans
import Lestra.Syscall.Waitpid
import Lestra.Syscall.Duplicates
import Lestra.Exec.PipeStream
import Lestra.Syscall.PipeOwners
import Lestra.Exec.PipeWakeup
import Lestra.Exec.FutexLaw
import Lestra.Exec.SignalLaw
import Lestra.Syscall.OneName
import Lestra.Fs.FileIo
import Lestra.Lib.ByteBuf
import Lestra.Lib.ParentTree
import Lestra.Fs.MemfsTree
import Lestra.Fs.TreeRuns
import Lestra.Fs.JailPath
import Lestra.Fs.Jail
import Lestra.Syscall.Chroot
import Lestra.Fs.OpenFiles
import Lestra.Fs.Tmpfs
import Lestra.Fs.TmpfsHandles
import Lestra.Lib.ByteFile
import Lestra.Fs.Contents
import Lestra.Fs.TmpfsContents
import Lestra.Lib.LittleEndian
import Lestra.Fs.Initrd
import Lestra.Fs.Routing
import Lestra.Net.Tcp
import Lestra.Net.TcpFamilies
import Lestra.Net.TcpStream
import Lestra.Lib.HandOut
import Lestra.Net.TcpDemux
import Lestra.Lib.SeqWindow
import Lestra.Net.TcpResend
import Lestra.Net.Firewall
import Lestra.Fs.Tarfs
import Lestra.Fs.TarArchive
import Lestra.Lib.Bitmap
import Lestra.Fs.Ext2Alloc
import Lestra.Lib.BigEndian
import Lestra.Net.Rsa
import Lestra.Lib.Sha256
import Lestra.Net.Sha256
import Lestra.Lib.Hmac
import Lestra.Net.Prf
import Lestra.Net.Tls
import Lestra.Net.TlsNonces
import Lestra.Lib.Aes
import Lestra.Lib.Gcm
import Lestra.Net.AesGcm
import Lestra.Net.Dns
import Lestra.Mm.BitmapCapacity
import Lestra.Mm.UsableOnly
import Lestra.Mm.HeapCoalesce
import Lestra.Sys.CronDue
import Lestra.Libc.Stdlib
import Lestra.Libc.MallocRuns
import Lestra.Drivers.Pty
import Lestra.Drivers.PtyOutput
import Lestra.Drivers.PtyWakeup
import Lestra.Drivers.PtyInput
import Lestra.Drivers.PtyDiscipline
import Lestra.Sched.Priority
import Lestra.Mm.HeapRoom
import Lestra.Lib.Packed
import Lestra.Syscall.Argvec
import Lestra.Syscall.ExecArgs
import Lestra.Syscall.Getdents
import Lestra.Exec.SignalFrame
import Lestra.Mm.PageFault
import Lestra.Mm.VmmView
import Lestra.Mm.FaultLaw
import Lestra.Mm.StackGrowth
import Lestra.Mm.UserPerms
import Lestra.Mm.VmmRange
import Lestra.Syscall.Mmap
import Lestra.Exec.Elf
import Lestra.Syscall.Poll
import Lestra.Fs.Fat32Dirent
import Lestra.Fs.Ext2Disk
import Lestra.Fs.SizeBound
import Lestra.Fs.Ext2Map
import Lestra.Fs.Ext2Dir
import Lestra.Fs.Ext2Slots
import Lestra.Fs.Ext2Write
import Lestra.Fs.Ext2Rewrite
import Lestra.Fs.TarfsBounds
import Lestra.Lib.OnesComplement
import Lestra.Net.Checksum
import Lestra.Net.Ipv4Payload
import Lestra.Lib.Orbit
import Lestra.Net.DnsWalk
import Lestra.Net.DnsCodec
import Lestra.Net.Ipv6Text
import Lestra.Net.Ipv6Format
import Lestra.Net.Dhcp
import Lestra.Net.SocketPair
import Lestra.Net.AesGcmOpen
import Lestra.Net.TlsBounds
import Lestra.Net.P256
import Lestra.Net.Reduction
import Lestra.Net.P256Point
import Lestra.Lib.Fallible
import Lestra.Net.X509
import Lestra.Net.X509Bounds
import Lestra.Net.X509Keys
import Lestra.Lib.Fields
import Lestra.Sys.CronGrammar
import Lestra.Libc.SizeLaw
import Lestra.Lib.Sink
import Lestra.Lib.VarArgs
import Lestra.Libc.Stdio
import Lestra.Libc.StdioText
import Lestra.Core.Printk
import Lestra.Core.FormatsAgree
import Lestra.Lib.Halting
import Lestra.Sys.SshWire
import Lestra.Sys.SshPacket
import Lestra.Sys.SshSession
import Lestra.Sys.SshKex
import Lestra.Sys.SshActs
import Lestra.Sys.SshOutput
import Lestra.Sys.SshServer
import Lestra.Sys.SshSafety
import Lestra.Libc.Streams
import Lestra.Libc.StreamFlow
