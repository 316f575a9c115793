import Levos.Base.Run
import Levos.Lib.Bitmap
import Levos.Lib.HashTable
import Levos.Lib.Ring
import Levos.Lib.LinkedList
import Levos.Fs.Ext2.BlockMap
import Levos.Fs.Ext2.DirAccounting
import Levos.Fs.Ext2.DiskFull
import Levos.Fs.Ext2.Filldir
import Levos.Fs.Ext2.PathWalk
import Levos.Fs.Ext2.Resolve
import Levos.Fs.Ext2.InodeTable
import Levos.Fs.Ext2.DirAdd
import Levos.Fs.Mounts
import Levos.Fs.PathName
import Levos.Fs.Procfs
import Levos.Kernel.SigKill
import Levos.Kernel.SigFrame
import Levos.Kernel.SigDisp
import Levos.Kernel.PickTask
import Levos.Kernel.Schedule
import Levos.Kernel.Pipe
import Levos.Kernel.ExitStatus
import Levos.Kernel.WaitRace
import Levos.Kernel.WaitLists
import Levos.Kernel.ProcTree
import Levos.Kernel.WorkCancel
import Levos.Kernel.Alarm
import Levos.Kernel.CloseOnExec
import Levos.Kernel.FdErrors
import Levos.Kernel.ElfSafe
import Levos.Kernel.ArgsStack
import Levos.Kernel.BrkBounds
import Levos.Kernel.Lseek
import Levos.Mm.Cow
import Levos.Mm.KernelHalf
import Levos.Mm.VerifyBuffer
import Levos.Mm.HeapZero
import Levos.Mm.PallocReinit
import Levos.Mm.Mapping
import Levos.Net.TcpStream
import Levos.Net.TcpConnect
import Levos.Net.UdpTable
import Levos.Net.Demux
import Levos.Net.Ports
import Levos.Net.Udp
import Levos.Net.PortUse
import Levos.Net.PacketQueue
import Levos.Net.ArpCache
import Levos.Net.Frame
import Levos.Net.Route
import Levos.Net.Dhcp
import Levos.Net.Icmp
import Levos.Lib.ItoaBuffers
import Levos.Dev.AnsiTokens
import Levos.Dev.ConsoleLayout
import Levos.Dev.LineEditor
import Levos.Dev.TtyEof
import Levos.Dev.Keyboard
import Levos.Lib.HashIterator
import Levos.Dev.Rtc
import Levos.Net.Delivery
import Levos.Fs.Ext2.Volume
import Levos.Net.RetransmitSound
import Levos.Net.RetransmitStop
import Levos.Base.Reassembly
import Levos.Net.TcpSegment
import Levos.Net.TcpSend
