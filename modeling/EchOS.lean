import EchOS.Boot.Attempts
import EchOS.Boot.Promotion
import EchOS.Compression.DeflateStream
import EchOS.Ebpf.Forward
import EchOS.Fs.Ext4ReadBack
import EchOS.Fs.FatIntegrity
import EchOS.Fs.FileLockDeadlock
import EchOS.Fs.FileLockRange
import EchOS.Fs.JournalRecovery
import EchOS.Memory.BitmapPmmHistory
import EchOS.Memory.BootFrames
import EchOS.Memory.BuddyRequest
import EchOS.Memory.BuddyTiling
import EchOS.Memory.FrameRelease
import EchOS.Memory.RefCacheDrain
import EchOS.Memory.RefCacheMerge
import EchOS.Memory.VmaExclusion
import EchOS.Memory.VmaLinks
import EchOS.Memory.VmaOverlap
import EchOS.Net.EbpfHistory
import EchOS.Net.IpsecReplay
import EchOS.Net.ReassemblyGenuine
import EchOS.Net.RoutingLookup
import EchOS.Net.TcpFields
import EchOS.Net.WireGuardAuth
import EchOS.Net.WireGuardTransport
import EchOS.Security.CapabilityAuthority
import EchOS.Security.CapabilityIsolation
import EchOS.Security.Seccomp
import EchOS.Security.TufChain
import EchOS.Task.DequeSafe
import EchOS.Task.FutexWakeup
import EchOS.Task.TimerWakes
import EchOS.Ebpf.StackBytes
import EchOS.Net.EbpfPaths
import EchOS.Fs.Jbd2Transactions
import EchOS.Update.Apply
import EchOS.Update.Stage
import EchOS.Fs.Ext4Indirect
import EchOS.Fs.Ext4Insertion
