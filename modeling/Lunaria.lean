import Lunaria.Vm.PageTable
import Lunaria.Mmap.Outstanding
import Lunaria.Guest.CondSafe
import Lunaria.Guest.Once
import Lunaria.Dvm.GilSafe
import Lunaria.Dvm.MonitorOwner
import Lunaria.Dvm.MonitorNotify
import Lunaria.Dvm.InterpThrow
import Lunaria.Dvm.CharsetStream
import Lunaria.Dvm.CharsetEncode
import Lunaria.Dvm.CalendarExact
import Lunaria.Dvm.DexText
import Lunaria.Dvm.DexValue
import Lunaria.Dvm.DexData
import Lunaria.Dvm.DexIndex
import Lunaria.Dvm.Resolve
import Lunaria.Dvm.UriRound
import Lunaria.Media.Order
import Lunaria.Media.Pictures
import Lunaria.Binary128.Correct
import Lunaria.Apk.InstallRun
import Lunaria.Ipc.Delivery
import Lunaria.Arm.LockFair
import Lunaria.Regex.CacheSafe
import Lunaria.Regex.Ends
import Lunaria.Regex.Restore
import Lunaria.Regex.Quoted
import Lunaria.Regex.Compiled
import Lunaria.Idn.ConvertStable
import Lunaria.Unicode.Marks
import Lunaria.Dvm.InternCanon
import Lunaria.Dvm.AssignJava
import Lunaria.Dvm.Marshal
import Lunaria.Dvm.Transparent
import Lunaria.Regex.ClassText
import Lunaria.Input.Touch
import Lunaria.Input.KeymapPieces
import Lunaria.Apk.Paths
import Lunaria.Apk.Launcher
import Lunaria.Apk.Restart
import Lunaria.Apk.SavedConfig
import Lunaria.Binary128.Prefix
import Lunaria.Mmap.FreeSet
import Lunaria.Vm.AccessFault
import Lunaria.Linker.FindSafe
import Lunaria.Linker.FindAgree
import Lunaria.Linker.Scope
import Lunaria.Linker.InitOrder
import Lunaria.Os.DeadlineHeap
import Lunaria.Os.TimersDue
import Lunaria.Jvm.LogBuffer
import Lunaria.Media.ImageQueueRuns
import Lunaria.Media.AudioPlay
import Lunaria.Dvm.AlarmRuns
import Lunaria.Vm.RangeCacheRuns
import Lunaria.Media.Mp4AnnexB
import Lunaria.Regex.Back
import Lunaria.Os.SchedPass
import Lunaria.Arm.RxTable
import Lunaria.Dvm.CalendarZone
import Lunaria.Guest.Strlen
import Lunaria.Media.FrameSinkRuns
import Lunaria.Os.Prng31
import Lunaria.Vm.GuestAccess
