import Xv6.Log.Reservation
import Xv6.Log.StoreRefinement
import Xv6.Pipe.PipeSafety
import Xv6.Proc.Wakeup
import Xv6.Proc.Family
import Xv6.Sys.InodeTable
import Xv6.Virtio.DiskSafety
import Xv6.Proc.Pids
import Xv6.Console.Lines
import Xv6.Sys.FileRead
import Xv6.Vm.PageMap
import Xv6.Vm.Protection
import Xv6.Fs.DirMap
import Xv6.Fs.Paths
import Xv6.Fs.LogUse
import Xv6.User.Grep
import Xv6.User.Memmove
import Xv6.Vm.Growth
import Xv6.Fs.FreeMap
