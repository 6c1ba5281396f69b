import Kryos.Memory.TearDown
import Kryos.Memory.HeapSizes
import Kryos.Process.ElfFrames
import Kryos.Process.FileLifetime
import Kryos.Process.ReapOnce
import Kryos.Thread.SchedulerInvariant
import Kryos.Syscall.UserStrings
import Kryos.Syscall.Machine
import Kryos.Syscall.Getdents
import Kryos.Fs.BitmapCache
import Kryos.Fs.CreateRemove
import Kryos.Fs.StaleHandle
import Kryos.Fs.SharedHandles
import Kryos.Fs.Listing
import Kryos.Fs.VtBounds
import Kryos.Fs.AbsentName
import Kryos.Thread.RoundRobin
import Kryos.Thread.WaitRemoval
import Kryos.Process.ElfStack
import Kryos.Process.ElfReads
import Kryos.Syscall.BrkFailure
import Kryos.User.Shell
