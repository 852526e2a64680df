import Xv6.Log.Crash
import Xv6.Log.Reservation
import Xv6.Proc.Completeness
import Xv6.Proc.Losses
import Xv6.Sleep.Wakeup
import Xv6.Syscall.Buffers
import Xv6.Syscall.Devices
import Xv6.Proc.Programs
import Xv6.Bio.Coherence
import Xv6.Fs.Quiescence
import Xv6.Ide.Queue
import Xv6.Console.Refinement
import Xv6.Vm.Copies
import Xv6.Proc.Sbrk
import Xv6.Grep.Lines
import Xv6.Proc.Headers
import Xv6.Ptable.Refinement
import Xv6.Umalloc.Sizes
import Xv6.Memmove
import Xv6.Mp
import Xv6.Print.Numerals
