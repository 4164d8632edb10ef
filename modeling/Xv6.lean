import Xv6.Disklog.Absorption
import Xv6.Disklog.Operations
import Xv6.Driver.Console
import Xv6.Driver.Uart
import Xv6.Fs.Offsets
import Xv6.Fs.Partial
import Xv6.Fs.Transparent
import Xv6.Lib.Chain
import Xv6.Mkfs.Reading
import Xv6.Sched.Neediest
import Xv6.Sched.Reuse
import Xv6.Sched.RoundRobin
import Xv6.Sched.Ticks
import Xv6.Sched.Waking
import Xv6.Sync.Interrupts
import Xv6.Sync.Pids
import Xv6.Sync.Pipes
import Xv6.Sync.Sleeplock
import Xv6.Sync.Wakeup
import Xv6.System.Children
import Xv6.System.Delivery
import Xv6.System.Fileread
import Xv6.System.Loading
import Xv6.System.Messages
import Xv6.System.Naming
import Xv6.User.Grep
import Xv6.User.Malloc
import Xv6.User.Parser
import Xv6.User.Printf
import Xv6.Vm.Map
import Xv6.Vm.Permissions
import Xv6.Vm.Strings
