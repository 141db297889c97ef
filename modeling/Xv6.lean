import Xv6.Theorems.Bcache.Suffice
import Xv6.Theorems.Log.Crash
import Xv6.Theorems.Log.Group
import Xv6.Theorems.Proc.Fairness
import Xv6.Theorems.Proc.Inherit
import Xv6.Lib.Prog
import Xv6.Lib.Owner
import Xv6.Theorems.Buflist
import Xv6.Theorems.Sleeplock
import Xv6.Theorems.Cga
import Xv6.Theorems.Clock
import Xv6.Theorems.Console
import Xv6.Theorems.Getpinfo
import Xv6.Theorems.Proc.Ticks
import Xv6.Theorems.Fs.Deadlock
import Xv6.Theorems.Fs.LastRef
import Xv6.Theorems.Fs.Directory
import Xv6.Theorems.Fs.Filewrite
import Xv6.Theorems.Fs.Shared
import Xv6.Theorems.Pipe.Wakeup
import Xv6.Theorems.File
import Xv6.Theorems.Ide.Fifo
import Xv6.Theorems.Vm.Arguments
import Xv6.Theorems.Vm.Fork
import Xv6.Theorems.Mkfs.Image
import Xv6.Theorems.User.Grep
import Xv6.Theorems.User.Match
import Xv6.Theorems.User.Sh.Runcmd
import Xv6.Theorems.User.Umalloc.Malloc
import Xv6.Theorems.Memmove
import Xv6.Theorems.Mp
import Xv6.Theorems.Spinlock
