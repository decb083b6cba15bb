import Xv6.Lib.Run
import Xv6.Lib.Update
import Xv6.Lib.Cycle
import Xv6.Param
import Xv6.Log.Crash
import Xv6.Log.Op
import Xv6.Bio
import Xv6.Fs.Format
import Xv6.Lib.Owner
import Xv6.Mkfs
import Xv6.Fs.Inode
import Xv6.Fs.Coherence
import Xv6.Fs.Names
import Xv6.Fs.Links
import Xv6.Fs.Blocks
import Xv6.Fs.Content
import Xv6.Lib.Ring
import Xv6.Pipe
import Xv6.Kalloc
import Xv6.Proc
import Xv6.Lib.CString
import Xv6.Lib.Overlay
import Xv6.Fs.Dirs
import Xv6.Fs.Shared
import Xv6.Virtio
import Xv6.Syscall
import Xv6.Fs.Paths
import Xv6.Console
import Xv6.Lib.Blocks
import Xv6.Umalloc
import Xv6.Sh.Parse
import Xv6.Sh.Print
import Xv6.Lib.Copy
import Xv6.String
import Xv6.BioLru
import Xv6.Printf
import Xv6.Sleep
import Xv6.Grep
import Xv6.Log.Absorb
import Xv6.Xargs
import Xv6.Find
import Xv6.Lib.Sieve
import Xv6.Primes
import Xv6.Lib.Radix
import Xv6.Vm.Sv39
import Xv6.Vm.PageTable
import Xv6.Lib.Nest
import Xv6.Spinlock
import Xv6.Vm.Copy
import Xv6.Vm.User
import Xv6.Vm.Fork
import Xv6.Vm.Free
import Xv6.Vm.Process
