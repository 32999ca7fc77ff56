import Jos.Lib.Chain
import Jos.Lib.Tail
import Jos.Lib.Ledger
import Jos.Lib.Command
import Jos.Lib.Memory
import Jos.Lib.Movs
import Jos.Lib.X86
import Jos.Lib.Terminal
import Jos.Lib.Trace
import Jos.Lib.Carry
import Jos.Lib.Copies
import Jos.Layout
import Jos.State
import Jos.Pmap
import Jos.Env
import Jos.Syscall
import Jos.Trap
import Jos.Pmap.Spec
import Jos.Alloc.Inv
import Jos.Alloc.Pmap
import Jos.Pmap.Effect
import Jos.Alloc.Edit
import Jos.Env.Effect
import Jos.Alloc.Env
import Jos.Alloc.Free
import Jos.Atomic
import Jos.UserMem
import Jos.Env.Run
import Jos.Alloc.Syscall
import Jos.Escalation
import Jos.Isolation
import Jos.Boot
import Jos.Alloc.PageInit
import Jos.Alloc.Boot
import Jos.Alloc.Store
import Jos.Alloc.Create
import Jos.Alloc.Run
import Jos.Smp
import Jos.Unmapped
import Jos.Uvpt
import Jos.Alloc.Insert
import Jos.Alloc.Call
import Jos.Alloc.Region
import Jos.Load
import Jos.User
import Jos.Fork
import Jos.Fork.Run
import Jos.Fork.Copy
import Jos.Fork.Scan
import Jos.Fork.Start
import Jos.Fork.Outcome
import Jos.Fork.Cow
import Jos.Fork.Born
import Jos.RefCount
import Jos.Env.Id
import Jos.Table
import Jos.Act
import Jos.Solo
import Jos.Stale
import Jos.Fault
import Jos.RoundRobin
import Jos.Tlb
import Jos.Tlb.Run
import Jos.Exclusive
import Jos.DoubleFree
import Jos.Verdict
import Jos.Access
import Jos.UserMem.Visit
import Jos.UserMem.Exact
import Jos.Cputs
import Jos.Printfmt
import Jos.Printfmt.Run
import Jos.Printfmt.Total
import Jos.Printfmt.Directive
import Jos.Printfmt.Number
import Jos.Printfmt.Width
import Jos.Printfmt.Buffer
import Jos.Printfmt.Clean
import Jos.Cprintf
import Jos.Vcprintf
import Jos.Upcall
import Jos.Sched
import Jos.BootMap
import Jos.Kdebug
import Jos.Kdebug.Search
import Jos.Kdebug.Access
import Jos.Console
import Jos.Readline
import Jos.Monitor
import Jos.Memmove
import Jos.Bootmain
import Jos.Mpconfig
import Jos.BootAlloc
import Jos.FreeList
import Jos.Fork.Return
import Jos.Fork.Intact
import Jos.Fork.Lineage
import Jos.Pfentry
import Jos.Fault.Push
import Jos.Unwind
import Jos.Cga
import Jos.Fork.Shared
import Jos.Fork.Stack
import Jos.Fork.Fill
import Jos.Fork.Exhausted
import Jos.KernelSpace
import Jos.Protection
import Jos.Protection.Run
import Jos.Spinlock
import Jos.BootAps
import Jos.Kbd
import Jos.Zombie
import Jos.Crash
import Jos.Lib.Interrupt
import Jos.Trapentry
import Jos.Frames
