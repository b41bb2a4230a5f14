import BHOS.Lib.Runs
import BHOS.Sync
import BHOS.UserVmm

/-! # Interrupts (`interrupt.c`)

The calls that guard shared data with the interrupt flag, on one machine: those of `sync.c` and
`threads.c`, and `vmm_user_alloc_one_page`.  A thread may open critical sections of its own with
`cli_condition` and close them with `sti_condition`; it keeps the values of `condition` on its
stack (`outer`).

A call is a step as a whole: nothing interrupts it while the flag is cleared, and the threads that
run in the middle of a call of `vmm_user_alloc_one_page` made with the flag set could as well have
run before it.  The timer interrupts the running thread only while the flag is set.  Its gate saves `eflags` on
the stack of the thread (`handler`) and clears the flag, and `iret` loads them again, at once or
when the thread is switched to again.  `entry` is not part of the machine: it remembers the flag
at the entry of the last call of each thread. -/

namespace BHOS

namespace Threads

/-- The interrupt flag in `eflags`. -/
def intFlag (eflags : UInt32) : Bool := (eflags >>> 9) &&& 0x00000001 = 1

/-- The interrupt flag of a thread: in the processor while it runs, in its context otherwise. -/
def flagOf (s : Threads) (a : UInt32) : Bool :=
  intFlag (if a = s.curTcb then s.cpu.eflags else (s.tcb a).context.eflags)

/-- `timer_server_func`. -/
def timerServerFunc (s : Threads) : Option (Switch × Threads) :=
  if (s.tcb s.curTcb).timeLeft ≠ 0 then
    some (.returned, s.modify s.curTcb fun t =>
      { t with timeLeft := t.timeLeft - 1, timeCounter := t.timeCounter + 1 })
  else s.schedule

end Threads

/-- The machine of all the calls. -/
structure Kernel (π : Type) where
  sync : Sync
  kernVmmPool : Bitmap
  poolMem : ByteMem
  pmm : π
  userMem : ByteMem
  outer : UInt32 → List Bool
  handler : UInt32 → Option UInt32
  entry : UInt32 → Bool

/-- The calls of a thread, its own critical sections, and the timer; `tcb` is the address of a
control block. -/
inductive KernelOp
  | call (op : SyncOp)
  | userAlloc (tcb vaddr : UInt32)
  | cliCondition
  | stiCondition
  | timer
  | iret

namespace KernelOp

/-- The operations after which a call may have returned; `exit` does not return, and `schedule`
is not one of the calls that guard data. -/
def IsCall : KernelOp → Prop
  | .call .schedule => False
  | .call .exit => False
  | .call _ => True
  | .userAlloc _ _ => True
  | _ => False

/-- The thread at the address is created. -/
def Creates : KernelOp → UInt32 → Prop
  | .call (.createThread _ addr _ _ _ _), a => a = addr
  | _, _ => False

end KernelOp

namespace Kernel

variable {π : Type} (alloc : π → Option (PmAlloc × π)) (g : Kernel π)

/-- The running thread. -/
def cur : UInt32 := g.sync.cur

/-- The interrupt flag of the processor. -/
def flag : Bool := g.sync.threads.getIntFlag

/-- The interrupt flag of a thread. -/
def flagOf (a : UInt32) : Bool := g.sync.threads.flagOf a

/-- What `vmm_user_alloc_one_page` sees of the machine. -/
def userVmm : UserVmm π where
  kern := ⟨g.sync.threads.mem, g.sync.threads.cr3, g.kernVmmPool, g.poolMem, g.pmm⟩
  userMem := g.userMem
  eflags := g.sync.threads.cpu.eflags

/-- The machine with other threads. -/
def withThreads (t : Threads) : Kernel π := { g with sync := { g.sync with threads := t } }

/-- The machine after a call of `vmm_user_alloc_one_page`. -/
def withUserVmm (u : UserVmm π) : Kernel π :=
  { g.withThreads { g.sync.threads with
      mem := u.kern.mem
      cr3 := u.kern.cr3
      cpu := { g.sync.threads.cpu with eflags := u.eflags } } with
    kernVmmPool := u.kern.kernVmmPool
    poolMem := u.kern.poolMem
    pmm := u.kern.pmm
    userMem := u.userMem }

/-- Remember the flag at the entry of a call. -/
def enter : Kernel π := { g with entry := Function.update g.entry g.cur g.flag }

/-- `resume` goes on with an earlier call. -/
def start : SyncOp → Kernel π → Kernel π
  | .resume, g => g
  | _, g => g.enter

/-- A new thread has no open calls. -/
def forget : SyncOp → Kernel π → Kernel π
  | .createThread _ addr _ _ _ _, g =>
      { g with
        sync := { g.sync with frames := Function.update g.sync.frames addr [] }
        outer := Function.update g.outer addr []
        handler := Function.update g.handler addr none }
  | _, g => g

/-- A call of `sync.c` or `threads.c`. -/
def call (op : SyncOp) : Option (Kernel π) :=
  (Sync.step op g.sync).map fun sync => forget op { g.start op with sync := sync }

/-- The timer's interrupt: its gate, `timer_server_func` and, when the thread goes on, `iret`. -/
def timer : Option (Kernel π) := do
  let eflags := g.sync.threads.cpu.eflags
  let (switch, t) ← g.sync.threads.cli.timerServerFunc
  if switch = .switched then
    some { g.withThreads t with handler := Function.update g.handler g.cur (some eflags) }
  else some (g.withThreads { t with cpu := { t.cpu with eflags := eflags } })

/-- `iret` of the running thread. -/
def iret : Option (Kernel π) := do
  let eflags ← g.handler g.cur
  let t := g.sync.threads
  some { g.withThreads { t with cpu := { t.cpu with eflags := eflags } } with
    handler := Function.update g.handler g.cur none }

/-- `cli_condition` of the running thread, outside of the other calls. -/
def cliCondition : Kernel π :=
  let (condition, sync) := g.sync.cliCondition
  { g with sync := sync, outer := Function.update g.outer g.cur (condition :: g.outer g.cur) }

/-- `sti_condition` of the running thread, for its last `cli_condition`. -/
def stiCondition : Option (Kernel π) :=
  match g.outer g.cur with
  | [] => none
  | condition :: rest =>
      some { g with
        sync := g.sync.stiCondition condition
        outer := Function.update g.outer g.cur rest }

/-- One step. -/
def step : KernelOp → Kernel π → Option (Kernel π)
  | .call op, g => g.call op
  | .userAlloc tcb vaddr, g =>
      (g.userVmm.vmmUserAllocOnePage alloc (g.sync.threads.tcb tcb) vaddr).map fun r =>
        g.enter.withUserVmm r.2
  | .cliCondition, g => some g.cliCondition
  | .stiCondition, g => g.stiCondition
  | .timer, g => g.timer
  | .iret, g => g.iret

/-- A thread goes on with a suspended handler or call before it does anything else, and the timer
interrupts only while the flag is set. -/
def Allowed : KernelOp → Kernel π → Prop
  | .call op, g => g.handler g.cur = none ∧ Sync.Enabled op g.sync
  | .timer, g => g.flag = true
  | .iret, _ => True
  | _, g => g.handler g.cur = none ∧ g.sync.frames g.cur = []

end Kernel
end BHOS
