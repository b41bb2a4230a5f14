import BHOS.Lib.Ring
import BHOS.Bitmap
import BHOS.Pmm
import BHOS.Paging

/-! # Threads (`threads.c`)

The thread control blocks form a ring through their `next` pointers; `cur_tcb` points to the one
of the running thread.  A control block is an object at its address, and the addresses of two
control blocks in use differ.  `cpu` holds the registers that `switch_to` saves and loads, so
that bit 9 of `cpu.eflags` is the interrupt flag.

A function that ends with the control in another thread returns `Switch.switched`; what is left
of it is executed when its thread is switched to again.  The messages on the console and the
words that `create_thread` puts on the new stack are left out.  A `STOP`, a page fault and a
search that does not end are undefined (`none`). -/

namespace BHOS

/-- `task_status_t`. -/
inductive TaskStatus
  | running
  | ready
  | blocked
  | waiting
  | hanging
  | died
  deriving DecidableEq

/-- `context_t`. -/
structure Context where
  ebp : UInt32
  ebx : UInt32
  ecx : UInt32
  edx : UInt32
  esi : UInt32
  edi : UInt32
  eflags : UInt32
  esp : UInt32

/-- `TCB_t`. -/
structure Tcb where
  kernStackTop : UInt32
  taskStatus : TaskStatus
  timeCounter : UInt32
  timeLeft : UInt32
  next : UInt32
  tid : UInt32
  pageCounte : UInt32
  pageAddr : UInt32
  isKernThread : Bool
  userVmmPool : Bitmap
  pdtVaddr : UInt32
  context : Context
  tcbMagicNumber : UInt32

/-- The machine as `threads.c` sees it: the control blocks, `cur_tcb`, the registers, the page
tables, `cr3`, `kern_dir_table_paddr` and `tss_cpu0.esp0`. -/
structure Threads where
  tcb : UInt32 → Tcb
  curTcb : UInt32
  cpu : Context
  mem : PhysMem
  cr3 : UInt32
  kernDirTablePaddr : UInt32
  esp0 : UInt32

/-- A machine whose memory is zero; its kernel directory lies at `0x101000`. -/
def Threads.zero : Threads where
  tcb _ := ⟨0, .running, 0, 0, 0, 0, 0, 0, false, ⟨0, 0, 0⟩, 0, ⟨0, 0, 0, 0, 0, 0, 0, 0⟩, 0⟩
  curTcb := 0
  cpu := ⟨0, 0, 0, 0, 0, 0, 0, 0⟩
  mem _ := 0
  cr3 := 0x101000
  kernDirTablePaddr := 0x101000
  esp0 := 0

/-- `TIME_CONT`. -/
def timeCont : UInt32 := 10

/-- `TCB_MAGIC_NUMBER`. -/
def tcbMagic : UInt32 := 0xFC0D21AB

/-- How a function that may switch threads ends. -/
inductive Switch
  | returned
  | selfWoken
  | switched
  deriving DecidableEq

namespace Threads

variable (s : Threads)

/-- Change the control block at an address. -/
def modify (a : UInt32) (f : Tcb → Tcb) : Threads :=
  { s with tcb := Function.update s.tcb a (f (s.tcb a)) }

/-- The `next` pointers. -/
def next (a : UInt32) : Option UInt32 := some (s.tcb a).next

/-- The status of the thread at an address. -/
def status (a : UInt32) : TaskStatus := (s.tcb a).taskStatus

/-! ### The interrupt flag -/

/-- `get_int_flag`. -/
def getIntFlag : Bool := (s.cpu.eflags >>> 9) &&& 0x00000001 = 1

/-- `cli`. -/
def cli : Threads := { s with cpu := { s.cpu with eflags := s.cpu.eflags &&& 0xFFFFFDFF } }

/-- `sti`. -/
def sti : Threads := { s with cpu := { s.cpu with eflags := s.cpu.eflags ||| 0x200 } }

/-- `cli_condition`. -/
def cliCondition : Bool × Threads := if s.getIntFlag then (true, s.cli) else (false, s)

/-- `sti_condition`. -/
def stiCondition (condition : Bool) : Threads := if condition then s.sti else s.cli

/-! ### Switching -/

/-- `switch_to`. -/
def switchTo (now nextTcb : UInt32) : Threads :=
  let s := s.modify now fun t => { t with context := s.cpu }
  { s with cpu := (s.tcb nextTcb).context }

/-- `tss_update`. -/
def tssUpdate (a : UInt32) : Threads :=
  { s with esp0 := a + (s.tcb a).pageCounte * pageSize }

/-- `active_task`. -/
def activeTask (a : UInt32) : Option Threads :=
  if (s.tcb a).isKernThread then some { s with cr3 := s.kernDirTablePaddr }
  else do
    let userTaskPdtPaddr ← vmmV2p s.mem s.cr3 (s.tcb a).pdtVaddr
    if userTaskPdtPaddr = v2pError then none
    else some (tssUpdate { s with cr3 := userTaskPdtPaddr } a)

/-- `get_running_progress`. -/
def getRunningProgress : UInt32 := s.curTcb

/-- `check_kern_stack_overflow`. -/
def checkKernStackOverflow (a : UInt32) : Bool := (s.tcb a).tcbMagicNumber = tcbMagic

/-- The probe of `schedule` stops at `cur_tcb` and at threads that are ready. -/
def probeStops (probe : UInt32) : Bool :=
  probe = s.curTcb || (s.tcb probe).taskStatus = .ready

/-- `schedule`. -/
def schedule : Option (Switch × Threads) :=
  if s.getRunningProgress = 0 then some (.returned, s)
  else if s.checkKernStackOverflow s.getRunningProgress = false then none
  else do
    let probe ← Linked.seek s.next s.probeStops listBound (s.tcb s.curTcb).next
    if probe = s.curTcb then
      if (s.tcb probe).taskStatus ≠ .ready ∧ (s.tcb probe).taskStatus ≠ .running then
        some (.selfWoken, s.modify s.curTcb fun t =>
          { t with timeLeft := timeCont, taskStatus := .running })
      else some (.returned, s.modify s.curTcb fun t => { t with timeLeft := timeCont })
    else do
      let now := s.curTcb
      let nextTcb := probe
      let s :=
        if (s.tcb now).taskStatus = .running then
          s.modify now fun t => { t with taskStatus := .ready }
        else s
      let s := s.modify nextTcb fun t => { t with taskStatus := .running, timeLeft := timeCont }
      let s := { s with curTcb := nextTcb }
      let s ← s.activeTask s.curTcb
      some (.switched, s.switchTo now nextTcb)

/-! ### Threads come and go -/

/-- `threads_init` with `_init_main_thread`. -/
def threadsInit (mainTcb : UInt32) : Threads :=
  let s := s.modify mainTcb fun t => { t with
    tid := 0
    timeCounter := 0
    timeLeft := timeCont
    taskStatus := .running
    pageCounte := 0
    pageAddr := 0
    next := mainTcb
    kernStackTop := 0
    isKernThread := true
    tcbMagicNumber := tcbMagic }
  { s with curTcb := mainTcb }

/-- `create_TCB`. -/
def createTCB (tid pageAddr pageCounte : UInt32) : Threads :=
  s.modify pageAddr fun t => { t with
    tid := tid
    timeCounter := 0
    timeLeft := timeCont
    taskStatus := .ready
    pageCounte := pageCounte
    pageAddr := pageAddr
    kernStackTop := pageAddr + pageCounte * pageSize
    tcbMagicNumber := tcbMagic }

/-- `create_thread`; the three words pushed on the new stack are not modelled. -/
def createThread (tid addr pageCounte : UInt32) (isKernThread : Bool) (userVmmPool : Bitmap)
    (pdtVaddr : UInt32) : Threads :=
  let s := s.cli
  let s := s.createTCB tid addr pageCounte
  let newTcb := addr
  let tempNext := (s.tcb s.curTcb).next
  let s := s.modify s.curTcb fun t => { t with next := newTcb }
  let s := s.modify newTcb fun t => { t with next := tempNext, isKernThread := isKernThread }
  let s :=
    if isKernThread then s
    else s.modify newTcb fun t => { t with userVmmPool := userVmmPool, pdtVaddr := pdtVaddr }
  let s := s.modify newTcb fun t => { t with kernStackTop := t.kernStackTop - 4 - 4 - 4 }
  let s := s.modify newTcb fun t =>
    { t with context := { t.context with eflags := 0x202, esp := t.kernStackTop } }
  s.sti

/-- `thread_block` up to and including the call of `schedule`, with the value of `condition`.
When `schedule` has switched to another thread, `sti_condition(condition)` is left to do. -/
def threadBlock : Option (Switch × Bool × Threads) := do
  let now := s.getRunningProgress
  let (condition, s) := s.cliCondition
  let s := s.modify now fun t => { t with taskStatus := .blocked }
  let (switch, s) ← s.schedule
  some (switch, condition, if switch = .switched then s else s.stiCondition condition)

/-- `thread_wakeup`. -/
def threadWakeup (targetThread : UInt32) : Threads :=
  let (condition, s) := s.cliCondition
  let s := s.modify targetThread fun t => { t with taskStatus := .ready }
  s.stiCondition condition

/-- `remove_thread`. -/
def removeThread : Option Threads :=
  let s := s.cli
  if (s.tcb s.curTcb).tid = 0 then some s
  else do
    let temp ← Linked.seek s.next (fun t => (s.tcb t).next = s.curTcb) listBound s.curTcb
    some (s.modify temp fun t => { t with next := (s.tcb s.curTcb).next })

/-- `exit`. -/
def exit : Option Threads := do
  let s ← s.removeThread
  let now := s.curTcb
  let nextTcb := (s.tcb s.curTcb).next
  let s := s.modify nextTcb fun t => { t with timeLeft := timeCont }
  let s := { s with curTcb := (s.tcb s.curTcb).next }
  some (s.switchTo now nextTcb)

end Threads

/-- The operations of the thread module.  `endBlock` is what a thread executes of `thread_block`
after it is switched to again. -/
inductive ThreadOp
  | createThread (tid addr pageCounte : UInt32) (isKernThread : Bool) (userVmmPool : Bitmap)
      (pdtVaddr : UInt32)
  | schedule
  | threadBlock
  | endBlock (condition : Bool)
  | threadWakeup (targetThread : UInt32)
  | exit

/-- One operation of the running thread. -/
def Threads.step : ThreadOp → Threads → Option Threads
  | .createThread tid addr pageCounte isKernThread userVmmPool pdtVaddr, s =>
      some (s.createThread tid addr pageCounte isKernThread userVmmPool pdtVaddr)
  | .schedule, s => s.schedule.map Prod.snd
  | .threadBlock, s => s.threadBlock.map fun r => r.2.2
  | .endBlock condition, s => some (s.stiCondition condition)
  | .threadWakeup targetThread, s => some (s.threadWakeup targetThread)
  | .exit, s => s.exit

end BHOS
