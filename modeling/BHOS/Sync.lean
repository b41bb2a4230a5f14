import BHOS.Threads

/-! # Semaphores and locks (`sync.c`)

A semaphore has a value and a queue of nodes; a node lies on the stack of the thread that waits
in `sem_P`.  Semaphores, locks and nodes are objects at their addresses; the semaphore of a lock
lies four bytes behind it.

There is one processor, and the functions run with interrupts off, so that a thread executes a
call as a whole unless `thread_block` switches to another thread.  What is then left of the calls
of the thread is kept in `frames`, the innermost call first; the thread goes on with it (`resume`)
when it is switched to again.  A thread without frames is between two calls, and only then the
timer may call `schedule`. -/

namespace BHOS

/-- `sync_tool_sem_queue_node_t`. -/
structure SemNode where
  thread : UInt32
  next : Option UInt32

/-- `sem_t`. -/
structure Sem where
  val : UInt32
  head : Option UInt32

/-- What is left of a call: of `thread_block`, of `sem_P` with its node, of `lock_acquire`, each
with its local `condition`. -/
inductive Frame
  | threadBlock (condition : Bool)
  | semP (sem node : UInt32) (condition : Bool)
  | lockAcquire (lock : UInt32) (condition : Bool)

/-- The machine as `sync.c` sees it. -/
structure Sync where
  threads : Threads
  node : UInt32 → SemNode
  sem : UInt32 → Sem
  holder : UInt32 → UInt32
  frames : UInt32 → List Frame

namespace Sync

variable (s : Sync)

/-- The running thread. -/
def cur : UInt32 := s.threads.getRunningProgress

/-- The `next` pointers of the nodes. -/
def nodeNext (n : UInt32) : Option UInt32 := (s.node n).next

/-- Change the node at an address. -/
def setNode (n : UInt32) (f : SemNode → SemNode) : Sync :=
  { s with node := Function.update s.node n (f (s.node n)) }

/-- Change the semaphore at an address. -/
def setSem (a : UInt32) (f : Sem → Sem) : Sync :=
  { s with sem := Function.update s.sem a (f (s.sem a)) }

/-- Change the holder of the lock at an address; 0 is no thread. -/
def setHolder (l t : UInt32) : Sync := { s with holder := Function.update s.holder l t }

/-- `cli_condition`. -/
def cliCondition : Bool × Sync :=
  let (condition, threads) := s.threads.cliCondition
  (condition, { s with threads := threads })

/-- `sti_condition`. -/
def stiCondition (condition : Bool) : Sync :=
  { s with threads := s.threads.stiCondition condition }

/-! ### The queues -/

/-- `sync_tool_get`. -/
def syncToolGet (a : UInt32) : Option UInt32 × Sync :=
  match (s.sem a).head with
  | none => (none, s)
  | some probe =>
      let s := s.setSem a fun m => { m with head := (s.node probe).next }
      (some probe, s.setNode probe fun m => { m with next := none })

/-- `sync_tool_add`. -/
def syncToolAdd (a n : UInt32) : Option Sync :=
  let s := s.setNode n fun m => { m with next := none }
  match (s.sem a).head with
  | none => some (s.setSem a fun m => { m with head := some n })
  | some probe => do
      let probe ← Linked.seek s.nodeNext (fun p => (s.nodeNext p).isNone) listBound probe
      some (s.setNode probe fun m => { m with next := some n })

/-- `sync_tool_is_empty`. -/
def syncToolIsEmpty (a : UInt32) : Bool := (s.sem a).head.isNone

/-! ### Semaphores

A function that may block returns what is left of it, nothing when it has returned. -/

/-- `sem_init`. -/
def semInit (a val : UInt32) : Sync := s.setSem a fun _ => ⟨val, none⟩

/-- `thread_block`. -/
def threadBlock : Option (List Frame × Sync) := do
  let (switch, condition, threads) ← s.threads.threadBlock
  some (if switch = .switched then [.threadBlock condition] else [],
    { s with threads := threads })

/-- The loop of `sem_P` and what follows it, with at most so many rounds. -/
def semPLoop (a n : UInt32) (condition : Bool) : ℕ → Sync → Option (List Frame × Sync)
  | 0, _ => none
  | k + 1, s =>
      if (s.sem a).val = 0 then do
        let s := s.setNode n fun m => { m with thread := s.cur }
        let s ← s.syncToolAdd a n
        let (frames, s) ← s.threadBlock
        if frames.isEmpty then semPLoop a n condition k s
        else some (frames ++ [.semP a n condition], s)
      else
        let s := s.setSem a fun m => { m with val := m.val - 1 }
        some ([], s.stiCondition condition)

/-- `sem_P`; the node of the call lies at address `n`. -/
def semP (a n : UInt32) : Option (List Frame × Sync) :=
  let (condition, s) := s.cliCondition
  semPLoop a n condition listBound s

/-- `sem_V`. -/
def semV (a : UInt32) : Sync :=
  let (condition, s) := s.cliCondition
  let s :=
    if s.syncToolIsEmpty a then s
    else
      match s.syncToolGet a with
      | (none, s) => s
      | (some node, s) => { s with threads := s.threads.threadWakeup (s.node node).thread }
  let s := s.setSem a fun m => { m with val := m.val + 1 }
  s.stiCondition condition

/-! ### Locks -/

/-- The address of the semaphore of a lock. -/
def lockSem (l : UInt32) : UInt32 := l + 4

/-- `lock_init`. -/
def lockInit (l : UInt32) : Sync := (s.semInit (lockSem l) 1).setHolder l 0

/-- What `lock_acquire` does after its call of `sem_P`. -/
def lockTaken (l : UInt32) (condition : Bool) : Sync :=
  (s.setHolder l s.cur).stiCondition condition

/-- `lock_acquire`; the node of its call of `sem_P` lies at address `n`. -/
def lockAcquire (l n : UInt32) : Option (List Frame × Sync) :=
  let (condition, s) := s.cliCondition
  if s.holder l ≠ s.cur then do
    let (frames, s) ← s.semP (lockSem l) n
    if frames.isEmpty then some ([], s.lockTaken l condition)
    else some (frames ++ [.lockAcquire l condition], s)
  else some ([], s.stiCondition condition)

/-- `lock_release`. -/
def lockRelease (l : UInt32) : Sync :=
  let (condition, s) := s.cliCondition
  let s := if s.holder l = s.cur then (s.setHolder l 0).semV (lockSem l) else s
  s.stiCondition condition

/-! ### Going on with suspended calls -/

/-- What is left of one call. -/
def goOn : Frame → Sync → Option (List Frame × Sync)
  | .threadBlock condition, s => some ([], s.stiCondition condition)
  | .semP a n condition, s => semPLoop a n condition listBound s
  | .lockAcquire l condition, s => some ([], s.lockTaken l condition)

/-- What is left of nested calls. -/
def goOnAll : List Frame → Sync → Option (List Frame × Sync)
  | [], s => some ([], s)
  | f :: fs, s => do
      let (frames, s) ← goOn f s
      if frames.isEmpty then goOnAll fs s else some (frames ++ fs, s)

end Sync

/-- The calls of a thread, the timer (`schedule`), and going on after a switch (`resume`). -/
inductive SyncOp
  | createThread (tid addr pageCounte : UInt32) (isKernThread : Bool) (userVmmPool : Bitmap)
      (pdtVaddr : UInt32)
  | schedule
  | exit
  | threadBlock
  | threadWakeup (targetThread : UInt32)
  | semP (sem node : UInt32)
  | semV (sem : UInt32)
  | lockAcquire (lock node : UInt32)
  | lockRelease (lock : UInt32)
  | resume

namespace Sync

/-- What the running thread executes. -/
def body : SyncOp → Sync → Option (List Frame × Sync)
  | .createThread tid addr pageCounte isKernThread userVmmPool pdtVaddr, s =>
      some ([], { s with threads :=
        s.threads.createThread tid addr pageCounte isKernThread userVmmPool pdtVaddr })
  | .schedule, s => s.threads.schedule.map fun r => ([], { s with threads := r.2 })
  | .exit, s => s.threads.exit.map fun threads => ([], { s with threads := threads })
  | .threadBlock, s => s.threadBlock
  | .threadWakeup targetThread, s =>
      some ([], { s with threads := s.threads.threadWakeup targetThread })
  | .semP a n, s => s.semP a n
  | .semV a, s => some ([], s.semV a)
  | .lockAcquire l n, s => s.lockAcquire l n
  | .lockRelease l, s => some ([], s.lockRelease l)
  | .resume, s => goOnAll (s.frames s.cur) s

/-- One step of the running thread; what is left of its calls is kept. -/
def step (op : SyncOp) (s : Sync) : Option Sync :=
  (body op s).map fun r => { r.2 with frames := Function.update r.2.frames s.cur r.1 }

/-- A thread resumes what is left of its calls before it does anything else. -/
def Enabled (op : SyncOp) (s : Sync) : Prop := op = .resume ↔ s.frames s.cur ≠ []

end Sync
end BHOS
