import BHOS.Lib.Words
import BHOS.Lock

/-! # The linked list of the kernel library (`list.c`)

A `link_t` points to the first of a chain of nodes; a node has a `next` pointer and a datum of
type `void *`.  The functions insert and remove nodes that their caller owns, and put their
writes between `_lock_acquire` and `_lock_release`, which do something only when the list was
initialised with a lock.

The functions are generic in the lock: `LinkLock` holds what they call of it, on a state of type
`σ`.  A call of `acquire` that has to wait for another thread is `none`: what happens to the list
meanwhile is the business of the other threads.  `Sync.linkLock` is the lock of `sync.c`. -/

namespace BHOS

open Linked

/-- `link_node_t`. -/
structure LinkNode where
  next : Option UInt32
  data : UInt32

/-- `lock_init`, `lock_acquire` and `lock_release` on the lock of a list. -/
structure LinkLock (σ : Type) where
  init : σ → σ
  acquire : σ → Option σ
  release : σ → Option σ

/-- The nodes at their addresses, and one `link_t`. -/
structure Links (σ : Type) where
  node : UInt32 → LinkNode
  head : Option UInt32
  haveLock : Bool
  lockInitFlag : Bool
  lock : σ

/-- A datum read as a pointer to a node; `NULL` is 0. -/
def asNodePtr (data : UInt32) : Option UInt32 := if data = 0 then none else some data

namespace Links

variable {σ : Type} (lk : LinkLock σ) (s : Links σ)

/-- The `next` pointers of the nodes. -/
def nodeNext (n : UInt32) : Option UInt32 := (s.node n).next

/-- `node->next = v`. -/
def setNext (n : UInt32) (v : Option UInt32) : Links σ :=
  { s with node := Function.update s.node n { s.node n with next := v } }

/-- `link->head = v`. -/
def setHead (v : Option UInt32) : Links σ := { s with head := v }

/-- `_lock_acquire`. -/
def lockAcquire (flag : Bool) : Option (Links σ) :=
  if flag then (lk.acquire s.lock).map fun lock => { s with lock := lock } else some s

/-- `_lock_release`. -/
def lockRelease (flag : Bool) : Option (Links σ) :=
  if flag then (lk.release s.lock).map fun lock => { s with lock := lock } else some s

/-- The writes `f` between `_lock_acquire` and `_lock_release`. -/
def locked (f : Links σ → Links σ) : Option (Links σ) := do
  let s ← s.lockAcquire lk s.lockInitFlag
  let s := f s
  s.lockRelease lk s.lockInitFlag

/-- `_remove_next_node`. -/
def removeNextNode (node : UInt32) : Option (Bool × Links σ) :=
  if s.nodeNext node = none then some (false, s)
  else do
    let s ← s.locked lk fun s => s.setNext node none
    some (true, s)

/-- `link_init_without_lock`. -/
def linkInitWithoutLock : Links σ := { s with haveLock := false, lockInitFlag := false }

/-- `link_init_lock`. -/
def linkInitLock : Links σ :=
  { s with haveLock := true, lock := lk.init s.lock, lockInitFlag := true }

/-- The loop of `link_find_node_by_data` from `probe` on, with at most so many rounds. -/
def findFrom (data : UInt32) : ℕ → Option UInt32 → Option (Option UInt32)
  | 0, _ => none
  | _ + 1, none => some none
  | k + 1, some probe =>
      if (s.node probe).data = data then some (asNodePtr data)
      else findFrom data k (s.nodeNext probe)

/-- `link_find_node_by_data`; it returns the datum it was given. -/
def linkFindNodeByData (data : UInt32) : Option (Option UInt32) :=
  if s.head = none then some none else s.findFrom data (listBound + 1) s.head

/-- `link_add_tail`. -/
def linkAddTail (node : UInt32) : Option (Links σ) :=
  match s.head with
  | none => s.locked lk fun s => s.setHead (some node)
  | some probe => do
      let probe ← seek s.nodeNext (fun p => (s.nodeNext p).isNone) listBound probe
      s.locked lk fun s => s.setNext probe (some node)

/-- `link_add_head`. -/
def linkAddHead (node : UInt32) : Option (Links σ) :=
  s.locked lk fun s =>
    let probe := s.head
    let s := s.setHead (some node)
    s.setNext node probe

/-- The loop of the two removal functions from `probe` on, with at most so many rounds; `hit` is
the test of the node behind. -/
def removeFrom (hit : UInt32 → Bool) : ℕ → UInt32 → Option (Bool × Links σ)
  | 0, _ => none
  | k + 1, probe =>
      match s.nodeNext probe with
      | none => some (false, s)
      | some n => if hit n then s.removeNextNode lk probe else removeFrom hit k n

/-- The common body of the two removal functions. -/
def linkRemove (hit : UInt32 → Bool) : Option (Bool × Links σ) :=
  match s.head with
  | none => some (false, s)
  | some probe => s.removeFrom lk hit listBound probe

/-- The nodes that carry a datum. -/
def carries (data : UInt32) (n : UInt32) : Bool := (s.node n).data == data

/-- `link_remove_by_data`. -/
def linkRemoveByData (data : UInt32) : Option (Bool × Links σ) := s.linkRemove lk (s.carries data)

/-- `link_remove_by_node`. -/
def linkRemoveByNode (node : UInt32) : Option (Bool × Links σ) := s.linkRemove lk fun n => n == node

/-! ### Lists and locks -/

/-- The list reached from `head` is null-terminated and has these nodes. -/
def Holds (l : List UInt32) : Prop := IsList s.nodeNext s.head l

/-- Whenever the lock is in `U`, a thread that acquires it need not wait, and its release leaves
the lock in `U`. -/
def Open (U : σ → Prop) : Prop :=
  ∀ x, U x → ∃ a r, lk.acquire x = some a ∧ lk.release a = some r ∧ U r

/-- The list has no lock, or its lock is in `U`. -/
def Ready (U : σ → Prop) : Prop := s.lockInitFlag = true → U s.lock

/-- A write that leaves the lock alone. -/
def KeepsLock (f : Links σ → Links σ) : Prop :=
  ∀ s x, f { s with lock := x } = { f s with lock := x } ∧ (f s).lockInitFlag = s.lockInitFlag

variable {lk s} {U : σ → Prop} {f : Links σ → Links σ} {l : List UInt32} {t : Links σ}
  {n : UInt32} {v : Option UInt32}

theorem keepsLock_setNext (n : UInt32) (v : Option UInt32) :
    KeepsLock fun s : Links σ => s.setNext n v := fun _ _ => ⟨rfl, rfl⟩

theorem keepsLock_setHead (v : Option UInt32) : KeepsLock fun s : Links σ => s.setHead v :=
  fun _ _ => ⟨rfl, rfl⟩

theorem keepsLock_push (n : UInt32) :
    KeepsLock fun s : Links σ => (s.setHead (some n)).setNext n s.head := fun _ _ => ⟨rfl, rfl⟩

/-- With an open lock the writes are made, and the lock is open again. -/
theorem locked_eq (hlk : Open lk U) (hs : s.Ready U) (hf : KeepsLock f) :
    ∃ x, s.locked lk f = some { f s with lock := x } ∧
      ({ f s with lock := x } : Links σ).Ready U := by
  have hkeep : (f s).lockInitFlag = s.lockInitFlag := (hf s s.lock).2
  cases hflag : s.lockInitFlag with
  | false =>
      rw [hflag] at hkeep
      refine ⟨(f s).lock, ?_, ?_⟩
      · simp only [locked, lockAcquire, lockRelease, hflag, hkeep, Bool.false_eq_true, if_false,
          Option.bind_eq_bind, Option.bind_some]
        rw [← hkeep]
      · intro h
        exact absurd (h.symm.trans hkeep) (by simp)
  | true =>
      obtain ⟨a, r, ha, hr, hu⟩ := hlk s.lock (hs hflag)
      rw [hflag] at hkeep
      refine ⟨r, ?_, fun _ => hu⟩
      simp only [locked, lockAcquire, lockRelease, hflag, if_true, ha, Option.map_some,
        Option.bind_eq_bind, Option.bind_some]
      rw [← hflag, (hf s a).1]
      simp only [hkeep, hflag, if_true, hr, Option.map_some]

/-! ### What the writes do to the `next` pointers -/

@[simp] theorem head_setNext : (s.setNext n v).head = s.head := rfl

@[simp] theorem head_setHead : (s.setHead v).head = v := rfl

@[simp] theorem nodeNext_setHead : (s.setHead v).nodeNext = s.nodeNext := rfl

@[simp] theorem node_setHead : (s.setHead v).node = s.node := rfl

theorem nodeNext_setNext (s : Links σ) (n : UInt32) (v : Option UInt32) :
    (s.setNext n v).nodeNext = Function.update s.nodeNext n v := by
  funext m
  by_cases h : m = n
  · subst h
    simp [nodeNext, setNext]
  · simp [nodeNext, setNext, Function.update_of_ne h]

@[simp] theorem data_setNext (s : Links σ) (n m : UInt32) (v : Option UInt32) :
    ((s.setNext n v).node m).data = (s.node m).data := by
  by_cases h : m = n
  · subst h
    simp [setNext]
  · simp [setNext, Function.update_of_ne h]

/-- The nodes and the head do not depend on the lock. -/
@[simp] theorem holds_lock (s : Links σ) (x : σ) (l : List UInt32) :
    ({ s with lock := x } : Links σ).Holds l ↔ s.Holds l := Iff.rfl

theorem Holds.unique {l₁ l₂ : List UInt32} (h₁ : s.Holds l₁) (h₂ : s.Holds l₂) : l₁ = l₂ :=
  IsList.unique h₁ h₂

theorem Holds.nodup (h : s.Holds l) : l.Nodup := IsList.nodup h

/-- There are no more nodes than the bound on a traversal. -/
theorem Holds.length_le (h : s.Holds l) : l.length ≤ listBound :=
  Words.length_le_of_nodup h.nodup

end Links

/-! ### The lock of `sync.c` -/

namespace Sync

/-- The lock of a list at address `l`; `n` is the address of the queue node of a caller. -/
def linkLock (l n : UInt32) : LinkLock Sync where
  init s := s.lockInit l
  acquire s := (s.lockAcquire l n).bind fun r => if r.1.isEmpty then some r.2 else none
  release s := some (s.lockRelease l)

/-- A lock that nobody holds or waits for. -/
structure Unlocked (l : UInt32) (s : Sync) : Prop where
  running : s.cur ≠ 0
  holder : s.holder l = 0
  val : (s.sem (lockSem l)).val = 1
  queue : (s.sem (lockSem l)).head = none

variable {s : Sync} {l n : UInt32}

/-- The running thread takes the lock without waiting. -/
theorem Unlocked.acquire (h : s.Unlocked l) (n : UInt32) :
    ∃ t, (linkLock l n).acquire s = some t ∧ t.cur = s.cur ∧ t.holder l = s.cur ∧
      (t.sem (lockSem l)).val = 0 ∧ (t.sem (lockSem l)).head = none := by
  have hne : s.holder l ≠ s.cur := by
    rw [h.holder]
    exact h.running.symm
  obtain ⟨r₁, h₁⟩ := s.cliCondition_eq
  obtain ⟨r₂, h₂⟩ := (s.withCpu r₁).cliCondition_eq
  have hval : (((s.withCpu r₁).withCpu r₂).sem (lockSem l)).val ≠ 0 := by
    simp only [withCpu_sem, h.val]
    decide
  obtain ⟨u, hu⟩ : ∃ u, u = ((s.withCpu r₁).withCpu r₂).setSem (lockSem l) fun m =>
      { m with val := m.val - 1 } := ⟨_, rfl⟩
  obtain ⟨r₃, h₃⟩ := u.stiCondition_eq (s.withCpu r₁).threads.getIntFlag
  obtain ⟨r₄, h₄⟩ :=
    ((u.withCpu r₃).setHolder l (u.withCpu r₃).cur).stiCondition_eq s.threads.getIntFlag
  have hval' : (u.sem (lockSem l)).val = 0 := by
    rw [hu, setSem_self, withCpu_sem, withCpu_sem, h.val]
    rfl
  have hqueue' : (u.sem (lockSem l)).head = none := by
    rw [hu, setSem_self, withCpu_sem, withCpu_sem, h.queue]
  have hcur : u.cur = s.cur := by rw [hu]; rfl
  have hloop : semPLoop (lockSem l) n (s.withCpu r₁).threads.getIntFlag listBound
      ((s.withCpu r₁).withCpu r₂) = some ([], u.withCpu r₃) := by
    rw [show listBound = 0xFFFFFFFF + 1 from rfl, semPLoop, if_neg hval, ← h₃, hu]
  refine ⟨((u.withCpu r₃).setHolder l (u.withCpu r₃).cur).withCpu r₄, ?_, hcur, ?_, hval', hqueue'⟩
  · simp only [linkLock, lockAcquire, h₁, withCpu_holder, withCpu_cur, if_pos hne, semP, h₂, hloop,
      Option.bind_eq_bind, Option.bind_some, List.isEmpty_nil, if_true, lockTaken]
    exact congrArg some h₄
  · rw [← hcur]
    exact Function.update_self l _ _

/-- The holder releases the lock. -/
theorem unlocked_release (h0 : s.cur ≠ 0) (hh : s.holder l = s.cur)
    (hv : (s.sem (lockSem l)).val = 0) (hq : (s.sem (lockSem l)).head = none) :
    (s.lockRelease l).Unlocked l := by
  obtain ⟨r₁, h₁⟩ := s.cliCondition_eq
  obtain ⟨r₂, r₃, h₂⟩ := ((s.withCpu r₁).setHolder l 0).semV_eq (lockSem l)
  obtain ⟨u, hu⟩ : ∃ u, u = (((s.withCpu r₁).setHolder l 0).withCpu r₂).posted (lockSem l) :=
    ⟨_, rfl⟩
  obtain ⟨r₄, h₄⟩ := (u.withCpu r₃).stiCondition_eq s.threads.getIntFlag
  have hq' : ((((s.withCpu r₁).setHolder l 0).withCpu r₂).sem (lockSem l)).head = none := hq
  rw [posted, hq'] at hu
  have e : s.lockRelease l = (u.withCpu r₃).withCpu r₄ := by
    simp only [lockRelease, h₁, withCpu_holder, withCpu_cur, if_pos hh]
    rw [h₂, posted, hq', ← hu, h₄]
  rw [e]
  refine ⟨?_, ?_, ?_, ?_⟩
  · rw [hu]
    exact h0
  · rw [hu]
    exact Function.update_self l _ _
  · rw [hu]
    simp only [withCpu_sem, setSem_self]
    have hv' : ((s.withCpu r₁).setHolder l 0).sem (lockSem l) = s.sem (lockSem l) := rfl
    rw [hv', hv]
    rfl
  · rw [hu]
    simp only [withCpu_sem, setSem_self]
    exact hq

/-- The lock of `sync.c` can stand for the lock of a list. -/
theorem linkLock_open (l n : UInt32) : Links.Open (linkLock l n) (Unlocked l) := by
  intro s h
  obtain ⟨t, ht, hcur, hh, hv, hq⟩ := h.acquire n
  refine ⟨t, t.lockRelease l, ht, rfl, ?_⟩
  apply unlocked_release
  · rw [hcur]
    exact h.running
  · rw [hh, hcur]
  · exact hv
  · exact hq

/-- `lock_init` leaves the lock open. -/
theorem unlocked_init (h0 : s.cur ≠ 0) (l n : UInt32) : ((linkLock l n).init s).Unlocked l := by
  refine ⟨h0, Function.update_self l _ _, ?_, ?_⟩
  · exact congrArg Sem.val (setSem_self (s := s) (a := lockSem l) fun _ => ⟨1, none⟩)
  · exact congrArg Sem.head (setSem_self (s := s) (a := lockSem l) fun _ => ⟨1, none⟩)

/-- `lock_init` after `threads_init`. -/
theorem unlocked_startLock (s : Sync) {main : UInt32} (h0 : main ≠ 0) (l : UInt32)
    (val : UInt32 → UInt32) : (s.startLock main l val).Unlocked l :=
  unlocked_init (s := s.start main val) h0 l 0

end Sync

/-- A list in zeroed memory with the lock at `0x500`, in the first thread. -/
def Links.sample (node : UInt32 → LinkNode) (head : Option UInt32) : Links Sync :=
  ⟨node, head, true, true, Sync.zero.startLock 0xC0100000 0x500 fun _ => 0⟩

theorem Links.sample_ready (node : UInt32 → LinkNode) (head : Option UInt32) :
    (sample node head).Ready (Sync.Unlocked 0x500) :=
  fun _ => Sync.unlocked_startLock Sync.zero (by decide) 0x500 fun _ => 0

end BHOS
