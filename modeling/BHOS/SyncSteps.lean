import BHOS.RoundRobin
import BHOS.Sync

/-! # What a call of `sync.c` can do

A call of `sem_P` either takes a unit and returns (`Takes`), or it adds its node to the queue and
switches to another thread (`Waits`); when no other thread is ready it never ends
(`semPLoop_none`).  A call of `sem_V` posts a unit and wakes the first waiting thread (`Posts`). -/

namespace BHOS

open Linked Threads

namespace Sync

variable {s t u : Sync} {A : Sched UInt32} {main a b n l : UInt32} {c : Bool} {k : ℕ}
  {q : List UInt32} {fs : List Frame}

/-- The same state with other registers. -/
def withCpu (s : Sync) (r : Context) : Sync := { s with threads := { s.threads with cpu := r } }

@[simp] theorem withCpu_sem (r : Context) : (s.withCpu r).sem = s.sem := rfl

@[simp] theorem withCpu_node (r : Context) : (s.withCpu r).node = s.node := rfl

@[simp] theorem withCpu_holder (r : Context) : (s.withCpu r).holder = s.holder := rfl

@[simp] theorem withCpu_frames (r : Context) : (s.withCpu r).frames = s.frames := rfl

@[simp] theorem withCpu_cur (r : Context) : (s.withCpu r).cur = s.cur := rfl

theorem cliCondition_eq (s : Sync) :
    ∃ r, s.cliCondition = (s.threads.getIntFlag, s.withCpu r) := by
  obtain ⟨r, hr⟩ := s.threads.cliCondition_eq
  exact ⟨r, by rw [cliCondition, hr]; rfl⟩

theorem stiCondition_eq (s : Sync) (condition : Bool) :
    ∃ r, s.stiCondition condition = s.withCpu r := by
  obtain ⟨r, hr⟩ := s.threads.stiCondition_eq condition
  exact ⟨r, by rw [stiCondition, hr]; rfl⟩

/-! ### The queues -/

section setNode

variable {p m : UInt32} {v : Option UInt32}

theorem setNode_nodeNext_self :
    (s.setNode p fun m => { m with next := v }).nodeNext p = v := by
  simp only [nodeNext, setNode, Function.update_self]

theorem setNode_nodeNext_of_ne (f : SemNode → SemNode) (h : m ≠ p) :
    (s.setNode p f).nodeNext m = s.nodeNext m := by
  simp only [nodeNext, setNode, Function.update_of_ne h]

theorem setNode_nodeNext : (s.setNode p fun m => { m with next := v }).nodeNext =
    Function.update s.nodeNext p v := by
  funext m
  by_cases hm : m = p
  · subst hm
    rw [setNode_nodeNext_self, Function.update_self]
  · rw [setNode_nodeNext_of_ne _ hm, Function.update_of_ne hm]

theorem setNode_thread :
    ((s.setNode p fun m => { m with next := v }).node m).thread = (s.node m).thread := by
  by_cases hm : m = p
  · subst hm
    simp only [setNode, Function.update_self]
  · simp only [setNode, Function.update_of_ne hm]

theorem setNode_owner {t : UInt32} :
    ((s.setNode p fun m => { m with thread := t }).node m).thread =
      if m = p then t else (s.node m).thread := by
  by_cases hm : m = p
  · subst hm
    simp only [setNode, Function.update_self, if_true]
  · simp only [setNode, Function.update_of_ne hm, if_neg hm]

theorem setNode_owner_nodeNext {t : UInt32} :
    (s.setNode p fun m => { m with thread := t }).nodeNext = s.nodeNext := by
  funext m
  by_cases hm : m = p
  · subst hm
    simp only [nodeNext, setNode, Function.update_self]
  · exact setNode_nodeNext_of_ne _ hm

end setNode

theorem setSem_self (f : Sem → Sem) : (s.setSem a f).sem a = f (s.sem a) :=
  Function.update_self a _ _

theorem setSem_of_ne (f : Sem → Sem) (h : b ≠ a) : (s.setSem a f).sem b = s.sem b :=
  Function.update_of_ne h _ _

/-- The node that `sync_tool_add` has made the end of a list. -/
def unlinked (s : Sync) (n : UInt32) : Sync := s.setNode n fun m => { m with next := none }

theorem syncToolAdd_of_empty (hh : (s.sem a).head = none) :
    s.syncToolAdd a n = some ((s.unlinked n).setSem a fun m => { m with head := some n }) := by
  have hh' : ((s.setNode n fun m => { m with next := none }).sem a).head = none := hh
  simp only [syncToolAdd, hh', unlinked]

theorem syncToolAdd_of_head {p : UInt32} (hh : (s.sem a).head = some p) :
    s.syncToolAdd a n = (seek (s.unlinked n).nodeNext
      (fun p => ((s.unlinked n).nodeNext p).isNone) listBound p).map fun p =>
        (s.unlinked n).setNode p fun m => { m with next := some n } := by
  have hh' : ((s.setNode n fun m => { m with next := none }).sem a).head = some p := hh
  simp only [syncToolAdd, hh', unlinked]
  cases seek _ _ _ _ <;> rfl

/-- `sync_tool_add` appends the node to the queue. -/
theorem syncToolAdd_eq (hq : IsList s.nodeNext (s.sem a).head q) (hn : n ∉ q) :
    ∃ t, s.syncToolAdd a n = some t ∧ IsList t.nodeNext (t.sem a).head (q ++ [n]) ∧
      (∀ m ∉ q, m ≠ n → t.nodeNext m = s.nodeNext m) := by
  have hcut : ∀ m ≠ n, (s.unlinked n).nodeNext m = s.nodeNext m := fun m hm =>
    setNode_nodeNext_of_ne _ hm
  have hself : (s.unlinked n).nodeNext n = none := setNode_nodeNext_self
  have hq' : IsList (s.unlinked n).nodeNext (s.sem a).head q :=
    hq.congr fun m hm => hcut m fun e => hn (e ▸ hm)
  rcases q.eq_nil_or_concat' with rfl | ⟨q, p, rfl⟩
  · refine ⟨_, syncToolAdd_of_empty hq, ⟨?_, hself⟩, fun m _ hm => hcut m hm⟩
    rw [setSem_self]
  · obtain ⟨p₀, hp₀⟩ := hq.exists_head (by simp)
    have hlen := Words.length_le_of_nodup hq.nodup
    rw [List.length_append, List.length_singleton] at hlen
    have hseek := (hp₀ ▸ hq').seek_last (n := listBound) (by rw [listBound]; omega)
    refine ⟨(s.unlinked n).setNode p fun m => { m with next := some n }, ?_, ?_, ?_⟩
    · rw [syncToolAdd_of_head hp₀, hseek, Option.map_some]
    · rw [setNode_nodeNext]
      exact hq'.append_cell hn hself
    · intro m hm hmn
      have hmp : m ≠ p := fun e => hm (by simp [e])
      rw [setNode_nodeNext_of_ne _ hmp, hcut m hmn]

/-- `sync_tool_add` changes the `next` of nodes and the head of its queue. -/
theorem syncToolAdd_keeps (h : s.syncToolAdd a n = some t) :
    t.threads = s.threads ∧ t.holder = s.holder ∧ t.frames = s.frames ∧
      (∀ b ≠ a, t.sem b = s.sem b) ∧ (t.sem a).val = (s.sem a).val ∧
      ∀ m, (t.node m).thread = (s.node m).thread := by
  cases hh : (s.sem a).head with
  | none =>
      rw [syncToolAdd_of_empty hh, Option.some.injEq] at h
      subst h
      refine ⟨rfl, rfl, rfl, fun b hb => setSem_of_ne _ hb, ?_, fun m => setNode_thread⟩
      rw [setSem_self]
      rfl
  | some p₀ =>
      rw [syncToolAdd_of_head hh] at h
      obtain ⟨p, -, rfl⟩ := Option.map_eq_some_iff.mp h
      exact ⟨rfl, rfl, rfl, fun _ _ => rfl, rfl, fun m => setNode_thread.trans setNode_thread⟩

/-- What `sync_tool_get` leaves when the first node is `n`. -/
def dequeued (s : Sync) (a n : UInt32) : Sync :=
  (s.setSem a fun m => { m with head := s.nodeNext n }).setNode n fun m => { m with next := none }

theorem syncToolGet_of_head (hh : (s.sem a).head = some n) :
    s.syncToolGet a = (some n, s.dequeued a n) := by
  simp only [syncToolGet, hh, dequeued, nodeNext]

/-! ### `sem_P` -/

/-- A unit of the semaphore is taken. -/
structure Takes (main a : UInt32) (s t : Sync) (A : Sched UInt32) : Prop where
  available : (s.sem a).val ≠ 0
  val : (t.sem a).val = (s.sem a).val - 1
  head : (t.sem a).head = (s.sem a).head
  sem : ∀ b ≠ a, t.sem b = s.sem b
  node : t.node = s.node
  holder : t.holder = s.holder
  frames : t.frames = s.frames
  rep : Represents main t.threads A

/-- The node is added to the queue, and another thread goes on. -/
structure Waits (main a n : UInt32) (s t : Sync) (A : Sched UInt32) : Prop where
  empty : (s.sem a).val = 0
  val : (t.sem a).val = 0
  sem : ∀ b ≠ a, t.sem b = s.sem b
  thread : ∀ m, (t.node m).thread = if m = n then s.cur else (s.node m).thread
  queue : ∀ q, IsList s.nodeNext (s.sem a).head q → n ∉ q →
    IsList t.nodeNext (t.sem a).head (q ++ [n]) ∧ ∀ m ∉ q, m ≠ n → t.nodeNext m = s.nodeNext m
  holder : t.holder = s.holder
  frames : t.frames = s.frames
  switched : A.threadBlock.1 = .switched
  rep : Represents main t.threads A.threadBlock.2

/-- When no other thread is ready, the loop of `sem_P` does not end. -/
theorem semPLoop_none (h : Represents main s.threads A) (hno : ∀ b ∈ A.rest, A.status b ≠ .ready)
    (hval : (s.sem a).val = 0) : semPLoop a n c k s = none := by
  induction k generalizing s A with
  | zero => rfl
  | succ k ih =>
      rw [semPLoop, if_pos hval]
      cases hadd : (s.setNode n fun m => { m with thread := s.cur }).syncToolAdd a n with
      | none => simp only [hadd, Option.bind_eq_bind, Option.bind_none]
      | some u =>
          obtain ⟨hthreads, -, -, -, hval', -⟩ := syncToolAdd_keeps hadd
          simp only [hadd, Option.bind_eq_bind, Option.bind_some]
          cases hblock : u.threads.threadBlock with
          | none => simp only [threadBlock, hblock, Option.bind_eq_bind, Option.bind_none]
          | some r =>
              obtain ⟨switch, c', th⟩ := r
              have hrep : Represents main u.threads A := hthreads ▸ h
              obtain ⟨hsw, hrep', -⟩ := hrep.threadBlock_spec hblock
              rw [Sched.threadBlock_of_none h.ring.notMem hno] at hsw hrep'
              simp only [threadBlock, hblock, Option.bind_eq_bind, Option.bind_some, hsw,
                List.isEmpty_nil, if_true, reduceCtorEq, if_false]
              refine ih hrep' ?_ (hval'.trans hval)
              intro b hb
              have hne : b ≠ A.cur := fun e => h.ring.notMem (e ▸ hb)
              simp only [Sched.setStatus_status, Function.update_of_ne hne]
              exact hno b hb

/-- **A call of `sem_P`** takes a unit, or it waits for one. -/
theorem semPLoop_ends (h : Represents main s.threads A) (ht : semPLoop a n c k s = some (fs, t)) :
    fs = [] ∧ Takes main a s t A ∨
      ∃ c', fs = [.threadBlock c', .semP a n c] ∧ Waits main a n s t A := by
  cases k with
  | zero => cases ht
  | succ k =>
      by_cases hval : (s.sem a).val = 0
      · rcases A.ready_cases with hno | ⟨l₁, b, l₂, e, hno, hb⟩
        · rw [semPLoop_none h hno hval] at ht
          cases ht
        · rw [semPLoop, if_pos hval] at ht
          obtain ⟨u, hadd, ht⟩ := Option.bind_eq_some_iff.mp ht
          obtain ⟨⟨fs', v⟩, hblock, ht⟩ := Option.bind_eq_some_iff.mp ht
          obtain ⟨⟨switch, c', th⟩, hth, hblock⟩ := Option.bind_eq_some_iff.mp hblock
          obtain ⟨hthreads, hholder, hframes, hsem, hval', hthread⟩ := syncToolAdd_keeps hadd
          have hrep : Represents main u.threads A := hthreads ▸ h
          obtain ⟨hsw, hrep', -⟩ := hrep.threadBlock_spec hth
          have hswitched : A.threadBlock.1 = .switched := by
            rw [Sched.threadBlock_of_split h.ring.notMem e hno hb]
          simp only [if_pos (hsw.trans hswitched)] at hblock
          obtain ⟨rfl, rfl⟩ := Prod.mk.inj (Option.some.inj hblock)
          obtain ⟨rfl, rfl⟩ := Prod.mk.inj (Option.some.inj ht)
          refine Or.inr ⟨c', rfl, hval, hval'.trans hval, hsem, ?_, ?_,
            hholder, hframes, hswitched, hrep'⟩
          · intro m
            exact (hthread m).trans setNode_owner
          · intro q hq hn
            have hnext := setNode_owner_nodeNext (s := s) (p := n) (t := s.cur)
            obtain ⟨v, hv, hlist, hother⟩ := syncToolAdd_eq (hnext ▸ hq) hn
            obtain rfl := Option.some.inj (hv.symm.trans hadd)
            exact ⟨hlist, fun m hm hmn => (hother m hm hmn).trans (congrFun hnext m)⟩
      · rw [semPLoop, if_neg hval] at ht
        obtain ⟨rfl, rfl⟩ := Prod.mk.inj (Option.some.inj ht)
        obtain ⟨r, hr⟩ := (s.setSem a fun m => { m with val := m.val - 1 }).stiCondition_eq c
        rw [hr]
        refine Or.inl ⟨rfl, hval, ?_, ?_, ?_, rfl, rfl, rfl, h.with_cpu r⟩
        · rw [withCpu_sem, setSem_self]
        · rw [withCpu_sem, setSem_self]
        · intro b hb
          rw [withCpu_sem, setSem_of_ne _ hb]

theorem Takes.of_cpu {r : Context} (h : Takes main a (s.withCpu r) t A) : Takes main a s t A :=
  ⟨h.available, h.val, h.head, h.sem, h.node, h.holder, h.frames, h.rep⟩

theorem Waits.of_cpu {r : Context} (h : Waits main a n (s.withCpu r) t A) : Waits main a n s t A :=
  ⟨h.empty, h.val, h.sem, h.thread, h.queue, h.holder, h.frames, h.switched, h.rep⟩

/-- What `sem_P` does when it is called. -/
theorem semP_spec (h : Represents main s.threads A) (ht : s.semP a n = some (fs, t)) :
    fs = [] ∧ Takes main a s t A ∨
      ∃ c c', fs = [.threadBlock c', .semP a n c] ∧ Waits main a n s t A := by
  obtain ⟨r, hr⟩ := s.cliCondition_eq
  simp only [semP, hr] at ht
  rcases semPLoop_ends (h.with_cpu r) ht with ⟨e, htakes⟩ | ⟨c', e, hwaits⟩
  · exact Or.inl ⟨e, htakes.of_cpu⟩
  · exact Or.inr ⟨_, c', e, hwaits.of_cpu⟩

/-- What is left of `sem_P` does the same. -/
theorem goOnAll_semP {c' : Bool} (h : Represents main s.threads A)
    (ht : goOnAll [.threadBlock c', .semP a n c] s = some (fs, t)) :
    fs = [] ∧ Takes main a s t A ∨
      ∃ c', fs = [.threadBlock c', .semP a n c] ∧ Waits main a n s t A := by
  obtain ⟨r, hr⟩ := s.stiCondition_eq c'
  simp only [goOnAll, goOn, hr, Option.bind_eq_bind, Option.bind_some, List.isEmpty_nil,
    if_true] at ht
  obtain ⟨⟨fs', u⟩, hu, ht⟩ := Option.bind_eq_some_iff.mp ht
  rcases semPLoop_ends (h.with_cpu r) hu with ⟨rfl, htakes⟩ | ⟨c'', rfl, hwaits⟩
  · obtain ⟨rfl, rfl⟩ := Prod.mk.inj (Option.some.inj ht)
    exact Or.inl ⟨rfl, htakes.of_cpu⟩
  · obtain ⟨rfl, rfl⟩ := Prod.mk.inj (Option.some.inj ht)
    exact Or.inr ⟨c'', rfl, hwaits.of_cpu⟩

/-! ### `sem_V` -/

/-- A unit is posted, and the thread of the first node becomes ready. -/
structure Posts (main a : UInt32) (s t : Sync) (A : Sched UInt32) : Prop where
  val : (t.sem a).val = (s.sem a).val + 1
  sem : ∀ b ≠ a, t.sem b = s.sem b
  thread : ∀ m, (t.node m).thread = (s.node m).thread
  holder : t.holder = s.holder
  frames : t.frames = s.frames
  wakes : (s.sem a).head = none ∧ (t.sem a).head = none ∧ t.nodeNext = s.nodeNext ∧
      Represents main t.threads A ∨
    ∃ n, (s.sem a).head = some n ∧ (t.sem a).head = s.nodeNext n ∧
      (∀ m ≠ n, t.nodeNext m = s.nodeNext m) ∧
      Represents main t.threads (A.setStatus (s.node n).thread .ready)

theorem Posts.of_cpu {r : Context} (h : Posts main a (s.withCpu r) t A) : Posts main a s t A :=
  ⟨h.val, h.sem, h.thread, h.holder, h.frames, h.wakes⟩

theorem Posts.with_cpu (h : Posts main a s t A) (r : Context) : Posts main a s (t.withCpu r) A :=
  ⟨h.val, h.sem, h.thread, h.holder, h.frames, h.wakes.imp
    (fun hw => ⟨hw.1, hw.2.1, hw.2.2.1, hw.2.2.2.with_cpu r⟩)
    fun ⟨n, hw⟩ => ⟨n, hw.1, hw.2.1, hw.2.2.1, hw.2.2.2.with_cpu r⟩⟩

theorem Posts.exists_rep (h : Posts main a s t A) : ∃ B, Represents main t.threads B := by
  rcases h.wakes with ⟨-, -, -, hrep⟩ | ⟨n, -, -, -, hrep⟩
  · exact ⟨_, hrep⟩
  · exact ⟨_, hrep⟩

/-- The state at the end of `sem_V`, before the flag is restored. -/
def posted (s : Sync) (a : UInt32) : Sync :=
  (match (s.sem a).head with
    | none => s
    | some n =>
        { s.dequeued a n with threads := s.threads.threadWakeup ((s.dequeued a n).node n).thread }).setSem
    a fun m => { m with val := m.val + 1 }

theorem semV_eq (s : Sync) (a : UInt32) : ∃ r r', s.semV a = ((s.withCpu r).posted a).withCpu r' := by
  obtain ⟨r, hr⟩ := s.cliCondition_eq
  obtain ⟨r', hr'⟩ := ((s.withCpu r).posted a).stiCondition_eq s.threads.getIntFlag
  refine ⟨r, r', ?_⟩
  rw [← hr', semV, hr, posted]
  cases hh : ((s.withCpu r).sem a).head with
  | none => simp only [syncToolIsEmpty, hh, Option.isNone_none, if_true]
  | some n =>
      simp only [syncToolIsEmpty, hh, Option.isNone_some, Bool.false_eq_true, if_false,
        syncToolGet_of_head hh]
      rfl

theorem posted_posts (h : Represents main s.threads A) : Posts main a s (s.posted a) A := by
  cases hh : (s.sem a).head with
  | none =>
      simp only [posted, hh]
      refine ⟨?_, fun b hb => setSem_of_ne _ hb, fun _ => rfl, rfl, rfl, Or.inl ⟨hh, ?_, rfl, h⟩⟩
      · rw [setSem_self]
      · rw [setSem_self, hh]
  | some n =>
      have hthread : ∀ m, ((s.dequeued a n).node m).thread = (s.node m).thread := fun m =>
        setNode_thread
      have hnext : ∀ m ≠ n, (s.dequeued a n).nodeNext m = s.nodeNext m := fun m hm =>
        setNode_nodeNext_of_ne _ hm
      have hself : (s.dequeued a n).sem a = ⟨(s.sem a).val, s.nodeNext n⟩ :=
        setSem_self fun m => { m with head := s.nodeNext n }
      have hother : ∀ b ≠ a, (s.dequeued a n).sem b = s.sem b := fun b hb =>
        setSem_of_ne (fun m => { m with head := s.nodeNext n }) hb
      simp only [posted, hh]
      refine ⟨?_, ?_, hthread, rfl, rfl, Or.inr ⟨n, hh, ?_, hnext, ?_⟩⟩
      · rw [setSem_self]
        exact congrArg (fun m => m.val + 1) hself
      · intro b hb
        rw [setSem_of_ne _ hb]
        exact hother b hb
      · rw [setSem_self]
        exact congrArg Sem.head hself
      · rw [hthread n]
        exact (h.threadWakeup_spec _).1

/-- **A call of `sem_V`** posts a unit. -/
theorem semV_spec (h : Represents main s.threads A) : Posts main a s (s.semV a) A := by
  obtain ⟨r, r', hr⟩ := s.semV_eq a
  rw [hr]
  exact (posted_posts (h.with_cpu r)).of_cpu.with_cpu r'

/-! ### Locks -/

/-- What `lock_acquire` does when it is called. -/
theorem lockAcquire_spec (h : Represents main s.threads A)
    (ht : s.lockAcquire l n = some (fs, t)) :
    s.holder l = s.cur ∧ fs = [] ∧ (∃ r, t = s.withCpu r) ∨
    s.holder l ≠ s.cur ∧ fs = [] ∧
      (∃ u r, Takes main (lockSem l) s u A ∧ t = (u.setHolder l u.cur).withCpu r) ∨
    s.holder l ≠ s.cur ∧
      ∃ c c' c'', fs = [.threadBlock c'', .semP (lockSem l) n c', .lockAcquire l c] ∧
        Waits main (lockSem l) n s t A := by
  obtain ⟨r, hr⟩ := s.cliCondition_eq
  simp only [lockAcquire, hr] at ht
  by_cases hcur : s.holder l = s.cur
  · have hcur' : ¬ (s.withCpu r).holder l ≠ (s.withCpu r).cur := fun hne => hne hcur
    rw [if_neg hcur'] at ht
    obtain ⟨rfl, rfl⟩ := Prod.mk.inj (Option.some.inj ht)
    obtain ⟨r', hr'⟩ := (s.withCpu r).stiCondition_eq s.threads.getIntFlag
    exact Or.inl ⟨hcur, rfl, r', hr'⟩
  · have hcur' : (s.withCpu r).holder l ≠ (s.withCpu r).cur := hcur
    rw [if_pos hcur'] at ht
    obtain ⟨⟨fs', u⟩, hu, ht⟩ := Option.bind_eq_some_iff.mp ht
    rcases semP_spec (h.with_cpu r) hu with ⟨rfl, htakes⟩ | ⟨c, c', rfl, hwaits⟩
    · obtain ⟨rfl, rfl⟩ := Prod.mk.inj (Option.some.inj ht)
      obtain ⟨r', hr'⟩ := (u.setHolder l u.cur).stiCondition_eq s.threads.getIntFlag
      exact Or.inr (Or.inl ⟨hcur, rfl, u, r', htakes.of_cpu, hr'⟩)
    · obtain ⟨rfl, rfl⟩ := Prod.mk.inj (Option.some.inj ht)
      exact Or.inr (Or.inr ⟨hcur, _, c, c', rfl, hwaits.of_cpu⟩)

/-- What is left of `lock_acquire` does. -/
theorem goOnAll_lockAcquire {c' c'' : Bool} (h : Represents main s.threads A)
    (ht : goOnAll [.threadBlock c'', .semP a n c', .lockAcquire l c] s = some (fs, t)) :
    fs = [] ∧ (∃ u r, Takes main a s u A ∧ t = (u.setHolder l u.cur).withCpu r) ∨
      ∃ c'', fs = [.threadBlock c'', .semP a n c', .lockAcquire l c] ∧ Waits main a n s t A := by
  obtain ⟨r, hr⟩ := s.stiCondition_eq c''
  rw [goOnAll] at ht
  simp only [goOn, hr, Option.bind_eq_bind, Option.bind_some, List.isEmpty_nil, if_true] at ht
  rw [goOnAll] at ht
  obtain ⟨⟨fs', u⟩, hu, ht⟩ := Option.bind_eq_some_iff.mp ht
  rcases semPLoop_ends (h.with_cpu r) hu with ⟨rfl, htakes⟩ | ⟨c'', rfl, hwaits⟩
  · obtain ⟨r', hr'⟩ := (u.setHolder l u.cur).stiCondition_eq c
    simp only [List.isEmpty_nil, if_true, goOnAll, goOn, lockTaken, hr', Option.bind_eq_bind,
      Option.bind_some, Option.some.injEq, Prod.mk.injEq] at ht
    obtain ⟨rfl, rfl⟩ := ht
    exact Or.inl ⟨rfl, u, r', htakes.of_cpu, rfl⟩
  · obtain ⟨rfl, rfl⟩ := Prod.mk.inj (Option.some.inj ht)
    exact Or.inr ⟨c'', rfl, hwaits.of_cpu⟩

/-- What `lock_release` does. -/
theorem lockRelease_spec (h : Represents main s.threads A) :
    s.holder l ≠ s.cur ∧ (∃ r, s.lockRelease l = s.withCpu r) ∨
      s.holder l = s.cur ∧ Posts main (lockSem l) (s.setHolder l 0) (s.lockRelease l) A := by
  obtain ⟨r, hr⟩ := s.cliCondition_eq
  by_cases hcur : s.holder l = s.cur
  · have hcur' : (s.withCpu r).holder l = (s.withCpu r).cur := hcur
    obtain ⟨r', hr'⟩ := (((s.withCpu r).setHolder l 0).semV (lockSem l)).stiCondition_eq
      s.threads.getIntFlag
    have hposts : Posts main (lockSem l) ((s.setHolder l 0).withCpu r)
        (((s.withCpu r).setHolder l 0).semV (lockSem l)) A := semV_spec (h.with_cpu r)
    refine Or.inr ⟨hcur, ?_⟩
    simp only [lockRelease, hr, if_pos hcur', hr']
    exact hposts.of_cpu.with_cpu r'
  · have hcur' : ¬ (s.withCpu r).holder l = (s.withCpu r).cur := hcur
    obtain ⟨r', hr'⟩ := (s.withCpu r).stiCondition_eq s.threads.getIntFlag
    refine Or.inl ⟨hcur, r', ?_⟩
    simp only [lockRelease, hr, if_neg hcur', hr']
    rfl

/-! ### Steps -/

/-- The same state with other frames of one thread. -/
def setFrames (s : Sync) (x : UInt32) (fs : List Frame) : Sync :=
  { s with frames := Function.update s.frames x fs }

theorem setFrames_self {x : UInt32} : (s.setFrames x fs).frames x = fs := Function.update_self x _ _

theorem setFrames_of_ne {x y : UInt32} (h : y ≠ x) : (s.setFrames x fs).frames y = s.frames y :=
  Function.update_of_ne h _ _

/-- Every step executes a body and keeps what is left of it. -/
theorem step_eq_some {op : SyncOp} (h : step op s = some t) :
    ∃ fs u, body op s = some (fs, u) ∧ t = u.setFrames s.cur fs := by
  obtain ⟨⟨fs, u⟩, hu, rfl⟩ := Option.map_eq_some_iff.mp h
  exact ⟨fs, u, hu, rfl⟩

end Sync
end BHOS
