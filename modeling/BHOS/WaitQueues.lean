import BHOS.Lib.Runs
import BHOS.Scheduler
import BHOS.SyncSteps

/-! # The wait queues of the semaphores

Every node in the queue of a semaphore should belong to a thread that is blocked in `sem_P` on
this semaphore.  `sem_P` and `sem_V` keep this, because a thread is woken up when its node is taken
off the queue, and only then.  `exit` makes the next thread of the ring current even when it is
blocked; its node is then still in a queue while the thread goes on. -/

namespace BHOS

open Linked Transition Threads

namespace Sched

variable {α : Type} [DecidableEq α] {A : Sched α} {a : α}

/-- `schedule` blocks no thread and wakes none up but the current one. -/
theorem schedule_blocked (hcur : A.status A.cur ≠ .blocked) :
    A.schedule.2.status a = .blocked ↔ A.status a = .blocked := by
  rcases A.ready_cases with hno | ⟨l₁, b, l₂, e, hno, hb⟩
  · rw [schedule_of_none hno]
    split_ifs
    · exact Iff.rfl
    · by_cases ha : a = A.cur
      · subst ha
        simp [hcur]
      · rw [setStatus_status, Function.update_of_ne ha]
  · rw [schedule_of_split e hno hb]
    by_cases hab : a = b
    · subst hab
      simp [switch_status_self, hb]
    · simp only [switch, Function.update_of_ne hab]
      split_ifs with hr
      · by_cases ha : a = A.cur
        · subst ha
          simp [hr]
        · rw [Function.update_of_ne ha]
      · exact Iff.rfl

theorem schedule_cur_blocked (hcur : A.status A.cur ≠ .blocked) :
    A.schedule.2.status A.schedule.2.cur ≠ .blocked := by
  intro h
  rw [schedule_blocked hcur] at h
  rcases A.schedule_cur with he | ⟨-, hr⟩
  · exact hcur (he ▸ h)
  · rw [hr] at h
    cases h

/-- A thread that blocks and lets another thread go on is blocked afterwards. -/
theorem threadBlock_blocked (hcur : A.cur ∉ A.rest) (hsw : A.threadBlock.1 = .switched) :
    (A.threadBlock.2.status a = .blocked ↔ a = A.cur ∨ A.status a = .blocked) ∧
      A.threadBlock.2.status A.threadBlock.2.cur ≠ .blocked := by
  rcases A.ready_cases with hno | ⟨l₁, b, l₂, e, hno, hb⟩
  · rw [threadBlock_of_none hcur hno] at hsw
    cases hsw
  · have hbc : b ≠ A.cur := fun h => hcur (h ▸ e ▸ by simp)
    have hrun : ¬ (A.setStatus A.cur .blocked).status A.cur = .running := by simp
    rw [threadBlock_of_split hcur e hno hb]
    refine ⟨?_, ?_⟩
    · by_cases hab : a = b
      · subst hab
        simp [switch_status_self, hb, hbc]
      · simp only [switch, setStatus_cur, Function.update_of_ne hab, setStatus_status]
        by_cases ha : a = A.cur
        · subst ha
          simp
        · simp [ha]
    · exact fun h => by
        rw [switch] at h
        simp at h

theorem mem_threadBlock : a ∈ A.threadBlock.2.threads ↔ a ∈ A.threads := mem_schedule

end Sched

namespace Sync

variable {s t u : Sync} {A B : Sched UInt32} {main a b n x y : UInt32} {c : Bool}
  {q : UInt32 → List UInt32} {fs : List Frame} {op : SyncOp}

/-- What is left of the calls of a thread is a call of `sem_P` that waits with this node. -/
def Waiting (s : Sync) (x a n : UInt32) : Prop :=
  ∃ c c', s.frames x = [.threadBlock c, .semP a n c']

theorem Waiting.unique (h₁ : s.Waiting x a n) {m : UInt32} (h₂ : s.Waiting x b m) :
    a = b ∧ n = m := by
  obtain ⟨c₁, c₁', h₁⟩ := h₁
  obtain ⟨c₂, c₂', h₂⟩ := h₂
  rw [h₁] at h₂
  injection h₂ with _ h₂
  injection h₂ with h₂
  injection h₂ with ha hn
  exact ⟨ha, hn⟩

theorem waiting_congr (hf : t.frames x = s.frames x) : t.Waiting x a n ↔ s.Waiting x a n := by
  unfold Waiting
  rw [hf]

/-- The running thread has left its call. -/
theorem waiting_idle (hf : t.frames = Function.update s.frames s.cur []) :
    t.Waiting x a n ↔ x ≠ s.cur ∧ s.Waiting x a n := by
  by_cases hx : x = s.cur
  · refine iff_of_false ?_ fun h => h.1 hx
    rintro ⟨c, c', hw⟩
    rw [hf, hx, Function.update_self] at hw
    cases hw
  · have hcongr : t.Waiting x a n ↔ s.Waiting x a n :=
      waiting_congr (by rw [hf, Function.update_of_ne hx])
    exact hcongr.trans (and_iff_right hx).symm

/-- A new thread gets a fresh control block, the node of a call of `sem_P` is none in use, a thread
goes on with what is left of its calls; the calls are `create_thread`, `schedule`, `sem_P`,
`sem_V` and `exit`. -/
def QueueAllowed (op : SyncOp) (s : Sync) : Prop :=
  Enabled op s ∧
    match op with
    | .createThread _ addr _ _ _ _ => addr ≠ 0 ∧ ¬ s.threads.InRing addr
    | .semP _ n => ∀ x a, ¬ s.Waiting x a n
    | .schedule | .semV _ | .exit | .resume => True
    | _ => False

/-- The thread is blocked and suspended in `sem_P` on this semaphore with this node. -/
def Suspended (s : Sync) (x a n : UInt32) : Prop :=
  x ≠ s.cur ∧ s.threads.status x = .blocked ∧ s.Waiting x a n

/-- The queue of every semaphore is a list without cycles, it has at most one node of a thread,
and every node belongs to a thread that is suspended in `sem_P` on the semaphore. -/
def WellQueued (s : Sync) : Prop :=
  ∀ a, ∃ l, IsList s.nodeNext (s.sem a).head l ∧ (l.map fun n => (s.node n).thread).Nodup ∧
    ∀ n ∈ l, s.Suspended (s.node n).thread a n

/-- The step leaves well formed queues. -/
def KeepsQueues (op : SyncOp) (s : Sync) : Prop := ∀ t, step op s = some t → t.WellQueued

/-- An exiting thread is followed by a thread that is not blocked. -/
def ExitsAwake (op : SyncOp) (s : Sync) : Prop :=
  op = .exit → s.threads.status (s.threads.tcb s.cur).next ≠ .blocked

/-! ### The invariant -/

/-- `q` lists the nodes of the queues: they are the nodes of the blocked threads. -/
structure Queued (main : UInt32) (s : Sync) (A : Sched UInt32) (q : UInt32 → List UInt32) :
    Prop where
  rep : Represents main s.threads A
  queue : ∀ a, IsList s.nodeNext (s.sem a).head (q a)
  outside : ∀ x, s.frames x ≠ [] → x ∈ A.threads
  shape : ∀ x, s.frames x = [] ∨ ∃ a n, s.Waiting x a n
  own : ∀ x a n, s.Waiting x a n → (s.node n).thread = x
  queued : ∀ a, ∀ n ∈ q a, s.Waiting (s.node n).thread a n ∧ A.status (s.node n).thread = .blocked
  blocked : ∀ x ∈ A.threads, A.status x = .blocked → ∃ a n, s.Waiting x a n ∧ n ∈ q a
  awake : A.status A.cur ≠ .blocked

theorem Queued.cur_eq (h : Queued main s A q) : s.cur = A.cur := h.rep.cur

theorem Queued.not_mem_of_fresh (h : Queued main s A q) (hn : ∀ x a, ¬ s.Waiting x a n) (a : UInt32) :
    n ∉ q a := fun hmem => hn _ _ (h.queued a n hmem).1

/-- The node of the running thread is in no queue. -/
theorem Queued.not_mem_of_cur (h : Queued main s A q) (hw : s.Waiting s.cur a n) (b : UInt32) :
    n ∉ q b := by
  intro hmem
  obtain ⟨-, hst⟩ := h.queued b n hmem
  rw [h.own _ _ _ hw, h.cur_eq] at hst
  exact h.awake hst

/-- Different threads wait with different nodes. -/
theorem Queued.thread_eq (h : Queued main s A q) (h₁ : s.Waiting x a n) (h₂ : s.Waiting y b n) :
    x = y := (h.own _ _ _ h₁).symm.trans (h.own _ _ _ h₂)

/-- Two queues have no node in common. -/
theorem Queued.disjoint (h : Queued main s A q) (hb : b ≠ a) (hm : n ∈ q b) : n ∉ q a :=
  fun hm' => hb ((h.queued b n hm).1.unique (h.queued a n hm').1).1

theorem Queued.wellQueued (h : Queued main s A q) : s.WellQueued := by
  intro a
  refine ⟨q a, h.queue a, ?_, ?_⟩
  · refine List.Nodup.map_on ?_ (h.queue a).nodup
    intro n hn m hm e
    have hw := (h.queued a n hn).1
    rw [e] at hw
    exact (hw.unique (h.queued a m hm).1).2
  · intro n hn
    obtain ⟨hw, hst⟩ := h.queued a n hn
    refine ⟨?_, (congrFun h.rep.status _).trans hst, hw⟩
    intro e
    rw [e, h.cur_eq] at hst
    exact h.awake hst

/-- Steps that change neither queues nor frames. -/
theorem Queued.of_threads (h : Queued main s A q) {th : Threads} (hrep : Represents main th B)
    (hmem : ∀ x, s.frames x ≠ [] → x ∈ B.threads)
    (hnew : ∀ x ∈ B.threads, B.status x = .blocked → x ∈ A.threads ∧ A.status x = .blocked)
    (hold : ∀ x, s.frames x ≠ [] → A.status x = .blocked → B.status x = .blocked)
    (hcur : B.status B.cur ≠ .blocked) :
    Queued main { s with threads := th } B q := by
  refine ⟨hrep, h.queue, hmem, h.shape, h.own, ?_, ?_, hcur⟩
  · intro a n hn
    obtain ⟨hw, hst⟩ := h.queued a n hn
    refine ⟨hw, hold _ ?_ hst⟩
    obtain ⟨c, c', hw⟩ := hw
    simp [hw]
  · intro x hx hst
    obtain ⟨hx', hst'⟩ := hnew x hx hst
    exact h.blocked x hx' hst'

theorem Queued.createThread (h : Queued main s A q) {th : Threads} {addr : UInt32}
    (hfresh : addr ∉ A.threads) (hrep : Represents main th (A.createThread addr)) :
    Queued main { s with threads := th } (A.createThread addr) q := by
  refine h.of_threads hrep (fun x hx => Sched.mem_createThread.mpr (Or.inr (h.outside x hx)))
    ?_ ?_ ?_
  · intro x hx hst
    have hx' : x ≠ addr := by
      rintro rfl
      rw [Sched.createThread_status_self] at hst
      cases hst
    rw [Sched.createThread_status_of_ne hx'] at hst
    exact ⟨(Sched.mem_createThread.mp hx).resolve_left hx', hst⟩
  · intro x hx hst
    have hx' : x ≠ addr := fun e => hfresh (e ▸ h.outside x hx)
    rwa [Sched.createThread_status_of_ne hx']
  · have hcur : A.cur ≠ addr := fun e => hfresh (e ▸ List.mem_cons_self)
    show (A.createThread addr).status A.cur ≠ .blocked
    rw [Sched.createThread_status_of_ne hcur]
    exact h.awake

theorem Queued.schedule (h : Queued main s A q) {th : Threads}
    (hrep : Represents main th A.schedule.2) :
    Queued main { s with threads := th } A.schedule.2 q := by
  refine h.of_threads hrep (fun x hx => Sched.mem_schedule.mpr (h.outside x hx))
    ?_ ?_ (Sched.schedule_cur_blocked h.awake)
  · intro x hx hst
    exact ⟨Sched.mem_schedule.mp hx, (Sched.schedule_blocked h.awake).mp hst⟩
  · intro x _ hst
    exact (Sched.schedule_blocked h.awake).mpr hst

/-- A thread exits that is in no call, and the next one is not blocked. -/
theorem Queued.exit (h : Queued main s A q) (hidle : s.frames s.cur = []) {th : Threads}
    {stays : Bool} (hrep : Represents main th (A.exit stays))
    (hawake : A.status (A.exit stays).cur ≠ .blocked) :
    Queued main { s with threads := th } (A.exit stays) q := by
  refine h.of_threads hrep ?_ ?_ ?_ ?_
  · intro x hx
    have hne : x ≠ A.cur := fun e => hx (by rw [e, ← h.cur_eq, hidle])
    exact Sched.mem_exit_of_ne hne (h.outside x hx)
  · intro x hx hst
    rw [Sched.exit_status] at hst
    exact ⟨Sched.mem_of_exit hx, hst⟩
  · intro x _ hst
    rwa [Sched.exit_status]
  · rwa [Sched.exit_status]

/-- The running thread takes a unit and has returned from its call. -/
theorem Queued.takes (h : Queued main s A q) (ht : Takes main a s t A) :
    Queued main (t.setFrames s.cur []) A q := by
  have hother : ∀ x, x ≠ s.cur → (t.setFrames s.cur []).frames x = s.frames x := by
    intro x hx
    rw [setFrames_of_ne hx, ht.frames]
  have hwait : ∀ {x b m}, (t.setFrames s.cur []).Waiting x b m ↔ x ≠ s.cur ∧ s.Waiting x b m :=
    waiting_idle (by rw [setFrames, ht.frames])
  have hnext : (t.setFrames s.cur []).nodeNext = s.nodeNext := by
    funext m
    show (t.node m).next = (s.node m).next
    rw [ht.node]
  have hthread : ∀ m, ((t.setFrames s.cur []).node m).thread = (s.node m).thread := by
    intro m
    show (t.node m).thread = (s.node m).thread
    rw [ht.node]
  have hhead : ∀ b, ((t.setFrames s.cur []).sem b).head = (s.sem b).head := by
    intro b
    by_cases hb : b = a
    · exact hb ▸ ht.head
    · exact congrArg Sem.head (ht.sem b hb)
  have hne : ∀ x, A.status x = .blocked → x ≠ s.cur := fun x hst e => h.awake (by
    rwa [e, h.cur_eq] at hst)
  refine ⟨ht.rep, ?_, ?_, ?_, ?_, ?_, ?_, h.awake⟩
  · intro b
    rw [hnext, hhead]
    exact h.queue b
  · intro x hx
    by_cases he : x = s.cur
    · rw [he, setFrames_self] at hx
      exact absurd rfl hx
    · exact h.outside x (hother x he ▸ hx)
  · intro x
    by_cases he : x = s.cur
    · exact Or.inl (he ▸ setFrames_self)
    · refine (h.shape x).imp (fun e => (hother x he).trans e) fun ⟨b, m, hw⟩ => ⟨b, m, ?_⟩
      exact hwait.mpr ⟨he, hw⟩
  · intro x b m hw
    rw [hthread]
    exact h.own x b m (hwait.mp hw).2
  · intro b m hm
    obtain ⟨hw, hst⟩ := h.queued b m hm
    rw [hthread]
    exact ⟨hwait.mpr ⟨hne _ hst, hw⟩, hst⟩
  · intro x hx hst
    obtain ⟨b, m, hw, hm⟩ := h.blocked x hx hst
    exact ⟨b, m, hwait.mpr ⟨hne x hst, hw⟩, hm⟩

theorem mem_append_queue {m : UInt32} :
    m ∈ Function.update q a (q a ++ [n]) b ↔ m ∈ q b ∨ b = a ∧ m = n := by
  by_cases hb : b = a
  · subst hb
    rw [Function.update_self, List.mem_append, List.mem_singleton]
    exact or_congr_right (and_iff_right rfl).symm
  · rw [Function.update_of_ne hb]
    exact (or_iff_left fun hm => hb hm.1).symm

/-- The running thread adds its node to a queue and another thread goes on. -/
theorem Queued.waits (h : Queued main s A q) (hn : ∀ b, n ∉ q b)
    (hown : ∀ x b, s.Waiting x b n → x = s.cur) (ht : Waits main a n s t A)
    (hfs : ∃ c c', fs = [.threadBlock c, .semP a n c']) :
    Queued main (t.setFrames s.cur fs) A.threadBlock.2 (Function.update q a (q a ++ [n])) := by
  have hcur : A.cur ∉ A.rest := h.rep.ring.notMem
  have hblocked := fun x => (Sched.threadBlock_blocked (a := x) hcur ht.switched).1
  have hother : ∀ x, x ≠ s.cur → (t.setFrames s.cur fs).frames x = s.frames x := by
    intro x hx
    rw [setFrames_of_ne hx, ht.frames]
  have hself : (t.setFrames s.cur fs).Waiting s.cur a n := by
    obtain ⟨c, c', hfs⟩ := hfs
    exact ⟨c, c', setFrames_self.trans hfs⟩
  have hwait : ∀ {x b m}, x ≠ s.cur →
      ((t.setFrames s.cur fs).Waiting x b m ↔ s.Waiting x b m) := fun hx =>
    waiting_congr (hother _ hx)
  have hthread : ∀ {m}, m ≠ n → ((t.setFrames s.cur fs).node m).thread = (s.node m).thread :=
    fun {m} hm => by
      show (t.node m).thread = (s.node m).thread
      rw [ht.thread, if_neg hm]
  have hthread' : ((t.setFrames s.cur fs).node n).thread = s.cur := by
    show (t.node n).thread = s.cur
    rw [ht.thread, if_pos rfl]
  obtain ⟨hlist, hnext⟩ := ht.queue (q a) (h.queue a) (hn a)
  have hnw : ∀ {x b m}, x ≠ s.cur → s.Waiting x b m → m ≠ n := fun hx hw e =>
    hx (hown _ _ (e ▸ hw))
  refine ⟨ht.rep, ?_, ?_, ?_, ?_, ?_,
    ?_, (Sched.threadBlock_blocked (a := A.cur) hcur ht.switched).2⟩
  · intro b
    by_cases hb : b = a
    · subst hb
      rw [Function.update_self]
      exact hlist
    · rw [Function.update_of_ne hb]
      have hl : IsList t.nodeNext (s.sem b).head (q b) := (h.queue b).congr fun m hm =>
        hnext m (h.disjoint hb hm) fun e => hn b (e ▸ hm)
      exact (congrArg (fun m => IsList t.nodeNext m.head (q b)) (ht.sem b hb)).mpr hl
  · intro x hx
    rw [Sched.mem_threadBlock]
    by_cases he : x = s.cur
    · rw [he, h.cur_eq]
      exact List.mem_cons_self
    · exact h.outside x (hother x he ▸ hx)
  · intro x
    by_cases he : x = s.cur
    · exact Or.inr ⟨a, n, he ▸ hself⟩
    · refine (h.shape x).imp (fun e => (hother x he).trans e) fun ⟨b, m, hw⟩ => ⟨b, m, ?_⟩
      exact (hwait he).mpr hw
  · intro x b m hw
    by_cases he : x = s.cur
    · subst he
      obtain ⟨-, rfl⟩ := hself.unique hw
      exact hthread'
    · have hw := (hwait he).mp hw
      rw [hthread (hnw he hw)]
      exact h.own x b m hw
  · intro b m hm
    rcases mem_append_queue.mp hm with hm | ⟨rfl, rfl⟩
    · obtain ⟨hw, hst⟩ := h.queued b m hm
      have hne : (s.node m).thread ≠ s.cur := fun e => h.awake (by rwa [e, h.cur_eq] at hst)
      rw [hthread fun e => hn b (e ▸ hm)]
      exact ⟨(hwait hne).mpr hw, (hblocked _).mpr (Or.inr hst)⟩
    · rw [hthread']
      exact ⟨hself, (hblocked _).mpr (Or.inl h.cur_eq)⟩
  · intro x hx hst
    by_cases he : x = s.cur
    · subst he
      exact ⟨a, n, hself, mem_append_queue.mpr (Or.inr ⟨rfl, rfl⟩)⟩
    · have hst := ((hblocked x).mp hst).resolve_left fun e => he (e.trans h.cur_eq.symm)
      obtain ⟨b, m, hw, hm⟩ := h.blocked x (Sched.mem_threadBlock.mp hx) hst
      exact ⟨b, m, (hwait he).mpr hw, mem_append_queue.mpr (Or.inl hm)⟩

theorem Posts.waiting (h : Posts main a s t A) : t.Waiting x b n ↔ s.Waiting x b n :=
  waiting_congr (congrFun h.frames x)

/-- Posting leaves what the threads wait for. -/
theorem Queued.posts_shape (h : Queued main s A q) (ht : Posts main a s t A) (x : UInt32) :
    t.frames x = [] ∨ ∃ b n, t.Waiting x b n :=
  (h.shape x).imp (fun e => ht.frames ▸ e) fun ⟨b, n, hw⟩ => ⟨b, n, ht.waiting.mpr hw⟩

theorem Queued.posts_own (h : Queued main s A q) (ht : Posts main a s t A) (x b n : UInt32)
    (hw : t.Waiting x b n) : (t.node n).thread = x := by
  rw [ht.thread]
  exact h.own x b n (ht.waiting.mp hw)

/-- Posting to an empty queue. -/
theorem Queued.posts_nil (h : Queued main s A q) (ht : Posts main a s t A) (hnil : q a = [])
    (hhead : (t.sem a).head = none) (hnext : t.nodeNext = s.nodeNext)
    (hrep : Represents main t.threads A) : Queued main t A q := by
  refine ⟨hrep, ?_, ht.frames ▸ h.outside, h.posts_shape ht, h.posts_own ht, ?_, ?_, h.awake⟩
  · intro b
    rw [hnext]
    by_cases hb : b = a
    · rw [hb, hnil, hhead]
      rfl
    · rw [ht.sem b hb]
      exact h.queue b
  · intro b m hm
    rw [ht.thread]
    exact (h.queued b m hm).imp_left ht.waiting.mpr
  · intro x hx hst
    obtain ⟨b, m, hw, hm⟩ := h.blocked x hx hst
    exact ⟨b, m, ht.waiting.mpr hw, hm⟩

/-- The first node is taken off the queue and its thread is woken up. -/
theorem Queued.posts_cons (h : Queued main s A q) (ht : Posts main a s t A) (hl : q a = n :: l)
    (hhead : (t.sem a).head = s.nodeNext n) (hnext : ∀ m ≠ n, t.nodeNext m = s.nodeNext m)
    (hrep : Represents main t.threads (A.setStatus (s.node n).thread .ready)) :
    Queued main t (A.setStatus (s.node n).thread .ready) (Function.update q a l) := by
  have hq : IsList s.nodeNext (s.sem a).head (n :: l) := hl ▸ h.queue a
  have hnl : n ∉ l := (List.nodup_cons.mp hq.nodup).1
  have hna : n ∈ q a := hl ▸ List.mem_cons_self
  obtain ⟨hwn, hstn⟩ := h.queued a n hna
  -- the nodes that stay are the others
  have hstay : ∀ {b m}, m ∈ Function.update q a l b ↔ m ∈ q b ∧ m ≠ n := by
    intro b m
    by_cases hb : b = a
    · subst hb
      rw [Function.update_self, hl, List.mem_cons]
      exact ⟨fun hm => ⟨Or.inr hm, fun e => hnl (e ▸ hm)⟩, fun hm => hm.1.resolve_left hm.2⟩
    · rw [Function.update_of_ne hb]
      exact ⟨fun hm => ⟨hm, fun e => h.disjoint hb (e ▸ hm) hna⟩, And.left⟩
  have hne : ∀ {x b m}, s.Waiting x b m → m ≠ n → x ≠ (s.node n).thread := fun hw hm e =>
    hm ((e ▸ hw).unique hwn).2
  refine ⟨hrep, ?_, ht.frames ▸ h.outside, h.posts_shape ht, h.posts_own ht, ?_, ?_, ?_⟩
  · intro b
    by_cases hb : b = a
    · subst hb
      rw [Function.update_self, hhead]
      exact IsSeg.congr (fun m hm => hnext m fun e => hnl (e ▸ hm)) hq.2
    · have hlist : IsList t.nodeNext (s.sem b).head (q b) := (h.queue b).congr fun m hm =>
        hnext m fun e => h.disjoint hb (e ▸ hm) hna
      rw [Function.update_of_ne hb, ht.sem b hb]
      exact hlist
  · intro b m hm
    obtain ⟨hm, hmn⟩ := hstay.mp hm
    obtain ⟨hw, hst⟩ := h.queued b m hm
    rw [ht.thread, Sched.setStatus_status, Function.update_of_ne (hne hw hmn)]
    exact ⟨ht.waiting.mpr hw, hst⟩
  · intro x hx hst
    have hx' : x ≠ (s.node n).thread := by
      rintro rfl
      simp at hst
    rw [Sched.setStatus_status, Function.update_of_ne hx'] at hst
    obtain ⟨b, m, hw, hm⟩ := h.blocked x hx hst
    refine ⟨b, m, ht.waiting.mpr hw, hstay.mpr ⟨hm, ?_⟩⟩
    rintro rfl
    exact hx' (h.own _ _ _ hw).symm
  · have hcur : A.cur ≠ (s.node n).thread := fun e => h.awake (e ▸ hstn)
    rw [Sched.setStatus_status, Sched.setStatus_cur, Function.update_of_ne hcur]
    exact h.awake

/-- What posting does to the queue. -/
theorem Queued.posts (h : Queued main s A q) (ht : Posts main a s t A) :
    q a = [] ∧ Queued main t A q ∨
      ∃ n l, q a = n :: l ∧ (s.sem a).head = some n ∧
        Queued main t (A.setStatus (s.node n).thread .ready) (Function.update q a l) := by
  rcases ht.wakes with ⟨hnone, hnone', hnext, hrep⟩ | ⟨n, hsome, hhead, hnext, hrep⟩
  · have hnil : q a = [] := (h.queue a).eq_nil_iff.mpr hnone
    exact Or.inl ⟨hnil, h.posts_nil ht hnil hnone' hnext hrep⟩
  · have hne : q a ≠ [] := by
      intro hnil
      have hnone := (h.queue a).eq_nil_iff.mp hnil
      rw [hsome] at hnone
      cases hnone
    obtain ⟨m, l, hl⟩ := List.exists_cons_of_ne_nil hne
    have hq : IsList s.nodeNext (s.sem a).head (m :: l) := hl ▸ h.queue a
    obtain rfl : n = m := Option.some.inj (hsome.symm.trans hq.1)
    exact Or.inr ⟨n, l, hl, hsome, h.posts_cons ht hl hhead hnext hrep⟩

/-! ### Steps -/

/-- The running thread executes a call of `sem_P` on this semaphore, or what is left of one. -/
def InSemP (op : SyncOp) (s : Sync) (a : UInt32) : Prop :=
  (∃ n, op = .semP a n) ∨ op = .resume ∧ ∃ n, s.Waiting s.cur a n

/-- What a step does to the semaphores, to the queues and to the frames. -/
inductive Moves (op : SyncOp) (s t : Sync) (q : UInt32 → List UInt32) :
    (UInt32 → List UInt32) → Prop
  | other (kind : ∀ a, op ≠ .semV a ∧ ¬ InSemP op s a) (idle : s.frames s.cur = [])
      (sem : t.sem = s.sem) (frames : t.frames = s.frames) : Moves op s t q q
  | takes (a : UInt32) (kind : InSemP op s a) (available : (s.sem a).val ≠ 0)
      (val : (t.sem a).val = (s.sem a).val - 1) (sem : ∀ b ≠ a, (t.sem b).val = (s.sem b).val)
      (frames : t.frames = Function.update s.frames s.cur []) : Moves op s t q q
  | waits (a n : UInt32) (fs : List Frame) (kind : InSemP op s a) (empty : (s.sem a).val = 0)
      (sem : ∀ b, (t.sem b).val = (s.sem b).val) (fresh : ∀ b, n ∉ q b)
      (own : ∀ x b, s.Waiting x b n → x = s.cur)
      (left : ∃ c c', fs = [.threadBlock c, .semP a n c'])
      (frames : t.frames = Function.update s.frames s.cur fs) :
      Moves op s t q (Function.update q a (q a ++ [n]))
  | posts (a : UInt32) (kind : op = .semV a) (idle : s.frames s.cur = [])
      (val : (t.sem a).val = (s.sem a).val + 1) (sem : ∀ b ≠ a, (t.sem b).val = (s.sem b).val)
      (frames : t.frames = s.frames) : Moves op s t q (Function.update q a (q a).tail)

theorem Enabled.idle (h : Enabled op s) (hop : op ≠ .resume) : s.frames s.cur = [] := by
  by_contra hne
  exact hop (h.mpr hne)

theorem setFrames_eq_self (h : s.frames x = fs) : s.setFrames x fs = s := by
  rw [setFrames, ← h, Function.update_eq_self]

/-- A step that ends a call of `sem_P`. -/
theorem Queued.moves_takes (h : Queued main s A q) (hop : InSemP op s a) (ht : Takes main a s u A) :
    ∃ B q', Queued main (u.setFrames s.cur []) B q' ∧ Moves op s (u.setFrames s.cur []) q q' := by
  refine ⟨A, q, h.takes ht, .takes a hop ht.available ht.val ?_ ?_⟩
  · intro b hb
    exact congrArg Sem.val (ht.sem b hb)
  · rw [setFrames, ht.frames]

/-- A step that waits in `sem_P`. -/
theorem Queued.moves_waits (h : Queued main s A q) (hop : InSemP op s a) (hn : ∀ b, n ∉ q b)
    (hown : ∀ x b, s.Waiting x b n → x = s.cur) (ht : Waits main a n s u A)
    (hfs : ∃ c c', fs = [.threadBlock c, .semP a n c']) :
    ∃ B q', Queued main (u.setFrames s.cur fs) B q' ∧ Moves op s (u.setFrames s.cur fs) q q' := by
  refine ⟨_, _, h.waits hn hown ht hfs, .waits a n fs hop ht.empty ?_ hn hown hfs ?_⟩
  · intro b
    by_cases hb : b = a
    · subst hb
      exact ht.val.trans ht.empty.symm
    · exact congrArg Sem.val (ht.sem b hb)
  · rw [setFrames, ht.frames]

/-- A step that posts a unit. -/
theorem Queued.moves_posts (h : Queued main s A q) (hidle : s.frames s.cur = [])
    (ht : Posts main a s t A) : ∃ B q', Queued main t B q' ∧ Moves (.semV a) s t q q' := by
  have hmoves : Moves (.semV a) s t q (Function.update q a (q a).tail) :=
    .posts a rfl hidle ht.val (fun b hb => congrArg Sem.val (ht.sem b hb)) ht.frames
  rcases h.posts ht with ⟨hnil, hq⟩ | ⟨n, l, hl, -, hq⟩
  · rw [hnil, List.tail_nil, ← hnil, Function.update_eq_self] at hmoves
    exact ⟨_, _, hq, hmoves⟩
  · rw [hl, List.tail_cons] at hmoves
    exact ⟨_, _, hq, hmoves⟩

/-- A step of the thread module: queues and frames stay. -/
theorem Queued.moves_other {th : Threads} (hB : Queued main { s with threads := th } B q)
    (hkind : ∀ a, op ≠ .semV a ∧ ¬ InSemP op s a) (hidle : s.frames s.cur = []) :
    ∃ B q', Queued main (setFrames { s with threads := th } s.cur []) B q' ∧
      Moves op s (setFrames { s with threads := th } s.cur []) q q' := by
  have heq : ({ s with threads := th } : Sync).setFrames s.cur [] = { s with threads := th } :=
    setFrames_eq_self hidle
  rw [heq]
  exact ⟨B, q, hB, .other hkind hidle rfl rfl⟩

/-- **What one step does**, unless it exits to a blocked thread. -/
theorem Queued.step_moves (h : Queued main s A q) (ha : QueueAllowed op s) (he : ExitsAwake op s)
    (ht : step op s = some t) : ∃ B q', Queued main t B q' ∧ Moves op s t q q' := by
  obtain ⟨hen, ha⟩ := ha
  obtain ⟨fs, u, hu, rfl⟩ := step_eq_some ht
  cases op with
  | createThread tid addr pageCounte isKernThread userVmmPool pdtVaddr =>
      obtain ⟨h0, hfresh⟩ := ha
      rw [h.rep.inRing_iff] at hfresh
      obtain ⟨th, hth, hrep, -⟩ := h.rep.createThread_spec tid pageCounte pdtVaddr isKernThread
        userVmmPool hfresh h0
      obtain ⟨rfl, rfl⟩ := Prod.mk.inj (Option.some.inj hu)
      rw [hth]
      exact (h.createThread hfresh hrep).moves_other (fun a => by simp [InSemP])
        (hen.idle (by simp))
  | schedule =>
      obtain ⟨⟨switch, th⟩, hth, hu⟩ := Option.map_eq_some_iff.mp hu
      obtain ⟨rfl, rfl⟩ := Prod.mk.inj hu
      obtain ⟨-, hrep, -⟩ := h.rep.schedule_spec hth
      exact (h.schedule hrep).moves_other (fun a => by simp [InSemP]) (hen.idle (by simp))
  | exit =>
      obtain ⟨th, hth, hu⟩ := Option.map_eq_some_iff.mp hu
      obtain ⟨rfl, rfl⟩ := Prod.mk.inj hu
      obtain ⟨th', hth', hrep, -, hnext, -⟩ := h.rep.exit_spec
      obtain rfl := Option.some.inj (hth.symm.trans hth')
      have hidle := hen.idle (by simp)
      refine (h.exit hidle hrep ?_).moves_other (fun a => by simp [InSemP]) hidle
      rw [← hrep.cur, hnext, ← h.rep.status]
      exact he rfl
  | semP a n =>
      have hin : InSemP (.semP a n) s a := Or.inl ⟨n, rfl⟩
      rcases semP_spec h.rep hu with ⟨rfl, htakes⟩ | ⟨c, c', rfl, hwaits⟩
      · exact h.moves_takes hin htakes
      · exact h.moves_waits hin (h.not_mem_of_fresh ha) (fun x b hw => absurd hw (ha x b)) hwaits
          ⟨c', c, rfl⟩
  | semV a =>
      obtain ⟨rfl, rfl⟩ := Prod.mk.inj (Option.some.inj hu)
      have hposts : Posts main a s (s.semV a) A := semV_spec h.rep
      have hidle := hen.idle (by simp)
      have heq : (s.semV a).setFrames s.cur [] = s.semV a :=
        setFrames_eq_self (by rw [hposts.frames, hidle])
      rw [heq]
      exact h.moves_posts hidle hposts
  | resume =>
      have hne : s.frames s.cur ≠ [] := hen.mp rfl
      obtain ⟨a, n, hw⟩ := (h.shape s.cur).resolve_left hne
      have hin : InSemP .resume s a := Or.inr ⟨rfl, n, hw⟩
      have hw' := hw
      obtain ⟨c, c', hfr⟩ := hw'
      rw [body, hfr] at hu
      rcases goOnAll_semP h.rep hu with ⟨rfl, htakes⟩ | ⟨c'', rfl, hwaits⟩
      · exact h.moves_takes hin htakes
      · exact h.moves_waits hin (h.not_mem_of_cur hw) (fun x b hx => h.thread_eq hx hw) hwaits
          ⟨c'', c', rfl⟩
  | threadBlock => exact ha.elim
  | threadWakeup targetThread => exact ha.elim
  | lockAcquire l n => exact ha.elim
  | lockRelease l => exact ha.elim

/-- Exiting to a blocked thread leaves the node of the running thread in a queue. -/
theorem Queued.exit_not_wellQueued (h : Queued main s A q)
    (hb : s.threads.status (s.threads.tcb s.cur).next = .blocked) :
    ∃ t, step .exit s = some t ∧ ¬ t.WellQueued := by
  obtain ⟨th, hth, hrep, -, hnext, -⟩ := h.rep.exit_spec
  refine ⟨_, by rw [step, body, hth]; rfl, fun hwell => ?_⟩
  have hmem : (s.threads.tcb s.cur).next ∈ A.threads := by
    have hcur : th.curTcb ∈ (A.exit (decide ((s.threads.tcb s.threads.curTcb).tid = 0))).threads := by
      rw [hrep.cur]
      exact List.mem_cons_self
    rw [hnext] at hcur
    exact Sched.mem_of_exit hcur
  obtain ⟨a, n, hw, hn⟩ := h.blocked _ hmem ((congrFun h.rep.status _).symm.trans hb)
  obtain ⟨l, hl, -, hsus⟩ := hwell a
  obtain rfl := hl.unique (h.queue a)
  exact (hsus n hn).1 ((h.own _ _ _ hw).trans hnext.symm)

/-! ### Runs -/

/-- The state after `threads_init` and `sem_init` of every semaphore, with the values `val`. -/
def start (s : Sync) (main : UInt32) (val : UInt32 → UInt32) : Sync :=
  { s with
    threads := s.threads.threadsInit main
    sem := fun a => ⟨val a, none⟩
    frames := fun _ => [] }

theorem queued_start (s : Sync) (h0 : main ≠ 0) (val : UInt32 → UInt32) :
    Queued main (s.start main val) ⟨main, [], Function.update s.threads.status main .running⟩
      fun _ => [] := by
  have hidle : ∀ x, (s.start main val).frames x = [] := fun x => rfl
  have hno : ∀ {x a n}, ¬ (s.start main val).Waiting x a n := by
    rintro x a n ⟨c, c', hw⟩
    rw [hidle] at hw
    cases hw
  refine ⟨represents_threadsInit s.threads h0, fun a => rfl, fun x hx => absurd (hidle x) hx,
    fun x => Or.inl (hidle x), fun x a n hw => absurd hw hno, fun a n hn => absurd hn List.not_mem_nil,
    ?_, ?_⟩
  · intro x hx hst
    obtain rfl := List.mem_singleton.mp hx
    simp at hst
  · simp

/-- **The wait queues stay well formed** in a run exactly when no thread exits to a blocked one. -/
theorem keepsQueues_iff_exitsAwake (s : Sync) (main : UInt32) (h0 : main ≠ 0)
    (val : UInt32 → UInt32) :
    (s.start main val).WellQueued ∧
    ∀ ops, Along step QueueAllowed ops (s.start main val) →
      (Along step KeepsQueues ops (s.start main val) ↔
        Along step ExitsAwake ops (s.start main val)) ∧
      (Along step ExitsAwake ops (s.start main val) →
        ∀ t, run step ops (s.start main val) = some t → t.WellQueued) := by
  have hinit : ∃ A q, Queued main (s.start main val) A q := ⟨_, _, queued_start s h0 val⟩
  have hI : ∀ op s t, (∃ A q, Queued main s A q) → QueueAllowed op s → ExitsAwake op s →
      step op s = some t → ∃ A q, Queued main t A q := fun op s t ⟨A, q, hs⟩ ha he ht => by
    obtain ⟨B, q', hB, -⟩ := hs.step_moves ha he ht
    exact ⟨B, q', hB⟩
  refine ⟨(queued_start s h0 val).wellQueued, fun ops ha => ⟨along_iff hI ?_ hinit ha, ?_⟩⟩
  · rintro op s ⟨A, q, hs⟩ ha
    constructor
    · rintro hk rfl hb
      obtain ⟨t, ht, hno⟩ := hs.exit_not_wellQueued hb
      exact hno (hk t ht)
    · intro he t ht
      obtain ⟨B, q', hB, -⟩ := hs.step_moves ha he ht
      exact hB.wellQueued
  · intro he t ht
    obtain ⟨A, q, hA⟩ := invariant (fun op s t hs hq ht => hI op s t hs hq.1 hq.2 ht) hinit
      (ha.and he) ht
    exact hA.wellQueued

/-- A node that was never used waits for no thread. -/
theorem Queued.fresh (h : Queued main s A q) (h0 : (s.node n).thread = 0) (x a : UInt32) :
    ¬ s.Waiting x a n := by
  intro hw
  obtain rfl := (h.own x a n hw).symm.trans h0
  obtain ⟨c, c', hw⟩ := hw
  exact h.rep.nonNull (h.outside 0 (by simp [hw]))

instance (op : SyncOp) (s : Sync) : Decidable (Enabled op s) :=
  match op with
  | .resume => decidable_of_iff ((s.frames s.cur).isEmpty = false) (by simp [Enabled])
  | .createThread .. | .schedule | .exit | .threadBlock | .threadWakeup _ | .semP .. | .semV _
  | .lockAcquire .. | .lockRelease _ =>
      decidable_of_iff ((s.frames s.cur).isEmpty = true) (by simp [Enabled])

/-- Memory that is zero. -/
def zero : Sync := ⟨Threads.zero, fun _ => ⟨0, none⟩, fun _ => ⟨0, none⟩, fun _ => 0, fun _ => []⟩

/-- The main thread creates two threads; all semaphores have no unit. -/
def threeThreads : List SyncOp :=
  [.createThread 1 0xC0400000 1 true ⟨0, 0, 0⟩ 0, .createThread 2 0xC0500000 1 true ⟨0, 0, 0⟩ 0]

theorem allowed_threeThreads :
    Along step QueueAllowed threeThreads (zero.start 0xC0110000 fun _ => 0) := by
  have hinit := (queued_start zero (show (0xC0110000 : UInt32) ≠ 0 by decide) fun _ => 0).rep
  obtain ⟨th, hth, hrep, -⟩ := hinit.createThread_spec 1 1 0 true ⟨0, 0, 0⟩ (by decide)
    (show (0xC0400000 : UInt32) ≠ 0 by decide)
  refine ⟨⟨by decide, by decide, ?_⟩, fun t ht => ⟨⟨?_, by decide, ?_⟩, fun _ _ => trivial⟩⟩
  · rw [hinit.inRing_iff]
    decide
  · obtain rfl := Option.some.inj ht
    decide
  · obtain rfl := Option.some.inj ht
    have hring := hrep.inRing_iff (a := 0xC0500000)
    rw [← hth] at hring
    exact fun h => absurd (hring.mp h) (by decide)

/-- The state of three threads. -/
theorem queued_threeThreads : ∃ u A q,
    run step threeThreads (zero.start 0xC0110000 fun _ => 0) = some u ∧
      Queued 0xC0110000 u A q := by
  obtain ⟨u, hu⟩ : ∃ u, run step threeThreads (zero.start 0xC0110000 fun _ => 0) = some u :=
    ⟨_, rfl⟩
  have hinit := queued_start zero (show (0xC0110000 : UInt32) ≠ 0 by decide) fun _ => 0
  obtain ⟨A, q, hA⟩ := invariant (I := fun s => ∃ A q, Queued 0xC0110000 s A q)
    (Q := fun op s => QueueAllowed op s ∧ ExitsAwake op s)
    (fun op s t ⟨A, q, hs⟩ hq ht => by
      obtain ⟨B, q', hB, -⟩ := hs.step_moves hq.1 hq.2 ht
      exact ⟨B, q', hB⟩) ⟨_, _, hinit⟩
    (allowed_threeThreads.and (along_of_forall fun op hop s e => by
      subst e
      simp [threeThreads] at hop)) hu
  exact ⟨u, A, q, hu, hA⟩

/-- The step creates no thread, and the node of a call of `sem_P` was never used. -/
def Unused (op : SyncOp) (s : Sync) : Prop :=
  match op with
  | .semP _ n => (s.node n).thread = 0
  | .schedule | .semV _ | .exit | .resume => True
  | _ => False

instance (op : SyncOp) (s : Sync) : Decidable (Unused op s) :=
  match op with
  | .semP _ n => inferInstanceAs (Decidable ((s.node n).thread = 0))
  | .schedule | .semV _ | .exit | .resume => isTrue trivial
  | .createThread .. | .threadBlock | .threadWakeup _ | .lockAcquire .. | .lockRelease _ =>
      isFalse id

theorem Queued.allowed_of_unused {ops : List SyncOp} (h : Queued main s A q)
    (hops : Along step (fun op s => Enabled op s ∧ Unused op s) ops s) (hno : .exit ∉ ops) :
    Along step QueueAllowed ops s := by
  have hex : Along step ExitsAwake ops s := along_of_forall fun op hop s e => absurd (e ▸ hop) hno
  have hallowed : ∀ op s, (∃ A q, Queued main s A q) →
      ((Enabled op s ∧ Unused op s) ∧ ExitsAwake op s) → QueueAllowed op s := by
    rintro op s ⟨A, q, hs⟩ ⟨⟨hen, hun⟩, -⟩
    refine ⟨hen, ?_⟩
    cases op with
    | semP a n => exact hs.fresh hun
    | createThread => exact hun.elim
    | _ => exact hun
  refine Along.of_invariant ?_ hallowed ⟨A, q, h⟩ (hops.and hex)
  intro op s t hs hq ht
  have ha := hallowed op s hs hq
  obtain ⟨A, q, hs⟩ := hs
  obtain ⟨B, q', hB, -⟩ := hs.step_moves ha hq.2 ht
  exact ⟨B, q', hB⟩

/-- The main thread waits, then another thread posts a unit. -/
theorem keepsQueues_iff_exitsAwake_sample : ∃ t,
    run step (threeThreads ++ [.semP 0xC0200000 0xC010FFF0, .semV 0xC0200000])
      (zero.start 0xC0110000 fun _ => 0) = some t ∧ t.WellQueued := by
  obtain ⟨-, h⟩ := keepsQueues_iff_exitsAwake zero 0xC0110000 (by decide) fun _ => 0
  obtain ⟨u, A, q, hu, hA⟩ := queued_threeThreads
  obtain ⟨t, ht⟩ : ∃ t, run step (threeThreads ++ [.semP 0xC0200000 0xC010FFF0, .semV 0xC0200000])
      (zero.start 0xC0110000 fun _ => 0) = some t := by
    rw [← Option.isSome_iff_exists]
    decide +kernel
  have hops : Along step (fun op s => Enabled op s ∧ Unused op s)
      [.semP 0xC0200000 0xC010FFF0, .semV 0xC0200000] u := by
    obtain rfl := Option.some.inj hu
    decide +kernel
  refine ⟨t, ht, (h _ ?_).2 (along_of_forall ?_) t ht⟩
  · exact (along_append hu).mpr ⟨allowed_threeThreads, hA.allowed_of_unused hops (by simp)⟩
  · intro op hop s e
    subst e
    simp [threeThreads] at hop

/-- The main thread and the second thread wait, and the third posts a unit, which wakes the main
thread up. -/
def twoWaiting : List SyncOp :=
  [.semP 0xC0200000 0xC010FFF0, .schedule, .semP 0xC0200000 0xC0400FF0, .semV 0xC0200000]

/-- The third thread exits to the second, which is blocked.  This takes the unit and returns from
`sem_P`, and its node is still the first of the queue. -/
theorem not_keepsQueues_sample :
    Along step QueueAllowed (threeThreads ++ (twoWaiting ++ [.exit, .resume]))
      (zero.start 0xC0110000 fun _ => 0) ∧
    ∃ t, run step (threeThreads ++ (twoWaiting ++ [.exit, .resume]))
        (zero.start 0xC0110000 fun _ => 0) = some t ∧
      (t.sem 0xC0200000).head = some 0xC0400FF0 ∧ (t.node 0xC0400FF0).thread = t.cur ∧
      t.frames t.cur = [] ∧ ¬ t.WellQueued := by
  obtain ⟨u, A, q, hu, hA⟩ := queued_threeThreads
  have hops : Along step (fun op s => Enabled op s ∧ Unused op s) twoWaiting u := by
    obtain rfl := Option.some.inj hu
    decide +kernel
  have hrun : ((run step twoWaiting u).bind fun v => (run step [.exit, .resume] v).map fun t =>
      (decide (Along step Enabled [.exit, .resume] v),
        decide ((t.sem 0xC0200000).head = some 0xC0400FF0),
        decide ((t.node 0xC0400FF0).thread = t.cur), (t.frames t.cur).isEmpty)) =
      some (true, true, true, true) := by
    obtain rfl := Option.some.inj hu
    decide +kernel
  obtain ⟨v, hv, hrun⟩ := Option.bind_eq_some_iff.mp hrun
  obtain ⟨t, ht, hfacts⟩ := Option.map_eq_some_iff.mp hrun
  simp only [Prod.mk.injEq, decide_eq_true_eq, List.isEmpty_iff] at hfacts
  obtain ⟨hend, hhead, hthread, hframes⟩ := hfacts
  have hlast : Along step QueueAllowed [.exit, .resume] v :=
    ⟨⟨hend.1, trivial⟩, fun w hw => ⟨⟨(hend.2 w hw).1, trivial⟩, fun _ _ => trivial⟩⟩
  refine ⟨(along_append hu).mpr ⟨allowed_threeThreads, (along_append hv).mpr
    ⟨hA.allowed_of_unused hops (by simp [twoWaiting]), hlast⟩⟩, t, ?_, hhead, hthread, hframes,
    fun hwell => ?_⟩
  · rw [run_append, hu, Option.bind_some, run_append, hv, Option.bind_some, ht]
  · obtain ⟨l, hl, -, hsus⟩ := hwell 0xC0200000
    have hn : (0xC0400FF0 : UInt32) ∈ l := List.mem_of_mem_head? (by rw [← hl.head?, hhead]; rfl)
    exact (hsus _ hn).1 hthread

end Sync
end BHOS
