import BHOS.WaitQueues

/-! # Locks

The unit of the semaphore of a lock is there exactly when the lock has no holder, whoever calls
`lock_acquire` and `lock_release` (`consistent`).  `lock_acquire` of the holder returns at once and
counts nothing, so an inner `lock_release` gives the lock away: mutual exclusion holds in a run of
bracketed calls exactly when no thread releases the lock while it holds it twice
(`excludes_iff_releasesOuter`). -/

namespace BHOS

open Linked Transition Threads

/-- What is left of a call of `lock_acquire` on this lock. -/
def Frame.onLock (l : UInt32) : Frame → Bool
  | .lockAcquire m _ => m = l
  | _ => false

/-- The step executes `lock_acquire` on this lock. -/
def SyncOp.runsAcquire (l : UInt32) : SyncOp → Sync → Bool
  | .lockAcquire m _, _ => m = l
  | .resume, s => (s.frames s.cur).any (Frame.onLock l)
  | _, _ => false

namespace Sync

variable {s t u : Sync} {A B : Sched UInt32} {main a b l m n x y : UInt32} {c : Bool}
  {fs : List Frame} {op : SyncOp}

theorem lockSem_inj : lockSem l = lockSem m ↔ l = m := by
  unfold lockSem
  exact UInt32.add_left_inj 4

/-- A call of `lock_acquire` on this lock returns in the step from `s` to `t`. -/
def acquires (l : UInt32) (op : SyncOp) (s t : Sync) : Bool :=
  op.runsAcquire l s && (t.frames s.cur).isEmpty

/-- A new thread gets a fresh control block, a thread goes on with what is left of its calls, and
only the functions of the lock use its semaphore. -/
def LockAllowed (l : UInt32) (op : SyncOp) (s : Sync) : Prop :=
  Enabled op s ∧
    match op with
    | .createThread _ addr _ _ _ _ => addr ≠ 0 ∧ ¬ s.threads.InRing addr
    | .semP a _ | .semV a => a ≠ lockSem l
    | _ => True

/-- What can be left of the calls of a thread. -/
inductive Shape (l : UInt32) : List Frame → Prop
  | idle : Shape l []
  | blocked (c : Bool) : Shape l [.threadBlock c]
  | waits (a n : UInt32) (c c' : Bool) (ha : a ≠ lockSem l) : Shape l [.threadBlock c, .semP a n c']
  | acquires (m n : UInt32) (c c' c'' : Bool) :
      Shape l [.threadBlock c, .semP (lockSem m) n c', .lockAcquire m c'']

/-- The lock has a holder and no unit, or a unit and no holder. -/
def Consistent (l : UInt32) (s : Sync) : Prop :=
  s.holder l = 0 ∧ (s.sem (lockSem l)).val = 1 ∨ s.holder l ≠ 0 ∧ (s.sem (lockSem l)).val = 0

/-- The invariant. -/
structure Locked (main l : UInt32) (s : Sync) (A : Sched UInt32) : Prop where
  rep : Represents main s.threads A
  shape : ∀ x, Shape l (s.frames x)
  consistent : Consistent l s

/-- What a step does to the lock. -/
inductive LockMoves (l : UInt32) (op : SyncOp) (s t : Sync) : Prop
  | same (holder : t.holder l = s.holder l)
      (val : (t.sem (lockSem l)).val = (s.sem (lockSem l)).val)
      (again : acquires l op s t = true → s.holder l = s.cur)
      (other : op = .lockRelease l → s.holder l ≠ s.cur)
  | takes (kind : acquires l op s t = true) (free : s.holder l = 0) (holder : t.holder l = s.cur)
      (val : (t.sem (lockSem l)).val = 0)
  | frees (kind : op = .lockRelease l) (held : s.holder l = s.cur) (holder : t.holder l = 0)
      (val : (t.sem (lockSem l)).val = 1)

theorem Locked.cur_ne (h : Locked main l s A) : s.cur ≠ 0 := by
  intro e
  have hmem : s.cur ∈ A.threads := by
    rw [cur, getRunningProgress, h.rep.cur]
    exact List.mem_cons_self
  exact h.rep.nonNull (e ▸ hmem)

theorem Locked.of_moves (h : Locked main l s A) (hrep : Represents main t.threads B)
    (hfr : t.frames = Function.update s.frames s.cur fs) (hfs : Shape l fs)
    (hm : LockMoves l op s t) : Locked main l t B ∧ LockMoves l op s t := by
  refine ⟨⟨hrep, ?_, ?_⟩, hm⟩
  · intro x
    rw [hfr]
    by_cases hx : x = s.cur
    · rw [hx, Function.update_self]
      exact hfs
    · rw [Function.update_of_ne hx]
      exact h.shape x
  · unfold Consistent
    cases hm with
    | same holder val again other =>
        rw [holder, val]
        exact h.consistent
    | takes kind free holder val => exact Or.inr ⟨holder ▸ h.cur_ne, val⟩
    | frees kind held holder val => exact Or.inl ⟨holder, val⟩

/-- Steps that leave lock and semaphore alone. -/
theorem Locked.of_same (h : Locked main l s A) (hrep : Represents main u.threads B)
    (hholder : u.holder l = s.holder l) (hval : u.sem (lockSem l) = s.sem (lockSem l))
    (hframes : u.frames = s.frames) (hfs : Shape l fs) (hruns : op.runsAcquire l s = false)
    (hrel : op ≠ .lockRelease l) :
    ∃ B, Locked main l (u.setFrames s.cur fs) B ∧ LockMoves l op s (u.setFrames s.cur fs) := by
  refine ⟨B, h.of_moves hrep (by rw [setFrames, hframes]) hfs
    (.same hholder (congrArg Sem.val hval) (fun e => ?_) fun e => absurd e hrel)⟩
  rw [acquires, hruns] at e
  cases e

/-- The running thread waits for the unit of lock `m`. -/
theorem Locked.of_waits (h : Locked main l s A) (ht : Waits main (lockSem m) n s u A)
    (hfs : ∃ c c' c'', fs = [.threadBlock c, .semP (lockSem m) n c', .lockAcquire m c''])
    (hrel : op ≠ .lockRelease l) :
    ∃ B, Locked main l (u.setFrames s.cur fs) B ∧ LockMoves l op s (u.setFrames s.cur fs) := by
  obtain ⟨c, c', c'', rfl⟩ := hfs
  refine ⟨_, h.of_moves ht.rep (by rw [setFrames, ht.frames]) (.acquires m n c c' c'')
    (.same (congrFun ht.holder l) ?_ (fun e => ?_) fun e => absurd e hrel)⟩
  · by_cases hm : m = l
    · subst hm
      exact ht.val.trans ht.empty.symm
    · exact congrArg Sem.val (ht.sem _ fun e => hm (lockSem_inj.mp e).symm)
  · rw [acquires, setFrames_self] at e
    simp at e

/-- The running thread takes the unit of lock `m` and becomes its holder. -/
theorem Locked.of_takes (h : Locked main l s A) {r : Context}
    (ht : Takes main (lockSem m) s u A) (hruns : op.runsAcquire l s = decide (m = l))
    (hrel : op ≠ .lockRelease l) :
    ∃ B, Locked main l (((u.setHolder m u.cur).withCpu r).setFrames s.cur []) B ∧
      LockMoves l op s (((u.setHolder m u.cur).withCpu r).setFrames s.cur []) := by
  have hcur : u.cur = s.cur := ht.rep.cur.trans h.rep.cur.symm
  have hframes : (((u.setHolder m u.cur).withCpu r).setFrames s.cur []).frames =
      Function.update s.frames s.cur [] := by
    show Function.update u.frames s.cur [] = _
    rw [ht.frames]
  refine ⟨A, h.of_moves (ht.rep.with_cpu r) hframes .idle ?_⟩
  by_cases hm : m = l
  · subst hm
    have hfree : s.holder m = 0 ∧ (s.sem (lockSem m)).val = 1 :=
      h.consistent.resolve_right fun he => ht.available he.2
    refine .takes ?_ hfree.1 ?_ ?_
    · rw [acquires, setFrames_self, hruns]
      simp
    · show Function.update u.holder m u.cur m = s.cur
      rw [Function.update_self, hcur]
    · show (u.sem (lockSem m)).val = 0
      rw [ht.val, hfree.2]
      rfl
  · refine .same ?_ ?_ ?_ fun e => absurd e hrel
    · show Function.update u.holder m u.cur l = s.holder l
      rw [Function.update_of_ne (Ne.symm hm), ht.holder]
    · exact congrArg Sem.val (ht.sem _ fun e => hm (lockSem_inj.mp e).symm)
    · intro e
      rw [acquires, hruns, decide_eq_false hm] at e
      cases e

/-- The running thread, which holds lock `m`, gives the unit back. -/
theorem Locked.of_releases (h : Locked main l s A) (hheld : s.holder m = s.cur)
    (ht : Posts main (lockSem m) (s.setHolder m 0) u A) :
    ∃ B, Locked main l (u.setFrames s.cur []) B ∧
      LockMoves l (.lockRelease m) s (u.setFrames s.cur []) := by
  obtain ⟨B, hB⟩ := ht.exists_rep
  have hframes : (u.setFrames s.cur []).frames = Function.update s.frames s.cur [] := by
    rw [setFrames, ht.frames]
    rfl
  refine ⟨B, h.of_moves hB hframes .idle ?_⟩
  by_cases hm : m = l
  · subst hm
    have hval : (s.sem (lockSem m)).val = 0 :=
      (h.consistent.resolve_left fun he => h.cur_ne (hheld.symm.trans he.1)).2
    refine .frees rfl hheld ?_ ?_
    · exact (congrFun ht.holder m).trans (Function.update_self m _ _)
    · exact ht.val.trans (by rw [setHolder, hval]; rfl)
  · refine .same ?_ ?_ (fun e => absurd e Bool.false_ne_true) fun e => ?_
    · exact (congrFun ht.holder l).trans (Function.update_of_ne (Ne.symm hm) _ _)
    · exact congrArg Sem.val (ht.sem _ fun e => hm (lockSem_inj.mp e).symm)
    · injection e with e
      exact absurd e hm

/-- What is left of a call is executed. -/
theorem Locked.resume (h : Locked main l s A) (hne : s.frames s.cur ≠ [])
    (hu : goOnAll (s.frames s.cur) s = some (fs, u)) :
    ∃ B, Locked main l (u.setFrames s.cur fs) B ∧ LockMoves l .resume s (u.setFrames s.cur fs) := by
  have hrel : SyncOp.resume ≠ .lockRelease l := nofun
  have hshape := h.shape s.cur
  generalize hfr : s.frames s.cur = fr at hne hu hshape
  cases hshape with
  | idle => exact absurd rfl hne
  | blocked c =>
      obtain ⟨r, hr⟩ := s.stiCondition_eq c
      simp only [goOnAll, goOn, hr, Option.bind_eq_bind, Option.bind_some, List.isEmpty_nil,
        if_true, Option.some.injEq, Prod.mk.injEq] at hu
      obtain ⟨rfl, rfl⟩ := hu
      exact h.of_same (h.rep.with_cpu r) rfl rfl rfl .idle
        (by simp [SyncOp.runsAcquire, hfr, Frame.onLock]) hrel
  | waits a n c c' ha =>
      have hruns : SyncOp.resume.runsAcquire l s = false := by
        simp [SyncOp.runsAcquire, hfr, Frame.onLock]
      rcases goOnAll_semP h.rep hu with ⟨rfl, ht⟩ | ⟨c'', rfl, ht⟩
      · exact h.of_same ht.rep (congrFun ht.holder l) (ht.sem _ (Ne.symm ha)) ht.frames .idle hruns
          hrel
      · exact h.of_same ht.rep (congrFun ht.holder l) (ht.sem _ (Ne.symm ha)) ht.frames
          (.waits a n c'' c' ha) hruns hrel
  | acquires m n c c' c'' =>
      have hruns : SyncOp.resume.runsAcquire l s = decide (m = l) := by
        simp [SyncOp.runsAcquire, hfr, Frame.onLock]
      rcases goOnAll_lockAcquire h.rep hu with ⟨rfl, v, r, ht, rfl⟩ | ⟨d, rfl, ht⟩
      · exact h.of_takes ht hruns hrel
      · exact h.of_waits ht ⟨d, c', c'', rfl⟩ hrel

/-- **What one step does to the lock.** -/
theorem Locked.step_moves (h : Locked main l s A) (ha : LockAllowed l op s)
    (ht : step op s = some t) : ∃ B, Locked main l t B ∧ LockMoves l op s t := by
  obtain ⟨hen, ha⟩ := ha
  obtain ⟨fs, u, hu, rfl⟩ := step_eq_some ht
  cases op with
  | createThread tid addr pageCounte isKernThread userVmmPool pdtVaddr =>
      obtain ⟨h0, hfresh⟩ := ha
      rw [h.rep.inRing_iff] at hfresh
      obtain ⟨th, hth, hrep, -⟩ := h.rep.createThread_spec tid pageCounte pdtVaddr isKernThread
        userVmmPool hfresh h0
      obtain ⟨rfl, rfl⟩ := Prod.mk.inj (Option.some.inj hu)
      have hrep' : Represents main (s.threads.createThread tid addr pageCounte isKernThread
          userVmmPool pdtVaddr) (A.createThread addr) := hth ▸ hrep
      exact h.of_same hrep' rfl rfl rfl .idle rfl nofun
  | schedule =>
      obtain ⟨⟨switch, th⟩, hth, hu⟩ := Option.map_eq_some_iff.mp hu
      obtain ⟨rfl, rfl⟩ := Prod.mk.inj hu
      obtain ⟨-, hrep, -⟩ := h.rep.schedule_spec hth
      exact h.of_same hrep rfl rfl rfl .idle rfl nofun
  | exit =>
      obtain ⟨th, hth, hu⟩ := Option.map_eq_some_iff.mp hu
      obtain ⟨rfl, rfl⟩ := Prod.mk.inj hu
      obtain ⟨th', hth', hrep, -⟩ := h.rep.exit_spec
      obtain rfl := Option.some.inj (hth.symm.trans hth')
      exact h.of_same hrep rfl rfl rfl .idle rfl nofun
  | threadBlock =>
      obtain ⟨⟨switch, c, th⟩, hth, hu⟩ := Option.bind_eq_some_iff.mp hu
      obtain ⟨-, hrep, -⟩ := h.rep.threadBlock_spec hth
      obtain ⟨rfl, rfl⟩ := Prod.mk.inj (Option.some.inj hu)
      refine h.of_same hrep rfl rfl rfl ?_ rfl nofun
      split_ifs
      · exact .blocked c
      · exact .idle
  | threadWakeup targetThread =>
      obtain ⟨rfl, rfl⟩ := Prod.mk.inj (Option.some.inj hu)
      exact h.of_same (h.rep.threadWakeup_spec targetThread).1 rfl rfl rfl .idle rfl nofun
  | semP a n =>
      rcases semP_spec h.rep hu with ⟨rfl, hP⟩ | ⟨c, c', rfl, hP⟩
      · exact h.of_same hP.rep (congrFun hP.holder l) (hP.sem _ (Ne.symm ha)) hP.frames .idle rfl
          nofun
      · exact h.of_same hP.rep (congrFun hP.holder l) (hP.sem _ (Ne.symm ha)) hP.frames
          (.waits a n c' c ha) rfl nofun
  | semV a =>
      obtain ⟨rfl, rfl⟩ := Prod.mk.inj (Option.some.inj hu)
      have hposts : Posts main a s (s.semV a) A := semV_spec h.rep
      obtain ⟨B, hB⟩ := hposts.exists_rep
      exact h.of_same hB (congrFun hposts.holder l) (hposts.sem _ (Ne.symm ha)) hposts.frames
        .idle rfl nofun
  | lockAcquire m n =>
      have hruns : (SyncOp.lockAcquire m n).runsAcquire l s = decide (m = l) := rfl
      have hrel : SyncOp.lockAcquire m n ≠ .lockRelease l := nofun
      rcases lockAcquire_spec h.rep hu with ⟨hcur, rfl, r, rfl⟩ | ⟨-, rfl, v, r, hP, rfl⟩ |
        ⟨-, c, c', c'', rfl, hP⟩
      · refine ⟨A, h.of_moves (h.rep.with_cpu r) rfl .idle (.same rfl rfl (fun e => ?_) nofun)⟩
        rw [acquires, hruns, Bool.and_eq_true, decide_eq_true_iff] at e
        exact e.1 ▸ hcur
      · exact h.of_takes hP hruns hrel
      · exact h.of_waits hP ⟨c'', c', c, rfl⟩ hrel
  | lockRelease m =>
      obtain ⟨rfl, rfl⟩ := Prod.mk.inj (Option.some.inj hu)
      rcases lockRelease_spec (l := m) h.rep with ⟨hne, r, hr⟩ | ⟨hheld, hposts⟩
      · rw [hr]
        refine ⟨A, h.of_moves (h.rep.with_cpu r) rfl .idle (.same rfl rfl nofun fun e => ?_)⟩
        injection e with e
        exact e ▸ hne
      · exact h.of_releases hheld hposts
  | resume => exact h.resume (hen.mp rfl) hu

/-! ### Every run -/

/-- The state after `threads_init`, with every semaphore and lock initialised, the lock `l` last. -/
def startLock (s : Sync) (main l : UInt32) (val : UInt32 → UInt32) : Sync :=
  (s.start main val).lockInit l

theorem locked_start (s : Sync) (h0 : main ≠ 0) (l : UInt32) (val : UInt32 → UInt32) :
    Locked main l (s.startLock main l val)
      ⟨main, [], Function.update s.threads.status main .running⟩ := by
  refine ⟨(queued_start s h0 val).rep, fun x => .idle, Or.inl ⟨?_, ?_⟩⟩
  · exact Function.update_self l _ _
  · exact congrArg Sem.val (setSem_self (s := s.start main val) fun _ => ⟨1, none⟩)

/-- Releasing a lock that another thread holds, or none, does nothing. -/
theorem step_lockRelease_of_ne (h : Represents main s.threads A) (hne : s.holder l ≠ s.cur)
    (ht : step (.lockRelease l) s = some t) :
    t.holder = s.holder ∧ t.sem = s.sem ∧ t.node = s.node := by
  obtain ⟨fs, u, hu, rfl⟩ := step_eq_some ht
  obtain ⟨rfl, rfl⟩ := Prod.mk.inj (Option.some.inj hu)
  obtain ⟨-, r, hr⟩ := (lockRelease_spec h).resolve_right fun hheld => hne hheld.1
  rw [hr]
  exact ⟨rfl, rfl, rfl⟩

/-- **A lock has a holder exactly when its unit is taken**, whatever calls of `lock_acquire` and
`lock_release` are made: a call of `lock_acquire` that returns makes the caller the holder, and
`lock_release` does nothing for a thread that is not the holder. -/
theorem lock_unit (s : Sync) (main l : UInt32) (h0 : main ≠ 0) (val : UInt32 → UInt32)
    (ops : List SyncOp) (ha : Along step (LockAllowed l) ops (s.startLock main l val)) :
    Along step (fun op s => ∀ t, step op s = some t →
        (acquires l op s t = true → t.holder l = s.cur) ∧
        (op = .lockRelease l → s.holder l ≠ s.cur →
          t.holder = s.holder ∧ t.sem = s.sem ∧ t.node = s.node)) ops (s.startLock main l val) ∧
    ∀ t, run step ops (s.startLock main l val) = some t →
      (t.sem (lockSem l)).val.toNat + (if t.holder l = 0 then 0 else 1) = 1 := by
  have hI : ∀ op s t, (∃ A, Locked main l s A) → LockAllowed l op s → step op s = some t →
      ∃ A, Locked main l t A := fun op s t ⟨A, hs⟩ ha ht => by
    obtain ⟨B, hB, -⟩ := hs.step_moves ha ht
    exact ⟨B, hB⟩
  have hinit : ∃ A, Locked main l (s.startLock main l val) A := ⟨_, locked_start s h0 l val⟩
  refine ⟨Along.of_invariant hI ?_ hinit ha, ?_⟩
  · rintro op s ⟨A, hs⟩ ha t ht
    refine ⟨?_, ?_⟩
    · intro hacq
      obtain ⟨B, -, hm⟩ := hs.step_moves ha ht
      cases hm with
      | same holder val again other => exact holder.trans (again hacq)
      | takes kind free holder val => exact holder
      | frees kind held holder val =>
          subst kind
          cases hacq
    · rintro rfl hne
      exact step_lockRelease_of_ne hs.rep hne ht
  · intro t ht
    obtain ⟨A, hA⟩ := invariant hI hinit ha ht
    rcases hA.consistent with ⟨hh, hv⟩ | ⟨hh, hv⟩
    · rw [if_pos hh, hv]
      rfl
    · rw [if_neg hh, hv]
      rfl

/-- The operation is no `create_thread` and does not use the semaphore of the lock. -/
def UsesLock (l : UInt32) : SyncOp → Bool
  | .createThread .. => false
  | .semP a _ | .semV a => a ≠ lockSem l
  | _ => true

theorem lockAllowed_of_usesLock (hen : Enabled op s) (hop : UsesLock l op = true) :
    LockAllowed l op s := by
  refine ⟨hen, ?_⟩
  cases op with
  | createThread => cases hop
  | semP a n => exact of_decide_eq_true hop
  | semV a => exact of_decide_eq_true hop
  | _ => trivial

/-- The main thread creates a second thread. -/
def secondThread : SyncOp := .createThread 1 0xC0400000 1 true ⟨0, 0, 0⟩ 0

/-- A run of two threads. -/
theorem allowed_secondThread (ops : List SyncOp)
    (hops : Along step (fun op s => Enabled op s ∧ UsesLock 0xC0200000 op = true) ops
      ((step secondThread (zero.startLock 0xC0110000 0xC0200000 fun _ => 0)).getD zero)) :
    Along step (LockAllowed 0xC0200000) (secondThread :: ops)
      (zero.startLock 0xC0110000 0xC0200000 fun _ => 0) := by
  have hinit := (locked_start zero (show (0xC0110000 : UInt32) ≠ 0 by decide) 0xC0200000
    fun _ => 0).rep
  refine ⟨⟨by decide, by decide, ?_⟩, fun t ht => ?_⟩
  · rw [hinit.inRing_iff]
    decide
  · rw [ht] at hops
    exact hops.mono fun op s h => lockAllowed_of_usesLock h.1 h.2

/-- The second thread releases the lock that the main thread holds, and waits for it. -/
def misuse : List SyncOp :=
  [.lockAcquire 0xC0200000 0xC010FFF0, .schedule, .lockRelease 0xC0200000,
    .lockAcquire 0xC0200000 0xC0400FF0]

theorem lock_unit_sample : ∃ t,
    run step (secondThread :: misuse) (zero.startLock 0xC0110000 0xC0200000 fun _ => 0) = some t ∧
    (t.sem (lockSem 0xC0200000)).val.toNat + (if t.holder 0xC0200000 = 0 then 0 else 1) = 1 := by
  obtain ⟨t, ht⟩ : ∃ t, run step (secondThread :: misuse)
      (zero.startLock 0xC0110000 0xC0200000 fun _ => 0) = some t := by
    rw [← Option.isSome_iff_exists]
    decide +kernel
  obtain ⟨-, h⟩ := lock_unit zero 0xC0110000 0xC0200000 (by decide) (fun _ => 0) _
    (allowed_secondThread misuse (by decide +kernel))
  exact ⟨t, ht, h t ht⟩

end Sync

/-! ### Nested brackets -/

/-- A machine and, for each thread, how often it has acquired the lock and not released it. -/
structure Nested where
  sys : Sync
  depth : UInt32 → ℕ

namespace Nested

/-- One step and the brackets of lock `l`. -/
def step (l : UInt32) (op : SyncOp) (g : Nested) : Option Nested :=
  (Sync.step op g.sys).map fun t =>
    { sys := t
      depth :=
        if Sync.acquires l op g.sys t then
          Function.update g.depth g.sys.cur (g.depth g.sys.cur + 1)
        else
          match op with
          | .lockRelease m =>
              if m = l then Function.update g.depth g.sys.cur (g.depth g.sys.cur - 1) else g.depth
          | _ => g.depth }

/-- The calls are well bracketed: a thread releases only what it has acquired, and does not exit
before. -/
def Allowed (l : UInt32) (op : SyncOp) (g : Nested) : Prop :=
  Sync.LockAllowed l op g.sys ∧ (op = .lockRelease l → 0 < g.depth g.sys.cur) ∧
    (op = .exit → g.depth g.sys.cur = 0)

/-- At most one thread is inside its brackets, and it is the holder of the lock. -/
def Exclusive (l : UInt32) (g : Nested) : Prop :=
  ∀ x, 0 < g.depth x → (∀ y, 0 < g.depth y → y = x) ∧ g.sys.holder l = x

/-- The step leaves one thread at most inside its brackets. -/
def Excludes (l : UInt32) (op : SyncOp) (g : Nested) : Prop :=
  ∀ t, step l op g = some t → t.Exclusive l

/-- The thread does not release a lock that it has acquired twice. -/
def ReleasesOuter (l : UInt32) (op : SyncOp) (g : Nested) : Prop :=
  op = .lockRelease l → g.depth g.sys.cur ≤ 1

/-- The thread inside its brackets is the holder. -/
structure Bracketed (main l : UInt32) (g : Nested) (A : Sched UInt32) : Prop where
  locked : Sync.Locked main l g.sys A
  holder : ∀ x, 0 < g.depth x → x ≠ 0 ∧ g.sys.holder l = x

variable {main l : UInt32} {g g' : Nested} {op : SyncOp} {A : Sched UInt32}

theorem Bracketed.exclusive (h : Bracketed main l g A) : g.Exclusive l := by
  intro x hx
  obtain ⟨-, hh⟩ := h.holder x hx
  exact ⟨fun y hy => (h.holder y hy).2.symm.trans hh, hh⟩

theorem depth_of_release (hm : op = .lockRelease l) (ht : step l op g = some g') :
    g'.depth = Function.update g.depth g.sys.cur (g.depth g.sys.cur - 1) := by
  subst hm
  obtain ⟨t, -, rfl⟩ := Option.map_eq_some_iff.mp ht
  have hacq : Sync.acquires l (.lockRelease l) g.sys t = false := rfl
  simp [hacq]

/-- One step that does not release an inner bracket. -/
theorem Bracketed.step (h : Bracketed main l g A) (ha : Allowed l op g) (ho : ReleasesOuter l op g)
    (ht : step l op g = some g') : ∃ B, Bracketed main l g' B := by
  obtain ⟨hla, hpos, -⟩ := ha
  have hdepth := fun hm => depth_of_release hm ht
  obtain ⟨t, hstep, rfl⟩ := Option.map_eq_some_iff.mp ht
  obtain ⟨B, hB, hm⟩ := h.locked.step_moves hla hstep
  have hcur := h.locked.cur_ne
  refine ⟨B, hB, ?_⟩
  intro x hx
  cases hm with
  | same holder val again other =>
      have hrel : op ≠ .lockRelease l := fun e => other e (h.holder _ (hpos e)).2
      rw [holder]
      cases hacq : Sync.acquires l op g.sys t with
      | true =>
          by_cases he : x = g.sys.cur
          · exact ⟨he ▸ hcur, he ▸ again hacq⟩
          · simp only [hacq, if_true, Function.update_of_ne he] at hx
            exact h.holder x hx
      | false =>
          apply h.holder x
          simp only [hacq, Bool.false_eq_true, if_false] at hx
          cases op with
          | lockRelease m =>
              have hml : m ≠ l := fun e => hrel (e ▸ rfl)
              simpa only [if_neg hml] using hx
          | _ => exact hx
  | takes kind free holder val =>
      simp only [kind, if_true] at hx
      by_cases he : x = g.sys.cur
      · exact ⟨he ▸ hcur, he ▸ holder⟩
      · rw [Function.update_of_ne he] at hx
        obtain ⟨hx0, hh⟩ := h.holder x hx
        exact absurd (hh.symm.trans free) hx0
  | frees kind held holder val =>
      rw [hdepth kind] at hx
      have hone := ho kind
      by_cases he : x = g.sys.cur
      · rw [he, Function.update_self] at hx
        omega
      · rw [Function.update_of_ne he] at hx
        exact absurd ((h.holder x hx).2.symm.trans held) he

/-- Releasing an inner bracket gives the lock away. -/
theorem Bracketed.not_exclusive (h : Bracketed main l g A) (hd : 1 < g.depth g.sys.cur)
    (ha : Sync.LockAllowed l (.lockRelease l) g.sys) :
    ∃ t, Nested.step l (.lockRelease l) g = some t ∧ ¬ t.Exclusive l := by
  obtain ⟨t, ht⟩ : ∃ t, Nested.step l (.lockRelease l) g = some t := ⟨_, rfl⟩
  have hdepth := depth_of_release rfl ht
  obtain ⟨hcur, hheld⟩ := h.holder g.sys.cur (by omega)
  refine ⟨t, ht, ?_⟩
  intro hex
  obtain ⟨u, hu, rfl⟩ := Option.map_eq_some_iff.mp ht
  obtain ⟨B, hB, hm⟩ := h.locked.step_moves ha hu
  have hpos : 0 < Function.update g.depth g.sys.cur (g.depth g.sys.cur - 1) g.sys.cur := by
    rw [Function.update_self]
    omega
  rw [← hdepth] at hpos
  have hholder : u.holder l = g.sys.cur := (hex _ hpos).2
  cases hm with
  | same holder val again other => exact other rfl hheld
  | takes kind free holder val => cases kind
  | frees kind held holder val => exact hcur (hholder.symm.trans holder)

/-- **Mutual exclusion** holds throughout a run of bracketed calls exactly when no thread releases
the lock while it has acquired it twice. -/
theorem excludes_iff_releasesOuter (s : Sync) (main l : UInt32) (h0 : main ≠ 0)
    (val : UInt32 → UInt32) (ops : List SyncOp)
    (ha : Along (step l) (Allowed l) ops ⟨s.startLock main l val, fun _ => 0⟩) :
    (Along (step l) (Excludes l) ops ⟨s.startLock main l val, fun _ => 0⟩ ↔
      Along (step l) (ReleasesOuter l) ops ⟨s.startLock main l val, fun _ => 0⟩) ∧
    (Along (step l) (ReleasesOuter l) ops ⟨s.startLock main l val, fun _ => 0⟩ →
      ∀ g, run (step l) ops ⟨s.startLock main l val, fun _ => 0⟩ = some g → g.Exclusive l) := by
  have hI : ∀ op g g', (∃ A, Bracketed main l g A) → Allowed l op g → ReleasesOuter l op g →
      step l op g = some g' → ∃ A, Bracketed main l g' A := fun op g g' ⟨A, hg⟩ ha ho ht =>
    hg.step ha ho ht
  have hinit : ∃ A, Bracketed main l ⟨s.startLock main l val, fun _ => 0⟩ A :=
    ⟨_, Sync.locked_start s h0 l val, fun x hx => absurd hx (lt_irrefl 0)⟩
  refine ⟨along_iff hI ?_ hinit ha, ?_⟩
  · rintro op g ⟨A, hg⟩ ha
    constructor
    · rintro hex rfl
      by_contra hd
      obtain ⟨t, ht, hno⟩ := hg.not_exclusive (by omega) ha.1
      exact hno (hex t ht)
    · intro ho t ht
      obtain ⟨B, hB⟩ := hg.step ha ho ht
      exact hB.exclusive
  · intro ho g hg
    obtain ⟨A, hA⟩ := invariant (fun op g g' hg hq ht => hI op g g' hg hq.1 hq.2 ht) hinit
      (ha.and ho) hg
    exact hA.exclusive

/-- The call releases the lock. -/
def isRelease (l : UInt32) : SyncOp → Bool
  | .lockRelease m => m = l
  | _ => false

theorem isRelease_iff : isRelease l op = true ↔ op = .lockRelease l := by
  cases op <;> simp [isRelease]

/-- A run of two threads whose calls are bracketed and that do not exit. -/
theorem allowed_of_brackets (ops : List SyncOp)
    (hlock : Along Sync.step (Sync.LockAllowed 0xC0200000) ops
      (Sync.zero.startLock 0xC0110000 0xC0200000 fun _ => 0))
    (hpos : Along (step 0xC0200000)
      (fun op g => isRelease 0xC0200000 op = true → 0 < g.depth g.sys.cur) ops
      ⟨Sync.zero.startLock 0xC0110000 0xC0200000 fun _ => 0, fun _ => 0⟩) (hno : .exit ∉ ops) :
    Along (step 0xC0200000) (Allowed 0xC0200000) ops
      ⟨Sync.zero.startLock 0xC0110000 0xC0200000 fun _ => 0, fun _ => 0⟩ := by
  have hcomap : Along (step 0xC0200000) (fun op g => Sync.LockAllowed 0xC0200000 op g.sys) ops
      ⟨Sync.zero.startLock 0xC0110000 0xC0200000 fun _ => 0, fun _ => 0⟩ :=
    hlock.comap (f := Nested.sys) fun op g g' hg => by
      obtain ⟨t, ht, rfl⟩ := Option.map_eq_some_iff.mp hg
      exact ht
  have hexit : Along (step 0xC0200000) (fun op _ => op ≠ .exit) ops
      ⟨Sync.zero.startLock 0xC0110000 0xC0200000 fun _ => 0, fun _ => 0⟩ :=
    along_of_forall fun op hop _ e => hno (e ▸ hop)
  refine (hcomap.and (hpos.and hexit)).mono fun op g h => ⟨h.1, ?_, ?_⟩
  · intro e
    exact h.2.1 (isRelease_iff.mpr e)
  · intro e
    exact absurd e h.2.2

/-- Two threads acquire the lock one after the other. -/
def takeTurns : List SyncOp :=
  [.lockAcquire 0xC0200000 0xC010FFF0, .lockRelease 0xC0200000, .schedule,
    .lockAcquire 0xC0200000 0xC0400FF0]

theorem excludes_iff_releasesOuter_sample : ∃ g,
    run (step 0xC0200000) (Sync.secondThread :: takeTurns)
      ⟨Sync.zero.startLock 0xC0110000 0xC0200000 fun _ => 0, fun _ => 0⟩ = some g ∧
    g.Exclusive 0xC0200000 ∧ g.depth 0xC0400000 = 1 := by
  have hrun : ((run (step 0xC0200000) (Sync.secondThread :: takeTurns)
      ⟨Sync.zero.startLock 0xC0110000 0xC0200000 fun _ => 0, fun _ => 0⟩).map fun g =>
        g.depth 0xC0400000) = some 1 := by
    decide +kernel
  obtain ⟨g, hg, hdepth⟩ := Option.map_eq_some_iff.mp hrun
  have houter : Along (step 0xC0200000)
      (fun op g => isRelease 0xC0200000 op = true → g.depth g.sys.cur ≤ 1)
      (Sync.secondThread :: takeTurns)
      ⟨Sync.zero.startLock 0xC0110000 0xC0200000 fun _ => 0, fun _ => 0⟩ := by
    decide +kernel
  have ha := allowed_of_brackets (Sync.secondThread :: takeTurns)
    (Sync.allowed_secondThread takeTurns (by decide +kernel)) (by decide +kernel)
    (by simp [Sync.secondThread, takeTurns])
  obtain ⟨-, h⟩ := excludes_iff_releasesOuter Sync.zero 0xC0110000 0xC0200000 (by decide)
    (fun _ => 0) _ ha
  exact ⟨g, hg, h (houter.mono fun op g h e => h (isRelease_iff.mpr e)) g hg, hdepth⟩

/-- The main thread acquires the lock twice and releases it once; the second thread then acquires
it as well, while the main thread is still inside its outer bracket. -/
def nestedTwice : List SyncOp :=
  [.lockAcquire 0xC0200000 0xC010FFF0, .lockAcquire 0xC0200000 0xC010FF00,
    .lockRelease 0xC0200000, .schedule, .lockAcquire 0xC0200000 0xC0400FF0]

theorem not_excludes_sample :
    Along (step 0xC0200000) (Allowed 0xC0200000) (Sync.secondThread :: nestedTwice)
      ⟨Sync.zero.startLock 0xC0110000 0xC0200000 fun _ => 0, fun _ => 0⟩ ∧
    ∃ g, run (step 0xC0200000) (Sync.secondThread :: nestedTwice)
        ⟨Sync.zero.startLock 0xC0110000 0xC0200000 fun _ => 0, fun _ => 0⟩ = some g ∧
      g.depth 0xC0110000 = 1 ∧ g.depth 0xC0400000 = 1 ∧ ¬ g.Exclusive 0xC0200000 := by
  refine ⟨allowed_of_brackets (Sync.secondThread :: nestedTwice)
    (Sync.allowed_secondThread nestedTwice (by decide +kernel)) (by decide +kernel)
    (by simp [Sync.secondThread, nestedTwice]), ?_⟩
  have hrun : ((run (step 0xC0200000) (Sync.secondThread :: nestedTwice)
      ⟨Sync.zero.startLock 0xC0110000 0xC0200000 fun _ => 0, fun _ => 0⟩).map fun g =>
        (g.depth 0xC0110000, g.depth 0xC0400000)) = some (1, 1) := by
    decide +kernel
  obtain ⟨g, hg, hdepth⟩ := Option.map_eq_some_iff.mp hrun
  obtain ⟨hmain, hsecond⟩ := Prod.mk.inj hdepth
  refine ⟨g, hg, hmain, hsecond, ?_⟩
  intro hex
  have hmem : 0 < g.depth 0xC0400000 := by omega
  exact absurd ((hex 0xC0110000 (by omega)).1 _ hmem) (by decide)

end Nested
end BHOS
