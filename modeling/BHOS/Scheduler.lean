import BHOS.Lib.Runs
import BHOS.RoundRobin

/-! # The states of the threads

`cur_tcb` should be the only thread of the ring with status `RUNNING`, and a blocked thread
should not be made current.  `schedule`, `thread_block`, `thread_wakeup` and `create_thread` keep
this; `exit` makes the next thread of the ring current without setting its status, so every call
of it breaks the property. -/

namespace BHOS

open Linked Transition

namespace Sched

variable {α : Type} [DecidableEq α] {A : Sched α} {a b : α} {l₁ l₂ : List α}

/-- No thread but the current one is running. -/
def OnlyCur (A : Sched α) : Prop := ∀ b ∈ A.rest, A.status b ≠ .running

/-- The current thread is the running one. -/
def Running (A : Sched α) : Prop := A.status A.cur = .running ∧ A.OnlyCur

/-- `schedule` picks a ready thread or stays. -/
theorem schedule_cur (A : Sched α) :
    A.schedule.2.cur = A.cur ∨ A.schedule.2.cur ∈ A.rest ∧ A.status A.schedule.2.cur = .ready := by
  rcases A.ready_cases with hno | ⟨l₁, b, l₂, e, hno, hb⟩
  · rw [schedule_of_none hno]
    split_ifs <;> exact Or.inl rfl
  · rw [schedule_of_split e hno hb]
    exact Or.inr ⟨by simp [switch, e], hb⟩

theorem OnlyCur.switch (h : A.OnlyCur) (hnd : A.threads.Nodup) (e : A.rest = l₁ ++ b :: l₂) :
    (A.switch l₁ b l₂).Running := by
  rw [threads, e] at hnd
  refine ⟨switch_status_self l₁ l₂, ?_⟩
  intro c hc
  have hcb : c ≠ b := by
    rintro rfl
    simp only [Sched.switch, List.mem_append, List.mem_cons] at hc
    simp only [List.nodup_cons, List.nodup_append, List.mem_append, List.mem_cons] at hnd
    tauto
  simp only [Sched.switch, Function.update_of_ne hcb]
  by_cases hcur : c = A.cur
  · subst hcur
    split_ifs with hr
    · simp
    · exact hr
  · have hcr : c ∈ A.rest := by
      simp only [Sched.switch, List.mem_append, List.mem_cons] at hc
      simp only [e, List.mem_append, List.mem_cons]
      tauto
    split_ifs
    · rw [Function.update_of_ne hcur]
      exact h c hcr
    · exact h c hcr

/-- After `schedule` the current thread is the running one. -/
theorem OnlyCur.schedule (h : A.OnlyCur) (hnd : A.threads.Nodup)
    (hcur : A.status A.cur = .running ∨ A.status A.cur = .blocked) : A.schedule.2.Running := by
  rcases A.ready_cases with hno | ⟨l₁, b, l₂, e, hno, hb⟩
  · rw [schedule_of_none hno]
    split_ifs with hr
    · refine ⟨hcur.resolve_right ?_, h⟩
      intro hbl
      rw [hbl] at hr
      rcases hr with hr | hr <;> cases hr
    · refine ⟨by simp, fun c hc => ?_⟩
      have hne : c ≠ A.cur := fun e => (List.nodup_cons.mp hnd).1 (e ▸ hc)
      rw [setStatus_status, Function.update_of_ne hne]
      exact h c hc
  · rw [schedule_of_split e hno hb]
    exact h.switch hnd e

/-- A status other than running may be given to every thread but the current one. -/
theorem OnlyCur.setStatus (h : A.OnlyCur) {st : TaskStatus} (hst : st ≠ .running) :
    (A.setStatus a st).OnlyCur := by
  intro b hb
  rw [setStatus_status]
  by_cases hba : b = a
  · subst hba
    rwa [Function.update_self]
  · rw [Function.update_of_ne hba]
    exact h b hb

theorem Running.threadBlock (h : A.Running) (hnd : A.threads.Nodup) : A.threadBlock.2.Running :=
  (h.2.setStatus (by simp)).schedule hnd (Or.inr (by simp))

theorem threadBlock_cur (hnd : A.threads.Nodup) :
    A.threadBlock.2.cur = A.cur ∨ A.status A.threadBlock.2.cur = .ready := by
  rcases (A.setStatus A.cur .blocked).schedule_cur with he | ⟨hmem, hr⟩
  · exact Or.inl he
  · have hne : (A.setStatus A.cur .blocked).schedule.2.cur ≠ A.cur := fun e =>
      (List.nodup_cons.mp hnd).1 (e ▸ hmem)
    rw [setStatus_status, Function.update_of_ne hne] at hr
    exact Or.inr hr

theorem Running.createThread (h : A.Running) (ha : a ∉ A.threads) :
    (A.createThread a).Running := by
  have hcur : A.cur ≠ a := fun e => ha (e ▸ List.mem_cons_self)
  refine ⟨?_, ?_⟩
  · show (A.createThread a).status A.cur = .running
    rw [createThread_status_of_ne hcur]
    exact h.1
  · intro b hb
    by_cases hba : b = a
    · rw [hba, createThread_status_self]
      simp
    · rw [createThread_status_of_ne hba]
      exact h.2 b ((List.mem_cons.mp hb).resolve_left hba)

end Sched

namespace Threads

variable {s t : Threads} {A : Sched UInt32} {main : UInt32} {op : ThreadOp}

/-- The control block is in the ring of the current one. -/
def InRing (s : Threads) (a : UInt32) : Prop := Reaches s.next s.curTcb a

theorem Represents.inRing_iff (h : Represents main s A) {a : UInt32} :
    s.InRing a ↔ a ∈ A.threads := by
  rw [InRing, h.cur]
  exact h.ring.reaches_iff

/-- New threads get fresh control blocks and a number other than 0, blocked threads are woken up,
and the main thread does not exit. -/
def Allowed : ThreadOp → Threads → Prop
  | .createThread tid addr _ _ _ _, s => tid ≠ 0 ∧ addr ≠ 0 ∧ ¬ s.InRing addr
  | .threadWakeup targetThread, s => s.status targetThread = .blocked
  | .exit, s => (s.tcb s.curTcb).tid ≠ 0
  | _, _ => True

/-- `cur_tcb` is the only running thread of the ring. -/
def OneRunning (s : Threads) : Prop :=
  s.status s.curTcb = .running ∧ ∀ a, s.InRing a → a ≠ s.curTcb → s.status a ≠ .running

/-- The operation leaves one running thread and makes no blocked thread current. -/
def KeepsStates (op : ThreadOp) (s : Threads) : Prop :=
  ∀ t, step op s = some t →
    t.OneRunning ∧ (t.curTcb ≠ s.curTcb → s.status t.curTcb ≠ .blocked)

/-- The control blocks represent a round robin whose current thread is the running one. -/
def Scheduled (main : UInt32) (s : Threads) : Prop := ∃ A, Represents main s A ∧ A.Running

theorem Represents.oneRunning_iff (h : Represents main s A) : s.OneRunning ↔ A.Running := by
  have hnd := h.ring.nodup
  simp only [OneRunning, Sched.Running, Sched.OnlyCur, h.inRing_iff, h.status, h.cur, Sched.threads]
  refine and_congr_right fun _ => ⟨?_, ?_⟩
  · intro ha b hb
    exact ha b (List.mem_cons_of_mem _ hb) fun e => (List.nodup_cons.mp hnd).1 (e ▸ hb)
  · intro ha b hb hne
    exact ha b ((List.mem_cons.mp hb).resolve_left hne)

/-- Every operation but `exit` keeps the states. -/
theorem Scheduled.step (h : Scheduled main s) (ha : Allowed op s) (hop : op ≠ .exit)
    (ht : step op s = some t) :
    Scheduled main t ∧ (t.curTcb ≠ s.curTcb → s.status t.curTcb ≠ .blocked) := by
  obtain ⟨A, hA, hrun⟩ := h
  have hnd := hA.ring.nodup
  cases op with
  | createThread tid addr pageCounte isKernThread userVmmPool pdtVaddr =>
      obtain ⟨-, h0, hfresh⟩ := ha
      rw [hA.inRing_iff] at hfresh
      obtain ⟨u, hu, hrep, -⟩ := hA.createThread_spec tid pageCounte pdtVaddr isKernThread
        userVmmPool hfresh h0
      obtain rfl := Option.some.inj ht
      rw [hu]
      refine ⟨⟨_, hrep, hrun.createThread hfresh⟩, fun hne => absurd ?_ hne⟩
      rw [hrep.cur, hA.cur]
      rfl
  | schedule =>
      obtain ⟨⟨switch, u⟩, hu, rfl⟩ := Option.map_eq_some_iff.mp ht
      obtain ⟨-, hrep, -⟩ := hA.schedule_spec hu
      refine ⟨⟨_, hrep, hrun.2.schedule hnd (Or.inl hrun.1)⟩, ?_⟩
      intro hne
      rw [hrep.cur, hA.cur] at hne
      rw [hrep.cur, hA.status, (A.schedule_cur.resolve_left hne).2]
      simp
  | threadBlock =>
      obtain ⟨⟨switch, condition, u⟩, hu, rfl⟩ := Option.map_eq_some_iff.mp ht
      obtain ⟨-, hrep, -⟩ := hA.threadBlock_spec hu
      refine ⟨⟨_, hrep, hrun.threadBlock hnd⟩, ?_⟩
      intro hne
      rw [hrep.cur, hA.cur] at hne
      rw [hrep.cur, hA.status, (Sched.threadBlock_cur hnd).resolve_left hne]
      simp
  | endBlock condition =>
      obtain rfl := Option.some.inj ht
      obtain ⟨c, hc⟩ := s.stiCondition_eq condition
      rw [hc]
      exact ⟨⟨A, hA.with_cpu c, hrun⟩, fun hne => absurd rfl hne⟩
  | threadWakeup targetThread =>
      obtain rfl := Option.some.inj ht
      obtain ⟨hrep, -, hcur, -⟩ := hA.threadWakeup_spec targetThread
      have hne : A.cur ≠ targetThread := by
        rintro rfl
        have hst : A.status A.cur = .blocked := (congrFun hA.status _).symm.trans ha
        rw [hrun.1] at hst
        cases hst
      refine ⟨⟨_, hrep, ?_, hrun.2.setStatus (by simp)⟩, fun hne => absurd hcur hne⟩
      rw [Sched.setStatus_status, Sched.setStatus_cur, Function.update_of_ne hne]
      exact hrun.1
  | exit => exact absurd rfl hop

/-- `exit` makes a thread current that is not running. -/
theorem Scheduled.exit (h : Scheduled main s) (ha : (s.tcb s.curTcb).tid ≠ 0) :
    ∃ t, s.exit = some t ∧ ¬ t.OneRunning := by
  obtain ⟨A, hA, hrun⟩ := h
  obtain ⟨b, l, hrest⟩ := List.exists_cons_of_ne_nil (hA.rest_ne_nil ha)
  obtain ⟨t, ht, hrep, -⟩ := hA.exit_spec
  refine ⟨t, ht, ?_⟩
  intro hone
  rw [hrep.oneRunning_iff] at hone
  have hst := hone.1
  rw [Sched.exit_of_cons hrest] at hst
  exact hrun.2 b (by simp [hrest]) hst

/-- **One running thread** is left by every operation of a run exactly when no thread exits. -/
theorem keepsStates_iff_noExit (s₀ : Threads) (main : UInt32) (h0 : main ≠ 0) :
    (s₀.threadsInit main).OneRunning ∧
    ∀ ops, Along step Allowed ops (s₀.threadsInit main) →
      (Along step KeepsStates ops (s₀.threadsInit main) ↔
        Along step (fun op _ => op ≠ .exit) ops (s₀.threadsInit main)) ∧
      (Along step (fun op _ => op ≠ .exit) ops (s₀.threadsInit main) →
        ∀ t, run step ops (s₀.threadsInit main) = some t → t.OneRunning) := by
  have hrep := represents_threadsInit s₀ h0
  have hrun : Sched.Running (⟨main, [], Function.update s₀.status main .running⟩ : Sched UInt32) :=
    ⟨by simp, fun b hb => by cases hb⟩
  have hinit : Scheduled main (s₀.threadsInit main) := ⟨_, hrep, hrun⟩
  have hone : ∀ s, Scheduled main s → s.OneRunning := fun s ⟨A, hA, hA'⟩ =>
    hA.oneRunning_iff.mpr hA'
  have hI : ∀ op s t, Scheduled main s → Allowed op s → op ≠ .exit → step op s = some t →
      Scheduled main t := fun op s t hs ha hop ht => (hs.step ha hop ht).1
  refine ⟨hone _ hinit, fun ops ha => ⟨along_iff hI (fun op s hs ha => ⟨?_, ?_⟩) hinit ha, ?_⟩⟩
  · rintro hk rfl
    obtain ⟨t, ht, hno⟩ := hs.exit ha
    exact hno (hk t ht).1
  · intro hop t ht
    obtain ⟨ht', hcur⟩ := hs.step ha hop ht
    exact ⟨hone t ht', hcur⟩
  · intro hno t ht
    exact hone t (invariant (fun op s t hs ha ht => hI op s t hs ha.1 ha.2 ht) hinit (ha.and hno) ht)

/-- The main thread creates a second thread. -/
def twoThreads : List ThreadOp := [.createThread 1 0xC0400000 1 true ⟨0, 0, 0⟩ 0]

theorem allowed_twoThreads : Along step Allowed twoThreads (zero.threadsInit 0xC0110000) := by
  refine ⟨⟨by decide, by decide, ?_⟩, fun _ _ => trivial⟩
  rw [(represents_threadsInit zero (by decide)).inRing_iff]
  decide

theorem keepsStates_iff_noExit_sample : ∃ t,
    run step (twoThreads ++ [.schedule, .threadBlock]) (zero.threadsInit 0xC0110000) = some t ∧
      t.OneRunning := by
  obtain ⟨-, h⟩ := keepsStates_iff_noExit zero 0xC0110000 (by decide)
  obtain ⟨u, hu⟩ : ∃ u, run step twoThreads (zero.threadsInit 0xC0110000) = some u := ⟨_, rfl⟩
  obtain ⟨t, ht⟩ : ∃ t, run step (twoThreads ++ [.schedule, .threadBlock])
      (zero.threadsInit 0xC0110000) = some t := by
    rw [← Option.isSome_iff_exists]
    decide +kernel
  refine ⟨t, ht, (h _ ?_).2 ?_ t ht⟩
  · exact (along_append hu).mpr ⟨allowed_twoThreads, trivial, fun _ _ => ⟨trivial, fun _ _ => trivial⟩⟩
  · exact along_of_forall fun op hop _ => by
      rintro rfl
      simp [twoThreads] at hop

/-- The main thread blocks and the second thread exits: a blocked thread is current. -/
theorem not_keepsStates_sample :
    Along step Allowed (twoThreads ++ [.threadBlock, .exit]) (zero.threadsInit 0xC0110000) ∧
      ¬ Along step KeepsStates (twoThreads ++ [.threadBlock, .exit]) (zero.threadsInit 0xC0110000) := by
  obtain ⟨u, hu⟩ : ∃ u, run step twoThreads (zero.threadsInit 0xC0110000) = some u := ⟨_, rfl⟩
  have hrun : ((step .threadBlock u).bind fun t => (step .exit t).map fun v =>
      ((t.tcb t.curTcb).tid, v.status v.curTcb)) = some (1, .blocked) := by
    obtain rfl := Option.some.inj hu
    decide +kernel
  obtain ⟨t, ht, hv⟩ := Option.bind_eq_some_iff.mp hrun
  obtain ⟨v, hv, h⟩ := Option.map_eq_some_iff.mp hv
  obtain ⟨htid, hst⟩ := Prod.mk.inj h
  constructor
  · refine (along_append hu).mpr ⟨allowed_twoThreads, (along_cons_of_step ht).mpr ⟨trivial, ?_⟩⟩
    exact ⟨by simp [Allowed, htid], fun _ _ => trivial⟩
  · intro hk
    have hexit := ((along_cons_of_step ht).mp ((along_append hu).mp hk).2).2.1
    have hone := (hexit v hv).1.1
    rw [hst] at hone
    cases hone

end Threads
end BHOS
