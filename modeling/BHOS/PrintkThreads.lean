import BHOS.Lock
import BHOS.PrintkSteps

/-! # Threads that print (`printk.c` with its lock)

`printk` and `printk_color` keep `printk_lock` while they format their text and write it to the
console.  Between any two steps the timer may switch to another thread, which may want to print as
well.  Handlers of interrupts that print are not in the model: `lock_acquire` lets them in when the
thread that they interrupt has the lock.  Nor are the messages of the thread module itself, the
warning of `schedule` that all threads are blocked and the error of `remove_thread` for the main
thread: the runs are those in which they are not written (`Quiet`).

The threads with their lock are a monitor (`Joined.step`), so that whole texts are on the screen,
and behind them a first part of the text of the thread that has the lock (`prints_whole`). -/

namespace BHOS

open Transition Threads

namespace Sync

variable {s t u : Sync} {A : Sched UInt32} {main l : UInt32} {op : SyncOp} {fs : List Frame}

/-! ### What is left of a call of `lock_acquire` -/

/-- A body leaves the frames of all threads to `step`, and something is left of `lock_acquire` on
the lock exactly when the step executes it and does not end it. -/
theorem Locked.body_frames (h : Locked main l s A) (ha : LockAllowed l op s)
    (hu : body op s = some (fs, u)) :
    u.frames = s.frames ∧ fs.any (Frame.onLock l) = (op.runsAcquire l s && !fs.isEmpty) := by
  obtain ⟨hen, -⟩ := ha
  cases op with
  | createThread tid addr pageCounte isKernThread userVmmPool pdtVaddr =>
      obtain ⟨rfl, rfl⟩ := Prod.mk.inj (Option.some.inj hu)
      exact ⟨rfl, rfl⟩
  | schedule =>
      obtain ⟨r, -, hu⟩ := Option.map_eq_some_iff.mp hu
      obtain ⟨rfl, rfl⟩ := Prod.mk.inj hu
      exact ⟨rfl, rfl⟩
  | exit =>
      obtain ⟨r, -, hu⟩ := Option.map_eq_some_iff.mp hu
      obtain ⟨rfl, rfl⟩ := Prod.mk.inj hu
      exact ⟨rfl, rfl⟩
  | threadBlock =>
      obtain ⟨⟨switch, c, th⟩, -, hu⟩ := Option.bind_eq_some_iff.mp hu
      obtain ⟨rfl, rfl⟩ := Prod.mk.inj (Option.some.inj hu)
      refine ⟨rfl, ?_⟩
      split_ifs <;> rfl
  | threadWakeup targetThread =>
      obtain ⟨rfl, rfl⟩ := Prod.mk.inj (Option.some.inj hu)
      exact ⟨rfl, rfl⟩
  | semP a n =>
      rcases semP_spec h.rep hu with ⟨rfl, hP⟩ | ⟨c, c', rfl, hP⟩
      · exact ⟨hP.frames, rfl⟩
      · exact ⟨hP.frames, rfl⟩
  | semV a =>
      obtain ⟨rfl, rfl⟩ := Prod.mk.inj (Option.some.inj hu)
      have hposts : Posts main a s (s.semV a) A := semV_spec h.rep
      exact ⟨hposts.frames, rfl⟩
  | lockAcquire m n =>
      rcases lockAcquire_spec h.rep hu with ⟨-, rfl, r, rfl⟩ | ⟨-, rfl, v, r, hP, rfl⟩ |
        ⟨-, c, c', c'', rfl, hP⟩
      · exact ⟨rfl, (Bool.and_false _).symm⟩
      · exact ⟨hP.frames, (Bool.and_false _).symm⟩
      · exact ⟨hP.frames, by simp [SyncOp.runsAcquire, Frame.onLock]⟩
  | lockRelease m =>
      obtain ⟨rfl, rfl⟩ := Prod.mk.inj (Option.some.inj hu)
      rcases lockRelease_spec (l := m) h.rep with ⟨-, r, hr⟩ | ⟨-, hposts⟩
      · rw [hr]
        exact ⟨rfl, rfl⟩
      · exact ⟨hposts.frames, rfl⟩
  | resume =>
      have hne := hen.mp rfl
      have hruns : SyncOp.resume.runsAcquire l s = (s.frames s.cur).any (Frame.onLock l) := rfl
      have hu : goOnAll (s.frames s.cur) s = some (fs, u) := hu
      have hshape := h.shape s.cur
      rw [hruns]
      generalize s.frames s.cur = fr at hne hu hshape
      cases hshape with
      | idle => exact absurd rfl hne
      | blocked c =>
          obtain ⟨r, hr⟩ := s.stiCondition_eq c
          simp only [goOnAll, goOn, hr, Option.bind_eq_bind, Option.bind_some, List.isEmpty_nil,
            if_true, Option.some.injEq, Prod.mk.injEq] at hu
          obtain ⟨rfl, rfl⟩ := hu
          exact ⟨rfl, rfl⟩
      | waits a n c c' ha =>
          rcases goOnAll_semP h.rep hu with ⟨rfl, hP⟩ | ⟨c'', rfl, hP⟩
          · exact ⟨hP.frames, rfl⟩
          · exact ⟨hP.frames, rfl⟩
      | acquires m n c c' c'' =>
          rcases goOnAll_lockAcquire h.rep hu with ⟨rfl, v, r, hP, rfl⟩ | ⟨d, rfl, hP⟩
          · exact ⟨hP.frames, (Bool.and_false _).symm⟩
          · exact ⟨hP.frames, by simp [Frame.onLock]⟩

end Sync

/-! ### The threads -/

/-- The kernel with threads that print: the threads and their locks, what the calls share, the call
that each thread is in, and the calls that were made and those that have ended. -/
structure Printing where
  sys : Sync
  st : PrintState
  job : UInt32 → Option (PrintCall × PrintPc)
  begun : List (UInt32 × PrintCall)
  ended : List (UInt32 × PrintCall)

/-- What the running thread does, or the timer: anything but printing, the call of `lock_acquire`
in `printk`, with the node of its call of `sem_P`, or a step behind it.  The last of these is
`lock_release`. -/
inductive PrintOp
  | sync (op : SyncOp)
  | print (c : PrintCall) (node : UInt32)
  | work

namespace Printing

/-- The state after a step of a call; with its end the lock is released. -/
def worked (l : UInt32) (g : Printing) (c : PrintCall) :
    Option PrintPc × PrintState → Option Printing
  | (some pc, st) => some { g with
      st := st
      job := Function.update g.job g.sys.cur (some (c, pc)) }
  | (none, st) => (Sync.step (.lockRelease l) g.sys).map fun t => { g with
      sys := t
      st := st
      job := Function.update g.job g.sys.cur none
      ended := g.ended ++ [(g.sys.cur, c)] }

/-- One step; `l` is `printk_lock`. -/
def step (l : UInt32) : PrintOp → Printing → Option Printing
  | .sync op, g => (Sync.step op g.sys).map fun t => { g with sys := t }
  | .print c n, g => (Sync.step (.lockAcquire l n) g.sys).map fun t => { g with
      sys := t
      job := Function.update g.job g.sys.cur (some (c, .copying))
      begun := g.begun ++ [(g.sys.cur, c)] }
  | .work, g => (g.job g.sys.cur).bind fun j =>
      (PrintCall.code.work j.1 j.2 g.st).bind (g.worked l j.1)

/-- The step writes no message of the thread module: `schedule` does not find all threads blocked,
and the main thread does not exit.  A thread that blocks in `sem_P` with all others blocked goes
round its loop for ever, so that such a step is not defined. -/
def Quiet : SyncOp → Sync → Prop
  | .schedule, s => s.threads.schedule.map Prod.fst ≠ some .selfWoken
  | .threadBlock, s => s.threads.threadBlock.map Prod.fst ≠ some .selfWoken
  | .exit, s => (s.threads.tcb s.cur).tid ≠ 0
  | _, _ => True

/-- A thread inside a call is only interrupted by the timer, the texts fit, nothing but the calls
uses the lock, and the thread module writes no messages of its own. -/
def Allowed (l : UInt32) : PrintOp → Printing → Prop
  | .sync op, g => Sync.LockAllowed l op g.sys ∧ (∀ n, op ≠ .lockAcquire l n) ∧
      op ≠ .lockRelease l ∧ (g.job g.sys.cur ≠ none → op = .schedule ∨ op = .resume) ∧
      Quiet op g.sys
  | .print c _, g => g.sys.frames g.sys.cur = [] ∧ g.job g.sys.cur = none ∧ c.Fits
  | .work, g => g.sys.frames g.sys.cur = [] ∧ g.job g.sys.cur ≠ none

/-- The monitor: the thread inside is the holder of the lock. -/
def monitor (l : UInt32) (g : Printing) : Monitor.State UInt32 PrintCall PrintPc PrintState where
  shared := g.st
  inside := if g.sys.holder l = 0 then none else some (g.sys.holder l)
  job := g.job
  begun := g.begun
  ended := g.ended

/-- A thread is in a call when it holds the lock or waits for it, and the holder does not wait. -/
structure Joined (main l : UInt32) (g : Printing) (A : Sched UInt32) : Prop where
  locked : Sync.Locked main l g.sys A
  job : ∀ x, g.job x ≠ none ↔
    (x ≠ 0 ∧ g.sys.holder l = x) ∨ (g.sys.frames x).any (Frame.onLock l) = true
  idle : ∀ x, x ≠ 0 → g.sys.holder l = x → g.sys.frames x = []
  fits : ∀ p ∈ g.begun, p.2.Fits

variable {main l n : UInt32} {g g' : Printing} {A : Sched UInt32} {t : Sync} {op : SyncOp}
  {c : PrintCall}

theorem monitor_free (h : g.sys.holder l = 0) : (g.monitor l).inside = none := if_pos h

theorem monitor_inside {x : UInt32} (h0 : x ≠ 0) (h : g.sys.holder l = x) :
    (g.monitor l).inside = some x := by
  subst h
  exact if_neg h0

/-- What a step of the threads does to the lock and to the frames. -/
theorem Joined.moves (h : Joined main l g A) (ha : Sync.LockAllowed l op g.sys)
    (ht : Sync.step op g.sys = some t) : ∃ B fs, Sync.Locked main l t B ∧
      Sync.LockMoves l op g.sys t ∧ t.frames = Function.update g.sys.frames g.sys.cur fs ∧
      fs.any (Frame.onLock l) = (op.runsAcquire l g.sys && !fs.isEmpty) ∧
      (op = .schedule → fs = []) := by
  obtain ⟨B, hB, hm⟩ := h.locked.step_moves ha ht
  obtain ⟨fs, u, hu, rfl⟩ := Sync.step_eq_some ht
  obtain ⟨hframes, hany⟩ := h.locked.body_frames ha hu
  refine ⟨B, fs, hB, hm, ?_, hany, ?_⟩
  · rw [Sync.setFrames, hframes]
  · rintro rfl
    obtain ⟨r, -, hr⟩ := Option.map_eq_some_iff.mp hu
    exact (Prod.mk.inj hr).1.symm

/-- What the frames say about a thread that does not run stays. -/
theorem frames_of_ne {fs : List Frame} (hf : t.frames = Function.update g.sys.frames g.sys.cur fs)
    {x : UInt32} (hx : x ≠ g.sys.cur) : t.frames x = g.sys.frames x := by
  rw [hf, Function.update_of_ne hx]

/-- A thread that gets the lock in a call goes into the monitor. -/
theorem Joined.takes {B : Sched UInt32} {job : UInt32 → Option (PrintCall × PrintPc)}
    {begun : List (UInt32 × PrintCall)} (h : Joined main l g A) (hB : Sync.Locked main l t B)
    (hfree : g.sys.holder l = 0) (hholder : t.holder l = g.sys.cur)
    (hf : t.frames = Function.update g.sys.frames g.sys.cur [])
    (hjob : ∀ x ≠ g.sys.cur, job x = g.job x) (hcur : job g.sys.cur ≠ none)
    (hfits : ∀ p ∈ begun, p.2.Fits) :
    Joined main l { g with sys := t, job := job, begun := begun } B := by
  have h0 := h.locked.cur_ne
  refine ⟨hB, fun x => ?_, fun x _ hx => ?_, hfits⟩
  · show job x ≠ none ↔ (x ≠ 0 ∧ t.holder l = x) ∨ (t.frames x).any (Frame.onLock l) = true
    by_cases hxc : x = g.sys.cur
    · subst hxc
      exact iff_of_true hcur (Or.inl ⟨h0, hholder⟩)
    · rw [hjob x hxc, h.job x, frames_of_ne hf hxc, hholder, hfree]
      exact or_congr_left ⟨fun e => absurd e.2.symm e.1, fun e => absurd e.2.symm hxc⟩
  · show t.frames x = []
    obtain rfl : x = g.sys.cur := (show t.holder l = x from hx).symm.trans hholder
    rw [hf, Function.update_self]

/-- Threads and timer without a call. -/
theorem Joined.sync (h : Joined main l g A) (ha : Allowed l (.sync op) g)
    (ht : Sync.step op g.sys = some t) :
    (∃ B, Joined main l { g with sys := t } B) ∧
      ∃ es, run (Monitor.step PrintCall.code) es (g.monitor l) =
        some (monitor l { g with sys := t }) := by
  obtain ⟨hlock, hacq, hrel, honly, -⟩ := ha
  obtain ⟨B, fs, hB, hm, hf, hany, hsched⟩ := h.moves hlock ht
  have h0 := h.locked.cur_ne
  have hself : t.frames g.sys.cur = fs := by rw [hf, Function.update_self]
  have hruns : op ≠ .resume → op.runsAcquire l g.sys = false := by
    intro hop
    cases op with
    | lockAcquire m n =>
        exact decide_eq_false fun e => hacq n (e ▸ rfl)
    | resume => exact absurd rfl hop
    | _ => rfl
  cases hm with
  | frees kind => exact absurd kind hrel
  | takes kind free holder val =>
      obtain ⟨hrun, hend⟩ := Bool.and_eq_true_iff.mp kind
      rw [hself, List.isEmpty_iff] at hend
      subst hend
      have hop : op = .resume := by
        by_contra hop
        rw [hruns hop] at hrun
        cases hrun
      have hjob : g.job g.sys.cur ≠ none := by
        subst hop
        exact (h.job _).mpr (Or.inr hrun)
      refine ⟨⟨B, h.takes hB free holder hf (fun _ _ => rfl) hjob h.fits⟩, [.enter g.sys.cur], ?_⟩
      rw [run_cons_of_step (Monitor.step_enter (monitor_free free) hjob), run_nil,
        Monitor.State.entered, ← monitor_inside (g := { g with sys := t }) h0 holder]
      rfl
  | same holder val again other =>
      refine ⟨⟨B, hB, fun x => ?_, fun x hx0 hx => ?_, h.fits⟩, [], ?_⟩
      · show g.job x ≠ none ↔ (x ≠ 0 ∧ t.holder l = x) ∨ (t.frames x).any (Frame.onLock l) = true
        rw [holder]
        by_cases hxc : x = g.sys.cur
        · subst hxc
          rw [h.job, hself, hany]
          by_cases hop : op = .resume
          · subst hop
            have hne := hlock.1.mp rfl
            have hnot : g.sys.holder l ≠ g.sys.cur := fun e => hne (h.idle _ h0 e)
            have hwaits : SyncOp.resume.runsAcquire l g.sys = true → fs.isEmpty = false := by
              intro hrun
              by_contra hend
              rw [Bool.not_eq_false] at hend
              exact hnot (again (by rw [Sync.acquires, hrun, hself, hend]; rfl))
            refine or_congr_right ?_
            show SyncOp.resume.runsAcquire l g.sys = true ↔ _
            cases hrun : SyncOp.resume.runsAcquire l g.sys with
            | false => exact Iff.rfl
            | true => rw [hwaits hrun]; exact Iff.rfl
          · have hidle : g.sys.frames g.sys.cur = [] :=
              not_not.mp fun hne => hop (hlock.1.mpr hne)
            rw [hruns hop, hidle]
            exact Iff.rfl
        · rw [h.job x, frames_of_ne hf hxc]
      · show t.frames x = []
        have hx' : g.sys.holder l = x := holder.symm.trans hx
        have hidle := h.idle x hx0 hx'
        by_cases hxc : x = g.sys.cur
        · subst hxc
          rcases honly ((h.job _).mpr (Or.inl ⟨hx0, hx'⟩)) with hop | hop
          · rw [hself, hsched hop]
          · exact absurd hidle (hlock.1.mp hop)
        · rw [frames_of_ne hf hxc, hidle]
      · rw [run_nil, monitor, monitor, holder]

/-- The call of `lock_acquire` in `printk`. -/
theorem Joined.print (h : Joined main l g A) (ha : Allowed l (.print c n) g)
    (ht : Sync.step (.lockAcquire l n) g.sys = some t) :
    (∃ B, Joined main l { g with
        sys := t
        job := Function.update g.job g.sys.cur (some (c, .copying))
        begun := g.begun ++ [(g.sys.cur, c)] } B) ∧
      ∃ es, run (Monitor.step PrintCall.code) es (g.monitor l) = some (monitor l { g with
        sys := t
        job := Function.update g.job g.sys.cur (some (c, .copying))
        begun := g.begun ++ [(g.sys.cur, c)] }) := by
  obtain ⟨hidle, hnone, hcfits⟩ := ha
  have hlock : Sync.LockAllowed l (.lockAcquire l n) g.sys :=
    ⟨⟨fun e => (nomatch e), fun hne => absurd hidle hne⟩, trivial⟩
  obtain ⟨B, fs, hB, hm, hf, hany, -⟩ := h.moves hlock ht
  have h0 := h.locked.cur_ne
  have hself : t.frames g.sys.cur = fs := by rw [hf, Function.update_self]
  have hnot : g.sys.holder l ≠ g.sys.cur := fun e =>
    (h.job g.sys.cur).mpr (Or.inl ⟨h0, e⟩) hnone
  have hruns : (SyncOp.lockAcquire l n).runsAcquire l g.sys = true := decide_eq_true rfl
  have hjobs : ∀ x ≠ g.sys.cur,
      Function.update g.job g.sys.cur (some (c, .copying)) x = g.job x := fun x hx =>
    Function.update_of_ne hx _ _
  have hcur : Function.update g.job g.sys.cur (some (c, .copying)) g.sys.cur ≠ none := by
    rw [Function.update_self]
    exact nofun
  have hfits : ∀ p ∈ g.begun ++ [(g.sys.cur, c)], p.2.Fits := by
    intro p hp
    rcases List.mem_append.mp hp with hp | hp
    · exact h.fits p hp
    · rw [List.mem_singleton.mp hp]
      exact hcfits
  have hbegin := Monitor.step_begin (C := PrintCall.code) (s := g.monitor l) hnone c
  cases hm with
  | frees kind => cases kind
  | takes kind free holder val =>
      have hend := (Bool.and_eq_true_iff.mp kind).2
      rw [hself, List.isEmpty_iff] at hend
      subst hend
      refine ⟨⟨B, h.takes hB free holder hf hjobs hcur hfits⟩,
        [.begin g.sys.cur c, .enter g.sys.cur], ?_⟩
      have henter := Monitor.step_enter (C := PrintCall.code)
        (s := (g.monitor l).began PrintCall.code g.sys.cur c) (monitor_free free) hcur
      rw [run_cons_of_step hbegin, run_cons_of_step henter, run_nil, Monitor.State.entered,
        ← monitor_inside (g := { g with sys := t }) h0 holder]
      rfl
  | same holder val again other =>
      have hwaits : fs.any (Frame.onLock l) = true := by
        rw [hany, hruns, Bool.true_and, Bool.not_eq_true']
        by_contra hend
        rw [Bool.not_eq_false] at hend
        exact hnot (again (by rw [Sync.acquires, hruns, hself, hend]; rfl))
      refine ⟨⟨B, hB, fun x => ?_, fun x hx0 hx => ?_, hfits⟩, [.begin g.sys.cur c], ?_⟩
      · show Function.update g.job g.sys.cur (some (c, .copying)) x ≠ none ↔
          (x ≠ 0 ∧ t.holder l = x) ∨ (t.frames x).any (Frame.onLock l) = true
        by_cases hxc : x = g.sys.cur
        · subst hxc
          exact iff_of_true hcur (Or.inr (hself ▸ hwaits))
        · rw [hjobs x hxc, h.job x, frames_of_ne hf hxc, holder]
      · show t.frames x = []
        have hx' : g.sys.holder l = x := holder.symm.trans hx
        have hxc : x ≠ g.sys.cur := fun e => hnot (e ▸ hx')
        rw [frames_of_ne hf hxc, h.idle x hx0 hx']
      · rw [run_cons_of_step hbegin, run_nil, monitor, monitor, holder]
        rfl

/-- A step of a call that goes on, or the last one, which releases the lock. -/
theorem Joined.work (h : Joined main l g A) (ha : Allowed l .work g)
    (ht : step l .work g = some g') :
    (∃ B, Joined main l g' B) ∧
      ∃ es, run (Monitor.step PrintCall.code) es (g.monitor l) = some (g'.monitor l) := by
  obtain ⟨hidle, hne⟩ := ha
  have h0 := h.locked.cur_ne
  have hnoframe : ¬ (g.sys.frames g.sys.cur).any (Frame.onLock l) = true := by
    rw [hidle]
    exact Bool.false_ne_true
  have hheld : g.sys.holder l = g.sys.cur := (((h.job _).mp hne).resolve_right hnoframe).2
  obtain ⟨⟨c, pc⟩, hj, ht⟩ := Option.bind_eq_some_iff.mp ht
  obtain ⟨⟨next, st⟩, hw, ht⟩ := Option.bind_eq_some_iff.mp ht
  have hwork := Monitor.step_work (C := PrintCall.code) (s := g.monitor l)
    (monitor_inside h0 hheld) hj hw
  cases next with
  | some pc' =>
      obtain rfl := Option.some.inj ht
      refine ⟨⟨A, h.locked, fun x => ?_, h.idle, h.fits⟩, [.work g.sys.cur], ?_⟩
      · show Function.update g.job g.sys.cur (some (c, pc')) x ≠ none ↔ _
        by_cases hxc : x = g.sys.cur
        · subst hxc
          rw [Function.update_self]
          exact iff_of_true nofun (Or.inl ⟨h0, hheld⟩)
        · rw [Function.update_of_ne hxc]
          exact h.job x
      · rw [run_cons_of_step hwork, run_nil]
        rfl
  | none =>
      rw [worked] at ht
      obtain ⟨t, hstep, rfl⟩ := Option.map_eq_some_iff.mp ht
      have hlock : Sync.LockAllowed l (.lockRelease l) g.sys :=
        ⟨⟨fun e => (nomatch e), fun hne => absurd hidle hne⟩, trivial⟩
      obtain ⟨B, fs, hB, hm, hf, hany, -⟩ := h.moves hlock hstep
      have hfs : fs.any (Frame.onLock l) = false := hany
      cases hm with
      | same holder val again other => exact absurd hheld (other rfl)
      | takes kind => cases kind
      | frees kind held holder val =>
          refine ⟨⟨B, hB, fun x => ?_, fun x hx0 hx => ?_, h.fits⟩, [.work g.sys.cur], ?_⟩
          · show Function.update g.job g.sys.cur none x ≠ none ↔
              (x ≠ 0 ∧ t.holder l = x) ∨ (t.frames x).any (Frame.onLock l) = true
            rw [holder]
            by_cases hxc : x = g.sys.cur
            · subst hxc
              rw [Function.update_self, hf, Function.update_self, hfs]
              exact iff_of_false (fun e => e rfl) fun e =>
                e.elim (fun e => h0 e.2.symm) Bool.false_ne_true
            · rw [Function.update_of_ne hxc, h.job x, frames_of_ne hf hxc, hheld]
              exact or_congr_left ⟨fun e => absurd e.2.symm hxc, fun e => absurd e.2.symm e.1⟩
          · exact absurd ((show t.holder l = x from hx).symm.trans holder) hx0
          · rw [run_cons_of_step hwork, run_nil, monitor, monitor, if_pos holder]
            rfl

/-- One step. -/
theorem Joined.step {op : PrintOp} (h : Joined main l g A) (ha : Allowed l op g)
    (ht : step l op g = some g') :
    (∃ B, Joined main l g' B) ∧
      ∃ es, run (Monitor.step PrintCall.code) es (g.monitor l) = some (g'.monitor l) := by
  cases op with
  | sync op =>
      obtain ⟨t, hstep, rfl⟩ := Option.map_eq_some_iff.mp ht
      exact h.sync ha hstep
  | print c n =>
      obtain ⟨t, hstep, rfl⟩ := Option.map_eq_some_iff.mp ht
      exact h.print ha hstep
  | work => exact h.work ha ht

/-! ### Every run -/

/-- The invariant. -/
def Invariant (main l : UInt32) (st : PrintState) (g : Printing) : Prop :=
  (∃ A, Joined main l g A) ∧ Monitor.Serial PrintCall.code st (g.monitor l)

variable {st : PrintState} {t₀ : Terminal}

theorem Invariant.step {op : PrintOp} (h : Invariant main l st g) (ha : Allowed l op g)
    (ht : step l op g = some g') : Invariant main l st g' := by
  obtain ⟨⟨A, hA⟩, hserial⟩ := h
  obtain ⟨hB, es, hes⟩ := hA.step ha ht
  exact ⟨hB, Monitor.serial_run hserial hes⟩

/-- The call that a thread is in fits. -/
theorem Invariant.fits (h : Invariant main l st g) {x : UInt32} {pc : PrintPc}
    (hj : g.job x = some (c, pc)) : c.Fits := by
  obtain ⟨⟨A, hA⟩, hserial⟩ := h
  have hx := hserial.ordered x
  have hjob : (g.monitor l).job x = some (c, pc) := hj
  rw [hjob] at hx
  have hmem : (x, c) ∈ (g.monitor l).begun.filter (·.1 = x) := by
    rw [hx]
    simp
  exact hA.fits _ (List.mem_of_mem_filter hmem)

/-- The calls that have ended fit. -/
theorem Invariant.fits_ended (h : Invariant main l st g) :
    ∀ c ∈ g.ended.map Prod.snd, c.Fits := by
  obtain ⟨⟨A, hA⟩, hserial⟩ := h
  intro c hc
  obtain ⟨⟨x, d⟩, hp, rfl⟩ := List.mem_map.mp hc
  have hmem : (x, d) ∈ (g.monitor l).begun.filter (·.1 = x) := by
    rw [hserial.ordered x]
    exact List.mem_append_left _ (List.mem_filter.mpr ⟨hp, decide_eq_true rfl⟩)
  exact hA.fits _ (List.mem_of_mem_filter hmem)

/-- A step of a call does not fault. -/
theorem Invariant.work_defined (h : Invariant main l st g) (ha : Allowed l .work g) :
    ∃ g', Printing.step l .work g = some g' := by
  obtain ⟨⟨c, pc⟩, hj⟩ := Option.ne_none_iff_exists'.mp ha.2
  have hfits := h.fits hj
  obtain ⟨⟨A, hA⟩, hserial⟩ := h
  have hnoframe : ¬ (g.sys.frames g.sys.cur).any (Frame.onLock l) = true := by
    rw [ha.1]
    exact Bool.false_ne_true
  have hheld := ((hA.job _).mp ha.2).resolve_right hnoframe
  obtain ⟨c', pc', u, hj', -, halone⟩ := hserial.held _ (monitor_inside hheld.1 hheld.2)
  obtain ⟨rfl, rfl⟩ := Prod.mk.inj (Option.some.inj (hj'.symm.trans hj))
  obtain ⟨⟨next, st'⟩, hr⟩ := (PrintCall.stage_of_alone halone).defined hfits
  have hwork : PrintCall.code.work c' pc' g.st = some (next, st') := PrintCall.code_work.mpr hr
  rw [Printing.step, hj, Option.bind_some, hwork, Option.bind_some]
  cases next with
  | some pc'' => exact ⟨_, rfl⟩
  | none => exact ⟨_, rfl⟩

/-- What the screen shows: the texts of the calls that have ended, whole and one after the other,
and behind them, when a thread has the lock, a first part of its text.  Each thread's calls end in
the order in which it made them. -/
structure Shown (l : UInt32) (t₀ : Terminal) (g : Printing) : Prop where
  free : g.sys.holder l = 0 →
    g.st.console.Shows ((g.ended.map Prod.snd).foldl PrintCall.onTerminal t₀)
  held : ∀ x ≠ 0, g.sys.holder l = x → ∃ c pc p, g.job x = some (c, pc) ∧ p <+: c.text ∧
    g.st.console.Shows
      (((g.ended.map Prod.snd).foldl PrintCall.onTerminal t₀).puts p c.back c.fore)
  ordered : ∀ x, g.begun.filter (·.1 = x) =
    g.ended.filter (·.1 = x) ++ ((g.job x).map fun j => (x, j.1)).toList

theorem Invariant.shown (h : Invariant main l st g) (ht : st.console.Shows t₀) :
    Shown l t₀ g := by
  have hended := h.fits_ended
  refine ⟨fun hfree => ?_, fun x hx0 hx => ?_, h.2.ordered⟩
  · exact PrintCall.sequence_shows (h.2.free (monitor_free hfree)) hended ht
  · obtain ⟨c, pc, u, hj, hseq, halone⟩ := h.2.held x (monitor_inside hx0 hx)
    obtain ⟨p, hp, hshows⟩ := PrintCall.alone_shows halone (h.fits hj)
      (PrintCall.sequence_shows hseq hended ht)
    exact ⟨c, pc, p, hj, hp, hshows⟩

/-- The kernel after `threads_init` and `printk_init_lock`. -/
def start (s : Sync) (main l : UInt32) (val : UInt32 → UInt32) (st : PrintState) : Printing :=
  ⟨s.startLock main l val, st, fun _ => none, [], []⟩

theorem invariant_start (s : Sync) (h0 : main ≠ 0) (val : UInt32 → UInt32) (st : PrintState) :
    Invariant main l st (start s main l val st) := by
  have hlocked := Sync.locked_start s h0 l val
  have hfree : (s.startLock main l val).holder l = 0 := Function.update_self l _ _
  have hmonitor : (start s main l val st).monitor l = Monitor.start st := by
    rw [monitor, start, if_pos hfree]
    rfl
  refine ⟨⟨_, hlocked, fun x => ?_, fun x hx0 hx => ?_, fun _ hp => (nomatch hp)⟩, ?_⟩
  · refine iff_of_false (fun e => e rfl) fun e => ?_
    rcases e with ⟨hx0, hx⟩ | hx
    · exact hx0 (hx.symm.trans hfree)
    · cases hx
  · exact absurd (hx.symm.trans hfree) hx0
  · rw [hmonitor]
    exact Monitor.serial_start st

/-- **Messages are not mixed.**  In every run of threads that print, whatever the timer interrupts
and whichever threads wait for the lock, as long as the thread module itself has nothing to say, no
call of `printk` or `printk_color` writes behind an array, and the screen shows whole texts in the
order in which the threads got the lock, followed by a first part of the text of the thread that
has it.  No text is lost or shown twice, and the texts of each thread are shown in its order. -/
theorem prints_whole (s : Sync) (main l : UInt32) (h0 : main ≠ 0) (val : UInt32 → UInt32)
    (st : PrintState) (t₀ : Terminal) (ht : st.console.Shows t₀) (ops : List PrintOp)
    (ha : Along (step l) (Allowed l) ops (start s main l val st)) :
    Along (step l) (fun op g => op = .work → ∃ g', step l op g = some g') ops
        (start s main l val st) ∧
      ∀ g, run (step l) ops (start s main l val st) = some g → Shown l t₀ g := by
  have hI : ∀ op g g', Invariant main l st g → Allowed l op g → step l op g = some g' →
      Invariant main l st g' := fun _ _ _ hg ha ht => hg.step ha ht
  have hinit := invariant_start (l := l) s h0 val st
  refine ⟨Along.of_invariant hI ?_ hinit ha, fun g hg => (invariant hI hinit ha hg).shown ht⟩
  rintro op g hg ha rfl
  exact hg.work_defined ha

/-- The timer, or what is left of a call. -/
def isTimer : SyncOp → Bool
  | .schedule | .resume => true
  | _ => false

/-- The conditions of a run in which threads only print. -/
def OnlyPrints : PrintOp → Printing → Prop
  | .sync op, g => Sync.Enabled op g.sys ∧ isTimer op = true ∧ Quiet op g.sys
  | .print c _, g =>
      g.sys.frames g.sys.cur = [] ∧ (g.job g.sys.cur).isNone = true ∧ c.Fits
  | .work, g => g.sys.frames g.sys.cur = [] ∧ (g.job g.sys.cur).isSome = true

instance (c : PrintCall) : Decidable c.Fits :=
  inferInstanceAs (Decidable (∀ t ∈ stages c.va c.inputStr.chars 0, t.length ≤ 99))

instance (fs : List Frame) : Decidable (fs = []) := decidable_of_iff _ List.isEmpty_iff

instance (op : SyncOp) (s : Sync) : Decidable (Quiet op s) := by
  unfold Quiet
  cases op <;> infer_instance

instance (op : PrintOp) (g : Printing) : Decidable (OnlyPrints op g) := by
  unfold OnlyPrints
  cases op <;> infer_instance

theorem allowed_of_onlyPrints {op : PrintOp} (h : OnlyPrints op g) : Allowed l op g := by
  cases op with
  | sync op =>
      obtain ⟨hen, htimer, hquiet⟩ := h
      have hop : op = .schedule ∨ op = .resume := by
        cases op with
        | schedule => exact Or.inl rfl
        | resume => exact Or.inr rfl
        | _ => cases htimer
      rcases hop with rfl | rfl <;> exact ⟨⟨hen, trivial⟩, nofun, nofun, fun _ => by simp, hquiet⟩
  | print c n => exact ⟨h.1, Option.isNone_iff_eq_none.mp h.2.1, h.2.2⟩
  | work => exact ⟨h.1, Option.isSome_iff_ne_none.mp h.2⟩

theorem letter_ne_nul : 0 ∉ [(65 : UInt8)] := by decide

/-- A message of one letter. -/
def letter : PrintCall :=
  ⟨⟨[65], letter_ne_nul⟩, black, white, fun _ => ⟨0, ⟨[], nul_notMem_nil⟩⟩⟩

/-- A blank screen. -/
def blankScreen : Console :=
  (((Console.start fun k => if k % 2 = 0 then 0 else 0x0F).setX 0).setY 0).moveCursor

theorem shows_blankScreen : blankScreen.Shows Terminal.blank := by
  refine Console.shows_blank fun i _ j _ => ?_
  have heven : 2 * (i * 80 + j) % 2 = 0 := by omega
  have hodd : (2 * (i * 80 + j) + 1) % 2 ≠ 0 := by omega
  rw [Console.cell, Console.start]
  dsimp only
  rw [if_pos heven, if_neg hodd]
  rfl

/-- The main thread prints and is interrupted; the second thread waits for the lock, and prints
when it has got it. -/
def bothPrint : List PrintOp :=
  [.print letter 0xC010FFF0, .work, .sync .schedule, .print letter 0xC0400FF0] ++
    List.replicate 4 .work ++ [.sync .schedule, .sync .resume] ++ List.replicate 5 .work

/-- The kernel before the threads are created. -/
def beforePrinting : Printing :=
  start Sync.zero 0xC0110000 0xC0200000 (fun _ => 0)
    ⟨Vector.replicate 32 0, Vector.replicate 11 0, blankScreen⟩

theorem allowed_bothPrint : Along (step 0xC0200000) (Allowed 0xC0200000)
    (.sync Sync.secondThread :: bothPrint) beforePrinting := by
  have hinit := (Sync.locked_start Sync.zero (show (0xC0110000 : UInt32) ≠ 0 by decide) 0xC0200000
    fun _ => 0).rep
  have honly : Along (step 0xC0200000) OnlyPrints bothPrint
      ((step 0xC0200000 (.sync Sync.secondThread) beforePrinting).getD beforePrinting) := by
    decide +kernel
  refine ⟨⟨⟨by decide, by decide, ?_⟩, nofun, nofun, fun hne => absurd rfl hne, trivial⟩,
    fun t ht => ?_⟩
  · rw [show beforePrinting.sys.threads = (Sync.zero.startLock 0xC0110000 0xC0200000
      fun _ => 0).threads from rfl, hinit.inRing_iff]
    decide
  · rw [ht, Option.getD_some] at honly
    exact honly.mono fun op g h => allowed_of_onlyPrints h

theorem prints_whole_twice : ∃ g,
    run (step 0xC0200000) (.sync Sync.secondThread :: bothPrint) beforePrinting = some g ∧
      Shown 0xC0200000 Terminal.blank g ∧ g.ended.length = 2 := by
  have hrun : ((run (step 0xC0200000) (.sync Sync.secondThread :: bothPrint) beforePrinting).map
      fun g => g.ended.length) = some 2 := by
    decide +kernel
  obtain ⟨g, hg, hlen⟩ := Option.map_eq_some_iff.mp hrun
  obtain ⟨-, hshown⟩ := prints_whole Sync.zero 0xC0110000 0xC0200000 (by decide) (fun _ => 0)
    ⟨Vector.replicate 32 0, Vector.replicate 11 0, blankScreen⟩ Terminal.blank shows_blankScreen _
    allowed_bothPrint
  exact ⟨g, hg, hshown g hg, hlen⟩

end Printing
end BHOS
