import Mathlib.Algebra.BigOperators.Ring.List
import BHOS.Interrupts
import BHOS.Fairness
import BHOS.Scheduler

/-! # Time slices (`timer_server_func`)

The handler of the timer takes one from the slice of the running thread, and calls `schedule` when
nothing is left of it.  With the other functions of the thread module in between, in any order, a
ready thread that is `d` places behind `cur_tcb` is made current within `11 * d` ticks
(`served_of_ticks`): every thread before it runs for ten ticks at most and gives up the processor at
the next one.  A thread that is created meanwhile is put right behind `cur_tcb`, so it comes first,
and costs eleven ticks more.

On the round robin, `Waits A w k` says that the ready thread `w` has `k` threads between itself and
the current one; one lemma an operation says what becomes of `k`. -/

namespace BHOS

open Linked Transition

namespace Sched

variable {α : Type} [DecidableEq α] {A : Sched α} {a b w : α} {k : ℕ} {l₁ l₂ : List α}

/-- The thread is ready, with `k` threads between the current one and itself. -/
structure Waits (A : Sched α) (w : α) (k : ℕ) : Prop where
  place : ∃ l₁ l₂, A.rest = l₁ ++ w :: l₂ ∧ l₁.length = k
  ready : A.status w = .ready

omit [DecidableEq α] in
theorem Waits.mem (h : A.Waits w k) : w ∈ A.rest := by
  obtain ⟨l₁, l₂, e, -⟩ := h.place
  simp [e]

omit [DecidableEq α] in
theorem Waits.ne_cur (h : A.Waits w k) (hnd : A.threads.Nodup) : A.cur ≠ w :=
  fun e => (List.nodup_cons.mp hnd).1 (e ▸ h.mem)

/-- The thread that `schedule` selects is the waiting one, or it is before it and the waiting one
comes nearer. -/
theorem Waits.schedule (h : A.Waits w k) (hnd : A.threads.Nodup) :
    A.schedule.2.cur = w ∨ ∃ j < k, A.schedule.2.Waits w j := by
  rcases A.ready_cases with hno | ⟨l₁, b, l₂, e, hno, hb⟩
  · exact absurd h.ready (hno w h.mem)
  · rw [schedule_of_split e hno hb]
    obtain ⟨m₁, m₂, hw, rfl⟩ := h.place
    have hcur := h.ne_cur hnd
    by_cases hbw : b = w
    · exact Or.inl hbw
    · right
      -- no thread before `b` is ready, so `w` is behind it
      obtain ⟨m, rfl⟩ : ∃ m, m₁ = l₁ ++ b :: m := by
        rcases List.append_eq_append_iff.mp (e.symm.trans hw) with ⟨m, hm, hl⟩ | ⟨m, hm, hl⟩
        · cases m with
          | nil => exact absurd (List.cons.inj hl).1 hbw
          | cons c m => exact ⟨m, by rw [hm, (List.cons.inj hl).1]⟩
        · cases m with
          | nil => exact absurd (List.cons.inj hl).1.symm hbw
          | cons c m =>
              refine absurd h.ready (hno w ?_)
              rw [hm, (List.cons.inj hl).1]
              simp
      have hl₂ : l₂ = m ++ w :: m₂ := by
        rw [hw, List.append_assoc, List.cons_append, List.append_cancel_left_eq] at e
        exact (List.cons.inj e).2.symm
      refine ⟨m.length, ?_, ⟨m, m₂ ++ A.cur :: l₁, ?_, rfl⟩, ?_⟩
      · rw [List.length_append, List.length_cons]
        omega
      · simp only [switch, hl₂, List.append_assoc, List.cons_append]
      · simp only [switch, Function.update_of_ne (Ne.symm hbw)]
        split_ifs
        · rw [Function.update_of_ne hcur.symm, h.ready]
        · exact h.ready

theorem Waits.setStatus (h : A.Waits w k) {st : TaskStatus} (ha : a = w → st = .ready) :
    (A.setStatus a st).Waits w k := by
  refine ⟨h.place, ?_⟩
  rw [setStatus_status]
  by_cases hw : w = a
  · subst hw
    rw [Function.update_self, ha rfl]
  · rw [Function.update_of_ne hw, h.ready]

theorem Waits.threadBlock (h : A.Waits w k) (hnd : A.threads.Nodup) :
    A.threadBlock.2.cur = w ∨ ∃ j < k, A.threadBlock.2.Waits w j :=
  (h.setStatus fun e => absurd e (h.ne_cur hnd)).schedule hnd

/-- A new thread comes before all that wait. -/
theorem Waits.createThread (h : A.Waits w k) (ha : a ∉ A.threads) :
    (A.createThread a).Waits w (k + 1) := by
  have hwa : w ≠ a := by
    rintro rfl
    exact ha (List.mem_cons_of_mem A.cur h.mem)
  obtain ⟨l₁, l₂, e, hk⟩ := h.place
  refine ⟨⟨a :: l₁, l₂, ?_, by rw [List.length_cons, hk]⟩, ?_⟩
  · simp only [Sched.createThread, e, List.cons_append]
  · rw [createThread_status_of_ne hwa, h.ready]

omit [DecidableEq α] in
theorem Waits.exit (h : A.Waits w k) (stays : Bool) :
    (A.exit stays).cur = w ∨ ∃ j < k, (A.exit stays).Waits w j := by
  obtain ⟨l₁, l₂, e, rfl⟩ := h.place
  cases l₁ with
  | nil =>
      left
      rw [exit_of_cons e]
  | cons b l =>
      right
      rw [List.cons_append] at e
      rw [exit_of_cons e]
      refine ⟨l.length, Nat.lt_succ_self _, ?_, h.ready⟩
      cases stays with
      | false => exact ⟨l, l₂, rfl, rfl⟩
      | true => exact ⟨l, l₂ ++ [A.cur], by simp, rfl⟩

end Sched

/-- The functions of the thread module and the tick of the timer. -/
inductive TimedOp
  | op (op : ThreadOp)
  | tick

namespace TimedOp

/-- A thread is created. -/
def creates : TimedOp → ℕ
  | .op (.createThread _ _ _ _ _ _) => 1
  | _ => 0

/-- The timer ticks. -/
def ticks : TimedOp → ℕ
  | .tick => 1
  | _ => 0

end TimedOp

namespace Threads

variable {s t : Threads} {A : Sched UInt32} {main w : UInt32} {k : ℕ}

/-- One operation of the running thread, or a tick. -/
def timedStep : TimedOp → Threads → Option Threads
  | .op op, s => step op s
  | .tick, s => s.timerServerFunc.map Prod.snd

/-- New threads get fresh control blocks. -/
def Fresh : TimedOp → Threads → Prop
  | .op (.createThread _ addr _ _ _ _), s => addr ≠ 0 ∧ ¬ s.InRing addr
  | _, _ => True

/-- What is left of the slice of the running thread. -/
def slice (s : Threads) : ℕ := (s.tcb s.curTcb).timeLeft.toNat

/-! ### The slice of the running thread -/

theorem slice_with_cpu (s : Threads) (c : Context) : ({ s with cpu := c } : Threads).slice = s.slice :=
  rfl

/-- A change that leaves `time_left` alone leaves the slice alone. -/
theorem modify_slice {a : UInt32} {f : Tcb → Tcb} (hf : (f (s.tcb a)).timeLeft = (s.tcb a).timeLeft) :
    (s.modify a f).slice = s.slice := by
  have h := congrFun (modify_tcb (s := s) (a := a) Tcb.timeLeft f) s.curTcb
  rw [Function.update_eq_self_iff.mpr hf] at h
  exact congrArg UInt32.toNat h

theorem slice_of_full (h : (s.tcb s.curTcb).timeLeft = timeCont) : s.slice = 10 :=
  congrArg UInt32.toNat h

/-- Who runs after `schedule` has a full slice. -/
theorem Round.schedule_slice {sw : Switch} (h : Round s A) (hs : s.schedule = some (sw, t)) :
    t.slice = 10 := slice_of_full (h.schedule_timeLeft hs)

theorem Represents.threadBlock_slice {sw : Switch} {condition : Bool} (h : Represents main s A)
    (hs : s.threadBlock = some (sw, condition, t)) : t.slice = 10 := by
  rw [threadBlock_eq] at hs
  obtain ⟨⟨o, u⟩, hu, hs⟩ := Option.map_eq_some_iff.mp hs
  simp only [Prod.mk.injEq] at hs
  obtain ⟨rfl, -, rfl⟩ := hs
  have hslice := h.blocking.1.round.schedule_slice hu
  split_ifs
  · exact hslice
  · obtain ⟨c, hc⟩ := u.stiCondition_eq s.getIntFlag
    rw [hc, slice_with_cpu, hslice]

theorem createThread_slice (tid : UInt32) {addr : UInt32} (pageCounte pdtVaddr : UInt32)
    (isKernThread : Bool) (userVmmPool : Bitmap) (hne : addr ≠ s.curTcb) :
    (s.createThread tid addr pageCounte isKernThread userVmmPool pdtVaddr).slice = s.slice := by
  obtain ⟨c, hc⟩ := s.createThread_eq tid pageCounte pdtVaddr isKernThread userVmmPool hne
  rw [hc, slice_with_cpu, slice, insertTcb]
  exact congrArg (fun t => t.timeLeft.toNat) ((modify_of_ne hne.symm _).trans (modify_self _))

theorem threadWakeup_slice (s : Threads) (a : UInt32) : (s.threadWakeup a).slice = s.slice := by
  obtain ⟨c, hc⟩ := s.cliCondition_eq
  simp only [threadWakeup, hc]
  obtain ⟨c', hc'⟩ := (({ s with cpu := c } : Threads).modify a fun t =>
    { t with taskStatus := .ready }).stiCondition_eq s.getIntFlag
  rw [hc', slice_with_cpu, modify_slice rfl, slice_with_cpu]

theorem switchTo_slice (s : Threads) (a b : UInt32) : (s.switchTo a b).slice = s.slice :=
  modify_slice (f := fun t => { t with context := s.cpu }) rfl

theorem leave_slice (s : Threads) (b : UInt32) : (s.leave b).slice = 10 := by
  have hb : ((s.modify b fun t => { t with timeLeft := timeCont }).tcb b).timeLeft = timeCont :=
    congrArg Tcb.timeLeft (modify_self _)
  rw [leave, switchTo_slice]
  exact congrArg UInt32.toNat hb

theorem exit_slice (h : s.exit = some t) : t.slice = 10 := by
  obtain ⟨u, hu, -⟩ := Option.bind_eq_some_iff.mp h
  rw [exit_eq hu rfl] at h
  obtain rfl := Option.some.inj h
  exact leave_slice u _

/-! ### One step -/

/-- The round robin, with a slice of ten ticks at most. -/
structure Timed (main : UInt32) (s : Threads) (A : Sched UInt32) : Prop where
  rep : Represents main s A
  slice_le : s.slice ≤ 10

/-- What an operation does to the threads that wait: one of them is made current, or the ticks it
waits at most have become fewer by those of the operation. -/
def Serves (op : TimedOp) (s : Threads) (A : Sched UInt32) (t : Threads) (B : Sched UInt32) : Prop :=
  ∀ w k, A.Waits w k → t.curTcb = w ∨
    ∃ j, B.Waits w j ∧ 11 * j + t.slice + op.ticks ≤ 11 * k + s.slice + 11 * op.creates

/-- When a full slice begins with a thread that has come nearer. -/
theorem serves_of_full {op : TimedOp} {B : Sched UInt32} (hcur : t.curTcb = B.cur)
    (hfull : t.slice = 10)
    (h : ∀ w k, A.Waits w k → B.cur = w ∨ ∃ j < k, B.Waits w j) : Serves op s A t B := by
  intro w k hw
  rcases h w k hw with e | ⟨j, hj, hB⟩
  · exact Or.inl (hcur.trans e)
  · refine Or.inr ⟨j, hB, ?_⟩
    have hticks : op.ticks ≤ 1 := by
      cases op with
      | tick => exact le_rfl
      | op op => exact Nat.zero_le 1
    omega

theorem Timed.tick (h : Timed main s A) {sw : Switch} (ht : s.timerServerFunc = some (sw, t)) :
    ∃ B, Timed main t B ∧ Serves .tick s A t B := by
  rw [timerServerFunc] at ht
  split_ifs at ht with hleft
  · obtain ⟨-, rfl⟩ := Prod.mk.inj (Option.some.inj ht)
    have hpos : s.slice ≠ 0 := fun e => hleft (UInt32.toNat_inj.mp e)
    have hslice : (s.modify s.curTcb fun t =>
        { t with timeLeft := t.timeLeft - 1, timeCounter := t.timeCounter + 1 }).slice + 1 =
        s.slice := by
      have e := congrArg (fun t => t.timeLeft.toNat) (modify_self (s := s) (a := s.curTcb) fun t =>
        { t with timeLeft := t.timeLeft - 1, timeCounter := t.timeCounter + 1 })
      simp only [slice] at e hpos ⊢
      rw [show (s.modify s.curTcb _).curTcb = s.curTcb from rfl, e]
      simp only [UInt32.toNat_sub, UInt32.reduceToNat]
      have := (s.tcb s.curTcb).timeLeft.toNat_lt
      omega
    have hle := h.slice_le
    refine ⟨A, ⟨h.rep.restatus (modify_keeps rfl) (modify_next_of rfl) rfl
      ((modify_status_of rfl).trans h.rep.status), by omega⟩, ?_⟩
    intro w k hw
    refine Or.inr ⟨k, hw, ?_⟩
    simp only [TimedOp.ticks, TimedOp.creates]
    omega
  · obtain ⟨-, hB, -⟩ := h.rep.schedule_spec ht
    have hfull := h.rep.round.schedule_slice ht
    exact ⟨_, ⟨hB, hfull.le⟩, serves_of_full hB.cur hfull fun w k hw =>
      hw.schedule h.rep.ring.nodup⟩

/-- **One operation**: whoever waits is served, or has to wait for so many ticks fewer. -/
theorem Timed.step (h : Timed main s A) {op : TimedOp} (hf : Fresh op s)
    (ht : timedStep op s = some t) : ∃ B, Timed main t B ∧ Serves op s A t B := by
  have hrep := h.rep
  have hnd := hrep.ring.nodup
  have hle := h.slice_le
  cases op with
  | tick =>
      obtain ⟨⟨sw, u⟩, hu, rfl⟩ := Option.map_eq_some_iff.mp ht
      exact h.tick hu
  | op op =>
    cases op with
    | createThread tid addr pageCounte isKernThread userVmmPool pdtVaddr =>
        obtain ⟨h0, hfresh⟩ := hf
        rw [hrep.inRing_iff] at hfresh
        obtain ⟨u, hu, hB, -⟩ := hrep.createThread_spec tid pageCounte pdtVaddr isKernThread
          userVmmPool hfresh h0
        obtain rfl := Option.some.inj ht
        have hslice := createThread_slice (s := s) tid pageCounte pdtVaddr isKernThread userVmmPool
          (fun e => hfresh (by
            rw [e, hrep.cur]
            exact List.mem_cons_self) : addr ≠ s.curTcb)
        rw [hu] at hslice ⊢
        refine ⟨_, ⟨hB, hslice ▸ hle⟩, ?_⟩
        intro w k hw
        refine Or.inr ⟨k + 1, hw.createThread hfresh, ?_⟩
        simp only [TimedOp.ticks, TimedOp.creates, hslice]
        omega
    | schedule =>
        obtain ⟨⟨sw, u⟩, hu, rfl⟩ := Option.map_eq_some_iff.mp ht
        obtain ⟨-, hB, -⟩ := hrep.schedule_spec hu
        have hfull := hrep.round.schedule_slice hu
        exact ⟨_, ⟨hB, hfull.le⟩, serves_of_full hB.cur hfull fun w k hw => hw.schedule hnd⟩
    | threadBlock =>
        obtain ⟨⟨sw, condition, u⟩, hu, rfl⟩ := Option.map_eq_some_iff.mp ht
        obtain ⟨-, hB, -⟩ := hrep.threadBlock_spec hu
        have hfull := hrep.threadBlock_slice hu
        exact ⟨_, ⟨hB, hfull.le⟩, serves_of_full hB.cur hfull fun w k hw => hw.threadBlock hnd⟩
    | endBlock condition =>
        obtain rfl := Option.some.inj ht
        obtain ⟨c, hc⟩ := s.stiCondition_eq condition
        rw [hc]
        exact ⟨A, ⟨hrep.with_cpu c, hle⟩, fun w k hw => Or.inr ⟨k, hw, le_rfl⟩⟩
    | threadWakeup targetThread =>
        obtain rfl := Option.some.inj ht
        have hslice := s.threadWakeup_slice targetThread
        refine ⟨_, ⟨(hrep.threadWakeup_spec targetThread).1, hslice ▸ hle⟩, ?_⟩
        intro w k hw
        exact Or.inr ⟨k, hw.setStatus fun _ => rfl, by rw [hslice]; exact le_rfl⟩
    | exit =>
        obtain ⟨u, hu, hB, -⟩ := hrep.exit_spec
        obtain rfl := Option.some.inj (hu.symm.trans ht)
        have hfull := exit_slice hu
        exact ⟨_, ⟨hB, hfull.le⟩, serves_of_full hB.cur hfull fun w k hw => hw.exit _⟩

/-! ### Runs -/

/-- The ticks of a run. -/
def tickCount (ops : List TimedOp) : ℕ := (ops.map TimedOp.ticks).sum

/-- The threads that a run creates. -/
def createCount (ops : List TimedOp) : ℕ := (ops.map TimedOp.creates).sum

/-- **A ready thread gets its turn.**  From `threads_init` on, in every run of the thread module and
the timer, a thread that is ready and `d` places behind `cur_tcb` is made current when the timer has
ticked eleven times for each of these places and for each thread created in the meantime. -/
theorem served_of_ticks (s₀ : Threads) (main : UInt32) (h0 : main ≠ 0) {before after : List TimedOp}
    (ha : Along timedStep Fresh (before ++ after) (s₀.threadsInit main))
    (hs : run timedStep before (s₀.threadsInit main) = some s)
    (ht : run timedStep after s = some t) {w : UInt32} {d : ℕ}
    (hd : (fun a => (s.tcb a).next)^[d] s.curTcb = w) (hw : s.status w = .ready)
    (hticks : 11 * (d + createCount after) ≤ tickCount after) :
    ∃ pre post u, after = pre ++ post ∧ run timedStep pre s = some u ∧ u.curTcb = w := by
  obtain ⟨hbefore, hafter⟩ := (along_append hs).mp ha
  have hinit : ∃ A, Timed main (s₀.threadsInit main) A := by
    refine ⟨_, represents_threadsInit s₀ h0, ?_⟩
    exact (slice_of_full (by simp [threadsInit])).le
  obtain ⟨A, hA⟩ := invariant (I := fun s => ∃ A, Timed main s A) (by
    rintro op s t ⟨A, hA⟩ hf ht
    obtain ⟨B, hB, -⟩ := hA.step hf ht
    exact ⟨B, hB⟩) hinit hbefore hs
  by_cases hcur : w = s.curTcb
  · exact ⟨[], after, s, rfl, rfl, hcur.symm⟩
  obtain ⟨l₁, l₂, e, hlen⟩ := hA.rep.ring.place_of_iterate (f := fun a => (s.tcb a).next)
    (fun _ => rfl) (hA.rep.cur ▸ hd) (hA.rep.cur ▸ hcur)
  have hwaits : A.Waits w l₁.length :=
    ⟨⟨l₁, l₂, e, rfl⟩, (congrFun hA.rep.status w).symm.trans hw⟩
  have hle := hA.slice_le
  let B := fun (u : Threads) n => ∃ B k, Timed main u B ∧ B.Waits w k ∧ 11 * k + u.slice = n
  have hB : ∀ op u v n, B u n → Fresh op u → timedStep op u = some v →
      v.curTcb = w ∨ ∃ m, B v m ∧ m + TimedOp.ticks op ≤ n + 11 * TimedOp.creates op := by
    rintro op u v n ⟨B, k, hB, hk, rfl⟩ hf hv
    obtain ⟨C, hC, hserves⟩ := hB.step hf hv
    rcases hserves w k hk with e | ⟨j, hj, hle⟩
    · exact Or.inl e
    · exact Or.inr ⟨_, ⟨C, j, hC, hj, rfl⟩, hle⟩
  apply reaches_of_budget hB ⟨A, _, hA, hwaits, rfl⟩ hafter ht
  have hsum : (after.map fun op => 11 * op.creates).sum = 11 * createCount after :=
    List.sum_map_mul_left ..
  rw [hsum]
  simp only [tickCount] at hticks
  omega

theorem served_of_ticks_twoThreads : ∃ pre post u,
    List.replicate 11 TimedOp.tick = pre ++ post ∧ run timedStep pre mainAndOther = some u ∧
      u.curTcb = 0xC0400000 := by
  have hfresh : Along timedStep Fresh ([.op (.createThread 1 0xC0400000 1 true ⟨0, 0, 0⟩ 0)] ++
      List.replicate 11 .tick) (zero.threadsInit 0xC0100000) := by
    refine ⟨⟨by decide, ?_⟩, fun t _ => along_of_forall fun op hop _ => ?_⟩
    · rw [(represents_threadsInit zero (by decide)).inRing_iff]
      decide
    · obtain rfl := List.eq_of_mem_replicate hop
      trivial
  obtain ⟨t, ht⟩ : ∃ t, run timedStep (List.replicate 11 .tick) mainAndOther = some t := by
    rw [← Option.isSome_iff_exists]
    decide +kernel
  exact served_of_ticks zero 0xC0100000 (by decide) hfresh rfl ht (w := 0xC0400000) (d := 1)
    (by decide) (by decide) (by decide)

end Threads

/-! ### The frequency of the ticks -/

/-- `timer_init`: the ports and the values written to them. -/
def timerInit (frequency : UInt32) : Option (List (UInt16 × UInt8)) :=
  if frequency = 0 then none
  else
    let divisor := 1193180 / frequency
    some [(0x43, 0x36), (0x40, (divisor &&& 0xFF).toUInt8),
      (0x40, ((divisor >>> 8) &&& 0xFF).toUInt8)]

/-- The oscillations from one tick to the next, when a channel of the timer chip is loaded with a
low and a high byte. -/
def reloadCount (low high : UInt8) : ℕ :=
  let n := high.toNat * 256 + low.toNat
  if n = 0 then 65536 else n

/-- From 19 ticks a second on the channel is loaded with the quotient. -/
theorem timerInit_reloads {frequency : UInt32} (hlow : 19 ≤ frequency.toNat)
    (hhigh : frequency.toNat ≤ 1193180) :
    ∃ low high, timerInit frequency = some [(0x43, 0x36), (0x40, low), (0x40, high)] ∧
      reloadCount low high = 1193180 / frequency.toNat := by
  have h0 : frequency ≠ 0 := by
    rintro rfl
    exact absurd hlow (by decide)
  have hdiv : (1193180 / frequency).toNat = 1193180 / frequency.toNat := by
    rw [UInt32.toNat_div]
    rfl
  have hle : 1193180 / frequency.toNat ≤ 1193180 / 19 := Nat.div_le_div_left hlow (by decide)
  have hpos : 0 < 1193180 / frequency.toNat := Nat.div_pos hhigh (by omega)
  refine ⟨_, _, if_neg h0, ?_⟩
  generalize 1193180 / frequency = divisor at hdiv
  have hb : (divisor &&& 0xFF).toUInt8.toNat = divisor.toNat % 256 := by
    rw [UInt32.toNat_toUInt8, UInt32.toNat_and]
    exact (Nat.mod_eq_of_lt (Nat.and_lt_two_pow _ (by decide))).trans
      (Nat.and_two_pow_sub_one_eq_mod _ 8)
  have hc : ((divisor >>> 8) &&& 0xFF).toUInt8.toNat = divisor.toNat / 256 % 256 := by
    rw [UInt32.toNat_toUInt8, UInt32.toNat_and]
    refine (Nat.mod_eq_of_lt (Nat.and_lt_two_pow _ (by decide))).trans
      ((Nat.and_two_pow_sub_one_eq_mod _ 8).trans ?_)
    rw [UInt32.toNat_shiftRight, Nat.shiftRight_eq_div_pow]
    rfl
  simp only [reloadCount, hb, hc, hdiv]
  split_ifs <;> omega

end BHOS
