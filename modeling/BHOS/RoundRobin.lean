import Mathlib.Data.List.TakeWhile
import BHOS.Lib.Words
import BHOS.Threads

/-! # The scheduler as a round robin

What `threads.c` does to `cur_tcb`, to the order of the ring and to the statuses is described by
`Sched`: the current thread, the other threads in ring order, and the status of every thread.
`Round` connects the control blocks to it, `Represents` says in addition that the main thread is
in the ring, and for each function of the thread module a theorem says that it refines the
operation of the round robin of the same name. -/

namespace BHOS

open Linked

/-- The current thread, the others in ring order, and the status of every thread. -/
structure Sched (α : Type) where
  cur : α
  rest : List α
  status : α → TaskStatus

namespace Sched

variable {α : Type} [DecidableEq α] (A : Sched α)

/-- The threads in the ring. -/
def threads : List α := A.cur :: A.rest

/-- Give a thread a status. -/
def setStatus (a : α) (st : TaskStatus) : Sched α :=
  { A with status := Function.update A.status a st }

/-- Make a thread of the ring current: `before` and `after` are the other threads before and
after it. -/
def switch (before : List α) (b : α) (after : List α) : Sched α where
  cur := b
  rest := after ++ A.cur :: before
  status :=
    Function.update
      (if A.status A.cur = .running then Function.update A.status A.cur .ready else A.status)
      b .running

/-- The next ready thread becomes the running one; a thread that is alone goes on, even when it
was blocked. -/
def schedule : Switch × Sched α :=
  match A.rest.dropWhile fun b => decide (A.status b ≠ .ready) with
  | [] =>
      if A.status A.cur = .ready ∨ A.status A.cur = .running then (.returned, A)
      else (.selfWoken, A.setStatus A.cur .running)
  | b :: after =>
      (.switched, A.switch (A.rest.takeWhile fun b => decide (A.status b ≠ .ready)) b after)

/-- A new thread stands behind the current one and is ready. -/
def createThread (a : α) : Sched α :=
  { A with rest := a :: A.rest, status := Function.update A.status a .ready }

/-- The current thread blocks. -/
def threadBlock : Switch × Sched α := (A.setStatus A.cur .blocked).schedule

/-- The next thread of the ring becomes current, whatever its status is; the current thread is
taken out unless it stays, as the main thread does. -/
def exit (stays : Bool) : Sched α :=
  match A.rest with
  | [] => A
  | b :: l => { A with cur := b, rest := if stays then l ++ [A.cur] else l }

variable {A} {a b : α} {l₁ l₂ : List α}

@[simp] theorem setStatus_cur (st : TaskStatus) : (A.setStatus a st).cur = A.cur := rfl

@[simp] theorem setStatus_rest (st : TaskStatus) : (A.setStatus a st).rest = A.rest := rfl

@[simp] theorem setStatus_status (st : TaskStatus) :
    (A.setStatus a st).status = Function.update A.status a st := rfl

theorem schedule_of_none (hno : ∀ b ∈ A.rest, A.status b ≠ .ready) :
    A.schedule =
      if A.status A.cur = .ready ∨ A.status A.cur = .running then (.returned, A)
      else (.selfWoken, A.setStatus A.cur .running) := by
  have e : (A.rest.dropWhile fun b => decide (A.status b ≠ .ready)) = [] :=
    List.dropWhile_eq_nil_iff.mpr fun b hb => decide_eq_true (hno b hb)
  simp only [schedule, e]

theorem schedule_of_split (e : A.rest = l₁ ++ b :: l₂) (hno : ∀ c ∈ l₁, A.status c ≠ .ready)
    (hb : A.status b = .ready) : A.schedule = (.switched, A.switch l₁ b l₂) := by
  have hl : ∀ c ∈ l₁, decide (A.status c ≠ .ready) = true := fun c hc => decide_eq_true (hno c hc)
  have hd : (A.rest.dropWhile fun b => decide (A.status b ≠ .ready)) = b :: l₂ := by
    rw [e, List.dropWhile_append_of_pos hl, List.dropWhile_cons_of_neg (by simp [hb])]
  have ht : (A.rest.takeWhile fun b => decide (A.status b ≠ .ready)) = l₁ := by
    rw [e, List.takeWhile_append_of_pos hl, List.takeWhile_cons_of_neg (by simp [hb]),
      List.append_nil]
  simp only [schedule, hd, ht]

theorem setStatus_cur_of_rest (hcur : A.cur ∉ A.rest) (st : TaskStatus) :
    ∀ b ∈ A.rest, (A.setStatus A.cur st).status b = A.status b := by
  intro b hb
  have hne : b ≠ A.cur := fun e => hcur (e ▸ hb)
  rw [setStatus_status, Function.update_of_ne hne]

theorem threadBlock_of_none (hcur : A.cur ∉ A.rest) (hno : ∀ b ∈ A.rest, A.status b ≠ .ready) :
    A.threadBlock = (.selfWoken, (A.setStatus A.cur .blocked).setStatus A.cur .running) := by
  have hst : ¬ ((A.setStatus A.cur .blocked).status A.cur = .ready ∨
      (A.setStatus A.cur .blocked).status A.cur = .running) := by simp
  have hsched := schedule_of_none (A := A.setStatus A.cur .blocked) fun b hb => by
    rw [setStatus_cur_of_rest hcur .blocked b hb]
    exact hno b hb
  rw [setStatus_cur, if_neg hst] at hsched
  exact hsched

theorem threadBlock_of_split (hcur : A.cur ∉ A.rest) (e : A.rest = l₁ ++ b :: l₂)
    (hno : ∀ c ∈ l₁, A.status c ≠ .ready) (hb : A.status b = .ready) :
    A.threadBlock = (.switched, (A.setStatus A.cur .blocked).switch l₁ b l₂) := by
  have hst := setStatus_cur_of_rest hcur .blocked
  refine schedule_of_split e ?_ ?_
  · intro c hc
    rw [hst c (by simp [e, hc])]
    exact hno c hc
  · rw [hst b (by simp [e]), hb]

omit [DecidableEq α] in
/-- Either no other thread is ready, or there is a first ready one. -/
theorem ready_cases (A : Sched α) : (∀ b ∈ A.rest, A.status b ≠ .ready) ∨
    ∃ l₁ b l₂, A.rest = l₁ ++ b :: l₂ ∧ (∀ c ∈ l₁, A.status c ≠ .ready) ∧ A.status b = .ready := by
  by_cases hex : ∃ b ∈ A.rest, A.status b = .ready
  · obtain ⟨b, hb, hr⟩ := hex
    have hsome : (A.rest.find? fun b => decide (A.status b = .ready)).isSome := by
      rw [List.find?_isSome]
      exact ⟨b, hb, decide_eq_true hr⟩
    obtain ⟨c, hc⟩ := Option.isSome_iff_exists.mp hsome
    obtain ⟨hr, l₁, l₂, e, hno⟩ := List.find?_eq_some_iff_append.mp hc
    exact Or.inr ⟨l₁, c, l₂, e, fun d hd => by simpa using hno d hd, of_decide_eq_true hr⟩
  · exact Or.inl fun b hb hr => hex ⟨b, hb, hr⟩

theorem mem_createThread : b ∈ (A.createThread a).threads ↔ b = a ∨ b ∈ A.threads := by
  simp only [threads, createThread, List.mem_cons]
  tauto

theorem createThread_status_of_ne (hb : b ≠ a) : (A.createThread a).status b = A.status b :=
  Function.update_of_ne hb _ _

theorem createThread_status_self : (A.createThread a).status a = .ready :=
  Function.update_self a _ _

theorem mem_schedule : a ∈ A.schedule.2.threads ↔ a ∈ A.threads := by
  rcases A.ready_cases with hno | ⟨l₁, b, l₂, e, hno, hb⟩
  · rw [schedule_of_none hno]
    split_ifs <;> exact Iff.rfl
  · rw [schedule_of_split e hno hb]
    simp only [threads, switch, e, List.mem_cons, List.mem_append]
    tauto

section exit

omit [DecidableEq α]

variable {l : List α} {stays : Bool}

theorem exit_of_nil (hrest : A.rest = []) : A.exit stays = A := by
  unfold exit
  rw [hrest]

theorem exit_of_cons (hrest : A.rest = b :: l) :
    A.exit stays = { A with cur := b, rest := if stays then l ++ [A.cur] else l } := by
  unfold exit
  rw [hrest]

theorem exit_status : (A.exit stays).status = A.status := by
  unfold exit
  cases A.rest <;> rfl

/-- When the current thread stays, the threads are the same. -/
theorem mem_exit_true : a ∈ (A.exit true).threads ↔ a ∈ A.threads := by
  cases hrest : A.rest with
  | nil => rw [exit_of_nil hrest]
  | cons b l =>
      rw [exit_of_cons hrest]
      simp only [threads, hrest, if_true, List.mem_cons, List.mem_append, List.not_mem_nil, or_false]
      tauto

theorem mem_of_exit (h : a ∈ (A.exit stays).threads) : a ∈ A.threads := by
  cases stays with
  | true => exact mem_exit_true.mp h
  | false =>
      cases hrest : A.rest with
      | nil => rwa [exit_of_nil hrest] at h
      | cons b l =>
          rw [exit_of_cons hrest] at h
          rw [threads, hrest]
          exact List.mem_cons_of_mem A.cur h

/-- Every thread but the current one is still there. -/
theorem mem_exit_of_ne (hne : a ≠ A.cur) (h : a ∈ A.threads) : a ∈ (A.exit stays).threads := by
  cases stays with
  | true => exact mem_exit_true.mpr h
  | false =>
      cases hrest : A.rest with
      | nil => rwa [exit_of_nil hrest]
      | cons b l =>
          rw [threads, hrest] at h
          rw [exit_of_cons hrest]
          exact (List.mem_cons.mp h).resolve_left hne

theorem mem_exit_false (hnd : A.threads.Nodup) (hne : A.rest ≠ []) :
    a ∈ (A.exit false).threads ↔ a ∈ A.threads ∧ a ≠ A.cur := by
  refine ⟨fun ha => ⟨mem_of_exit ha, ?_⟩, fun ha => mem_exit_of_ne ha.2 ha.1⟩
  rintro rfl
  obtain ⟨b, l, hrest⟩ := List.exists_cons_of_ne_nil hne
  rw [exit_of_cons hrest] at ha
  rw [threads, hrest] at hnd
  exact (List.nodup_cons.mp hnd).1 ha

end exit

theorem switch_status_self (l₁ l₂ : List α) : (A.switch l₁ b l₂).status b = .running := by
  simp only [switch, Function.update_self]

end Sched

/-- What a control block keeps after the creation of its thread. -/
def Tcb.core (t : Tcb) : UInt32 × UInt32 × UInt32 × Bool × Bitmap × UInt32 × UInt32 :=
  (t.tid, t.pageCounte, t.pageAddr, t.isKernThread, t.userVmmPool, t.pdtVaddr, t.tcbMagicNumber)

namespace Threads

variable {s t u : Threads} {A B : Sched UInt32} {a b main : UInt32} {f : Tcb → Tcb}
  {l₁ l₂ : List UInt32}

/-! ### What the functions leave alone -/

/-- The control blocks keep what they keep after creation; page tables and kernel directory are
the same. -/
structure Keeps (s t : Threads) : Prop where
  core : ∀ a, (t.tcb a).core = (s.tcb a).core
  mem : t.mem = s.mem
  kernDir : t.kernDirTablePaddr = s.kernDirTablePaddr

theorem Keeps.refl (s : Threads) : Keeps s s := ⟨fun _ => rfl, rfl, rfl⟩

theorem Keeps.trans (h₁ : Keeps s t) (h₂ : Keeps t u) : Keeps s u :=
  ⟨fun a => (h₂.core a).trans (h₁.core a), h₂.mem.trans h₁.mem, h₂.kernDir.trans h₁.kernDir⟩

section

variable (h : Keeps s t) (a : UInt32)
include h

theorem Keeps.tid : (t.tcb a).tid = (s.tcb a).tid := congrArg Prod.fst (h.core a)

theorem Keeps.pageCounte : (t.tcb a).pageCounte = (s.tcb a).pageCounte :=
  congrArg (fun c => c.2.1) (h.core a)

theorem Keeps.isKernThread : (t.tcb a).isKernThread = (s.tcb a).isKernThread :=
  congrArg (fun c => c.2.2.2.1) (h.core a)

theorem Keeps.pdtVaddr : (t.tcb a).pdtVaddr = (s.tcb a).pdtVaddr :=
  congrArg (fun c => c.2.2.2.2.2.1) (h.core a)

theorem Keeps.tcbMagicNumber : (t.tcb a).tcbMagicNumber = (s.tcb a).tcbMagicNumber :=
  congrArg (fun c => c.2.2.2.2.2.2) (h.core a)

end

@[simp] theorem modify_self (f : Tcb → Tcb) : (s.modify a f).tcb a = f (s.tcb a) :=
  Function.update_self a _ _

theorem modify_of_ne (h : b ≠ a) (f : Tcb → Tcb) : (s.modify a f).tcb b = s.tcb b :=
  Function.update_of_ne h _ _

theorem modify_tcb (g : Tcb → β) (f : Tcb → Tcb) :
    (fun b => g ((s.modify a f).tcb b)) =
      Function.update (fun b => g (s.tcb b)) a (g (f (s.tcb a))) := by
  funext b
  by_cases hb : b = a
  · subst hb
    rw [modify_self, Function.update_self]
  · rw [modify_of_ne hb, Function.update_of_ne hb]

theorem modify_status (f : Tcb → Tcb) :
    (s.modify a f).status = Function.update s.status a (f (s.tcb a)).taskStatus :=
  modify_tcb Tcb.taskStatus f

theorem modify_next (f : Tcb → Tcb) :
    (s.modify a f).next = Function.update s.next a (some (f (s.tcb a)).next) :=
  modify_tcb (fun t => some t.next) f

theorem modify_keeps (hf : (f (s.tcb a)).core = (s.tcb a).core) : Keeps s (s.modify a f) := by
  refine ⟨?_, rfl, rfl⟩
  intro b
  by_cases hb : b = a
  · subst hb
    rw [modify_self, hf]
  · rw [modify_of_ne hb]

theorem modify_next_of (hf : (f (s.tcb a)).next = (s.tcb a).next) :
    (s.modify a f).next = s.next := by
  rw [modify_next, hf]
  exact Function.update_eq_self a s.next

theorem modify_status_of (hf : (f (s.tcb a)).taskStatus = (s.tcb a).taskStatus) :
    (s.modify a f).status = s.status := by
  rw [modify_status, hf]
  exact Function.update_eq_self a s.status

theorem status_congr (h : t.tcb = s.tcb) : t.status = s.status := by
  funext a
  rw [status, h, status]

theorem next_congr (h : t.tcb = s.tcb) : t.next = s.next := by
  funext a
  rw [next, h, next]

theorem switchTo_keeps (s : Threads) (a b : UInt32) : Keeps s (s.switchTo a b) :=
  ⟨(modify_keeps (s := s) (a := a) (f := fun t => { t with context := s.cpu }) rfl).core, rfl, rfl⟩

theorem switchTo_status (s : Threads) (a b : UInt32) : (s.switchTo a b).status = s.status :=
  modify_status_of (f := fun t => { t with context := s.cpu }) rfl

theorem switchTo_next (s : Threads) (a b : UInt32) : (s.switchTo a b).next = s.next :=
  modify_next_of (f := fun t => { t with context := s.cpu }) rfl

@[simp] theorem switchTo_curTcb (a b : UInt32) : (s.switchTo a b).curTcb = s.curTcb := rfl

@[simp] theorem switchTo_cr3 (a b : UInt32) : (s.switchTo a b).cr3 = s.cr3 := rfl

@[simp] theorem switchTo_esp0 (a b : UInt32) : (s.switchTo a b).esp0 = s.esp0 := rfl

/-- What `active_task` loads. -/
theorem activeTask_cases (h : s.activeTask a = some t) :
    ((s.tcb a).isKernThread = true ∧ t = { s with cr3 := s.kernDirTablePaddr }) ∨
      ((s.tcb a).isKernThread = false ∧ ∃ p, vmmV2p s.mem s.cr3 (s.tcb a).pdtVaddr = some p ∧
        p ≠ v2pError ∧ t = { s with cr3 := p, esp0 := a + (s.tcb a).pageCounte * pageSize }) := by
  cases hk : (s.tcb a).isKernThread with
  | true =>
      rw [activeTask, if_pos hk, Option.some.injEq] at h
      exact Or.inl ⟨rfl, h.symm⟩
  | false =>
      rw [activeTask, if_neg (by simp [hk])] at h
      obtain ⟨p, hp, h⟩ := Option.bind_eq_some_iff.mp h
      by_cases he : p = v2pError
      · rw [if_pos he] at h
        cases h
      · rw [if_neg he, Option.some.injEq] at h
        exact Or.inr ⟨rfl, p, hp, he, h.symm⟩

/-! ### Representation -/

/-- The control blocks are a round robin: the ring of the `next` pointers is its ring, and
`task_status` its status.  The stacks have not overflowed. -/
structure Round (s : Threads) (A : Sched UInt32) : Prop where
  cur : s.curTcb = A.cur
  ring : IsRing s.next A.cur A.rest
  status : s.status = A.status
  magic : ∀ a ∈ A.threads, (s.tcb a).tcbMagicNumber = tcbMagic
  nonNull : 0 ∉ A.threads

theorem Round.length_lt (h : Round s A) : A.rest.length < listBound := by
  have hlen := Words.length_le_of_nodup h.ring.nodup
  rw [List.length_cons] at hlen
  exact hlen

/-- The same ring, entered at any thread, with other statuses. -/
theorem Round.move (h : Round s A) (hk : Keeps s t) (hn : t.next = s.next)
    (hc : t.curTcb = B.cur) (hs : t.status = B.status) (hring : IsRing s.next B.cur B.rest)
    (hmem : ∀ a, a ∈ B.threads ↔ a ∈ A.threads) : Round t B := by
  refine ⟨hc, hn ▸ hring, hs, ?_, fun h0 => h.nonNull ((hmem 0).mp h0)⟩
  intro a ha
  exact (hk.tcbMagicNumber a).trans (h.magic a ((hmem a).mp ha))

/-- The same ring and the same current thread. -/
theorem Round.restatus (h : Round s A) (hk : Keeps s t) (hn : t.next = s.next)
    (hc : t.curTcb = s.curTcb) {st : UInt32 → TaskStatus} (hs : t.status = st) :
    Round t { A with status := st } :=
  h.move hk hn (hc.trans h.cur) hs h.ring fun _ => Iff.rfl

/-! ### `schedule` -/

/-- `schedule` passes the tests before its search. -/
theorem Round.guards (h : Round s A) : s.getRunningProgress ≠ 0 ∧
    ¬ s.checkKernStackOverflow s.getRunningProgress = false := by
  have hcur : s.getRunningProgress ∈ A.threads := by
    rw [getRunningProgress, h.cur]
    exact List.mem_cons_self
  refine ⟨fun e => h.nonNull (e ▸ hcur), ?_⟩
  simp [checkKernStackOverflow, h.magic _ hcur]

/-- The probe passes threads that are not ready. -/
theorem Round.probeStops_eq_false (h : Round s A) (ha : a ∈ A.rest)
    (hno : A.status a ≠ .ready) : s.probeStops a = false := by
  have hne : a ≠ s.curTcb := fun e => h.ring.notMem (h.cur ▸ e ▸ ha)
  have hst : (s.tcb a).taskStatus ≠ .ready := fun e => hno ((congrFun h.status a).symm.trans e)
  simp [probeStops, hne, hst]

/-- The state in which `schedule` calls `active_task`. -/
def elect (s : Threads) (b : UInt32) : Threads :=
  let s' :=
    if (s.tcb s.curTcb).taskStatus = .running then
      s.modify s.curTcb fun t => { t with taskStatus := .ready }
    else s
  { s'.modify b fun t => { t with taskStatus := .running, timeLeft := timeCont } with curTcb := b }

theorem Round.schedule_of_none (h : Round s A)
    (hno : ∀ b ∈ A.rest, A.status b ≠ .ready) :
    s.schedule = some
      (if A.status A.cur = .ready ∨ A.status A.cur = .running then
        (.returned, s.modify s.curTcb fun t => { t with timeLeft := timeCont })
      else (.selfWoken, s.modify s.curTcb fun t =>
        { t with timeLeft := timeCont, taskStatus := .running })) := by
  obtain ⟨h0, hov⟩ := h.guards
  have hseek : seek s.next s.probeStops listBound (s.tcb s.curTcb).next = some s.curTcb := by
    rw [h.cur]
    exact h.ring.seek_none rfl (fun c hc => h.probeStops_eq_false hc (hno c hc))
      (by simp [probeStops, h.cur]) h.length_lt
  have hst : (s.tcb s.curTcb).taskStatus = A.status A.cur := by
    rw [← h.status, ← h.cur]
    rfl
  simp only [schedule, if_neg h0, if_neg hov, hseek, Option.bind_eq_bind, Option.bind_some, if_true,
    hst]
  by_cases hr : A.status A.cur = .ready ∨ A.status A.cur = .running
  · rw [if_neg (fun hn => hr.elim hn.1 hn.2), if_pos hr]
  · rw [if_pos (not_or.mp hr), if_neg hr]

theorem Round.schedule_of_split (h : Round s A) (e : A.rest = l₁ ++ b :: l₂)
    (hno : ∀ c ∈ l₁, A.status c ≠ .ready) (hb : A.status b = .ready) :
    s.schedule = ((s.elect b).activeTask b).map fun t => (.switched, t.switchTo s.curTcb b) := by
  obtain ⟨h0, hov⟩ := h.guards
  have hbr : b ∈ A.rest := by simp [e]
  have hbc : b ≠ s.curTcb := fun e => h.ring.notMem (h.cur ▸ e ▸ hbr)
  have hseek : seek s.next s.probeStops listBound (s.tcb s.curTcb).next = some b := by
    have hlen := h.length_lt
    rw [e, List.length_append] at hlen
    have hst : (s.tcb b).taskStatus = .ready := (congrFun h.status b).trans hb
    have hring : IsRing s.next A.cur (l₁ ++ b :: l₂) := e ▸ h.ring
    rw [h.cur]
    exact hring.seek_next rfl
      (fun c hc => h.probeStops_eq_false (e ▸ List.mem_append_left _ hc) (hno c hc))
      (by simp [probeStops, hst]) (by omega)
  simp only [schedule, if_neg h0, if_neg hov, hseek, Option.bind_eq_bind, Option.bind_some,
    if_neg hbc]
  rw [elect]
  split_ifs
  · cases activeTask _ _ <;> rfl
  · cases activeTask _ _ <;> rfl

theorem elect_status (s : Threads) (b : UInt32) : (s.elect b).status =
    Function.update (if s.status s.curTcb = .running then
      Function.update s.status s.curTcb .ready else s.status) b .running := by
  have e : (s.elect b).status = Function.update (if (s.tcb s.curTcb).taskStatus = .running then
      s.modify s.curTcb fun t => { t with taskStatus := .ready } else s).status b .running :=
    modify_status fun t => { t with taskStatus := .running, timeLeft := timeCont }
  rw [e, apply_ite Threads.status, modify_status, status]

theorem elect_next (s : Threads) (b : UInt32) : (s.elect b).next = s.next := by
  have e : (s.elect b).next = (if (s.tcb s.curTcb).taskStatus = .running then
      s.modify s.curTcb fun t => { t with taskStatus := .ready } else s).next :=
    modify_next_of (f := fun t => { t with taskStatus := .running, timeLeft := timeCont }) rfl
  rw [e, apply_ite Threads.next,
    modify_next_of (f := fun t => { t with taskStatus := .ready }) rfl, ite_self]

theorem elect_keeps (s : Threads) (b : UInt32) : Keeps s (s.elect b) := by
  have h₁ : Keeps s (if (s.tcb s.curTcb).taskStatus = .running then
      s.modify s.curTcb fun t => { t with taskStatus := .ready } else s) := by
    split_ifs
    · exact modify_keeps rfl
    · exact Keeps.refl s
  have h₂ := h₁.trans (modify_keeps (a := b)
    (f := fun t => { t with taskStatus := .running, timeLeft := timeCont }) rfl)
  exact ⟨h₂.core, h₂.mem, h₂.kernDir⟩

theorem elect_loaded (s : Threads) (b : UInt32) :
    (s.elect b).cr3 = s.cr3 ∧ (s.elect b).esp0 = s.esp0 := by
  rw [elect]
  split_ifs <;> exact ⟨rfl, rfl⟩

/-- The address space of thread `a` is loaded: `cr3` is the kernel's directory or the one of the
user task, whose kernel stack is then in the task state segment. -/
def Loads (s : Threads) (a : UInt32) (t : Threads) : Prop :=
  ((s.tcb a).isKernThread = true ∧ t.cr3 = s.kernDirTablePaddr ∧ t.esp0 = s.esp0) ∨
    ((s.tcb a).isKernThread = false ∧ ∃ p, vmmV2p s.mem s.cr3 (s.tcb a).pdtVaddr = some p ∧
      p ≠ v2pError ∧ t.cr3 = p ∧ t.esp0 = a + (s.tcb a).pageCounte * pageSize)

/-- `active_task` changes nothing but `cr3` and `esp0`. -/
theorem activeTask_keeps (h : s.activeTask a = some t) :
    t.tcb = s.tcb ∧ t.curTcb = s.curTcb ∧ Keeps s t ∧ Loads s a t := by
  rcases activeTask_cases h with ⟨hk, rfl⟩ | ⟨hk, p, hp, he, rfl⟩
  · exact ⟨rfl, rfl, ⟨fun _ => rfl, rfl, rfl⟩, Or.inl ⟨hk, rfl, rfl⟩⟩
  · exact ⟨rfl, rfl, ⟨fun _ => rfl, rfl, rfl⟩, Or.inr ⟨hk, p, hp, he, rfl, rfl⟩⟩

/-- What is loaded only depends on what the control blocks keep. -/
theorem Loads.of_keeps (h : Loads t a u) (hk : Keeps s t) (hc : t.cr3 = s.cr3)
    (he : t.esp0 = s.esp0) : Loads s a u := by
  simpa only [Loads, hk.isKernThread, hk.pdtVaddr, hk.pageCounte, hc, he, hk.mem, hk.kernDir] using h

theorem Round.switch (h : Round s A) (e : A.rest = l₁ ++ b :: l₂)
    (ht : (s.elect b).activeTask b = some t) :
    Round (t.switchTo s.curTcb b) (A.switch l₁ b l₂) ∧
      Keeps s (t.switchTo s.curTcb b) ∧ Loads s b (t.switchTo s.curTcb b) := by
  obtain ⟨htcb, hcur, hk, hl⟩ := activeTask_keeps ht
  have helect := s.elect_keeps b
  have hk' := (helect.trans hk).trans (t.switchTo_keeps s.curTcb b)
  have hnext : (t.switchTo s.curTcb b).next = s.next := by
    rw [switchTo_next, next_congr htcb, elect_next]
  have hstatus : (t.switchTo s.curTcb b).status = (A.switch l₁ b l₂).status := by
    rw [switchTo_status, status_congr htcb, elect_status, h.status, h.cur]
    rfl
  refine ⟨h.move hk' hnext hcur hstatus (IsRing.rotate (e ▸ h.ring)) ?_, hk', ?_⟩
  · intro a
    simp only [Sched.threads, Sched.switch, e, List.mem_cons, List.mem_append]
    tauto
  · obtain ⟨hcr3, hesp0⟩ := s.elect_loaded b
    exact Loads.of_keeps hl helect hcr3 hesp0

/-- `schedule` refines the step of the round robin, and loads the address space of the thread it
switches to. -/
theorem Round.schedule_spec {switch : Switch} (h : Round s A)
    (hs : s.schedule = some (switch, t)) :
    switch = A.schedule.1 ∧ Round t A.schedule.2 ∧ Keeps s t ∧
      (switch ≠ .switched → t.curTcb = s.curTcb ∧ t.cr3 = s.cr3 ∧ t.esp0 = s.esp0) ∧
      (switch = .switched → Loads s t.curTcb t) := by
  rcases A.ready_cases with hno | ⟨l₁, b, l₂, e, hno, hb⟩
  · rw [h.schedule_of_none hno, Option.some.injEq] at hs
    rw [Sched.schedule_of_none hno]
    split_ifs at hs ⊢ with hr
    · obtain ⟨rfl, rfl⟩ := Prod.mk.inj hs
      have hst : (s.modify s.curTcb fun t => { t with timeLeft := timeCont }).status = A.status :=
        (modify_status_of rfl).trans h.status
      exact ⟨rfl, h.restatus (modify_keeps rfl) (modify_next_of rfl) rfl hst, modify_keeps rfl,
        fun _ => ⟨rfl, rfl, rfl⟩, nofun⟩
    · obtain ⟨rfl, rfl⟩ := Prod.mk.inj hs
      have hst : (s.modify s.curTcb fun t =>
          { t with timeLeft := timeCont, taskStatus := .running }).status =
          Function.update A.status A.cur .running := by rw [modify_status, h.status, h.cur]
      exact ⟨rfl, h.restatus (modify_keeps rfl) (modify_next_of rfl) rfl hst, modify_keeps rfl,
        fun _ => ⟨rfl, rfl, rfl⟩, nofun⟩
  · rw [h.schedule_of_split e hno hb] at hs
    rw [Sched.schedule_of_split e hno hb]
    obtain ⟨u, hu, hs⟩ := Option.map_eq_some_iff.mp hs
    obtain ⟨rfl, rfl⟩ := Prod.mk.inj hs
    obtain ⟨hrep, hk, hl⟩ := h.switch e hu
    refine ⟨rfl, hrep, hk, fun hne => absurd rfl hne, ?_⟩
    intro _
    rw [hrep.cur]
    exact hl

/-- `schedule` is defined when every address space can be loaded. -/
theorem Round.schedule_defined (h : Round s A)
    (hload : ∀ b ∈ A.rest, (s.tcb b).isKernThread = true ∨
      ∃ p, vmmV2p s.mem s.cr3 (s.tcb b).pdtVaddr = some p ∧ p ≠ v2pError) :
    ∃ r, s.schedule = some r := by
  rcases A.ready_cases with hno | ⟨l₁, b, l₂, e, hno, hb⟩
  · exact ⟨_, h.schedule_of_none hno⟩
  · have hk := s.elect_keeps b
    have hdef : ∃ t, (s.elect b).activeTask b = some t := by
      rcases hload b (by simp [e]) with hkern | ⟨p, hp, hne⟩
      · rw [activeTask, if_pos ((hk.isKernThread b).trans hkern)]
        exact ⟨_, rfl⟩
      · rw [activeTask]
        split_ifs
        · exact ⟨_, rfl⟩
        · rw [hk.pdtVaddr, (s.elect_loaded b).1, hk.mem, hp, Option.bind_eq_bind,
            Option.bind_some, if_neg hne]
          exact ⟨_, rfl⟩
    obtain ⟨t, ht⟩ := hdef
    rw [h.schedule_of_split e hno hb, ht]
    exact ⟨_, rfl⟩

/-! ### The main thread -/

/-- The control blocks represent a round robin: the ring of the `next` pointers is its ring, and
`task_status` its status.  The stacks have not overflowed, and the main thread, which has number
0, is in the ring. -/
structure Represents (main : UInt32) (s : Threads) (A : Sched UInt32) : Prop where
  cur : s.curTcb = A.cur
  ring : IsRing s.next A.cur A.rest
  status : s.status = A.status
  magic : ∀ a ∈ A.threads, (s.tcb a).tcbMagicNumber = tcbMagic
  nonNull : 0 ∉ A.threads
  hasMain : main ∈ A.threads
  tid : (s.tcb main).tid = 0

theorem Represents.round (h : Represents main s A) : Round s A :=
  ⟨h.cur, h.ring, h.status, h.magic, h.nonNull⟩

/-- The main thread stays in the ring, with the number 0. -/
theorem Represents.of_round (h : Represents main s A) (hr : Round t B) (hk : Keeps s t)
    (hmem : ∀ a, a ∈ B.threads ↔ a ∈ A.threads) : Represents main t B :=
  ⟨hr.cur, hr.ring, hr.status, hr.magic, hr.nonNull, (hmem main).mpr h.hasMain,
    (hk.tid main).trans h.tid⟩

theorem Represents.move (h : Represents main s A) (hk : Keeps s t) (hn : t.next = s.next)
    (hc : t.curTcb = B.cur) (hs : t.status = B.status) (hring : IsRing s.next B.cur B.rest)
    (hmem : ∀ a, a ∈ B.threads ↔ a ∈ A.threads) : Represents main t B :=
  h.of_round (h.round.move hk hn hc hs hring hmem) hk hmem

theorem Represents.restatus (h : Represents main s A) (hk : Keeps s t) (hn : t.next = s.next)
    (hc : t.curTcb = s.curTcb) {st : UInt32 → TaskStatus} (hs : t.status = st) :
    Represents main t { A with status := st } :=
  h.move hk hn (hc.trans h.cur) hs h.ring fun _ => Iff.rfl

/-- `schedule` refines the step of the round robin and leaves the main thread in the ring. -/
theorem Represents.schedule_spec {switch : Switch} (h : Represents main s A)
    (hs : s.schedule = some (switch, t)) :
    switch = A.schedule.1 ∧ Represents main t A.schedule.2 ∧ Keeps s t ∧
      (switch ≠ .switched → t.curTcb = s.curTcb ∧ t.cr3 = s.cr3 ∧ t.esp0 = s.esp0) ∧
      (switch = .switched → Loads s t.curTcb t) := by
  obtain ⟨hsw, hr, hk, hrest⟩ := h.round.schedule_spec hs
  exact ⟨hsw, h.of_round hr hk fun _ => Sched.mem_schedule, hk, hrest⟩

/-! ### The interrupt flag -/

theorem cliCondition_eq (s : Threads) : ∃ c, s.cliCondition = (s.getIntFlag, { s with cpu := c }) := by
  rw [cliCondition]
  cases s.getIntFlag with
  | true => exact ⟨_, rfl⟩
  | false => exact ⟨s.cpu, rfl⟩

theorem stiCondition_eq (s : Threads) (condition : Bool) :
    ∃ c, s.stiCondition condition = { s with cpu := c } := by
  cases condition with
  | true => exact ⟨_, rfl⟩
  | false => exact ⟨_, rfl⟩

theorem Represents.with_cpu (h : Represents main s A) (c : Context) :
    Represents main { s with cpu := c } A :=
  ⟨h.cur, h.ring, h.status, h.magic, h.nonNull, h.hasMain, h.tid⟩

theorem Keeps.with_cpu (h : Keeps s t) (c : Context) : Keeps s { t with cpu := c } :=
  ⟨h.core, h.mem, h.kernDir⟩

/-! ### The other functions -/

theorem Represents.setStatus (h : Represents main s A) (a : UInt32) (st : TaskStatus)
    (hf : ∀ t, (f t).core = t.core ∧ (f t).next = t.next ∧ (f t).taskStatus = st) :
    Represents main (s.modify a f) (A.setStatus a st) ∧ Keeps s (s.modify a f) := by
  obtain ⟨hcore, hnext, hst⟩ := hf (s.tcb a)
  refine ⟨h.restatus (modify_keeps hcore) (modify_next_of hnext) rfl ?_, modify_keeps hcore⟩
  rw [modify_status, hst, h.status]

/-- The state in which `thread_block` calls `schedule`. -/
def blocking (s : Threads) : Threads :=
  s.cliCondition.2.modify s.curTcb fun t => { t with taskStatus := .blocked }

theorem threadBlock_eq (s : Threads) : s.threadBlock = s.blocking.schedule.map fun r =>
    (r.1, s.getIntFlag, if r.1 = .switched then r.2 else r.2.stiCondition s.getIntFlag) := by
  obtain ⟨c, hc⟩ := s.cliCondition_eq
  simp only [threadBlock, blocking, hc, getRunningProgress]
  cases schedule _ <;> rfl

/-- Blocking the current thread. -/
theorem Represents.blocking (h : Represents main s A) :
    Represents main s.blocking (A.setStatus A.cur .blocked) ∧ Keeps s s.blocking ∧
      s.blocking.curTcb = s.curTcb ∧ s.blocking.cr3 = s.cr3 ∧ s.blocking.esp0 = s.esp0 := by
  obtain ⟨c, hc⟩ := s.cliCondition_eq
  obtain ⟨hrep, hkeeps⟩ := (h.with_cpu c).setStatus s.curTcb .blocked
    (f := fun t => { t with taskStatus := .blocked }) fun t => ⟨rfl, rfl, rfl⟩
  rw [Threads.blocking, hc, ← h.cur]
  exact ⟨hrep, ((Keeps.refl s).with_cpu c).trans hkeeps, rfl, rfl, rfl⟩

/-- `thread_block` refines the step of the round robin. -/
theorem Represents.threadBlock_spec {switch : Switch} {condition : Bool}
    (h : Represents main s A) (hs : s.threadBlock = some (switch, condition, t)) :
    switch = A.threadBlock.1 ∧ Represents main t A.threadBlock.2 ∧ Keeps s t ∧
      (switch ≠ .switched → t.curTcb = s.curTcb ∧ t.cr3 = s.cr3 ∧ t.esp0 = s.esp0) ∧
      (switch = .switched → Loads s t.curTcb t) := by
  obtain ⟨hrep, hk, hcur, hcr3, hesp0⟩ := h.blocking
  rw [threadBlock_eq] at hs
  obtain ⟨⟨o, u⟩, hu, hs⟩ := Option.map_eq_some_iff.mp hs
  simp only [Prod.mk.injEq] at hs
  obtain ⟨rfl, -, rfl⟩ := hs
  obtain ⟨ho, hrep', hk', hstay, hload⟩ := hrep.schedule_spec hu
  have hkeeps := hk.trans hk'
  by_cases hsw : o = .switched
  · rw [if_pos hsw]
    exact ⟨ho, hrep', hkeeps, fun hne => absurd hsw hne, fun _ =>
      (hload hsw).of_keeps hk hcr3 hesp0⟩
  · rw [if_neg hsw]
    obtain ⟨c, hc⟩ := u.stiCondition_eq s.getIntFlag
    obtain ⟨hcur', hcr3', hesp0'⟩ := hstay hsw
    rw [hc]
    exact ⟨ho, hrep'.with_cpu c, hkeeps.with_cpu c, fun _ => ⟨hcur'.trans hcur,
      hcr3'.trans hcr3, hesp0'.trans hesp0⟩, fun hsw' => absurd hsw' hsw⟩

/-- `thread_wakeup` gives a thread the status ready. -/
theorem Represents.threadWakeup_spec (h : Represents main s A) (a : UInt32) :
    Represents main (s.threadWakeup a) (A.setStatus a .ready) ∧ Keeps s (s.threadWakeup a) ∧
      (s.threadWakeup a).curTcb = s.curTcb ∧ (s.threadWakeup a).cr3 = s.cr3 ∧
      (s.threadWakeup a).esp0 = s.esp0 := by
  obtain ⟨c, hc⟩ := s.cliCondition_eq
  obtain ⟨hrep, hkeeps⟩ := (h.with_cpu c).setStatus a .ready
    (f := fun t => { t with taskStatus := .ready }) fun t => ⟨rfl, rfl, rfl⟩
  simp only [threadWakeup, hc]
  obtain ⟨c', hc'⟩ := (({ s with cpu := c } : Threads).modify a fun t =>
    { t with taskStatus := .ready }).stiCondition_eq s.getIntFlag
  rw [hc']
  exact ⟨hrep.with_cpu c', (((Keeps.refl s).with_cpu c).trans hkeeps).with_cpu c', rfl, rfl, rfl⟩

/-! ### Creation -/

section createThread

variable {tid addr pageCounte pdtVaddr : UInt32} {isKernThread : Bool} {userVmmPool : Bitmap}

/-- The control block that `create_thread` sets up. -/
def newTcb (s : Threads) (tid addr pageCounte : UInt32) (isKernThread : Bool)
    (userVmmPool : Bitmap) (pdtVaddr : UInt32) : Tcb :=
  let top := addr + pageCounte * pageSize - 4 - 4 - 4
  { s.tcb addr with
    tid := tid
    timeCounter := 0
    timeLeft := timeCont
    taskStatus := .ready
    pageCounte := pageCounte
    pageAddr := addr
    next := (s.tcb s.curTcb).next
    kernStackTop := top
    isKernThread := isKernThread
    userVmmPool := if isKernThread then (s.tcb addr).userVmmPool else userVmmPool
    pdtVaddr := if isKernThread then (s.tcb addr).pdtVaddr else pdtVaddr
    context := { (s.tcb addr).context with eflags := 0x202, esp := top }
    tcbMagicNumber := tcbMagic }

/-- The state with a control block put behind the current one. -/
def insertTcb (s : Threads) (addr : UInt32) (new : Tcb) : Threads :=
  (s.modify s.curTcb fun t => { t with next := addr }).modify addr fun _ => new

variable (tid pageCounte pdtVaddr isKernThread userVmmPool) in
theorem createThread_eq (hne : addr ≠ s.curTcb) :
    ∃ c, s.createThread tid addr pageCounte isKernThread userVmmPool pdtVaddr =
      { s.insertTcb addr (s.newTcb tid addr pageCounte isKernThread userVmmPool pdtVaddr) with
        cpu := c } := by
  refine ⟨{ s.cpu with eflags := (s.cpu.eflags &&& 0xFFFFFDFF) ||| 0x200 }, ?_⟩
  cases isKernThread <;>
  · simp only [createThread, createTCB, insertTcb, modify, cli, sti, newTcb, Bool.false_eq_true,
      if_false, if_true, Threads.mk.injEq, and_true]
    funext b
    by_cases hb : b = addr
    · subst hb
      simp only [Function.update_self, Function.update_of_ne hne, Function.update_of_ne hne.symm]
    · by_cases hc : b = s.curTcb
      · subst hc
        simp only [Function.update_self, Function.update_of_ne hb]
      · simp only [Function.update_of_ne hb, Function.update_of_ne hc]

theorem insertTcb_core {new : Tcb} (hab : a ≠ b) : ((s.insertTcb b new).tcb a).core = (s.tcb a).core := by
  rw [insertTcb, modify_of_ne hab]
  exact (modify_keeps rfl).core a

/-- Putting the control block of a new thread behind the current one. -/
theorem Represents.insertTcb (h : Represents main s A) (new : Tcb) (hfresh : addr ∉ A.threads)
    (h0 : addr ≠ 0) (hnext : new.next = (s.tcb s.curTcb).next)
    (hstatus : new.taskStatus = .ready) (hmagic : new.tcbMagicNumber = tcbMagic) :
    Represents main (s.insertTcb addr new) (A.createThread addr) := by
  have hthreads : ∀ a ∈ (A.createThread addr).threads, a ≠ addr → a ∈ A.threads :=
    fun a ha hne => (Sched.mem_createThread.mp ha).resolve_left hne
  have hself : (s.insertTcb addr new).tcb addr = new := Function.update_self addr _ _
  have hmain : main ≠ addr := fun e => hfresh (e ▸ h.hasMain)
  refine ⟨h.cur, ?_, ?_, ?_, ?_, ?_, ?_⟩
  · have hring := h.ring.insert hfresh
    rw [Threads.insertTcb, modify_next, modify_next, hnext]
    rw [h.cur]
    exact hring
  · rw [Threads.insertTcb, modify_status, modify_status_of rfl, h.status, hstatus]
    rfl
  · intro a ha
    by_cases hadr : a = addr
    · rw [hadr, hself, hmagic]
    · exact (congrArg (fun c => c.2.2.2.2.2.2) (insertTcb_core hadr)).trans
        (h.magic a (hthreads a ha hadr))
  · intro h0'
    exact h.nonNull (hthreads 0 h0' h0.symm)
  · exact Sched.mem_createThread.mpr (Or.inr h.hasMain)
  · exact (congrArg Prod.fst (insertTcb_core hmain)).trans h.tid

variable (tid pageCounte pdtVaddr isKernThread userVmmPool) in
/-- `create_thread` refines the step of the round robin. -/
theorem Represents.createThread_spec (h : Represents main s A) (hfresh : addr ∉ A.threads)
    (h0 : addr ≠ 0) :
    ∃ t, s.createThread tid addr pageCounte isKernThread userVmmPool pdtVaddr = t ∧
      Represents main t (A.createThread addr) ∧
      t.tcb addr = s.newTcb tid addr pageCounte isKernThread userVmmPool pdtVaddr ∧
      (∀ a ≠ addr, (t.tcb a).core = (s.tcb a).core) ∧ t.mem = s.mem ∧
      t.kernDirTablePaddr = s.kernDirTablePaddr ∧ t.cr3 = s.cr3 ∧ t.esp0 = s.esp0 := by
  have hne : addr ≠ s.curTcb := fun e => hfresh (by
    rw [e, h.cur]
    exact List.mem_cons_self)
  obtain ⟨c, hc⟩ := s.createThread_eq tid pageCounte pdtVaddr isKernThread userVmmPool hne
  have hrep := h.insertTcb (s.newTcb tid addr pageCounte isKernThread userVmmPool pdtVaddr)
    hfresh h0 rfl rfl rfl
  rw [hc]
  exact ⟨_, rfl, hrep.with_cpu c, Function.update_self addr _ _, fun a ha => insertTcb_core ha, rfl,
    rfl, rfl, rfl⟩

end createThread

/-! ### Exit -/

/-- `remove_thread` unlinks the current control block unless its thread has number 0. -/
theorem Represents.removeThread_eq (h : Represents main s A) :
    ∃ t, s.removeThread = some t ∧ Keeps s t ∧ t.status = s.status ∧ t.curTcb = s.curTcb ∧
      t.cr3 = s.cr3 ∧ t.esp0 = s.esp0 ∧ (t.tcb s.curTcb).next = (s.tcb s.curTcb).next ∧
      ((s.tcb s.curTcb).tid = 0 ∧ t.next = s.next ∨ (s.tcb s.curTcb).tid ≠ 0 ∧
        ∃ c ∈ A.threads, s.next c = some A.cur ∧
          t.next = Function.update s.next c (s.next A.cur)) := by
  by_cases htid : (s.tcb s.curTcb).tid = 0
  · have h0 : (s.cli.tcb s.cli.curTcb).tid = 0 := htid
    refine ⟨s.cli, ?_, (Keeps.refl s).with_cpu _, rfl, rfl, rfl, rfl, rfl, Or.inl ⟨htid, rfl⟩⟩
    rw [removeThread, if_pos h0]
  · have h0 : ¬ (s.cli.tcb s.cli.curTcb).tid = 0 := htid
    obtain ⟨c, hc, hn, hseek⟩ := h.ring.seek_pred (n := listBound) h.round.length_lt
      (show ∀ p, decide ((s.tcb p).next = s.curTcb) = true ↔ _ from
        fun p => by simp [next, h.cur])
    rw [← h.cur] at hseek
    refine ⟨s.cli.modify c fun t => { t with next := (s.cli.tcb s.cli.curTcb).next }, ?_,
      ((Keeps.refl s).with_cpu _).trans (modify_keeps rfl), modify_status_of rfl, rfl, rfl, rfl, ?_,
      Or.inr ⟨htid, c, hc, hn, ?_⟩⟩
    · have hseek' : seek s.cli.next (fun t => (s.cli.tcb t).next = s.cli.curTcb) listBound
          s.cli.curTcb = some c := hseek
      rw [removeThread, if_neg h0, hseek', Option.bind_eq_bind, Option.bind_some]
    · by_cases hcc : s.curTcb = c
      · subst hcc
        rw [modify_self]
        rfl
      · rw [modify_of_ne hcc]
        rfl
    · rw [modify_next, ← h.cur]
      rfl

/-- What `exit` does after `remove_thread`, when thread `b` is next. -/
def leave (s : Threads) (b : UInt32) : Threads :=
  ({ s.modify b fun t => { t with timeLeft := timeCont } with curTcb := b } : Threads).switchTo
    s.curTcb b

theorem exit_eq (h : s.removeThread = some t) (hb : (t.tcb t.curTcb).next = b) :
    s.exit = some (t.leave b) := by
  have hn : ((t.modify b fun u => { u with timeLeft := timeCont }).tcb t.curTcb).next = b :=
    (Option.some.inj (congrFun (modify_next_of rfl) t.curTcb)).trans hb
  have hcur : (t.modify b fun u => { u with timeLeft := timeCont }).curTcb = t.curTcb := rfl
  simp only [exit, h, Option.bind_eq_bind, Option.bind_some, hb, hcur, hn, leave]

theorem leave_keeps (s : Threads) (b : UInt32) : Keeps s (s.leave b) := by
  have h₁ : Keeps s (s.modify b fun t => { t with timeLeft := timeCont }) := modify_keeps rfl
  have h₂ : Keeps s { s.modify b fun t => { t with timeLeft := timeCont } with curTcb := b } :=
    ⟨h₁.core, h₁.mem, h₁.kernDir⟩
  exact h₂.trans (switchTo_keeps _ _ _)

theorem leave_status (s : Threads) (b : UInt32) : (s.leave b).status = s.status := by
  rw [leave, switchTo_status]
  exact modify_status_of (f := fun t => { t with timeLeft := timeCont }) rfl

theorem leave_next (s : Threads) (b : UInt32) : (s.leave b).next = s.next := by
  rw [leave, switchTo_next]
  exact modify_next_of (f := fun t => { t with timeLeft := timeCont }) rfl

/-- The main thread has number 0. -/
theorem Represents.cur_ne_main (h : Represents main s A) (htid : (s.tcb s.curTcb).tid ≠ 0) :
    A.cur ≠ main := by
  intro e
  rw [h.cur, e] at htid
  exact htid h.tid

/-- A thread that is taken out is not alone. -/
theorem Represents.rest_ne_nil (h : Represents main s A) (htid : (s.tcb s.curTcb).tid ≠ 0) :
    A.rest ≠ [] := by
  intro hnil
  have hmem := h.hasMain
  rw [Sched.threads, hnil, List.mem_singleton] at hmem
  exact h.cur_ne_main htid hmem.symm

/-- `exit` refines the step of the round robin; it loads no address space. -/
theorem Represents.exit_spec (h : Represents main s A) :
    ∃ t, s.exit = some t ∧
      Represents main t (A.exit (decide ((s.tcb s.curTcb).tid = 0))) ∧ Keeps s t ∧
      t.curTcb = (s.tcb s.curTcb).next ∧ t.cr3 = s.cr3 ∧ t.esp0 = s.esp0 := by
  obtain ⟨u, hu, hk, hst, hcur, hcr3, hesp0, hown, hlink⟩ := h.removeThread_eq
  obtain ⟨b, hb⟩ : ∃ b, (u.tcb u.curTcb).next = b := ⟨_, rfl⟩
  have hbn : s.next A.cur = some b := by
    rw [← h.cur, next, ← hown, ← hcur, hb]
  have hkeeps := hk.trans (u.leave_keeps b)
  have hstatus : (u.leave b).status = A.status := by rw [leave_status, hst, h.status]
  have hnext : (u.leave b).curTcb = (s.tcb s.curTcb).next := by
    rw [← hown, ← hcur, hb]
    rfl
  refine ⟨u.leave b, exit_eq hu hb, ?_, hkeeps, hnext, hcr3, hesp0⟩
  cases hrest : A.rest with
  | nil =>
      have hring := h.ring
      rw [hrest] at hring
      obtain rfl : A.cur = b := Option.some.inj (hring.next_nil.symm.trans hbn)
      have htid : (s.tcb s.curTcb).tid = 0 := by
        by_contra hne
        exact h.rest_ne_nil hne hrest
      have hn : u.next = s.next := (hlink.resolve_right fun hne => hne.1 htid).2
      rw [Sched.exit_of_nil hrest]
      exact h.move hkeeps (by rw [leave_next, hn]) rfl hstatus h.ring fun _ => Iff.rfl
  | cons d l =>
      have hring := h.ring
      rw [hrest] at hring
      obtain rfl : d = b := Option.some.inj (hring.next_eq.symm.trans hbn)
      rcases hlink with ⟨htid, hn⟩ | ⟨htid, c, hc, hcn, hn⟩
      · rw [Sched.exit_of_cons hrest, decide_eq_true htid, if_pos rfl]
        refine h.move hkeeps (by rw [leave_next, hn]) rfl hstatus ?_ fun a => ?_
        · have hsplit : IsRing s.next A.cur ([] ++ d :: l) := hring
          exact hsplit.rotate
        · simp only [Sched.threads, hrest, List.mem_cons, List.mem_append, List.mem_nil_iff, or_false]
          tauto
      · have hcd : c ∈ d :: l := by
          rw [Sched.threads, hrest] at hc
          apply (List.mem_cons.mp hc).resolve_left
          rintro rfl
          obtain rfl := Option.some.inj (hcn.symm.trans hbn)
          exact hring.notMem List.mem_cons_self
        have hsub : ∀ a ∈ d :: l, a ∈ A.threads := by
          intro a ha
          rw [Sched.threads, hrest]
          exact List.mem_cons_of_mem _ ha
        rw [Sched.exit_of_cons hrest, decide_eq_false htid, if_neg Bool.false_ne_true]
        refine ⟨rfl, ?_, hstatus, ?_, fun h0 => h.nonNull (hsub 0 h0), ?_,
          (hkeeps.tid main).trans h.tid⟩
        · rw [leave_next, hn]
          exact hring.remove hcd hcn
        · intro a ha
          exact (hkeeps.tcbMagicNumber a).trans (h.magic a (hsub a ha))
        · have hmem := h.hasMain
          rw [Sched.threads, hrest] at hmem
          exact (List.mem_cons.mp hmem).resolve_left (h.cur_ne_main htid).symm

/-! ### Initialisation -/

/-- After `threads_init` the main thread runs alone. -/
theorem represents_threadsInit (s : Threads) (h0 : main ≠ 0) :
    Represents main (s.threadsInit main)
      ⟨main, [], Function.update s.status main .running⟩ := by
  refine ⟨rfl, ⟨?_, List.nodup_singleton main⟩, ?_, fun a ha => ?_, ?_, List.mem_singleton.mpr rfl,
    by simp [threadsInit]⟩
  · simp [next, threadsInit]
  · funext a
    by_cases ha : a = main
    · subst ha
      simp [status, threadsInit]
    · simp [status, threadsInit, modify_of_ne ha, Function.update_of_ne ha]
  · obtain rfl := List.mem_singleton.mp ha
    simp [threadsInit]
  · rw [Sched.threads, List.mem_singleton]
    exact h0.symm

end Threads
end BHOS
