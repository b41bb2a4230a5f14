import BHOS.RoundRobin

/-! # The round robin is fair

When one thread runs and the others are ready or blocked, every call of `schedule` makes the
nearest ready successor current, and a round of one call for each runnable thread visits all of
them in ring order and ends where it began.  The round is followed on `Sched`: after the call
that selects `a` the state is `A.switch pre a post`, the ring entered at `a`, and the next call
goes on to the first ready thread of `post`, or back to the original thread. -/

namespace BHOS

open Linked

namespace Sched

variable {α : Type} [DecidableEq α]

/-- One thread runs; the others are ready or blocked. -/
structure OneRuns (A : Sched α) : Prop where
  cur : A.status A.cur = .running
  rest : ∀ b ∈ A.rest, A.status b = .ready ∨ A.status b = .blocked

/-- The ready ones among some threads, in their order. -/
def readyOf (A : Sched α) (l : List α) : List α := l.filter fun b => decide (A.status b = .ready)

/-- The threads that so many calls of `schedule` select, one after the other, and the state after
them. -/
def turns : ℕ → Sched α → List α × Sched α
  | 0, A => ([], A)
  | n + 1, A =>
      let B := A.schedule.2
      let (l, C) := turns n B
      (B.cur :: l, C)

variable {A : Sched α} {a b : α} {pre post l₁ l₂ : List α}

theorem turns_succ (n : ℕ) (A : Sched α) :
    turns (n + 1) A = (A.schedule.2.cur :: (turns n A.schedule.2).1, (turns n A.schedule.2).2) := rfl

omit [DecidableEq α] in
/-- Either no thread of the list is ready, or there is a first ready one. -/
theorem ready_split (A : Sched α) (post : List α) : (∀ b ∈ post, A.status b ≠ .ready) ∨
    ∃ l₁ b l₂, post = l₁ ++ b :: l₂ ∧ (∀ c ∈ l₁, A.status c ≠ .ready) ∧ A.status b = .ready :=
  ready_cases ⟨A.cur, post, A.status⟩

omit [DecidableEq α] in
theorem readyOf_of_none (hno : ∀ b ∈ post, A.status b ≠ .ready) : A.readyOf post = [] := by
  unfold readyOf
  rw [List.filter_eq_nil_iff]
  intro b hb
  simpa using hno b hb

omit [DecidableEq α] in
theorem readyOf_of_split (hno : ∀ c ∈ l₁, A.status c ≠ .ready) (hb : A.status b = .ready) :
    A.readyOf (l₁ ++ b :: l₂) = b :: A.readyOf l₂ := by
  have h₁ := readyOf_of_none hno
  unfold readyOf at h₁ ⊢
  rw [List.filter_append, h₁, List.nil_append, List.filter_cons_of_pos (by simp [hb])]

/-! ### One call inside a round -/

/-- The state after a switch, when the current thread was running. -/
theorem switch_eq (h : A.status A.cur = .running) (pre : List α) (a : α) (post : List α) :
    A.switch pre a post =
      ⟨a, post ++ A.cur :: pre, Function.update (Function.update A.status A.cur .ready) a .running⟩ := by
  rw [switch, if_pos h]

/-- Selecting `a` and taking it off again leaves the statuses as they were. -/
theorem update_ready (ha : A.status a = .ready) (hne : a ≠ A.cur) :
    Function.update (Function.update (Function.update A.status A.cur .ready) a .running) a .ready =
      Function.update A.status A.cur .ready := by
  rw [Function.update_idem, Function.update_eq_self_iff, Function.update_of_ne hne, ha]

/-- Going on to a later thread, as if it had been selected at once. -/
theorem switch_switch (h : A.OneRuns) (ha : A.status a = .ready) (hne : a ≠ A.cur) :
    (A.switch pre a (l₁ ++ b :: l₂)).switch l₁ b (l₂ ++ A.cur :: pre) =
      A.switch (pre ++ a :: l₁) b l₂ := by
  have hrun : (A.switch pre a (l₁ ++ b :: l₂)).status (A.switch pre a (l₁ ++ b :: l₂)).cur =
      .running := switch_status_self _ _
  rw [switch_eq hrun, switch_eq h.cur, switch_eq h.cur]
  simp only [update_ready ha hne, List.append_assoc, List.cons_append]

/-- Going back to the original thread restores the state. -/
theorem switch_back (h : A.OneRuns) (e : A.rest = pre ++ a :: post) (ha : A.status a = .ready)
    (hne : a ≠ A.cur) : (A.switch pre a post).switch post A.cur pre = A := by
  have hrun : (A.switch pre a post).status (A.switch pre a post).cur = .running :=
    switch_status_self _ _
  have hst : Function.update (Function.update A.status A.cur .ready) A.cur .running = A.status := by
    rw [Function.update_idem, ← h.cur, Function.update_eq_self]
  rw [switch_eq hrun, switch_eq h.cur]
  simp only [update_ready ha hne, hst, ← e]

omit [DecidableEq α] in
/-- A thread of the rest is not the current one. -/
theorem ne_cur_of_split (hnd : A.threads.Nodup) (e : A.rest = pre ++ a :: post) : a ≠ A.cur := by
  rintro rfl
  rw [threads, e] at hnd
  simp at hnd

/-- A switch to `a` leaves the states of the threads behind it. -/
theorem switch_status (h : A.OneRuns) (hnd : A.threads.Nodup) (e : A.rest = pre ++ a :: post)
    {x : α} (hx : x ∈ post) : (A.switch pre a post).status x = A.status x := by
  rw [threads, e] at hnd
  have hxa : x ≠ a := by
    rintro rfl
    simp [List.nodup_append, hx] at hnd
  have hxc : x ≠ A.cur := by
    rintro rfl
    simp [hx] at hnd
  rw [switch_eq h.cur]
  simp only [Function.update_of_ne hxa, Function.update_of_ne hxc]

/-- From the call that selects `a` on, the round goes through the ready threads behind `a` and
ends with the original thread. -/
theorem turns_switch (h : A.OneRuns) (hnd : A.threads.Nodup) (e : A.rest = pre ++ a :: post)
    (ha : A.status a = .ready) :
    turns ((A.readyOf post).length + 1) (A.switch pre a post) = (A.readyOf post ++ [A.cur], A) := by
  obtain ⟨n, hn⟩ : ∃ n, (A.readyOf post).length = n := ⟨_, rfl⟩
  rw [hn]
  induction n generalizing pre a post with
  | zero =>
      have hnil : A.readyOf post = [] := List.eq_nil_of_length_eq_zero hn
      have hno : ∀ c ∈ post, (A.switch pre a post).status c ≠ .ready := by
        intro c hc hready
        rw [switch_status h hnd e hc] at hready
        have hmem : c ∈ A.readyOf post := List.mem_filter.mpr ⟨hc, decide_eq_true hready⟩
        rw [hnil] at hmem
        cases hmem
      have hcur : (A.switch pre a post).status A.cur = .ready := by
        rw [switch_eq h.cur]
        simp only [Function.update_of_ne (ne_cur_of_split hnd e).symm, Function.update_self]
      have hsched := schedule_of_split (A := A.switch pre a post) rfl hno hcur
      rw [switch_back h e ha (ne_cur_of_split hnd e)] at hsched
      rw [hnil, turns_succ, hsched]
      rfl
  | succ n ih =>
      rcases A.ready_split post with hno | ⟨l₁, b, l₂, rfl, hno, hb⟩
      · have hnil : A.readyOf post = [] := readyOf_of_none hno
        rw [hnil] at hn
        cases hn
      · rw [readyOf_of_split hno hb] at hn ⊢
        have e' : A.rest = (pre ++ a :: l₁) ++ b :: l₂ := by
          rw [e, List.append_assoc, List.cons_append]
        have hrest : (A.switch pre a (l₁ ++ b :: l₂)).rest = l₁ ++ b :: (l₂ ++ A.cur :: pre) := by
          simp [Sched.switch]
        have hno' : ∀ c ∈ l₁, (A.switch pre a (l₁ ++ b :: l₂)).status c ≠ .ready := by
          intro c hc
          rw [switch_status h hnd e (by simp [hc])]
          exact hno c hc
        have hb' : (A.switch pre a (l₁ ++ b :: l₂)).status b = .ready := by
          rw [switch_status h hnd e (by simp)]
          exact hb
        have hsched := schedule_of_split hrest hno' hb'
        rw [switch_switch h ha (ne_cur_of_split hnd e)] at hsched
        have hround := ih e' hb (by simpa using hn)
        rw [turns_succ, hsched, hround]
        rfl

/-- **A round** of one call for each runnable thread. -/
theorem turns_eq (h : A.OneRuns) (hnd : A.threads.Nodup) :
    turns ((A.readyOf A.rest).length + 1) A = (A.readyOf A.rest ++ [A.cur], A) := by
  rcases A.ready_cases with hno | ⟨l₁, b, l₂, e, hno, hb⟩
  · have hsched := schedule_of_none hno
    rw [if_pos (Or.inr h.cur)] at hsched
    rw [readyOf_of_none hno, turns_succ, hsched]
    rfl
  · have hsched := schedule_of_split e hno hb
    have hrest := turns_switch h hnd e hb
    have hready : A.readyOf A.rest = b :: A.readyOf l₂ := by
      rw [e]
      exact readyOf_of_split hno hb
    rw [hready, List.length_cons, turns_succ, hsched, hrest]
    rfl

/-- One thread still runs, and the others are ready or blocked. -/
theorem OneRuns.schedule (h : A.OneRuns) (hnd : A.threads.Nodup) : A.schedule.2.OneRuns := by
  rcases A.ready_cases with hno | ⟨l₁, b, l₂, e, hno, hb⟩
  · have hsched := schedule_of_none hno
    rw [if_pos (Or.inr h.cur)] at hsched
    rw [hsched]
    exact h
  · rw [schedule_of_split e hno hb]
    refine ⟨switch_status_self l₁ l₂, ?_⟩
    intro c hc
    rw [threads, e] at hnd
    have hcb : c ≠ b := by
      rintro rfl
      simp only [Sched.switch, List.mem_append, List.mem_cons] at hc
      simp only [List.nodup_cons, List.nodup_append, List.mem_append, List.mem_cons] at hnd
      tauto
    rw [switch_eq h.cur]
    simp only [Function.update_of_ne hcb]
    by_cases hcur : c = A.cur
    · subst hcur
      exact Or.inl (Function.update_self A.cur _ _)
    · rw [Function.update_of_ne hcur]
      apply h.rest
      simp only [Sched.switch, List.mem_append, List.mem_cons] at hc
      simp only [e, List.mem_append, List.mem_cons]
      tauto

end Sched

namespace Threads

variable {s t u : Threads} {A : Sched UInt32} {b : UInt32} {l : List UInt32} {n : ℕ}

/-- So many calls of `schedule`: the threads they select, and the state after them. -/
def turns : ℕ → Threads → Option (List UInt32 × Threads)
  | 0, s => some ([], s)
  | n + 1, s => do
      let (_, t) ← s.schedule
      let (l, u) ← turns n t
      some (t.curTcb :: l, u)

theorem turns_succ_eq_some (h : turns (n + 1) s = some (l, u)) :
    ∃ sw t l', s.schedule = some (sw, t) ∧ turns n t = some (l', u) ∧ l = t.curTcb :: l' := by
  obtain ⟨⟨sw, t⟩, ht, h⟩ := Option.bind_eq_some_iff.mp h
  obtain ⟨⟨l', v⟩, hv, h⟩ := Option.bind_eq_some_iff.mp h
  obtain ⟨rfl, rfl⟩ := Prod.mk.inj (Option.some.inj h)
  exact ⟨sw, t, l', ht, hv, rfl⟩

/-- The calls follow the round robin. -/
theorem Round.turns_spec (h : Round s A) (hs : turns n s = some (l, u)) :
    l = (Sched.turns n A).1 ∧ Round u (Sched.turns n A).2 := by
  induction n generalizing s A l with
  | zero =>
      obtain ⟨rfl, rfl⟩ := Prod.mk.inj (Option.some.inj hs)
      exact ⟨rfl, h⟩
  | succ n ih =>
      obtain ⟨sw, t, l', ht, hu, rfl⟩ := turns_succ_eq_some hs
      obtain ⟨-, hB, -⟩ := h.schedule_spec ht
      obtain ⟨hl, hround⟩ := ih hB hu
      rw [Sched.turns_succ]
      exact ⟨by rw [hB.cur, hl], hround⟩

/-- `schedule` gives the thread it selects a full time slice. -/
theorem Round.schedule_timeLeft {sw : Switch} (h : Round s A) (hs : s.schedule = some (sw, t)) :
    (t.tcb t.curTcb).timeLeft = timeCont := by
  rcases A.ready_cases with hno | ⟨l₁, b, l₂, e, hno, hb⟩
  · rw [h.schedule_of_none hno, Option.some.injEq] at hs
    split_ifs at hs
    · obtain ⟨rfl, rfl⟩ := Prod.mk.inj hs
      exact congrArg Tcb.timeLeft (modify_self _)
    · obtain ⟨rfl, rfl⟩ := Prod.mk.inj hs
      exact congrArg Tcb.timeLeft (modify_self _)
  · rw [h.schedule_of_split e hno hb] at hs
    obtain ⟨v, hv, hs⟩ := Option.map_eq_some_iff.mp hs
    obtain ⟨rfl, rfl⟩ := Prod.mk.inj hs
    obtain ⟨htcb, hcur, -, -⟩ := activeTask_keeps hv
    have hcur' : v.curTcb = b := hcur
    have hne : b ≠ s.curTcb := by
      rintro rfl
      exact h.ring.notMem (h.cur ▸ e ▸ by simp)
    have htime : ((s.elect b).tcb b).timeLeft = timeCont := by
      simp only [elect, modify, Function.update_self]
    have hswitch : (v.switchTo s.curTcb b).tcb b = v.tcb b := by
      unfold switchTo
      exact modify_of_ne hne fun t => { t with context := v.cpu }
    rw [switchTo_curTcb, hcur', hswitch, htcb, htime]

/-! ### Loading directories -/

/-- From each directory of `C` the directory of each user task among the threads can be loaded,
and it is in `C` again, as the kernel's directory is. -/
structure Loadable (C : UInt32 → Prop) (s : Threads) (l : List UInt32) : Prop where
  loaded : C s.cr3
  kern : C s.kernDirTablePaddr
  user : ∀ a ∈ l, (s.tcb a).isKernThread = false → ∀ c, C c →
    ∃ p, C p ∧ vmmV2p s.mem c (s.tcb a).pdtVaddr = some p ∧ p ≠ v2pError

theorem Loadable.defined {C : UInt32 → Prop} (hC : Loadable C s A.threads) (h : Round s A) :
    ∃ r, s.schedule = some r := by
  apply h.schedule_defined
  intro b hb
  cases hk : (s.tcb b).isKernThread with
  | true => exact Or.inl rfl
  | false =>
      obtain ⟨p, -, hp⟩ := hC.user b (List.mem_cons_of_mem A.cur hb) hk s.cr3 hC.loaded
      exact Or.inr ⟨p, hp⟩

theorem Loadable.schedule {C : UInt32 → Prop} {sw : Switch} (hC : Loadable C s A.threads)
    (h : Round s A) (hs : s.schedule = some (sw, t)) : Loadable C t A.schedule.2.threads := by
  obtain ⟨-, hB, hk, hstay, hload⟩ := h.schedule_spec hs
  refine ⟨?_, hk.kernDir ▸ hC.kern, ?_⟩
  · by_cases hsw : sw = .switched
    · rcases hload hsw with ⟨-, hcr3, -⟩ | ⟨hkern, p, hp, -, hcr3, -⟩
      · exact hcr3 ▸ hC.kern
      · have hmem : t.curTcb ∈ A.threads := by
          rw [← Sched.mem_schedule, hB.cur]
          exact List.mem_cons_self
        obtain ⟨q, hq, hq', -⟩ := hC.user _ hmem hkern s.cr3 hC.loaded
        obtain rfl := Option.some.inj (hp.symm.trans hq')
        exact hcr3 ▸ hq
    · rw [(hstay hsw).2.1]
      exact hC.loaded
  · intro a ha hkern c hc
    rw [hk.mem, hk.pdtVaddr]
    rw [hk.isKernThread] at hkern
    exact hC.user a (Sched.mem_schedule.mp ha) hkern c hc

theorem Loadable.turns {C : UInt32 → Prop} (hC : Loadable C s A.threads) (h : Round s A) (n : ℕ) :
    ∃ r, turns n s = some r := by
  induction n generalizing s A with
  | zero => exact ⟨_, rfl⟩
  | succ n ih =>
      obtain ⟨⟨sw, t⟩, ht⟩ := hC.defined h
      obtain ⟨r, hr⟩ := ih (hC.schedule h ht) (h.schedule_spec ht).2.1
      refine ⟨(t.curTcb :: r.1, r.2), ?_⟩
      rw [Threads.turns, ht]
      simp only [Option.bind_eq_bind, Option.bind_some, hr]

/-! ### Fairness -/

/-- The thread a call of `schedule` selects: the nearest ready successor, or the current thread
when no other is ready. -/
def Selects (A : Sched UInt32) (b : UInt32) : Prop :=
  (∀ c ∈ A.rest, A.status c ≠ .ready) ∧ b = A.cur ∨
    ∃ l₁ l₂, A.rest = l₁ ++ b :: l₂ ∧ (∀ c ∈ l₁, A.status c ≠ .ready) ∧ A.status b = .ready

theorem selects_schedule (h : A.OneRuns) : Selects A A.schedule.2.cur := by
  rcases A.ready_cases with hno | ⟨l₁, b, l₂, e, hno, hb⟩
  · have hsched := Sched.schedule_of_none hno
    rw [if_pos (Or.inr h.cur)] at hsched
    rw [hsched]
    exact Or.inl ⟨hno, rfl⟩
  · rw [Sched.schedule_of_split e hno hb]
    exact Or.inr ⟨l₁, l₂, e, hno, hb⟩

theorem Selects.not_blocked (h : Selects A b) (ho : A.OneRuns) : A.status b ≠ .blocked := by
  rcases h with ⟨-, rfl⟩ | ⟨l₁, l₂, -, -, hb⟩
  · simp [ho.cur]
  · simp [hb]

/-- **`schedule` is fair.**  In a ring where the current thread runs and the others are ready or
blocked, a call selects the nearest ready successor, with a full time slice, and leaves such a
ring; one call for each of the runnable threads selects each of them once, in ring order, and ends
at the original thread with the statuses of the start.  The calls return when the directories of
the user tasks can be loaded. -/
theorem fair (h : Round s A) (ho : A.OneRuns) :
    (∀ sw t, s.schedule = some (sw, t) →
      Selects A t.curTcb ∧ (t.tcb t.curTcb).timeLeft = timeCont ∧ s.status t.curTcb ≠ .blocked ∧
      ∃ B, Round t B ∧ B.OneRuns ∧ ∀ a, a ∈ B.threads ↔ a ∈ A.threads) ∧
    (∀ l u, turns ((A.readyOf A.rest).length + 1) s = some (l, u) →
      l = A.readyOf A.rest ++ [A.cur] ∧ l.Nodup ∧
      (∀ a, a ∈ l ↔ a ∈ A.threads ∧ (A.status a = .ready ∨ A.status a = .running)) ∧
      u.curTcb = s.curTcb ∧ u.status = s.status) ∧
    ∀ C, Loadable C s A.threads →
      (∃ r, s.schedule = some r) ∧ ∃ r, turns ((A.readyOf A.rest).length + 1) s = some r := by
  refine ⟨?_, ?_, fun C hC => ⟨hC.defined h, hC.turns h _⟩⟩
  · intro sw t ht
    obtain ⟨-, hB, -⟩ := h.schedule_spec ht
    have hsel := selects_schedule ho
    rw [← hB.cur] at hsel
    refine ⟨hsel, h.schedule_timeLeft ht, ?_, _, hB, ho.schedule h.ring.nodup,
      fun _ => Sched.mem_schedule⟩
    rw [h.status]
    exact hsel.not_blocked ho
  · intro l u hu
    obtain ⟨hl, hround⟩ := h.turns_spec hu
    rw [Sched.turns_eq ho h.ring.nodup] at hl hround
    subst hl
    refine ⟨rfl, ?_, ?_, hround.cur.trans h.cur.symm, hround.status.trans h.status.symm⟩
    · rw [List.nodup_append]
      refine ⟨(List.nodup_cons.mp h.ring.nodup).2.filter _, List.nodup_singleton _, ?_⟩
      intro a ha b hb e
      obtain rfl := List.mem_singleton.mp hb
      exact h.ring.notMem (e ▸ (List.mem_filter.mp ha).1)
    · intro a
      simp only [Sched.readyOf, List.mem_append, List.mem_filter, decide_eq_true_eq,
        Sched.threads, List.mem_cons, List.not_mem_nil, or_false]
      constructor
      · rintro (⟨ha, hr⟩ | rfl)
        · exact ⟨Or.inr ha, Or.inl hr⟩
        · exact ⟨Or.inl rfl, Or.inr ho.cur⟩
      · rintro ⟨rfl | ha, hr⟩
        · exact Or.inr rfl
        · refine Or.inl ⟨ha, hr.resolve_right ?_⟩
          intro hrun
          rcases ho.rest a ha with hst | hst
          · rw [hst] at hrun
            cases hrun
          · rw [hst] at hrun
            cases hrun

/-- The main thread and a kernel thread that it created. -/
def mainAndOther : Threads :=
  (zero.threadsInit 0xC0100000).createThread 1 0xC0400000 1 true ⟨0, 0, 0⟩ 0

theorem fair_twoThreads :
    ∃ u, turns 2 mainAndOther = some ([0xC0400000, 0xC0100000], u) ∧
      u.curTcb = mainAndOther.curTcb ∧ u.status = mainAndOther.status := by
  have hmain : (0xC0100000 : UInt32) ≠ 0 := by decide
  have hrep₀ := represents_threadsInit zero hmain
  obtain ⟨t, ht, hrep, hnew, hcore, -⟩ := Represents.createThread_spec 1 1 0 true ⟨0, 0, 0⟩ hrep₀
    (by decide : (0xC0400000 : UInt32) ∉ [0xC0100000]) (by decide)
  have ht : mainAndOther = t := ht
  rw [← ht] at hrep hnew hcore
  -- one thread runs, the other is ready
  have hone : (Sched.createThread ⟨0xC0100000, [], Function.update zero.status 0xC0100000 .running⟩
      0xC0400000).OneRuns := by
    refine ⟨by decide, ?_⟩
    intro b hb
    obtain rfl := List.mem_singleton.mp hb
    exact Or.inl (by decide)
  have hload : Loadable (fun _ => True) mainAndOther [0xC0100000, 0xC0400000] := by
    refine ⟨trivial, trivial, ?_⟩
    intro a ha hk
    obtain rfl | rfl : a = 0xC0100000 ∨ a = 0xC0400000 := by simpa using ha
    · have hkern := congrArg (fun c => c.2.2.2.1) (hcore 0xC0100000 (by decide))
      have hfalse : true = false := hkern.symm.trans hk
      cases hfalse
    · rw [hnew] at hk
      cases hk
  obtain ⟨-, hround, hdef⟩ := fair hrep.round hone
  obtain ⟨⟨l, u⟩, hu⟩ := (hdef _ hload).2
  obtain ⟨rfl, -, -, hcur, hstatus⟩ := hround l u hu
  exact ⟨u, hu, hcur, hstatus⟩

end Threads
end BHOS
