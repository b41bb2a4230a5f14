import BHOS.ThreadStacks
import BHOS.InterruptEntry
import BHOS.Lib.Runs

/-! # Runs of threads that switch (`threads_asm.s`, `interrupt_asm.s`)

`switchTo_returns` says that a call of `switch_to` returns, whenever the thread is switched to
again, as a call that has changed nothing, and `thread_starts` that a new thread starts in its
function.  `interrupt_resumes` is the same for an interrupt whose handler switches threads. -/

namespace BHOS

open X86 Transition

variable {ι : Type*} {L : Layout ι} {s t u : Machine ι} {k j : ι}

/-! ### Runs -/

/-- No thread is switched to. -/
def Away (k : ι) (e : MachineEvent ι) (_ : Machine ι) : Prop := e ≠ .switchTo k

/-- The invariant holds after every run. -/
theorem Machine.invariant {es : List (MachineEvent ι)} (hI : s.Inv L)
    (ha : Along (Machine.step L) (Machine.Allowed L) es s)
    (hr : run (Machine.step L) es s = some t) : t.Inv L :=
  Transition.invariant (fun _ _ _ hI ha hs => hI.step ha hs) hI ha hr

/-- A thread that is not switched to stays suspended, with everything that it owns. -/
theorem suspended_run {es : List (MachineEvent ι)} (hI : s.Inv L)
    (ha : Along (Machine.step L) (Machine.Allowed L) es s)
    (haway : Along (Machine.step L) (Away k) es s)
    (hr : run (Machine.step L) es s = some t) (hk : k ∈ s.threads) (hkc : k ≠ s.cur) :
    Set.EqOn t.cpu.mem s.cpu.mem (L.own k) ∧ k ∈ t.threads ∧ k ≠ t.cur := by
  have hstep : ∀ e u v, (u.Inv L ∧ Set.EqOn u.cpu.mem s.cpu.mem (L.own k) ∧ k ∈ u.threads ∧
      k ≠ u.cur) → Machine.Allowed L e u ∧ Away k e u → Machine.step L e u = some v →
      v.Inv L ∧ Set.EqOn v.cpu.mem s.cpu.mem (L.own k) ∧ k ∈ v.threads ∧ k ≠ v.cur := by
    rintro e u v ⟨hI, heq, hk, hkc⟩ ⟨ha, he⟩ hs
    refine ⟨hI.step ha hs, (step_eqOn hI ha hs hk hkc he).trans heq, ?_⟩
    obtain rfl := Option.some.inj hs
    cases e with
    | work c => exact ⟨hk, hkc⟩
    | create n w => exact ⟨Or.inr hk, hkc⟩
    | switchTo j =>
        refine ⟨hk, ?_⟩
        rintro rfl
        exact he rfl
  exact (Transition.invariant hstep ⟨hI, fun _ _ => rfl, hk, hkc⟩ (ha.and haway) hr).2

/-- A call of `switch_to` has returned: the registers that a function must save, the flags and
everything that the thread owns are as they were, but for the context and two dwords below the
stack pointer. -/
structure Returned (L : Layout ι) (i : ι) (ret : UInt32) (c c' : Cpu) : Prop where
  regs : ∀ r ∈ [Reg.ebp, .ebx, .ecx, .edx, .esi, .edi], c'.reg r = c.reg r
  esp : c'.reg .esp = c.reg .esp + 4
  eip : c'.eip = ret
  eflags : c'.eflags = popfFlags c.eflags
  own : ∀ x ∈ L.own i, x ∉ contextAddrs (L.ctx i) → x ≠ c.reg .esp - 4 → x ≠ c.reg .esp - 4 - 4 →
    c'.mem x = c.mem x

theorem along_away {es : List (MachineEvent ι)} (h : MachineEvent.switchTo k ∉ es) :
    Along (Machine.step L) (Away k) es s :=
  along_of_forall fun e he _ => by
    rintro rfl
    exact h he

/-- The processor after a thread is switched to that has been suspended. -/
theorem resume_suspended {ret : UInt32} (hc : s.Calls L k ret) (hk : k ≠ s.cur)
    {ctx : Context} (hctx : contextAt s.cpu.mem (L.ctx k) = ctx) :
    ∃ c', performAll switchToCode s.cpu = c' ∧
      c'.reg = ctx.regs (withLow8 (L.ctx k + 24) 0x20) (ctx.esp + 4) ∧
      c'.eflags = popfFlags ctx.eflags ∧ c'.seg = s.cpu.seg ∧
      (ctx.esp ∈ L.own k → c'.eip = s.cpu.mem ctx.esp) ∧
      (∀ x ∈ L.own k, x ≠ ctx.esp - 4 → c'.mem x = s.cpu.mem x) := by
  have hsaved := saveContext_eqOn hc hk
  have hctx' : contextAt (saveContext s.cpu (L.ctx s.cur)) (L.ctx k) = ctx :=
    (Layout.context_eqOn hsaved).trans hctx
  refine ⟨_, rfl, ?_⟩
  rw [run_switchToCode hc.entry]
  unfold resume
  dsimp only
  rw [hctx']
  refine ⟨rfl, rfl, rfl, fun hown => hsaved hown, fun x hx hne => ?_⟩
  rw [Function.update_of_ne hne]
  exact hsaved hx

/-- The last step of a run. -/
theorem run_snoc {es : List (MachineEvent ι)} {e : MachineEvent ι}
    (hr : run (Machine.step L) (es ++ [e]) s = some t) :
    ∃ u, run (Machine.step L) es s = some u ∧ u.next L e = t := by
  rw [Transition.run_append] at hr
  obtain ⟨u, hu, hr⟩ := Option.bind_eq_some_iff.mp hr
  refine ⟨u, hu, ?_⟩
  rw [run_cons_of_step rfl, run_nil] at hr
  exact Option.some.inj hr

theorem returned_of_inv {es : List (MachineEvent ι)} {ret : UInt32} (hI : s.Inv L)
    (hc : s.Calls L j ret)
    (ha : Along (Machine.step L) (Machine.Allowed L) (.switchTo j :: es ++ [.switchTo s.cur]) s)
    (haway : .switchTo s.cur ∉ MachineEvent.switchTo j :: es)
    (hr : run (Machine.step L) (.switchTo j :: es ++ [.switchTo s.cur]) s = some t) :
    Returned L s.cur ret s.cpu t.cpu := by
  obtain ⟨v, hv, hvt⟩ := run_snoc hr
  rw [along_append hv] at ha
  obtain ⟨ha, ⟨-, ret', hc'⟩, -⟩ := ha
  have hjc : s.cur ≠ j := by
    rintro rfl
    exact haway List.mem_cons_self
  rw [run_cons_of_step rfl] at hv
  rw [along_cons_of_step rfl] at ha
  obtain ⟨⟨hj, -⟩, ha⟩ := ha
  -- the thread is suspended with its context and its stack
  have hIt : (s.next L (.switchTo j)).Inv L := hI.step (e := .switchTo j) ⟨hj, ret, hc⟩ rfl
  have hctx := suspended_left hI hj hc hjc
  obtain ⟨hkeep, -, hcur⟩ := suspended_run hIt ha (along_away fun h => haway (.tail _ h)) hv
    hI.cur hjc
  have hstack : ∀ x ∈ L.own s.cur, x ∉ contextAddrs (L.ctx s.cur) → x ≠ s.cpu.reg .esp - 4 →
      x ≠ s.cpu.reg .esp - 4 - 4 → v.cpu.mem x = s.cpu.mem x := by
    intro x hx hnctx h₁ h₂
    have hne : x ≠ (contextAt (saveContext s.cpu (L.ctx s.cur)) (L.ctx j)).esp - 4 := by
      rintro rfl
      exact L.apart s.cur j hjc _ hx (hI.target hj hc _ List.mem_cons_self).1
    rw [hkeep hx]
    show (performAll switchToCode s.cpu).mem x = _
    rw [run_switchToCode hc.entry]
    show Function.update (saveContext s.cpu (L.ctx s.cur)) _ _ x = _
    rw [Function.update_of_ne hne]
    refine saveContext_keeps s.cpu (L.ctx s.cur) x ?_
    simp only [List.mem_append, List.mem_cons, List.not_mem_nil, or_false, not_or]
    exact ⟨hnctx, h₁, h₂⟩
  obtain ⟨c', hc'eq, hreg, hflags, -, heip, hmem⟩ := resume_suspended hc' hcur
    ((Layout.context_eqOn hkeep).trans hctx)
  subst hvt
  rw [show (v.next L (.switchTo s.cur)).cpu = c' from hc'eq]
  have hret : s.cpu.reg .esp ∈ L.own s.cur ∧ s.cpu.reg .esp ∉ contextAddrs (L.ctx s.cur) :=
    hc.stack _ (by simp)
  refine ⟨fun r hr => ?_, ?_, ?_, ?_, fun x hx hnctx h₁ h₂ => ?_⟩
  · rw [hreg]
    simp only [List.mem_cons, List.not_mem_nil, or_false] at hr
    rcases hr with rfl | rfl | rfl | rfl | rfl | rfl <;> rfl
  · rw [hreg]
    rfl
  · rw [heip hret.1]
    have hne₁ : s.cpu.reg .esp ≠ s.cpu.reg .esp - 4 := by grind
    have hne₂ : s.cpu.reg .esp ≠ s.cpu.reg .esp - 4 - 4 := by grind
    exact (hstack _ hret.1 hret.2 hne₁ hne₂).trans hc.entry.stack.1
  · rw [hflags]
    exact popfFlags_pushfImage _
  · rw [hmem x hx h₁]
    exact hstack x hx hnctx h₁ h₂

/-- A machine with one thread. -/
theorem inv_of_main (h : s.threads = {s.cur}) : s.Inv L := by
  refine ⟨h ▸ Set.mem_singleton _, fun k hk hkc => ?_⟩
  rw [h] at hk
  exact absurd hk hkc

/-- **Switching back**: in every run from the main thread on, a call of `switch_to` returns when
the thread is switched to again, whatever the other threads did, to its caller and with all that
the caller relies on. -/
theorem switchTo_returns {es₀ es : List (MachineEvent ι)} {ret : UInt32}
    (hmain : s.threads = {s.cur}) (hr₀ : run (Machine.step L) es₀ s = some t)
    (hc : t.Calls L j ret)
    (ha : Along (Machine.step L) (Machine.Allowed L)
      (es₀ ++ (.switchTo j :: es ++ [.switchTo t.cur])) s)
    (haway : .switchTo t.cur ∉ MachineEvent.switchTo j :: es)
    (hr : run (Machine.step L) (.switchTo j :: es ++ [.switchTo t.cur]) t = some u) :
    Returned L t.cur ret t.cpu u.cpu := by
  obtain ⟨ha₀, ha⟩ := (along_append hr₀).mp ha
  exact returned_of_inv (Machine.invariant (inv_of_main hmain) ha₀ hr₀) hc ha haway hr

/-- Two threads in the pages at `0x1000` and `0x2000`. -/
def twoPages : Layout Bool :=
  pageLayout (fun b => if b then 0x2000 else 0x1000) (by decide) (by
    intro a b
    cases a <;> cases b <;> simp)

/-- Kernel code with its stack in the first page. -/
def pageCpu : Cpu where
  reg r := if r = .esp then 0x1F00 else 7
  seg r := if r = .cs then 0x08 else 0x10
  eip := 0xC0105000
  eflags := 0x202
  mem _ := 0
  ports := []

/-- The main thread, interrupted by the timer. -/
def mainMachine : Machine Bool where
  cpu := (atCall 32 (intGate 0xC0100000 0) 0 pageCpu).push 0xC0100100
  cur := false
  threads := {false}

/-- A kernel thread for the second page. -/
def pageThread : NewThread where
  tid := 1
  func := 0xC0101000
  args := 5
  exit := 0xC0102000
  pageCounte := 1
  isKernThread := true
  userVmmPool := ⟨0, 0, 0⟩
  pdtVaddr := 0

/-- The main thread creates the other one. -/
def createdMachine : Machine Bool := mainMachine.next twoPages (.create true pageThread)

/-- The main thread calls `switch_to`. -/
def callingMachine : Machine Bool :=
  createdMachine.next twoPages (.work (callSwitch twoPages createdMachine true 0xC0103000))

/-- The other thread runs. -/
def startedMachine : Machine Bool := callingMachine.next twoPages (.switchTo true)

/-- The other thread calls `switch_to`. -/
def callingBackMachine : Machine Bool :=
  startedMachine.next twoPages (.work (callSwitch twoPages startedMachine false 0xC0104000))

theorem allowed_created : Machine.Allowed twoPages (.create true pageThread) mainMachine :=
  ⟨by simp [mainMachine], pageLayout_stack (by decide)⟩

theorem calls_createdMachine :
    Machine.Allowed twoPages (.work (callSwitch twoPages createdMachine true 0xC0103000))
      createdMachine ∧ callingMachine.Calls twoPages true 0xC0103000 :=
  calls_callSwitch _ (pageLayout_stack (by decide))

theorem calls_startedMachine :
    Machine.Allowed twoPages (.work (callSwitch twoPages startedMachine false 0xC0104000))
      startedMachine ∧ callingBackMachine.Calls twoPages false 0xC0104000 := by
  have hesp : startedMachine.cpu.reg .esp = 0x2FF8 := by decide +kernel
  refine calls_callSwitch _ ?_
  rw [hesp]
  exact pageLayout_stack (by decide)

/-- What the main thread does first. -/
def mainEvents : List (MachineEvent Bool) :=
  [.create true pageThread, .work (callSwitch twoPages createdMachine true 0xC0103000)]

/-- What the new thread does. -/
def threadEvents : List (MachineEvent Bool) :=
  [.work (callSwitch twoPages startedMachine false 0xC0104000)]

theorem along_events : Along (Machine.step twoPages) (Machine.Allowed twoPages)
    (mainEvents ++ (.switchTo true :: threadEvents ++ [.switchTo false])) mainMachine := by
  have htrue : true ∈ callingMachine.threads := Or.inl rfl
  have hfalse : false ∈ callingBackMachine.threads := Or.inr rfl
  refine (along_cons_of_step rfl).mpr ⟨allowed_created, ?_⟩
  refine (along_cons_of_step rfl).mpr ⟨calls_createdMachine.1, ?_⟩
  refine (along_cons_of_step rfl).mpr ⟨⟨htrue, _, calls_createdMachine.2⟩, ?_⟩
  refine (along_cons_of_step rfl).mpr ⟨calls_startedMachine.1, ?_⟩
  exact (along_cons_of_step rfl).mpr ⟨⟨hfalse, _, calls_startedMachine.2⟩, along_nil⟩

/-- The main thread switches to the new thread, which switches back. -/
theorem returned_twoPages : Returned twoPages false 0xC0103000 callingMachine.cpu
    (callingBackMachine.next twoPages (.switchTo false)).cpu :=
  switchTo_returns (t := callingMachine) rfl rfl calls_createdMachine.2 along_events
    (by simp [threadEvents, callingMachine, createdMachine, mainMachine, Machine.next]) rfl

/-- A new thread runs: it is at the first instruction of its function, which has `exit` for its
return address and `args` for its argument, with interrupts on. -/
structure Started (w : NewThread) (addr : UInt32) (c : Cpu) : Prop where
  eip : c.eip = w.func
  esp : c.reg .esp = w.top addr - 4 - 4
  stack : Stacked c [w.exit, w.args]
  eflags : c.eflags = 0x202

theorem started_of_inv {es : List (MachineEvent ι)} {w : NewThread} (hI : s.Inv L)
    (ha : Along (Machine.step L) (Machine.Allowed L) (.create k w :: es ++ [.switchTo k]) s)
    (haway : .switchTo k ∉ es)
    (hr : run (Machine.step L) (.create k w :: es ++ [.switchTo k]) s = some t) :
    Started w (L.tcb k) t.cpu := by
  obtain ⟨v, hv, hvt⟩ := run_snoc hr
  rw [along_append hv] at ha
  obtain ⟨ha, ⟨-, ret, hc⟩, -⟩ := ha
  rw [run_cons_of_step rfl] at hv
  rw [along_cons_of_step rfl] at ha
  obtain ⟨⟨hnew, hroom⟩, ha⟩ := ha
  have hkc : k ≠ s.cur := by
    rintro rfl
    exact hnew hI.cur
  have hcreated := Layout.created hkc hroom
  -- the new thread keeps its stack until it is switched to
  have hIt : (s.next L (.create k w)).Inv L := hI.step (e := .create k w) ⟨hnew, hroom⟩ rfl
  obtain ⟨hkeep, -, hcur⟩ := suspended_run hIt ha (along_away haway) hv (Or.inl rfl) hkc
  have hkept : ∀ x ∈ L.own k, v.cpu.mem x =
      createThreadMem s.cpu.mem (L.tcb s.cur) (L.tcb k) w x := fun x hx => hkeep hx
  obtain ⟨c', hc'eq, hreg, hflags, -, heip, hmem⟩ := resume_suspended hc hcur
    (Layout.context_eqOn hkeep)
  have hesp : (contextAt (s.next L (.create k w)).cpu.mem (L.ctx k)).esp =
      w.top (L.tcb k) - 4 - 4 - 4 := hcreated.esp
  have heflags : (contextAt (s.next L (.create k w)).cpu.mem (L.ctx k)).eflags = 0x202 :=
    hcreated.eflags
  rw [hesp] at heip hmem
  rw [heflags] at hflags
  subst hvt
  rw [show (v.next L (.switchTo k)).cpu = c' from hc'eq]
  obtain ⟨hfunc, hexit, hargs, -⟩ := hcreated.stack
  have e₂ : w.top (L.tcb k) - 4 - 4 - 4 + 4 = w.top (L.tcb k) - 4 - 4 := UInt32.sub_add_cancel _ _
  have e₁ : w.top (L.tcb k) - 4 - 4 + 4 = w.top (L.tcb k) - 4 := UInt32.sub_add_cancel _ _
  rw [e₂] at hexit hargs
  rw [e₁] at hargs
  have hesp' : c'.reg .esp = w.top (L.tcb k) - 4 - 4 := by
    rw [hreg]
    show (contextAt (s.next L (.create k w)).cpu.mem (L.ctx k)).esp + 4 = _
    rw [hesp, e₂]
  have h₁ : w.top (L.tcb k) - 4 ∈ L.own k := (hroom _ (by simp)).1
  have h₂ : w.top (L.tcb k) - 4 - 4 ∈ L.own k := (hroom _ (by simp)).1
  have h₃ : w.top (L.tcb k) - 4 - 4 - 4 ∈ L.own k := (hroom _ (by simp)).1
  refine ⟨?_, hesp', ?_, ?_⟩
  · rw [heip h₃, hkept _ h₃]
    exact hfunc
  · unfold Stacked
    rw [hesp']
    refine ⟨?_, ?_, trivial⟩
    · rw [hmem _ h₂ (by grind), hkept _ h₂]
      exact hexit
    · rw [e₁, hmem _ h₁ (by grind), hkept _ h₁]
      exact hargs
  · rw [hflags]
    rfl

/-- **New threads**: in every run from the main thread on, a thread that `create_thread` has made
starts in its function when it is switched to for the first time. -/
theorem thread_starts {es₀ es : List (MachineEvent ι)} {w : NewThread}
    (hmain : s.threads = {s.cur}) (hr₀ : run (Machine.step L) es₀ s = some t)
    (ha : Along (Machine.step L) (Machine.Allowed L)
      (es₀ ++ (.create k w :: es ++ [.switchTo k])) s)
    (haway : .switchTo k ∉ es)
    (hr : run (Machine.step L) (.create k w :: es ++ [.switchTo k]) t = some u) :
    Started w (L.tcb k) u.cpu := by
  obtain ⟨ha₀, ha⟩ := (along_append hr₀).mp ha
  exact started_of_inv (Machine.invariant (inv_of_main hmain) ha₀ hr₀) ha haway hr

/-- The new thread after the first switch. -/
theorem started_twoPages : Started pageThread 0x2000 startedMachine.cpu := by
  have ha : Along (Machine.step twoPages) (Machine.Allowed twoPages)
      ([] ++ (.create true pageThread :: [.work (callSwitch twoPages createdMachine true
        0xC0103000)] ++ [.switchTo true])) mainMachine := by
    refine (along_cons_of_step rfl).mpr ⟨allowed_created, ?_⟩
    refine (along_cons_of_step rfl).mpr ⟨calls_createdMachine.1, ?_⟩
    exact (along_cons_of_step rfl).mpr ⟨⟨Or.inl rfl, _, calls_createdMachine.2⟩, along_nil⟩
  exact thread_starts (t := mainMachine) rfl rfl ha (by simp) rfl

/-! ### Interrupts that switch threads -/

/-- A thread keeps some of its dwords: its own work leaves them, and it calls `switch_to` with its
stack pointer above them or far enough below. -/
def KeepsDwords (i : ι) (P : Set UInt32) : MachineEvent ι → Machine ι → Prop
  | .work c, s => s.cur = i → Set.EqOn c.mem s.cpu.mem P
  | .create _ _, _ => True
  | .switchTo _, s => s.cur = i → s.cpu.reg .esp - 4 ∉ P ∧ s.cpu.reg .esp - 4 - 4 ∉ P

/-- A switch leaves the dwords of a thread that is not at its end. -/
theorem switchTo_eqOn_dwords {i : ι} {P : Set UInt32} (hI : s.Inv L) {ret : UInt32}
    (hj : j ∈ s.threads) (hc : s.Calls L j ret)
    (hP : ∀ x ∈ P, x ∈ L.own i ∧ x ∉ contextAddrs (L.ctx i))
    (hown : s.cur = i → s.cpu.reg .esp - 4 ∉ P ∧ s.cpu.reg .esp - 4 - 4 ∉ P)
    (haway : s.cur ≠ i → (contextAt s.cpu.mem (L.ctx i)).esp - 4 ∉ P) :
    Set.EqOn (performAll switchToCode s.cpu).mem s.cpu.mem P := by
  intro x hx
  obtain ⟨hxo, hxc⟩ := hP x hx
  have hpushed : x ≠ (contextAt (saveContext s.cpu (L.ctx s.cur)) (L.ctx j)).esp - 4 := by
    rintro rfl
    by_cases hji : j = i
    · subst hji
      by_cases hjc : s.cur = j
      · subst hjc
        rw [contextAt_saved hc] at hx
        exact (hown rfl).1 hx
      · rw [Layout.context_eqOn (saveContext_eqOn hc (Ne.symm hjc))] at hx
        exact haway hjc hx
    · exact L.apart i j (Ne.symm hji) _ hxo (hI.target hj hc _ List.mem_cons_self).1
  rw [run_switchToCode hc.entry]
  show Function.update (saveContext s.cpu (L.ctx s.cur)) _ _ x = _
  rw [Function.update_of_ne hpushed]
  by_cases hic : i = s.cur
  · subst hic
    obtain ⟨h₁, h₂⟩ := hown rfl
    refine saveContext_keeps s.cpu (L.ctx s.cur) x ?_
    simp only [List.mem_append, List.mem_cons, List.not_mem_nil, or_false, not_or]
    exact ⟨hxc, fun h => h₁ (h ▸ hx), fun h => h₂ (h ▸ hx)⟩
  · exact saveContext_eqOn hc hic hxo

/-- What a thread keeps itself stays through every run. -/
theorem keepsDwords_run {i : ι} {P : Set UInt32} {es : List (MachineEvent ι)} (hI : s.Inv L)
    (hP : ∀ x ∈ P, x ∈ L.own i ∧ x ∉ contextAddrs (L.ctx i)) (hi : s.cur = i)
    (ha : Along (Machine.step L) (Machine.Allowed L) es s)
    (hkeeps : Along (Machine.step L) (KeepsDwords i P) es s)
    (hr : run (Machine.step L) es s = some t) : Set.EqOn t.cpu.mem s.cpu.mem P := by
  have hstep : ∀ e u v, (u.Inv L ∧ Set.EqOn u.cpu.mem s.cpu.mem P ∧ i ∈ u.threads ∧
      (u.cur ≠ i → (contextAt u.cpu.mem (L.ctx i)).esp - 4 ∉ P)) →
      Machine.Allowed L e u ∧ KeepsDwords i P e u → Machine.step L e u = some v →
      v.Inv L ∧ Set.EqOn v.cpu.mem s.cpu.mem P ∧ i ∈ v.threads ∧
        (v.cur ≠ i → (contextAt v.cpu.mem (L.ctx i)).esp - 4 ∉ P) := by
    rintro e u v ⟨hI, heq, hit, haway⟩ ⟨ha, hk⟩ hs
    refine ⟨hI.step ha hs, ?_⟩
    have hkeep := fun hkc he => step_eqOn (k := i) hI ha hs hit hkc he
    obtain rfl := Option.some.inj hs
    cases e with
    | work c =>
        refine ⟨Set.EqOn.trans ?_ heq, hit, fun hci => ?_⟩
        · by_cases hci : u.cur = i
          · exact hk hci
          · exact fun x hx => hkeep (Ne.symm hci) (by simp) (hP x hx).1
        · rw [Layout.context_eqOn (hkeep (Ne.symm hci) (by simp))]
          exact haway hci
    | create n w =>
        obtain ⟨hn, hroom⟩ := ha
        have hnc : n ≠ u.cur := by
          rintro rfl
          exact hn hI.cur
        have hin : i ≠ n := by
          rintro rfl
          exact hn hit
        have hmem := createThreadMem_eqOn hnc hin hroom
        refine ⟨Set.EqOn.trans (fun x hx => hmem (hP x hx).1) heq, Or.inr hit, fun hci => ?_⟩
        have hctx : contextAt (u.next L (.create n w)).cpu.mem (L.ctx i) = _ :=
          Layout.context_eqOn hmem
        rw [hctx]
        exact haway hci
    | switchTo j =>
        obtain ⟨hj, ret, hc⟩ := ha
        refine ⟨Set.EqOn.trans (switchTo_eqOn_dwords hI hj hc hP hk haway) heq, hit, fun hji => ?_⟩
        by_cases hci : u.cur = i
        · subst hci
          have hctx : contextAt (u.next L (.switchTo j)).cpu.mem (L.ctx u.cur) = _ :=
            suspended_left hI hj hc (Ne.symm hji)
          rw [hctx]
          exact (hk rfl).1
        · have hctx : contextAt (u.next L (.switchTo j)).cpu.mem (L.ctx i) = _ :=
            Layout.context_eqOn (hkeep (Ne.symm hci) fun e => hji (MachineEvent.switchTo.inj e))
          rw [hctx]
          exact haway hci
  subst hi
  exact (Transition.invariant hstep ⟨hI, fun _ _ => rfl, hI.cur, fun h => absurd rfl h⟩
    (ha.and hkeeps) hr).2.1

/-- The addresses of the part of the image that an interrupt handler leaves for the exit. -/
def frameAddrs (n : ℕ) (g : Gate) (e : UInt32) (c : Cpu) (ret : UInt32) : List UInt32 :=
  (List.range (savedWords n g e c).length).map fun k =>
    ((atCall n g e c).push ret).reg .esp + 4 + 4 * 2 + UInt32.ofNat (4 * k)

/-- **Interrupts across switches**: the code of a thread that is interrupted goes on with all its
registers after a handler that switches threads, if the thread is switched to again, and its
handler returns with the segment registers that it was called with. -/
theorem interrupt_resumes {es₀ es : List (MachineEvent ι)} {n : ℕ} {g : Gate} {e ret : UInt32}
    {c : Cpu} (hn : n < 48) (hmain : s.threads = {s.cur})
    (hr₀ : run (Machine.step L) es₀ s = some t) (hentry : t.cpu = (atCall n g e c).push ret)
    (ha : Along (Machine.step L) (Machine.Allowed L) (es₀ ++ es) s)
    (hkeeps : Along (Machine.step L) (KeepsDwords t.cur {x | x ∈ frameAddrs n g e c ret}) es t)
    (hframe : L.Stack t.cur (frameAddrs n g e c ret))
    (hr : run (Machine.step L) es t = some u)
    (hesp : u.cpu.reg .esp = t.cpu.reg .esp + 4) (hseg : u.cpu.seg = t.cpu.seg)
    (hdpl : c.Outer g → ∀ r ∈ [SReg.ds, .es, .fs, .gs], level (c.seg .cs) ≤ gdtDpl (c.seg r)) :
    ∃ ports mem, (X86.run intExit u.cpu).iret gdtDpl = { c with mem := mem, ports := ports } := by
  obtain ⟨ha₀, ha⟩ := (along_append hr₀).mp ha
  have hmem := keepsDwords_run (Machine.invariant (inv_of_main hmain) ha₀ hr₀) hframe rfl ha hkeeps
    hr
  rw [hentry] at hesp hseg hmem
  have hreturns : Returns (fun _ => u.cpu) ((atCall n g e c).push ret) 2 (savedWords n g e c) := by
    refine ⟨hesp, hseg, fun hsaved => hsaved.congr fun k hk => hmem ?_⟩
    exact List.mem_map.mpr ⟨k, List.mem_range.mpr hk, rfl⟩
  have hresumes := iret_resumes hn hreturns hdpl
  unfold atIret at hresumes
  exact hresumes

/-- The handler returns. -/
def handledMachine : Machine Bool where
  cpu := { (callingBackMachine.next twoPages (.switchTo false)).cpu.setReg .esp 0x1EB8 with
    eip := 0xC0100100 }
  cur := false
  threads := {true, false}

theorem handledMachine_mem : handledMachine.cpu.mem =
    (callingBackMachine.next twoPages (.switchTo false)).cpu.mem := rfl

theorem keeps_events : Along (Machine.step twoPages)
    (KeepsDwords false {x | x ∈ frameAddrs 32 (intGate 0xC0100000 0) 0 pageCpu 0xC0100100})
    (mainEvents ++ (.switchTo true :: threadEvents ++ [.switchTo false]) ++
      [.work handledMachine.cpu]) mainMachine := by
  have hpush : (frameAddrs 32 (intGate 0xC0100000 0) 0 pageCpu 0xC0100100).all (fun x =>
      x ∉ [createdMachine.cpu.reg .esp - 4, createdMachine.cpu.reg .esp - 4 - 4,
        createdMachine.cpu.reg .esp - 4 - 4 - 4]) = true := by decide +kernel
  have hswitch : callingMachine.cpu.reg .esp - 4 ∉
        frameAddrs 32 (intGate 0xC0100000 0) 0 pageCpu 0xC0100100 ∧
      callingMachine.cpu.reg .esp - 4 - 4 ∉
        frameAddrs 32 (intGate 0xC0100000 0) 0 pageCpu 0xC0100100 := by decide +kernel
  refine (along_cons_of_step rfl).mpr ⟨trivial, ?_⟩
  refine (along_cons_of_step rfl).mpr ⟨fun _ x hx => callSwitch_keeps _ _ _ x
    (of_decide_eq_true (List.all_eq_true.mp hpush x hx)), ?_⟩
  refine (along_cons_of_step rfl).mpr ⟨fun _ => hswitch, ?_⟩
  refine (along_cons_of_step rfl).mpr ⟨fun h => absurd h (by decide), ?_⟩
  refine (along_cons_of_step rfl).mpr ⟨fun h => absurd h (by decide), ?_⟩
  exact (along_cons_of_step rfl).mpr ⟨fun _ x _ => congrFun handledMachine_mem x, along_nil⟩

/-- The timer interrupts the main thread, which goes on after two switches. -/
theorem resumes_twoPages : ∃ ports mem, (X86.run intExit handledMachine.cpu).iret gdtDpl =
    { pageCpu with mem := mem, ports := ports } := by
  have ha : Along (Machine.step twoPages) (Machine.Allowed twoPages)
      ([] ++ (mainEvents ++ (.switchTo true :: threadEvents ++ [.switchTo false]) ++
        [.work handledMachine.cpu])) mainMachine := by
    rw [List.nil_append]
    refine (along_append (t := callingBackMachine.next twoPages (.switchTo false)) rfl).mpr
      ⟨along_events, ?_⟩
    exact (along_cons_of_step rfl).mpr ⟨fun _ _ _ x _ => congrFun handledMachine_mem x, along_nil⟩
  exact interrupt_resumes (t := mainMachine) (u := handledMachine) (by decide) rfl rfl rfl ha
    keeps_events (pageLayout_stack (by decide +kernel)) rfl (by decide +kernel) rfl
    (fun h => absurd h (by decide +kernel))

end BHOS
