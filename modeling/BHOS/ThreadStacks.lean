import BHOS.ContextSwitch
import BHOS.RoundRobin

/-! # Threads on their stacks (`threads.c`, `threads_asm.s`)

The processor with the threads that `create_thread` has made.  A thread owns the dwords of its
context and of its kernel stack; the other fields of the control blocks are shared.  Between two
switches the running thread does any work that leaves what the other threads own.

`createThreadMem_spec` says what `create_thread` leaves in the memory, and `Machine.Inv.step` what
every event keeps. -/

namespace BHOS

open X86

/-! ### Control blocks in memory -/

/-- The address of the context in a control block. -/
def contextAddr (tcb : UInt32) : UInt32 := tcb + 52

/-- The offsets of the other fields of a control block. -/
def fieldOffsets : List UInt32 := [0, 4, 8, 12, 16, 20, 24, 28, 32, 36, 40, 44, 48, 84]

/-- The addresses of these fields. -/
def fieldAddrs (tcb : UInt32) : List UInt32 := fieldOffsets.map (tcb + ·)

/-- What `create_thread` is called with; `exit` is the address of that function. -/
structure NewThread where
  tid : UInt32
  func : UInt32
  args : UInt32
  exit : UInt32
  pageCounte : UInt32
  isKernThread : Bool
  userVmmPool : Bitmap
  pdtVaddr : UInt32

/-- `create_TCB`. -/
def createTCBMem (mem : UInt32 → UInt32) (tid pageAddr pageCounte : UInt32) : UInt32 → UInt32 :=
  writeAt mem pageAddr [(20, tid), (8, 0), (12, timeCont), (4, 1), (24, pageCounte),
    (28, pageAddr), (0, pageAddr + pageCounte * pageSize), (84, tcbMagic)]

/-- `*(--tcb->kern_stack_top) = v`. -/
def pushKernStack (mem : UInt32 → UInt32) (tcb v : UInt32) : UInt32 → UInt32 :=
  writeAll mem [(tcb + 0, mem (tcb + 0) - 4), (mem (tcb + 0) - 4, v)]

/-- The control block of a new thread before the words are pushed. -/
def linkThreadMem (mem : UInt32 → UInt32) (cur addr : UInt32) (w : NewThread) :
    UInt32 → UInt32 :=
  let mem := createTCBMem mem w.tid addr w.pageCounte
  let tempNext := mem (cur + 16)
  let mem := writeAt mem cur [(16, addr)]
  let mem := writeAt mem addr [(16, tempNext), (32, if w.isKernThread then 1 else 0)]
  if w.isKernThread then mem
  else writeAt mem addr [(36, w.userVmmPool.vaddrHeader), (40, w.userVmmPool.length),
    (44, w.userVmmPool.targetAddrHeader), (48, w.pdtVaddr)]

/-- `create_thread`, called by the thread with the control block `cur`. -/
def createThreadMem (mem : UInt32 → UInt32) (cur addr : UInt32) (w : NewThread) :
    UInt32 → UInt32 :=
  let mem := linkThreadMem mem cur addr w
  let mem := pushKernStack mem addr w.args
  let mem := pushKernStack mem addr w.exit
  let mem := pushKernStack mem addr w.func
  writeAll mem [(contextAddr addr + 24, 0x202), (contextAddr addr + 28, mem (addr + 0))]

/-- The top of the kernel stack of a new thread. -/
def NewThread.top (w : NewThread) (addr : UInt32) : UInt32 := addr + w.pageCounte * pageSize

/-- The words of `create_thread` lie behind the control block. -/
def NewThread.Behind (w : NewThread) (addr : UInt32) : Prop :=
  ∀ x ∈ [w.top addr - 4, w.top addr - 4 - 4, w.top addr - 4 - 4 - 4],
    x ∉ fieldAddrs addr ∧ x ∉ contextAddrs (contextAddr addr)

theorem pushKernStack_keeps (mem : UInt32 → UInt32) (tcb v : UInt32) :
    KeepsOutside [tcb + 0, mem (tcb + 0) - 4] mem (pushKernStack mem tcb v) :=
  writeAll_keeps mem [(tcb + 0, mem (tcb + 0) - 4), (mem (tcb + 0) - 4, v)]

theorem pushKernStack_word (mem : UInt32 → UInt32) (tcb v : UInt32) :
    pushKernStack mem tcb v (mem (tcb + 0) - 4) = v := Function.update_self _ _ _

theorem pushKernStack_top {mem : UInt32 → UInt32} {tcb : UInt32} (v : UInt32)
    (h : tcb + 0 ≠ mem (tcb + 0) - 4) :
    pushKernStack mem tcb v (tcb + 0) = mem (tcb + 0) - 4 := by
  show Function.update _ _ _ _ = _
  rw [Function.update_of_ne h]
  exact Function.update_self _ _ _

/-- Three words on the kernel stack. -/
theorem pushKernStack_three {mem : UInt32 → UInt32} {tcb top : UInt32} (args exit func : UInt32)
    (htop : mem (tcb + 0) = top)
    (h : ∀ x ∈ [top - 4, top - 4 - 4, top - 4 - 4 - 4], x ≠ tcb + 0) :
    ∃ mem', pushKernStack (pushKernStack (pushKernStack mem tcb args) tcb exit) tcb func = mem' ∧
      Dwords mem' (top - 4 - 4 - 4) [func, exit, args] ∧ mem' (tcb + 0) = top - 4 - 4 - 4 ∧
      KeepsOutside [tcb + 0, top - 4, top - 4 - 4, top - 4 - 4 - 4] mem mem' := by
  simp only [List.forall_mem_cons, List.not_mem_nil, IsEmpty.forall_iff, implies_true,
    and_true] at h
  obtain ⟨h₁, h₂, h₃⟩ := h
  have k₁ := pushKernStack_keeps mem tcb args
  have w₁ := pushKernStack_word mem tcb args
  have t₁ : pushKernStack mem tcb args (tcb + 0) = mem (tcb + 0) - 4 :=
    pushKernStack_top args (by rw [htop]; exact h₁.symm)
  rw [htop] at k₁ w₁ t₁
  generalize pushKernStack mem tcb args = mem₁ at k₁ w₁ t₁
  have k₂ := pushKernStack_keeps mem₁ tcb exit
  have w₂ := pushKernStack_word mem₁ tcb exit
  have t₂ : pushKernStack mem₁ tcb exit (tcb + 0) = mem₁ (tcb + 0) - 4 :=
    pushKernStack_top exit (by rw [t₁]; exact h₂.symm)
  rw [t₁] at k₂ w₂ t₂
  generalize pushKernStack mem₁ tcb exit = mem₂ at k₂ w₂ t₂
  have k₃ := pushKernStack_keeps mem₂ tcb func
  have w₃ := pushKernStack_word mem₂ tcb func
  have t₃ : pushKernStack mem₂ tcb func (tcb + 0) = mem₂ (tcb + 0) - 4 :=
    pushKernStack_top func (by rw [t₂]; exact h₃.symm)
  rw [t₂] at k₃ w₃ t₃
  have e₂ : top - 4 - 4 - 4 + 4 = top - 4 - 4 := UInt32.sub_add_cancel _ _
  have e₁ : top - 4 - 4 + 4 = top - 4 := UInt32.sub_add_cancel _ _
  refine ⟨_, rfl, ⟨w₃, ?_, ?_, trivial⟩, t₃, ?_⟩
  · rw [e₂, k₃ _ (by simp; grind), w₂]
  · rw [e₂, e₁, k₃ _ (by simp; grind), k₂ _ (by simp; grind), w₁]
  · exact ((k₁.append k₂).append k₃).mono (by simp)

theorem createTCBMem_keeps (mem : UInt32 → UInt32) (tid pageAddr pageCounte : UInt32) :
    KeepsOutside (fieldAddrs pageAddr) mem (createTCBMem mem tid pageAddr pageCounte) :=
  writeAt_keeps mem pageAddr (by simp [fieldOffsets])

theorem createTCBMem_top (mem : UInt32 → UInt32) (tid pageAddr pageCounte : UInt32) :
    createTCBMem mem tid pageAddr pageCounte (pageAddr + 0) =
      pageAddr + pageCounte * pageSize := by
  unfold createTCBMem writeAt writeAll
  simp

theorem linkThreadMem_keeps (mem : UInt32 → UInt32) (cur addr : UInt32) (w : NewThread) :
    KeepsOutside ((cur + 16) :: fieldAddrs addr) mem (linkThreadMem mem cur addr w) := by
  have hfields : fieldAddrs addr ⊆ (cur + 16) :: fieldAddrs addr := List.subset_cons_self _ _
  have hnext : [cur + 16] ⊆ (cur + 16) :: fieldAddrs addr := by simp
  have k₁ := (createTCBMem_keeps mem w.tid addr w.pageCounte).mono hfields
  unfold linkThreadMem
  generalize createTCBMem mem w.tid addr w.pageCounte = mem₁ at k₁
  have k₂ := (keepsOutside_update mem₁ (cur + 16) addr).mono hnext
  have k₃ : KeepsOutside (fieldAddrs addr) (writeAt mem₁ cur [(16, addr)])
      (writeAt (writeAt mem₁ cur [(16, addr)]) addr
        [(16, mem₁ (cur + 16)), (32, if w.isKernThread then 1 else 0)]) :=
    writeAt_keeps _ addr (by simp [fieldOffsets])
  have k₁₃ := (k₁.trans k₂).trans (k₃.mono hfields)
  dsimp only
  by_cases hk : w.isKernThread = true
  · rw [if_pos hk] at k₁₃ ⊢
    rw [if_pos hk]
    exact k₁₃
  · rw [if_neg hk] at k₁₃ ⊢
    rw [if_neg hk]
    exact k₁₃.trans ((writeAt_keeps _ addr (by simp [fieldOffsets])).mono hfields)

theorem linkThreadMem_top (mem : UInt32 → UInt32) {cur addr : UInt32} (w : NewThread)
    (hcur : cur + 16 ≠ addr + 0) : linkThreadMem mem cur addr w (addr + 0) = w.top addr := by
  have h₁ := createTCBMem_top mem w.tid addr w.pageCounte
  unfold linkThreadMem NewThread.top
  generalize createTCBMem mem w.tid addr w.pageCounte = mem₁ at h₁
  have h₂ : writeAt mem₁ cur [(16, addr)] (addr + 0) = addr + w.pageCounte * pageSize := by
    rw [← h₁]
    exact Function.update_of_ne hcur.symm _ _
  generalize writeAt mem₁ cur [(16, addr)] = mem₂ at h₂
  have h₃ : ∀ v v', writeAt mem₂ addr [(16, v), (32, v')] (addr + 0) =
      addr + w.pageCounte * pageSize := by
    intro v v'
    rw [← h₂]
    simp [writeAt, writeAll]
  by_cases hk : w.isKernThread = true
  · rw [if_pos hk, if_pos hk, h₃]
  · rw [if_neg hk, if_neg hk, ← h₃ (mem₁ (cur + 16)) 0]
    generalize writeAt mem₂ addr _ = mem₃
    simp [writeAt, writeAll]

/-- What `create_thread` leaves in the memory. -/
structure Created (mem mem' : UInt32 → UInt32) (cur addr : UInt32) (w : NewThread) : Prop where
  stack : Dwords mem' (w.top addr - 4 - 4 - 4) [w.func, w.exit, w.args]
  eflags : (contextAt mem' (contextAddr addr)).eflags = 0x202
  esp : (contextAt mem' (contextAddr addr)).esp = w.top addr - 4 - 4 - 4
  keeps : KeepsOutside ((cur + 16) :: (fieldAddrs addr ++ (contextAddrs (contextAddr addr) ++
    [w.top addr - 4, w.top addr - 4 - 4, w.top addr - 4 - 4 - 4]))) mem mem'

theorem createThreadMem_spec (mem : UInt32 → UInt32) {cur addr : UInt32} {w : NewThread}
    (hcur : cur + 16 ≠ addr + 0) (hbehind : w.Behind addr) :
    Created mem (createThreadMem mem cur addr w) cur addr w := by
  have htop := linkThreadMem_top mem w hcur
  have hstack : ∀ x ∈ [w.top addr - 4, w.top addr - 4 - 4, w.top addr - 4 - 4 - 4],
      x ≠ addr + 0 := by
    intro x hx e
    exact (hbehind x hx).1 (by rw [e]; exact List.mem_cons_self)
  obtain ⟨mem', hmem', hwords, htop', hkeeps⟩ :=
    pushKernStack_three w.args w.exit w.func htop hstack
  have heq : createThreadMem mem cur addr w = writeAll mem' [(contextAddr addr + 24, 0x202),
      (contextAddr addr + 28, mem' (addr + 0))] := by
    rw [← hmem']
    rfl
  have hctx := writeAll_keeps mem' [(contextAddr addr + 24, 0x202),
    (contextAddr addr + 28, mem' (addr + 0))]
  have hlink := linkThreadMem_keeps mem cur addr w
  rw [heq]
  refine ⟨?_, ?_, ?_, ((hlink.append hkeeps).append hctx).mono ?_⟩
  · have hout : ∀ x ∈ [w.top addr - 4, w.top addr - 4 - 4, w.top addr - 4 - 4 - 4],
        x ∉ [contextAddr addr + 24, contextAddr addr + 28] := by
      intro x hx hmem
      refine (hbehind x hx).2 ?_
      rw [List.mem_pair] at hmem
      rcases hmem with rfl | rfl <;> simp [contextAddrs]
    refine hwords.congr fun k hk => hctx _ (hout _ ?_)
    have hk' : k = 0 ∨ k = 1 ∨ k = 2 := by
      have hk3 : k < 3 := hk
      omega
    rcases hk' with rfl | rfl | rfl
    · simp
    · simp
    · simp; grind
  · unfold contextAt writeAll
    simp
  · unfold contextAt writeAll
    simpa using htop'
  · have h0 : addr + 0 ∈ fieldAddrs addr := List.mem_cons_self
    have h24 : contextAddr addr + 24 ∈ contextAddrs (contextAddr addr) := by simp [contextAddrs]
    have h28 : contextAddr addr + 28 ∈ contextAddrs (contextAddr addr) := by simp [contextAddrs]
    intro x hx
    simp only [List.map_cons, List.map_nil, List.mem_append, List.mem_cons, List.not_mem_nil,
      or_false] at hx ⊢
    rcases hx with ((h | h) | h | h) | h | h
    · exact Or.inl h
    · exact Or.inr (Or.inl h)
    · exact Or.inr (Or.inl (h ▸ h0))
    · exact Or.inr (Or.inr (Or.inr h))
    · exact Or.inr (Or.inr (Or.inl (h ▸ h24)))
    · exact Or.inr (Or.inr (Or.inl (h ▸ h28)))

/-! ### The machine -/

/-- Where the threads have their control blocks and which dwords they own: their contexts and kernel
stacks, which no thread shares with another one. -/
structure Layout (ι : Type*) where
  tcb : ι → UInt32
  own : ι → Set UInt32
  context_own : ∀ i, ∀ x ∈ contextAddrs (contextAddr (tcb i)), x ∈ own i
  fields_shared : ∀ i j, ∀ x ∈ fieldAddrs (tcb i), x ∉ own j
  fields_apart : ∀ i j, i ≠ j → ∀ x ∈ fieldAddrs (tcb i), x ∉ fieldAddrs (tcb j)
  apart : ∀ i j, i ≠ j → ∀ x ∈ own i, x ∉ own j

/-- The context of a thread. -/
def Layout.ctx {ι : Type*} (L : Layout ι) (i : ι) : UInt32 := contextAddr (L.tcb i)

/-- The processor, the running thread and the threads that there are. -/
structure Machine (ι : Type*) where
  cpu : Cpu
  cur : ι
  threads : Set ι

/-- What happens: the running thread works, creates a thread, or switches to one. -/
inductive MachineEvent (ι : Type*)
  | work (c : Cpu)
  | create (k : ι) (w : NewThread)
  | switchTo (j : ι)

variable {ι : Type*} (L : Layout ι)

/-- The machine after an event. -/
def Machine.next (s : Machine ι) : MachineEvent ι → Machine ι
  | .work c => { s with cpu := c }
  | .create k w => { s with
      cpu := { s.cpu with mem := createThreadMem s.cpu.mem (L.tcb s.cur) (L.tcb k) w }
      threads := insert k s.threads }
  | .switchTo j => { s with cpu := performAll switchToCode s.cpu, cur := j }

/-- One step. -/
def Machine.step (e : MachineEvent ι) (s : Machine ι) : Option (Machine ι) := some (s.next L e)

/-- Dwords that a thread owns beside its context. -/
def Layout.Stack (i : ι) (l : List UInt32) : Prop :=
  ∀ x ∈ l, x ∈ L.own i ∧ x ∉ contextAddrs (L.ctx i)

/-- The running thread is at the first instruction of `switch_to`, with room for two dwords. -/
structure Machine.Calls (s : Machine ι) (j : ι) (ret : UInt32) : Prop where
  entry : AtSwitch s.cpu (L.ctx s.cur) (L.ctx j) ret
  stack : L.Stack s.cur [s.cpu.reg .esp - 4 - 4, s.cpu.reg .esp - 4, s.cpu.reg .esp]

/-- What the code of the threads is relied on for: the running thread leaves what the other ones
own, a thread is created once and with room on its stack, and `switch_to` is called for a thread
that there is. -/
def Machine.Allowed : MachineEvent ι → Machine ι → Prop
  | .work c, s => ∀ k ∈ s.threads, k ≠ s.cur → Set.EqOn c.mem s.cpu.mem (L.own k)
  | .create k w, s => k ∉ s.threads ∧ L.Stack k [w.top (L.tcb k) - 4, w.top (L.tcb k) - 4 - 4,
      w.top (L.tcb k) - 4 - 4 - 4, w.top (L.tcb k) - 4 - 4 - 4 - 4]
  | .switchTo j, s => j ∈ s.threads ∧ ∃ ret, s.Calls L j ret

/-- A thread that does not run has a dword below its stack pointer. -/
def Suspended (mem : UInt32 → UInt32) (k : ι) : Prop :=
  L.Stack k [(contextAt mem (L.ctx k)).esp - 4]

/-- The running thread is one of the threads, and the other ones are suspended. -/
structure Machine.Inv (s : Machine ι) : Prop where
  cur : s.cur ∈ s.threads
  suspended : ∀ k ∈ s.threads, k ≠ s.cur → Suspended L s.cpu.mem k

variable {L} {s t u : Machine ι} {k j : ι}

theorem Layout.context_eqOn {mem mem' : UInt32 → UInt32} (h : Set.EqOn mem' mem (L.own k)) :
    contextAt mem' (L.ctx k) = contextAt mem (L.ctx k) :=
  contextAt_congr fun x hx => h (L.context_own k x hx)

theorem Suspended.eqOn {mem mem' : UInt32 → UInt32} (hs : Suspended L mem k)
    (h : Set.EqOn mem' mem (L.own k)) : Suspended L mem' k := by
  unfold Suspended
  rw [Layout.context_eqOn h]
  exact hs

/-- Storing the context of the running thread leaves what the other ones own. -/
theorem saveContext_eqOn {ret : UInt32} (hc : s.Calls L j ret) (hk : k ≠ s.cur) :
    Set.EqOn (saveContext s.cpu (L.ctx s.cur)) s.cpu.mem (L.own k) := by
  intro x hx
  have hout : x ∉ L.own s.cur := L.apart k s.cur hk x hx
  refine saveContext_keeps s.cpu (L.ctx s.cur) x ?_
  simp only [List.mem_append, List.mem_cons, List.not_mem_nil, or_false, not_or]
  refine ⟨fun h => hout (L.context_own s.cur x h), ?_, ?_⟩
  · rintro rfl
    exact hout (hc.stack _ (by simp)).1
  · rintro rfl
    exact hout (hc.stack _ (by simp)).1

/-- The context of the running thread is stored. -/
theorem contextAt_saved {ret : UInt32} (hc : s.Calls L j ret) :
    contextAt (saveContext s.cpu (L.ctx s.cur)) (L.ctx s.cur) = contextOf s.cpu :=
  contextAt_saveContext s.cpu _ (hc.stack _ (by simp)).2 (hc.stack _ (by simp)).2

/-- The thread that is switched to has a dword below its stack pointer. -/
theorem Machine.Inv.target (hI : s.Inv L) {ret : UInt32} (hj : j ∈ s.threads)
    (hc : s.Calls L j ret) : Suspended L (saveContext s.cpu (L.ctx s.cur)) j := by
  by_cases hjc : j = s.cur
  · subst hjc
    unfold Suspended
    rw [contextAt_saved hc]
    intro x hx
    rw [List.mem_singleton] at hx
    subst hx
    exact hc.stack _ (by simp [contextOf])
  · exact (hI.suspended j hj hjc).eqOn (saveContext_eqOn hc hjc)

/-- `create_thread` has what it needs. -/
theorem Layout.created {w : NewThread} (hk : k ≠ s.cur)
    (hroom : L.Stack k [w.top (L.tcb k) - 4, w.top (L.tcb k) - 4 - 4,
      w.top (L.tcb k) - 4 - 4 - 4, w.top (L.tcb k) - 4 - 4 - 4 - 4]) :
    Created s.cpu.mem (createThreadMem s.cpu.mem (L.tcb s.cur) (L.tcb k) w) (L.tcb s.cur)
      (L.tcb k) w := by
  apply createThreadMem_spec
  · intro e
    have hcur : L.tcb s.cur + 16 ∈ fieldAddrs (L.tcb s.cur) := by simp [fieldAddrs, fieldOffsets]
    exact L.fields_apart s.cur k hk.symm _ hcur (by rw [e]; exact List.mem_cons_self)
  · intro x hx
    have hx' := hroom x (by simp only [List.mem_cons] at hx ⊢; tauto)
    exact ⟨fun h => L.fields_shared k k x h hx'.1, hx'.2⟩

/-- Creating a thread leaves what the other ones own. -/
theorem createThreadMem_eqOn {w : NewThread} (hk : k ≠ s.cur) (hj : j ≠ k)
    (hroom : L.Stack k [w.top (L.tcb k) - 4, w.top (L.tcb k) - 4 - 4,
      w.top (L.tcb k) - 4 - 4 - 4, w.top (L.tcb k) - 4 - 4 - 4 - 4]) :
    Set.EqOn (createThreadMem s.cpu.mem (L.tcb s.cur) (L.tcb k) w) s.cpu.mem (L.own j) := by
  intro x hx
  have hout : x ∉ L.own k := L.apart j k hj x hx
  have hcur : L.tcb s.cur + 16 ∈ fieldAddrs (L.tcb s.cur) := by simp [fieldAddrs, fieldOffsets]
  refine (Layout.created hk hroom).keeps x ?_
  simp only [List.mem_append, List.mem_cons, List.not_mem_nil, or_false, not_or]
  refine ⟨?_, fun h => L.fields_shared k j x h hx, fun h => hout (L.context_own k x h), ?_, ?_, ?_⟩
  · rintro rfl
    exact L.fields_shared s.cur j _ hcur hx
  · rintro rfl
    exact hout (hroom _ (by simp)).1
  · rintro rfl
    exact hout (hroom _ (by simp)).1
  · rintro rfl
    exact hout (hroom _ (by simp)).1

/-- Switching leaves what the threads own that it neither leaves nor enters, and of the one that
it leaves all but the context and two dwords. -/
theorem switchTo_eqOn (hI : s.Inv L) {ret : UInt32} (hj : j ∈ s.threads) (hc : s.Calls L j ret)
    (hk : k ≠ s.cur) (hkj : k ≠ j) :
    Set.EqOn (performAll switchToCode s.cpu).mem s.cpu.mem (L.own k) := by
  intro x hx
  rw [run_switchToCode hc.entry]
  have htarget := hI.target hj hc _ List.mem_cons_self
  have hne : x ≠ (contextAt (saveContext s.cpu (L.ctx s.cur)) (L.ctx j)).esp - 4 := by
    rintro rfl
    exact L.apart k j hkj _ hx htarget.1
  show Function.update (saveContext s.cpu (L.ctx s.cur)) _ _ x = _
  rw [Function.update_of_ne hne]
  exact saveContext_eqOn hc hk hx

/-- What a step leaves. -/
theorem step_eqOn {e : MachineEvent ι} (hI : s.Inv L) (ha : Machine.Allowed L e s)
    (hs : Machine.step L e s = some t) (hk : k ∈ s.threads) (hkc : k ≠ s.cur)
    (he : e ≠ .switchTo k) : Set.EqOn t.cpu.mem s.cpu.mem (L.own k) := by
  obtain rfl := Option.some.inj hs
  cases e with
  | work c => exact ha k hk hkc
  | create n w =>
      obtain ⟨hn, hroom⟩ := ha
      have hnc : n ≠ s.cur := by
        rintro rfl
        exact hn hI.cur
      have hkn : k ≠ n := by
        rintro rfl
        exact hn hk
      exact createThreadMem_eqOn hnc hkn hroom
  | switchTo j =>
      obtain ⟨hj, ret, hc⟩ := ha
      have hkj : k ≠ j := by
        rintro rfl
        exact he rfl
      exact switchTo_eqOn hI hj hc hkc hkj

/-- The thread that is left is suspended. -/
theorem suspended_left (hI : s.Inv L) {ret : UInt32} (hj : j ∈ s.threads) (hc : s.Calls L j ret)
    (hjc : s.cur ≠ j) :
    contextAt (performAll switchToCode s.cpu).mem (L.ctx s.cur) = contextOf s.cpu := by
  rw [run_switchToCode hc.entry, ← contextAt_saved hc]
  refine contextAt_congr fun x hx => Function.update_of_ne ?_ _ _
  rintro rfl
  exact L.apart s.cur j hjc _ (L.context_own s.cur _ hx)
    (hI.target hj hc _ List.mem_cons_self).1

theorem Machine.Inv.step {e : MachineEvent ι} (hI : s.Inv L) (ha : Machine.Allowed L e s)
    (hs : Machine.step L e s = some t) : t.Inv L := by
  have hkeep := fun k hk hkc he => step_eqOn (k := k) hI ha hs hk hkc he
  obtain rfl := Option.some.inj hs
  cases e with
  | work c =>
      exact ⟨hI.cur, fun k hk hkc =>
        (hI.suspended k hk hkc).eqOn (hkeep k hk hkc (by simp))⟩
  | create n w =>
      obtain ⟨hn, hroom⟩ := ha
      have hnc : n ≠ s.cur := by
        rintro rfl
        exact hn hI.cur
      refine ⟨Or.inr hI.cur, ?_⟩
      rintro k (rfl | hk) hkc
      · have hcreated := Layout.created hnc hroom
        unfold Suspended
        intro x hx
        rw [List.mem_singleton] at hx
        subst hx
        refine hroom _ ?_
        have hesp : (contextAt (s.next L (.create k w)).cpu.mem (L.ctx k)).esp = _ :=
          hcreated.esp
        rw [hesp]
        simp
      · exact (hI.suspended k hk hkc).eqOn (hkeep k hk hkc (by simp))
  | switchTo j =>
      obtain ⟨hj, ret, hc⟩ := ha
      refine ⟨hj, fun k hk hkj => ?_⟩
      by_cases hkc : k = s.cur
      · subst hkc
        unfold Suspended
        have hctx : contextAt (s.next L (.switchTo j)).cpu.mem (L.ctx s.cur) = _ :=
          suspended_left hI hj hc hkj
        rw [hctx]
        intro x hx
        rw [List.mem_singleton] at hx
        subst hx
        exact hc.stack _ (by simp [contextOf])
      · exact (hI.suspended k hk hkc).eqOn (hkeep k hk hkc fun e =>
          hkj (MachineEvent.switchTo.inj e).symm)

/-! ### The model of `threads.c` -/

/-- The contexts in the memory are those of the control blocks. -/
def Machine.Represents (L : Layout ι) (m : Machine ι) (c : Threads) : Prop :=
  ∀ i ∈ m.threads, contextAt m.cpu.mem (L.ctx i) = (c.tcb (L.tcb i)).context

theorem Layout.tcb_ne (L : Layout ι) {i j : ι} (h : i ≠ j) : L.tcb i ≠ L.tcb j := by
  intro e
  have hi : L.tcb i + 0 ∈ fieldAddrs (L.tcb i) := List.mem_cons_self
  exact L.fields_apart i j h _ hi (e ▸ hi)

/-- The code of `switch_to` does what the model says. -/
theorem Machine.Represents.switchTo {c : Threads} (hrep : s.Represents L c) (hI : s.Inv L)
    (hcpu : c.cpu = contextOf s.cpu) {ret : UInt32} (hj : j ∈ s.threads) (hc : s.Calls L j ret)
    (hjc : s.cur ≠ j) :
    (s.next L (.switchTo j)).Represents L (c.switchTo (L.tcb s.cur) (L.tcb j)) ∧
      (s.next L (.switchTo j)).cpu.reg = (c.switchTo (L.tcb s.cur) (L.tcb j)).cpu.regs
        (withLow8 (L.ctx j + 24) 0x20) ((c.switchTo (L.tcb s.cur) (L.tcb j)).cpu.esp + 4) ∧
      (s.next L (.switchTo j)).cpu.eflags =
        popfFlags (c.switchTo (L.tcb s.cur) (L.tcb j)).cpu.eflags := by
  have hloaded : contextAt (saveContext s.cpu (L.ctx s.cur)) (L.ctx j) =
      (c.tcb (L.tcb j)).context :=
    (Layout.context_eqOn (saveContext_eqOn hc hjc.symm)).trans (hrep j hj)
  have hcpu' : (c.switchTo (L.tcb s.cur) (L.tcb j)).cpu = (c.tcb (L.tcb j)).context := by
    show (Function.update c.tcb _ _ _).context = _
    rw [Function.update_of_ne (L.tcb_ne hjc.symm)]
  have hrun : (s.next L (.switchTo j)).cpu =
      resume { s.cpu with mem := saveContext s.cpu (L.ctx s.cur) } (L.ctx j) :=
    run_switchToCode hc.entry
  refine ⟨fun i hi => ?_, ?_, ?_⟩
  · show _ = (Function.update c.tcb _ _ _).context
    by_cases his : i = s.cur
    · subst his
      rw [Function.update_self]
      exact (suspended_left hI hj hc hjc).trans hcpu.symm
    · rw [Function.update_of_ne (L.tcb_ne his), ← hrep i hi]
      refine contextAt_congr fun x hx => ?_
      have hxo : x ∈ L.own i := L.context_own i x hx
      rw [hrun]
      refine (Function.update_of_ne ?_ _ _).trans (saveContext_eqOn hc his hxo)
      rintro rfl
      have htarget := hI.target hj hc _ List.mem_cons_self
      by_cases hij : i = j
      · subst hij
        exact htarget.2 hx
      · exact L.apart i j hij _ hxo htarget.1
  · rw [hrun, hcpu', ← hloaded]
    rfl
  · rw [hrun, hcpu', ← hloaded]
    rfl

theorem Threads.insertTcb_context {c : Threads} {a b : UInt32} {new : Tcb} (h : a ≠ b) :
    ((c.insertTcb b new).tcb a).context = (c.tcb a).context := by
  rw [Threads.insertTcb, Threads.modify_of_ne h]
  by_cases hc : a = c.curTcb
  · rw [hc, Threads.modify_self]
  · rw [Threads.modify_of_ne hc]

/-- So does that of `create_thread`, for the flags and the stack pointer of the new thread and the
contexts of the other ones. -/
theorem Machine.Represents.create {c : Threads} {w : NewThread} (hrep : s.Represents L c)
    (hI : s.Inv L) (hcur : c.curTcb = L.tcb s.cur) (hk : k ∉ s.threads)
    (hroom : L.Stack k [w.top (L.tcb k) - 4, w.top (L.tcb k) - 4 - 4,
      w.top (L.tcb k) - 4 - 4 - 4, w.top (L.tcb k) - 4 - 4 - 4 - 4]) :
    ∃ c', c.createThread w.tid (L.tcb k) w.pageCounte w.isKernThread w.userVmmPool w.pdtVaddr = c' ∧
      (∀ i ∈ s.threads, contextAt (s.next L (.create k w)).cpu.mem (L.ctx i) =
        (c'.tcb (L.tcb i)).context) ∧
      (contextAt (s.next L (.create k w)).cpu.mem (L.ctx k)).eflags =
        (c'.tcb (L.tcb k)).context.eflags ∧
      (contextAt (s.next L (.create k w)).cpu.mem (L.ctx k)).esp =
        (c'.tcb (L.tcb k)).context.esp := by
  have hkc : k ≠ s.cur := by
    rintro rfl
    exact hk hI.cur
  have hne : L.tcb k ≠ c.curTcb := by
    rw [hcur]
    exact L.tcb_ne hkc
  obtain ⟨r, hr⟩ := c.createThread_eq w.tid w.pageCounte w.pdtVaddr w.isKernThread w.userVmmPool hne
  have hcreated := Layout.created hkc hroom
  refine ⟨_, rfl, fun i hi => ?_, ?_, ?_⟩
  · have hik : i ≠ k := by
      rintro rfl
      exact hk hi
    have hmem : contextAt (s.next L (.create k w)).cpu.mem (L.ctx i) = _ :=
      Layout.context_eqOn (createThreadMem_eqOn hkc hik hroom)
    rw [hmem, hr, hrep i hi]
    exact (Threads.insertTcb_context (L.tcb_ne hik)).symm
  · rw [hr]
    refine hcreated.eflags.trans ?_
    simp [Threads.insertTcb, Threads.newTcb]
  · rw [hr]
    refine hcreated.esp.trans ?_
    simp [Threads.insertTcb, Threads.newTcb, NewThread.top]

/-- The running thread calls `switch_to`: the arguments and the return address are pushed. -/
def callSwitch (L : Layout ι) (s : Machine ι) (j : ι) (ret : UInt32) : Cpu :=
  ((s.cpu.push (L.ctx j)).push (L.ctx s.cur)).push ret

theorem callSwitch_keeps (s : Machine ι) (j : ι) (ret : UInt32) :
    KeepsOutside [s.cpu.reg .esp - 4, s.cpu.reg .esp - 4 - 4, s.cpu.reg .esp - 4 - 4 - 4]
      s.cpu.mem (callSwitch L s j ret).mem :=
  ((keepsOutside_update s.cpu.mem _ (L.ctx j)).append (keepsOutside_update _ _ (L.ctx s.cur))).append
    (keepsOutside_update _ _ ret)

/-- It may do so with room for five dwords. -/
theorem calls_callSwitch (ret : UInt32)
    (hroom : L.Stack s.cur [s.cpu.reg .esp - 4, s.cpu.reg .esp - 4 - 4,
      s.cpu.reg .esp - 4 - 4 - 4, s.cpu.reg .esp - 4 - 4 - 4 - 4,
      s.cpu.reg .esp - 4 - 4 - 4 - 4 - 4]) :
    Machine.Allowed L (.work (callSwitch L s j ret)) s ∧
      (s.next L (.work (callSwitch L s j ret))).Calls L j ret := by
  constructor
  · intro k _ hkc x hx
    refine callSwitch_keeps s j ret x fun hmem => ?_
    have hown := hroom x (by simp only [List.mem_cons] at hmem ⊢; tauto)
    exact L.apart k s.cur hkc x hx hown.1
  · have hnil : Stacked s.cpu [] := trivial
    have hstack := ((hnil.push (L.ctx j) (by simp)).push (L.ctx s.cur) (by simp)).push ret
      (by simp)
    have harg : s.cpu.reg .esp - 4 - 4 - 4 + 4 + 4 = s.cpu.reg .esp - 4 := by grind
    refine ⟨⟨hstack, ?_⟩, ?_⟩
    · intro x hx
      refine (hroom x ?_).2
      have hx' : x ∈ [s.cpu.reg .esp - 4 - 4 - 4 - 4 - 4, s.cpu.reg .esp - 4 - 4 - 4 - 4,
        s.cpu.reg .esp - 4 - 4 - 4, s.cpu.reg .esp - 4 - 4 - 4 + 4 + 4] := hx
      rw [harg] at hx'
      simp only [List.mem_cons, List.not_mem_nil, or_false] at hx' ⊢
      tauto
    · intro x hx
      refine hroom x ?_
      have hx' : x ∈ [s.cpu.reg .esp - 4 - 4 - 4 - 4 - 4, s.cpu.reg .esp - 4 - 4 - 4 - 4,
        s.cpu.reg .esp - 4 - 4 - 4] := hx
      simp only [List.mem_cons, List.not_mem_nil, or_false] at hx' ⊢
      tauto

/-! ### Threads in pages -/

theorem mem_fieldAddrs {tcb x : UInt32} (ha : tcb.toNat % 4096 = 0) (hx : x ∈ fieldAddrs tcb) :
    x.toNat / 4096 = tcb.toNat / 4096 ∧ (x.toNat % 4096 < 52 ∨ x.toNat % 4096 = 84) := by
  unfold fieldAddrs fieldOffsets at hx
  simp only [List.map_cons, List.map_nil, List.mem_cons, List.not_mem_nil, or_false] at hx
  have hlt := tcb.toNat_lt
  rcases hx with h | h | h | h | h | h | h | h | h | h | h | h | h | h
  all_goals
    have e := congrArg UInt32.toNat h
    simp only [UInt32.toNat_add, UInt32.reduceToNat] at e
    omega

theorem mem_contextAddrs {tcb x : UInt32} (ha : tcb.toNat % 4096 = 0)
    (hx : x ∈ contextAddrs (contextAddr tcb)) :
    x.toNat / 4096 = tcb.toNat / 4096 ∧ 52 ≤ x.toNat % 4096 ∧ x.toNat % 4096 < 84 := by
  unfold contextAddrs contextAddr at hx
  simp only [List.mem_cons, List.not_mem_nil, or_false] at hx
  have hlt := tcb.toNat_lt
  rcases hx with h | h | h | h | h | h | h | h
  all_goals
    have e := congrArg UInt32.toNat h
    simp only [UInt32.toNat_add, UInt32.reduceToNat] at e
    omega

/-- The threads of `create_kern_thread`: each has a page for its control block and its stack. -/
def pageLayout (tcb : ι → UInt32) (haligned : ∀ i, (tcb i).toNat % 4096 = 0)
    (hinj : Function.Injective tcb) : Layout ι where
  tcb := tcb
  own i := {x | x.toNat / 4096 = (tcb i).toNat / 4096 ∧ x ∉ fieldAddrs (tcb i)}
  context_own i x hx := by
    obtain ⟨hpage, h₁, h₂⟩ := mem_contextAddrs (haligned i) hx
    refine ⟨hpage, fun hf => ?_⟩
    have hf' := (mem_fieldAddrs (haligned i) hf).2
    omega
  fields_shared i j x hx := by
    rintro ⟨hpage, hf⟩
    have hi := (mem_fieldAddrs (haligned i) hx).1
    have hij : tcb i = tcb j := by
      apply UInt32.toNat_inj.mp
      have h₁ := haligned i
      have h₂ := haligned j
      omega
    rw [← hinj hij] at hf
    exact hf hx
  fields_apart i j hij x hx hx' := by
    have hi := (mem_fieldAddrs (haligned i) hx).1
    have hj := (mem_fieldAddrs (haligned j) hx').1
    refine hij (hinj (UInt32.toNat_inj.mp ?_))
    have h₁ := haligned i
    have h₂ := haligned j
    omega
  apart i j hij x hx hx' := by
    refine hij (hinj (UInt32.toNat_inj.mp ?_))
    have h₁ := haligned i
    have h₂ := haligned j
    have h₃ := hx.1
    have h₄ := hx'.1
    omega

/-- The page behind the control block is the stack. -/
theorem pageLayout_stack {tcb : ι → UInt32} {haligned : ∀ i, (tcb i).toNat % 4096 = 0}
    {hinj : Function.Injective tcb} {i : ι} {l : List UInt32}
    (h : l.all (fun x => x.toNat / 4096 = (tcb i).toNat / 4096 ∧ 88 ≤ x.toNat % 4096) = true) :
    (pageLayout tcb haligned hinj).Stack i l := by
  intro x hx
  obtain ⟨hpage, hoff⟩ := of_decide_eq_true (List.all_eq_true.mp h x hx)
  refine ⟨⟨hpage, fun hf => ?_⟩, fun hc => ?_⟩
  · have hf' := (mem_fieldAddrs (haligned i) hf).2
    omega
  · have hc' := (mem_contextAddrs (haligned i) hc).2
    omega

end BHOS
