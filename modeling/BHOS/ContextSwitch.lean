import BHOS.Threads
import BHOS.Lib.X86Ops

/-! # Context switch (`threads_asm.s`)

`switch_to` stores the registers of the running thread in its context, takes those of the other
thread from the context of that one, signals the end of the interrupt to both controllers and
returns on the stack of the other thread.

`switchTo_spec` says what it does from its first instruction on. -/

namespace BHOS

open X86

/-- `switch_to`. -/
def switchToCode : List Op :=
  [.instr (.load .eax .esp 4),
    .store .eax 0 .ebp,
    .store .eax 4 .ebx,
    .store .eax 8 .ecx,
    .store .eax 12 .edx,
    .store .eax 16 .esi,
    .store .eax 20 .edi,
    .store .eax 28 .esp,
    .instr (.push .ebx),
    .instr (.mov .ebx .eax),
    .pushf,
    .instr (.pop .eax),
    .store .ebx 24 .eax,
    .instr (.mov .eax .ebx),
    .instr (.pop .ebx),
    .instr (.load .eax .esp 8),
    .instr (.load .esp .eax 28),
    .instr (.load .ebp .eax 0),
    .instr (.load .ebx .eax 4),
    .instr (.load .ecx .eax 8),
    .instr (.load .edx .eax 12),
    .instr (.load .esi .eax 16),
    .instr (.load .edi .eax 20),
    .instr (.addImm .eax 24),
    .pushMem .eax,
    .popf,
    .instr (.movImm8 .eax 0x20),
    .instr (.out 0xA0),
    .instr (.out 0x20),
    .ret]

/-! ### Contexts in memory -/

/-- The addresses of the dwords of a context. -/
def contextAddrs (a : UInt32) : List UInt32 :=
  [a + 0, a + 4, a + 8, a + 12, a + 16, a + 20, a + 24, a + 28]

/-- The context at an address. -/
def contextAt (mem : UInt32 → UInt32) (a : UInt32) : Context where
  ebp := mem (a + 0)
  ebx := mem (a + 4)
  ecx := mem (a + 8)
  edx := mem (a + 12)
  esi := mem (a + 16)
  edi := mem (a + 20)
  eflags := mem (a + 24)
  esp := mem (a + 28)

/-- The context of the running thread. -/
def contextOf (c : Cpu) : Context where
  ebp := c.reg .ebp
  ebx := c.reg .ebx
  ecx := c.reg .ecx
  edx := c.reg .edx
  esi := c.reg .esi
  edi := c.reg .edi
  eflags := pushfImage c.eflags
  esp := c.reg .esp

theorem contextAt_congr {mem mem' : UInt32 → UInt32} {a : UInt32}
    (h : ∀ x ∈ contextAddrs a, mem' x = mem x) : contextAt mem' a = contextAt mem a := by
  simp only [contextAddrs, List.forall_mem_cons, List.not_mem_nil, IsEmpty.forall_iff,
    implies_true, and_true] at h
  obtain ⟨h₀, h₁, h₂, h₃, h₄, h₅, h₆, h₇⟩ := h
  unfold contextAt
  rw [h₀, h₁, h₂, h₃, h₄, h₅, h₆, h₇]

/-! ### Saving -/

/-- The stack at the first instruction of `switch_to`, with the return address and the two
arguments; the context of the running thread lies neither there nor in the two dwords below. -/
structure AtSwitch (c : Cpu) (now next ret : UInt32) : Prop where
  stack : Stacked c [ret, now, next]
  apart : ∀ x ∈ [c.reg .esp - 4 - 4, c.reg .esp - 4, c.reg .esp, c.reg .esp + 4 + 4],
    x ∉ contextAddrs now

/-- Storing seven registers. -/
def storeRegs : List Op :=
  [.instr (.load .eax .esp 4),
    .store .eax 0 .ebp,
    .store .eax 4 .ebx,
    .store .eax 8 .ecx,
    .store .eax 12 .edx,
    .store .eax 16 .esi,
    .store .eax 20 .edi,
    .store .eax 28 .esp]

/-- Storing the flags. -/
def storeFlags : List Op :=
  [.instr (.push .ebx),
    .instr (.mov .ebx .eax),
    .pushf,
    .instr (.pop .eax),
    .store .ebx 24 .eax,
    .instr (.mov .eax .ebx),
    .instr (.pop .ebx)]

/-- Loading the registers. -/
def loadRegs : List Op :=
  [.instr (.load .eax .esp 8),
    .instr (.load .esp .eax 28),
    .instr (.load .ebp .eax 0),
    .instr (.load .ebx .eax 4),
    .instr (.load .ecx .eax 8),
    .instr (.load .edx .eax 12),
    .instr (.load .esi .eax 16),
    .instr (.load .edi .eax 20)]

/-- Loading the flags, the end of the interrupt and the return. -/
def loadFlags : List Op :=
  [.instr (.addImm .eax 24),
    .pushMem .eax,
    .popf,
    .instr (.movImm8 .eax 0x20),
    .instr (.out 0xA0),
    .instr (.out 0x20),
    .ret]

theorem switchToCode_eq :
    switchToCode = storeRegs ++ (storeFlags ++ (loadRegs ++ loadFlags)) := rfl

/-- The memory with the registers but for the flags stored. -/
def storedRegs (c : Cpu) (a : UInt32) : UInt32 → UInt32 :=
  Function.update (Function.update (Function.update (Function.update (Function.update
    (Function.update (Function.update c.mem (a + 0) (c.reg .ebp)) (a + 4) (c.reg .ebx))
    (a + 8) (c.reg .ecx)) (a + 12) (c.reg .edx)) (a + 16) (c.reg .esi)) (a + 20) (c.reg .edi))
    (a + 28) (c.reg .esp)

/-- The memory with the flags stored, and with what was pushed meanwhile. -/
def storedFlags (c : Cpu) (a : UInt32) : UInt32 → UInt32 :=
  Function.update (Function.update (Function.update c.mem (c.reg .esp - 4) (c.reg .ebx))
    (c.reg .esp - 4 - 4) (pushfImage c.eflags)) (a + 24) (pushfImage c.eflags)

theorem run_storeRegs (c : Cpu) : performAll storeRegs c =
    { c.setReg .eax (c.mem (c.reg .esp + 4)) with mem := storedRegs c (c.mem (c.reg .esp + 4)) } :=
  rfl

theorem run_storeFlags (c : Cpu) (hne : c.reg .esp - 4 ≠ c.reg .eax + 24) :
    performAll storeFlags c = { c with mem := storedFlags c (c.reg .eax) } := by
  have hpop : Function.update (Function.update c.mem (c.reg .esp - 4) (c.reg .ebx))
      (c.reg .esp - 4 - 4) (pushfImage c.eflags) (c.reg .esp - 4 - 4) = pushfImage c.eflags :=
    Function.update_self _ _ _
  have hback : c.reg .esp - 4 - 4 + 4 = c.reg .esp - 4 := UInt32.sub_add_cancel _ _
  have hne' : c.reg .esp - 4 ≠ c.reg .esp - 4 - 4 := by grind
  ext1
  · funext r
    cases r with
    | ebx =>
        show Function.update (Function.update (Function.update c.mem (c.reg .esp - 4)
          (c.reg .ebx)) (c.reg .esp - 4 - 4) (pushfImage c.eflags)) (c.reg .eax + 24)
          (Function.update (Function.update c.mem (c.reg .esp - 4) (c.reg .ebx))
            (c.reg .esp - 4 - 4) (pushfImage c.eflags) (c.reg .esp - 4 - 4))
          (c.reg .esp - 4 - 4 + 4) = c.reg .ebx
        rw [hback, Function.update_of_ne hne, Function.update_of_ne hne', Function.update_self]
    | esp =>
        show c.reg .esp - 4 - 4 + 4 + 4 = c.reg .esp
        rw [hback, UInt32.sub_add_cancel]
    | _ => rfl
  · rfl
  · rfl
  · rfl
  · exact congrArg (Function.update _ (c.reg .eax + 24)) hpop
  · rfl

/-- The memory with the whole context stored. -/
def saveContext (c : Cpu) (a : UInt32) : UInt32 → UInt32 :=
  storedFlags { c with mem := storedRegs c a } a

theorem storedRegs_keeps (c : Cpu) (a : UInt32) :
    KeepsOutside (contextAddrs a) c.mem (storedRegs c a) := by
  intro x hx
  simp only [contextAddrs, List.mem_cons, List.not_mem_nil, or_false, not_or] at hx
  obtain ⟨h₀, h₁, h₂, h₃, h₄, h₅, -, h₇⟩ := hx
  unfold storedRegs
  rw [Function.update_of_ne h₇, Function.update_of_ne h₅, Function.update_of_ne h₄,
    Function.update_of_ne h₃, Function.update_of_ne h₂, Function.update_of_ne h₁,
    Function.update_of_ne h₀]

/-- The context is stored, with two dwords below the stack pointer. -/
theorem saveContext_keeps (c : Cpu) (a : UInt32) :
    KeepsOutside (contextAddrs a ++ [c.reg .esp - 4, c.reg .esp - 4 - 4]) c.mem
      (saveContext c a) := by
  intro x hx
  simp only [List.mem_append, List.mem_cons, List.not_mem_nil, or_false, not_or] at hx
  obtain ⟨hctx, h₁, h₂⟩ := hx
  have h24 : x ≠ a + 24 := fun e => hctx (by rw [e]; simp [contextAddrs])
  unfold saveContext storedFlags
  rw [Function.update_of_ne h24, Function.update_of_ne h₂, Function.update_of_ne h₁]
  exact storedRegs_keeps c a x hctx

theorem contextAt_storedRegs (c : Cpu) (a : UInt32) :
    contextAt (storedRegs c a) a = { contextOf c with eflags := c.mem (a + 24) } := by
  unfold contextAt storedRegs contextOf
  simp

theorem contextAt_update_eflags (mem : UInt32 → UInt32) (a v : UInt32) :
    contextAt (Function.update mem (a + 24) v) a = { contextAt mem a with eflags := v } := by
  unfold contextAt
  simp

theorem contextAt_saveContext (c : Cpu) (a : UInt32) (h₁ : c.reg .esp - 4 ∉ contextAddrs a)
    (h₂ : c.reg .esp - 4 - 4 ∉ contextAddrs a) :
    contextAt (saveContext c a) a = contextOf c := by
  have hpushed : ∀ x ∈ contextAddrs a, Function.update (Function.update (storedRegs c a)
      (c.reg .esp - 4) (c.reg .ebx)) (c.reg .esp - 4 - 4) (pushfImage c.eflags) x =
        storedRegs c a x := by
    intro x hx
    have hx₁ : x ≠ c.reg .esp - 4 := fun e => h₁ (e ▸ hx)
    have hx₂ : x ≠ c.reg .esp - 4 - 4 := fun e => h₂ (e ▸ hx)
    rw [Function.update_of_ne hx₂, Function.update_of_ne hx₁]
  unfold saveContext storedFlags
  rw [contextAt_update_eflags]
  dsimp only
  rw [contextAt_congr hpushed, contextAt_storedRegs]
  rfl

/-- The registers of a context, with the given `eax` and stack pointer. -/
def Context.regs (k : Context) (eax esp : UInt32) : Reg → UInt32
  | .eax => eax
  | .ecx => k.ecx
  | .edx => k.edx
  | .ebx => k.ebx
  | .esp => esp
  | .ebp => k.ebp
  | .esi => k.esi
  | .edi => k.edi

/-- The processor in a thread that it goes on with. -/
def resume (c : Cpu) (next : UInt32) : Cpu where
  reg := (contextAt c.mem next).regs (withLow8 (next + 24) 0x20) ((contextAt c.mem next).esp + 4)
  seg := c.seg
  eip := c.mem (contextAt c.mem next).esp
  eflags := popfFlags (contextAt c.mem next).eflags
  mem := Function.update c.mem ((contextAt c.mem next).esp - 4) (contextAt c.mem next).eflags
  ports := (0x20, 0x20) :: (0xA0, 0x20) :: c.ports

theorem run_loadRegs (c : Cpu) : performAll loadRegs c = { c with
    reg := (contextAt c.mem (c.mem (c.reg .esp + 8))).regs (c.mem (c.reg .esp + 8))
      (contextAt c.mem (c.mem (c.reg .esp + 8))).esp } := by
  ext1
  · funext r
    cases r <;> rfl
  all_goals rfl

theorem run_loadFlags (c : Cpu) : performAll loadFlags c = { c with
    reg := Function.update (Function.update c.reg .eax (withLow8 (c.reg .eax + 24) 0x20)) .esp
      (c.reg .esp + 4)
    eip := c.mem (c.reg .esp)
    eflags := popfFlags (c.mem (c.reg .eax + 24))
    mem := Function.update c.mem (c.reg .esp - 4) (c.mem (c.reg .eax + 24))
    ports := (0x20, 0x20) :: (0xA0, 0x20) :: c.ports } := by
  have hback : c.reg .esp - 4 + 4 = c.reg .esp := UInt32.sub_add_cancel _ _
  have hne : c.reg .esp ≠ c.reg .esp - 4 := by grind
  have htop : Function.update c.mem (c.reg .esp - 4) (c.mem (c.reg .eax + 24))
      (c.reg .esp - 4) = c.mem (c.reg .eax + 24) := Function.update_self _ _ _
  ext1
  · funext r
    cases r with
    | esp => exact congrArg (· + 4) hback
    | _ => rfl
  · rfl
  · show Function.update c.mem (c.reg .esp - 4) (c.mem (c.reg .eax + 24))
      (c.reg .esp - 4 + 4) = c.mem (c.reg .esp)
    rw [hback, Function.update_of_ne hne]
  · exact congrArg popfFlags htop
  · rfl
  · show (0x20, (withLow8 _ 0x20).toUInt8) :: (0xA0, (withLow8 _ 0x20).toUInt8) :: c.ports = _
    rw [withLow8_toUInt8]

/-- `switch_to` stores the context of the running thread and resumes the other one. -/
theorem run_switchToCode {c : Cpu} {now next ret : UInt32} (h : AtSwitch c now next ret) :
    performAll switchToCode c = resume { c with mem := saveContext c now } next := by
  obtain ⟨-, hnow, hnext, -⟩ := h.stack
  have hb := h.apart
  simp only [List.forall_mem_cons, List.not_mem_nil, IsEmpty.forall_iff, implies_true,
    and_true] at hb
  obtain ⟨h₈, h₄, -, harg⟩ := hb
  have hne : c.reg .esp - 4 ≠ now + 24 := by
    intro e
    rw [e] at h₄
    exact h₄ (by simp [contextAddrs])
  have hstored : performAll storeFlags (performAll storeRegs c) =
      { c.setReg .eax now with mem := saveContext c now } := by
    rw [run_storeRegs, hnow, run_storeFlags]
    · rfl
    · exact hne
  have hkept : saveContext c now (c.reg .esp + 8) = next := by
    have e8 : c.reg .esp + 8 = c.reg .esp + 4 + 4 := by grind
    rw [e8, saveContext_keeps c now, hnext]
    simp only [List.mem_append, List.mem_cons, List.not_mem_nil, or_false, not_or]
    exact ⟨harg, by grind, by grind⟩
  rw [switchToCode_eq, performAll_append, performAll_append, performAll_append, hstored,
    run_loadRegs, run_loadFlags]
  dsimp only [Cpu.setReg]
  rw [Function.update_of_ne (by decide), hkept]
  ext1
  · funext r
    cases r <;> rfl
  all_goals rfl

end BHOS
