import Mathlib.Algebra.Order.Group.Nat
import Mathlib.Logic.Function.Basic

/-! # A part of the 32-bit x86 processor

Segment descriptors, and the registers with the stack as far as interrupts use them.  The memory
has a dword at every address; code that accesses dwords a multiple of four bytes apart sees no
others.  Loads of selectors and `iret` have the effect that they have where they do not fault; the
checks are added in `X86.execChecked` and `Cpu.iretChecked`.  The arithmetic flags are not followed:
an interrupt saves the flags and its return loads them.

`Dwords` says which dwords stand from an address on, and `Stacked` those from the stack pointer on:
a push puts a dword in front (`Stacked.push`) and a pop takes it away. -/

namespace X86

/-! ### Segment descriptors -/

/-- The number with the given bytes, the lowest one first. -/
def littleEndian (bytes : List UInt8) : ℕ := bytes.foldr (fun b v => b.toNat + 256 * v) 0

/-- A field of a number: `width` bits from bit `low` on. -/
def field (v low width : ℕ) : ℕ := v / 2 ^ low % 2 ^ width

/-- The fields of a segment descriptor. -/
structure Descriptor where
  limit20 : ℕ
  base : ℕ
  type : ℕ
  s : ℕ
  dpl : ℕ
  p : ℕ
  g : ℕ
deriving DecidableEq, Repr

/-- The descriptor in eight bytes. -/
def Descriptor.decode (bytes : List UInt8) : Descriptor :=
  let v := littleEndian bytes
  { limit20 := field v 0 16 + 2 ^ 16 * field v 48 4
    base := field v 16 16 + 2 ^ 16 * field v 32 8 + 2 ^ 24 * field v 56 8
    type := field v 40 4
    s := field v 44 1
    dpl := field v 45 2
    p := field v 47 1
    g := field v 55 1 }

/-- The last offset of the segment. -/
def Descriptor.limit (d : Descriptor) : ℕ :=
  if d.g = 1 then d.limit20 * 4096 + 4095 else d.limit20

/-- A present and available 32-bit TSS of level 0. -/
def Descriptor.IsTss (d : Descriptor) : Prop := d.p = 1 ∧ d.s = 0 ∧ d.type = 9 ∧ d.dpl = 0

/-- The offset of the I/O permission bitmap in a task state segment, the upper half of dword 25. -/
def ioMapBase (tss : List UInt32) : ℕ := field (tss.getD 25 0).toNat 16 16

/-! ### Registers and instructions -/

/-- The general registers. -/
inductive Reg
  | eax | ecx | edx | ebx | esp | ebp | esi | edi
deriving DecidableEq, Repr

/-- The segment registers. -/
inductive SReg
  | es | cs | ss | ds | fs | gs
deriving DecidableEq, Repr

/-- The state of the processor and of the memory, with what was written to ports, the last one
first. -/
@[ext] structure Cpu where
  reg : Reg → UInt32
  seg : SReg → UInt16
  eip : UInt32
  eflags : UInt32
  mem : UInt32 → UInt32
  ports : List (UInt8 × UInt8)

/-- The instructions; a register in a 16-bit or 8-bit one stands for its low part. -/
inductive Instr
  | nop
  | pushImm (v : UInt32)
  | push (r : Reg)
  | pop (r : Reg)
  | pushad
  | popad
  | mov (d s : Reg)
  | load (d base : Reg) (disp : UInt32)
  | movFromSeg (d : Reg) (s : SReg)
  | movToSeg (d : SReg) (s : Reg)
  | movImm16 (d : Reg) (v : UInt16)
  | movImm8 (d : Reg) (v : UInt8)
  | andImm (d : Reg) (v : UInt32)
  | addImm (d : Reg) (v : UInt32)
  | out (port : UInt8)
deriving DecidableEq

namespace Cpu

variable (c : Cpu)

/-- Writing a general register. -/
def setReg (r : Reg) (v : UInt32) : Cpu := { c with reg := Function.update c.reg r v }

/-- Writing a segment register. -/
def setSeg (s : SReg) (v : UInt16) : Cpu := { c with seg := Function.update c.seg s v }

/-- Pushing a dword. -/
def push (v : UInt32) : Cpu :=
  let a := c.reg .esp - 4
  { c with reg := Function.update c.reg .esp a
           mem := Function.update c.mem a v }

/-- Popping a dword to a register. -/
def pop (r : Reg) : Cpu := (c.setReg .esp (c.reg .esp + 4)).setReg r (c.mem (c.reg .esp))

/-- Popping a dword to nowhere. -/
def drop : Cpu := c.setReg .esp (c.reg .esp + 4)

end Cpu

@[simp] theorem Cpu.reg_setReg (c : Cpu) (r : Reg) (v : UInt32) : (c.setReg r v).reg r = v :=
  Function.update_self _ _ _

@[simp] theorem Cpu.setReg_setReg (c : Cpu) (r : Reg) (v w : UInt32) :
    (c.setReg r v).setReg r w = c.setReg r w := by
  unfold Cpu.setReg
  dsimp only
  rw [Function.update_idem]

/-- A register whose low 16 bits are replaced. -/
def withLow16 (v : UInt32) (w : UInt16) : UInt32 := (v &&& 0xFFFF0000) ||| w.toUInt32

/-- A register whose low 8 bits are replaced. -/
def withLow8 (v : UInt32) (b : UInt8) : UInt32 := (v &&& 0xFFFFFF00) ||| b.toUInt32

/-- The effect of an instruction. -/
def exec : Instr → Cpu → Cpu
  | .nop, c => c
  | .pushImm v, c => c.push v
  | .push r, c => c.push (c.reg r)
  | .pop r, c => c.pop r
  | .pushad, c =>
      (((((((c.push (c.reg .eax)).push (c.reg .ecx)).push (c.reg .edx)).push (c.reg .ebx)).push
        (c.reg .esp)).push (c.reg .ebp)).push (c.reg .esi)).push (c.reg .edi)
  | .popad, c =>
      (((((((c.pop .edi).pop .esi).pop .ebp).drop).pop .ebx).pop .edx).pop .ecx).pop .eax
  | .mov d s, c => c.setReg d (c.reg s)
  | .load d base disp, c => c.setReg d (c.mem (c.reg base + disp))
  | .movFromSeg d s, c => c.setReg d (withLow16 (c.reg d) (c.seg s))
  | .movToSeg d s, c => c.setSeg d (c.reg s).toUInt16
  | .movImm16 d v, c => c.setReg d (withLow16 (c.reg d) v)
  | .movImm8 d v, c => c.setReg d (withLow8 (c.reg d) v)
  | .andImm d v, c => c.setReg d (c.reg d &&& v)
  | .addImm d v, c => c.setReg d (c.reg d + v)
  | .out port, c => { c with ports := (port, (c.reg .eax).toUInt8) :: c.ports }

/-- Instructions one after the other. -/
def run (code : List Instr) (c : Cpu) : Cpu := code.foldl (fun c i => exec i c) c

theorem withLow16_and (v : UInt32) (w : UInt16) : withLow16 v w &&& 0xFFFF = w.toUInt32 := by
  have hhigh : v &&& 0xFFFF0000 &&& 0xFFFF = 0 := by
    rw [UInt32.and_assoc]
    exact UInt32.and_zero
  apply UInt32.toNat_inj.mp
  unfold withLow16
  rw [UInt32.toNat_and, UInt32.toNat_or, Nat.and_or_distrib_right, ← UInt32.toNat_and, hhigh]
  show 0 ||| w.toNat &&& 65535 = w.toNat
  rw [Nat.zero_or]
  exact (Nat.and_two_pow_sub_one_eq_mod _ 16).trans (Nat.mod_eq_of_lt w.toNat_lt)

theorem withLow16_toUInt16 (v : UInt32) (w : UInt16) : (withLow16 v w).toUInt16 = w := by
  have hhigh : (0xFFFF0000 : UInt32).toUInt16 = 0 := by decide
  unfold withLow16
  rw [UInt32.toUInt16_or, UInt32.toUInt16_and, hhigh, UInt16.and_zero, UInt16.zero_or,
    UInt16.toUInt16_toUInt32]

theorem run_append (code₁ code₂ : List Instr) (c : Cpu) :
    run (code₁ ++ code₂) c = run code₂ (run code₁ c) := List.foldl_append

/-! ### Interrupts -/

/-- The privilege level in a selector. -/
def level (selector : UInt16) : ℕ := selector.toNat % 4

/-- The vectors for which the processor pushes an error code. -/
def PushesErrorCode (vector : ℕ) : Prop := vector ∈ [8, 10, 11, 12, 13, 14, 17]

instance (vector : ℕ) : Decidable (PushesErrorCode vector) :=
  inferInstanceAs (Decidable (vector ∈ _))

/-- What an interrupt takes from its gate and from the task state segment. -/
structure Gate where
  cs : UInt16
  eip : UInt32
  ss0 : UInt16
  esp0 : UInt32

namespace Cpu

variable (c : Cpu)

/-- The interrupted code is of an outer level, and the stack is switched. -/
def Outer (g : Gate) : Prop := level g.cs < level (c.seg .cs)

instance (g : Gate) : Decidable (c.Outer g) := inferInstanceAs (Decidable (_ < _))

/-- The part of the frame that all interrupts have. -/
def pushReturn (old : Cpu) : Cpu :=
  ((c.push old.eflags).push (old.seg .cs).toUInt32).push old.eip

/-- The frame that the processor pushes, without an error code. -/
def frame (g : Gate) : Cpu :=
  if c.Outer g then
    (((((c.setReg .esp g.esp0).setSeg .ss g.ss0).push (c.seg .ss).toUInt32).push
      (c.reg .esp)).pushReturn c)
  else c.pushReturn c

/-- The processor starts the handler of an interrupt gate: the trap, interrupt, nested-task, resume
and virtual-8086 flags are cleared. -/
def interrupt (g : Gate) (errorCode : Option UInt32) : Cpu :=
  let c' := match errorCode with
    | some e => (c.frame g).push e
    | none => c.frame g
  { c'.setSeg .cs g.cs with eip := g.eip, eflags := c.eflags &&& 0xFFFCBCFF }

/-- The segment registers after a return to an outer level: a data segment register with a segment
of an inner level is cleared. -/
def outerSegs (dpl : UInt16 → ℕ) (seg : SReg → UInt16) (cs ss : UInt16) : SReg → UInt16
  | .cs => cs
  | .ss => ss
  | s => if dpl (seg s) < level cs then 0 else seg s

/-- `iret` in protected mode, to the same level or to an outer one; in the second case the stack is
popped too.  The parameter gives the levels of the segments. -/
def iret (dpl : UInt16 → ℕ) : Cpu :=
  let esp := c.reg .esp
  let cs := (c.mem (esp + 4)).toUInt16
  let c' := { c with eip := c.mem esp, eflags := c.mem (esp + 4 + 4) }
  if level (c.seg .cs) < level cs then
    { c'.setReg .esp (c.mem (esp + 4 + 4 + 4)) with
      seg := outerSegs dpl c.seg cs (c.mem (esp + 4 + 4 + 4 + 4)).toUInt16 }
  else (c'.setReg .esp (esp + 4 + 4 + 4)).setSeg .cs cs

end Cpu

/-! ### The stack -/

/-- The dwords from an address on. -/
def Dwords (mem : UInt32 → UInt32) : UInt32 → List UInt32 → Prop
  | _, [] => True
  | a, v :: l => mem a = v ∧ Dwords mem (a + 4) l

/-- The dwords from the stack pointer on. -/
def Stacked (c : Cpu) (l : List UInt32) : Prop := Dwords c.mem (c.reg .esp) l

/-- A function that is called at `c` returns: it pops its return address, leaves the segment
registers as they were, and keeps the dwords `saved` behind its `n` arguments. -/
structure Returns (f : Cpu → Cpu) (c : Cpu) (n : UInt32) (saved : List UInt32) : Prop where
  esp : (f c).reg .esp = c.reg .esp + 4
  seg : (f c).seg = c.seg
  saved : Dwords c.mem (c.reg .esp + 4 + 4 * n) saved →
    Dwords (f c).mem (c.reg .esp + 4 + 4 * n) saved

variable {c : Cpu} {l : List UInt32} {v : UInt32}

theorem Dwords.append_left {mem : UInt32 → UInt32} {a : UInt32} {l r : List UInt32}
    (h : Dwords mem a (l ++ r)) : Dwords mem a l := by
  induction l generalizing a with
  | nil => trivial
  | cons v l ih => exact ⟨h.1, ih h.2⟩

/-- A write below an address leaves the dwords from there on. -/
theorem Dwords.update {mem : UInt32 → UInt32} {a b : UInt32} (v : UInt32) (h : Dwords mem a l)
    (k : ℕ) (ha : a = b + UInt32.ofNat (4 * (k + 1))) (hlen : k + l.length < 2 ^ 30 - 1) :
    Dwords (Function.update mem b v) a l := by
  induction l generalizing a k with
  | nil => trivial
  | cons w l ih =>
      rw [List.length_cons] at hlen
      have hne : a ≠ b := by
        intro e
        rw [e] at ha
        have hz := congrArg UInt32.toNat ha
        rw [UInt32.toNat_add, UInt32.toNat_ofNat'] at hz
        have hlt := b.toNat_lt
        omega
      refine ⟨?_, ih h.2 (k + 1) ?_ (by omega)⟩
      · rw [Function.update_of_ne hne]
        exact h.1
      · rw [ha]
        apply UInt32.toNat_inj.mp
        simp only [UInt32.toNat_add, UInt32.toNat_ofNat', UInt32.reduceToNat]
        omega

theorem Stacked.push (h : Stacked c l) (v : UInt32) (hlen : l.length < 2 ^ 29) :
    Stacked (c.push v) (v :: l) := by
  unfold Stacked Cpu.push at *
  dsimp only
  rw [Function.update_self]
  have e : c.reg .esp - 4 + 4 = c.reg .esp := by
    rw [UInt32.sub_add_cancel]
  refine ⟨Function.update_self _ _ _, ?_⟩
  rw [e]
  exact h.update v 0 e.symm (by omega)

theorem Stacked.setReg (h : Stacked c l) {r : Reg} (hr : r ≠ .esp) (v : UInt32) :
    Stacked (c.setReg r v) l := by
  unfold Stacked Cpu.setReg at *
  dsimp only
  rwa [Function.update_of_ne hr.symm]

theorem Stacked.setSeg (h : Stacked c l) (s : SReg) (v : UInt16) : Stacked (c.setSeg s v) l := h

theorem Stacked.pushad (h : Stacked c l) (hlen : l.length < 2 ^ 28) :
    Stacked (exec .pushad c) (c.reg .edi :: c.reg .esi :: c.reg .ebp :: c.reg .esp :: c.reg .ebx ::
      c.reg .edx :: c.reg .ecx :: c.reg .eax :: l) := by
  have h₁ := h.push (c.reg .eax) (by omega)
  have h₂ := h₁.push (c.reg .ecx) (by rw [List.length_cons]; omega)
  have h₃ := h₂.push (c.reg .edx) (by simp only [List.length_cons]; omega)
  have h₄ := h₃.push (c.reg .ebx) (by simp only [List.length_cons]; omega)
  have h₅ := h₄.push (c.reg .esp) (by simp only [List.length_cons]; omega)
  have h₆ := h₅.push (c.reg .ebp) (by simp only [List.length_cons]; omega)
  have h₇ := h₆.push (c.reg .esi) (by simp only [List.length_cons]; omega)
  exact h₇.push (c.reg .edi) (by simp only [List.length_cons]; omega)

theorem Dwords.append_right {mem : UInt32 → UInt32} {a : UInt32} {l r : List UInt32}
    (h : Dwords mem a (l ++ r)) : Dwords mem (a + UInt32.ofNat (4 * l.length)) r := by
  induction l generalizing a with
  | nil =>
      have e : a + UInt32.ofNat (4 * ([] : List UInt32).length) = a := UInt32.add_zero a
      rw [e]
      exact h
  | cons w l ih =>
      have e : a + UInt32.ofNat (4 * (w :: l).length) = a + 4 + UInt32.ofNat (4 * l.length) := by
        rw [List.length_cons, Nat.mul_succ, Nat.add_comm, UInt32.ofNat_add, ← UInt32.add_assoc]
        rfl
      rw [e]
      exact ih h.2

/-! ### Entry and return -/

/-- The two dwords behind the first three of a frame: the stack that was switched, or what was on
top of the stack. -/
def Cpu.behind (c : Cpu) (g : Gate) : List UInt32 :=
  if c.Outer g then [c.reg .esp, (c.seg .ss).toUInt32]
  else [c.mem (c.reg .esp), c.mem (c.reg .esp + 4)]

theorem frame_stacked (c : Cpu) (g : Gate) : Stacked (c.frame g)
    ([c.eip, (c.seg .cs).toUInt32, c.eflags] ++ c.behind g) := by
  have hpush : ∀ (c' : Cpu) (l : List UInt32), Stacked c' l → l.length = 2 →
      Stacked (c'.pushReturn c) ([c.eip, (c.seg .cs).toUInt32, c.eflags] ++ l) := by
    intro c' l h hl
    have h₁ := h.push c.eflags (by omega)
    have h₂ := h₁.push (c.seg .cs).toUInt32 (by rw [List.length_cons]; omega)
    exact h₂.push c.eip (by simp only [List.length_cons]; omega)
  unfold Cpu.frame Cpu.behind
  split_ifs
  · apply hpush _ _ _ rfl
    have h₀ : Stacked ((c.setReg .esp g.esp0).setSeg .ss g.ss0) [] := trivial
    have h₁ := h₀.push (c.seg .ss).toUInt32 (Nat.two_pow_pos 29)
    exact h₁.push (c.reg .esp) (by rw [List.length_singleton]; omega)
  · exact hpush _ _ ⟨rfl, rfl, trivial⟩ rfl

theorem frame_reg (c : Cpu) (g : Gate) {r : Reg} (hr : r ≠ .esp) : (c.frame g).reg r = c.reg r := by
  unfold Cpu.frame
  split_ifs <;> cases r <;> first | rfl | exact absurd rfl hr

theorem frame_seg (c : Cpu) (g : Gate) (s : SReg) :
    (c.frame g).seg s = if c.Outer g ∧ s = .ss then g.ss0 else c.seg s := by
  unfold Cpu.frame
  by_cases h : c.Outer g
  · rw [if_pos h]
    cases s <;> simp [h] <;> rfl
  · rw [if_neg h, if_neg (fun h' => h h'.1)]
    rfl

/-- A return to an outer level. -/
theorem iret_outer {dpl : UInt16 → ℕ} {eip cs eflags esp ss : UInt32}
    (h : Stacked c ([eip, cs, eflags, esp, ss] ++ l)) (hlt : level (c.seg .cs) < level cs.toUInt16) :
    c.iret dpl = { c.setReg .esp esp with
      eip := eip, eflags := eflags, seg := Cpu.outerSegs dpl c.seg cs.toUInt16 ss.toUInt16 } := by
  obtain ⟨heip, hcs, heflags, hesp, hss, -⟩ := h
  unfold Cpu.iret
  dsimp only
  rw [hcs, if_pos hlt, heip, heflags, hesp, hss]
  rfl

/-- A return to the same level. -/
theorem iret_same {dpl : UInt16 → ℕ} {eip cs eflags : UInt32}
    (h : Stacked c ([eip, cs, eflags] ++ l)) (hle : ¬ level (c.seg .cs) < level cs.toUInt16) :
    c.iret dpl = { (c.setReg .esp (c.reg .esp + 4 + 4 + 4)).setSeg .cs cs.toUInt16 with
      eip := eip, eflags := eflags } := by
  obtain ⟨heip, hcs, heflags, -⟩ := h
  unfold Cpu.iret
  dsimp only
  rw [hcs, if_neg hle, heip, heflags]
  rfl

end X86
