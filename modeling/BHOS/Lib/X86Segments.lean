import BHOS.Lib.X86

/-! # The checks of segments and flags

`X86.exec` and `Cpu.iret` say what a load of a selector and a return do where the processor lets
them.  Here they are with its checks: a selector is loaded, and `iret` returns, only where the
descriptors allow it, and everything else is a fault, which has no result.  `iret` takes from the
stack the flags that its level may set.

A nested task and virtual-8086 code return in other ways, which have no result here either. -/

namespace X86

/-- The descriptors that selectors find; a null selector and one behind its table find none. -/
abbrev Segments := UInt16 → Option Descriptor

/-- A null selector. -/
def IsNull (selector : UInt16) : Prop := selector.toNat / 4 = 0

namespace Descriptor

variable (d : Descriptor)

/-- A code segment. -/
def IsCode : Prop := d.s = 1 ∧ 8 ≤ d.type

/-- A code segment that inner levels may use too. -/
def Conforming : Prop := d.IsCode ∧ d.type / 4 % 2 = 1

/-- A data segment, or a code segment that can be read. -/
def Readable : Prop := d.s = 1 ∧ (d.type < 8 ∨ d.type / 2 % 2 = 1)

/-- A data segment that can be written. -/
def Writable : Prop := d.s = 1 ∧ d.type < 8 ∧ d.type / 2 % 2 = 1

instance : Decidable d.IsCode := inferInstanceAs (Decidable (_ ∧ _))
instance : Decidable d.Conforming := inferInstanceAs (Decidable (_ ∧ _))
instance : Decidable d.Readable := inferInstanceAs (Decidable (_ ∧ _))
instance : Decidable d.Writable := inferInstanceAs (Decidable (_ ∧ _))

end Descriptor

variable (segs : Segments)

/-- A data segment register takes a selector at level `cpl`. -/
def CanLoad (cpl : ℕ) (selector : UInt16) : Prop :=
  IsNull selector ∨ ∃ d ∈ segs selector,
    d.Readable ∧ (d.Conforming ∨ cpl ≤ d.dpl ∧ level selector ≤ d.dpl) ∧ d.p = 1

/-- `iret` at level `cpl` goes on in a code segment. -/
def CanReturn (cpl : ℕ) (cs : UInt16) (eip : UInt32) : Prop :=
  ∃ d ∈ segs cs, d.IsCode ∧ cpl ≤ level cs ∧
    (if d.Conforming then d.dpl ≤ level cs else d.dpl = level cs) ∧ d.p = 1 ∧ eip.toNat ≤ d.limit

/-- The segment of a stack for level `cpl`. -/
def CanStack (cpl : ℕ) (ss : UInt16) : Prop :=
  ∃ d ∈ segs ss, level ss = cpl ∧ d.Writable ∧ d.dpl = cpl ∧ d.p = 1

instance (selector : UInt16) : Decidable (IsNull selector) := inferInstanceAs (Decidable (_ = _))

instance (cpl : ℕ) (selector : UInt16) : Decidable (CanLoad segs cpl selector) :=
  inferInstanceAs (Decidable (_ ∨ _))

instance (cpl : ℕ) (cs : UInt16) (eip : UInt32) : Decidable (CanReturn segs cpl cs eip) :=
  inferInstanceAs (Decidable (∃ d ∈ segs cs, _))

instance (cpl : ℕ) (ss : UInt16) : Decidable (CanStack segs cpl ss) :=
  inferInstanceAs (Decidable (∃ d ∈ segs ss, _))

/-- The outermost level at which a data segment register keeps a selector in a return. -/
def keptLevel (selector : UInt16) : ℕ :=
  if selector = 0 then 3
  else match segs selector with
    | some d => if d.Conforming then 3 else d.dpl
    | none => 0

/-- The flags NT and VM. -/
def modeFlags : UInt32 := 0x00024000

/-- The flags that `iret` sets at level `cpl`: IOPL, VIF and VIP at level 0 only, and IF at the
levels up to IOPL. -/
def flagMask (cpl : ℕ) (eflags : UInt32) : UInt32 :=
  if cpl = 0 then 0x003D7FD5
  else if cpl ≤ field eflags.toNat 12 2 then 0x00254FD5
  else 0x00254DD5

/-- The flags after `iret`: bit 1 is always set, and the other reserved bits and VM are clear. -/
def popFlags (cpl : ℕ) (eflags popped : UInt32) : UInt32 :=
  (popped &&& flagMask cpl eflags) ||| (eflags &&& (0x003D7FD5 ^^^ flagMask cpl eflags)) ||| 2

/-- An instruction with the check of the selector that it loads. -/
def execChecked (i : Instr) (c : Cpu) : Option Cpu :=
  match i with
  | .movToSeg d s =>
      if CanLoad segs (level (c.seg .cs)) (c.reg s).toUInt16 then some (exec (.movToSeg d s) c)
      else none
  | i => some (exec i c)

/-- Checked instructions one after the other. -/
def runChecked (code : List Instr) (c : Cpu) : Option Cpu :=
  code.foldlM (fun c i => execChecked segs i c) c

/-- `iret` with its checks, from protected mode to protected mode. -/
def Cpu.iretChecked (c : Cpu) : Option Cpu :=
  let esp := c.reg .esp
  let cpl := level (c.seg .cs)
  let cs := (c.mem (esp + 4)).toUInt16
  let eflags := c.mem (esp + 4 + 4)
  if c.eflags &&& modeFlags = 0 ∧ (cpl = 0 → eflags &&& 0x00020000 = 0) ∧
      CanReturn segs cpl cs (c.mem esp) ∧
      (cpl < level cs → CanStack segs (level cs) (c.mem (esp + 4 + 4 + 4 + 4)).toUInt16) then
    some { c.iret (keptLevel segs) with eflags := popFlags cpl c.eflags eflags }
  else none

/-! ### Runs -/

variable {segs} {c c₁ : Cpu} {l : List UInt32} {w : UInt32}

/-- No selector is loaded. -/
def NoLoad : Instr → Bool
  | .movToSeg _ _ => false
  | _ => true

theorem runChecked_append (code₁ code₂ : List Instr) (c : Cpu) :
    runChecked segs (code₁ ++ code₂) c = (runChecked segs code₁ c).bind (runChecked segs code₂) :=
  List.foldlM_append

theorem runChecked_cons (i : Instr) (code : List Instr) (c : Cpu) :
    runChecked segs (i :: code) c = (execChecked segs i c).bind (runChecked segs code) := rfl

/-- Code that loads no selector runs as without checks. -/
theorem runChecked_of_noLoad {code : List Instr} (h : code.all NoLoad = true) (c : Cpu) :
    runChecked segs code c = some (run code c) := by
  induction code generalizing c with
  | nil => rfl
  | cons i code ih =>
      rw [List.all_cons, Bool.and_eq_true] at h
      have hi : execChecked segs i c = some (exec i c) := by
        cases i with
        | movToSeg d s => exact absurd h.1 Bool.false_ne_true
        | _ => rfl
      rw [runChecked_cons, hi]
      exact ih h.2 _

/-- Popping a selector. -/
def popSeg (d : SReg) : List Instr := [.pop .eax, .movToSeg d .eax]

theorem popSeg_stacked (h : Stacked c (w :: l)) (d : SReg) : Stacked (run (popSeg d) c) l := h.2

theorem popSeg_cs {d : SReg} (hd : d ≠ .cs) (c : Cpu) :
    (run (popSeg d) c).seg .cs = c.seg .cs := Function.update_of_ne hd.symm _ _

/-- A selector is popped where it can be loaded. -/
theorem runChecked_popSeg (h : Stacked c (w :: l)) (d : SReg) : runChecked segs (popSeg d) c =
    if CanLoad segs (level (c.seg .cs)) w.toUInt16 then some (run (popSeg d) c) else none := by
  have hw : (exec (.pop .eax) c).reg .eax = w := h.1
  have hcs : (exec (.pop .eax) c).seg .cs = c.seg .cs := rfl
  have e : runChecked segs (popSeg d) c = execChecked segs (.movToSeg d .eax)
      (exec (.pop .eax) c) := by
    show (execChecked segs (.movToSeg d .eax) (exec (.pop .eax) c)).bind some = _
    rw [Option.bind_fun_some]
  rw [e, execChecked, hw, hcs]
  rfl

/-- The flags that a return at level 0 leaves as they were popped. -/
theorem popFlags_kernel (eflags popped : UInt32) :
    popFlags 0 eflags popped = (popped &&& 0x003D7FD5) ||| 2 := by
  have hmask : flagMask 0 eflags = 0x003D7FD5 := if_pos rfl
  have hxor : (0x003D7FD5 : UInt32) ^^^ 0x003D7FD5 = 0 := by decide
  unfold popFlags
  rw [hmask, hxor, UInt32.and_zero, UInt32.or_zero]

/-- Popped flags have VM clear. -/
theorem popFlags_vm {eflags popped : UInt32} (h : popFlags 0 eflags popped = popped) :
    popped &&& 0x00020000 = 0 := by
  have hvm : popped &&& 0x003D7FD5 &&& 0x00020000 = 0 := by
    rw [UInt32.and_assoc]
    exact UInt32.and_zero
  rw [popFlags_kernel] at h
  rw [← h]
  apply UInt32.toNat_inj.mp
  rw [UInt32.toNat_and, UInt32.toNat_or, Nat.and_or_distrib_right, ← UInt32.toNat_and, hvm]
  rfl

/-- `iret` over a frame. -/
theorem iretChecked_eq {eip cs eflags esp ss : UInt32}
    (h : Stacked c ([eip, cs, eflags, esp, ss] ++ l)) : c.iretChecked segs =
    if c.eflags &&& modeFlags = 0 ∧ (level (c.seg .cs) = 0 → eflags &&& 0x00020000 = 0) ∧
        CanReturn segs (level (c.seg .cs)) cs.toUInt16 eip ∧
        (level (c.seg .cs) < level cs.toUInt16 → CanStack segs (level cs.toUInt16) ss.toUInt16) then
      some { c.iret (keptLevel segs) with eflags := popFlags (level (c.seg .cs)) c.eflags eflags }
    else none := by
  obtain ⟨heip, hcs, heflags, -, hss, -⟩ := h
  unfold Cpu.iretChecked
  dsimp only
  rw [heip, hcs, heflags, hss]

end X86
