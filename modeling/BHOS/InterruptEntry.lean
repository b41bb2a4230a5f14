import BHOS.Lib.X86Segments

/-! # Interrupt entry and exit (`interrupt_asm.s`, `interrupt.h`, `common_asm.s`)

`isrN` and `pre_handle` build the stack image that `interrupt_stack_t` describes and call
`int_func_route`; the code behind the call undoes that and returns.  `exit_int` does the same from
an image at a given address, with which `start_user_task` enters a user task.

The entry switches ES, FS and GS to selectors of the kernel and saves the interrupted ones.  DS is
neither saved nor switched: it keeps the selector of the interrupted code.

`exit_int` takes an image of its caller, so its loads and its `iret` are here with the checks of the
processor, against the table that `boot.s` has at `GDT_BASE`. -/

namespace BHOS

open X86

/-- `KERN_DATA_SELECTOR`. -/
def kernDataSelector : UInt16 := (0x0002 : UInt16) <<< 3

/-- `KERN_VGA_SELECTOR`. -/
def kernVgaSelector : UInt16 := (0x0003 : UInt16) <<< 3

/-- A descriptor of two dwords. -/
def gdtDesc (low high : UInt32) : Descriptor :=
  Descriptor.decode ([low, high].flatMap fun w : UInt32 =>
    [w.toUInt8, (w >>> 8).toUInt8, (w >>> 16).toUInt8, (w >>> 24).toUInt8])

/-- The table at `GDT_BASE`: `CODE_DESC`, `DATA_STACK_DESC`, `VIDEO_DESC`, `USER_CODE_DESC`,
`USER_DATA_DESC` and `TSS_CPU0` behind the null descriptor. -/
def gdt (tss : Descriptor) : List Descriptor :=
  [gdtDesc 0 0, gdtDesc 0x0000FFFF 0x00CF9800, gdtDesc 0x0000FFFF 0x00CF9200,
    gdtDesc 0x80000007 0x00C0920B, gdtDesc 0x0000FFFF 0x00CFF800, gdtDesc 0x0000FFFF 0x00CFF200,
    tss]

/-- The segments of the kernel, which has no local table. -/
def gdtSegments (tss : Descriptor) : Segments := fun selector =>
  if IsNull selector ∨ selector.toNat / 4 % 2 = 1 then none
  else (gdt tss)[selector.toNat / 8]?

/-- The levels of the segments in the table: 3 for those of the user tasks, with the indices 4
and 5, and for the null selector; every other selector is cleared in a return to a user task. -/
def gdtDpl (selector : UInt16) : ℕ :=
  if selector = 0 ∨ selector.toNat / 4 = 8 ∨ selector.toNat / 4 = 10 then 3 else 0

/-- They are the levels that the table gives. -/
theorem keptLevel_gdtSegments {tss : Descriptor} (h : tss.IsTss) (selector : UInt16) :
    keptLevel (gdtSegments tss) selector = gdtDpl selector := by
  obtain ⟨-, hs, -, hdpl⟩ := h
  have htss : ¬ tss.Conforming := fun hc => absurd (hs.symm.trans hc.1.1) (by decide)
  unfold keptLevel gdtDpl gdtSegments IsNull
  by_cases h0 : selector = 0
  · rw [if_pos h0, if_pos (.inl h0)]
  simp only [h0, if_false, false_or]
  by_cases hnone : selector.toNat / 4 = 0 ∨ selector.toNat / 4 % 2 = 1
  · rw [if_pos hnone, if_neg (by omega)]
  rw [if_neg hnone]
  have hindex : selector.toNat / 4 = 2 * (selector.toNat / 8) := by omega
  rw [hindex] at hnone ⊢
  generalize selector.toNat / 8 = i at hnone ⊢
  match i with
  | 0 => omega
  | 1 => rfl
  | 2 => rfl
  | 3 => rfl
  | 4 => rfl
  | 5 => rfl
  | 6 =>
      show (if tss.Conforming then 3 else tss.dpl) = 0
      rw [if_neg htss, hdpl]
  | i + 7 => rw [if_neg (by omega)]; rfl

/-- The gate of a vector, with `kern_cs`, and the kernel stack of `tss_cpu0`. -/
def intGate (offset esp0 : UInt32) : Gate := ⟨0x08, offset, kernDataSelector, esp0⟩

/-- `interrupt_stack_t`. -/
structure InterruptStack where
  intNo1 : UInt32
  args : UInt32
  gs : UInt32
  fs : UInt32
  es : UInt32
  edi : UInt32
  esi : UInt32
  ebp : UInt32
  espDuplicate : UInt32
  ebx : UInt32
  edx : UInt32
  ecx : UInt32
  eax : UInt32
  intNo2 : UInt32
  errorNo : UInt32
  eip : UInt32
  cs : UInt32
  eflags : UInt32
  esp : UInt32
  ss : UInt32

/-- The dwords of the packed structure. -/
def InterruptStack.words (s : InterruptStack) : List UInt32 :=
  [s.intNo1, s.args, s.gs, s.fs, s.es, s.edi, s.esi, s.ebp, s.espDuplicate, s.ebx, s.edx, s.ecx,
    s.eax, s.intNo2, s.errorNo, s.eip, s.cs, s.eflags, s.esp, s.ss]

/-! ### The code -/

/-- `NO_ERROCODE`. -/
def noErrocode (n : ℕ) : List Instr := [.pushImm 0, .pushImm (UInt32.ofNat n)]

/-- `HAVE_ERROCODE`. -/
def haveErrocode (n : ℕ) : List Instr := [.nop, .pushImm (UInt32.ofNat n)]

/-- `isr0` to `isr47`. -/
def isr : ℕ → List Instr
  | 8 => haveErrocode 8
  | 10 => haveErrocode 10
  | 11 => haveErrocode 11
  | 12 => haveErrocode 12
  | 13 => haveErrocode 13
  | 14 => haveErrocode 14
  | 17 => haveErrocode 17
  | n => noErrocode n

/-- `pre_handle` up to the call of `int_func_route`. -/
def preHandle : List Instr :=
  [.pushad,
    .load .ecx .esp 32,
    .movFromSeg .eax .es,
    .andImm .eax 0x0000FFFF,
    .push .eax,
    .movFromSeg .eax .fs,
    .andImm .eax 0x0000FFFF,
    .push .eax,
    .movFromSeg .eax .gs,
    .andImm .eax 0x0000FFFF,
    .push .eax,
    .movImm16 .eax kernDataSelector,
    .movToSeg .es .eax,
    .movToSeg .fs .eax,
    .movImm16 .eax kernVgaSelector,
    .movToSeg .gs .eax,
    .push .ebx,
    .push .ecx]

/-- The code behind the call up to `iret`. -/
def intExit : List Instr :=
  [.addImm .esp 8,
    .pop .eax,
    .movToSeg .gs .eax,
    .pop .eax,
    .movToSeg .fs .eax,
    .pop .eax,
    .movToSeg .es .eax,
    .popad,
    .addImm .esp 8,
    .push .eax,
    .movImm8 .eax 0x20,
    .out 0xA0,
    .out 0x20,
    .pop .eax]

/-- `exit_int` up to `iret`. -/
def exitInt : List Instr :=
  [.load .eax .esp 4,
    .mov .esp .eax,
    .addImm .esp 8,
    .pop .eax,
    .movToSeg .gs .eax,
    .pop .eax,
    .movToSeg .fs .eax,
    .pop .eax,
    .movToSeg .es .eax,
    .popad,
    .addImm .esp 8]

/-- The processor when `int_func_route` is to be called for an interrupt with a vector; the error
code is that of the processor, where it has one. -/
def atCall (n : ℕ) (g : Gate) (errorCode : UInt32) (c : Cpu) : Cpu :=
  run preHandle (run (isr n)
    (c.interrupt g (if PushesErrorCode n then some errorCode else none)))

/-- The processor at the `iret` behind a call of a handler. -/
def atIret (n : ℕ) (g : Gate) (errorCode : UInt32) (handler : Cpu → Cpu) (ret : UInt32) (c : Cpu) :
    Cpu :=
  run intExit (handler ((atCall n g errorCode c).push ret))

/-! ### Blocks -/

variable {c : Cpu} {l : List UInt32}

/-- Saving a segment register. -/
def saveSeg (s : SReg) : List Instr := [.movFromSeg .eax s, .andImm .eax 0x0000FFFF, .push .eax]

/-- What that does. -/
def pushSeg (s : SReg) (c : Cpu) : Cpu :=
  (c.setReg .eax (c.seg s).toUInt32).push (c.seg s).toUInt32

theorem pushSeg_stacked (h : Stacked c l) (s : SReg) (hlen : l.length < 2 ^ 29) :
    Stacked (pushSeg s c) ((c.seg s).toUInt32 :: l) :=
  (h.setReg (by decide) _).push _ hlen

theorem run_saveSeg (s : SReg) (c : Cpu) : run (saveSeg s) c = pushSeg s c := by
  have e : exec (.andImm .eax 0x0000FFFF) (exec (.movFromSeg .eax s) c) =
      c.setReg .eax (c.seg s).toUInt32 := by
    rw [exec, exec, Cpu.reg_setReg, Cpu.setReg_setReg, withLow16_and]
  show exec (.push .eax) (exec (.andImm .eax 0x0000FFFF) (exec (.movFromSeg .eax s) c)) = _
  rw [e, exec, Cpu.reg_setReg]
  rfl

/-- The segment registers of the kernel. -/
def switchSegs (seg : SReg → UInt16) : SReg → UInt16
  | .es => kernDataSelector
  | .fs => kernDataSelector
  | .gs => kernVgaSelector
  | r => seg r

/-- Switching the segment registers and pushing the arguments. -/
def switchCode : List Instr :=
  [.movImm16 .eax kernDataSelector,
    .movToSeg .es .eax,
    .movToSeg .fs .eax,
    .movImm16 .eax kernVgaSelector,
    .movToSeg .gs .eax,
    .push .ebx,
    .push .ecx]

theorem seg_switchCode (c : Cpu) : (run switchCode c).seg = switchSegs c.seg := by
  funext r
  cases r with
  | es => exact withLow16_toUInt16 _ _
  | fs => exact withLow16_toUInt16 _ _
  | gs => exact withLow16_toUInt16 _ _
  | ds => rfl
  | ss => rfl
  | cs => rfl

theorem preHandle_eq : preHandle = [.pushad, .load .ecx .esp 32] ++ (saveSeg .es ++
    (saveSeg .fs ++ (saveSeg .gs ++ switchCode))) := rfl

/-- `pre_handle` over a stack with the number of the interrupt on top. -/
theorem run_preHandle {n : UInt32} (h : Stacked c (n :: l)) (hlen : l.length < 2 ^ 20) :
    Stacked (run preHandle c) ([n, c.reg .ebx, (c.seg .gs).toUInt32, (c.seg .fs).toUInt32,
      (c.seg .es).toUInt32, c.reg .edi, c.reg .esi, c.reg .ebp, c.reg .esp, c.reg .ebx, c.reg .edx,
      c.reg .ecx, c.reg .eax, n] ++ l) ∧
    (run preHandle c).seg = switchSegs c.seg ∧
    (run preHandle c).reg .esp = c.reg .esp - 52 := by
  have h₁ := h.pushad (by rw [List.length_cons]; omega)
  have hn : exec (.load .ecx .esp 32) (exec .pushad c) = (exec .pushad c).setReg .ecx n := by
    have hget := Dwords.append_right (l := [c.reg .edi, c.reg .esi, c.reg .ebp, c.reg .esp,
      c.reg .ebx, c.reg .edx, c.reg .ecx, c.reg .eax]) h₁
    exact congrArg ((exec .pushad c).setReg .ecx) hget.1
  have h₂ := h₁.setReg (r := .ecx) (by decide) n
  have h₃ := pushSeg_stacked h₂ .es (by simp only [List.length_cons]; omega)
  have h₄ := pushSeg_stacked h₃ .fs (by simp only [List.length_cons]; omega)
  have h₅ := pushSeg_stacked h₄ .gs (by simp only [List.length_cons]; omega)
  have hrun : run preHandle c = run switchCode
      (pushSeg .gs (pushSeg .fs (pushSeg .es ((exec .pushad c).setReg .ecx n)))) := by
    rw [preHandle_eq, run_append, run_append, run_append, run_append, run_saveSeg, run_saveSeg,
      run_saveSeg, ← hn]
    rfl
  rw [hrun]
  refine ⟨?_, ?_, ?_⟩
  · have h₆ := (h₅.push (c.reg .ebx) (by simp only [List.length_cons]; omega)).push n
      (by simp only [List.length_cons]; omega)
    exact h₆
  · rw [seg_switchCode]
    rfl
  · show c.reg .esp - 4 - 4 - 4 - 4 - 4 - 4 - 4 - 4 - 4 - 4 - 4 - 4 - 4 = c.reg .esp - 52
    grind

/-- The part that the two ways out have in common. -/
def restoreImage : List Instr :=
  [.addImm .esp 8,
    .pop .eax,
    .movToSeg .gs .eax,
    .pop .eax,
    .movToSeg .fs .eax,
    .pop .eax,
    .movToSeg .es .eax,
    .popad,
    .addImm .esp 8]

/-- The general registers of an image, with the given stack pointer. -/
def InterruptStack.regs (s : InterruptStack) (esp : UInt32) : Reg → UInt32
  | .eax => s.eax
  | .ecx => s.ecx
  | .edx => s.edx
  | .ebx => s.ebx
  | .esp => esp
  | .ebp => s.ebp
  | .esi => s.esi
  | .edi => s.edi

/-- The segment registers with those of an image. -/
def InterruptStack.segs (s : InterruptStack) (seg : SReg → UInt16) : SReg → UInt16
  | .es => s.es.toUInt16
  | .fs => s.fs.toUInt16
  | .gs => s.gs.toUInt16
  | r => seg r

theorem run_addEsp (code : List Instr) (c : Cpu) :
    run (.addImm .esp 8 :: code) c = run code c.drop.drop := by
  have e : c.reg .esp + 8 = c.reg .esp + 4 + 4 := by grind
  show run code (c.setReg .esp (c.reg .esp + 8)) = _
  unfold Cpu.drop
  rw [Cpu.reg_setReg, Cpu.setReg_setReg, e]

/-- The first 15 dwords of an image are undone. -/
theorem run_restoreImage (s : InterruptStack) (h : Stacked c (s.words.take 15)) :
    run restoreImage c =
      { c with reg := s.regs (c.reg .esp + 60), seg := s.segs c.seg } := by
  obtain ⟨-, -, hgs, hfs, hes, hedi, hesi, hebp, -, hebx, hedx, hecx, heax, -, -, -⟩ := h
  unfold restoreImage
  rw [run_addEsp]
  refine congrArg₂ (fun reg seg => ({ c with reg := reg, seg := seg } : Cpu)) ?_ ?_
  · funext r
    cases r with
    | eax => exact heax
    | ecx => exact hecx
    | edx => exact hedx
    | ebx => exact hebx
    | esp =>
        show c.reg .esp + 4 + 4 + 4 + 4 + 4 + 4 + 4 + 4 + 4 + 4 + 4 + 4 + 4 + 8 = c.reg .esp + 60
        grind
    | ebp => exact hebp
    | esi => exact hesi
    | edi => exact hedi
  · funext r
    cases r with
    | gs => exact congrArg UInt32.toUInt16 hgs
    | fs => exact congrArg UInt32.toUInt16 hfs
    | es => exact congrArg UInt32.toUInt16 hes
    | ds => rfl
    | ss => rfl
    | cs => rfl

theorem stacked_restoreImage (s : InterruptStack) (h : Stacked c (s.words.take 15 ++ l)) :
    Stacked { c with reg := s.regs (c.reg .esp + 60), seg := s.segs c.seg } l :=
  Dwords.append_right h

/-- Signalling the end of the interrupt. -/
def endOfInterrupt : List Instr :=
  [.push .eax, .movImm8 .eax 0x20, .out 0xA0, .out 0x20, .pop .eax]

theorem run_endOfInterrupt (h : Stacked c l) (hlen : l.length < 2 ^ 29) :
    Stacked (run endOfInterrupt c) l ∧ (run endOfInterrupt c).reg = c.reg ∧
      (run endOfInterrupt c).seg = c.seg := by
  have hp := h.push (c.reg .eax) hlen
  have hreg : (run endOfInterrupt c).reg = c.reg := by
    funext r
    cases r with
    | eax => exact hp.1
    | esp => exact UInt32.sub_add_cancel _ _
    | _ => rfl
  refine ⟨?_, hreg, rfl⟩
  unfold Stacked at hp ⊢
  rw [hreg]
  have e : (c.push (c.reg .eax)).reg .esp + 4 = c.reg .esp := UInt32.sub_add_cancel _ _
  have htail := hp.2
  rw [e] at htail
  exact htail

/-! ### Entry -/

variable {n : ℕ} {g : Gate} {e : UInt32}

/-- The image of an interrupt. -/
def savedImage (n : ℕ) (g : Gate) (e : UInt32) (c : Cpu) : InterruptStack where
  intNo1 := UInt32.ofNat n
  args := c.reg .ebx
  gs := (c.seg .gs).toUInt32
  fs := (c.seg .fs).toUInt32
  es := (c.seg .es).toUInt32
  edi := c.reg .edi
  esi := c.reg .esi
  ebp := c.reg .ebp
  espDuplicate := (c.frame g).reg .esp - 8
  ebx := c.reg .ebx
  edx := c.reg .edx
  ecx := c.reg .ecx
  eax := c.reg .eax
  intNo2 := UInt32.ofNat n
  errorNo := if PushesErrorCode n then e else 0
  eip := c.eip
  cs := (c.seg .cs).toUInt32
  eflags := c.eflags
  esp := if c.Outer g then c.reg .esp else c.mem (c.reg .esp)
  ss := if c.Outer g then (c.seg .ss).toUInt32 else c.mem (c.reg .esp + 4)

theorem isr_eq : ∀ n < 48, isr n = if PushesErrorCode n then haveErrocode n else noErrocode n := by
  decide

theorem behind_eq (n : ℕ) (g : Gate) (e : UInt32) (c : Cpu) :
    c.behind g = [(savedImage n g e c).esp, (savedImage n g e c).ss] := by
  unfold Cpu.behind savedImage
  split_ifs <;> rfl

/-- `pre_handle` is reached with the number of the interrupt and an error code on the stack. -/
theorem isr_reaches (hn : n < 48) (g : Gate) (e : UInt32) (c : Cpu) :
    ∃ c' : Cpu, run (isr n) (c.interrupt g (if PushesErrorCode n then some e else none)) = c' ∧
      Stacked c' ((savedImage n g e c).words.drop 13) ∧
      (∀ r ≠ .esp, c'.reg r = c.reg r) ∧ c'.reg .esp = (c.frame g).reg .esp - 8 ∧
      c'.seg = Function.update (c.frame g).seg .cs g.cs := by
  refine ⟨_, rfl, ?_⟩
  have hf := frame_stacked c g
  rw [behind_eq n g e c] at hf
  have hesp : (c.frame g).reg .esp - 4 - 4 = (c.frame g).reg .esp - 8 := by grind
  have hreg : ∀ r, r ≠ Reg.esp → (c.frame g).reg r = c.reg r := fun r hr => frame_reg c g hr
  have hwords : ∀ err, (savedImage n g e c).errorNo = err → (savedImage n g e c).words.drop 13 =
      UInt32.ofNat n :: err :: ([c.eip, (c.seg .cs).toUInt32, c.eflags] ++
        [(savedImage n g e c).esp, (savedImage n g e c).ss]) := by
    rintro err rfl
    rfl
  rw [isr_eq n hn]
  by_cases hp : PushesErrorCode n
  · rw [if_pos hp, if_pos hp, hwords e (if_pos hp)]
    refine ⟨(hf.push e (by simp)).push (UInt32.ofNat n) (by simp), fun r hr => ?_, hesp, rfl⟩
    rw [← hreg r hr]
    cases r <;> first | rfl | exact absurd rfl hr
  · rw [if_neg hp, if_neg hp, hwords 0 (if_neg hp)]
    refine ⟨(hf.push 0 (by simp)).push (UInt32.ofNat n) (by simp), fun r hr => ?_, hesp, rfl⟩
    rw [← hreg r hr]
    cases r <;> first | rfl | exact absurd rfl hr

/-- At the call the stack has the image, ES, FS and GS are those of the kernel, and DS is that of
the interrupted code. -/
theorem atCall_spec (hn : n < 48) (g : Gate) (e : UInt32) (c : Cpu) :
    Stacked (atCall n g e c) (savedImage n g e c).words ∧
      (atCall n g e c).seg = switchSegs (Function.update (c.frame g).seg .cs g.cs) ∧
      (atCall n g e c).reg .esp = (c.frame g).reg .esp - 60 := by
  obtain ⟨c', hc', hs, hreg, hesp, hseg⟩ := isr_reaches hn g e c
  unfold atCall
  rw [hc']
  obtain ⟨hs', hseg', hesp'⟩ := run_preHandle hs (by simp)
  refine ⟨?_, by rw [hseg', hseg], ?_⟩
  · have hes : c'.seg .es = c.seg .es := by
      rw [hseg, Function.update_of_ne (by decide), frame_seg, if_neg (by simp)]
    have hfs : c'.seg .fs = c.seg .fs := by
      rw [hseg, Function.update_of_ne (by decide), frame_seg, if_neg (by simp)]
    have hgs : c'.seg .gs = c.seg .gs := by
      rw [hseg, Function.update_of_ne (by decide), frame_seg, if_neg (by simp)]
    rw [hes, hfs, hgs, hesp, hreg .ebx (by decide), hreg .edi (by decide), hreg .esi (by decide),
      hreg .ebp (by decide), hreg .edx (by decide), hreg .ecx (by decide), hreg .eax (by decide)]
      at hs'
    exact hs'
  · rw [hesp', hesp]
    grind

/-! ### Exit -/

/-- The part of the image behind the arguments; without a switch of stacks it ends with the
flags. -/
def savedWords (n : ℕ) (g : Gate) (e : UInt32) (c : Cpu) : List UInt32 :=
  ((savedImage n g e c).words.drop 2).take (if c.Outer g then 18 else 16)

/-- The frame of the processor. -/
def frameWords (g : Gate) (c : Cpu) : List UInt32 :=
  [c.eip, (c.seg .cs).toUInt32, c.eflags] ++
    if c.Outer g then [c.reg .esp, (c.seg .ss).toUInt32] else []

theorem savedWords_eq (n : ℕ) (g : Gate) (e : UInt32) (c : Cpu) : savedWords n g e c =
    ((savedImage n g e c).words.drop 2).take 13 ++ frameWords g c := by
  unfold savedWords frameWords
  by_cases h : c.Outer g
  · have hesp : (savedImage n g e c).esp = c.reg .esp := if_pos h
    have hss : (savedImage n g e c).ss = (c.seg .ss).toUInt32 := if_pos h
    rw [if_pos h, if_pos h, ← hesp, ← hss]
    rfl
  · rw [if_neg h, if_neg h]
    rfl

theorem intExit_eq : intExit = restoreImage ++ endOfInterrupt := rfl

/-- At the first instruction of the handler they stand behind its two arguments. -/
theorem dwords_savedWords (hn : n < 48) (g : Gate) (e : UInt32) (c : Cpu) (ret : UInt32) :
    Dwords ((atCall n g e c).push ret).mem (((atCall n g e c).push ret).reg .esp + 4 + 4 * 2)
      (savedWords n g e c) := by
  have hp := (atCall_spec hn g e c).1.push ret (by simp [InterruptStack.words])
  have hdrop := Dwords.append_right (l := [ret, (savedImage n g e c).intNo1,
    (savedImage n g e c).args]) (r := (savedImage n g e c).words.drop 2) hp
  have e12 : ((atCall n g e c).push ret).reg .esp + 4 + 4 * 2 =
      ((atCall n g e c).push ret).reg .esp + UInt32.ofNat (4 * 3) := by
    rw [UInt32.add_assoc]
    rfl
  rw [e12]
  apply Dwords.append_left (r := ((savedImage n g e c).words.drop 2).drop
    (if c.Outer g then 18 else 16))
  rw [savedWords, List.take_append_drop]
  exact hdrop

/-- At `iret` the registers of the interrupted code are restored, but for the stack pointer, which
is at the frame of the processor. -/
theorem atIret_spec (hn : n < 48) (handler : Cpu → Cpu) (ret : UInt32)
    (h : Returns handler ((atCall n g e c).push ret) 2 (savedWords n g e c)) :
    Stacked (atIret n g e handler ret c) (frameWords g c) ∧
      (atIret n g e handler ret c).reg = (savedImage n g e c).regs ((c.frame g).reg .esp) ∧
      (atIret n g e handler ret c).seg = (savedImage n g e c).segs (atCall n g e c).seg := by
  obtain ⟨-, -, hesp⟩ := atCall_spec hn g e c
  have hkept := h.saved (dwords_savedWords hn g e c ret)
  have hesp' : (handler ((atCall n g e c).push ret)).reg .esp = (atCall n g e c).reg .esp := by
    rw [h.esp]
    exact UInt32.sub_add_cancel _ _
  have hseg := h.seg
  unfold atIret
  rw [intExit_eq, run_append]
  generalize handler ((atCall n g e c).push ret) = c' at hkept hesp' hseg
  -- what the handler leaves in its arguments does not matter
  have hstack : Stacked c' ({ savedImage n g e c with
      intNo1 := c'.mem (c'.reg .esp)
      args := c'.mem (c'.reg .esp + 4) }.words.take 15 ++ frameWords g c) := by
    refine ⟨rfl, rfl, ?_⟩
    have e8 : c'.reg .esp + 4 + 4 = ((atCall n g e c).push ret).reg .esp + 4 + 4 * 2 := by
      rw [hesp']
      show (atCall n g e c).reg .esp + 4 + 4 = (atCall n g e c).reg .esp - 4 + 4 + 4 * 2
      rw [UInt32.sub_add_cancel, UInt32.add_assoc]
      rfl
    rw [savedWords_eq] at hkept
    rw [e8]
    exact hkept
  have e60 : c'.reg .esp + 60 = (c.frame g).reg .esp := by
    rw [hesp', hesp]
    grind
  have hlen : (frameWords g c).length < 2 ^ 29 := by
    unfold frameWords
    split_ifs <;> simp
  rw [run_restoreImage _ (Dwords.append_left hstack)]
  obtain ⟨hend, hreg, hsegs⟩ := run_endOfInterrupt (stacked_restoreImage _ hstack) hlen
  refine ⟨hend, ?_, ?_⟩
  · rw [← e60]
    exact hreg
  · rw [show (atCall n g e c).seg = c'.seg from hseg.symm]
    exact hsegs

/-- An interrupt is transparent: at the call DS, ES and FS are the data segment of the kernel and
the stack has the image, and for every handler that returns the registers are those of the
interrupted code again at `iret`, with the stack pointer at the frame of the processor. -/
structure Transparent (n : ℕ) (g : Gate) (e : UInt32) (c : Cpu) : Prop where
  selectors : ∀ s ∈ [SReg.ds, .es, .fs], (atCall n g e c).seg s = kernDataSelector
  image : Stacked (atCall n g e c) (savedImage n g e c).words
  general : ∀ handler ret, Returns handler ((atCall n g e c).push ret) 2 (savedWords n g e c) →
    ∀ r ≠ .esp, (atIret n g e handler ret c).reg r = c.reg r
  segment : ∀ handler ret, Returns handler ((atCall n g e c).push ret) 2 (savedWords n g e c) →
    ∀ s ∈ [SReg.ds, .es, .fs, .gs], (atIret n g e handler ret c).seg s = c.seg s
  frame : ∀ handler ret, Returns handler ((atCall n g e c).push ret) 2 (savedWords n g e c) →
    Stacked (atIret n g e handler ret c) (frameWords g c) ∧
      (atIret n g e handler ret c).reg .esp = (c.frame g).reg .esp

/-- DS is that of the interrupted code. -/
theorem atCall_ds (hn : n < 48) (g : Gate) (e : UInt32) (c : Cpu) :
    (atCall n g e c).seg .ds = c.seg .ds := by
  rw [(atCall_spec hn g e c).2.1]
  show Function.update (c.frame g).seg .cs g.cs .ds = c.seg .ds
  rw [Function.update_of_ne (by decide), frame_seg, if_neg (by simp)]

theorem atIret_seg (hn : n < 48) {handler : Cpu → Cpu} {ret : UInt32}
    (h : Returns handler ((atCall n g e c).push ret) 2 (savedWords n g e c)) :
    ∀ s ∈ [SReg.ds, .es, .fs, .gs], (atIret n g e handler ret c).seg s = c.seg s := by
  intro s hs
  rw [(atIret_spec hn handler ret h).2.2]
  simp only [List.mem_cons, List.not_mem_nil, or_false] at hs
  rcases hs with rfl | rfl | rfl | rfl
  · exact atCall_ds hn g e c
  · exact UInt16.toUInt16_toUInt32 _
  · exact UInt16.toUInt16_toUInt32 _
  · exact UInt16.toUInt16_toUInt32 _

theorem atIret_reg (hn : n < 48) {handler : Cpu → Cpu} {ret : UInt32}
    (h : Returns handler ((atCall n g e c).push ret) 2 (savedWords n g e c)) :
    ∀ r ≠ .esp, (atIret n g e handler ret c).reg r = c.reg r := by
  intro r hr
  rw [(atIret_spec hn handler ret h).2.1]
  cases r <;> first | rfl | exact absurd rfl hr

theorem transparent_of_ds (hn : n < 48) (g : Gate) (e : UInt32) (c : Cpu) :
    Transparent n g e c ↔ c.seg .ds = kernDataSelector := by
  constructor
  · intro h
    rw [← atCall_ds hn g e c]
    exact h.selectors .ds List.mem_cons_self
  · intro hds
    obtain ⟨himage, hseg, -⟩ := atCall_spec hn g e c
    refine ⟨?_, himage, fun handler ret h => atIret_reg hn h,
      fun handler ret h => atIret_seg hn h, ?_⟩
    · intro s hs
      simp only [List.mem_cons, List.not_mem_nil, or_false] at hs
      rcases hs with rfl | rfl | rfl
      · rw [atCall_ds hn, hds]
      · rw [hseg]
        rfl
      · rw [hseg]
        rfl
    · intro handler ret h
      obtain ⟨hframe, hreg, -⟩ := atIret_spec hn handler ret h
      refine ⟨hframe, ?_⟩
      rw [hreg]
      rfl

section resume

variable {c' : Cpu} (hframe : Stacked c' (frameWords g c)) (hcs : c'.seg .cs = g.cs)
  (hreg : ∀ r ≠ Reg.esp, c'.reg r = c.reg r)
  (hsegs : ∀ s ∈ [SReg.ds, .es, .fs, .gs], c'.seg s = c.seg s)

include hframe hcs hreg hsegs

/-- `iret` to an outer level takes the stack from the frame. -/
theorem iret_frame_outer (hout : c.Outer g)
    (hdpl : ∀ s ∈ [SReg.ds, .es, .fs, .gs], level (c.seg .cs) ≤ gdtDpl (c.seg s)) :
    c'.iret gdtDpl = { c with mem := c'.mem, ports := c'.ports } := by
  have hlevel : level ((c.seg .cs).toUInt32.toUInt16) = level (c.seg .cs) := by
    rw [UInt16.toUInt16_toUInt32]
  unfold frameWords at hframe
  rw [if_pos hout] at hframe
  have hlt : level (c'.seg .cs) < level ((c.seg .cs).toUInt32.toUInt16) := by
    rw [hcs, hlevel]
    exact hout
  rw [iret_outer (l := []) hframe hlt]
  have hkeep : ∀ s ∈ [SReg.ds, .es, .fs, .gs],
      (if gdtDpl (c'.seg s) < level ((c.seg .cs).toUInt32.toUInt16) then 0 else c'.seg s) =
        c.seg s := by
    intro s hs
    rw [hlevel, hsegs s hs, if_neg (Nat.not_lt.mpr (hdpl s hs))]
  ext1
  · funext r
    show Function.update c'.reg .esp (c.reg .esp) r = c.reg r
    by_cases hr : r = .esp
    · rw [hr, Function.update_self]
    · rw [Function.update_of_ne hr, hreg r hr]
  · funext s
    cases s with
    | cs => exact UInt16.toUInt16_toUInt32 _
    | ss => exact UInt16.toUInt16_toUInt32 _
    | ds => exact hkeep .ds (by simp)
    | es => exact hkeep .es (by simp)
    | fs => exact hkeep .fs (by simp)
    | gs => exact hkeep .gs (by simp)
  all_goals rfl

/-- `iret` to the same level goes back to the stack behind the frame. -/
theorem iret_frame_same (hout : ¬ c.Outer g) (hss : c'.seg .ss = (c.frame g).seg .ss)
    (hesp : c'.reg .esp = (c.frame g).reg .esp) :
    c'.iret gdtDpl = { c with mem := c'.mem, ports := c'.ports } := by
  unfold frameWords at hframe
  rw [if_neg hout, List.append_nil] at hframe
  have hle : ¬ level (c'.seg .cs) < level ((c.seg .cs).toUInt32.toUInt16) := by
    rw [hcs, UInt16.toUInt16_toUInt32]
    exact hout
  have hback : c'.reg .esp + 4 + 4 + 4 = c.reg .esp := by
    rw [hesp]
    unfold Cpu.frame
    rw [if_neg hout]
    show c.reg .esp - 4 - 4 - 4 + 4 + 4 + 4 = c.reg .esp
    grind
  rw [iret_same (l := []) hframe hle]
  ext1
  · funext r
    show Function.update c'.reg .esp (c'.reg .esp + 4 + 4 + 4) r = c.reg r
    by_cases hr : r = .esp
    · rw [hr, Function.update_self, hback]
    · rw [Function.update_of_ne hr, hreg r hr]
  · funext s
    show Function.update c'.seg .cs (c.seg .cs).toUInt32.toUInt16 s = c.seg s
    cases s with
    | cs => rw [Function.update_self, UInt16.toUInt16_toUInt32]
    | ss => rw [Function.update_of_ne (by decide), hss, frame_seg, if_neg (fun h => hout h.1)]
    | ds => exact hsegs .ds (by simp)
    | es => exact hsegs .es (by simp)
    | fs => exact hsegs .fs (by simp)
    | gs => exact hsegs .gs (by simp)
  all_goals rfl

end resume

/-- The interrupted code goes on with all its registers, from a user task as long as its data
segment registers select no segment of the kernel. -/
theorem iret_resumes (hn : n < 48) {handler : Cpu → Cpu} {ret : UInt32}
    (h : Returns handler ((atCall n g e c).push ret) 2 (savedWords n g e c))
    (hdpl : c.Outer g → ∀ s ∈ [SReg.ds, .es, .fs, .gs], level (c.seg .cs) ≤ gdtDpl (c.seg s)) :
    ∃ ports mem, (atIret n g e handler ret c).iret gdtDpl =
      { c with mem := mem, ports := ports } := by
  obtain ⟨hframe, hreg, hseg⟩ := atIret_spec hn handler ret h
  have hcs : (atIret n g e handler ret c).seg .cs = g.cs := by
    rw [hseg]
    show (atCall n g e c).seg .cs = g.cs
    rw [(atCall_spec hn g e c).2.1]
    show Function.update (c.frame g).seg .cs g.cs .cs = g.cs
    rw [Function.update_self]
  have hss : (atIret n g e handler ret c).seg .ss = (c.frame g).seg .ss := by
    rw [hseg]
    show (atCall n g e c).seg .ss = _
    rw [(atCall_spec hn g e c).2.1]
    show Function.update (c.frame g).seg .cs g.cs .ss = _
    rw [Function.update_of_ne (by decide)]
  have hregs := atIret_reg hn h
  refine ⟨(atIret n g e handler ret c).ports, (atIret n g e handler ret c).mem, ?_⟩
  by_cases hout : c.Outer g
  · exact iret_frame_outer hframe hcs hregs (atIret_seg hn h) hout (hdpl hout)
  · refine iret_frame_same hframe hcs hregs (atIret_seg hn h) hout hss ?_
    rw [hreg]
    rfl

/-! ### `exit_int` -/

/-- The processor has exactly the registers of an image. -/
structure Loaded (s : InterruptStack) (c : Cpu) : Prop where
  reg : c.reg = s.regs s.esp
  es : c.seg .es = s.es.toUInt16
  fs : c.seg .fs = s.fs.toUInt16
  gs : c.seg .gs = s.gs.toUInt16
  cs : c.seg .cs = s.cs.toUInt16
  ss : c.seg .ss = s.ss.toUInt16
  eip : c.eip = s.eip
  eflags : c.eflags = s.eflags

/-- `exit_int`, with the checks of the processor. -/
def exitIntIret (tss : Descriptor) (c : Cpu) : Option Cpu :=
  (runChecked (gdtSegments tss) exitInt c).bind (Cpu.iretChecked (gdtSegments tss))

/-- The data segment registers take the selectors of an image. -/
def LoadsData (segs : Segments) (cpl : ℕ) (s : InterruptStack) : Prop :=
  CanLoad segs cpl s.gs.toUInt16 ∧ CanLoad segs cpl s.fs.toUInt16 ∧ CanLoad segs cpl s.es.toUInt16

instance (segs : Segments) (cpl : ℕ) (s : InterruptStack) : Decidable (LoadsData segs cpl s) :=
  inferInstanceAs (Decidable (_ ∧ _))

/-- The processor can return to an image: its segment registers, its flags and its code are ones
that the processor takes, and it is for an outer level, with a stack of that level and no data
segment of an inner one; or it is for the same level, and its stack is already the one behind its
flags. -/
structure Loadable (tss : Descriptor) (c : Cpu) (s : InterruptStack) : Prop where
  data : LoadsData (gdtSegments tss) (level (c.seg .cs)) s
  mode : c.eflags &&& modeFlags = 0
  flags : popFlags (level (c.seg .cs)) c.eflags s.eflags = s.eflags
  code : CanReturn (gdtSegments tss) (level (c.seg .cs)) s.cs.toUInt16 s.eip
  stack :
    if level (c.seg .cs) < level s.cs.toUInt16 then
      CanStack (gdtSegments tss) (level s.cs.toUInt16) s.ss.toUInt16 ∧
        ∀ sel ∈ [s.gs, s.fs, s.es], level s.cs.toUInt16 ≤ keptLevel (gdtSegments tss) sel.toUInt16
    else s.esp = c.mem (c.reg .esp + 4) + 72 ∧ s.ss.toUInt16 = c.seg .ss

/-- A selector that is cleared was not 0. -/
theorem cleared_iff (tss : Descriptor) (sel cs : UInt16) :
    (if keptLevel (gdtSegments tss) sel < level cs then 0 else sel) = sel ↔
      level cs ≤ keptLevel (gdtSegments tss) sel := by
  by_cases h : keptLevel (gdtSegments tss) sel < level cs
  · rw [if_pos h]
    refine iff_of_false ?_ (Nat.not_le.mpr h)
    rintro rfl
    have h3 : keptLevel (gdtSegments tss) 0 = 3 := if_pos rfl
    have hlt : level cs < 4 := Nat.mod_lt _ (by decide)
    omega
  · rw [if_neg h]
    exact iff_of_true rfl (Nat.not_lt.mp h)

/-- The selectors of an image are loaded one after the other. -/
theorem runChecked_restoreImage {segs : Segments} (s : InterruptStack)
    (h : Stacked c (s.words.take 15)) : runChecked segs restoreImage c =
      if LoadsData segs (level (c.seg .cs)) s then
        some (run restoreImage c)
      else none := by
  have hcode : restoreImage = [.addImm .esp 8] ++ (popSeg .gs ++ (popSeg .fs ++ (popSeg .es ++
    [.popad, .addImm .esp 8]))) := rfl
  have h₁ : Stacked (run [.addImm .esp 8] c) ((s.words.take 15).drop 2) := by
    rw [run_addEsp]
    exact h.2.2
  have h₂ := popSeg_stacked h₁ .gs
  have h₃ := popSeg_stacked h₂ .fs
  have hcs₁ : (run [.addImm .esp 8] c).seg .cs = c.seg .cs := rfl
  have hcs₂ := (popSeg_cs (d := .gs) (by decide) (run [.addImm .esp 8] c)).trans hcs₁
  have hcs₃ := (popSeg_cs (d := .fs) (by decide) _).trans hcs₂
  have hplain : ∀ c', runChecked segs [.popad, .addImm .esp 8] c' =
      some (run [.popad, .addImm .esp 8] c') := runChecked_of_noLoad rfl
  rw [hcode, runChecked_append, runChecked_of_noLoad rfl, Option.bind_some, runChecked_append,
    runChecked_popSeg h₁, hcs₁]
  by_cases hgs : CanLoad segs (level (c.seg .cs)) s.gs.toUInt16
  · rw [if_pos hgs, Option.bind_some, runChecked_append, runChecked_popSeg h₂, hcs₂]
    by_cases hfs : CanLoad segs (level (c.seg .cs)) s.fs.toUInt16
    · rw [if_pos hfs, Option.bind_some, runChecked_append, runChecked_popSeg h₃, hcs₃]
      by_cases hes : CanLoad segs (level (c.seg .cs)) s.es.toUInt16
      · rw [if_pos hes, Option.bind_some, hplain, if_pos ⟨hgs, hfs, hes⟩, run_append, run_append,
          run_append, run_append]
      · rw [if_neg hes, if_neg fun h' => hes h'.2.2]
        rfl
    · rw [if_neg hfs, if_neg fun h' => hfs h'.2.1]
      rfl
  · rw [if_neg hgs, if_neg fun h' => hgs h'.1]
    rfl

theorem run_exitInt (c : Cpu) : run exitInt c = run restoreImage
    ((c.setReg .eax (c.mem (c.reg .esp + 4))).setReg .esp (c.mem (c.reg .esp + 4))) := by
  have e : run [.load .eax .esp 4, .mov .esp .eax] c =
      (c.setReg .eax (c.mem (c.reg .esp + 4))).setReg .esp (c.mem (c.reg .esp + 4)) := by
    show exec (.mov .esp .eax) (exec (.load .eax .esp 4) c) = _
    rw [exec, exec, Cpu.reg_setReg]
  rw [← e, ← run_append]
  rfl

/-- The processor at `iret`. -/
theorem exitInt_stacked (s : InterruptStack) (c : Cpu)
    (h : Dwords c.mem (c.mem (c.reg .esp + 4)) s.words) :
    run exitInt c =
      { c with reg := s.regs (c.mem (c.reg .esp + 4) + 60), seg := s.segs c.seg } ∧
    Stacked (run exitInt c) [s.eip, s.cs, s.eflags, s.esp, s.ss] := by
  have hs : Stacked ((c.setReg .eax (c.mem (c.reg .esp + 4))).setReg .esp
      (c.mem (c.reg .esp + 4))) (s.words.take 15 ++ [s.eip, s.cs, s.eflags, s.esp, s.ss]) := by
    unfold Stacked
    rw [Cpu.reg_setReg]
    exact h
  have hrun := run_exitInt c
  rw [run_restoreImage s (Dwords.append_left hs), Cpu.reg_setReg] at hrun
  have hframe := stacked_restoreImage s hs
  rw [Cpu.reg_setReg] at hframe
  rw [hrun]
  exact ⟨rfl, hframe⟩

theorem runChecked_exitInt {segs : Segments} (s : InterruptStack) (c : Cpu)
    (h : Dwords c.mem (c.mem (c.reg .esp + 4)) s.words) : runChecked segs exitInt c =
      if LoadsData segs (level (c.seg .cs)) s then
        some (run exitInt c)
      else none := by
  have hcode : exitInt = [.load .eax .esp 4, .mov .esp .eax] ++ restoreImage := rfl
  have hs : Stacked (run [.load .eax .esp 4, .mov .esp .eax] c) (s.words.take 15) := by
    apply Dwords.append_left (r := [s.eip, s.cs, s.eflags, s.esp, s.ss])
    exact h
  rw [hcode, runChecked_append, runChecked_of_noLoad rfl, Option.bind_some,
    runChecked_restoreImage s hs, run_append]
  rfl

/-- What a return loads, where the processor allows it. -/
theorem loaded_iff (tss : Descriptor) (s : InterruptStack) (c : Cpu)
    (h : Dwords c.mem (c.mem (c.reg .esp + 4)) s.words) (flags : UInt32) :
    Loaded s { (run exitInt c).iret (keptLevel (gdtSegments tss)) with eflags := flags } ↔
      flags = s.eflags ∧ if level (c.seg .cs) < level s.cs.toUInt16 then
        ∀ sel ∈ [s.gs, s.fs, s.es], level s.cs.toUInt16 ≤ keptLevel (gdtSegments tss) sel.toUInt16
      else s.esp = c.mem (c.reg .esp + 4) + 72 ∧ s.ss.toUInt16 = c.seg .ss := by
  obtain ⟨hrun, hframe⟩ := exitInt_stacked s c h
  rw [hrun] at hframe ⊢
  by_cases hlt : level (c.seg .cs) < level s.cs.toUInt16
  · rw [if_pos hlt, iret_outer (l := []) hframe hlt]
    constructor
    · intro hl
      refine ⟨hl.eflags, fun sel hsel => ?_⟩
      simp only [List.mem_cons, List.not_mem_nil, or_false] at hsel
      rcases hsel with rfl | rfl | rfl
      · exact (cleared_iff _ _ _).mp hl.gs
      · exact (cleared_iff _ _ _).mp hl.fs
      · exact (cleared_iff _ _ _).mp hl.es
    · rintro ⟨hflags, hsel⟩
      refine ⟨?_, ?_, ?_, ?_, rfl, rfl, rfl, hflags⟩
      · funext r
        cases r <;> rfl
      · exact (cleared_iff _ _ _).mpr (hsel s.es (by simp))
      · exact (cleared_iff _ _ _).mpr (hsel s.fs (by simp))
      · exact (cleared_iff _ _ _).mpr (hsel s.gs (by simp))
  · rw [if_neg hlt, iret_same (l := [s.esp, s.ss]) hframe hlt]
    have e72 : c.mem (c.reg .esp + 4) + 60 + 4 + 4 + 4 = c.mem (c.reg .esp + 4) + 72 := by grind
    constructor
    · intro hl
      have hesp : c.mem (c.reg .esp + 4) + 60 + 4 + 4 + 4 = s.esp := congrFun hl.reg .esp
      exact ⟨hl.eflags, by rw [← hesp, e72], hl.ss.symm⟩
    · rintro ⟨hflags, hesp, hss⟩
      refine ⟨?_, rfl, rfl, rfl, rfl, hss.symm, rfl, hflags⟩
      funext r
      cases r <;> first | rfl | exact e72.trans hesp.symm

theorem exitInt_loads_iff (tss : Descriptor) (s : InterruptStack) (c : Cpu)
    (h : Dwords c.mem (c.mem (c.reg .esp + 4)) s.words) :
    (∃ c₁ ∈ exitIntIret tss c, Loaded s c₁) ↔ Loadable tss c s := by
  obtain ⟨hrun, hframe⟩ := exitInt_stacked s c h
  have hcs : (run exitInt c).seg .cs = c.seg .cs := by rw [hrun]; rfl
  have hflags : (run exitInt c).eflags = c.eflags := by rw [hrun]
  unfold exitIntIret
  rw [runChecked_exitInt s c h]
  by_cases hdata : LoadsData (gdtSegments tss) (level (c.seg .cs)) s
  · rw [if_pos hdata, Option.bind_some, iretChecked_eq (l := []) hframe, hcs, hflags]
    constructor
    · rintro ⟨c₁, hc₁, hl⟩
      split_ifs at hc₁ with hret
      · obtain ⟨hmode, -, hcode, hstack⟩ := hret
        obtain rfl := Option.some.inj hc₁
        obtain ⟨hpop, hrest⟩ := (loaded_iff tss s c h _).mp hl
        refine ⟨hdata, hmode, hpop, hcode, ?_⟩
        by_cases hlt : level (c.seg .cs) < level s.cs.toUInt16
        · rw [if_pos hlt] at hrest ⊢
          exact ⟨hstack hlt, hrest⟩
        · rwa [if_neg hlt] at hrest ⊢
      · exact absurd hc₁ (Option.not_mem_none _)
    · rintro ⟨-, hmode, hpop, hcode, hstack⟩
      have hvm : level (c.seg .cs) = 0 → s.eflags &&& 0x00020000 = 0 := by
        intro h0
        rw [h0] at hpop
        exact popFlags_vm hpop
      have hstk : level (c.seg .cs) < level s.cs.toUInt16 →
          CanStack (gdtSegments tss) (level s.cs.toUInt16) s.ss.toUInt16 := by
        intro hlt
        rw [if_pos hlt] at hstack
        exact hstack.1
      refine ⟨_, if_pos ⟨hmode, hvm, hcode, hstk⟩, (loaded_iff tss s c h _).mpr ⟨hpop, ?_⟩⟩
      by_cases hlt : level (c.seg .cs) < level s.cs.toUInt16
      · rw [if_pos hlt] at hstack ⊢
        exact hstack.2
      · rwa [if_neg hlt] at hstack ⊢
  · rw [if_neg hdata]
    refine iff_of_false ?_ fun h' => hdata h'.data
    rintro ⟨c₁, hc₁, -⟩
    exact absurd hc₁ (Option.not_mem_none _)

/-- The image with which `start_user_task` enters the function of a user task. -/
def userTaskImage (function userStack : UInt32) : InterruptStack where
  intNo1 := 1
  args := 0
  gs := 0
  fs := 0
  es := 0
  edi := 0
  esi := 0
  ebp := 0
  espDuplicate := 0
  ebx := 0
  edx := 0
  ecx := 0
  eax := 0
  intNo2 := 0
  errorNo := 0
  eip := function
  cs := 0x23
  eflags := 0x202
  esp := userStack
  ss := 0x2B

/-- The segments of the user tasks. -/
theorem gdtSegments_user (tss : Descriptor) :
    gdtSegments tss 0x23 = some (gdtDesc 0x0000FFFF 0x00CFF800) ∧
      gdtSegments tss 0x2B = some (gdtDesc 0x0000FFFF 0x00CFF200) := by
  unfold gdtSegments
  rw [if_neg (by decide), if_neg (by decide)]
  exact ⟨rfl, rfl⟩

/-- The kernel can return to the image of a user task. -/
theorem loadable_userTask (tss : Descriptor) (function userStack : UInt32) (c : Cpu)
    (hlevel : level (c.seg .cs) = 0) (hmode : c.eflags &&& modeFlags = 0) :
    Loadable tss c (userTaskImage function userStack) := by
  obtain ⟨hcode, hdata⟩ := gdtSegments_user tss
  have hcs : (userTaskImage function userStack).cs.toUInt16 = 0x23 := by
    show (0x23 : UInt32).toUInt16 = 0x23
    decide
  have hss : (userTaskImage function userStack).ss.toUInt16 = 0x2B := by
    show (0x2B : UInt32).toUInt16 = 0x2B
    decide
  have heflags : (userTaskImage function userStack).eflags = 0x202 := rfl
  have hnull : ∀ sel ∈ [(userTaskImage function userStack).gs,
      (userTaskImage function userStack).fs, (userTaskImage function userStack).es], sel = 0 := by
    simp [userTaskImage]
  have hlimit : (gdtDesc 0x0000FFFF 0x00CFF800).limit = 2 ^ 32 - 1 := by decide
  have hzero : CanLoad (gdtSegments tss) (level (c.seg .cs)) (0 : UInt32).toUInt16 :=
    .inl (by decide)
  refine ⟨⟨hzero, hzero, hzero⟩, hmode, ?_, ?_, ?_⟩
  · rw [hlevel, popFlags_kernel, heflags]
    decide
  · rw [hlevel, hcs]
    refine ⟨_, hcode, by decide, by decide, by decide, by decide, ?_⟩
    rw [hlimit]
    exact Nat.le_sub_one_of_lt function.toNat_lt
  · rw [hlevel, hcs, hss, if_pos (by decide)]
    refine ⟨⟨_, hdata, by decide, by decide, by decide, by decide⟩, ?_⟩
    intro sel hsel
    rw [hnull sel hsel]
    exact le_of_eq (if_pos rfl).symm

/-- `start_user_task` enters its function with the registers of the image. -/
theorem exitInt_userTask (tss : Descriptor) (function userStack : UInt32) (c : Cpu)
    (hlevel : level (c.seg .cs) = 0) (hmode : c.eflags &&& modeFlags = 0)
    (h : Dwords c.mem (c.mem (c.reg .esp + 4)) (userTaskImage function userStack).words) :
    ∃ c₁ ∈ exitIntIret tss c, Loaded (userTaskImage function userStack) c₁ :=
  (exitInt_loads_iff tss _ c h).mpr (loadable_userTask tss function userStack c hlevel hmode)

/-- **Entry and exit of interrupts**: for every vector an interrupt is transparent exactly when the
interrupted code has the data segment of the kernel in DS, and `exit_int` loads exactly the
registers of the images that the processor can return to. -/
theorem transparent_iff (hn : n < 48) (offset esp0 e : UInt32) (c : Cpu) (tss : Descriptor)
    (s : InterruptStack) (c' : Cpu) (h : Dwords c'.mem (c'.mem (c'.reg .esp + 4)) s.words) :
    (Transparent n (intGate offset esp0) e c ↔ c.seg .ds = kernDataSelector) ∧
    ((∃ c₁ ∈ exitIntIret tss c', Loaded s c₁) ↔ Loadable tss c' s) :=
  ⟨transparent_of_ds hn (intGate offset esp0) e c, exitInt_loads_iff tss s c' h⟩

/-- The kernel with the image of a user task at 0x1000. -/
def leavingKernel : Cpu where
  reg _ := 0
  seg s := if s = .cs then 0x08 else 0x10
  eip := 0
  eflags := 0x202
  mem a :=
    if a = 4 then 0x1000
    else (userTaskImage 0x8048000 0xBFFFF000).words.getD ((a - 0x1000).toNat / 4) 0
  ports := []

theorem dwords_leavingKernel :
    Dwords leavingKernel.mem 0x1000 (userTaskImage 0x8048000 0xBFFFF000).words := by
  repeat' constructor

/-- Kernel code that is interrupted by a page fault, and the start of a user task. -/
theorem transparent_kernelCode : Transparent 14 (intGate 0 0) 2 leavingKernel ∧
    ∃ c₁ ∈ exitIntIret (gdtDesc 0x10000068 0x00808920) leavingKernel,
      Loaded (userTaskImage 0x8048000 0xBFFFF000) c₁ := by
  obtain ⟨hentry, hexit⟩ := transparent_iff (n := 14) (by decide) 0 0 2 leavingKernel
    (gdtDesc 0x10000068 0x00808920) (userTaskImage 0x8048000 0xBFFFF000) leavingKernel
    dwords_leavingKernel
  exact ⟨hentry.mpr rfl, hexit.mpr (loadable_userTask _ _ _ _ rfl rfl)⟩

/-- The timer interrupts a user task that has its own data segment in DS: the handler runs with
it. -/
theorem not_transparent_userTask : ¬ Transparent 32 (intGate 0 0xC0200000) 0
    ⟨fun _ => 0, fun s => if s = .cs then 0x23 else 0x2B, 0, 0x202, fun _ => 0, []⟩ := by
  intro h
  have hds := h.selectors .ds List.mem_cons_self
  rw [atCall_ds (by decide)] at hds
  exact absurd hds (by decide)

end BHOS
