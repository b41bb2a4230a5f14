import BHOS.Lib.X86

/-! # Stores, flags and returns of the 32-bit x86 processor

`Op` has the instructions of `Instr` and, beside them, those that store a register, that move the
flags to the stack and back, and that return.  `KeepsOutside` says which dwords a piece of code may
have written. -/

namespace X86

/-- What `pushf` pushes: RF and VM are cleared in the image. -/
def pushfImage (eflags : UInt32) : UInt32 := eflags &&& 0x00FCFFFF

/-- The flags after `popf` at level 0: RF, VIF, VIP and the reserved bits are not loaded. -/
def popfFlags (v : UInt32) : UInt32 := (v &&& 0x00247FD5) ||| 0x2

/-- The instructions with stores, flags and returns. -/
inductive Op
  | instr (i : Instr)
  | store (base : Reg) (disp : UInt32) (s : Reg)
  | pushMem (base : Reg)
  | pushf
  | popf
  | ret
deriving DecidableEq

/-- The effect of one of them. -/
def perform : Op → Cpu → Cpu
  | .instr i, c => exec i c
  | .store base disp s, c =>
      { c with mem := Function.update c.mem (c.reg base + disp) (c.reg s) }
  | .pushMem base, c => c.push (c.mem (c.reg base))
  | .pushf, c => c.push (pushfImage c.eflags)
  | .popf, c => { c.drop with eflags := popfFlags (c.mem (c.reg .esp)) }
  | .ret, c => { c.drop with eip := c.mem (c.reg .esp) }

/-- One after the other. -/
def performAll (code : List Op) (c : Cpu) : Cpu := code.foldl (fun c o => perform o c) c

theorem performAll_append (code₁ code₂ : List Op) (c : Cpu) :
    performAll (code₁ ++ code₂) c = performAll code₂ (performAll code₁ c) := List.foldl_append

theorem performAll_cons (o : Op) (code : List Op) (c : Cpu) :
    performAll (o :: code) c = performAll code (perform o c) := rfl

theorem withLow8_toUInt8 (v : UInt32) (b : UInt8) : (withLow8 v b).toUInt8 = b := by
  have hhigh : (0xFFFFFF00 : UInt32).toUInt8 = 0 := by decide
  unfold withLow8
  rw [UInt32.toUInt8_or, UInt32.toUInt8_and, hhigh, UInt8.and_zero, UInt8.zero_or,
    UInt8.toUInt8_toUInt32]

theorem popfFlags_pushfImage (v : UInt32) : popfFlags (pushfImage v) = popfFlags v := by
  have e : (0x00FCFFFF : UInt32) &&& 0x00247FD5 = 0x00247FD5 := by decide
  unfold popfFlags pushfImage
  rw [UInt32.and_assoc, e]

/-- The memories agree on the dwords whose addresses are not in the list. -/
def KeepsOutside (l : List UInt32) (mem mem' : UInt32 → UInt32) : Prop :=
  ∀ x, x ∉ l → mem' x = mem x

variable {l l' : List UInt32} {mem mem' mem'' : UInt32 → UInt32}

theorem KeepsOutside.refl (l : List UInt32) (mem : UInt32 → UInt32) : KeepsOutside l mem mem :=
  fun _ _ => rfl

theorem KeepsOutside.mono (h : KeepsOutside l mem mem') (hl : l ⊆ l') :
    KeepsOutside l' mem mem' := fun x hx => h x fun hmem => hx (hl hmem)

theorem KeepsOutside.trans (h : KeepsOutside l mem mem') (h' : KeepsOutside l mem' mem'') :
    KeepsOutside l mem mem'' := fun x hx => (h' x hx).trans (h x hx)

theorem KeepsOutside.append (h : KeepsOutside l mem mem') (h' : KeepsOutside l' mem' mem'') :
    KeepsOutside (l ++ l') mem mem'' :=
  (h.mono (List.subset_append_left l l')).trans (h'.mono (List.subset_append_right l l'))

theorem keepsOutside_update (mem : UInt32 → UInt32) (a v : UInt32) :
    KeepsOutside [a] mem (Function.update mem a v) := by
  intro x hx
  rw [List.mem_singleton] at hx
  exact Function.update_of_ne hx _ _

/-- Dwords written one after the other. -/
def writeAll (mem : UInt32 → UInt32) (ws : List (UInt32 × UInt32)) : UInt32 → UInt32 :=
  ws.foldl (fun m w => Function.update m w.1 w.2) mem

theorem writeAll_keeps (mem : UInt32 → UInt32) (ws : List (UInt32 × UInt32)) :
    KeepsOutside (ws.map Prod.fst) mem (writeAll mem ws) := by
  induction ws generalizing mem with
  | nil => exact KeepsOutside.refl _ _
  | cons w ws ih => exact (keepsOutside_update mem w.1 w.2).append (ih _)

/-- Dwords written at offsets from an address. -/
def writeAt (mem : UInt32 → UInt32) (a : UInt32) (ws : List (UInt32 × UInt32)) :
    UInt32 → UInt32 := writeAll mem (ws.map fun w => (a + w.1, w.2))

theorem writeAt_keeps (mem : UInt32 → UInt32) (a : UInt32) {ws : List (UInt32 × UInt32)}
    {offsets : List UInt32} (h : ws.map Prod.fst ⊆ offsets) :
    KeepsOutside (offsets.map (a + ·)) mem (writeAt mem a ws) := by
  have e : (ws.map fun w => (a + w.1, w.2)).map Prod.fst = (ws.map Prod.fst).map (a + ·) := by
    rw [List.map_map, List.map_map]
    rfl
  have hkeeps := writeAll_keeps mem (ws.map fun w => (a + w.1, w.2))
  rw [e] at hkeeps
  exact hkeeps.mono (List.map_subset _ h)

/-- Dwords stand in every memory that has the same at their addresses. -/
theorem Dwords.congr {vs : List UInt32} {a : UInt32} (h : Dwords mem a vs)
    (heq : ∀ k < vs.length, mem' (a + UInt32.ofNat (4 * k)) = mem (a + UInt32.ofNat (4 * k))) :
    Dwords mem' a vs := by
  induction vs generalizing a with
  | nil => trivial
  | cons v vs ih =>
      have h0 := heq 0 (Nat.succ_pos _)
      have ea : a + UInt32.ofNat (4 * 0) = a := UInt32.add_zero a
      rw [ea] at h0
      refine ⟨h0.trans h.1, ih h.2 fun k hk => ?_⟩
      have e : a + 4 + UInt32.ofNat (4 * k) = a + UInt32.ofNat (4 * (k + 1)) := by
        rw [Nat.mul_succ, Nat.add_comm, UInt32.ofNat_add, ← UInt32.add_assoc]
        rfl
      rw [e]
      exact heq (k + 1) (Nat.succ_lt_succ hk)

end X86
