import BHOS.Lib.X86

/-! # Gate descriptors of the 32-bit x86 processor

The eight bytes of a descriptor in the interrupt descriptor table. -/

namespace X86

/-- The fields of a gate descriptor. -/
structure GateDescriptor where
  offset : ℕ
  selector : ℕ
  type : ℕ
  s : ℕ
  dpl : ℕ
  p : ℕ
deriving DecidableEq, Repr

/-- The descriptor in eight bytes. -/
def GateDescriptor.decode (bytes : List UInt8) : GateDescriptor :=
  let v := littleEndian bytes
  { offset := field v 0 16 + 2 ^ 16 * field v 48 16
    selector := field v 16 16
    type := field v 40 4
    s := field v 44 1
    dpl := field v 45 2
    p := field v 47 1 }

/-- The present 32-bit interrupt gate of level 0 for a handler in a code segment. -/
def interruptGate (offset : UInt32) (selector : UInt16) : GateDescriptor where
  offset := offset.toNat
  selector := selector.toNat
  type := 0xE
  s := 0
  dpl := 0
  p := 1

/-- The number in two words, two bytes and a word. -/
theorem littleEndian_gate (w₀ w₁ : UInt16) (b₀ b₁ : UInt8) (w₂ : UInt16) :
    littleEndian [w₀.toUInt8, (w₀ >>> 8).toUInt8, w₁.toUInt8, (w₁ >>> 8).toUInt8, b₀, b₁,
      w₂.toUInt8, (w₂ >>> 8).toUInt8] =
    w₀.toNat + 2 ^ 16 * w₁.toNat + 2 ^ 32 * b₀.toNat + 2 ^ 40 * b₁.toNat + 2 ^ 48 * w₂.toNat := by
  have hword : ∀ w : UInt16, w.toUInt8.toNat + 256 * (w >>> 8).toUInt8.toNat = w.toNat := by
    intro w
    have hlt := w.toNat_lt
    simp only [UInt16.toNat_toUInt8, UInt16.toNat_shiftRight, UInt16.reduceToNat, Nat.reduceMod,
      Nat.shiftRight_eq_div_pow, Nat.reducePow]
    omega
  unfold littleEndian
  simp only [List.foldr_cons, List.foldr_nil]
  rw [← hword w₀, ← hword w₁, ← hword w₂]
  omega

/-- The processor reads the fields. -/
theorem decode_gate (w₀ w₁ : UInt16) (b₀ b₁ : UInt8) (w₂ : UInt16) :
    GateDescriptor.decode [w₀.toUInt8, (w₀ >>> 8).toUInt8, w₁.toUInt8, (w₁ >>> 8).toUInt8, b₀, b₁,
      w₂.toUInt8, (w₂ >>> 8).toUInt8] =
    { offset := w₀.toNat + 2 ^ 16 * w₂.toNat
      selector := w₁.toNat
      type := b₁.toNat % 2 ^ 4
      s := b₁.toNat / 2 ^ 4 % 2
      dpl := b₁.toNat / 2 ^ 5 % 2 ^ 2
      p := b₁.toNat / 2 ^ 7 } := by
  have h₀ := w₀.toNat_lt
  have h₁ := w₁.toNat_lt
  have h₂ := b₀.toNat_lt
  have h₃ := b₁.toNat_lt
  have h₄ := w₂.toNat_lt
  unfold GateDescriptor.decode field
  rw [littleEndian_gate]
  dsimp only
  congr 1 <;> omega

end X86
