import BHOS.Lib.X86

/-! # The descriptor of the task state segment (`tss.c`, `tss.h`)

`tss_init` describes `tss_cpu0` by a descriptor with the limit in bytes.  The high attributes have
the granularity bit, so the processor counts that limit in pages. -/

namespace BHOS

open X86

/-- `TSS_ATTR_LOW`. -/
def tssAttrLow : UInt8 := 0x89

/-- `TSS_ATTR_HIGH`. -/
def tssAttrHigh : UInt8 := 0x80

/-- `tss_desc_t`. -/
structure TssDesc where
  limitLowWord : UInt16
  baseLowWord : UInt16
  baseMidByte : UInt8
  attrLowByte : UInt8
  limitHighAttrHigh : UInt8
  baseHighByte : UInt8
deriving DecidableEq, Repr

/-- The bytes of the packed structure. -/
def TssDesc.bytes (d : TssDesc) : List UInt8 :=
  [d.limitLowWord.toUInt8, (d.limitLowWord >>> 8).toUInt8, d.baseLowWord.toUInt8,
    (d.baseLowWord >>> 8).toUInt8, d.baseMidByte, d.attrLowByte, d.limitHighAttrHigh,
    d.baseHighByte]

/-- `create_tss_desc`. -/
def createTssDesc (descBase limit : UInt32) (attrLow attrHigh : UInt8) : TssDesc where
  limitLowWord := (limit &&& 0x0000FFFF).toUInt16
  baseLowWord := (descBase &&& 0x0000FFFF).toUInt16
  baseMidByte := ((descBase &&& 0x00FF0000) >>> 16).toUInt8
  attrLowByte := attrLow
  limitHighAttrHigh := (((limit &&& 0x000F0000) >>> 16) + attrHigh.toUInt32).toUInt8
  baseHighByte := (descBase >>> 24).toUInt8

/-- What `tss_init` writes for a segment at `descBase` of size `tssSize`, as the processor reads
it. -/
def tssDescriptor (descBase tssSize : UInt32) : Descriptor :=
  Descriptor.decode (createTssDesc descBase (tssSize - 1) tssAttrLow tssAttrHigh).bytes

/-- The descriptor describes the segment: a TSS at the base that ends with the last byte of the
segment, so that the bitmap offset `io_base`, which is the size, is behind it. -/
structure Describes (d : Descriptor) (descBase tssSize : UInt32) : Prop where
  base : d.base = descBase.toNat
  isTss : d.IsTss
  covers : ∀ offset, offset ≤ d.limit ↔ offset < tssSize.toNat
  ioBase : d.limit < tssSize.toNat

theorem value_bytes (d : TssDesc) : littleEndian d.bytes = d.limitLowWord.toNat +
    2 ^ 16 * d.baseLowWord.toNat + 2 ^ 32 * d.baseMidByte.toNat + 2 ^ 40 * d.attrLowByte.toNat +
    2 ^ 48 * d.limitHighAttrHigh.toNat + 2 ^ 56 * d.baseHighByte.toNat := by
  have hword : ∀ w : UInt16, w.toUInt8.toNat + 256 * (w >>> 8).toUInt8.toNat = w.toNat := by
    intro w
    have hlt := w.toNat_lt
    simp only [UInt16.toNat_toUInt8, UInt16.toNat_shiftRight, UInt16.reduceToNat, Nat.reduceMod,
      Nat.shiftRight_eq_div_pow, Nat.reducePow]
    omega
  unfold littleEndian TssDesc.bytes
  simp only [List.foldr_cons, List.foldr_nil]
  rw [← hword d.limitLowWord, ← hword d.baseLowWord]
  omega

/-- The processor reads the fields of the structure. -/
theorem decode_bytes (d : TssDesc) : Descriptor.decode d.bytes =
    { limit20 := d.limitLowWord.toNat + 2 ^ 16 * (d.limitHighAttrHigh.toNat % 2 ^ 4)
      base := d.baseLowWord.toNat + 2 ^ 16 * d.baseMidByte.toNat + 2 ^ 24 * d.baseHighByte.toNat
      type := d.attrLowByte.toNat % 2 ^ 4
      s := d.attrLowByte.toNat / 2 ^ 4 % 2
      dpl := d.attrLowByte.toNat / 2 ^ 5 % 2 ^ 2
      p := d.attrLowByte.toNat / 2 ^ 7
      g := d.limitHighAttrHigh.toNat / 2 ^ 7 } := by
  have h₁ := d.limitLowWord.toNat_lt
  have h₂ := d.baseLowWord.toNat_lt
  have h₃ := d.baseMidByte.toNat_lt
  have h₄ := d.attrLowByte.toNat_lt
  have h₅ := d.limitHighAttrHigh.toNat_lt
  have h₆ := d.baseHighByte.toNat_lt
  unfold Descriptor.decode field
  rw [value_bytes]
  dsimp only
  congr 1 <;> omega

/-- Masking a field of a word and shifting it down. -/
theorem masked_shift (v : UInt32) {m k w : ℕ} (hk : k < 32) (hm : m = (2 ^ w - 1) * 2 ^ k)
    (hlt : m < 2 ^ 32) :
    ((v &&& UInt32.ofNat m) >>> UInt32.ofNat k).toNat = v.toNat / 2 ^ k % 2 ^ w := by
  have hm' : (UInt32.ofNat m).toNat = m := UInt32.toNat_ofNat_of_lt' hlt
  have hk' : (UInt32.ofNat k).toNat % 32 = k := by
    rw [UInt32.toNat_ofNat']
    omega
  have hmask : m >>> k = 2 ^ w - 1 := by
    rw [hm, Nat.shiftRight_eq_div_pow, Nat.mul_div_cancel _ (Nat.two_pow_pos k)]
  rw [UInt32.toNat_shiftRight, UInt32.toNat_and, hm', hk', Nat.shiftRight_and_distrib, hmask,
    Nat.and_two_pow_sub_one_eq_mod, Nat.shiftRight_eq_div_pow]

section fields
variable (descBase limit : UInt32)

theorem limitLowWord_eq :
    (createTssDesc descBase limit tssAttrLow tssAttrHigh).limitLowWord.toNat =
      limit.toNat % 2 ^ 16 := by
  have h : (limit &&& 0xFFFF).toNat = limit.toNat % 2 ^ 16 := Nat.and_two_pow_sub_one_eq_mod _ 16
  show (limit &&& 0xFFFF).toUInt16.toNat = _
  rw [UInt32.toNat_toUInt16, h]
  omega

theorem baseLowWord_eq :
    (createTssDesc descBase limit tssAttrLow tssAttrHigh).baseLowWord.toNat =
      descBase.toNat % 2 ^ 16 := by
  have h : (descBase &&& 0xFFFF).toNat = descBase.toNat % 2 ^ 16 :=
    Nat.and_two_pow_sub_one_eq_mod _ 16
  show (descBase &&& 0xFFFF).toUInt16.toNat = _
  rw [UInt32.toNat_toUInt16, h]
  omega

theorem baseMidByte_eq :
    (createTssDesc descBase limit tssAttrLow tssAttrHigh).baseMidByte.toNat =
      descBase.toNat / 2 ^ 16 % 2 ^ 8 := by
  have h : ((descBase &&& 0x00FF0000) >>> 16).toNat = descBase.toNat / 2 ^ 16 % 2 ^ 8 :=
    masked_shift descBase (m := 0x00FF0000) (k := 16) (by decide) rfl (by decide)
  show ((descBase &&& 0x00FF0000) >>> 16).toUInt8.toNat = _
  rw [UInt32.toNat_toUInt8, h]
  omega

theorem baseHighByte_eq :
    (createTssDesc descBase limit tssAttrLow tssAttrHigh).baseHighByte.toNat =
      descBase.toNat / 2 ^ 24 := by
  have hlt := descBase.toNat_lt
  have h : (descBase >>> 24).toNat = descBase.toNat / 2 ^ 24 := by
    rw [UInt32.toNat_shiftRight, Nat.shiftRight_eq_div_pow]
    rfl
  show (descBase >>> 24).toUInt8.toNat = _
  rw [UInt32.toNat_toUInt8, h]
  omega

theorem limitHighAttrHigh_eq :
    (createTssDesc descBase limit tssAttrLow tssAttrHigh).limitHighAttrHigh.toNat =
      limit.toNat / 2 ^ 16 % 2 ^ 4 + 128 := by
  have h : ((limit &&& 0x000F0000) >>> 16).toNat = limit.toNat / 2 ^ 16 % 2 ^ 4 :=
    masked_shift limit (m := 0x000F0000) (k := 16) (by decide) rfl (by decide)
  have hattr : tssAttrHigh.toUInt32.toNat = 128 := by decide
  show (((limit &&& 0x000F0000) >>> 16) + tssAttrHigh.toUInt32).toUInt8.toNat = _
  rw [UInt32.toNat_toUInt8, UInt32.toNat_add, hattr, h]
  omega

end fields

/-- What the processor reads: the base and the kind are right, and the limit in bytes is taken for a
limit in pages. -/
theorem tssDescriptor_eq (descBase tssSize : UInt32) (hpos : 1 ≤ tssSize.toNat)
    (hle : tssSize.toNat ≤ 2 ^ 20) : tssDescriptor descBase tssSize =
      { limit20 := tssSize.toNat - 1, base := descBase.toNat, type := 9, s := 0, dpl := 0, p := 1,
        g := 1 } := by
  have hbase := descBase.toNat_lt
  have hlimit : (tssSize - 1).toNat = tssSize.toNat - 1 := by
    rw [UInt32.toNat_sub, UInt32.toNat_one]
    omega
  have hattr : (createTssDesc descBase (tssSize - 1) tssAttrLow tssAttrHigh).attrLowByte.toNat =
    137 := rfl
  unfold tssDescriptor
  rw [decode_bytes, limitLowWord_eq, baseLowWord_eq, baseMidByte_eq, hattr, limitHighAttrHigh_eq,
    baseHighByte_eq, hlimit]
  congr 1 <;> omega

/-- **The descriptor never describes its segment**: base, kind and level are right, but the segment
ends with byte `4096 * tssSize - 1`, and the offset of the bitmap is inside it. -/
theorem not_describes (descBase tssSize : UInt32) (hpos : 1 ≤ tssSize.toNat)
    (hle : tssSize.toNat ≤ 2 ^ 20) :
    ¬ Describes (tssDescriptor descBase tssSize) descBase tssSize ∧
      (tssDescriptor descBase tssSize).base = descBase.toNat ∧
      (tssDescriptor descBase tssSize).IsTss ∧
      (tssDescriptor descBase tssSize).limit = 4096 * tssSize.toNat - 1 := by
  have heq := tssDescriptor_eq descBase tssSize hpos hle
  have hlimit : (tssDescriptor descBase tssSize).limit = 4096 * tssSize.toNat - 1 := by
    rw [heq]
    unfold Descriptor.limit
    rw [if_pos rfl]
    dsimp only
    omega
  refine ⟨fun h => ?_, by rw [heq], by rw [heq]; exact ⟨rfl, rfl, rfl, rfl⟩, hlimit⟩
  have hio := h.ioBase
  omega

/-- The segment of `tss_cpu0` has 108 bytes. -/
theorem not_describes_tssCpu0 :
    ¬ Describes (tssDescriptor 0xC0110000 108) 0xC0110000 108 ∧
      (tssDescriptor 0xC0110000 108).base = (0xC0110000 : UInt32).toNat ∧
      (tssDescriptor 0xC0110000 108).IsTss ∧
      (tssDescriptor 0xC0110000 108).limit = 4096 * (108 : UInt32).toNat - 1 :=
  not_describes 0xC0110000 108 (by decide) (by decide)

/-- Byte 108 is inside the segment of `tss_cpu0`. -/
theorem not_covers_tssCpu0 : ¬ Describes (tssDescriptor 0xC0110000 108) 0xC0110000 108 :=
  fun h => absurd h.ioBase (by decide)

/-! ### `tss_cpu0` -/

/-- The dwords of `tss_t` with those that `tss_init` and `tss_update` write: `esp0`, `ss0` and
`io_base`. -/
def tssT (esp0 ss0 ioBase : UInt32) : List UInt32 :=
  [0, esp0, ss0] ++ List.replicate 23 0 ++ [ioBase]

/-- `sizeof(tss_t)`. -/
def tssSize : UInt32 := 108

theorem length_tssT (esp0 ss0 ioBase : UInt32) :
    4 * (tssT esp0 ss0 ioBase).length = tssSize.toNat := rfl

/-- `io_base` follows the dword `trace`, and the processor looks for the offset of the bitmap in the
upper half of `trace`: it finds 0, whatever `io_base` is. -/
theorem ioMapBase_tssT (esp0 ss0 ioBase : UInt32) : ioMapBase (tssT esp0 ss0 ioBase) = 0 := by
  show field (0 : UInt32).toNat 16 16 = 0
  decide

end BHOS
