import Mathlib.Logic.Function.Basic
import BHOS.Lib.Words

/-! # Two-level paging

Physical memory is read and written in aligned words.  `translate` is the walk of the MMU: the
directory at `cr3` has one entry for every 4 MiB, each present entry points to a page table with
one entry for every page.  `getPte` and `getPde` are the virtual addresses under which `vmm.c`
reaches the table and directory entries of an address when entry 1023 of the directory maps the
directory itself (`SelfMapped`); the last section shows that the walk takes them there. -/

namespace BHOS

/-- Physical memory, by the address of an aligned word. -/
abbrev PhysMem := UInt32 → UInt32

/-- The frame a directory or table entry points to. -/
def frame (desc : UInt32) : UInt32 := desc &&& 0xFFFFF000

/-- The P bit of an entry. -/
def Present (desc : UInt32) : Prop := desc &&& 1 = 1

instance (desc : UInt32) : Decidable (Present desc) := inferInstanceAs (Decidable (_ = _))

/-- The physical address of the directory entry of a virtual address. -/
def dirEntry (cr3 vaddr : UInt32) : UInt32 := frame cr3 + (vaddr >>> 22) * 4

/-- The physical address of the entry of a virtual address in the table that a directory entry
points to. -/
def tableEntry (pde vaddr : UInt32) : UInt32 := frame pde + ((vaddr >>> 12) &&& 0x3FF) * 4

/-- The walk of the MMU; `none` is a page fault. -/
def translate (m : PhysMem) (cr3 vaddr : UInt32) : Option UInt32 :=
  if Present (m (dirEntry cr3 vaddr)) then
    if Present (m (tableEntry (m (dirEntry cr3 vaddr)) vaddr)) then
      some (frame (m (tableEntry (m (dirEntry cr3 vaddr)) vaddr)) + (vaddr &&& 0xFFF))
    else none
  else none

/-- `get_pte`. -/
def getPte (target : UInt32) : UInt32 :=
  let target := target &&& 0xFFFFF000
  let addrHigh10 := (0x3FF : UInt32) <<< 22
  let addrMiddle10 : UInt32 := (target >>> 10) &&& 0x003FF000
  let addrLow12 : UInt32 := (((target >>> 12) &&& 0x3FF) * 4) &&& 0x00000FFF
  addrHigh10 ||| addrMiddle10 ||| addrLow12

/-- `get_pde`. -/
def getPde (target : UInt32) : UInt32 :=
  let target := target &&& 0xFFFFF000
  let addrHigh10 := (0x3FF : UInt32) <<< 22
  let addrMiddle10 : UInt32 := 0x003FF000
  let addrLow12 : UInt32 := (((target >>> 22) &&& 0x3FF) * 4) &&& 0x00000FFF
  addrHigh10 ||| addrMiddle10 ||| addrLow12

variable {m : PhysMem} {cr3 v pde : UInt32}

/-! ### Addresses as numbers -/

theorem frame_toNat (x : UInt32) : (frame x).toNat = x.toNat / 4096 * 4096 :=
  Words.toNat_and_frame x

theorem present_iff (x : UInt32) : Present x ↔ x.toNat % 2 = 1 := by
  rw [Present, ← UInt32.toNat_inj, Words.toNat_and_one]
  rfl

theorem dirEntry_toNat (cr3 v : UInt32) :
    (dirEntry cr3 v).toNat = cr3.toNat / 4096 * 4096 + v.toNat / 2 ^ 22 * 4 := by
  have h₁ := cr3.toNat_lt
  have h₂ := v.toNat_lt
  simp only [dirEntry, UInt32.toNat_add, UInt32.toNat_mul, UInt32.toNat_shiftRight, frame_toNat,
    UInt32.reduceToNat, Nat.reduceMod, Nat.shiftRight_eq_div_pow]
  omega

theorem tableEntry_toNat (pde v : UInt32) :
    (tableEntry pde v).toNat = pde.toNat / 4096 * 4096 + v.toNat / 4096 % 1024 * 4 := by
  have h₁ := pde.toNat_lt
  simp only [tableEntry, UInt32.toNat_add, UInt32.toNat_mul, Words.toNat_and_index,
    UInt32.toNat_shiftRight, frame_toNat, UInt32.reduceToNat, Nat.reduceMod,
    Nat.shiftRight_eq_div_pow]
  omega

theorem frame_add_offset_toNat (x v : UInt32) :
    (frame x + (v &&& 0xFFF)).toNat = x.toNat / 4096 * 4096 + v.toNat % 4096 := by
  have h₁ := x.toNat_lt
  simp only [UInt32.toNat_add, frame_toNat, Words.toNat_and_offset]
  omega

theorem getPte_toNat (v : UInt32) : (getPte v).toNat = 0xFFC00000 + v.toNat / 4096 * 4 := by
  have hv := v.toNat_lt
  have hmid : (((v &&& 0xFFFFF000) >>> 10) &&& 0x003FF000).toNat = v.toNat / 2 ^ 22 * 4096 := by
    simp only [Words.toNat_and_middle, UInt32.toNat_shiftRight, Words.toNat_and_frame,
      UInt32.reduceToNat, Nat.reduceMod, Nat.shiftRight_eq_div_pow]
    omega
  have hlow : (((((v &&& 0xFFFFF000) >>> 12) &&& 0x3FF) * 4) &&& 0xFFF).toNat =
      v.toNat / 4096 % 1024 * 4 := by
    simp only [Words.toNat_and_offset, UInt32.toNat_mul, Words.toNat_and_index,
      UInt32.toNat_shiftRight, Words.toNat_and_frame, UInt32.reduceToNat, Nat.reduceMod,
      Nat.shiftRight_eq_div_pow]
    omega
  have hhigh : ((0x3FF : UInt32) <<< 22).toNat = 0xFFC00000 := by decide
  have h₁ : ((0x3FF : UInt32) <<< 22 ||| (((v &&& 0xFFFFF000) >>> 10) &&& 0x003FF000)).toNat =
      0xFFC00000 + v.toNat / 2 ^ 22 * 4096 := by
    rw [Words.toNat_or _ _ 22 (by rw [hhigh]; rfl) (by rw [hmid]; omega), hhigh, hmid]
  rw [getPte, Words.toNat_or _ _ 12 (by rw [h₁]; omega) (by rw [hlow]; omega), h₁, hlow]
  omega

theorem getPde_toNat (v : UInt32) : (getPde v).toNat = 0xFFFFF000 + v.toNat / 2 ^ 22 * 4 := by
  have hv := v.toNat_lt
  have hlow : (((((v &&& 0xFFFFF000) >>> 22) &&& 0x3FF) * 4) &&& 0xFFF).toNat =
      v.toNat / 2 ^ 22 * 4 := by
    simp only [Words.toNat_and_offset, UInt32.toNat_mul, Words.toNat_and_index,
      UInt32.toNat_shiftRight, Words.toNat_and_frame, UInt32.reduceToNat, Nat.reduceMod,
      Nat.shiftRight_eq_div_pow]
    omega
  have hhigh : ((0x3FF : UInt32) <<< 22 ||| 0x003FF000).toNat = 0xFFFFF000 := by decide
  rw [getPde, Words.toNat_or _ _ 12 (by rw [hhigh]; rfl) (by rw [hlow]; omega), hhigh, hlow]

/-- Address equalities are equalities of numbers. -/
theorem dirEntry_eq_of_div {w : UInt32} (h : v.toNat / 2 ^ 22 = w.toNat / 2 ^ 22) :
    dirEntry cr3 v = dirEntry cr3 w := by
  rw [← UInt32.toNat_inj, dirEntry_toNat, dirEntry_toNat, h]

/-! ### The recursive mapping -/

/-- Entry 1023 of the directory is present and points to the directory. -/
structure SelfMapped (m : PhysMem) (cr3 : UInt32) : Prop where
  present : Present (m (dirEntry cr3 0xFFFFF000))
  own : frame (m (dirEntry cr3 0xFFFFF000)) = frame cr3

theorem dirEntry_getPte (cr3 v : UInt32) : dirEntry cr3 (getPte v) = dirEntry cr3 0xFFFFF000 := by
  have hv := v.toNat_lt
  apply dirEntry_eq_of_div
  simp only [getPte_toNat, UInt32.reduceToNat]
  omega

theorem dirEntry_getPde (cr3 v : UInt32) : dirEntry cr3 (getPde v) = dirEntry cr3 0xFFFFF000 := by
  have hv := v.toNat_lt
  apply dirEntry_eq_of_div
  simp only [getPde_toNat, UInt32.reduceToNat]
  omega

/-- Through the self-mapping the directory is the page table of the last 4 MiB. -/
theorem SelfMapped.tableEntry_eq (h : SelfMapped m cr3) {v w : UInt32}
    (hv : v.toNat / 4096 % 1024 = w.toNat / 2 ^ 22) :
    tableEntry (m (dirEntry cr3 0xFFFFF000)) v = dirEntry cr3 w := by
  have hown := congrArg UInt32.toNat h.own
  rw [frame_toNat, frame_toNat] at hown
  rw [← UInt32.toNat_inj, tableEntry_toNat, dirEntry_toNat, hown, hv]

/-- The virtual address `get_pde(v)` is mapped to the directory entry of `v`. -/
theorem SelfMapped.translate_getPde (h : SelfMapped m cr3) (v : UInt32) :
    translate m cr3 (getPde v) = some (dirEntry cr3 v) := by
  have hv := v.toNat_lt
  have hentry : tableEntry (m (dirEntry cr3 0xFFFFF000)) (getPde v) = dirEntry cr3 0xFFFFF000 :=
    h.tableEntry_eq (by simp only [getPde_toNat, UInt32.reduceToNat]; omega)
  rw [translate, dirEntry_getPde, hentry, if_pos h.present, if_pos h.present, h.own,
    Option.some.injEq, ← UInt32.toNat_inj, frame_add_offset_toNat, getPde_toNat, dirEntry_toNat]
  omega

/-- The virtual address `get_pte(v)` is mapped to the table entry of `v` when the table of `v`
is present, and not mapped otherwise. -/
theorem SelfMapped.translate_getPte (h : SelfMapped m cr3) (v : UInt32) :
    translate m cr3 (getPte v) =
      if Present (m (dirEntry cr3 v)) then some (tableEntry (m (dirEntry cr3 v)) v) else none := by
  have hv := v.toNat_lt
  have hentry : tableEntry (m (dirEntry cr3 0xFFFFF000)) (getPte v) = dirEntry cr3 v :=
    h.tableEntry_eq (by rw [getPte_toNat]; omega)
  rw [translate, dirEntry_getPte, hentry, if_pos h.present]
  split_ifs
  · rw [Option.some.injEq, ← UInt32.toNat_inj, frame_add_offset_toNat, getPte_toNat,
      tableEntry_toNat]
    omega
  · rfl

/-- `get_pte` gives different pages different addresses. -/
theorem getPte_inj {w : UInt32} : getPte v = getPte w ↔ v >>> 12 = w >>> 12 := by
  rw [← UInt32.toNat_inj, ← UInt32.toNat_inj, getPte_toNat, getPte_toNat]
  simp only [UInt32.toNat_shiftRight, UInt32.reduceToNat, Nat.reduceMod,
    Nat.shiftRight_eq_div_pow]
  omega

/-- The entries of the last 4 MiB are the entries of the directory. -/
theorem le_getPte_iff : 0xFFFFF000 ≤ getPte v ↔ 0xFFC00000 ≤ v := by
  have hv := v.toNat_lt
  rw [UInt32.le_iff_toNat_le, UInt32.le_iff_toNat_le, getPte_toNat]
  simp only [UInt32.reduceToNat]
  omega

/-- **The recursive mapping is correct.**  In a directory that maps itself the walk of the MMU
takes `get_pde(v)` to the directory entry of `v` and, when that is present, `get_pte(v)` to the
entry of `v` in the table it points to; `get_pte` is injective on pages and reaches the directory
itself exactly for the addresses of the last 4 MiB. -/
theorem SelfMapped.recursive_mapping (h : SelfMapped m cr3) (v : UInt32) :
    translate m cr3 (getPde v) = some (dirEntry cr3 v) ∧
      (Present (m (dirEntry cr3 v)) →
        translate m cr3 (getPte v) = some (tableEntry (m (dirEntry cr3 v)) v)) ∧
      (∀ w, getPte v = getPte w ↔ v >>> 12 = w >>> 12) ∧
      (0xFFFFF000 ≤ getPte v ↔ 0xFFC00000 ≤ v) := by
  refine ⟨h.translate_getPde v, ?_, fun w => getPte_inj, le_getPte_iff⟩
  intro hp
  rw [h.translate_getPte, if_pos hp]

/-- A directory at frame 0 with its own entry and one kernel page table. -/
theorem SelfMapped.recursive_mapping_sample :
    let m : PhysMem := fun a => if a = 0xFFC then 1 else if a = 0xC00 then 0x1001 else 0
    translate m 0 (getPde 0xC0000000) = some (dirEntry 0 0xC0000000) ∧
      (Present (m (dirEntry 0 0xC0000000)) →
        translate m 0 (getPte 0xC0000000) =
          some (tableEntry (m (dirEntry 0 0xC0000000)) 0xC0000000)) ∧
      (∀ w, getPte 0xC0000000 = getPte w ↔ (0xC0000000 : UInt32) >>> 12 = w >>> 12) ∧
      (0xFFFFF000 ≤ getPte 0xC0000000 ↔ (0xFFC00000 : UInt32) ≤ 0xC0000000) :=
  SelfMapped.recursive_mapping ⟨by decide, by decide⟩ 0xC0000000

/-! ### Translation by the kernel (`vmm_v2p`) -/

/-- Read the word at a virtual address. -/
def readWord (m : PhysMem) (cr3 vaddr : UInt32) : Option UInt32 := (translate m cr3 vaddr).map m

/-- `check_vaddr_present`.  In both tests `==` binds tighter than `|`, so their value is never 0.
The entries are read as the source says; a compiler may drop the reads, whose values do not matter,
and the call then returns true where the read faults here.  The read of `vmm_v2p` itself stays. -/
def checkVaddrPresent (m : PhysMem) (cr3 vaddr : UInt32) : Option Bool := do
  let pde ← readWord m cr3 (getPde vaddr)
  if ((if pde = pde then 1 else 0) ||| 0x00000001 : UInt32) ≠ 0 then do
    let pte ← readWord m cr3 (getPte vaddr)
    if ((if pte = pte then 1 else 0) ||| 0x00000001 : UInt32) ≠ 0 then some true else some false
  else some false

/-- `V2P_ERROR`. -/
def v2pError : UInt32 := 0xFFFFFFFF

/-- `vmm_v2p`. -/
def vmmV2p (m : PhysMem) (cr3 vaddr : UInt32) : Option UInt32 := do
  let present ← checkVaddrPresent m cr3 vaddr
  if present then do
    let pte ← readWord m cr3 (getPte vaddr)
    some ((pte &&& 0xFFFFF000) ||| (0x00000FFF &&& vaddr))
  else some v2pError

/-- Where the table of an address is present, `vmm_v2p` reads its entry, present or not. -/
theorem SelfMapped.vmmV2p_eq (h : SelfMapped m cr3) (hp : Present (m (dirEntry cr3 v))) :
    vmmV2p m cr3 v =
      some (frame (m (tableEntry (m (dirEntry cr3 v)) v)) ||| (0x00000FFF &&& v)) := by
  have htest : (1 ||| 0x00000001 : UInt32) ≠ 0 := by decide
  simp only [vmmV2p, checkVaddrPresent, readWord, h.translate_getPde, h.translate_getPte, if_pos hp,
    Option.map_some, Option.bind_eq_bind, Option.bind_some, if_true, if_pos htest, frame]

end BHOS
