import BHOS.MemoryMap

/-! # Page numbers, their addresses and their descriptors

`pmm_init` fixes a range of addresses by two roundings and one subtraction, all on 32-bit words
that may wrap (`setRange`).  Inside the range a page number and an address determine each other,
and `pmm_free_page` tells the addresses inside from those outside by one comparison of a wrapped
difference (`NumbersPages`).

The descriptors of the pages lie in an array that starts at a fixed address below the VGA text
buffer, with nothing that bounds its length (`DescriptorsClear`). -/

namespace BHOS

namespace Pmm

variable {s t : Pmm} {kernEnd maxAddr p : UInt32} {mmap : List PmEntry}

/-! ### The managed range -/

/-- The assignments of `pmm_init` to `pmm_page_start`, `pmm_page_end` and `pmm_max_page_no`. -/
def setRange (kernEnd maxAddr : UInt32) (s : Pmm) : Pmm :=
  let pageStart := ((kernEnd >>> 12) + 1) <<< 12
  let pageEnd := (maxAddr >>> 12) <<< 12
  { s with pageStart := pageStart
           pageEnd := pageEnd
           maxPageNo := (pageEnd - pageStart) >>> 12 }

theorem pmmInit_eq_pageInit (kernEnd : UInt32) (mmap : List PmEntry) (s : Pmm) :
    pmmInit kernEnd mmap s = (s.setRange kernEnd (getMaxPmAddr mmap)).pageInit := rfl

/-- The range is the one that `pmm_init` computes from `kern_end` and the maximum address. -/
structure HasRange (s : Pmm) (kernEnd maxAddr : UInt32) : Prop where
  pageStart : s.pageStart = ((kernEnd >>> 12) + 1) <<< 12
  pageEnd : s.pageEnd = (maxAddr >>> 12) <<< 12
  maxPageNo : s.maxPageNo = (s.pageEnd - s.pageStart) >>> 12

theorem hasRange_setRange (kernEnd maxAddr : UInt32) (s : Pmm) :
    (s.setRange kernEnd maxAddr).HasRange kernEnd maxAddr := ⟨rfl, rfl, rfl⟩

theorem HasRange.of_sameRange (h : s.HasRange kernEnd maxAddr) (hr : SameRange s t) :
    t.HasRange kernEnd maxAddr := by
  refine ⟨hr.pageStart.trans h.pageStart, hr.pageEnd.trans h.pageEnd, ?_⟩
  rw [hr.maxPageNo, hr.pageEnd, hr.pageStart]
  exact h.maxPageNo

theorem loadLoop_sameRange {n : ℕ} {f : UInt32} (h : loadLoop n p s = some (f, t)) :
    SameRange s t := by
  induction n generalizing s p with
  | zero => cases h
  | succ n ih =>
      rw [loadLoop] at h
      by_cases hlt : p < s.maxPageNo - 1024
      · rw [if_pos hlt] at h
        obtain ⟨u, hu, h⟩ := Option.bind_eq_some_iff.mp h
        split_ifs at h with hnext
        exact (appendBlock_sameRange hu).trans (ih h)
      · rw [if_neg hlt] at h
        obtain ⟨-, rfl⟩ := Prod.mk.inj (Option.some.inj h)
        exact SameRange.refl s

theorem singleLoop_sameRange {n : ℕ} {probe : Option UInt32}
    (h : singleLoop n p probe s = some t) : SameRange s t := by
  induction n generalizing s p probe with
  | zero => cases h
  | succ n ih =>
      rw [singleLoop] at h
      split_ifs at h with hlt
      · cases hs : s.singleLink with
        | none =>
            simp only [hs] at h
            have hr := ih h
            exact ⟨hr.pageStart, hr.pageEnd, hr.maxPageNo⟩
        | some q =>
            simp only [hs] at h
            obtain ⟨b, -, h⟩ := Option.bind_eq_some_iff.mp h
            have hr := ih h
            exact ⟨hr.pageStart, hr.pageEnd, hr.maxPageNo⟩
      · obtain rfl := Option.some.inj h
        exact SameRange.refl s

theorem pageInit_sameRange (h : s.pageInit = some t) : SameRange s t := by
  unfold pageInit at h
  obtain ⟨u, hu, h⟩ := Option.bind_eq_some_iff.mp h
  obtain ⟨⟨f, v⟩, hv, h⟩ := Option.bind_eq_some_iff.mp h
  have h₁ := foldlM_appendBlock_sameRange hu
  have h₂ := h₁.trans (loadLoop_sameRange hv)
  have h₃ := singleLoop_sameRange h
  exact ⟨h₃.pageStart.trans h₂.pageStart, h₃.pageEnd.trans h₂.pageEnd,
    h₃.maxPageNo.trans h₂.maxPageNo⟩

/-- What `pmm_init` leaves has the range it computed. -/
theorem hasRange_of_pmmInit (h : pmmInit kernEnd mmap s = some t) :
    t.HasRange kernEnd (getMaxPmAddr mmap) := by
  rw [pmmInit_eq_pageInit] at h
  exact (hasRange_setRange kernEnd _ s).of_sameRange (pageInit_sameRange h)

/-! ### Numbers and addresses -/

/-- Page numbers and addresses of the managed range determine each other, and `pmm_free_page`
accepts exactly the addresses of the range, changing nothing for the others. -/
structure NumbersPages (s : Pmm) : Prop where
  addr : ∀ p < s.maxPageNo, (s.pageNoToAddr p).toNat = s.pageStart.toNat + p.toNat * 4096
  roundTrip : ∀ p < s.maxPageNo, s.addrToPageNo (s.pageNoToAddr p) = p
  accepts : ∀ addr, s.addrToPageNo addr < s.maxPageNo ↔ s.pageStart ≤ addr ∧ addr < s.pageEnd
  returns : ∀ d b t, s.freePage d = some (b, t) →
    (b = true ↔ s.pageStart ≤ d.addr ∧ d.addr < s.pageEnd)
  rejects : ∀ d, ¬ (s.pageStart ≤ d.addr ∧ d.addr < s.pageEnd) → s.freePage d = some (false, s)

theorem HasRange.aligned (h : s.HasRange kernEnd maxAddr) :
    s.pageStart.toNat % 4096 = 0 ∧ s.pageEnd.toNat % 4096 = 0 := by
  have hshift : ∀ x : UInt32, (x <<< 12).toNat % 4096 = 0 := by
    intro x
    simp only [UInt32.toNat_shiftLeft, UInt32.reduceToNat, Nat.reduceMod, Nat.shiftLeft_eq]
    omega
  rw [h.pageStart, h.pageEnd]
  exact ⟨hshift _, hshift _⟩

theorem HasRange.maxPageNo_toNat (h : s.HasRange kernEnd maxAddr) (hlt : s.pageStart < s.pageEnd) :
    s.maxPageNo.toNat = (s.pageEnd.toNat - s.pageStart.toNat) / 4096 := by
  have hlt' := UInt32.lt_iff_toNat_lt.mp hlt
  have hend := s.pageEnd.toNat_lt
  rw [h.maxPageNo]
  simp only [UInt32.toNat_shiftRight, UInt32.toNat_sub, UInt32.reduceToNat, Nat.reduceMod,
    Nat.shiftRight_eq_div_pow]
  omega

theorem addrToPageNo_toNat (s : Pmm) (addr : UInt32) :
    (s.addrToPageNo addr).toNat =
      (2 ^ 32 - s.pageStart.toNat + addr.toNat) % 2 ^ 32 / 4096 := by
  unfold addrToPageNo
  simp only [UInt32.toNat_shiftRight, UInt32.toNat_sub, UInt32.reduceToNat, Nat.reduceMod,
    Nat.shiftRight_eq_div_pow]

/-- The range test: an address below the range wraps to a page number above all others. -/
theorem HasRange.accepts (h : s.HasRange kernEnd maxAddr) (hlt : s.pageStart < s.pageEnd)
    (addr : UInt32) :
    s.addrToPageNo addr < s.maxPageNo ↔ s.pageStart ≤ addr ∧ addr < s.pageEnd := by
  obtain ⟨hstart, hend⟩ := h.aligned
  have hlt' := UInt32.lt_iff_toNat_lt.mp hlt
  have haddr := addr.toNat_lt
  have hend' := s.pageEnd.toNat_lt
  rw [UInt32.lt_iff_toNat_lt, UInt32.le_iff_toNat_le, UInt32.lt_iff_toNat_lt,
    h.maxPageNo_toNat hlt, addrToPageNo_toNat]
  omega

theorem freePage_of_not_lt {d : PmAlloc} (h : ¬ s.addrToPageNo d.addr < s.maxPageNo) :
    s.freePage d = some (false, s) := by
  unfold freePage
  simp only [if_neg h]

theorem freePage_of_lt_returns {d : PmAlloc} {b : Bool} (h : s.addrToPageNo d.addr < s.maxPageNo)
    (hf : s.freePage d = some (b, t)) : b = true := by
  unfold freePage at hf
  simp only [if_pos h] at hf
  split_ifs at hf with hsingle
  · obtain ⟨u, -, hu⟩ := Option.bind_eq_some_iff.mp hf
    exact (Prod.mk.inj (Option.some.inj hu)).1.symm
  · cases hs : s.singleLink with
    | none =>
        simp only [hs] at hf
        exact (Prod.mk.inj (Option.some.inj hf)).1.symm
    | some header =>
        simp only [hs] at hf
        obtain ⟨probe, -, hu⟩ := Option.bind_eq_some_iff.mp hf
        exact (Prod.mk.inj (Option.some.inj hu)).1.symm

theorem HasRange.pageNoToAddr_toNat (h : s.HasRange kernEnd maxAddr)
    (hlt : s.pageStart < s.pageEnd) (hp : p < s.maxPageNo) :
    (s.pageNoToAddr p).toNat = s.pageStart.toNat + p.toNat * 4096 := by
  have hp' := UInt32.lt_iff_toNat_lt.mp hp
  have hlt' := UInt32.lt_iff_toNat_lt.mp hlt
  have hend := s.pageEnd.toNat_lt
  rw [h.maxPageNo_toNat hlt] at hp'
  unfold pageNoToAddr
  simp only [UInt32.toNat_add, UInt32.toNat_shiftLeft, UInt32.reduceToNat, Nat.reduceMod,
    Nat.shiftLeft_eq]
  omega

/-- **Page numbers and addresses agree** wherever `pmm_init` puts a range that is not empty, and
`pmm_free_page` rejects every address outside it. -/
theorem numbersPages_of_range (kernEnd maxAddr : UInt32) (s : Pmm)
    (h : s.HasRange kernEnd maxAddr) (hlt : s.pageStart < s.pageEnd) : s.NumbersPages := by
  have haddr := fun p (hp : p < s.maxPageNo) => h.pageNoToAddr_toNat hlt hp
  have haccepts := h.accepts hlt
  refine ⟨haddr, ?_, haccepts, ?_, ?_⟩
  · intro p hp
    have hp' := UInt32.lt_iff_toNat_lt.mp hp
    have hstart := s.pageStart.toNat_lt
    have hend := s.pageEnd.toNat_lt
    rw [h.maxPageNo_toNat hlt] at hp'
    rw [← UInt32.toNat_inj, addrToPageNo_toNat, haddr p hp]
    omega
  · intro d b t ht
    rw [← haccepts]
    by_cases hd : s.addrToPageNo d.addr < s.maxPageNo
    · exact iff_of_true (freePage_of_lt_returns hd ht) hd
    · rw [freePage_of_not_lt hd] at ht
      obtain ⟨rfl, -⟩ := Prod.mk.inj (Option.some.inj ht)
      exact iff_of_false Bool.false_ne_true hd
  · intro d hd
    exact freePage_of_not_lt fun hn => hd ((haccepts d.addr).mp hn)

theorem numbersPages_of_range_sample : (Pmm.zero.setRange 0x300000 0x8000000).NumbersPages :=
  numbersPages_of_range 0x300000 0x8000000 _ (hasRange_setRange _ _ _) (by decide)

/-! ### The descriptor array -/

/-- `&page_array[i]`: descriptors of 12 bytes from `0xC0000100` on. -/
def descriptorAddr (i : UInt32) : UInt32 := 0xC0000100 + 12 * i

/-- The indices `i` of the descriptors that the first loop of `pmm_page_init` writes, with `n`
left from `i` on. -/
def initWrites : ℕ → UInt32 → List UInt32
  | 0, _ => []
  | n + 1, i => i :: initWrites n (i + 1)

theorem mem_initWrites {n : ℕ} {i : UInt32} (h : i.toNat + n < 2 ^ 32) :
    p ∈ initWrites n i ↔ i.toNat ≤ p.toNat ∧ p.toNat < i.toNat + n := by
  induction n generalizing i with
  | zero =>
      simp only [initWrites, List.not_mem_nil, false_iff]
      omega
  | succ n ih =>
      have hi : (i + 1).toNat = i.toNat + 1 := by
        simp only [UInt32.toNat_add, UInt32.reduceToNat]
        omega
      rw [initWrites, List.mem_cons, ih (by omega), hi, ← UInt32.toNat_inj]
      omega

/-- Every descriptor that `pmm_page_init` fills ends below the VGA text buffer at `0xC00B8000` and
below the kernel image at `0xC0100000`. -/
def DescriptorsClear (s : Pmm) : Prop :=
  ∀ i ∈ initWrites s.maxPageNo.toNat 0, (descriptorAddr i).toNat + 12 ≤ 0xC00B8000 ∧
    (descriptorAddr i).toNat + 12 ≤ 0xC0100000

/-- The gap below the text buffer has room for 62784 descriptors. -/
theorem descriptorsClear_iff_le (hmax : s.maxPageNo.toNat ≤ 2 ^ 20) :
    s.DescriptorsClear ↔ s.maxPageNo.toNat ≤ 62784 := by
  have hmem : ∀ p : UInt32, p ∈ initWrites s.maxPageNo.toNat 0 ↔ p.toNat < s.maxPageNo.toNat := by
    intro p
    rw [mem_initWrites (by simp only [UInt32.reduceToNat]; omega)]
    simp
  have haddr : ∀ p : UInt32, p.toNat < 2 ^ 20 →
      (descriptorAddr p).toNat = 0xC0000100 + 12 * p.toNat := by
    intro p hp
    unfold descriptorAddr
    simp only [UInt32.toNat_add, UInt32.toNat_mul, UInt32.reduceToNat]
    omega
  constructor
  · intro h
    by_contra hn
    have hin := (hmem 62784).mpr (by simp only [UInt32.reduceToNat]; omega)
    have hclear := (h 62784 hin).1
    rw [haddr 62784 (by decide)] at hclear
    exact absurd hclear (by decide)
  · intro h p hp
    have hp' := (hmem p).mp hp
    rw [haddr p (by omega)]
    omega

/-- The page boundary `E` where the RAM ends lies at or above the first boundary `S` behind the
kernel and at most 62784 pages above it; or `E` lies so far below `S` that the difference wraps to
a number as small. -/
def FewPages (kernEnd : UInt32) (mmap : List PmEntry) : Prop :=
  let start := ramStart kernEnd % 2 ^ 32
  let stop := maxEnd mmap / 4096 * 4096
  start ≤ stop ∧ stop ≤ start + 62784 * 4096 ∨ stop + (2 ^ 20 - 62784) * 4096 ≤ start

/-- **The descriptors stay below the text buffer and the kernel** exactly when there are few enough
pages. -/
theorem descriptorsClear_iff (kernEnd : UInt32) (mmap : List PmEntry) (s : Pmm) :
    (s.setRange kernEnd (getMaxPmAddr mmap)).DescriptorsClear ↔ FewPages kernEnd mmap := by
  have hcount : (s.setRange kernEnd (getMaxPmAddr mmap)).maxPageNo.toNat = pageCount kernEnd mmap :=
    maxPageNo_toNat kernEnd mmap
  have hle : pageCount kernEnd mmap < 2 ^ 20 := Nat.mod_lt _ (by decide)
  have hend := maxEnd_lt mmap
  have hstart := (ramStart_eq kernEnd).1
  rw [descriptorsClear_iff_le (by omega), hcount]
  unfold pageCount FewPages
  dsimp only
  omega

/-- The map of a machine with 256 MiB of RAM. -/
def largeMap : List PmEntry :=
  [⟨20, 0, 0, 0x9FC00, 0, 1⟩, ⟨20, 0x100000, 0, 0xFEE0000, 0, 1⟩]

/-- The descriptor of page 62784 is the first bytes of the text buffer. -/
theorem not_descriptorsClear_largeMap :
    ¬ (Pmm.zero.setRange 0x300000 (getMaxPmAddr largeMap)).DescriptorsClear := by
  rw [descriptorsClear_iff_le (by decide)]
  decide

end Pmm
end BHOS
