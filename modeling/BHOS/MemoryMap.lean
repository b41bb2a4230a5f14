import BHOS.PmmInit

/-! # The multiboot memory map and `pmm_init`

The boot loader hands over a list of regions with 64-bit base and length; regions of type 1 are
usable RAM.  `get_max_pm_addr` folds the list into one number, the largest `base + length` of a
type-1 region computed on the low words, and `pmm_init` manages every page from the first page
above the kernel up to there.  So the managed pages are RAM exactly when the map has RAM without
a gap from the kernel up to that number (`Contiguous`). -/

namespace BHOS

open Blocks

/-- `pm_entry_t`. -/
structure PmEntry where
  size : UInt32
  baseAddrLow : UInt32
  baseAddrHigh : UInt32
  lengthLow : UInt32
  lengthHigh : UInt32
  type : UInt32
deriving DecidableEq, Repr

namespace PmEntry

/-- The first address of a region. -/
def base (e : PmEntry) : ℕ := e.baseAddrHigh.toNat * 2 ^ 32 + e.baseAddrLow.toNat

/-- The number of bytes of a region. -/
def length (e : PmEntry) : ℕ := e.lengthHigh.toNat * 2 ^ 32 + e.lengthLow.toNat

/-- The page at an address lies inside the region. -/
def HasPage (e : PmEntry) (a : ℕ) : Prop := e.base ≤ a ∧ a + 4096 ≤ e.base + e.length

instance (e : PmEntry) (a : ℕ) : Decidable (e.HasPage a) := inferInstanceAs (Decidable (_ ∧ _))

end PmEntry

/-- `get_max_pm_addr`. -/
def getMaxPmAddr (mmap : List PmEntry) : UInt32 :=
  mmap.foldl (fun maxAddr e =>
    if e.type = 1 ∧ maxAddr < e.baseAddrLow + e.lengthLow then e.baseAddrLow + e.lengthLow
    else maxAddr) 0

/-- `pmm_init`. -/
def pmmInit (kernEnd : UInt32) (mmap : List PmEntry) (s : Pmm) : Option Pmm :=
  let pageStart := ((kernEnd >>> 12) + 1) <<< 12
  let pageEnd := (getMaxPmAddr mmap >>> 12) <<< 12
  Pmm.pageInit { s with pageStart := pageStart
                        pageEnd := pageEnd
                        maxPageNo := (pageEnd - pageStart) >>> 12 }

/-! ### The managed range -/

/-- The end of a region on the low words of its base and length. -/
def PmEntry.end32 (e : PmEntry) : ℕ := (e.baseAddrLow.toNat + e.lengthLow.toNat) % 2 ^ 32

/-- The largest end of a type-1 region. -/
def maxEnd : List PmEntry → ℕ
  | [] => 0
  | e :: mmap => if e.type = 1 then max e.end32 (maxEnd mmap) else maxEnd mmap

/-- The first page boundary above the kernel. -/
def ramStart (kernEnd : UInt32) : ℕ := (kernEnd.toNat / 4096 + 1) * 4096

/-- The page boundary where the managed range ends; the largest end 0 stands for 4 GiB. -/
def ramEnd (mmap : List PmEntry) : ℕ :=
  if maxEnd mmap / 4096 = 0 then 2 ^ 32 else maxEnd mmap / 4096 * 4096

/-- From the kernel up to the largest end of a type-1 region there are at least 1024 pages, and
each lies inside a type-1 region. -/
def Contiguous (kernEnd : UInt32) (mmap : List PmEntry) : Prop :=
  ramStart kernEnd + 1024 * 4096 ≤ ramEnd mmap ∧
    ∀ a, a % 4096 = 0 → ramStart kernEnd ≤ a → a < ramEnd mmap →
      ∃ e ∈ mmap, e.type = 1 ∧ e.HasPage a

/-- `pmm_init` ends, and every page that it puts into a list lies inside a type-1 region and
above the kernel. -/
def OnlyRam (kernEnd : UInt32) (mmap : List PmEntry) (s : Pmm) : Prop :=
  ∃ t, pmmInit kernEnd mmap s = some t ∧ ∀ p < t.maxPageNo, p.toNat ∈ cover t.lists.blocks →
    (∃ e ∈ mmap, e.type = 1 ∧ e.HasPage (t.pageNoToAddr p).toNat) ∧
      kernEnd.toNat ≤ (t.pageNoToAddr p).toNat

variable {kernEnd : UInt32} {mmap : List PmEntry} {s t : Pmm}

theorem maxEnd_lt (mmap : List PmEntry) : maxEnd mmap < 2 ^ 32 := by
  induction mmap with
  | nil => decide
  | cons e mmap ih =>
      rw [maxEnd]
      split_ifs
      · exact max_lt (Nat.mod_lt _ (by decide)) ih
      · exact ih

theorem getMaxPmAddr_toNat (mmap : List PmEntry) : (getMaxPmAddr mmap).toNat = maxEnd mmap := by
  suffices h : ∀ m : UInt32, (mmap.foldl (fun maxAddr e =>
      if e.type = 1 ∧ maxAddr < e.baseAddrLow + e.lengthLow then e.baseAddrLow + e.lengthLow
      else maxAddr) m).toNat = max m.toNat (maxEnd mmap) by
    rw [getMaxPmAddr, h 0]
    exact max_eq_right (Nat.zero_le _)
  induction mmap with
  | nil => exact fun m => (max_eq_left (Nat.zero_le _)).symm
  | cons e mmap ih =>
      intro m
      have he : (e.baseAddrLow + e.lengthLow).toNat = e.end32 := UInt32.toNat_add _ _
      rw [List.foldl_cons, ih, maxEnd]
      by_cases ht : e.type = 1
      · rw [if_pos ht, ← max_assoc]
        congr 1
        by_cases hlt : m < e.baseAddrLow + e.lengthLow
        · have hlt' := UInt32.lt_iff_toNat_lt.mp hlt
          rw [if_pos ⟨ht, hlt⟩, he, max_eq_right (by omega)]
        · have hge := UInt32.le_iff_toNat_le.mp (UInt32.not_lt.mp hlt)
          rw [if_neg (fun h => hlt h.2), max_eq_left (by omega)]
      · rw [if_neg ht, if_neg fun h => ht h.1]

/-- The address of a page, and the number of pages, as `pmm_init` computes them. -/
theorem pageStart_toNat (kernEnd : UInt32) :
    (((kernEnd >>> 12) + 1) <<< 12).toNat = ramStart kernEnd % 2 ^ 32 := by
  have hlt := kernEnd.toNat_lt
  simp only [ramStart, UInt32.toNat_shiftLeft, UInt32.toNat_add, UInt32.toNat_shiftRight,
    UInt32.reduceToNat, Nat.reduceMod, Nat.shiftLeft_eq, Nat.shiftRight_eq_div_pow]
  omega

theorem pageEnd_toNat (mmap : List PmEntry) :
    ((getMaxPmAddr mmap >>> 12) <<< 12).toNat = maxEnd mmap / 4096 * 4096 := by
  have hlt := maxEnd_lt mmap
  simp only [UInt32.toNat_shiftLeft, UInt32.toNat_shiftRight, getMaxPmAddr_toNat,
    UInt32.reduceToNat, Nat.reduceMod, Nat.shiftLeft_eq, Nat.shiftRight_eq_div_pow]
  omega

/-- The number of pages that `pmm_init` computes. -/
def pageCount (kernEnd : UInt32) (mmap : List PmEntry) : ℕ :=
  (maxEnd mmap / 4096 + 2 ^ 20 - ramStart kernEnd % 2 ^ 32 / 4096) % 2 ^ 20

theorem maxPageNo_toNat (kernEnd : UInt32) (mmap : List PmEntry) :
    (((getMaxPmAddr mmap >>> 12) <<< 12 - ((kernEnd >>> 12) + 1) <<< 12) >>> 12).toNat =
      pageCount kernEnd mmap := by
  have hlt := maxEnd_lt mmap
  have hs : ramStart kernEnd % 4096 = 0 := Nat.mul_mod_left _ _
  simp only [UInt32.toNat_shiftRight, UInt32.toNat_sub, pageEnd_toNat, pageStart_toNat,
    UInt32.reduceToNat, Nat.reduceMod, Nat.shiftRight_eq_div_pow, pageCount]
  omega

/-! ### Initialisation -/

theorem Pmm.foldlM_appendBlock_sameRange {bs : List (UInt32 × PageC)}
    (h : bs.foldlM (fun s b => s.appendBlock b.1 b.2) s = some t) : SameRange s t := by
  induction bs generalizing s with
  | nil =>
      obtain rfl := Option.some.inj h
      exact SameRange.refl s
  | cons b bs ih =>
      obtain ⟨u, hu, h⟩ := Option.bind_eq_some_iff.mp h
      exact (appendBlock_sameRange hu).trans (ih h)

/-- With fewer than 1024 pages the bound of the loop wraps, and the counter overflows first. -/
theorem Pmm.loadLoop_overflow {p : UInt32} (n : ℕ) (hm : s.maxPageNo.toNat < 1024)
    (hp : p.toNat < 2 ^ 31) : loadLoop n p s = none := by
  induction n generalizing s p with
  | zero => rfl
  | succ n ih =>
      have hlt : p < s.maxPageNo - 1024 := by
        simp only [UInt32.lt_iff_toNat_lt, UInt32.toNat_sub, UInt32.reduceToNat]
        omega
      rw [loadLoop, if_pos hlt]
      apply Option.bind_eq_none_iff.mpr
      intro t ht
      split_ifs with hnext
      · refine ih ?_ ?_
        · rw [(appendBlock_sameRange ht).maxPageNo]
          exact hm
        · exact UInt32.lt_iff_toNat_lt.mp hnext
      · rfl

theorem Pmm.pageInit_none (hm : s.maxPageNo.toNat < 1024) : s.pageInit = none := by
  simp only [pageInit, Option.bind_eq_bind]
  rw [Option.bind_eq_none_iff]
  intro t ht
  have hmax := (foldlM_appendBlock_sameRange ht).maxPageNo
  rw [loadLoop_overflow listBound (by rw [hmax]; exact hm) (by decide), Option.bind_none]

/-- With at least 1024 pages `pmm_init` ends and puts every page below `pmm_max_page_no` into
its lists. -/
theorem pmmInit_eq (hs : s.singleLink = none) (hn : 1024 ≤ pageCount kernEnd mmap) :
    ∃ t, pmmInit kernEnd mmap s = some t ∧ t.maxPageNo.toNat = pageCount kernEnd mmap ∧
      (∀ p < t.maxPageNo, p.toNat ∈ cover t.lists.blocks) ∧
      ∀ p : UInt32, (t.pageNoToAddr p).toNat = (ramStart kernEnd + p.toNat * 4096) % 2 ^ 32 := by
  have hle : pageCount kernEnd mmap < 2 ^ 20 := Nat.mod_lt _ (by decide)
  have hm := maxPageNo_toNat kernEnd mmap
  obtain ⟨t, L, ht, hfill, -, -, -, hmax, hst⟩ := Pmm.pageInit_eq
    { s with pageStart := ((kernEnd >>> 12) + 1) <<< 12
             pageEnd := (getMaxPmAddr mmap >>> 12) <<< 12
             maxPageNo := ((getMaxPmAddr mmap >>> 12) <<< 12 - ((kernEnd >>> 12) + 1) <<< 12) >>> 12 }
    hs (by rw [hm]; exact hn) (by rw [hm]; exact hle.le)
  refine ⟨t, ht, by rw [hmax, hm], fun p hp => ?_, fun p => ?_⟩
  · rw [hmax] at hp
    rw [hfill.holds.lists_eq, hfill.covered, Multiset.mem_range]
    exact lt_max_of_lt_right (UInt32.lt_iff_toNat_lt.mp hp)
  · have hp := p.toNat_lt
    rw [Pmm.pageNoToAddr, hst, UInt32.toNat_add, pageStart_toNat]
    simp only [UInt32.toNat_shiftLeft, UInt32.reduceToNat, Nat.reduceMod, Nat.shiftLeft_eq]
    omega

theorem pmmInit_none (hn : pageCount kernEnd mmap < 1024) : pmmInit kernEnd mmap s = none :=
  Pmm.pageInit_none (by simp only [maxPageNo_toNat]; exact hn)

/-! ### What is managed -/

theorem ramStart_eq (kernEnd : UInt32) :
    ramStart kernEnd % 4096 = 0 ∧ kernEnd.toNat < ramStart kernEnd ∧
      ramStart kernEnd ≤ kernEnd.toNat + 4096 ∧ ramStart kernEnd ≤ 2 ^ 32 := by
  have hlt := kernEnd.toNat_lt
  simp only [ramStart]
  omega

theorem ramEnd_eq (mmap : List PmEntry) : ramEnd mmap % 4096 = 0 ∧ ramEnd mmap ≤ 2 ^ 32 := by
  have hlt := maxEnd_lt mmap
  simp only [ramEnd]
  split_ifs <;> omega

/-- When the range has a positive size its pages are the managed ones. -/
theorem pageCount_eq (h : ramStart kernEnd + 1024 * 4096 ≤ ramEnd mmap) :
    pageCount kernEnd mmap = (ramEnd mmap - ramStart kernEnd) / 4096 := by
  have hs := ramStart_eq kernEnd
  have hlt := maxEnd_lt mmap
  simp only [pageCount, ramEnd] at h ⊢
  split_ifs at h ⊢ <;> omega

/-- A managed page in the range, and the page at address 0 when there is no range: then the
number of pages has wrapped. -/
theorem exists_pageNo (h : 1024 ≤ pageCount kernEnd mmap) :
    (ramStart kernEnd + 1024 * 4096 ≤ ramEnd mmap) ∨
      ∃ p : UInt32, p.toNat < pageCount kernEnd mmap ∧
        (ramStart kernEnd + p.toNat * 4096) % 2 ^ 32 < kernEnd.toNat := by
  have hs := ramStart_eq kernEnd
  have hlt := maxEnd_lt mmap
  by_cases hr : ramStart kernEnd + 1024 * 4096 ≤ ramEnd mmap
  · exact Or.inl hr
  · right
    refine ⟨UInt32.ofNat ((2 ^ 32 - ramStart kernEnd) / 4096), ?_, ?_⟩
    · rw [UInt32.toNat_ofNat']
      simp only [pageCount, ramEnd] at h hr ⊢
      split_ifs at hr <;> omega
    · rw [UInt32.toNat_ofNat']
      simp only [pageCount, ramEnd] at h hr ⊢
      split_ifs at hr <;> omega

/-- Every page of the range is managed. -/
theorem managed_page (hs : s.singleLink = none)
    (h : ramStart kernEnd + 1024 * 4096 ≤ ramEnd mmap) {a : ℕ} (ha : a % 4096 = 0)
    (hlo : ramStart kernEnd ≤ a) (hhi : a < ramEnd mmap) :
    ∃ t p, pmmInit kernEnd mmap s = some t ∧ p < t.maxPageNo ∧ p.toNat ∈ cover t.lists.blocks ∧
      (t.pageNoToAddr p).toNat = a := by
  have hst := ramStart_eq kernEnd
  have hen := ramEnd_eq mmap
  have hc := pageCount_eq h
  obtain ⟨t, ht, hmax, hcov, haddr⟩ := pmmInit_eq hs (hc ▸ by omega : 1024 ≤ pageCount kernEnd mmap)
  have hp : (UInt32.ofNat ((a - ramStart kernEnd) / 4096)).toNat =
      (a - ramStart kernEnd) / 4096 := by
    rw [UInt32.toNat_ofNat', Nat.mod_eq_of_lt (by omega)]
  have hlt : UInt32.ofNat ((a - ramStart kernEnd) / 4096) < t.maxPageNo := by
    rw [UInt32.lt_iff_toNat_lt, hp, hmax, hc]
    omega
  refine ⟨t, _, ht, hlt, hcov _ hlt, ?_⟩
  rw [haddr, hp]
  omega

/-- **Only usable RAM is managed** exactly when the memory map is contiguous RAM from the kernel
up to the largest end of a type-1 region. -/
theorem onlyRam_iff_contiguous (kernEnd : UInt32) (mmap : List PmEntry) (s : Pmm)
    (hs : s.singleLink = none) : OnlyRam kernEnd mmap s ↔ Contiguous kernEnd mmap := by
  have hst := ramStart_eq kernEnd
  have hen := ramEnd_eq mmap
  constructor
  · rintro ⟨t, ht, hram⟩
    have hn : 1024 ≤ pageCount kernEnd mmap := by
      by_contra hlt
      rw [pmmInit_none (by omega)] at ht
      cases ht
    obtain ⟨t', ht', hmax, hcov, haddr⟩ := pmmInit_eq hs hn
    obtain rfl := Option.some.inj (ht.symm.trans ht')
    have hrange : ramStart kernEnd + 1024 * 4096 ≤ ramEnd mmap := by
      apply (exists_pageNo hn).resolve_right
      rintro ⟨p, hp, hlow⟩
      have hp' : p < t.maxPageNo := UInt32.lt_iff_toNat_lt.mpr (hmax ▸ hp)
      have habove := (hram p hp' (hcov p hp')).2
      rw [haddr] at habove
      omega
    refine ⟨hrange, ?_⟩
    intro a ha hlo hhi
    obtain ⟨u, p, hu, hp, hpc, rfl⟩ := managed_page hs hrange ha hlo hhi
    obtain rfl := Option.some.inj (ht.symm.trans hu)
    exact (hram p hp hpc).1
  · rintro ⟨hrange, hall⟩
    have hc := pageCount_eq hrange
    obtain ⟨t, ht, hmax, -, haddr⟩ := pmmInit_eq hs (hc ▸ by omega : 1024 ≤ pageCount kernEnd mmap)
    refine ⟨t, ht, ?_⟩
    intro p hp _
    have hp' := UInt32.lt_iff_toNat_lt.mp hp
    rw [hmax, hc] at hp'
    have ha : (t.pageNoToAddr p).toNat = ramStart kernEnd + p.toNat * 4096 := by
      rw [haddr]
      omega
    rw [ha]
    exact ⟨hall _ (by omega) (by omega) (by omega), by omega⟩

/-- The map of a machine with 128 MiB of RAM. -/
def flatMap : List PmEntry :=
  [⟨20, 0, 0, 0x9FC00, 0, 1⟩, ⟨20, 0x100000, 0, 0x7EE0000, 0, 1⟩]

theorem onlyRam_flatMap : OnlyRam 0x300000 flatMap Pmm.zero := by
  refine (onlyRam_iff_contiguous 0x300000 flatMap Pmm.zero rfl).mpr
    ⟨by decide, fun a _ hlo hhi => ⟨⟨20, 0x100000, 0, 0x7EE0000, 0, 1⟩, by decide, rfl, ?_⟩⟩
  have hst : ramStart 0x300000 = 0x301000 := by decide
  have hen : ramEnd flatMap = 0x7FE0000 := by decide
  rw [hst] at hlo
  rw [hen] at hhi
  simp only [PmEntry.HasPage, PmEntry.base, PmEntry.length, UInt32.reduceToNat]
  omega

/-- The map of a machine whose RAM has a reserved hole from 16 to 32 MiB. -/
def holeMap : List PmEntry :=
  [⟨20, 0x100000, 0, 0xF00000, 0, 1⟩, ⟨20, 0x1000000, 0, 0x1000000, 0, 2⟩,
    ⟨20, 0x2000000, 0, 0x1000000, 0, 1⟩]

/-- The page at 16 MiB is managed, and no type-1 region has it. -/
theorem not_onlyRam_holeMap : ¬ OnlyRam 0x300000 holeMap Pmm.zero := by
  rintro ⟨t, ht, hram⟩
  obtain ⟨u, p, hu, hp, hpc, ha⟩ := managed_page (s := Pmm.zero) (a := 0x1000000) rfl
    (by decide : ramStart 0x300000 + 1024 * 4096 ≤ ramEnd holeMap) (by decide) (by decide) (by decide)
  obtain rfl := Option.some.inj (ht.symm.trans hu)
  obtain ⟨e, he, h1, hpage⟩ := (hram p hp hpc).1
  rw [ha] at hpage
  have hno : ∀ e ∈ holeMap, e.type = 1 → ¬ e.HasPage 0x1000000 := by decide
  exact hno e he h1 hpage

end BHOS
