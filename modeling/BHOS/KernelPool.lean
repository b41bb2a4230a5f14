import BHOS.BitmapSet
import BHOS.Vmm

/-! # The pool of kernel pages

The pages of the kernel half are numbered from `0xC0000000`; `freePages s` is the set the pool
represents.  `vmmKernInit_eq` says what `vmm_kern_init` leaves in it: everything behind the
kernel image and below the last 4 MiB, which hold the self-mapped page tables. -/

namespace BHOS
namespace Vmm

variable {π : Type} {s t : Vmm π} {m : ByteMem} {kb : UInt32} {q i n : ℕ}

/-- The number of pages below the last 4 MiB. -/
def windowPage : ℕ := 255 * 1024

/-- The free pages of the pool. -/
def freePages (s : Vmm π) : Set ℕ := s.kernVmmPool.freeSet s.poolMem

/-- A kernel page is allocated when it lies below the last 4 MiB and is not free. -/
def Allocated (s : Vmm π) (q : ℕ) : Prop := q < windowPage ∧ q ∉ s.freePages

/-- Where the free pages are those from `n` on, the allocated ones lie below it. -/
theorem Allocated.lt {s : Vmm π} {q n : ℕ} (h : s.Allocated q)
    (hF : s.freePages = {q | n ≤ q ∧ q < windowPage}) : q < n := by
  by_contra hge
  apply h.2
  rw [hF]
  exact ⟨Nat.le_of_not_lt hge, h.1⟩

/-- The address of a kernel page. -/
def kernAddr (q : ℕ) : UInt32 := (kernPool 0).pageAddr q

/-- The kernel page of an address. -/
def kernPage? (t : UInt32) : Option ℕ := (kernPool 0).pageIndex? t

theorem kernPool_ok (kb : UInt32) : (kernPool kb).Ok := by
  have h₁ : (kernPool kb).targetAddrHeader = 0xC0000000 := rfl
  have h₂ : (kernPool kb).length = 0x8000 := rfl
  constructor <;> simp only [h₁, h₂] <;> decide

theorem pages_kernPool (kb : UInt32) : (kernPool kb).pages = 256 * 1024 := by
  have h : (kernPool kb).length = 0x8000 := rfl
  simp only [Bitmap.pages, h]
  decide

theorem pageIndex_kernPool (kb t : UInt32) : (kernPool kb).pageIndex? t = kernPage? t := rfl

theorem pageAddr_kernPool (kb : UInt32) (q : ℕ) : (kernPool kb).pageAddr q = kernAddr q := rfl

theorem kernAddr_toNat (hq : q < 256 * 1024) : (kernAddr q).toNat = 0xC0000000 + q * 4096 :=
  (kernPool_ok 0).pageAddr_toNat hq

theorem kernAddr_aligned (hq : q < 256 * 1024) : (kernAddr q).toNat % 4096 = 0 := by
  rw [kernAddr_toNat hq]
  omega

theorem kernPage_eq_some {t : UInt32} :
    kernPage? t = some q ↔ 0xC0000000 ≤ t.toNat ∧ q = (t.toNat - 0xC0000000) / 4096 := by
  have ht := t.toNat_lt
  have h₁ : (kernPool 0).targetAddrHeader.toNat = 0xC0000000 := rfl
  have h₂ : (kernPool 0).length.toNat = 0x8000 := rfl
  simp only [kernPage?, Bitmap.pageIndex?, h₁, h₂]
  split_ifs with h
  · simp only [Option.some.injEq]
    omega
  · simp only [false_iff]
    omega

theorem kernPage_lt {t : UInt32} (h : kernPage? t = some q) : q < 256 * 1024 := by
  have ht := t.toNat_lt
  have h := kernPage_eq_some.mp h
  omega

theorem kernPage_kernAddr (hq : q < 256 * 1024) : kernPage? (kernAddr q) = some q :=
  (kernPool_ok 0).pageIndex_pageAddr hq

/-! ### `vmm_kern_init` -/

/-- Taking pages from the pool takes the lowest ones. -/
theorem takePages_eq (hs : (kernPool kb).Stored m)
    (hF : (kernPool kb).freeSet m = {q | i ≤ q ∧ q < 256 * 1024}) (hi : i + n ≤ 256 * 1024) :
    ∃ m', takePages (kernPool kb) n m = some m' ∧ (kernPool kb).Stored m' ∧
      (kernPool kb).freeSet m' = {q | i + n ≤ q ∧ q < 256 * 1024} := by
  induction n generalizing m i with
  | zero => exact ⟨m, rfl, hs, hF⟩
  | succ n ih =>
      have hmem : i ∈ (kernPool kb).freeSet m := by
        rw [hF]
        exact ⟨le_rfl, by omega⟩
      rcases (kernPool_ok kb).alloc_eq hs with ⟨hnil, -⟩ | ⟨q, m₁, hq, hmin, h, hs₁, hF₁⟩
      · rw [hnil] at hmem
        exact hmem.elim
      · have hqi : q = i := by
          have h₁ := hmin i hmem
          rw [hF] at hq
          exact le_antisymm h₁ hq.1
        subst hqi
        obtain ⟨m', hm', hs', hF'⟩ := ih hs₁ (i := q + 1) (by
          rw [hF₁, hF]
          ext r
          simp only [Set.mem_sdiff, Set.mem_ofPred_eq, Set.mem_singleton_iff]
          omega) (by omega)
        refine ⟨m', ?_, hs', ?_⟩
        · simp only [takePages, h, Option.bind_eq_bind, Option.bind_some, hm']
        · rw [hF', add_assoc, add_comm 1]

/-- Clearing the bytes `i, …, i + n - 1` from the last one down removes their pages. -/
theorem clearBytes_eq (hs : (kernPool kb).Stored m) (hi : i + n ≤ 0x8000) {probe : UInt32}
    (hp : probe + 1 = kb + UInt32.ofNat (i + n)) :
    ∃ m', clearBytes n probe m = some m' ∧ (kernPool kb).Stored m' ∧
      ∀ q, q ∈ (kernPool kb).freeSet m' ↔
        q ∈ (kernPool kb).freeSet m ∧ ¬ (i ≤ q / 8 ∧ q / 8 < i + n) := by
  induction n generalizing m probe with
  | zero => exact ⟨m, rfl, hs, fun q => (and_iff_left (by omega)).symm⟩
  | succ n ih =>
      have hlen : (kernPool kb).length.toNat = 0x8000 := rfl
      have hbyte : i + n < (kernPool kb).length.toNat := by omega
      have hprobe : probe = kb + UInt32.ofNat (i + n) := by
        have h := congrArg UInt32.toNat hp
        rw [← UInt32.toNat_inj]
        have := probe.toNat_lt
        simp only [UInt32.toNat_add, UInt32.toNat_ofNat', UInt32.reduceToNat] at h ⊢
        omega
      have hstore := hs.store hbyte 0
      have hup := hs.update hbyte 0
      obtain ⟨m', hm', hs', hF'⟩ := ih hup (by omega)
        (show probe - 1 + 1 = _ by rw [UInt32.sub_add_cancel]; exact hprobe)
      refine ⟨m', ?_, hs', ?_⟩
      · have hv : (kernPool kb).vaddrHeader = kb := rfl
        rw [hv, ← hprobe] at hstore hm'
        simp only [clearBytes, hstore, Option.bind_eq_bind, Option.bind_some, hm']
      · intro q
        rw [hF', (kernPool_ok kb).mem_freeSet_update hbyte]
        split_ifs with hq
        · simp only [UInt8.toNat_zero, Nat.zero_testBit, Bool.false_eq_true, false_and, false_iff]
          omega
        · apply and_congr_right
          intro _
          omega

/-- The pool after `vmm_kern_init`. -/
theorem vmmKernInit_eq (kernEnd kb : UInt32) (s : Vmm π) (hs : (kernPool kb).Stored s.poolMem)
    (hused : (getKernUsedPageCount kernEnd).toNat ≤ 1024) :
    ∃ m, vmmKernInit kernEnd kb s = some { s with kernVmmPool := kernPool kb, poolMem := m } ∧
      (kernPool kb).Stored m ∧ (kernPool kb).freeSet m =
        {q | (getKernUsedPageCount kernEnd).toNat ≤ q ∧ q < windowPage} := by
  obtain ⟨m₁, h₁, hs₁, hF₁⟩ := (kernPool_ok kb).initMem_eq hs
  obtain ⟨m₂, h₂, hs₂, hF₂⟩ := takePages_eq (i := 0)
    (n := (getKernUsedPageCount kernEnd).toNat) hs₁ (by
      rw [hF₁, pages_kernPool]
      simp) (by omega)
  obtain ⟨m₃, h₃, hs₃, hF₃⟩ := clearBytes_eq (i := 0x8000 - 128) (n := 128) hs₂ (by omega)
    (show kb + 0x8000 - 1 + 1 = _ by
      have e : UInt32.ofNat (0x8000 - 128 + 128) = 0x8000 := by decide
      rw [UInt32.sub_add_cancel, e])
  have hle : ¬ getKernUsedPageCount kernEnd > 1024 := by
    rw [gt_iff_lt, UInt32.not_lt, UInt32.le_iff_toNat_le]
    exact hused
  refine ⟨m₃, ?_, hs₃, ?_⟩
  · simp only [vmmKernInit, h₁, Option.bind_eq_bind, Option.bind_some, if_neg hle, h₂, h₃]
  · ext q
    rw [hF₃, hF₂]
    simp only [Set.mem_ofPred_eq, windowPage]
    omega

end Vmm
end BHOS
