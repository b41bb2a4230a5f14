import Mathlib.Data.Set.Insert
import Mathlib.Order.Lattice.Nat
import BHOS.Bitmap

/-! # A bitmap is a set of free pages

The pages of the region are numbered from zero; page `q` starts at `pageAddr bm q`.  The storage
of a bitmap represents the set `freeSet bm m` of the pages whose bit is set.  `specStep` says
what each operation of `bitmap.c` means on that set; any sequence of operations does exactly
this, with the same return values.

`Stored bm m` says that the `length` bytes of storage are mapped in `m` *and nothing else is*:
an access to any other byte would make an operation undefined, so an operation that is defined
there reads and writes no byte outside its storage. -/

namespace BHOS
namespace Bitmap

/-- What the callers of `bitmap.c` provide: a page-aligned, non-empty region below 4 GiB. -/
structure Ok (bm : Bitmap) : Prop where
  aligned : bm.targetAddrHeader.toNat % 4096 = 0
  nonempty : 1 ≤ bm.length.toNat
  fits : bm.targetAddrHeader.toNat + bm.length.toNat * 8 * 4096 ≤ 2 ^ 32

/-- Exactly the storage of the bitmap is mapped. -/
def Stored (bm : Bitmap) (m : ByteMem) : Prop :=
  ∀ a, (m a).isSome ↔ ∃ i < bm.length.toNat, a = bm.vaddrHeader + UInt32.ofNat i

/-- The number of pages of the region. -/
def pages (bm : Bitmap) : ℕ := 8 * bm.length.toNat

/-- The address of a page of the region. -/
def pageAddr (bm : Bitmap) (q : ℕ) : UInt32 := bm.targetAddrHeader + UInt32.ofNat q * pageSize

/-- The pages whose bit is set. -/
def freeSet (bm : Bitmap) (m : ByteMem) : Set ℕ :=
  {q | q < bm.pages ∧ ∃ b, m (bm.vaddrHeader + UInt32.ofNat (q / 8)) = some b ∧
    b.toNat.testBit (7 - q % 8) = true}

/-- The page of the region that an address lies in. -/
def pageIndex? (bm : Bitmap) (t : UInt32) : Option ℕ :=
  if bm.targetAddrHeader.toNat ≤ t.toNat ∧
      t.toNat < bm.targetAddrHeader.toNat + bm.length.toNat * 8 * 4096 then
    some ((t.toNat - bm.targetAddrHeader.toNat) / 4096)
  else none

variable {bm : Bitmap} {m m' : ByteMem} {t : UInt32} {q : ℕ}

/-! ### Addresses -/

theorem Ok.length_le (ok : bm.Ok) : bm.length.toNat ≤ 2 ^ 17 := by
  have := ok.fits
  omega

theorem Ok.maxAddr_toNat (ok : bm.Ok) :
    bm.maxAddr.toNat = bm.targetAddrHeader.toNat + bm.length.toNat * 8 * 4096 - 1 := by
  have h₁ := ok.nonempty
  have h₂ := ok.fits
  have h₃ := bm.targetAddrHeader.toNat_lt
  simp only [maxAddr, pageSize, UInt32.toNat_add, UInt32.toNat_sub, UInt32.toNat_mul,
    UInt32.reduceToNat]
  omega

/-- The range test of the operations, on the page of the address. -/
theorem Ok.range_iff (ok : bm.Ok) :
    (bm.targetAddrHeader ≤ t &&& 0xFFFFF000 ∧ t &&& 0xFFFFF000 < bm.maxAddr) ↔
      ∃ q, bm.pageIndex? t = some q := by
  have h₁ := ok.aligned
  have h₂ := ok.nonempty
  rw [UInt32.le_iff_toNat_le, UInt32.lt_iff_toNat_lt, ok.maxAddr_toNat, Words.toNat_and_frame]
  simp only [pageIndex?]
  split_ifs with h
  · simp only [Option.some.injEq, exists_eq', iff_true]
    omega
  · simp only [exists_false, iff_false]
    omega

theorem Ok.pageIndex_eq (ok : bm.Ok) (h : bm.pageIndex? t = some q) :
    q < bm.pages ∧ t.toNat / 4096 * 4096 = bm.targetAddrHeader.toNat + q * 4096 := by
  have h₁ := ok.aligned
  simp only [pageIndex?] at h
  split_ifs at h with hr
  obtain rfl := Option.some.inj h
  simp only [pages]
  omega

theorem Ok.pageNum_toNat (ok : bm.Ok) (h : bm.pageIndex? t = some q) :
    (bm.pageNum (t &&& 0xFFFFF000)).toNat = q := by
  obtain ⟨-, he⟩ := ok.pageIndex_eq h
  have hlt := (t &&& 0xFFFFF000).toNat_lt
  simp only [pageNum, pageSize, UInt32.toNat_div, UInt32.toNat_sub, UInt32.reduceToNat]
  rw [Words.toNat_and_frame] at hlt ⊢
  omega

theorem Ok.pageAddr_toNat (ok : bm.Ok) (hq : q < bm.pages) :
    (bm.pageAddr q).toNat = bm.targetAddrHeader.toNat + q * 4096 := by
  have h₁ := ok.fits
  simp only [pages] at hq
  simp only [pageAddr, pageSize, UInt32.toNat_add, UInt32.toNat_mul, UInt32.toNat_ofNat',
    UInt32.reduceToNat]
  omega

/-- The operations return the address of a page rounded down. -/
theorem Ok.pageAddr_eq (ok : bm.Ok) (h : bm.pageIndex? t = some q) :
    bm.pageAddr q = t &&& 0xFFFFF000 := by
  obtain ⟨hq, he⟩ := ok.pageIndex_eq h
  rw [← UInt32.toNat_inj, ok.pageAddr_toNat hq, Words.toNat_and_frame, he]

theorem Ok.pageIndex_pageAddr (ok : bm.Ok) (hq : q < bm.pages) :
    bm.pageIndex? (bm.pageAddr q) = some q := by
  have h₁ := ok.pageAddr_toNat hq
  simp only [pages] at hq
  rw [pageIndex?, if_pos (by omega), h₁]
  congr 1
  omega

theorem Ok.pageAddr_ne_erro (ok : bm.Ok) (hq : q < bm.pages) :
    bm.pageAddr q ≠ bitmapReturnErro := by
  intro h
  have h₁ := ok.pageAddr_toNat hq
  have h₂ := ok.aligned
  rw [h] at h₁
  simp only [bitmapReturnErro, UInt32.reduceToNat] at h₁
  omega

/-- Distinct storage bytes have distinct addresses. -/
theorem Ok.storage_inj (ok : bm.Ok) {i j : ℕ} (hi : i < bm.length.toNat)
    (hj : j < bm.length.toNat)
    (h : bm.vaddrHeader + UInt32.ofNat i = bm.vaddrHeader + UInt32.ofNat j) : i = j := by
  have hl := ok.length_le
  have h' := congrArg UInt32.toNat h
  simp only [UInt32.toNat_add, UInt32.toNat_ofNat'] at h'
  omega

/-! ### Storage -/

theorem Stored.load (hs : bm.Stored m) {i : ℕ} (hi : i < bm.length.toNat) :
    ∃ b, m (bm.vaddrHeader + UInt32.ofNat i) = some b :=
  Option.isSome_iff_exists.mp ((hs _).mpr ⟨i, hi, rfl⟩)

theorem Stored.store (hs : bm.Stored m) {i : ℕ} (hi : i < bm.length.toNat) (v : UInt8) :
    BHOS.store m (bm.vaddrHeader + UInt32.ofNat i) v =
      some (Function.update m (bm.vaddrHeader + UInt32.ofNat i) (some v)) := by
  obtain ⟨b, hb⟩ := hs.load hi
  simp [BHOS.store, hb]

theorem Stored.update (hs : bm.Stored m) {i : ℕ} (hi : i < bm.length.toNat) (v : UInt8) :
    bm.Stored (Function.update m (bm.vaddrHeader + UInt32.ofNat i) (some v)) := by
  intro a
  by_cases h : a = bm.vaddrHeader + UInt32.ofNat i
  · simp only [h, Function.update_self, Option.isSome_some, true_iff]
    exact ⟨i, hi, rfl⟩
  · rw [Function.update_of_ne h]
    exact hs a

/-- Writing byte `i` of the storage decides the pages `8 * i, …, 8 * i + 7` and no other. -/
theorem Ok.mem_freeSet_update (ok : bm.Ok) {i : ℕ} (hi : i < bm.length.toNat) (v : UInt8) :
    q ∈ bm.freeSet (Function.update m (bm.vaddrHeader + UInt32.ofNat i) (some v)) ↔
      if q / 8 = i then v.toNat.testBit (7 - q % 8) = true else q ∈ bm.freeSet m := by
  simp only [freeSet, Set.mem_ofPred_eq, pages]
  split_ifs with h
  · subst h
    simp only [Function.update_self, Option.some.injEq, exists_eq_left']
    have hq : q < 8 * bm.length.toNat := by omega
    simp [hq]
  · apply and_congr_right
    intro hq
    have hne : bm.vaddrHeader + UInt32.ofNat (q / 8) ≠ bm.vaddrHeader + UInt32.ofNat i :=
      fun e => h (ok.storage_inj (by omega) hi e)
    rw [Function.update_of_ne hne]

theorem mem_freeSet_of_byte {i : ℕ} {b : UInt8} (hq : q < bm.pages) (hi : q / 8 = i)
    (hb : m (bm.vaddrHeader + UInt32.ofNat i) = some b) :
    q ∈ bm.freeSet m ↔ b.toNat.testBit (7 - q % 8) = true := by
  subst hi
  simp [freeSet, hq, hb]

/-- The storage is determined by the set of free pages. -/
theorem Stored.eq_of_freeSet (hs : bm.Stored m) (hs' : bm.Stored m')
    (hF : bm.freeSet m' = bm.freeSet m) : m' = m := by
  funext a
  by_cases ha : ∃ i < bm.length.toNat, a = bm.vaddrHeader + UInt32.ofNat i
  · obtain ⟨i, hi, rfl⟩ := ha
    obtain ⟨b, hb⟩ := hs.load hi
    obtain ⟨b', hb'⟩ := hs'.load hi
    rw [hb, hb', Option.some.injEq, ← UInt8.toNat_inj]
    apply Nat.eq_of_testBit_eq
    intro j
    by_cases hj : j < 8
    · -- bit `j` of byte `i` is page `8 * i + (7 - j)`
      have hq : 8 * i + (7 - j) < bm.pages := by
        simp only [pages]
        omega
      have h₁ := mem_freeSet_of_byte hq (by omega) hb
      have h₂ := mem_freeSet_of_byte hq (by omega) hb'
      have hbit : 7 - (8 * i + (7 - j)) % 8 = j := by omega
      rw [hF, hbit] at h₂
      rw [hbit] at h₁
      exact Bool.eq_iff_iff.mpr (h₂.symm.trans h₁)
    · have hpow : 2 ^ 8 ≤ 2 ^ j := Nat.pow_le_pow_right (by decide) (by omega)
      rw [Nat.testBit_lt_two_pow (b'.toNat_lt.trans_le hpow),
        Nat.testBit_lt_two_pow (b.toNat_lt.trans_le hpow)]
  · have hnone : ∀ m'' : ByteMem, bm.Stored m'' → m'' a = none := by
      intro m'' hm
      rw [← Option.not_isSome_iff_eq_none, hm a]
      exact ha
    rw [hnone m hs, hnone m' hs']

/-- Clearing the digit of a free page takes exactly that page. -/
theorem Ok.freeSet_sub_mask (ok : bm.Ok) {b : UInt8}
    (hb : m (bm.vaddrHeader + UInt32.ofNat (q / 8)) = some b) (hq : q ∈ bm.freeSet m) :
    bm.freeSet (Function.update m (bm.vaddrHeader + UInt32.ofNat (q / 8))
      (some (b - Words.mask (q % 8)))) = bm.freeSet m \ {q} := by
  have hlt : q < bm.pages := hq.1
  have hset := (mem_freeSet_of_byte hlt rfl hb).mp hq
  simp only [pages] at hlt
  ext r
  rw [ok.mem_freeSet_update (by omega), Set.mem_sdiff, Set.mem_singleton_iff]
  split_ifs with hr
  · by_cases hrp : r < bm.pages
    · rw [mem_freeSet_of_byte hrp hr hb, Words.testBit_sub_mask b (Nat.mod_lt r (by decide))
        (Nat.mod_lt q (by decide)) hset]
      simp only [Bool.and_eq_true, decide_eq_true_eq]
      apply and_congr_right
      intro _
      omega
    · simp only [pages] at hrp
      omega
  · refine ⟨fun hm => ⟨hm, ?_⟩, fun hm => hm.1⟩
    rintro rfl
    exact hr rfl

/-! ### One lemma for each operation -/

/-- The byte and the bit of a page, as the operations compute them. -/
theorem Ok.position (ok : bm.Ok) (h : bm.pageIndex? t = some q) :
    bm.pageNum (t &&& 0xFFFFF000) / 8 = UInt32.ofNat (q / 8) ∧
      byteMask (bm.pageNum (t &&& 0xFFFFF000) % 8) = Words.mask (q % 8) ∧
      q / 8 < bm.length.toNat := by
  have hp := ok.pageNum_toNat h
  obtain ⟨hq, -⟩ := ok.pageIndex_eq h
  have hl := ok.length_le
  have e : bm.pageNum (t &&& 0xFFFFF000) = UInt32.ofNat q := by
    rw [← hp, UInt32.ofNat_toNat]
  simp only [pages] at hq
  refine ⟨?_, ?_, by omega⟩
  · rw [← UInt32.toNat_inj, UInt32.toNat_div, hp]
    simp only [UInt32.reduceToNat, UInt32.toNat_ofNat']
    omega
  · have hm : ∀ j < 8, byteMask (UInt32.ofNat j) = Words.mask j := by decide +kernel
    have e8 : UInt32.ofNat q % 8 = UInt32.ofNat (q % 8) := by
      rw [← UInt32.toNat_inj, UInt32.toNat_mod]
      simp only [UInt32.reduceToNat, UInt32.toNat_ofNat']
      omega
    rw [e, e8, hm _ (by omega)]

theorem storage_succ (i : ℕ) :
    bm.vaddrHeader + UInt32.ofNat i + 1 = bm.vaddrHeader + UInt32.ofNat (i + 1) := by
  rw [← UInt32.toNat_inj]
  simp only [UInt32.toNat_add, UInt32.toNat_ofNat', UInt32.reduceToNat]
  omega

/-- `memset` over the storage from byte `i` on. -/
theorem Ok.memset_eq (ok : bm.Ok) (val : UInt8) {n i : ℕ} (hs : bm.Stored m)
    (hn : i + n = bm.length.toNat) :
    ∃ m', memset val n (bm.vaddrHeader + UInt32.ofNat i) m = some m' ∧ bm.Stored m' ∧
      ∀ k < bm.length.toNat, m' (bm.vaddrHeader + UInt32.ofNat k) =
        if i ≤ k then some val else m (bm.vaddrHeader + UInt32.ofNat k) := by
  induction n generalizing i m with
  | zero =>
      refine ⟨m, rfl, hs, ?_⟩
      intro k hk
      rw [if_neg (by omega)]
  | succ n ih =>
      have hi : i < bm.length.toNat := by omega
      obtain ⟨m', hm', hs', hv⟩ := ih (hs.update hi val) (i := i + 1) (by omega)
      refine ⟨m', ?_, hs', ?_⟩
      · rw [memset, hs.store hi, Option.bind_some, storage_succ, hm']
      · intro k hk
        rw [hv k hk]
        rcases Nat.lt_trichotomy k i with h | rfl | h
        · have hne : bm.vaddrHeader + UInt32.ofNat k ≠ bm.vaddrHeader + UInt32.ofNat i :=
            fun e => absurd (ok.storage_inj hk hi e) (by omega)
          rw [if_neg (by omega), if_neg (by omega), Function.update_of_ne hne]
        · rw [if_neg (by omega), if_pos le_rfl, Function.update_self]
        · rw [if_pos (by omega), if_pos (by omega)]

/-- `bitmap_init_mem` makes every page free. -/
theorem Ok.initMem_eq (ok : bm.Ok) (hs : bm.Stored m) :
    ∃ m', bm.initMem m = some m' ∧ bm.Stored m' ∧ bm.freeSet m' = {q | q < bm.pages} := by
  obtain ⟨m', hm', hs', hv⟩ := ok.memset_eq 255 hs (Nat.zero_add _)
  refine ⟨m', ?_, hs', ?_⟩
  · rw [initMem, ← hm']
    congr 1
    rw [← UInt32.toNat_inj]
    simp
  · ext q
    refine ⟨fun h => h.1, ?_⟩
    intro h
    have hq : q < bm.pages := h
    have hv' := hv (q / 8) (by simp only [pages] at hq; omega)
    rw [if_pos (Nat.zero_le _)] at hv'
    have h255 : ∀ j < 8, (255 : UInt8).toNat.testBit (7 - j) = true := by decide
    exact (mem_freeSet_of_byte hq rfl hv').mpr (h255 _ (by omega))

/-- `bitmap_alloc_one_page` inside the region takes exactly the page asked for. -/
theorem Ok.allocOnePage_eq (ok : bm.Ok) (hs : bm.Stored m) (h : bm.pageIndex? t = some q) :
    ∃ m', bm.Stored m' ∧ (q ∈ bm.freeSet m →
        bm.allocOnePage t m = some (bm.pageAddr q, m') ∧ bm.freeSet m' = bm.freeSet m \ {q}) ∧
      (q ∉ bm.freeSet m → bm.allocOnePage t m = some (bitmapReturnErro, m)) := by
  obtain ⟨e₁, e₂, hi⟩ := ok.position h
  obtain ⟨b, hb⟩ := hs.load hi
  have hq := (ok.pageIndex_eq h).1
  have hfree := mem_freeSet_of_byte hq rfl hb
  have htest := Words.eq_or_mask_iff b (Nat.mod_lt q (by decide : 0 < 8))
  refine ⟨Function.update m (bm.vaddrHeader + UInt32.ofNat (q / 8))
    (some (b - Words.mask (q % 8))), hs.update hi _,
    fun hin => ⟨?_, ok.freeSet_sub_mask hb hin⟩, ?_⟩
  · simp only [allocOnePage, if_pos (ok.range_iff.mpr ⟨q, h⟩), e₁, e₂, BHOS.load, hb,
      Option.bind_eq_bind, Option.bind_some]
    rw [if_pos (htest.mpr (hfree.mp hin)), hs.store hi, Option.bind_some, ok.pageAddr_eq h]
  · intro hout
    simp only [allocOnePage, if_pos (ok.range_iff.mpr ⟨q, h⟩), e₁, e₂, BHOS.load, hb,
      Option.bind_eq_bind, Option.bind_some]
    rw [if_neg (fun e => hout (hfree.mpr (htest.mp e)))]

/-- `bitmap_alloc_one_page` outside the region. -/
theorem Ok.allocOnePage_out (ok : bm.Ok) (h : bm.pageIndex? t = none) :
    bm.allocOnePage t m = some (bitmapReturnErro, m) := by
  simp only [allocOnePage]
  rw [if_neg]
  rw [ok.range_iff, h]
  simp

/-- `bitmap_release_one_page` inside the region adds exactly the page asked for. -/
theorem Ok.releaseOnePage_eq (ok : bm.Ok) (hs : bm.Stored m) (h : bm.pageIndex? t = some q) :
    ∃ m', bm.releaseOnePage t m = some m' ∧ bm.Stored m' ∧
      bm.freeSet m' = insert q (bm.freeSet m) := by
  obtain ⟨e₁, e₂, hi⟩ := ok.position h
  obtain ⟨b, hb⟩ := hs.load hi
  have hq := (ok.pageIndex_eq h).1
  refine ⟨_, ?_, hs.update hi (b ||| Words.mask (q % 8)), ?_⟩
  · simp only [releaseOnePage, if_pos (ok.range_iff.mpr ⟨q, h⟩), e₁, e₂, BHOS.load, hb,
      Option.bind_eq_bind, Option.bind_some]
    exact hs.store hi _
  · ext r
    rw [ok.mem_freeSet_update hi, Set.mem_insert_iff]
    split_ifs with hr
    · by_cases hrp : r < bm.pages
      · rw [mem_freeSet_of_byte hrp hr hb, Words.testBit_or_mask b (Nat.mod_lt r (by decide))
          (Nat.mod_lt q (by decide)), Bool.or_eq_true, decide_eq_true_eq, or_comm]
        apply or_congr_left
        omega
      · simp only [pages] at hrp hq
        omega
    · refine ⟨Or.inr, fun hm => hm.resolve_left ?_⟩
      rintro rfl
      exact hr rfl

/-- `bitmap_release_one_page` outside the region. -/
theorem Ok.releaseOnePage_out (ok : bm.Ok) (h : bm.pageIndex? t = none) :
    bm.releaseOnePage t m = some m := by
  simp only [releaseOnePage]
  rw [if_neg]
  rw [ok.range_iff, h]
  simp

/-- The inner loop of `bitmap_alloc` finds the highest set bit of a byte. -/
theorem topBit_eq (b : UInt8) (hb : b ≠ 0) :
    ∃ p < 8, topBit 8 0 b = some (UInt32.ofNat p) ∧ b.toNat.testBit (7 - p) = true ∧
      ∀ j < p, b.toNat.testBit (7 - j) = false := by
  have h : ∀ b : UInt8, b ≠ 0 → ∃ p < 8, topBit 8 0 b = some (UInt32.ofNat p) ∧
      b.toNat.testBit (7 - p) = true ∧ ∀ j < p, b.toNat.testBit (7 - j) = false :=
    Words.forall_byte (by decide +kernel)
  exact h b hb

/-- The outer loop from byte `i` on, when no page before that byte is free. -/
theorem Ok.allocLoop_eq (ok : bm.Ok) (hs : bm.Stored m) {n i : ℕ} (hn : i + n = bm.length.toNat)
    (hbelow : ∀ q ∈ bm.freeSet m, 8 * i ≤ q) :
    (bm.freeSet m = ∅ ∧ bm.allocLoop n (UInt32.ofNat i) m = some (bitmapReturnErro, m)) ∨
      ∃ q m', q ∈ bm.freeSet m ∧ (∀ r ∈ bm.freeSet m, q ≤ r) ∧
        bm.allocLoop n (UInt32.ofNat i) m = some (bm.pageAddr q, m') ∧ bm.Stored m' ∧
        bm.freeSet m' = bm.freeSet m \ {q} := by
  have hl := ok.length_le
  induction n generalizing i with
  | zero =>
      refine Or.inl ⟨Set.eq_empty_of_forall_notMem ?_, rfl⟩
      intro q hq
      have h₁ := hbelow q hq
      have h₂ : q < bm.pages := hq.1
      simp only [pages] at h₂
      omega
  | succ n ih =>
      have hi : i < bm.length.toNat := by omega
      obtain ⟨b, hb⟩ := hs.load hi
      by_cases hb0 : b = 0
      · have hskip : ∀ q ∈ bm.freeSet m, 8 * (i + 1) ≤ q := by
          intro q hq
          have h₁ := hbelow q hq
          by_contra hlt
          have h₂ := (mem_freeSet_of_byte hq.1 (by omega : q / 8 = i) hb).mp hq
          simp [hb0] at h₂
        have hsucc : UInt32.ofNat i + 1 = UInt32.ofNat (i + 1) := by
          rw [← UInt32.toNat_inj]
          simp only [UInt32.toNat_add, UInt32.toNat_ofNat', UInt32.reduceToNat]
          omega
        have e : bm.allocLoop (n + 1) (UInt32.ofNat i) m =
            bm.allocLoop n (UInt32.ofNat (i + 1)) m := by
          simp only [allocLoop, BHOS.load, hb, hb0, Option.bind_eq_bind, Option.bind_some,
            ne_eq, not_true_eq_false, if_false, hsucc]
        rw [e]
        exact ih (by omega) hskip
      · obtain ⟨p, hp, htop, hset, habove⟩ := topBit_eq b hb0
        have hq : 8 * i + p < bm.pages := by
          simp only [pages]
          omega
        have hmod : (8 * i + p) % 8 = p := by omega
        have hmem : 8 * i + p ∈ bm.freeSet m :=
          (mem_freeSet_of_byte hq (by omega) hb).mpr (by rwa [hmod])
        have hmask : byteMask (UInt32.ofNat p) = Words.mask p := by
          have hm : ∀ j < 8, byteMask (UInt32.ofNat j) = Words.mask j := by decide +kernel
          exact hm p hp
        refine Or.inr ⟨8 * i + p, _, hmem, ?_, ?_, hs.update hi (b - Words.mask p), ?_⟩
        · intro r hr
          have h₁ := hbelow r hr
          by_contra hlt
          have h₂ := (mem_freeSet_of_byte hr.1 (by omega : r / 8 = i) hb).mp hr
          rw [habove _ (by omega)] at h₂
          cases h₂
        · simp only [allocLoop, BHOS.load, hb, Option.bind_eq_bind, Option.bind_some, ne_eq, hb0,
            not_false_eq_true, if_true, htop, hmask]
          rw [hs.store hi, Option.bind_some, pageAddr]
          congr 2
          rw [← UInt32.toNat_inj]
          simp only [pageSize, UInt32.toNat_add, UInt32.toNat_mul, UInt32.toNat_ofNat',
            UInt32.reduceToNat]
          omega
        · have hdiv : (8 * i + p) / 8 = i := by omega
          have hclear := ok.freeSet_sub_mask (q := 8 * i + p) (hdiv.symm ▸ hb) hmem
          rwa [hdiv, hmod] at hclear

/-- `bitmap_alloc` takes the lowest free page, and fails only when there is none. -/
theorem Ok.alloc_eq (ok : bm.Ok) (hs : bm.Stored m) :
    (bm.freeSet m = ∅ ∧ bm.alloc m = some (bitmapReturnErro, m)) ∨
      ∃ q m', q ∈ bm.freeSet m ∧ (∀ r ∈ bm.freeSet m, q ≤ r) ∧
        bm.alloc m = some (bm.pageAddr q, m') ∧ bm.Stored m' ∧
        bm.freeSet m' = bm.freeSet m \ {q} :=
  ok.allocLoop_eq hs (Nat.zero_add _) (fun _ _ => Nat.zero_le _)

/-! ### Runs of operations -/

/-- The operations of `bitmap.c`. -/
inductive Op where
  | initMem
  | allocOnePage (target : UInt32)
  | releaseOnePage (target : UInt32)
  | alloc
deriving DecidableEq, Repr

/-- One operation, with its return value when it has one. -/
def step (bm : Bitmap) : Op → ByteMem → Option (Option UInt32 × ByteMem)
  | .initMem, m => (bm.initMem m).map fun m => (none, m)
  | .allocOnePage t, m => (bm.allocOnePage t m).map fun r => (some r.1, r.2)
  | .releaseOnePage t, m => (bm.releaseOnePage t m).map fun m => (none, m)
  | .alloc, m => (bm.alloc m).map fun r => (some r.1, r.2)

/-- A sequence of operations, with the values they return. -/
def bitmapRun (bm : Bitmap) : List Op → ByteMem → Option (List (Option UInt32) × ByteMem)
  | [], m => some ([], m)
  | op :: ops, m => do
      let (r, m) ← bm.step op m
      let (rs, m) ← bitmapRun bm ops m
      some (r :: rs, m)

open Classical in
/-- What an operation means for the set `F` of free pages. -/
noncomputable def specStep (bm : Bitmap) : Op → Set ℕ → Option UInt32 × Set ℕ
  | .initMem, _ => (none, {q | q < bm.pages})
  | .allocOnePage t, F =>
      match bm.pageIndex? t with
      | none => (some bitmapReturnErro, F)
      | some q =>
          if q ∈ F then (some (UInt32.ofNat (t.toNat / 4096 * 4096)), F \ {q})
          else (some bitmapReturnErro, F)
  | .releaseOnePage t, F =>
      match bm.pageIndex? t with
      | none => (none, F)
      | some q => (none, insert q F)
  | .alloc, F =>
      if F.Nonempty then (some (bm.pageAddr (sInf F)), F \ {sInf F})
      else (some bitmapReturnErro, F)

/-- The meaning of a sequence of operations. -/
noncomputable def specRun (bm : Bitmap) : List Op → Set ℕ → List (Option UInt32) × Set ℕ
  | [], F => ([], F)
  | op :: ops, F =>
      let (r, F) := bm.specStep op F
      let (rs, F) := specRun bm ops F
      (r :: rs, F)

/-- One operation does to the represented set what it means. -/
theorem Ok.step_refines (ok : bm.Ok) (hs : bm.Stored m) (op : Op) :
    ∃ m', bm.step op m = some ((bm.specStep op (bm.freeSet m)).1, m') ∧ bm.Stored m' ∧
      bm.freeSet m' = (bm.specStep op (bm.freeSet m)).2 := by
  cases op with
  | initMem =>
      obtain ⟨m', h, hs', hF⟩ := ok.initMem_eq hs
      exact ⟨m', by simp [step, h, specStep], hs', hF⟩
  | allocOnePage t =>
      cases ht : bm.pageIndex? t with
      | none => exact ⟨m, by simp [step, ok.allocOnePage_out ht, specStep, ht], hs, by
          simp [specStep, ht]⟩
      | some q =>
          obtain ⟨m', hs', hin, hout⟩ := ok.allocOnePage_eq hs ht
          by_cases hq : q ∈ bm.freeSet m
          · obtain ⟨h, hF⟩ := hin hq
            have e : UInt32.ofNat (t.toNat / 4096 * 4096) = bm.pageAddr q := by
              rw [← Words.toNat_and_frame, UInt32.ofNat_toNat, ok.pageAddr_eq ht]
            exact ⟨m', by simp [step, h, specStep, ht, hq, e], hs', by
              simp [specStep, ht, hq, hF]⟩
          · exact ⟨m, by simp [step, hout hq, specStep, ht, hq], hs, by simp [specStep, ht, hq]⟩
  | releaseOnePage t =>
      cases ht : bm.pageIndex? t with
      | none => exact ⟨m, by simp [step, ok.releaseOnePage_out ht, specStep, ht], hs, by
          simp [specStep, ht]⟩
      | some q =>
          obtain ⟨m', h, hs', hF⟩ := ok.releaseOnePage_eq hs ht
          exact ⟨m', by simp [step, h, specStep, ht], hs', by simp [specStep, ht, hF]⟩
  | alloc =>
      rcases ok.alloc_eq hs with ⟨hF, h⟩ | ⟨q, m', hq, hmin, h, hs', hF⟩
      · have hne : ¬ (bm.freeSet m).Nonempty := by simp [hF]
        exact ⟨m, by simp [step, h, specStep, hne], hs, by simp [specStep, hne]⟩
      · have hne : (bm.freeSet m).Nonempty := ⟨q, hq⟩
        have e : sInf (bm.freeSet m) = q :=
          le_antisymm (Nat.sInf_le hq) (hmin _ (Nat.sInf_mem hne))
        exact ⟨m', by simp [step, h, specStep, hne, e], hs', by simp [specStep, hne, e, hF]⟩

/-- **A bitmap refines a set of free pages**: on storage with any contents, every sequence of
operations is defined although no byte outside the storage is mapped, returns what the set
model returns, and leaves the storage representing the model's set.  The address the model
returns for a page is never `BITMAP_RETURN_ERRO`, so an allocation reports failure exactly when
it takes nothing. -/
theorem bitmapRun_refines (bm : Bitmap) (ok : bm.Ok) (m : ByteMem) (hs : bm.Stored m)
    (ops : List Op) :
    (∃ m', bm.bitmapRun ops m = some ((bm.specRun ops (bm.freeSet m)).1, m') ∧ bm.Stored m' ∧
      bm.freeSet m' = (bm.specRun ops (bm.freeSet m)).2) ∧
    (∀ q < bm.pages, bm.pageAddr q ≠ bitmapReturnErro ∧
      (bm.pageAddr q).toNat = bm.targetAddrHeader.toNat + q * 4096) ∧
    (∀ t q, bm.pageIndex? t = some q → q < bm.pages ∧
      UInt32.ofNat (t.toNat / 4096 * 4096) = bm.pageAddr q) := by
  refine ⟨?_, fun q hq => ⟨ok.pageAddr_ne_erro hq, ok.pageAddr_toNat hq⟩, ?_⟩
  · induction ops generalizing m with
    | nil => exact ⟨m, rfl, hs, rfl⟩
    | cons op ops ih =>
        obtain ⟨m₁, h₁, hs₁, hF₁⟩ := ok.step_refines hs op
        obtain ⟨m₂, h₂, hs₂, hF₂⟩ := ih m₁ hs₁
        rw [hF₁] at h₂ hF₂
        exact ⟨m₂, by simp [bitmapRun, specRun, h₁, h₂], hs₂, by simp [specRun, hF₂]⟩
  · intro t q ht
    refine ⟨(ok.pageIndex_eq ht).1, ?_⟩
    rw [← Words.toNat_and_frame, UInt32.ofNat_toNat, ok.pageAddr_eq ht]

/-- Memory that has exactly the storage of a bitmap, every byte zero. -/
def blankMem (bm : Bitmap) : ByteMem := fun a =>
  if (a - bm.vaddrHeader).toNat < bm.length.toNat then some 0 else none

theorem stored_blankMem (bm : Bitmap) : bm.Stored bm.blankMem := by
  intro a
  have hsome : (bm.blankMem a).isSome ↔ (a - bm.vaddrHeader).toNat < bm.length.toNat := by
    simp only [blankMem]
    split_ifs with h <;> simp [h]
  rw [hsome]
  constructor
  · intro h
    refine ⟨_, h, ?_⟩
    rw [UInt32.ofNat_toNat, UInt32.add_comm, UInt32.sub_add_cancel]
  · rintro ⟨i, hi, rfl⟩
    rw [UInt32.add_comm, UInt32.add_sub_cancel, UInt32.toNat_ofNat']
    exact lt_of_le_of_lt (Nat.mod_le _ _) hi

/-- One byte of storage for the eight pages from 4 KiB on. -/
def oneByte : Bitmap := ⟨0x100, 1, 0x1000⟩

theorem bitmapRun_refines_oneByte :
    ∃ m', oneByte.bitmapRun [.initMem, .allocOnePage 0x2345, .alloc] oneByte.blankMem =
      some ((oneByte.specRun [.initMem, .allocOnePage 0x2345, .alloc]
        (oneByte.freeSet oneByte.blankMem)).1, m') ∧ oneByte.Stored m' := by
  obtain ⟨⟨m', h, hs', -⟩, -⟩ := bitmapRun_refines oneByte ⟨by decide, by decide, by decide⟩
    oneByte.blankMem oneByte.stored_blankMem [.initMem, .allocOnePage 0x2345, .alloc]
  exact ⟨m', h, hs'⟩

end Bitmap
end BHOS
