import Mathlib.Algebra.BigOperators.Fin
import Mathlib.Algebra.BigOperators.Group.Finset.Basic
import Mathlib.Tactic.Abel
import Mathlib.Tactic.IntervalCases
import Mathlib.Tactic.NormNum
import BHOS.Lib.Blocks
import BHOS.PmmLists

/-! # Free blocks

An entry `p` of the list of class `k` stands for the pages `p, …, p + 2^k - 1`.  `Sound s L` is
the well-formedness of the allocator: the lists hold, their blocks are aligned and lie below
`singel_page_first_no`, and the single pages lie from there up to `pmm_max_page_no`.  The lemmas
say what allocating and freeing do to the pages the lists cover. -/

namespace BHOS

open Blocks Linked

/-- The blocks that a list of class `k` stands for. -/
def blocksOf (k : ℕ) (l : List UInt32) : Multiset Block :=
  (l : Multiset UInt32).map fun p => ⟨p.toNat, k⟩

@[simp] theorem blocksOf_nil (k : ℕ) : blocksOf k [] = 0 := rfl

@[simp] theorem blocksOf_append (k : ℕ) (l l' : List UInt32) :
    blocksOf k (l ++ l') = blocksOf k l + blocksOf k l' := by
  simp [blocksOf, ← Multiset.coe_add]

@[simp] theorem blocksOf_singleton (k : ℕ) (p : UInt32) : blocksOf k [p] = {⟨p.toNat, k⟩} := rfl

theorem blocksOf_erase {k : ℕ} {l : List UInt32} {p : UInt32} (hp : p ∈ l) :
    blocksOf k l = {⟨p.toNat, k⟩} + blocksOf k (l.erase p) := by
  have e : (l : Multiset UInt32) = p ::ₘ (l.erase p : List UInt32) := by
    rw [← Multiset.coe_erase, Multiset.cons_erase (Multiset.mem_coe.mpr hp)]
  simp only [blocksOf]
  rw [e, Multiset.map_cons, Multiset.singleton_add]

theorem mem_blocksOf {k : ℕ} {l : List UInt32} {b : Block} :
    b ∈ blocksOf k l ↔ ∃ p ∈ l, b = ⟨p.toNat, k⟩ := by
  simp [blocksOf, eq_comm]

namespace Lists

variable {L : Lists} {k : Fin 11} {p : UInt32}

/-- All free blocks: those of the buddy lists and the pages of the single page buffer. -/
def blocks (L : Lists) : Multiset Block := (∑ k : Fin 11, blocksOf k (L.buddy k)) + blocksOf 0 L.single

/-- A sum over the buddy lists, after one of them is replaced. -/
theorem sum_set {M : Type} [AddCommMonoid M] (f : Fin 11 → List UInt32 → M) (L : Lists)
    (k : Fin 11) (l : List UInt32) :
    (∑ j, f j ((L.set k l).buddy j)) + f k (L.buddy k) = (∑ j, f j (L.buddy j)) + f k l := by
  have hrest : ∀ j ∈ (Finset.univ : Finset (Fin 11)) \ {k},
      f j ((L.set k l).buddy j) = f j (L.buddy j) := by
    intro j hj
    have hjk : j ≠ k := by simpa using hj
    rw [set_of_ne L hjk]
  rw [Finset.sum_eq_add_sum_sdiff_singleton_of_mem (Finset.mem_univ k),
    Finset.sum_eq_add_sum_sdiff_singleton_of_mem (Finset.mem_univ k) fun j => f j (L.buddy j),
    Finset.sum_congr rfl hrest, set_self]
  abel

theorem blocks_set (L : Lists) (k : Fin 11) (l : List UInt32) :
    (L.set k l).blocks + blocksOf k (L.buddy k) = L.blocks + blocksOf k l := by
  have h := L.sum_set (fun j l => blocksOf j l) k l
  simp only [blocks, set_single]
  rw [add_right_comm, h, add_right_comm]

theorem mem_blocks_of_buddy (hp : p ∈ L.buddy k) : (⟨p.toNat, k⟩ : Block) ∈ L.blocks := by
  refine Multiset.mem_add.mpr (Or.inl (Multiset.mem_sum.mpr ⟨k, Finset.mem_univ k, ?_⟩))
  exact mem_blocksOf.mpr ⟨p, hp, rfl⟩

theorem mem_blocks_of_single (hp : p ∈ L.single) : (⟨p.toNat, 0⟩ : Block) ∈ L.blocks :=
  Multiset.mem_add.mpr (Or.inr (mem_blocksOf.mpr ⟨p, hp, rfl⟩))

/-- A page that the free blocks do not cover is in none of the lists. -/
theorem fresh_of_not_covered (h : p.toNat ∉ cover L.blocks) : L.Fresh p :=
  ⟨fun _ hp => h (mem_cover.mpr ⟨_, mem_blocks_of_buddy hp, Block.base_mem_pages _⟩),
    fun hp => h (mem_cover.mpr ⟨_, mem_blocks_of_single hp, Block.base_mem_pages _⟩)⟩

theorem fresh_of_nodup {k : ℕ} (h : ((Block.mk p.toNat k).pages.val + cover L.blocks).Nodup) :
    L.Fresh p := by
  apply fresh_of_not_covered
  intro hp
  exact Multiset.disjoint_left.mp (Multiset.nodup_add.mp h).2.2 (Block.base_mem_pages _) hp

/-- Putting a block into a list adds its pages. -/
theorem cover_push (L : Lists) (k : Fin 11) (p : UInt32) :
    cover (L.set k (L.buddy k ++ [p])).blocks =
      (Block.mk p.toNat k).pages.val + cover L.blocks := by
  have h := L.blocks_set k (L.buddy k ++ [p])
  rw [blocksOf_append, ← add_assoc, add_right_comm] at h
  rw [add_right_cancel h, cover_add, blocksOf_singleton, cover_singleton, add_comm]

/-- Taking a block out of a list removes its pages. -/
theorem cover_pop {l : List UInt32} (hl : L.buddy k = l ++ [p]) :
    cover L.blocks = (Block.mk p.toNat k).pages.val + cover (L.set k l).blocks := by
  have h := L.blocks_set k l
  rw [hl, blocksOf_append, add_comm (blocksOf _ l), ← add_assoc] at h
  rw [← add_right_cancel h, cover_add, blocksOf_singleton, cover_singleton, add_comm]

theorem cover_erase (hp : p ∈ L.buddy k) :
    cover L.blocks =
      (Block.mk p.toNat k).pages.val + cover (L.set k ((L.buddy k).erase p)).blocks := by
  have h := L.blocks_set k ((L.buddy k).erase p)
  rw [blocksOf_erase hp, ← add_assoc] at h
  rw [← add_right_cancel h, cover_add, cover_singleton, add_comm]

/-- Putting a page into the single page buffer adds it. -/
theorem cover_pushSingle (L : Lists) (p : UInt32) :
    cover { L with single := L.single ++ [p] : Lists }.blocks =
      (Block.mk p.toNat 0).pages.val + cover L.blocks := by
  simp only [blocks, blocksOf_append, blocksOf_singleton, cover_add, cover_singleton]
  abel

/-- Taking the last page out of the single page buffer removes it. -/
theorem cover_popSingle {l : List UInt32} (hl : L.single = l ++ [p]) :
    cover L.blocks =
      (Block.mk p.toNat 0).pages.val + cover { L with single := l : Lists }.blocks := by
  simp only [blocks, hl, blocksOf_append, blocksOf_singleton, cover_add, cover_singleton]
  abel

end Lists

/-! ### Page numbers of buddies -/

theorem cToUint32_toNat {n : ℕ} (hn : n ≤ 10) : (cToUint32 (UInt32.ofNat n)).toNat = 2 ^ n := by
  interval_cases n <;> rfl

theorem getPartnerPageNo_toNat {p : UInt32} {c : PageC} (hc : c.toNat ≤ 10)
    (hal : p.toNat % 2 ^ c.toNat = 0) (hp : p.toNat < 2 ^ 31) :
    (getPartnerPageNo p c).toNat = buddy p.toNat c.toNat := by
  obtain ⟨n, rfl⟩ : ∃ n, c = UInt32.ofNat n := ⟨c.toNat, UInt32.ofNat_toNat.symm⟩
  have hn : n % 2 ^ 32 ≤ 10 := hc
  rw [UInt32.toNat_ofNat'] at hal ⊢
  have e : UInt32.ofNat n = UInt32.ofNat (n % 2 ^ 32) := by
    rw [← UInt32.toNat_inj, UInt32.toNat_ofNat', UInt32.toNat_ofNat', Nat.mod_mod]
  rw [e]
  generalize n % 2 ^ 32 = n at hn hal ⊢
  have hv1 := cToUint32_toNat hn
  have htest : (p - cToUint32 (UInt32.ofNat n)) % (2 * cToUint32 (UInt32.ofNat n)) = 0 ↔
      p.toNat / 2 ^ n % 2 = 1 := by
    have hv2 : 2 * 2 ^ n % 2 ^ 32 = 2 * 2 ^ n := by
      rw [Nat.mod_eq_of_lt]
      calc 2 * 2 ^ n ≤ 2 * 2 ^ 10 := Nat.mul_le_mul_left 2 (Nat.pow_le_pow_right (by decide) hn)
        _ < 2 ^ 32 := by decide
    rw [← UInt32.toNat_inj, UInt32.toNat_mod, UInt32.toNat_sub, UInt32.toNat_mul, hv1]
    simp only [UInt32.reduceToNat, hv2]
    clear hv1 hv2 e
    interval_cases n <;> omega
  simp only [getPartnerPageNo, buddy]
  by_cases h : p.toNat / 2 ^ n % 2 = 1
  · rw [if_pos (htest.mpr h), if_pos h, UInt32.toNat_sub, hv1]
    clear hv1 e htest
    interval_cases n <;> omega
  · rw [if_neg (fun h' => h (htest.mp h')), if_neg h, UInt32.toNat_add, hv1]
    clear hv1 e htest
    interval_cases n <;> omega

namespace Pmm

/-- The allocator is well formed: the pointers represent the sequences, the free blocks are
aligned and lie below `singel_page_first_no`, and the single pages lie from there on. -/
structure Sound (s : Pmm) (L : Lists) : Prop where
  holds : s.Holds L
  numbered : ∀ p : UInt32, p < s.maxPageNo → (s.pageArray p).pageNo = p
  max_le : s.maxPageNo.toNat ≤ 2 ^ 20
  singel_le : s.singelPageFirstNo.toNat ≤ s.maxPageNo.toNat
  singel_mod : s.singelPageFirstNo.toNat % 2 ^ 10 = 0
  buddy : ∀ k, ∀ p ∈ L.buddy k,
    p.toNat % 2 ^ k.val = 0 ∧ p.toNat + 2 ^ k.val ≤ s.singelPageFirstNo.toNat
  single : ∀ p ∈ L.single, s.singelPageFirstNo ≤ p ∧ p < s.maxPageNo

variable {s t : Pmm} {L : Lists} {k : Fin 11} {p : UInt32} {c : PageC}

theorem Sound.buddy_lt (h : Sound s L) (hp : p ∈ L.buddy k) : p < s.maxPageNo := by
  have h₁ := (h.buddy k p hp).2
  have h₂ := h.singel_le
  have h₃ := Nat.two_pow_pos k.val
  rw [UInt32.lt_iff_toNat_lt]
  omega

theorem Sound.pageNo_buddy (h : Sound s L) (hp : p ∈ L.buddy k) : (s.pageArray p).pageNo = p :=
  h.numbered p (h.buddy_lt hp)

theorem Sound.pageNo_single (h : Sound s L) (hp : p ∈ L.single) : (s.pageArray p).pageNo = p :=
  h.numbered p (h.single p hp).2

theorem ne_erro_of_lt_max (h : Sound s L) (hp : p < s.maxPageNo) : p ≠ erroPopBlock := by
  rintro rfl
  have h₁ := h.max_le
  have h₂ := UInt32.lt_iff_toNat_lt.mp hp
  simp only [erroPopBlock, UInt32.reduceToNat] at h₂
  omega

/-- A change of the lists keeps the range and the page numbers. -/
theorem Sound.of_frame (h : Sound s L) {L' : Lists} {l : List UInt32} (hh : t.Holds L')
    (hf : Frame l s t)
    (hbuddy : ∀ k, ∀ p ∈ L'.buddy k,
      p.toNat % 2 ^ k.val = 0 ∧ p.toNat + 2 ^ k.val ≤ s.singelPageFirstNo.toNat)
    (hsingle : ∀ p ∈ L'.single, s.singelPageFirstNo ≤ p ∧ p < s.maxPageNo) : Sound t L' := by
  refine ⟨hh, ?_, ?_, ?_, ?_, ?_, ?_⟩
  · intro p hp
    rw [hf.maxPageNo] at hp
    rw [hf.pageNo, h.numbered p hp]
  · rw [hf.maxPageNo]
    exact h.max_le
  · rw [hf.maxPageNo, hf.singelPageFirstNo]
    exact h.singel_le
  · rw [hf.singelPageFirstNo]
    exact h.singel_mod
  · rw [hf.singelPageFirstNo]
    exact hbuddy
  · rw [hf.maxPageNo, hf.singelPageFirstNo]
    exact hsingle

/-- The list of one class changed; its blocks are aligned and below the single pages. -/
theorem Sound.set (h : Sound s L) {l l' : List UInt32} (hh : t.Holds (L.set k l'))
    (hf : Frame l s t) (hl : ∀ p ∈ l', p.toNat % 2 ^ k.val = 0 ∧
      p.toNat + 2 ^ k.val ≤ s.singelPageFirstNo.toNat) : Sound t (L.set k l') := by
  refine h.of_frame hh hf ?_ h.single
  intro j p hp
  by_cases hj : j = k
  · subst hj
    rw [Lists.set_self] at hp
    exact hl p hp
  · rw [Lists.set_of_ne L hj] at hp
    exact h.buddy j p hp

/-- The single page buffer changed. -/
theorem Sound.setSingle (h : Sound s L) {l l' : List UInt32}
    (hh : t.Holds { L with single := l' }) (hf : Frame l s t)
    (hl : ∀ p ∈ l', s.singelPageFirstNo ≤ p ∧ p < s.maxPageNo) :
    Sound t { L with single := l' } :=
  h.of_frame hh hf h.buddy hl

end Pmm

end BHOS
