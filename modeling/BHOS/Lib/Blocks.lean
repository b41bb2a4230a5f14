import Mathlib.Data.Multiset.Bind
import Mathlib.Order.Interval.Multiset
import Mathlib.Order.Interval.Finset.Nat
import Mathlib.Algebra.Order.Interval.Multiset

/-! # Blocks of pages and who owns them

A block is a power-of-two range of page numbers.  A collection of blocks is a multiset; what it
owns is the multiset `cover` of the pages of its blocks, each page counted as often as it is
owned.  Handing a block from one owner to another or joining two buddies leaves the cover as it
is, so an allocator that only does this keeps every page owned exactly once, and a cover without
repetitions says that the blocks are pairwise disjoint (`cover_nodup_iff`). -/

namespace Blocks

/-- The pages `base, …, base + 2 ^ order - 1`. -/
structure Block where
  base : ℕ
  order : ℕ
deriving DecidableEq, Repr

namespace Block

/-- The pages of a block. -/
def pages (b : Block) : Finset ℕ := Finset.Ico b.base (b.base + 2 ^ b.order)

@[simp] theorem mem_pages {b : Block} {x : ℕ} :
    x ∈ b.pages ↔ b.base ≤ x ∧ x < b.base + 2 ^ b.order := Finset.mem_Ico

theorem base_mem_pages (b : Block) : b.base ∈ b.pages :=
  mem_pages.mpr ⟨le_rfl, Nat.lt_add_of_pos_right (Nat.two_pow_pos _)⟩

@[simp] theorem card_pages (b : Block) : b.pages.card = 2 ^ b.order := by
  simp [pages]

end Block

/-- The pages owned by a collection of blocks, with multiplicity. -/
def cover (bs : Multiset Block) : Multiset ℕ := bs.bind fun b => b.pages.val

variable {bs cs : Multiset Block} {b : Block} {x n : ℕ}

@[simp] theorem cover_zero : cover 0 = 0 := Multiset.zero_bind _

@[simp] theorem cover_add : cover (bs + cs) = cover bs + cover cs := Multiset.add_bind _ _ _

@[simp] theorem cover_singleton : cover {b} = b.pages.val := Multiset.singleton_bind _ _

@[simp] theorem cover_cons : cover (b ::ₘ bs) = b.pages.val + cover bs := Multiset.cons_bind _ _ _

/-- The number of pages owned. -/
theorem card_cover (bs : Multiset Block) :
    (cover bs).card = (bs.map fun b => 2 ^ b.order).sum := by
  have e : (Multiset.card ∘ fun b : Block => b.pages.val) = fun b => 2 ^ b.order :=
    funext Block.card_pages
  rw [cover, Multiset.card_bind, e]

theorem mem_cover : x ∈ cover bs ↔ ∃ b ∈ bs, x ∈ b.pages := Multiset.mem_bind

/-- Two buddies of order `k` own what the block of order `k + 1` owns. -/
theorem pages_buddies (base k : ℕ) :
    (Block.mk base k).pages.val + (Block.mk (base + 2 ^ k) k).pages.val =
      (Block.mk base (k + 1)).pages.val := by
  have e : base + 2 ^ (k + 1) = base + 2 ^ k + 2 ^ k := by omega
  simp only [Block.pages, e]
  exact Multiset.Ico_add_Ico_eq_Ico (Nat.le_add_right _ _) (Nat.le_add_right _ _)

/-- No page is owned twice exactly when the blocks are pairwise disjoint. -/
theorem cover_nodup_iff :
    (cover bs).Nodup ↔ bs.Pairwise fun b c => Disjoint b.pages c.pages := by
  rw [cover, Multiset.nodup_bind]
  have e : (Function.onFun Disjoint fun b : Block => b.pages.val) =
      fun b c => Disjoint b.pages c.pages := by
    funext b c
    exact propext Finset.disjoint_val
  rw [e]
  exact and_iff_right fun b _ => b.pages.nodup

/-- Two blocks of a collection that owns no page twice have no page in common. -/
theorem disjoint_of_nodup {c : Block} (h : (cover (b ::ₘ c ::ₘ bs)).Nodup) :
    Disjoint b.pages c.pages := by
  rw [cover_cons, cover_cons, ← add_assoc] at h
  have h' := (Multiset.nodup_add.mp (Multiset.nodup_add.mp h).1).2.2
  exact Finset.disjoint_val.mp h'

/-- Blocks that own exactly the pages below `n` lie below `n`. -/
theorem le_of_cover (h : cover bs = Multiset.range n) (hb : b ∈ bs) :
    b.base + 2 ^ b.order ≤ n := by
  have hpos := Nat.two_pow_pos b.order
  have hx : b.base + 2 ^ b.order - 1 ∈ cover bs :=
    mem_cover.mpr ⟨b, hb, Block.mem_pages.mpr ⟨by omega, by omega⟩⟩
  rw [h, Multiset.mem_range] at hx
  omega

/-! ### Buddies -/

/-- The base of the buddy of the block of order `k` at `p`. -/
def buddy (p k : ℕ) : ℕ := if p / 2 ^ k % 2 = 1 then p - 2 ^ k else p + 2 ^ k

/-- An aligned block is the lower or the upper half of the aligned block of the next order. -/
theorem buddy_cases {p k : ℕ} (hal : p % 2 ^ k = 0) :
    (p % 2 ^ (k + 1) = 0 ∧ buddy p k = p + 2 ^ k) ∨
      (buddy p k % 2 ^ (k + 1) = 0 ∧ p = buddy p k + 2 ^ k) := by
  have hmod : p % 2 ^ (k + 1) = 2 ^ k * (p / 2 ^ k % 2) := by
    rw [pow_succ, Nat.mod_mul, hal, zero_add]
  rcases Nat.mod_two_eq_zero_or_one (p / 2 ^ k) with h | h
  · exact Or.inl ⟨by rw [hmod, h, Nat.mul_zero], by simp [buddy, h]⟩
  · have hge : 2 ^ k ≤ p := by
      by_contra hlt
      rw [Nat.div_eq_of_lt (by omega)] at h
      cases h
    have hp : buddy p k = p - 2 ^ k := by simp [buddy, h]
    have hdm := Nat.div_add_mod p (2 ^ (k + 1))
    rw [hmod, h, mul_one] at hdm
    refine Or.inr ⟨?_, by omega⟩
    rw [hp, ← hdm, Nat.add_sub_cancel, Nat.mul_mod_right]

/-- The buddy of the buddy is the block itself. -/
theorem buddy_buddy {p k : ℕ} (hal : p % 2 ^ k = 0) : buddy (buddy p k) k = p := by
  have hpos := Nat.two_pow_pos k
  have hupper : ∀ x, x % 2 ^ (k + 1) = 0 → buddy x k = x + 2 ^ k ∧ buddy (x + 2 ^ k) k = x := by
    intro x hx
    obtain ⟨m, rfl⟩ := Nat.dvd_of_mod_eq_zero hx
    have e₁ : 2 ^ (k + 1) * m / 2 ^ k = 2 * m := by
      rw [pow_succ, mul_assoc, Nat.mul_div_cancel_left _ hpos]
    have e₂ : (2 ^ (k + 1) * m + 2 ^ k) / 2 ^ k = 2 * m + 1 := by
      rw [Nat.add_div_right _ hpos, e₁]
    unfold buddy
    rw [e₁, e₂]
    exact ⟨if_neg (by omega), (if_pos (by omega)).trans (Nat.add_sub_cancel _ _)⟩
  rcases buddy_cases hal with ⟨h, -⟩ | ⟨h, e⟩
  · rw [(hupper p h).1, (hupper p h).2]
  · rw [(hupper _ h).1, ← e]

theorem buddy_ne_self {p k : ℕ} (hal : p % 2 ^ k = 0) : buddy p k ≠ p := by
  have hpos := Nat.two_pow_pos k
  rcases buddy_cases hal with ⟨-, e⟩ | ⟨-, e⟩ <;> omega

/-- A block and its buddy own what the block of the next order at the lower of the two owns. -/
theorem pages_add_buddy {p k : ℕ} (hal : p % 2 ^ k = 0) :
    (Block.mk p k).pages.val + (Block.mk (buddy p k) k).pages.val =
      (Block.mk (min (buddy p k) p) (k + 1)).pages.val := by
  rcases buddy_cases hal with ⟨-, h⟩ | ⟨-, h⟩
  · rw [h, min_eq_right (Nat.le_add_right _ _), pages_buddies]
  · generalize buddy p k = q at h
    subst h
    rw [min_eq_left (Nat.le_add_right _ _), add_comm, pages_buddies]

/-- The lower of a block and its buddy is the block rounded down to the next order. -/
theorem min_buddy {p k : ℕ} (hal : p % 2 ^ k = 0) :
    min (buddy p k) p = p / 2 ^ (k + 1) * 2 ^ (k + 1) := by
  have hdm := Nat.div_add_mod' p (2 ^ (k + 1))
  have hpos := Nat.two_pow_pos k
  have hlt : 2 ^ k < 2 ^ (k + 1) := Nat.pow_lt_pow_right (by decide) (Nat.lt_succ_self k)
  rcases buddy_cases hal with ⟨h₁, h₂⟩ | ⟨h₁, h₂⟩
  · rw [h₂]
    omega
  · have hp : p % 2 ^ (k + 1) = 2 ^ k := by
      rw [h₂, Nat.add_mod, h₁, zero_add, Nat.mod_mod, Nat.mod_eq_of_lt hlt]
    omega

end Blocks
