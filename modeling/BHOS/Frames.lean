import Mathlib.Data.Set.Card
import BHOS.PmmOwnership
import BHOS.KernelMapping

/-! # Conservation of physical frames

The kernel's virtual memory manager takes its frames from the page manager.  The number of free
frames (`freeFrames`, buddy lists weighted by block size plus the single page buffer) and the
number of kernel pages held by the calls (`heldPages`) should add up to a constant.

As long as no page of the kernel image is remapped (`SparesImage`) they do in exactly the runs
without a release and without an allocation for which the page manager splits a block (`Gentle`):
a release gives back the page of the pool but not the frame, and a split puts the other halves
into lists for blocks of another size. -/

namespace BHOS

open Linked Transition

/-! ### Counting free frames -/

namespace Lists

variable {L : Lists} {k : Fin 11} {l : List UInt32} {p : UInt32}

/-- The number of free pages. -/
def frames (L : Lists) : ℕ := ∑ k : Fin 11, 2 ^ k.val * (L.buddy k).length + L.single.length

theorem frames_set (L : Lists) (k : Fin 11) (l : List UInt32) :
    (L.set k l).frames + 2 ^ k.val * (L.buddy k).length = L.frames + 2 ^ k.val * l.length := by
  have h := L.sum_set (fun j l => 2 ^ j.val * l.length) k l
  simp only [frames, set_single]
  omega

theorem frames_push (L : Lists) (k : Fin 11) (p : UInt32) :
    (L.set k (L.buddy k ++ [p])).frames = L.frames + 2 ^ k.val := by
  have h := L.frames_set k (L.buddy k ++ [p])
  rw [List.length_append, List.length_singleton, mul_add, mul_one] at h
  omega

theorem frames_pop (hl : L.buddy k = l ++ [p]) : (L.set k l).frames + 2 ^ k.val = L.frames := by
  have h := L.frames_set k l
  rw [hl, List.length_append, List.length_singleton, mul_add, mul_one] at h
  omega

theorem frames_popSingle (hl : L.single = l ++ [p]) :
    frames { L with single := l } + 1 = L.frames := by
  simp only [frames, hl, List.length_append, List.length_singleton]
  omega

end Lists

namespace Pmm

variable {s t : Pmm} {L : Lists} {k : Fin 11} {p : UInt32} {c : PageC} {d : PmAlloc}
  {l : List UInt32}

/-- The number of free pages that the page manager holds. -/
def freeFrames (s : Pmm) : ℕ := s.lists.frames

theorem Holds.freeFrames_eq (h : s.Holds L) : s.freeFrames = L.frames := by
  rw [freeFrames, h.lists_eq]

/-- A request for one page splits no block. -/
def OneWhole (s : Pmm) : Prop := s.singleLink ≠ none ∨ s.ServedWhole 1

instance (s : Pmm) : Decidable s.OneWhole := inferInstanceAs (Decidable (_ ∨ _))

theorem originPh_one : originPh 1 = 0 := by decide

/-- A page served whole is one free page less. -/
theorem Sound.allocOnePage_whole (h : Sound s L) (hw : s.OneWhole) :
    ∃ d t L', s.allocOnePage = some (d, t) ∧ Sound t L' ∧
      Blocks.cover L'.blocks ≤ Blocks.cover L.blocks ∧
      (d.state = 0 ∧ t = s ∨ d.state ≠ 0 ∧ t.freeFrames + 1 = s.freeFrames) := by
  by_cases hsl : s.singleLink = none
  · rw [allocOnePage_none hsl]
    rcases h.allocPages_eq (hw.resolve_left fun hne => hne hsl) with
      he | ⟨k, l, p, t, hc, hl, he, hs, -⟩
    · exact ⟨failed, s, L, he, h, le_rfl, Or.inl ⟨rfl, rfl⟩⟩
    · have hk : k.val = 0 := by
        rw [← listOf_eq hc, originPh_one]
        rfl
      have hpop := Lists.frames_pop hl
      rw [hk, pow_zero] at hpop
      refine ⟨_, t, _, he, hs, ?_, Or.inr ⟨by simp, ?_⟩⟩
      · rw [Lists.cover_pop hl]
        exact Multiset.le_add_left _ _
      · rw [hs.holds.freeFrames_eq, h.holds.freeFrames_eq, hpop]
  · obtain ⟨l, p, t, hl, he, hs, -⟩ := h.allocOnePage_eq hsl
    refine ⟨_, t, _, he, hs, ?_, Or.inr ⟨by simp, ?_⟩⟩
    · rw [Lists.cover_popSingle hl]
      exact Multiset.le_add_left _ _
    · rw [hs.holds.freeFrames_eq, h.holds.freeFrames_eq, Lists.frames_popSingle hl]

/-! ### A split miscounts -/

/-- The pages that a split puts into lists all go into the list of class `pop_page_no-1`. -/
theorem Holds.allocHelper_eq (h : s.Holds L) {n : ℕ} (hc : c.toNat ≤ 10) (hn : c.toNat < n)
    (hp : p.toNat + 2 ^ c.toNat ≤ 2 ^ 32)
    (hfresh : ∀ x : UInt32, p.toNat < x.toNat → x.toNat < p.toNat + 2 ^ c.toNat → L.Fresh x)
    (hl : listOf (p - 1) = some k) :
    ∃ t L', allocHelper 0 n c p s = some (p, t) ∧ t.Holds L' ∧
      L'.frames = L.frames + c.toNat * 2 ^ k.val := by
  induction n generalizing s L c with
  | zero => omega
  | succ n ih =>
      rw [allocHelper]
      by_cases h0 : c = 0
      · subst h0
        refine ⟨s, L, if_neg (not_not.mpr rfl), h, ?_⟩
        rw [UInt32.toNat_zero, zero_mul, add_zero]
      rw [if_pos h0]
      have hc0 : c.toNat ≠ 0 := fun e => h0 (UInt32.toNat_inj.mp e)
      have hsub : (c - 1).toNat = c.toNat - 1 := by
        simp only [UInt32.toNat_sub, UInt32.reduceToNat]
        omega
      have hpow : 2 ^ c.toNat = 2 * 2 ^ (c - 1).toNat := by
        rw [hsub, ← pow_succ', Nat.sub_add_cancel (by omega)]
      have hhalf : (cToUint32 c / 2).toNat = 2 ^ (c - 1).toNat := by
        have hval := cToUint32_toNat hc
        rw [UInt32.ofNat_toNat, hpow] at hval
        rw [UInt32.toNat_div, hval]
        exact Nat.mul_div_cancel_left _ (by decide)
      have hpos := Nat.two_pow_pos (c - 1).toNat
      have hx : (p + cToUint32 c / 2).toNat = p.toNat + 2 ^ (c - 1).toNat := by
        rw [UInt32.toNat_add, hhalf, Nat.mod_eq_of_lt (by omega)]
      obtain ⟨u, hu, hh, -⟩ := h.appendBlock_eq
        (hfresh (p + cToUint32 c / 2) (by omega) (by omega)) hl
      have hpush := L.frames_push k (p + cToUint32 c / 2)
      have hfresh' : ∀ x : UInt32, p.toNat < x.toNat → x.toNat < p.toNat + 2 ^ (c - 1).toNat →
          (L.set k (L.buddy k ++ [p + cToUint32 c / 2])).Fresh x := by
        intro x hlo hhi
        have hxf := hfresh x hlo (by omega)
        refine ⟨?_, hxf.2⟩
        intro j hj
        by_cases hjk : j = k
        · subst hjk
          rw [Lists.set_self] at hj
          rcases List.mem_append.mp hj with hj | hj
          · exact hxf.1 j hj
          · rw [List.mem_singleton.mp hj] at hhi
            omega
        · rw [Lists.set_of_ne L hjk] at hj
          exact hxf.1 j hj
      obtain ⟨t, L', ht, hh', hfr⟩ := ih hh (by omega) (by omega) (by omega) hfresh'
      refine ⟨t, L', ?_, hh', ?_⟩
      · simp only [hu, Option.bind_eq_bind, Option.bind_some, ht]
      · have hmul : c.toNat * 2 ^ k.val = 2 ^ k.val + (c - 1).toNat * 2 ^ k.val := by
          rw [hsub, Nat.sub_mul, one_mul, Nat.add_sub_cancel']
          exact Nat.le_mul_of_pos_left _ (by omega)
        rw [hfr, hpush, hmul, add_assoc]

/-- Without a case for the class `pop_page_no-1` a split has no defined result. -/
theorem allocHelper_none {n : ℕ} (hc : c ≠ 0) (hl : listOf (p - 1) = none) :
    allocHelper 0 n c p s = none := by
  cases n with
  | zero => rfl
  | succ n =>
      unfold allocHelper appendBlock
      simp only [if_pos hc, hl, Option.bind_eq_bind, Option.bind_none]

/-- Without a page in the buffer the last block of the first list that is not empty is split; that
has a defined result exactly when there is a list of class `pop_page_no-1`. -/
theorem Sound.allocOnePage_first (h : Sound s L) (hcov : (Blocks.cover L.blocks).Nodup)
    (hsl : s.singleLink = none) (hk : FirstFrom L.buddy 0 k) (hl : L.buddy k = l ++ [p])
    (hk0 : k.val ≠ 0) :
    (listOf (p - 1) = none → s.allocOnePage = none) ∧
      ∀ j, listOf (p - 1) = some j → ∃ d t L', s.allocOnePage = some (d, t) ∧ d.state = 1 ∧
        t.Holds L' ∧ L'.frames + 2 ^ k.val = L.frames + k.val * 2 ^ j.val := by
  have hklt := k.isLt
  have hmem : p ∈ L.buddy k := by simp [hl]
  obtain ⟨hal, hle⟩ := h.buddy k p hmem
  have hmax := h.max_le
  have hsg := h.singel_le
  obtain ⟨c, u, hu, hc, hs, -⟩ := popFrom_nonempty (n := 12) (c := 0) h hl (Nat.zero_le _)
    (by omega) fun j _ hj => (h.holds.buddy j).eq_nil_iff.mp (hk.before j (Nat.zero_le _) hj)
  have hcv := listOf_eq hc
  have hc0 : c ≠ 0 := by
    rintro rfl
    exact hk0 hcv.symm
  have hpne := ne_erro_of_lt_max h (h.buddy_lt hmem)
  have hbound : ¬ ((1 : UInt32) > 1024 ∨ (1 : UInt32) = 0) := by decide
  have he : s.allocOnePage = (allocHelper 0 12 c p u).map
      fun r => (⟨r.2.pageNoToAddr r.1, 0, 1⟩, r.2) := by
    rw [allocOnePage_none hsl, allocPages, if_neg hbound, originPh_one, hu]
    simp only [Option.bind_eq_bind, Option.bind_some, if_neg hpne]
    cases allocHelper 0 12 c p u <;> rfl
  -- the other pages of the block are in no list
  rw [Lists.cover_pop hl] at hcov
  have hapart := (Multiset.nodup_add.mp hcov).2.2
  have hfresh : ∀ x : UInt32, p.toNat < x.toNat → x.toNat < p.toNat + 2 ^ c.toNat →
      (L.set k l).Fresh x := by
    intro x hlo hhi
    refine Lists.fresh_of_not_covered (Multiset.disjoint_left.mp hapart ?_)
    apply Blocks.Block.mem_pages.mpr
    rw [hcv] at hhi
    simp only
    omega
  constructor
  · intro hnone
    rw [he, allocHelper_none hc0 hnone]
    rfl
  · intro j hj
    obtain ⟨t, L', ht, hh, hfr⟩ := hs.holds.allocHelper_eq (c := c) (n := 12) (by omega) (by omega)
      (by rw [hcv]; omega) hfresh hj
    have hpop := Lists.frames_pop hl
    refine ⟨_, t, L', by rw [he, ht, Option.map_some], rfl, hh, ?_⟩
    rw [hcv] at hfr
    omega

/-- When no page is served whole, some list of larger blocks is the first that is not empty. -/
theorem Sound.exists_first (h : Sound s L) (hw : ¬ s.OneWhole) :
    s.singleLink = none ∧ ∃ k l p, FirstFrom L.buddy 0 k ∧ L.buddy k = l ++ [p] ∧ k.val ≠ 0 := by
  rw [OneWhole, not_or, not_not] at hw
  obtain ⟨hsl, hw⟩ := hw
  have hl0 : listOf (originPh 1) = some 0 := by decide
  obtain ⟨hz, j, hj⟩ : s.multiLink 0 = none ∧ ∃ j, s.multiLink j ≠ none := by
    simp only [ServedWhole, hl0, Option.some.injEq, forall_eq', not_or, not_not, not_forall] at hw
    obtain ⟨-, -, hz, j, -, hj⟩ := hw
    exact ⟨hz, j, hj⟩
  obtain ⟨k, hk⟩ := exists_firstFrom (L := L.buddy) (m := 0)
    fun hall => hj ((h.holds.buddy j).eq_nil_iff.mp (hall j (Nat.zero_le _)))
  rcases (L.buddy k).eq_nil_or_concat' with hnil | ⟨l, p, hl⟩
  · exact absurd hnil hk.nonempty
  · refine ⟨hsl, k, l, p, hk, hl, ?_⟩
    intro e
    obtain rfl : k = 0 := Fin.ext e
    exact hk.nonempty ((h.holds.buddy 0).eq_nil_iff.mpr hz)

/-- After a split the number of free pages is wrong. -/
theorem Sound.allocOnePage_split (h : Sound s L) (hcov : (Blocks.cover L.blocks).Nodup)
    (hw : ¬ s.OneWhole) (he : s.allocOnePage = some (d, t)) :
    d.state ≠ 0 ∧ t.freeFrames + 1 ≠ s.freeFrames := by
  obtain ⟨hsl, k, l, p, hk, hl, hk0⟩ := h.exists_first hw
  obtain ⟨hnone, hsome⟩ := h.allocOnePage_first hcov hsl hk hl hk0
  obtain ⟨j, hj⟩ : ∃ j, listOf (p - 1) = some j := by
    by_contra hno
    rw [hnone (Option.eq_none_iff_forall_not_mem.mpr fun j hj => hno ⟨j, hj⟩)] at he
    cases he
  obtain ⟨d', t', L', he', hst, hh, hfr⟩ := hsome j hj
  obtain ⟨rfl, rfl⟩ := Prod.mk.inj (Option.some.inj (he'.symm.trans he))
  have hj1 := listOf_eq hj
  have hal := (h.buddy k p (by simp [hl])).1
  refine ⟨by rw [hst]; decide, ?_⟩
  rw [hh.freeFrames_eq, h.holds.freeFrames_eq]
  -- the class is odd, the block is not: the two powers of two do not differ by one
  obtain ⟨i, hi⟩ : ∃ i, k.val = i + 1 := ⟨k.val - 1, by omega⟩
  have hp0 : 2 ∣ p.toNat := (dvd_pow_self 2 hk0).trans (Nat.dvd_of_mod_eq_zero hal)
  have hjv : j.val ≠ 0 := by
    have hlt := p.toNat_lt
    intro e
    rw [e] at hj1
    simp only [UInt32.toNat_sub, UInt32.reduceToNat] at hj1
    omega
  obtain ⟨i', hi'⟩ : ∃ i, j.val = i + 1 := ⟨j.val - 1, by omega⟩
  have e₁ : 2 ^ k.val = 2 * 2 ^ i := by rw [hi, pow_succ']
  have e₂ : k.val * 2 ^ j.val = 2 * (k.val * 2 ^ i') := by rw [hi', pow_succ', Nat.mul_left_comm]
  rw [e₂, e₁] at hfr
  omega

end Pmm

namespace Vmm

variable {s t : Vmm Pmm} {used q : ℕ} {dir : UInt32} {op : KernOp}

/-! ### The frames of the kernel's pages -/

/-- The kernel pages behind the kernel image that are allocated: those that the calls have
returned and not yet released. -/
def heldPages (used : ℕ) (s : Vmm Pmm) : Set ℕ := {q | used ≤ q ∧ s.Allocated q}

/-- The free frames and the held pages. -/
noncomputable def totalFrames (used : ℕ) (s : Vmm Pmm) : ℕ :=
  s.pmm.freeFrames + (s.heldPages used).ncard

/-- Only pages that the calls have returned are released. -/
def ReleasesHeld (used : ℕ) : KernOp → Vmm Pmm → Prop
  | .releaseOnePage target, s => ∃ q ∈ s.heldPages used, kernPage? target = some q
  | _, _ => True

/-- The call keeps the sum of free frames and held pages. -/
def Conserves (used : ℕ) (op : KernOp) (s : Vmm Pmm) : Prop :=
  ∃ t, step Pmm.allocOnePage op s = some t ∧ t.totalFrames used = s.totalFrames used

/-- The call is not a release, and when it takes a page the page manager splits no block. -/
def Gentle (op : KernOp) (s : Vmm Pmm) : Prop :=
  (∀ target, op ≠ .releaseOnePage target) ∧ ∀ q, Takes op s q → s.pmm.OneWhole

/-- The kernel's page tables and a well-formed page manager; the free pages of the pool lie
behind the kernel image. -/
structure Stocked (used : ℕ) (dir : UInt32) (s : Vmm Pmm) : Prop where
  ready : s.Ready dir
  sound : ∃ L, s.pmm.Sound L ∧ (Blocks.cover L.blocks).Nodup
  behind : ∀ q ∈ s.freePages, used ≤ q

theorem finite_heldPages (used : ℕ) (s : Vmm Pmm) : (s.heldPages used).Finite :=
  (Set.finite_lt_nat windowPage).subset fun _ hq => hq.2.1

/-- One held page more. -/
theorem ncard_taken (hF : t.freePages = s.freePages \ {q}) (hq : q ∈ s.freePages)
    (hw : q < windowPage) (hu : used ≤ q) :
    (t.heldPages used).ncard = (s.heldPages used).ncard + 1 := by
  have e : t.heldPages used = insert q (s.heldPages used) := by
    ext r
    simp only [heldPages, Allocated, hF, Set.mem_ofPred_eq, Set.mem_sdiff, Set.mem_singleton_iff,
      Set.mem_insert_iff]
    by_cases hr : r = q
    · subst hr
      tauto
    · tauto
  rw [e, Set.ncard_insert_of_notMem (fun h => h.2.2 hq) (finite_heldPages used s)]

/-- One held page less. -/
theorem ncard_released (hF : t.freePages = insert q s.freePages) (hq : q ∈ s.heldPages used) :
    (t.heldPages used).ncard + 1 = (s.heldPages used).ncard := by
  have e : t.heldPages used = s.heldPages used \ {q} := by
    ext r
    simp only [heldPages, Allocated, hF, Set.mem_ofPred_eq, Set.mem_sdiff, Set.mem_singleton_iff,
      Set.mem_insert_iff]
    tauto
  rw [e, Set.ncard_sdiff_singleton_add_one hq (finite_heldPages used s)]

theorem heldPages_congr (hF : t.freePages = s.freePages) : t.heldPages used = s.heldPages used := by
  simp only [heldPages, Allocated, hF]

/-- A call without release and without split conserves the frames. -/
theorem Stocked.step_of_gentle (h : s.Stocked used dir) (hg : Gentle op s) :
    ∃ t, step Pmm.allocOnePage op s = some t ∧ t.Stocked used dir ∧
      t.totalFrames used = s.totalFrames used := by
  obtain ⟨hop, hwhole⟩ := hg
  obtain ⟨L, hL, hnd⟩ := h.sound
  by_cases htakes : ∃ q, Takes op s q
  · obtain ⟨q, hq⟩ := htakes
    obtain ⟨d, p', L', hd, hL', hle, hcount⟩ := hL.allocOnePage_whole (hwhole q hq)
    have hsound : ∃ L, p'.Sound L ∧ (Blocks.cover L.blocks).Nodup :=
      ⟨L', hL', Multiset.nodup_of_le hle hnd⟩
    obtain ⟨t, ht, hr, heff⟩ := h.ready.takes_effect hq hd
    refine ⟨t, ht, ?_⟩
    cases heff with
    | idle _ hno => exact absurd hq (hno q)
    | unmapped target _ hkind => exact absurd hkind (hop target)
    | refused _ d' _ hd' hst hF =>
        obtain ⟨rfl, rfl⟩ := Prod.mk.inj (Option.some.inj (hd.symm.trans hd'))
        obtain ⟨-, hp⟩ := hcount.resolve_right fun hc => hc.1 hst
        exact ⟨⟨hr, hsound, fun r hr => h.behind r (hF ▸ hr)⟩, by
          rw [totalFrames, totalFrames, heldPages_congr hF, hp]⟩
    | mapped r d' htakes hd' hst hF =>
        obtain ⟨rfl, rfl⟩ := Prod.mk.inj (Option.some.inj (hd.symm.trans hd'))
        have hcount := (hcount.resolve_left fun hc => hst hc.1).2
        have hfree := htakes.free
        have hheld := ncard_taken hF hfree (h.ready.window r hfree) (h.behind r hfree)
        refine ⟨⟨hr, hsound, fun i hi => ?_⟩, by rw [totalFrames, totalFrames]; omega⟩
        rw [hF] at hi
        exact h.behind i hi.1
  · exact ⟨s, h.ready.step_idle hop fun q hq => htakes ⟨q, hq⟩, h, rfl⟩

/-- A release loses a frame. -/
theorem Stocked.step_release (h : s.Stocked used dir) {target : UInt32}
    (hq : q ∈ s.heldPages used) (hp : kernPage? target = some q) :
    ∃ t, step Pmm.allocOnePage (.releaseOnePage target) s = some t ∧
      t.totalFrames used + 1 = s.totalFrames used := by
  obtain ⟨t, ht, -, heff⟩ := h.ready.release_effect Pmm.allocOnePage hp hq.2.1
  refine ⟨t, ht, ?_⟩
  cases heff with
  | idle hkind => exact absurd rfl (hkind target)
  | refused _ _ htakes => exact htakes.elim
  | mapped _ _ htakes => exact htakes.elim
  | unmapped target' r hkind hp' hF _ hpmm =>
      cases hkind
      obtain rfl := Option.some.inj (hp.symm.trans hp')
      rw [totalFrames, totalFrames, ← ncard_released hF hq, hpmm, add_assoc]

/-- A call that conserves the frames is neither a release nor a split. -/
theorem Stocked.gentle_of_conserves (h : s.Stocked used dir) (ha : ReleasesHeld used op s)
    (hc : Conserves used op s) : Gentle op s := by
  obtain ⟨t, ht, htotal⟩ := hc
  constructor
  · rintro target rfl
    obtain ⟨q, hq, hp⟩ := ha
    obtain ⟨u, hu, hlost⟩ := h.step_release hq hp
    obtain rfl := Option.some.inj (ht.symm.trans hu)
    omega
  · intro q hq
    by_contra hsplit
    obtain ⟨L, hL, hnd⟩ := h.sound
    obtain ⟨a, m, -, -, he⟩ := h.ready.step_takes Pmm.allocOnePage hq
    obtain ⟨⟨d, p'⟩, hd, -⟩ := Option.map_eq_some_iff.mp (he.symm.trans ht)
    obtain ⟨hst, hne⟩ := hL.allocOnePage_split hnd hsplit hd
    obtain ⟨u, hu, -, heff⟩ := h.ready.takes_effect hq hd
    obtain rfl := Option.some.inj (ht.symm.trans hu)
    cases heff with
    | idle _ hno => exact hno q hq
    | unmapped target _ hkind =>
        subst hkind
        exact hq
    | refused _ d' _ hd' hst' =>
        obtain ⟨rfl, -⟩ := Prod.mk.inj (Option.some.inj (hd.symm.trans hd'))
        exact hst hst'
    | mapped r d' htakes hd' _ hF =>
        obtain ⟨-, rfl⟩ := Prod.mk.inj (Option.some.inj (hd.symm.trans hd'))
        have hfree := htakes.free
        have hheld := ncard_taken hF hfree (h.ready.window r hfree) (h.behind r hfree)
        rw [totalFrames, totalFrames] at htotal
        omega

/-- The kernel after `pmm_page_init` and `vmm_kern_init`. -/
theorem stocked_of_boot (dir kernEnd kb : UInt32) (m : PhysMem) (pool : Bitmap)
    {poolMem : ByteMem} (p₀ : Pmm) (hal : dir.toNat % 4096 = 0)
    (hroom : dir.toNat + 4096 * 257 ≤ 2 ^ 32)
    (hused : (getKernUsedPageCount kernEnd).toNat ≤ 1024) (hs : (kernPool kb).Stored poolMem)
    (hsl : p₀.singleLink = none) (hge : 2048 ≤ p₀.maxPageNo.toNat)
    (hmax : p₀.maxPageNo.toNat ≤ 2 ^ 20) :
    ∃ p s, p₀.pageInit = some p ∧ vmmKernInit kernEnd kb (booted dir m pool poolMem p) = some s ∧
      s.Stocked (getKernUsedPageCount kernEnd).toNat dir ∧ s.pmm = p ∧
      s.freePages = {q | (getKernUsedPageCount kernEnd).toNat ≤ q ∧ q < windowPage} := by
  obtain ⟨p, L, hp, hL, -, hcov⟩ := Pmm.pageInit_sound p₀ hsl hge hmax
  obtain ⟨s, h₀, hmap, hpmm, hF, -⟩ :=
    mapping_of_boot m pool p hal hroom hused hs
  refine ⟨p, s, hp, h₀, ⟨hmap.ready, ⟨L, hpmm ▸ hL, ?_⟩, ?_⟩, hpmm, hF⟩
  · rw [hcov]
    exact Multiset.nodup_range _
  · intro q hq
    rw [hF] at hq
    exact hq.1

/-- A call without release that spares the kernel image leaves its pages on their frames. -/
theorem Stocked.frameOf_image (h : s.Stocked used dir) (hg : Gentle op s)
    (hsp : SparesImage Pmm.allocOnePage used op s) (hu : used ≤ 1024)
    (ht : step Pmm.allocOnePage op s = some t) (hq : q < used) : t.frameOf q = s.frameOf q := by
  have ha : Allowed op s := by
    cases op with
    | releaseOnePage target => exact absurd rfl (hg.1 target)
    | alloc => trivial
    | allocOnePage target => trivial
  obtain ⟨hr, heff⟩ := h.ready.effect_of_step ha ht
  have hm := h.ready.mem_of_spares heff hsp
    (fun target _ hkind => absurd hkind (hg.1 target)) hq hu
  have hw : q < windowPage := by
    unfold windowPage
    omega
  rw [hr.frameOf_eq hw, h.ready.frameOf_eq hw, hm]

/-- **Physical frames are conserved**, among the runs that map no page a multiple of 64 MiB from
the kernel image, exactly in those without a release and without an allocation for which the page
manager splits a block.  The pages of the image, and with them the lists and the pool, then stay
on their frames. -/
theorem conserved_iff_gentle (dir kernEnd kb : UInt32) (m : PhysMem) (pool : Bitmap)
    (poolMem : ByteMem) (p₀ : Pmm) (hal : dir.toNat % 4096 = 0)
    (hroom : dir.toNat + 4096 * 257 ≤ 2 ^ 32)
    (hused : (getKernUsedPageCount kernEnd).toNat ≤ 1024) (hs : (kernPool kb).Stored poolMem)
    (hsl : p₀.singleLink = none) (hge : 2048 ≤ p₀.maxPageNo.toNat)
    (hmax : p₀.maxPageNo.toNat ≤ 62784) :
    ∃ p s, p₀.pageInit = some p ∧ vmmKernInit kernEnd kb (booted dir m pool poolMem p) = some s ∧
      ∀ ops, Along (step Pmm.allocOnePage)
          (ReleasesHeld (getKernUsedPageCount kernEnd).toNat) ops s →
        Along (step Pmm.allocOnePage)
          (SparesImage Pmm.allocOnePage (getKernUsedPageCount kernEnd).toNat) ops s →
        (Along (step Pmm.allocOnePage) (Conserves (getKernUsedPageCount kernEnd).toNat) ops s ↔
          Along (step Pmm.allocOnePage) Gentle ops s) ∧
        (Along (step Pmm.allocOnePage) Gentle ops s →
          ∃ t, run (step Pmm.allocOnePage) ops s = some t ∧
            t.totalFrames (getKernUsedPageCount kernEnd).toNat =
              s.totalFrames (getKernUsedPageCount kernEnd).toNat ∧
            ∀ q < (getKernUsedPageCount kernEnd).toNat, t.frameOf q = s.frameOf q) := by
  obtain ⟨p, s, hp, h₀, hst, -⟩ :=
    stocked_of_boot dir kernEnd kb m pool p₀ hal hroom hused hs hsl hge (by omega)
  generalize (getKernUsedPageCount kernEnd).toNat = used at hst hused ⊢
  refine ⟨p, s, hp, h₀, fun ops ha hsp => ⟨along_iff ?_
    (fun op s hs hq => ⟨hs.gentle_of_conserves hq, ?_⟩) hst ha, ?_⟩⟩
  · intro op s t hs _ hg ht
    obtain ⟨t', ht', hst', -⟩ := hs.step_of_gentle hg
    exact Option.some.inj (ht.symm.trans ht') ▸ hst'
  · intro hg
    obtain ⟨t, ht, -, htotal⟩ := hs.step_of_gentle hg
    exact ⟨t, ht, htotal⟩
  · intro hg
    have hI : ∀ op c t, (c.Stocked used dir ∧ c.totalFrames used = s.totalFrames used ∧
          ∀ q < used, c.frameOf q = s.frameOf q) →
        (Gentle op c ∧ SparesImage Pmm.allocOnePage used op c) →
        step Pmm.allocOnePage op c = some t →
        t.Stocked used dir ∧ t.totalFrames used = s.totalFrames used ∧
          ∀ q < used, t.frameOf q = s.frameOf q := by
      rintro op c t ⟨hc, htot, himg⟩ ⟨hg, hsp⟩ ht
      obtain ⟨t', ht', hst', htot'⟩ := hc.step_of_gentle hg
      obtain rfl := Option.some.inj (ht.symm.trans ht')
      refine ⟨hst', htot'.trans htot, fun q hq => ?_⟩
      rw [hc.frameOf_image hg hsp hused ht hq, himg q hq]
    have h₀ : s.Stocked used dir ∧ s.totalFrames used = s.totalFrames used ∧
        ∀ q < used, s.frameOf q = s.frameOf q := ⟨hst, rfl, fun _ _ => rfl⟩
    obtain ⟨t, ht⟩ := run_isSome hI (fun op c hc hq => by
      obtain ⟨t, ht, -⟩ := hc.1.step_of_gentle hq.1
      exact ⟨t, ht⟩) h₀ (hg.and hsp)
    exact ⟨t, ht, (invariant hI h₀ (hg.and hsp) ht).2⟩

theorem smallPmm_serves {p : Pmm} (h : Client.smallPmm.pageInit = some p) :
    p.OneWhole ∧ ∀ d p', p.allocOnePage = some (d, p') → d.state ≠ 0 := by
  have hall : (Client.smallPmm.pageInit.all fun p => decide p.OneWhole &&
      p.allocOnePage.all fun r => decide (r.1.state ≠ 0)) = true := by
    decide +kernel
  rw [h, Option.all_some, Bool.and_eq_true, decide_eq_true_eq] at hall
  refine ⟨hall.1, ?_⟩
  intro d p' he
  have hstate := hall.2
  rw [he] at hstate
  exact of_decide_eq_true hstate

theorem conserved_iff_gentle_sample : ∃ p s t, Client.smallPmm.pageInit = some p ∧
    vmmKernInit 0x300000 0xC0250000
      (booted 0x101000 (fun _ => 0) ⟨0, 0, 0⟩ (kernPool 0xC0250000).blankMem p) = some s ∧
    run (step Pmm.allocOnePage) [.alloc] s = some t ∧
    t.totalFrames 768 = s.totalFrames 768 ∧ ∀ q < 768, t.frameOf q = s.frameOf q := by
  obtain ⟨p, s, hp, h₀, hrun⟩ := conserved_iff_gentle 0x101000 0x300000 0xC0250000 (fun _ => 0)
    ⟨0, 0, 0⟩ (kernPool 0xC0250000).blankMem Client.smallPmm (by decide) (by decide) (by decide)
    (kernPool 0xC0250000).stored_blankMem rfl (by decide) (by decide)
  obtain ⟨p', s', hp', h₀', -, hpmm, hF⟩ := stocked_of_boot 0x101000 0x300000 0xC0250000
    (fun _ => 0) ⟨0, 0, 0⟩ Client.smallPmm (by decide) (by decide)
    (by decide) (kernPool 0xC0250000).stored_blankMem rfl (by decide) (by decide)
  obtain rfl := Option.some.inj (hp.symm.trans hp')
  obtain rfl := Option.some.inj (h₀.symm.trans h₀')
  have hwhole : s.pmm.OneWhole := hpmm ▸ (smallPmm_serves hp).1
  have hgentle : Along (step Pmm.allocOnePage) Gentle [.alloc] s :=
    ⟨⟨fun _ h => (nomatch h), fun _ _ => hwhole⟩, fun _ _ => trivial⟩
  have hused : (getKernUsedPageCount 0x300000).toNat = 768 := by decide
  rw [hused] at hF hrun
  have hspares : SparesImage Pmm.allocOnePage 768 .alloc s := by
    intro q _ _ hq _ _
    have hfirst : 768 ∈ s.freePages := hF ▸ ⟨le_rfl, by decide⟩
    have hle := hq.2 768 hfirst
    have hge := hF ▸ hq.1
    obtain rfl : q = 768 := le_antisymm hle hge.1
    decide
  obtain ⟨-, ht⟩ := hrun [.alloc] ⟨trivial, fun _ _ => trivial⟩ ⟨hspares, fun _ _ => trivial⟩
  obtain ⟨t, ht, htotal, himage⟩ := ht hgentle
  exact ⟨p, s, t, hp, h₀, ht, htotal, himage⟩

/-- Releasing the page that the first allocation returned loses its frame. -/
theorem not_conserves_sample : ∃ p s t, Client.smallPmm.pageInit = some p ∧
    vmmKernInit 0x300000 0xC0250000
      (booted 0x101000 (fun _ => 0) ⟨0, 0, 0⟩ (kernPool 0xC0250000).blankMem p) = some s ∧
    ReleasesHeld 768 (.releaseOnePage 0xC0300000) t ∧
    step Pmm.allocOnePage .alloc s = some t ∧
    ¬ Conserves 768 (.releaseOnePage 0xC0300000) t := by
  obtain ⟨p, s, hp, h₀, hst, hpmm, hF⟩ := stocked_of_boot 0x101000 0x300000 0xC0250000
    (fun _ => 0) ⟨0, 0, 0⟩ Client.smallPmm (by decide) (by decide)
    (by decide) (kernPool 0xC0250000).stored_blankMem rfl (by decide) (by decide)
  have hused : (getKernUsedPageCount 0x300000).toNat = 768 := by decide
  rw [hused] at hst hF
  obtain ⟨hwhole, hserves⟩ := smallPmm_serves hp
  have htakes : Takes .alloc s 768 := by
    refine ⟨?_, ?_⟩
    · rw [hF]
      exact ⟨le_rfl, by decide⟩
    · intro r hr
      rw [hF] at hr
      exact hr.1
  have hgentle : Gentle .alloc s := ⟨fun _ h => (nomatch h), fun _ _ => hpmm ▸ hwhole⟩
  obtain ⟨t, ht, htst, -⟩ := hst.step_of_gentle hgentle
  obtain ⟨L, hL, -⟩ := hst.sound
  obtain ⟨d, p', -, hd, -⟩ := hL.allocOnePage_whole (hpmm ▸ hwhole)
  obtain ⟨t', ht', -, heff⟩ := hst.ready.takes_effect htakes hd
  obtain rfl := Option.some.inj (ht.symm.trans ht')
  have hheld : 768 ∈ t.heldPages 768 := by
    cases heff with
    | idle _ hno => exact absurd htakes (hno 768)
    | unmapped target _ hkind => cases hkind
    | refused _ d' _ hd' hst' => exact absurd hst' (hserves d' _ (hpmm ▸ hd'))
    | mapped q d' htakes' _ _ hfree =>
        obtain rfl := htakes.unique htakes'
        refine ⟨le_rfl, by decide, fun h => ?_⟩
        rw [hfree] at h
        exact h.2 rfl
  have hpage : kernPage? 0xC0300000 = some 768 :=
    kernPage_eq_some.mpr ⟨by decide, by decide⟩
  refine ⟨p, s, t, hp, h₀, ⟨768, hheld, hpage⟩, ht, ?_⟩
  intro hc
  obtain ⟨u, hu, htotal⟩ := hc
  obtain ⟨u', hu', hlost⟩ := htst.step_release hheld hpage
  obtain rfl := Option.some.inj (hu.symm.trans hu')
  omega

end Vmm
end BHOS
