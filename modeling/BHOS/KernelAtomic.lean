import BHOS.Frames
import BHOS.KernelSpace

/-! # Kernel pages are allocated all or nothing

`vmm_kern_alloc_one_page` and `vmm_kern_alloc` touch the pool, a page table and the page manager.
`AllOrNothing` says that they change all three or none.  In a `Space` they do whenever
`pmm_alloc_one_page` returns.  When it does not, the page is taken from the pool and nothing comes
of it.  That is so when it pops from a list that has become a cycle.

A split of a block for whose class `pop_page_no-1` there is no list (`Lists.Serves` fails) goes on
with the uninitialised local `header` of `append_block`.  What comes of that is a parameter, `wild`:
the results are about every way in which such a call may end or not. -/

namespace BHOS

/-! ### One page from the page manager -/

/-- The single page buffer is not empty, or the first list that is not empty has single pages, or
its last block, which is split, has a number from 1 to 11; or no list has a block. -/
def Lists.Serves (L : Lists) : Prop :=
  L.single ≠ [] ∨ ∀ k l p, Pmm.FirstFrom L.buddy 0 k → L.buddy k = l ++ [p] →
    k.val = 0 ∨ 1 ≤ p.toNat ∧ p.toNat ≤ 11

namespace Pmm

variable {s t : Pmm} {L : Lists} {k : Fin 11} {p b : UInt32} {c c' : PageC} {d : PmAlloc} {n : ℕ}
  {wild : UInt32 → PageC → Pmm → Option Pmm}

/-- The page manager has no page left. -/
def Exhausted (s : Pmm) : Prop := s.singleLink = none ∧ ∀ k, s.multiLink k = none

/-- `append_block`; without a case for the class, `wild` is what it does with whatever its local
`header` holds. -/
def appendBlockWith (wild : UInt32 → PageC → Pmm → Option Pmm) (pageNo : UInt32) (c : PageC)
    (s : Pmm) : Option Pmm :=
  match listOf c with
  | none => wild pageNo c (s.setNext pageNo none)
  | some _ => s.appendBlock pageNo c

/-- `pmm_alloc_one_page` with that `append_block`. -/
def allocOnePageWith (wild : UInt32 → PageC → Pmm → Option Pmm) (s : Pmm) :
    Option (PmAlloc × Pmm) :=
  match s.singleLink with
  | none => s.allocPagesWith (appendBlockWith wild) 1
  | some _ => s.allocOnePage

/-- `pmm_alloc_one_page` returns. -/
def Answers (wild : UInt32 → PageC → Pmm → Option Pmm) (s : Pmm) : Prop :=
  ∃ r, s.allocOnePageWith wild = some r

/-- No descriptor has the number that stands for an error. -/
def Numbered (s : Pmm) : Prop := ∀ p, (s.pageArray p).pageNo ≠ erroPopBlock

theorem Numbered.popBlock_cases (hno : s.Numbered) (h : s.popBlock c = some (b, t)) :
    (b = erroPopBlock ∧ t = s ∧ ∀ k, listOf c = some k → s.multiLink k = none) ∨
      b ≠ erroPopBlock ∧ ∃ k, s.multiLink k ≠ none := by
  unfold popBlock at h
  by_cases hc : c = erro
  · rw [if_pos hc] at h
    obtain ⟨rfl, rfl⟩ := Prod.mk.inj (Option.some.inj h)
    refine Or.inl ⟨rfl, rfl, ?_⟩
    intro k hk
    exact absurd hc (ne_erro_of_listOf hk)
  · rw [if_neg hc] at h
    cases hl : listOf c with
    | none =>
        rw [hl] at h
        cases h
    | some k =>
        simp only [hl] at h
        cases hk : s.multiLink k with
        | none =>
            simp only [hk, Option.some.injEq, Prod.mk.injEq] at h
            obtain ⟨rfl, rfl⟩ := h
            refine Or.inl ⟨rfl, rfl, ?_⟩
            intro j hj
            obtain rfl := Option.some.inj hj
            exact hk
        | some header =>
            have hne : ∃ k, s.multiLink k ≠ none := ⟨k, by rw [hk]; exact Option.some_ne_none header⟩
            simp only [hk] at h
            split_ifs at h
            · obtain ⟨rfl, -⟩ := Prod.mk.inj (Option.some.inj h)
              exact Or.inr ⟨hno header, hne⟩
            · obtain ⟨probe, -, h⟩ := Option.bind_eq_some_iff.mp h
              obtain ⟨last, -, h⟩ := Option.bind_eq_some_iff.mp h
              obtain ⟨rfl, -⟩ := Prod.mk.inj (Option.some.inj h)
              exact Or.inr ⟨hno last, hne⟩

/-- The search fails exactly when it finds every list empty. -/
theorem Numbered.popFrom_cases (hno : s.Numbered) (hn : 11 ≤ n + c.toNat)
    (h : popFrom n c s = some (b, c', t)) :
    (b = erroPopBlock ∧ t = s ∧ ∀ k : Fin 11, c.toNat ≤ k.val → s.multiLink k = none) ∨
      b ≠ erroPopBlock ∧ ∃ k, s.multiLink k ≠ none := by
  induction n generalizing c with
  | zero =>
      obtain ⟨rfl, -, rfl⟩ : erroPopBlock = b ∧ c = c' ∧ s = t := by simpa [popFrom] using h
      refine Or.inl ⟨rfl, rfl, ?_⟩
      intro k hk
      have hlt := k.isLt
      omega
  | succ n ih =>
      unfold popFrom at h
      by_cases hc : c < erro
      · have hlt : c.toNat < 11 := UInt32.lt_iff_toNat_lt.mp hc
        have hadd : (c + 1).toNat = c.toNat + 1 := by
          simp only [UInt32.toNat_add, UInt32.reduceToNat]
          omega
        rw [if_pos hc] at h
        obtain ⟨⟨b', u⟩, hu, hrest⟩ := Option.bind_eq_some_iff.mp h
        rcases hno.popBlock_cases hu with ⟨rfl, rfl, hempty⟩ | ⟨hne, hex⟩
        · simp only [ne_eq, not_true_eq_false, if_false] at hrest
          refine (ih (by omega) hrest).imp_left fun ⟨hb, ht, hall⟩ => ⟨hb, ht, ?_⟩
          intro k hk
          by_cases hkc : c.toNat = k.val
          · apply hempty k
            rw [listOf_lt hlt]
            exact congrArg some (Fin.ext hkc)
          · exact hall k (by omega)
        · simp only [ne_eq, hne, not_false_eq_true, if_true, Option.some.injEq, Prod.mk.injEq]
            at hrest
          exact Or.inr ⟨hrest.1 ▸ hne, hex⟩
      · have hge : 11 ≤ c.toNat := UInt32.le_iff_toNat_le.mp (UInt32.not_lt.mp hc)
        rw [if_neg hc] at h
        obtain ⟨rfl, -, rfl⟩ : erroPopBlock = b ∧ c = c' ∧ s = t := by simpa using h
        refine Or.inl ⟨rfl, rfl, ?_⟩
        intro k hk
        have hlt := k.isLt
        omega

/-- A request for one page is refused exactly when no page is left, and then changes nothing. -/
theorem Numbered.allocOnePage_cases (hno : s.Numbered)
    (h : s.allocOnePageWith wild = some (d, t)) :
    d.state = 0 ∧ t = s ∧ s.Exhausted ∨ d.state ≠ 0 ∧ ¬ s.Exhausted := by
  have hone : (1 : UInt8) ≠ 0 := by decide
  cases hsl : s.singleLink with
  | some header =>
      have hne : ¬ s.Exhausted := fun hex => Option.some_ne_none header (hsl.symm.trans hex.1)
      refine Or.inr ⟨?_, hne⟩
      simp only [allocOnePageWith, allocOnePage, hsl] at h
      split_ifs at h
      · obtain ⟨rfl, -⟩ := Prod.mk.inj (Option.some.inj h)
        exact hone
      · obtain ⟨probe, -, h⟩ := Option.bind_eq_some_iff.mp h
        obtain ⟨last, -, h⟩ := Option.bind_eq_some_iff.mp h
        obtain ⟨rfl, -⟩ := Prod.mk.inj (Option.some.inj h)
        exact hone
  | none =>
      have hbound : ¬ ((1 : UInt32) > 1024 ∨ (1 : UInt32) = 0) := by decide
      simp only [allocOnePageWith, hsl] at h
      rw [allocPagesWith, if_neg hbound, originPh_one] at h
      obtain ⟨⟨b, c, u⟩, hu, hrest⟩ := Option.bind_eq_some_iff.mp h
      rcases hno.popFrom_cases (by decide) hu with ⟨rfl, rfl, hall⟩ | ⟨hne, j, hj⟩
      · simp only [if_true, Option.some.injEq, Prod.mk.injEq] at hrest
        obtain ⟨rfl, rfl⟩ := hrest
        exact Or.inl ⟨rfl, rfl, hsl, fun k => hall k (Nat.zero_le _)⟩
      · simp only [if_neg hne] at hrest
        obtain ⟨⟨r, v⟩, -, hrest⟩ := Option.bind_eq_some_iff.mp hrest
        obtain ⟨rfl, -⟩ := Prod.mk.inj (Option.some.inj hrest)
        exact Or.inr ⟨hone, fun hex => hj (hex.2 j)⟩

/-- The classes with a list. -/
theorem listOf_pred : (∃ k, listOf (p - 1) = some k) ↔ 1 ≤ p.toNat ∧ p.toNat ≤ 11 := by
  have hp := p.toNat_lt
  have hsub : (p - 1).toNat = (2 ^ 32 - 1 + p.toNat) % 2 ^ 32 := by
    simp only [UInt32.toNat_sub, UInt32.reduceToNat]
  constructor
  · rintro ⟨k, hk⟩
    have hk := listOf_eq hk
    have hlt := k.isLt
    omega
  · intro h
    exact ⟨_, listOf_lt (show (p - 1).toNat < 11 by omega)⟩

/-- When a well-formed page manager has a result without the value of `header`. -/
theorem Sound.allocOnePage_iff (h : Sound s L) (hcov : (Blocks.cover L.blocks).Nodup) :
    (∃ r, s.allocOnePage = some r) ↔ L.Serves := by
  by_cases hw : s.OneWhole
  · obtain ⟨d, t, -, he, -⟩ := h.allocOnePage_whole hw
    refine iff_of_true ⟨(d, t), he⟩ ?_
    by_cases hsl : s.singleLink = none
    · refine Or.inr fun k l p hk hl => Or.inl ?_
      have hz := (hw.resolve_left fun hne => hne hsl)
      have hl0 : listOf (originPh 1) = some 0 := by decide
      rcases hz with hz | hz | hz
      · exact absurd hz (by decide)
      · exact absurd hz (by decide)
      · rcases hz 0 hl0 with hz | hz
        · by_contra hk0
          have hlt : (0 : Fin 11) < k := Fin.lt_def.mpr (Nat.pos_of_ne_zero hk0)
          exact hz ((h.holds.buddy 0).eq_nil_iff.mp (hk.before 0 (Nat.zero_le _) hlt))
        · exact absurd ((h.holds.buddy k).eq_nil_iff.mpr (hz k (Fin.zero_le k))) hk.nonempty
    · exact Or.inl fun hnil => hsl (h.holds.single.eq_nil_iff.mp hnil)
  · obtain ⟨hsl, k, l, p, hk, hl, hk0⟩ := h.exists_first hw
    obtain ⟨hnone, hsome⟩ := h.allocOnePage_first hcov hsl hk hl hk0
    have hnil := (h.holds.single.eq_nil_iff).mpr hsl
    constructor
    · rintro ⟨r, hr⟩
      refine Or.inr fun k' l' p' hk' hl' => Or.inr (listOf_pred.mp ?_)
      obtain rfl : k' = k := by
        by_contra hne
        rcases lt_or_gt_of_ne hne with hlt | hlt
        · exact hk'.nonempty (hk.before k' (Nat.zero_le _) hlt)
        · exact hk.nonempty (hk'.before k (Nat.zero_le _) hlt)
      have hsplit := List.append_inj' (hl'.symm.trans hl) rfl
      obtain rfl : p' = p := (List.cons.inj hsplit.2).1
      by_contra hno
      rw [hnone (Option.eq_none_iff_forall_not_mem.mpr fun j hj => hno ⟨j, hj⟩)] at hr
      cases hr
    · intro hs
      have hlast := (hs.resolve_left fun hne => hne hnil) k l p hk hl
      obtain ⟨j, hj⟩ := listOf_pred.mpr (hlast.resolve_left hk0)
      obtain ⟨d, t, -, he, -⟩ := hsome j hj
      exact ⟨(d, t), he⟩

/-- `pop_block` does not find the end of a list that is a cycle of one block. -/
theorem popBlock_self (hc : listOf c = some k) (hl : s.multiLink k = some p)
    (hp : s.next p = some p) : s.popBlock c = none := by
  have hloop : Linked.seek s.next (fun q => ((s.next q).bind s.next).isNone) listBound p = none :=
    Linked.seek_self hp (by simp only [hp, Option.bind_some, Option.isNone_some]) listBound
  have hmore : s.next p ≠ none := by rw [hp]; exact Option.some_ne_none p
  unfold popBlock
  rw [if_neg (ne_erro_of_listOf hc)]
  simp only [hc, hl, if_neg hmore, hloop, Option.bind_eq_bind, Option.bind_none]

theorem lt_erro_of_listOf (hc : listOf c = some k) : c < erro := by
  have hk := k.isLt
  rw [← listOf_eq hc] at hk
  exact UInt32.lt_iff_toNat_lt.mpr hk

/-- The search goes on behind an empty list. -/
theorem popFrom_skip (hc : listOf c = some k) (hl : s.multiLink k = none) (hn : c + 1 = c') :
    popFrom (n + 1) c s = popFrom n c' s := by
  have hpop : s.popBlock c = some (erroPopBlock, s) := by
    simp only [popBlock, if_neg (ne_erro_of_listOf hc), hc, hl]
  rw [popFrom, if_pos (lt_erro_of_listOf hc), hpop, ← hn]
  simp only [Option.bind_eq_bind, Option.bind_some, ne_eq, not_true_eq_false, if_false]

/-- The search ends in a list without an end. -/
theorem popFrom_self (hc : listOf c = some k) (hl : s.multiLink k = some p)
    (hp : s.next p = some p) : popFrom (n + 1) c s = none := by
  rw [popFrom, if_pos (lt_erro_of_listOf hc), popBlock_self hc hl hp]
  simp only [Option.bind_eq_bind, Option.bind_none]

/-! ### The uninitialised `header` -/

theorem appendBlock_of_wild (hw : ∀ q c u, wild q c u = none) :
    appendBlockWith wild = fun q c u => u.appendBlock q c := by
  funext q c u
  unfold appendBlockWith
  cases hc : listOf c with
  | some k => rfl
  | none => simp only [hw, appendBlock, hc]

/-- Without a result for such a call `pmm_alloc_one_page` is the function of the module `Pmm`. -/
theorem allocOnePageWith_none (hw : ∀ q c u, wild q c u = none) (s : Pmm) :
    s.allocOnePageWith wild = s.allocOnePage := by
  unfold allocOnePageWith
  cases hsl : s.singleLink with
  | some header => rfl
  | none => simp only [appendBlock_of_wild hw, allocPagesWith_appendBlock, allocOnePage_none hsl]

/-- A request that returns without such a call does so whatever `header` holds. -/
theorem answers_of_allocOnePage {r : PmAlloc × Pmm} (h : s.allocOnePage = some r) :
    s.Answers wild := by
  unfold Answers allocOnePageWith
  cases hsl : s.singleLink with
  | some header => exact ⟨r, h⟩
  | none =>
      have hmono : ∀ q c u v, appendBlock u q c = some v → appendBlockWith wild q c u = some v := by
        intro q c u v hv
        unfold appendBlockWith
        cases hc : listOf c with
        | some k => exact hv
        | none =>
            simp only [appendBlock, hc] at hv
            cases hv
      rw [allocOnePage_none hsl, ← allocPagesWith_appendBlock] at h
      exact ⟨r, allocPagesWith_mono hmono h⟩

/-- A well-formed page manager returns when calls with such a `header` do. -/
theorem Sound.answers_of_returns (h : Sound s L) (hcov : (Blocks.cover L.blocks).Nodup)
    (hw : ∀ q c u, ∃ v, wild q c u = some v) : s.Answers wild := by
  by_cases hs : ∃ r, s.allocOnePage = some r
  · obtain ⟨r, hr⟩ := hs
    exact answers_of_allocOnePage hr
  · have hwhole : ¬ s.OneWhole := by
      intro hwhole
      obtain ⟨d, t, -, he, -⟩ := h.allocOnePage_whole hwhole
      exact hs ⟨(d, t), he⟩
    obtain ⟨hsl, k, l, p, hk, hl, hk0⟩ := h.exists_first hwhole
    have hnone : listOf (p - 1) = none := by
      rw [Option.eq_none_iff_forall_not_mem]
      intro j hj
      obtain ⟨d, t, -, he, -⟩ := (h.allocOnePage_first hcov hsl hk hl hk0).2 j hj
      exact hs ⟨(d, t), he⟩
    -- every remainder of the split is put away by such a call
    obtain ⟨c, u, hu, hc, -⟩ := popFrom_nonempty (n := 12) (c := 0) h hl (Nat.zero_le _)
      (by have := k.isLt; omega) fun j _ hj =>
        (h.holds.buddy j).eq_nil_iff.mp (hk.before j (Nat.zero_le _) hj)
    have hpne := ne_erro_of_lt_max h (h.buddy_lt (show p ∈ L.buddy k by simp [hl]))
    have hklt := k.isLt
    have hcv := listOf_eq hc
    have hwild : allocHelperWith (appendBlockWith wild) 0 12 c p u =
        allocHelperWith (fun q c u => wild q c (u.setNext q none)) 0 12 c p u :=
      allocHelperWith_congr fun q u => by simp only [appendBlockWith, hnone]
    obtain ⟨r, hr⟩ : ∃ r, allocHelperWith (appendBlockWith wild) 0 12 c p u = some r := by
      rw [hwild]
      exact allocHelperWith_isSome (fun q c u => hw q c _) (Nat.zero_le _)
        (by simp only [UInt32.toNat_zero]; omega)
    have hbound : ¬ ((1 : UInt32) > 1024 ∨ (1 : UInt32) = 0) := by decide
    refine ⟨(⟨r.2.pageNoToAddr r.1, 0, 1⟩, r.2), ?_⟩
    simp only [allocOnePageWith, hsl, allocPagesWith, if_neg hbound, originPh_one, hu,
      Option.bind_eq_bind, Option.bind_some, if_neg hpne, hr]

end Pmm

namespace Vmm

variable {s t : Vmm Pmm} {q : ℕ} {d : PmAlloc} {p' : Pmm} {wanted : Set ℕ} {r : UInt32 × Vmm Pmm}
  {wild : UInt32 → PageC → Pmm → Option Pmm}

/-- What a call returns that was asked for one of the pages `wanted`: one of them is mapped, or the
state is as it was, which is so exactly when none of them is free or no frame is left. -/
structure AllOrNothing (wild : UInt32 → PageC → Pmm → Option Pmm) (s : Vmm Pmm) (wanted : Set ℕ)
    (r : UInt32 × Vmm Pmm) : Prop where
  all : r.1 ≠ kernVmmAllocErro → ∃ q d, q ∈ wanted ∧ r.1 = kernAddr q ∧
    PageMapped (Pmm.allocOnePageWith wild) s r.2 q d
  nothing : r.1 = kernVmmAllocErro → r.2 = s
  iff : r.1 = kernVmmAllocErro ↔ (∀ q ∈ wanted, q ∉ s.freePages) ∨ s.pmm.Exhausted

/-- A call that finds no page. -/
theorem allOrNothing_none (h : ∀ q ∈ wanted, q ∉ s.freePages) :
    s.AllOrNothing wild wanted (kernVmmAllocErro, s) :=
  ⟨fun hne => absurd rfl hne, fun _ => rfl, iff_of_true rfl (Or.inl h)⟩

/-- A call that took a free page, when the page manager has a result. -/
theorem Space.allOrNothing_answer (h : s.Space) (hno : s.pmm.Numbered) (hq : q ∈ s.freePages)
    (hwanted : q ∈ wanted) {m : ByteMem} (hs : s.kernVmmPool.Stored m)
    (hF : s.kernVmmPool.freeSet m = s.freePages \ {q}) 
    (hd : s.pmm.allocOnePageWith wild = some (d, p')) :
    s.AllOrNothing wild wanted (s.answer (kernAddr q) (s.slotOf q) m (d, p')) := by
  have hfree : ¬ ∀ q ∈ wanted, q ∉ s.freePages := fun hall => hall q hwanted hq
  unfold answer
  rcases hno.allocOnePage_cases hd with ⟨hst, rfl, hex⟩ | ⟨hst, hex⟩
  · rw [if_pos hst]
    exact ⟨fun hne => absurd rfl hne, fun _ => rfl, iff_of_true rfl (Or.inr hex)⟩
  · rw [if_neg hst]
    have hne : kernAddr q ≠ kernVmmAllocErro :=
      (kernPool_ok 0).pageAddr_ne_erro (h.pooled.page_lt hq)
    refine ⟨fun _ => ⟨q, d, hwanted, rfl, h.pageMapped hq hs hF hd hst⟩, fun e => absurd e hne,
      iff_of_false hne ?_⟩
    rintro (hall | hex')
    · exact hfree hall
    · exact hex hex'

/-- A call is all or nothing exactly when `pmm_alloc_one_page` returns or is not asked. -/
theorem Space.allOrNothing_iff_of_eq (h : s.Space) (hno : s.pmm.Numbered)
    {call : Option (UInt32 × Vmm Pmm)} (hnone : (∀ q ∈ wanted, q ∉ s.freePages) →
      call = some (kernVmmAllocErro, s))
    (hsome : (∃ q ∈ wanted, q ∈ s.freePages) → ∃ q m, q ∈ wanted ∧ q ∈ s.freePages ∧
      s.kernVmmPool.Stored m ∧ s.kernVmmPool.freeSet m = s.freePages \ {q} ∧
      call = (s.pmm.allocOnePageWith wild).map (s.answer (kernAddr q) (s.slotOf q) m)) :
    (∃ r, call = some r ∧ s.AllOrNothing wild wanted r) ↔
      ((∃ q ∈ wanted, q ∈ s.freePages) → s.pmm.Answers wild) := by
  by_cases hw : ∃ q ∈ wanted, q ∈ s.freePages
  · obtain ⟨q, m, hwanted, hq, hs, hF, he⟩ := hsome hw
    constructor
    · rintro ⟨r, hr, -⟩ -
      rw [he, Option.map_eq_some_iff] at hr
      obtain ⟨r', hr', -⟩ := hr
      exact ⟨r', hr'⟩
    · intro ha
      obtain ⟨⟨d, p'⟩, hd⟩ := ha hw
      refine ⟨_, by rw [he, hd, Option.map_some], ?_⟩
      exact h.allOrNothing_answer hno hq hwanted hs hF hd
  · have hall : ∀ q ∈ wanted, q ∉ s.freePages := fun q hq hfree => hw ⟨q, hq, hfree⟩
    exact iff_of_true ⟨_, hnone hall, allOrNothing_none hall⟩ fun hw' => absurd hw' hw

/-- **Kernel pages are allocated all or nothing** exactly when the page manager, if it is asked,
returns, whatever its calls do with an uninitialised `header`.  A well-formed page manager returns
for every such `wild` unless the single page buffer is empty and it must split a block whose number
is not from 1 to 11; then it is up to these calls. -/
theorem allOrNothing_iff_answers (wild : UInt32 → PageC → Pmm → Option Pmm) (s : Vmm Pmm)
    (h : s.Space) (hno : s.pmm.Numbered) :
    (∀ target, target.toNat % 4096 = 0 →
      ((∃ r, vmmKernAllocOnePage (Pmm.allocOnePageWith wild) s target = some r ∧
          s.AllOrNothing wild {q | kernPage? target = some q} r) ↔
        ((∃ q, kernPage? target = some q ∧ q ∈ s.freePages) → s.pmm.Answers wild))) ∧
    ((∃ r, vmmKernAlloc (Pmm.allocOnePageWith wild) s = some r ∧
        s.AllOrNothing wild Set.univ r) ↔ (s.freePages.Nonempty → s.pmm.Answers wild)) ∧
    ∀ L, s.pmm.Sound L → (Blocks.cover L.blocks).Nodup →
      (L.Serves → s.pmm.Answers wild) ∧
      ((∀ q c u, ∃ v, wild q c u = some v) → s.pmm.Answers wild) ∧
      ((∀ q c u, wild q c u = none) → (s.pmm.Answers wild ↔ L.Serves)) := by
  obtain ⟨halloc, hpage⟩ := h.gives (Pmm.allocOnePageWith wild)
  refine ⟨?_, ?_, fun L hL hcov => ⟨fun hserves => ?_, hL.answers_of_returns hcov, fun hw => ?_⟩⟩
  · intro target hal
    apply h.allOrNothing_iff_of_eq hno
    · intro hall
      exact h.pooled.vmmKernAllocOnePage_none fun q hq hp => hall q hp hq
    · rintro ⟨q, hp, hq⟩
      obtain ⟨m, hs, hF, he⟩ := hpage target q hal ⟨hp, hq⟩
      exact ⟨q, m, hp, hq, hs, hF, he⟩
  · have hwanted : (∃ q ∈ Set.univ, q ∈ s.freePages) ↔ s.freePages.Nonempty := by
      simp only [Set.mem_univ, true_and]
      rfl
    rw [← hwanted]
    apply h.allOrNothing_iff_of_eq hno
    · intro hall
      apply h.pooled.vmmKernAlloc_none
      exact Set.eq_empty_of_forall_notMem fun q hq => hall q trivial hq
    · rintro ⟨q₀, -, hq₀⟩
      have ht : Takes .alloc s (sInf s.freePages) := takes_sInf ⟨q₀, hq₀⟩
      obtain ⟨m, hs, hF, he⟩ := halloc _ ht
      exact ⟨_, m, trivial, ht.1, hs, hF, he⟩
  · obtain ⟨r, hr⟩ := (hL.allocOnePage_iff hcov).mpr hserves
    exact Pmm.answers_of_allocOnePage hr
  · rw [Pmm.Answers, Pmm.allocOnePageWith_none hw]
    exact hL.allocOnePage_iff hcov

/-- A page manager with page 0 in the single page buffer. -/
def lastFrame : Pmm := { Pmm.zero with singleLink := some 0 }

theorem numbered_lastFrame : lastFrame.Numbered := by
  intro p
  exact (by decide : (0 : UInt32) ≠ erroPopBlock)

/-- The kernel with that page manager, before `vmm_kern_init`. -/
def sampleKernel (p : Pmm) : Vmm Pmm :=
  ⟨sampleDirectory, 0x400000, ⟨0, 0, 0⟩, (kernPool 0xC0250000).blankMem, p⟩

theorem space_sampleKernel (p : Pmm) : ∃ s,
    vmmKernInit 0x300000 0xC0250000 (sampleKernel p) = some s ∧ s.Space ∧
      s.mem = sampleDirectory ∧ s.cr3 = 0x400000 ∧ s.pmm = p ∧
      s.freePages = {q | 768 ≤ q ∧ q < windowPage} :=
  space_of_init (sampleKernel p) kernDirectory_sample (kernPool 0xC0250000).stored_blankMem
    (by decide)

/-- An uninitialised `header` that is `NULL`. -/
def noHeader (_ : UInt32) (_ : PageC) (s : Pmm) : Option Pmm := some s

theorem allOrNothing_lastFrame :
    ∃ s, vmmKernInit 0x300000 0xC0250000 (sampleKernel lastFrame) = some s ∧
      ∃ r, vmmKernAlloc (Pmm.allocOnePageWith noHeader) s = some r ∧
        s.AllOrNothing noHeader Set.univ r := by
  obtain ⟨s, h₀, hs, -, -, hp, -⟩ := space_sampleKernel lastFrame
  have hno : s.pmm.Numbered := hp ▸ numbered_lastFrame
  have hans : s.pmm.Answers noHeader := hp ▸ ⟨_, rfl⟩
  exact ⟨s, h₀, (allOrNothing_iff_answers noHeader s hs hno).2.1.mpr fun _ => hans⟩

/-- The page manager of a machine with 2048 pages after four requests for one page.  The fourth one
has split the block of page 3 and put page 4 behind itself in the list of class `_4`. -/
def cyclicPmm : Option Pmm := do
  let p ← Client.smallPmm.pageInit
  let (_, p) ← p.allocPages 1
  let (_, p) ← p.allocPages 1
  let (_, p) ← p.allocPages 1
  let (_, p) ← p.allocPages 1
  some p

theorem cyclicPmm_eq : ∃ p, cyclicPmm = some p ∧ p.singleLink = none ∧ p.multiLink 0 = none ∧
    p.multiLink 1 = none ∧ p.multiLink 2 = some 4 ∧ p.next 4 = some 4 := by
  have hcyclic : (cyclicPmm.any fun p => p.singleLink.isNone && (p.multiLink 0).isNone &&
      (p.multiLink 1).isNone && p.multiLink 2 == some 4 && p.next 4 == some 4) = true := by
    decide +kernel
  obtain ⟨p, hp⟩ : ∃ p, cyclicPmm = some p := by
    cases h : cyclicPmm with
    | none =>
        rw [h] at hcyclic
        cases hcyclic
    | some p => exact ⟨p, rfl⟩
  rw [hp, Option.any_some] at hcyclic
  simp only [Bool.and_eq_true, Option.isNone_iff_eq_none, beq_iff_eq] at hcyclic
  obtain ⟨⟨⟨⟨hsl, h0⟩, h1⟩, h2⟩, h4⟩ := hcyclic
  exact ⟨p, hp, hsl, h0, h1, h2, h4⟩

/-- `pmm_alloc_one_page` does not return: `pop_block(_4)` looks for the end of a cycle. -/
theorem allocOnePageWith_cyclic {p : Pmm} (hsl : p.singleLink = none) (h0 : p.multiLink 0 = none)
    (h1 : p.multiLink 1 = none) (h2 : p.multiLink 2 = some 4) (h4 : p.next 4 = some 4) :
    p.allocOnePageWith wild = none := by
  have hbound : ¬ ((1 : UInt32) > 1024 ∨ (1 : UInt32) = 0) := by decide
  have hfrom : Pmm.popFrom 12 0 p = none :=
    calc Pmm.popFrom 12 0 p = Pmm.popFrom 11 1 p := Pmm.popFrom_skip (by decide) h0 (by decide)
      _ = Pmm.popFrom 10 2 p := Pmm.popFrom_skip (by decide) h1 (by decide)
      _ = none := Pmm.popFrom_self (by decide) h2 h4
  simp only [Pmm.allocOnePageWith, hsl, Pmm.allocPagesWith, if_neg hbound, Pmm.originPh_one, hfrom,
    Option.bind_eq_bind, Option.bind_none]

/-- A page is free and the page manager has more than two thousand, but the call does not return,
whatever an uninitialised `header` holds: there is none on its way. -/
theorem not_allOrNothing_cyclic : ∃ p s, cyclicPmm = some p ∧ ¬ p.Exhausted ∧
    vmmKernInit 0x300000 0xC0250000 (sampleKernel p) = some s ∧ s.Space ∧ 768 ∈ s.freePages ∧
      ∀ wild, ¬ ∃ r, vmmKernAlloc (Pmm.allocOnePageWith wild) s = some r ∧
        s.AllOrNothing wild Set.univ r := by
  obtain ⟨p, hp, hsl, h0, h1, h2, h4⟩ := cyclicPmm_eq
  obtain ⟨s, h₀, hs, -, -, hpmm, hF⟩ := space_sampleKernel p
  have hfree : 768 ∈ s.freePages := by
    rw [hF]
    exact ⟨le_rfl, by decide⟩
  refine ⟨p, s, hp, ?_, h₀, hs, hfree, ?_⟩
  · intro hex
    exact Option.some_ne_none 4 (h2.symm.trans (hex.2 2))
  · rintro wild ⟨r, hr, -⟩
    have ht : Takes .alloc s (sInf s.freePages) := takes_sInf ⟨768, hfree⟩
    obtain ⟨m, -, -, he⟩ := (hs.gives (Pmm.allocOnePageWith wild)).1 _ ht
    rw [he, hpmm, allocOnePageWith_cyclic hsl h0 h1 h2 h4] at hr
    cases hr

end Vmm
end BHOS
