import BHOS.PmmBlocks

/-! # The lists that `pmm_page_init` builds

Initialisation hands out the pages from page 0 upwards: every block goes in where the pages
listed so far end.  `Filled s L m` says that the lists cover exactly the pages below `m`; one
lemma says that appending a block at `m` moves the end up, and the two loops follow by
induction.  The result is `pageInit_eq`. -/

namespace BHOS

open Blocks Linked

namespace Pmm

variable {s t : Pmm} {L : Lists} {k : Fin 11} {p q : UInt32} {c : PageC} {m n : ℕ}

/-! ### The page descriptors -/

theorem initPages_eq (n : ℕ) (i : UInt32) (pages : UInt32 → PmPage) (h : i.toNat + n ≤ 2 ^ 32)
    (p : UInt32) :
    initPages n i pages p =
      if i.toNat ≤ p.toNat ∧ p.toNat < i.toNat + n then ⟨p, none, 1⟩ else pages p := by
  induction n generalizing i pages with
  | zero => rw [initPages, if_neg (by omega)]
  | succ n ih =>
      rw [initPages]
      by_cases hw : i.toNat + 1 < 2 ^ 32
      · have hi : (i + 1).toNat = i.toNat + 1 := by
          simp only [UInt32.toNat_add, UInt32.reduceToNat]
          omega
        rw [ih _ _ (by omega), hi]
        by_cases hp : p = i
        · subst hp
          rw [if_neg (by omega), if_pos (by omega), Function.update_self]
        · have hne : p.toNat ≠ i.toNat := fun e => hp (UInt32.toNat_inj.mp e)
          rw [Function.update_of_ne hp]
          by_cases hr : i.toNat + 1 ≤ p.toNat ∧ p.toNat < i.toNat + 1 + n
          · rw [if_pos hr, if_pos (by omega)]
          · rw [if_neg hr, if_neg (by omega)]
      · obtain rfl : n = 0 := by omega
        rw [initPages]
        by_cases hp : p = i
        · subst hp
          rw [if_pos (by omega), Function.update_self]
        · have hne : p.toNat ≠ i.toNat := fun e => hp (UInt32.toNat_inj.mp e)
          rw [if_neg (by omega), Function.update_of_ne hp]

/-! ### Filling the buddy lists -/

/-- The lists cover the pages below `m`, and the descriptors from there on are as
`pmm_page_init` filled them. -/
structure Filled (s : Pmm) (L : Lists) (m : ℕ) : Prop where
  holds : s.Holds L
  covered : cover L.blocks = Multiset.range m
  numbered : ∀ p < s.maxPageNo, (s.pageArray p).pageNo = p
  unlinked : ∀ p < s.maxPageNo, m ≤ p.toNat → s.next p = none
  aligned : ∀ k, ∀ p ∈ L.buddy k, p.toNat % 2 ^ k.val = 0

theorem Filled.buddy_le (h : Filled s L m) (hp : p ∈ L.buddy k) : p.toNat + 2 ^ k.val ≤ m :=
  le_of_cover h.covered (Lists.mem_blocks_of_buddy hp)

theorem Filled.single_lt (h : Filled s L m) (hp : p ∈ L.single) : p.toNat < m :=
  le_of_cover h.covered (Lists.mem_blocks_of_single hp)

theorem Filled.fresh (h : Filled s L m) (hp : m ≤ p.toNat) : L.Fresh p := by
  apply Lists.fresh_of_not_covered
  intro hc
  rw [h.covered, Multiset.mem_range] at hc
  omega

theorem range_add (m n : ℕ) :
    (Finset.Ico m (m + n)).val + Multiset.range m = Multiset.range (m + n) := by
  rw [← Finset.range_val, ← Finset.range_val, add_comm, Finset.range_eq_Ico, Finset.range_eq_Ico]
  exact Multiset.Ico_add_Ico_eq_Ico (Nat.zero_le _) (Nat.le_add_right _ _)

/-- A block appended where the lists end. -/
theorem Filled.appendBlock_eq (h : Filled s L m) (hp : p.toNat = m) (hc : listOf c = some k)
    (hal : m % 2 ^ k.val = 0) :
    ∃ t L', s.appendBlock p c = some t ∧ Filled t L' (m + 2 ^ k.val) ∧ L'.single = L.single ∧
      t.maxPageNo = s.maxPageNo ∧ t.pageStart = s.pageStart ∧ t.singleLink = s.singleLink := by
  obtain ⟨t, ht, hh, hf⟩ := h.holds.appendBlock_eq (h.fresh hp.ge) hc
  refine ⟨t, _, ht, ⟨hh, ?_, ?_, ?_, ?_⟩, rfl, hf.maxPageNo, hf.pageStart, ?_⟩
  · rw [Lists.cover_push, h.covered, hp]
    exact range_add m _
  · intro q hq
    rw [hf.maxPageNo] at hq
    rw [hf.pageNo, h.numbered q hq]
  · intro q hq hm
    have hpos := Nat.two_pow_pos k.val
    rw [hf.maxPageNo] at hq
    rw [hf.next, h.unlinked q hq (by omega)]
    rintro hmem
    rcases List.mem_cons.mp hmem with rfl | hmem
    · omega
    · have := h.buddy_le hmem
      omega
  · intro j q hq
    by_cases hj : j = k
    · subst hj
      rw [Lists.set_self] at hq
      rcases List.mem_append.mp hq with hq | hq
      · exact h.aligned j q hq
      · rw [List.mem_singleton.mp hq, hp, hal]
    · rw [Lists.set_of_ne L hj] at hq
      exact h.aligned j q hq
  · have h₁ := h.holds.single.head?
    have h₂ := hh.single.head?
    rw [h₂, h₁]
    rfl

/-- Where a run of adjacent aligned blocks that starts at `m` ends. -/
def endOf : ℕ → List (UInt32 × PageC) → Option ℕ
  | m, [] => some m
  | m, (p, c) :: bs =>
      if p.toNat = m ∧ c.toNat < 11 ∧ m % 2 ^ c.toNat = 0 then endOf (m + 2 ^ c.toNat) bs else none

theorem Filled.foldlM_appendBlock {bs : List (UInt32 × PageC)} (h : Filled s L m)
    (hbs : endOf m bs = some n) :
    ∃ t L', bs.foldlM (fun s b => s.appendBlock b.1 b.2) s = some t ∧ Filled t L' n ∧
      L'.single = L.single ∧ t.maxPageNo = s.maxPageNo ∧ t.pageStart = s.pageStart ∧
      t.singleLink = s.singleLink := by
  induction bs generalizing s L m with
  | nil =>
      obtain rfl := Option.some.inj hbs
      exact ⟨s, L, rfl, h, rfl, rfl, rfl, rfl⟩
  | cons b bs ih =>
      obtain ⟨p, c⟩ := b
      rw [endOf] at hbs
      split_ifs at hbs with hb
      obtain ⟨hp, hc, hal⟩ := hb
      obtain ⟨u, L₁, hu, hfill, hs, hmax, hst, hsl⟩ := h.appendBlock_eq hp (listOf_lt hc) hal
      obtain ⟨t, L₂, ht, hfill', hs', hmax', hst', hsl'⟩ := ih hfill hbs
      refine ⟨t, L₂, ?_, hfill', hs'.trans hs, hmax'.trans hmax, hst'.trans hst, hsl'.trans hsl⟩
      simp only [List.foldlM_cons, hu, Option.bind_eq_bind, Option.bind_some]
      exact ht

/-- The number of the first single page: the blocks of 1024 pages go up to less than 1024 pages
below the end. -/
def singelFirst (maxPageNo : ℕ) : ℕ := max 2048 ((maxPageNo - 1) / 1024 * 1024)

theorem Filled.loadLoop_eq (h : Filled s L p.toNat) (hmax : s.maxPageNo.toNat ≤ 2 ^ 20)
    (hge : 1024 ≤ s.maxPageNo.toNat) (hp : p.toNat % 1024 = 0) (hlow : 2048 ≤ p.toNat)
    (hhigh : p.toNat ≤ singelFirst s.maxPageNo.toNat) {n : ℕ}
    (hn : s.maxPageNo.toNat + 2048 < n + p.toNat) :
    ∃ f t L', loadLoop n p s = some (f, t) ∧ Filled t L' f.toNat ∧ L'.single = L.single ∧
      f.toNat = singelFirst s.maxPageNo.toNat ∧ t.maxPageNo = s.maxPageNo ∧
      t.pageStart = s.pageStart ∧ t.singleLink = s.singleLink := by
  induction n generalizing s L p with
  | zero =>
      exfalso
      simp only [singelFirst] at hhigh
      omega
  | succ n ih =>
      have hsub : (s.maxPageNo - 1024).toNat = s.maxPageNo.toNat - 1024 := by
        simp only [UInt32.toNat_sub, UInt32.reduceToNat]
        omega
      rw [loadLoop]
      by_cases hlt : p < s.maxPageNo - 1024
      · have hlt' := UInt32.lt_iff_toNat_lt.mp hlt
        rw [hsub] at hlt'
        have hadd : (p + 1024).toNat = p.toNat + 1024 := by
          simp only [UInt32.toNat_add, UInt32.reduceToNat]
          omega
        obtain ⟨u, L₁, hu, hfill, hs, hm, hst, hsl⟩ :=
          h.appendBlock_eq rfl (k := 10) (c := 10) rfl hp
        have hend : p.toNat + 2 ^ (10 : Fin 11).val = (p + 1024).toNat := by
          rw [hadd]
          norm_num
        rw [hend] at hfill
        have hnext : p + 1024 < 0x80000000 := by
          simp only [UInt32.lt_iff_toNat_lt, hadd, UInt32.reduceToNat]
          omega
        obtain ⟨f, t, L₂, ht, hfill', hs', hf, hm', hst', hsl'⟩ := ih (p := p + 1024)
          hfill (hm ▸ hmax) (hm ▸ hge) (by rw [hadd]; omega) (by rw [hadd]; omega)
          (by rw [hadd, hm]; simp only [singelFirst]; omega) (by rw [hadd, hm]; omega)
        refine ⟨f, t, L₂, ?_, hfill', hs'.trans hs, by rw [hf, hm], hm'.trans hm, hst'.trans hst,
          hsl'.trans hsl⟩
        simp only [if_pos hlt, hu, Option.bind_eq_bind, Option.bind_some, if_pos hnext, ht]
      · refine ⟨p, s, L, if_neg hlt, h, rfl, ?_, rfl, rfl, rfl⟩
        have hge' := UInt32.le_iff_toNat_le.mp (UInt32.not_lt.mp hlt)
        rw [hsub] at hge'
        simp only [singelFirst] at hhigh ⊢
        omega

/-! ### The single page buffer -/

/-- One page goes to the end of the buffer. -/
theorem Filled.appendSingle (h : Filled s L m) (hp : p.toNat = m)
    (hh : t.Holds { L with single := L.single ++ [p] })
    (hmax : t.maxPageNo = s.maxPageNo) (hno : ∀ q, (t.pageArray q).pageNo = (s.pageArray q).pageNo)
    (hn : ∀ q ∉ L.single, t.next q = s.next q) :
    Filled t { L with single := L.single ++ [p] } (m + 1) := by
  refine ⟨hh, ?_, ?_, ?_, h.aligned⟩
  · rw [Lists.cover_pushSingle, h.covered, hp]
    exact range_add m 1
  · intro q hq
    rw [hmax] at hq
    rw [hno, h.numbered q hq]
  · intro q hq hm
    rw [hmax] at hq
    rw [hn, h.unlinked q hq (by omega)]
    intro hmem
    have := h.single_lt hmem
    omega

theorem Filled.singleLoop_eq (h : Filled s L p.toNat) (hmax : s.maxPageNo.toNat ≤ 2 ^ 20)
    (probe : Option UInt32)
    (hprobe : L.single = [] ∨ ∃ l a, L.single = l ++ [a] ∧ probe = some a) {n : ℕ}
    (hn : s.maxPageNo.toNat < n + p.toNat) (hpos : 0 < n) :
    ∃ t L', singleLoop n p probe s = some t ∧
      Filled t L' (max p.toNat s.maxPageNo.toNat) ∧ L'.buddy = L.buddy ∧
      (∀ q ∈ L'.single, q ∈ L.single ∨ p ≤ q ∧ q < s.maxPageNo) ∧
      t.maxPageNo = s.maxPageNo ∧ t.pageStart = s.pageStart ∧
      t.singelPageFirstNo = s.singelPageFirstNo := by
  induction n generalizing s L p probe with
  | zero => omega
  | succ n ih =>
      by_cases hlt : p < s.maxPageNo
      · have hlt' := UInt32.lt_iff_toNat_lt.mp hlt
        have hadd : (p + 1).toNat = p.toNat + 1 := by
          simp only [UInt32.toNat_add, UInt32.reduceToNat]
          omega
        have hfresh := h.fresh le_rfl
        have hnone := h.unlinked p hlt le_rfl
        -- both branches put the page behind the pages already in the buffer
        obtain ⟨u, hu, hfill, hm, hst, hf⟩ : ∃ u,
            singleLoop (n + 1) p probe s = singleLoop n (p + 1) (some p) u ∧
            Filled u { L with single := L.single ++ [p] } (p + 1).toNat ∧
            u.maxPageNo = s.maxPageNo ∧ u.pageStart = s.pageStart ∧
            u.singelPageFirstNo = s.singelPageFirstNo := by
          rw [hadd]
          rcases hprobe with he | ⟨l, a, hla, rfl⟩
          · have hsl : s.singleLink = none := h.holds.single.eq_nil_iff.mp he
            refine ⟨{ s with singleLink := some p }, by rw [singleLoop, if_pos hlt, hsl],
              h.appendSingle rfl ?_ rfl (fun _ => rfl) fun _ _ => rfl, rfl, rfl, rfl⟩
            rw [he]
            exact h.holds.single_start hfresh hnone
          · obtain ⟨header, hd⟩ := h.holds.single.exists_head (by simp [hla])
            refine ⟨s.setNext a (some p), ?_, h.appendSingle rfl
              (h.holds.single_append hfresh hnone hla) rfl (fun _ => pageNo_setNext _)
              fun q hq => ?_, rfl, rfl, rfl⟩
            · rw [singleLoop, if_pos hlt, hd]
              rfl
            have hqa : q ≠ a := fun e => hq (by simp [hla, e])
            rw [next_setNext, Function.update_of_ne hqa]
        obtain ⟨t, L', ht, hfill', hb, hs, hm', hst', hf'⟩ := ih hfill (by rwa [hm]) _
          (Or.inr ⟨L.single, p, rfl, rfl⟩) (by rw [hadd, hm]; omega) (by omega)
        refine ⟨t, L', hu.trans ht, ?_, hb, ?_, hm'.trans hm, hst'.trans hst, hf'.trans hf⟩
        · rw [hadd, hm, max_eq_right (by omega)] at hfill'
          rwa [max_eq_right (by omega)]
        · intro q hq
          rcases hs q hq with hq | hq
          · rcases List.mem_append.mp hq with hq | hq
            · exact Or.inl hq
            · rw [List.mem_singleton.mp hq]
              exact Or.inr ⟨UInt32.le_refl p, hlt⟩
          · refine Or.inr ⟨?_, hm ▸ hq.2⟩
            have := UInt32.le_iff_toNat_le.mp hq.1
            rw [UInt32.le_iff_toNat_le]
            omega
      · have hge := UInt32.le_iff_toNat_le.mp (UInt32.not_lt.mp hlt)
        refine ⟨s, L, if_neg hlt, ?_, rfl, fun q hq => Or.inl hq, rfl, rfl, rfl⟩
        rwa [max_eq_left hge]

/-! ### `pmm_page_init` -/

theorem filled_empty (hs : s.singleLink = none) (hm : s.multiLink = fun _ => none)
    (hno : ∀ p < s.maxPageNo, (s.pageArray p).pageNo = p)
    (hn : ∀ p < s.maxPageNo, s.next p = none) : Filled s Lists.empty 0 := by
  refine ⟨⟨?_, hs, ?_, ?_⟩, ?_, hno, fun p hp _ => hn p hp, ?_⟩
  · intro k
    rw [hm]
    rfl
  · exact fun _ _ _ _ h => absurd h List.not_mem_nil
  · exact fun _ _ h => absurd h List.not_mem_nil
  · simp [Lists.blocks, Lists.empty]
  · exact fun _ _ h => absurd h List.not_mem_nil

/-- `pmm_page_init` up to its message: the descriptors are filled and the blocks are in their
lists. -/
def loadBlocks (s : Pmm) : Option (UInt32 × Pmm) := do
  let s := { s with multiLink := fun _ => none
                    pageArray := initPages s.maxPageNo.toNat 0 s.pageArray }
  let s ← firstBlocks.foldlM (fun s b => s.appendBlock b.1 b.2) s
  let (tempPageNo, s) ← loadLoop listBound 2048 s
  some (tempPageNo, { s with singelPageFirstNo := tempPageNo })

theorem pageInit_eq_loadBlocks (s : Pmm) :
    s.pageInit = s.loadBlocks.bind fun r => singleLoop listBound r.1 none r.2 := by
  unfold pageInit loadBlocks
  simp only [Option.bind_eq_bind, Option.bind_assoc, Option.bind_some]

/-- The blocks cover the pages below the first single page. -/
theorem loadBlocks_eq (s : Pmm) (hs : s.singleLink = none) (hge : 1024 ≤ s.maxPageNo.toNat)
    (hmax : s.maxPageNo.toNat ≤ 2 ^ 20) :
    ∃ f t L, s.loadBlocks = some (f, t) ∧ Filled t L f.toNat ∧ L.single = [] ∧
      f.toNat = singelFirst s.maxPageNo.toNat ∧ t.singelPageFirstNo = f ∧
      t.maxPageNo = s.maxPageNo ∧ t.pageStart = s.pageStart := by
  have hinit : ∀ p < s.maxPageNo,
      initPages s.maxPageNo.toNat 0 s.pageArray p = ⟨p, none, 1⟩ := by
    intro p hp
    rw [initPages_eq _ _ _ (by simpa using hmax.trans (by decide)), if_pos]
    exact ⟨Nat.zero_le _, by simpa using UInt32.lt_iff_toNat_lt.mp hp⟩
  have h₀ : Filled { s with multiLink := fun _ => none
                            pageArray := initPages s.maxPageNo.toNat 0 s.pageArray }
      Lists.empty 0 := by
    refine filled_empty hs rfl ?_ ?_
    · intro p hp
      simp only [hinit p hp]
    · intro p hp
      simp only [next, hinit p hp]
  obtain ⟨s₁, L₁, h₁, hfill₁, hsingle₁, hmax₁, hst₁, -⟩ :=
    h₀.foldlM_appendBlock (n := 2048) (by decide : endOf 0 firstBlocks = some 2048)
  have hmax₁ : s₁.maxPageNo = s.maxPageNo := hmax₁
  have hfirst : 2048 ≤ singelFirst s.maxPageNo.toNat := le_max_left _ _
  obtain ⟨f, s₂, L₂, h₂, hfill₂, hsingle₂, hf, hmax₂, hst₂, -⟩ :=
    hfill₁.loadLoop_eq (p := 2048) (n := listBound) (by rwa [hmax₁]) (by rwa [hmax₁]) (by decide)
      (by decide) (by rw [hmax₁]; exact hfirst) (by
        rw [hmax₁, listBound]
        simp only [UInt32.reduceToNat]
        omega)
  rw [hmax₁] at hf
  have hfill₂' : Filled { s₂ with singelPageFirstNo := f } L₂ f.toNat :=
    ⟨⟨hfill₂.holds.buddy, hfill₂.holds.single, hfill₂.holds.apart, hfill₂.holds.apartSingle⟩,
      hfill₂.covered, hfill₂.numbered, hfill₂.unlinked, hfill₂.aligned⟩
  refine ⟨f, { s₂ with singelPageFirstNo := f }, L₂, ?_, hfill₂', hsingle₂.trans hsingle₁, hf, rfl,
    hmax₂.trans hmax₁, hst₂.trans hst₁⟩
  simp only [loadBlocks, h₁, h₂, Option.bind_eq_bind, Option.bind_some]

/-- **`pmm_page_init`** ends, and its lists cover each page below `pmm_max_page_no` once; with
fewer than 2048 pages they also cover the pages from there up to 2048. -/
theorem pageInit_eq (s : Pmm) (hs : s.singleLink = none) (hge : 1024 ≤ s.maxPageNo.toNat)
    (hmax : s.maxPageNo.toNat ≤ 2 ^ 20) :
    ∃ t L, s.pageInit = some t ∧ Filled t L (max 2048 s.maxPageNo.toNat) ∧
      (∀ k, ∀ p ∈ L.buddy k, p.toNat + 2 ^ k.val ≤ t.singelPageFirstNo.toNat) ∧
      (∀ p ∈ L.single, t.singelPageFirstNo ≤ p ∧ p < s.maxPageNo) ∧
      t.singelPageFirstNo.toNat = singelFirst s.maxPageNo.toNat ∧
      t.maxPageNo = s.maxPageNo ∧ t.pageStart = s.pageStart := by
  obtain ⟨f, s₂, L₂, h₂, hfill₂, hsingle, hf, hf₂, hm, hst₂⟩ := loadBlocks_eq s hs hge hmax
  obtain ⟨t, L, ht, hfill, hb, hmem, hmax₃, hst₃, hf₃⟩ :=
    hfill₂.singleLoop_eq (n := listBound) (by rw [hm]; exact hmax) none
      (Or.inl hsingle) (by rw [hm, listBound]; omega) (by decide)
  rw [hf₂] at hf₃
  have hend : max f.toNat s₂.maxPageNo.toNat = max 2048 s.maxPageNo.toNat := by
    rw [hf, hm, singelFirst]
    omega
  refine ⟨t, L, ?_, hend ▸ hfill, ?_, ?_, by rw [hf₃, hf], hmax₃.trans hm, hst₃.trans hst₂⟩
  · rw [pageInit_eq_loadBlocks, h₂, Option.bind_some, ht]
  · intro k p hp
    rw [hf₃]
    exact hfill₂.buddy_le (hb ▸ hp)
  · intro p hp
    rw [hf₃, ← hm]
    rcases hmem p hp with hp | hp
    · rw [hsingle] at hp
      cases hp
    · exact hp

/-- With at least 2048 pages the allocator is well formed after `pmm_page_init`, and every page
is free. -/
theorem pageInit_sound (s : Pmm) (hs : s.singleLink = none) (hge : 2048 ≤ s.maxPageNo.toNat)
    (hmax : s.maxPageNo.toNat ≤ 2 ^ 20) :
    ∃ t L, s.pageInit = some t ∧ Sound t L ∧ t.maxPageNo = s.maxPageNo ∧
      cover L.blocks = Multiset.range s.maxPageNo.toNat := by
  obtain ⟨t, L, ht, hfill, hb, hsg, hf, hm, -⟩ := pageInit_eq s hs (by omega) hmax
  rw [max_eq_right hge] at hfill
  refine ⟨t, L, ht, ⟨hfill.holds, hfill.numbered, hm ▸ hmax, ?_, ?_, ?_,
    fun p hp => hm ▸ hsg p hp⟩, hm, hfill.covered⟩
  · rw [hf, hm, singelFirst]
    omega
  · rw [hf, singelFirst]
    omega
  · intro k p hp
    exact ⟨hfill.aligned k p hp, hb k p hp⟩

/-! ### What the lists share out -/

/-- The buddy lists and the single page buffer are null-terminated and share out the pages below
`n`: every page number occurs once in what they cover. -/
structure Partitions (t : Pmm) (L : Lists) (n : ℕ) : Prop where
  buddy : ∀ k, IsList t.next (t.multiLink k) (L.buddy k)
  single : IsList t.next t.singleLink L.single
  numbered : ∀ p < t.maxPageNo, (t.pageArray p).pageNo = p
  covered : cover L.blocks = Multiset.range n
  aligned : ∀ k, ∀ p ∈ L.buddy k, 2 ^ k.val ∣ p.toNat
  below : ∀ k, ∀ p ∈ L.buddy k, p.toNat + 2 ^ k.val ≤ t.singelPageFirstNo.toNat
  above : ∀ p ∈ L.single, t.singelPageFirstNo ≤ p
  few : L.single.length ≤ 1024

/-- A list of different numbers between two bounds is no longer than their distance. -/
theorem length_le_of_bounds {l : List UInt32} (hnd : l.Nodup) {a b : ℕ}
    (hl : ∀ p ∈ l, a ≤ p.toNat ∧ p.toNat < b) : l.length ≤ b - a := by
  have hnd' : (l.map UInt32.toNat).Nodup :=
    hnd.map fun p q h => UInt32.toNat_inj.mp h
  have hsub : (l.map UInt32.toNat).toFinset ⊆ Finset.Ico a b := by
    intro x hx
    obtain ⟨p, hp, rfl⟩ := List.mem_map.mp (List.mem_toFinset.mp hx)
    exact Finset.mem_Ico.mpr (hl p hp)
  have hcard := Finset.card_le_card hsub
  rwa [List.toFinset_card_of_nodup hnd', List.length_map, Nat.card_Ico] at hcard

/-- With between 2048 and 2^20 pages `pmm_page_init` ends with every page in one block of the buddy
lists or in the single page buffer. -/
theorem pageInit_partitions (s : Pmm) (hs : s.singleLink = none) (hge : 2048 ≤ s.maxPageNo.toNat)
    (hmax : s.maxPageNo.toNat ≤ 2 ^ 20) :
    ∃ t L, s.pageInit = some t ∧ t.maxPageNo = s.maxPageNo ∧
      Partitions t L s.maxPageNo.toNat := by
  obtain ⟨t, L, ht, hfill, hbelow, habove, hfirst, hm, -⟩ := pageInit_eq s hs (by omega) hmax
  rw [max_eq_right hge] at hfill
  refine ⟨t, L, ht, hm, hfill.holds.buddy, hfill.holds.single, hfill.numbered, hfill.covered, ?_,
    hbelow, fun p hp => (habove p hp).1, ?_⟩
  · intro k p hp
    exact Nat.dvd_of_mod_eq_zero (hfill.aligned k p hp)
  · have hlen : L.single.length ≤ s.maxPageNo.toNat - t.singelPageFirstNo.toNat := by
      apply length_le_of_bounds hfill.holds.single.nodup
      intro p hp
      exact ⟨UInt32.le_iff_toNat_le.mp (habove p hp).1, UInt32.lt_iff_toNat_lt.mp (habove p hp).2⟩
    rw [hfirst, singelFirst] at hlen
    omega

end Pmm
end BHOS
