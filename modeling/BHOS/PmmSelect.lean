import Mathlib.Data.Nat.Log
import BHOS.PmmBlocks

/-! # Which block an allocation takes

`FreeLists s L` says that the eleven lists of a state are the sequences `L` of page descriptors;
nothing is asked of where the blocks lie.  `pmm_alloc_pages` then takes the last block of the first
list that is not empty, from the class of the request on, and `pmm_alloc_one_page` does so only
when the single page buffer is empty. -/

namespace BHOS

open Linked

/-- The loop counts the binary digits. -/
theorem countBits_eq {k n : ℕ} {p c : UInt32} (hlo : 2 ^ k ≤ p.toNat) (hhi : p.toNat < 2 ^ (k + 1))
    (hn : k < n) : Pmm.countBits n p c = c + UInt32.ofNat (k + 1) := by
  induction k generalizing n p c with
  | zero =>
      obtain ⟨m, rfl⟩ := Nat.exists_eq_add_of_lt hn
      have hp : p = 1 := UInt32.toNat_inj.mp (by
        show p.toNat = 1
        omega)
      subst hp
      rw [Pmm.countBits]
      cases 0 + m <;> rfl
  | succ k ih =>
      obtain ⟨m, rfl⟩ : ∃ m, n = m + 1 := ⟨n - 1, by omega⟩
      have hp : p ≠ 0 := by
        rintro rfl
        have hpos := Nat.two_pow_pos (k + 1)
        rw [UInt32.toNat_zero] at hlo
        omega
      have hhalf : (p >>> 1).toNat = p.toNat / 2 := by
        rw [UInt32.toNat_shiftRight, Nat.shiftRight_eq_div_pow]
        rfl
      rw [Pmm.countBits, if_pos hp, ih (by omega) (by omega) (by omega)]
      rw [UInt32.ofNat_add (k + 1) 1, UInt32.add_assoc, UInt32.add_comm 1]
      rfl

/-- `origin_ph` is the number of binary digits, one less for a power of two. -/
theorem originPh_eq {k : ℕ} {n : UInt32} (hk : k ≤ 10) (hlo : 2 ^ k ≤ n.toNat)
    (hhi : n.toNat < 2 ^ (k + 1)) :
    (Pmm.originPh n).toNat = if n.toNat = 2 ^ k then k else k + 1 := by
  have hcount : Pmm.countBits 33 n 0 = UInt32.ofNat (k + 1) :=
    (countBits_eq hlo hhi (by omega)).trans (UInt32.zero_add _)
  have hpred : UInt32.ofNat (k + 1) - 1 = UInt32.ofNat k := by
    rw [UInt32.ofNat_add, UInt32.sub_eq_iff_eq_add]
    rfl
  have hpow : n = 1 <<< UInt32.ofNat k ↔ n.toNat = 2 ^ k := by
    rw [← cToUint32_toNat hk, UInt32.toNat_inj]
    rfl
  unfold Pmm.originPh
  simp only [hcount, hpred, hpow]
  split_ifs
  · exact UInt32.toNat_ofNat_of_lt' (lt_of_le_of_lt hk (by decide))
  · exact UInt32.toNat_ofNat_of_lt' (lt_of_le_of_lt (Nat.succ_le_succ hk) (by decide))

/-- The class of a request is the smallest whose blocks are large enough. -/
theorem originPh_spec {n : UInt32} (h0 : n ≠ 0) (h : n.toNat ≤ 1024) :
    (Pmm.originPh n).toNat ≤ 10 ∧ n.toNat ≤ 2 ^ (Pmm.originPh n).toNat ∧
      2 ^ (Pmm.originPh n).toNat < 2 * n.toNat := by
  have hn : n.toNat ≠ 0 := fun e => h0 (UInt32.toNat_inj.mp e)
  obtain ⟨k, hk⟩ : ∃ k, k = Nat.log 2 n.toNat := ⟨_, rfl⟩
  have hlo : 2 ^ k ≤ n.toNat := hk ▸ Nat.pow_log_le_self 2 hn
  have hhi : n.toNat < 2 ^ (k + 1) := hk ▸ Nat.lt_pow_succ_log_self (by decide) n.toNat
  have hk10 : k ≤ 10 := (Nat.pow_le_pow_iff_right (by decide)).mp (hlo.trans h)
  rw [originPh_eq hk10 hlo hhi]
  split_ifs with hpow
  · omega
  · have hlt : k < 10 := (Nat.pow_lt_pow_iff_right (by decide)).mp
      ((lt_of_le_of_ne hlo (Ne.symm hpow)).trans_le h)
    omega

theorem originPh_eq_clog {n : UInt32} (h0 : n ≠ 0) (h : n.toNat ≤ 1024) :
    (Pmm.originPh n).toNat = Nat.clog 2 n.toNat := by
  obtain ⟨-, hle, hlt⟩ := originPh_spec h0 h
  refine le_antisymm ?_ (Nat.clog_le_of_le_pow hle)
  by_contra hn
  have hpow : 2 ^ (Nat.clog 2 n.toNat + 1) ≤ 2 ^ (Pmm.originPh n).toNat :=
    Nat.pow_le_pow_right (by decide) (by omega)
  have hceil := Nat.le_pow_clog (b := 2) (by decide) n.toNat
  rw [pow_succ] at hpow
  omega

namespace Pmm

variable {s t : Pmm} {L : Fin 11 → List UInt32} {k : Fin 11} {p a : UInt32} {c : PageC}
  {l S : List UInt32} {n : ℕ} {pageCount : UInt32}

/-- The eleven lists are null-terminated lists of distinct page descriptors, numbered as
`pmm_page_init` numbers them. -/
structure FreeLists (s : Pmm) (L : Fin 11 → List UInt32) : Prop where
  lists : ∀ k, IsList s.next (s.multiLink k) (L k)
  apart : ∀ j k, j ≠ k → ∀ p ∈ L j, p ∉ L k
  numbered : ∀ k, ∀ p ∈ L k, p < s.maxPageNo ∧ (s.pageArray p).pageNo = p

theorem Sound.freeLists {L : Lists} (h : Sound s L) : FreeLists s L.buddy :=
  ⟨h.holds.buddy, h.holds.apart, fun _ _ hp => ⟨h.buddy_lt hp, h.pageNo_buddy hp⟩⟩

/-! ### `pop_block` -/

theorem frame_cutLast (s : Pmm) (k : Fin 11) (l : List UInt32) : Frame l s (s.cutLast k l) := by
  unfold cutLast
  cases h : l.getLast? with
  | none => exact frame_setMulti s k none
  | some a => exact frame_setNext s (List.mem_of_getLast? h) none

theorem multiLink_cutLast_of_ne {j : Fin 11} (hj : j ≠ k) :
    (s.cutLast k l).multiLink j = s.multiLink j := by
  unfold cutLast
  cases l.getLast? with
  | none => exact Function.update_of_ne hj _ _
  | some a => rfl

theorem isList_cutLast (hl : IsList s.next (s.multiLink k) (l ++ [p])) :
    IsList (s.cutLast k l).next ((s.cutLast k l).multiLink k) l := by
  unfold cutLast
  rcases l.eq_nil_or_concat' with rfl | ⟨l, a, rfl⟩
  · exact Function.update_self k none s.multiLink
  · rw [List.getLast?_concat]
    show IsList (s.setNext a none).next (s.multiLink k) (l ++ [a])
    rw [next_setNext]
    rw [List.append_assoc, List.singleton_append] at hl
    exact hl.cut

/-- The lists without that block. -/
theorem FreeLists.cutLast (h : FreeLists s L) (hl : L k = l ++ [p]) :
    FreeLists (s.cutLast k l) (Function.update L k l) := by
  have hmem : ∀ j, ∀ q ∈ Function.update L k l j, q ∈ L j := by
    intro j q hq
    by_cases hj : j = k
    · subst hj
      rw [Function.update_self] at hq
      simp [hl, hq]
    · rwa [Function.update_of_ne hj] at hq
  have hframe := s.frame_cutLast k l
  refine ⟨?_, fun i j hij q hi hj => h.apart i j hij q (hmem i q hi) (hmem j q hj), ?_⟩
  · intro j
    by_cases hj : j = k
    · subst hj
      rw [Function.update_self]
      exact isList_cutLast (hl ▸ h.lists j)
    · rw [Function.update_of_ne hj, multiLink_cutLast_of_ne hj]
      refine (h.lists j).congr fun q hq => hframe.next q ?_
      intro hql
      exact h.apart j k hj q hq (hl ▸ List.mem_append_left [p] hql)
  · intro j q hq
    rw [hframe.maxPageNo, hframe.pageNo]
    exact h.numbered j q (hmem j q hq)

/-! ### The search for a list that is not empty -/

theorem FreeLists.ne_erro (h : FreeLists s L) (hp : p ∈ L k) : p ≠ erroPopBlock := by
  rintro rfl
  have hlt := UInt32.lt_iff_toNat_lt.mp (h.numbered k _ hp).1
  have hmax := s.maxPageNo.toNat_lt
  have he : erroPopBlock.toNat = 2 ^ 32 - 1 := rfl
  omega

/-- The first list that is not empty, from a class on. -/
structure FirstFrom (L : Fin 11 → List UInt32) (m : ℕ) (k : Fin 11) : Prop where
  le : m ≤ k.val
  nonempty : L k ≠ []
  before : ∀ j : Fin 11, m ≤ j.val → j < k → L j = []

theorem exists_firstFrom {m : ℕ} (h : ¬ ∀ j : Fin 11, m ≤ j.val → L j = []) :
    ∃ k, FirstFrom L m k := by
  push Not at h
  obtain ⟨j, hj, hne⟩ := h
  obtain ⟨k, ⟨hk, hkne⟩, hmin⟩ := WellFounded.has_min (r := (· < ·)) wellFounded_lt
    {j : Fin 11 | m ≤ j.val ∧ L j ≠ []} ⟨j, hj, hne⟩
  refine ⟨k, hk, hkne, ?_⟩
  intro i hi hik
  by_contra hne'
  exact hmin i ⟨hi, hne'⟩ hik

/-- `pop_block` takes the last block of the first list that is not empty. -/
theorem FreeLists.popFrom_first (h : FreeLists s L) (hk : FirstFrom L c.toNat k)
    (hl : L k = l ++ [p]) (hn : k.val < n + c.toNat) :
    ∃ c', popFrom n c s = some (p, c', s.cutLast k l) ∧ listOf c' = some k := by
  induction n generalizing c with
  | zero =>
      have hle := hk.le
      omega
  | succ n ih =>
      have hlt : c < erro := UInt32.lt_iff_toNat_lt.mpr (lt_of_le_of_lt hk.le k.isLt)
      unfold popFrom
      rw [if_pos hlt]
      by_cases hc : c.toNat = k.val
      · have hcl : listOf c = some k := by
          rw [listOf_lt (by omega)]
          exact congrArg some (Fin.ext hc)
        have hp : p ∈ L k := by simp [hl]
        refine ⟨c, ?_, hcl⟩
        rw [popBlock_eq hcl (hl ▸ h.lists k), (h.numbered k p hp).2]
        simp only [Option.bind_eq_bind, Option.bind_some, ne_eq, h.ne_erro hp, not_false_eq_true,
          if_true]
      · have hle := hk.le
        have hcl := listOf_lt (show c.toNat < 11 by omega)
        have hempty := hk.before ⟨c.toNat, by omega⟩ le_rfl (Fin.lt_def.mpr (lt_of_le_of_ne hle hc))
        have hadd : (c + 1).toNat = c.toNat + 1 := by
          simp only [UInt32.toNat_add, UInt32.reduceToNat]
          omega
        have hk' : FirstFrom L (c + 1).toNat k :=
          ⟨by omega, hk.nonempty, fun j hj hjk => hk.before j (by omega) hjk⟩
        obtain ⟨c', hpop, hc'⟩ := ih hk' (by omega)
        refine ⟨c', ?_, hc'⟩
        rw [popBlock_empty hcl ((h.lists _).eq_nil_iff.mp hempty)]
        simp only [Option.bind_eq_bind, Option.bind_some, ne_eq, not_true_eq_false, if_false, hpop]

theorem popFrom_empty (h : ∀ j : Fin 11, c.toNat ≤ j.val → s.multiLink j = none) :
    ∃ c', popFrom n c s = some (erroPopBlock, c', s) := by
  induction n generalizing c with
  | zero => exact ⟨c, rfl⟩
  | succ n ih =>
      unfold popFrom
      by_cases hlt : c < erro
      · have hlt' : c.toNat < 11 := UInt32.lt_iff_toNat_lt.mp hlt
        have hadd : (c + 1).toNat = c.toNat + 1 := by
          simp only [UInt32.toNat_add, UInt32.reduceToNat]
          omega
        obtain ⟨c', hc'⟩ := ih (c := c + 1) fun j hj => h j (by omega)
        refine ⟨c', ?_⟩
        rw [if_pos hlt, popBlock_empty (listOf_lt hlt') (h ⟨c.toNat, hlt'⟩ le_rfl)]
        simp only [Option.bind_eq_bind, Option.bind_some, ne_eq, not_true_eq_false, if_false, hc']
      · exact ⟨c, by rw [if_neg hlt]⟩

/-! ### `alloc_helper` -/

/-- `alloc_helper` with any way to put the remainders away. -/
def allocHelperWith (append : UInt32 → PageC → Pmm → Option Pmm) (targetPh : PageC) :
    ℕ → PageC → UInt32 → Pmm → Option (UInt32 × Pmm)
  | 0, _, _, _ => none
  | n + 1, popPh, popPageNo, s =>
      if popPh ≠ targetPh then do
        let appendPageNo := popPageNo + cToUint32 popPh / 2
        let s ← append appendPageNo (popPageNo - 1) s
        allocHelperWith append targetPh n (popPh - 1) popPageNo s
      else some (popPageNo, s)

theorem allocHelperWith_appendBlock (targetPh : PageC) (n : ℕ) (c : PageC) (p : UInt32) (s : Pmm) :
    allocHelperWith (fun q c u => u.appendBlock q c) targetPh n c p s =
      allocHelper targetPh n c p s := by
  induction n generalizing c s with
  | zero => rfl
  | succ n ih =>
      unfold allocHelperWith allocHelper
      simp only [ih]

section remainders

variable {append : UInt32 → PageC → Pmm → Option Pmm} {targetPh : PageC} {q : UInt32}

/-- `alloc_helper` returns the block that was popped, whatever it does with the remainders. -/
theorem allocHelperWith_returns (hstart : ∀ q c u v, append q c u = some v →
    v.pageStart = u.pageStart) (h : allocHelperWith append targetPh n c p s = some (q, t)) :
    q = p ∧ t.pageStart = s.pageStart := by
  induction n generalizing c s with
  | zero => cases h
  | succ n ih =>
      unfold allocHelperWith at h
      by_cases hc : c ≠ targetPh
      · rw [if_pos hc] at h
        obtain ⟨u, hu, h⟩ := Option.bind_eq_some_iff.mp h
        obtain ⟨hq, ht⟩ := ih h
        exact ⟨hq, ht.trans (hstart _ _ _ _ hu)⟩
      · rw [if_neg hc] at h
        obtain ⟨rfl, rfl⟩ := Prod.mk.inj (Option.some.inj h)
        exact ⟨rfl, rfl⟩

/-- Every remainder is put away with the class `pop_page_no-1`. -/
theorem allocHelperWith_congr {append' : UInt32 → PageC → Pmm → Option Pmm}
    (h : ∀ q u, append q (p - 1) u = append' q (p - 1) u) :
    allocHelperWith append targetPh n c p s = allocHelperWith append' targetPh n c p s := by
  induction n generalizing c s with
  | zero => rfl
  | succ n ih =>
      unfold allocHelperWith
      simp only [h, ih]

/-- A way to put remainders away that succeeds more often. -/
theorem allocHelperWith_mono {append' : UInt32 → PageC → Pmm → Option Pmm}
    (happend : ∀ q c u v, append q c u = some v → append' q c u = some v)
    (h : allocHelperWith append targetPh n c p s = some (q, t)) :
    allocHelperWith append' targetPh n c p s = some (q, t) := by
  induction n generalizing c s with
  | zero => cases h
  | succ n ih =>
      unfold allocHelperWith at h ⊢
      by_cases hc : c ≠ targetPh
      · rw [if_pos hc] at h ⊢
        obtain ⟨u, hu, h⟩ := Option.bind_eq_some_iff.mp h
        exact Option.bind_eq_some_iff.mpr ⟨u, happend _ _ _ _ hu, ih h⟩
      · rwa [if_neg hc] at h ⊢

/-- When the remainders can be put away, `alloc_helper` ends. -/
theorem allocHelperWith_isSome (happend : ∀ q c u, ∃ v, append q c u = some v)
    (hle : targetPh.toNat ≤ c.toNat) (hn : c.toNat < n + targetPh.toNat) :
    ∃ r, allocHelperWith append targetPh n c p s = some r := by
  induction n generalizing c s with
  | zero => omega
  | succ n ih =>
      unfold allocHelperWith
      by_cases hc : c ≠ targetPh
      · have hne : c.toNat ≠ targetPh.toNat := fun e => hc (UInt32.toNat_inj.mp e)
        have hone : (1 : UInt32) ≤ c := UInt32.le_iff_toNat_le.mpr (by
          simp only [UInt32.reduceToNat]
          omega)
        have hsub : (c - 1).toNat = c.toNat - 1 := UInt32.toNat_sub_of_le _ _ hone
        obtain ⟨u, hu⟩ := happend (p + cToUint32 c / 2) (p - 1) s
        obtain ⟨r, hr⟩ := ih (c := c - 1) (s := u) (by omega) (by omega)
        refine ⟨r, ?_⟩
        rw [if_pos hc]
        simp only [hu, Option.bind_eq_bind, Option.bind_some, hr]
      · rw [if_neg hc]
        exact ⟨_, rfl⟩

end remainders

/-! ### `pmm_alloc_pages` and `pmm_alloc_one_page` -/

/-- The requests that cannot be served. -/
def Refused (L : Fin 11 → List UInt32) (pageCount : UInt32) : Prop :=
  pageCount = 0 ∨ pageCount > 1024 ∨
    ∀ k : Fin 11, Nat.clog 2 pageCount.toNat ≤ k.val → L k = []

theorem refused_one : Refused L 1 ↔ ∀ k, L k = [] := by
  have hclog : Nat.clog 2 (1 : UInt32).toNat = 0 := Nat.clog_one_right 2
  unfold Refused
  rw [hclog]
  constructor
  · intro hr k
    exact (hr.resolve_left (by decide)).resolve_left (by decide) k (Nat.zero_le _)
  · intro hall
    exact Or.inr (Or.inr fun k _ => hall k)

theorem FreeLists.allocPages_refused (h : FreeLists s L) (hr : Refused L pageCount) :
    s.allocPages pageCount = some (failed, s) := by
  unfold allocPages
  by_cases hb : pageCount > 1024 ∨ pageCount = 0
  · rw [if_pos hb]
  · rw [if_neg hb]
    rw [not_or, gt_iff_lt, UInt32.not_lt, UInt32.le_iff_toNat_le] at hb
    have hempty := (hr.resolve_left hb.2).resolve_left fun hgt =>
      absurd (UInt32.lt_iff_toNat_lt.mp hgt) (Nat.not_lt.mpr hb.1)
    rw [← originPh_eq_clog hb.2 hb.1] at hempty
    obtain ⟨c', hc'⟩ := popFrom_empty (n := 12) fun j hj =>
      (h.lists j).eq_nil_iff.mp (hempty j hj)
    rw [hc']
    simp only [Option.bind_eq_bind, Option.bind_some, if_true]

/-- `pmm_alloc_pages` with any way to put the remainders away. -/
def allocPagesWith (s : Pmm) (append : UInt32 → PageC → Pmm → Option Pmm) (pageCount : UInt32) :
    Option (PmAlloc × Pmm) :=
  if pageCount > 1024 ∨ pageCount = 0 then some (failed, s)
  else do
    let (popPageNo, ph, s) ← popFrom 12 (originPh pageCount) s
    if popPageNo = erroPopBlock then some (failed, s)
    else
      let (targetPageNo, s) ← allocHelperWith append (originPh pageCount) 12 ph popPageNo s
      some (⟨s.pageNoToAddr targetPageNo, originPh pageCount, 1⟩, s)

theorem allocPagesWith_mono {append append' : UInt32 → PageC → Pmm → Option Pmm}
    {r : PmAlloc × Pmm} (happend : ∀ q c u v, append q c u = some v → append' q c u = some v)
    (h : s.allocPagesWith append pageCount = some r) :
    s.allocPagesWith append' pageCount = some r := by
  unfold allocPagesWith at h ⊢
  by_cases hbound : pageCount > 1024 ∨ pageCount = 0
  · rwa [if_pos hbound] at h ⊢
  · rw [if_neg hbound] at h ⊢
    obtain ⟨⟨p, c, u⟩, hu, h⟩ := Option.bind_eq_some_iff.mp h
    refine Option.bind_eq_some_iff.mpr ⟨(p, c, u), hu, ?_⟩
    by_cases hp : p = erroPopBlock
    · simpa only [hp, if_true] using h
    · simp only [if_neg hp] at h ⊢
      obtain ⟨⟨q, v⟩, hv, h⟩ := Option.bind_eq_some_iff.mp h
      exact Option.bind_eq_some_iff.mpr ⟨(q, v), allocHelperWith_mono happend hv, h⟩

theorem allocPagesWith_appendBlock (s : Pmm) (pageCount : UInt32) :
    s.allocPagesWith (fun q c u => u.appendBlock q c) pageCount = s.allocPages pageCount := by
  unfold allocPagesWith allocPages
  simp only [allocHelperWith_appendBlock]

/-- The request takes the last block `p` off the list of class `k`, the first from its class on
that is not empty. -/
structure Picks (s : Pmm) (L : Fin 11 → List UInt32) (pageCount : UInt32) (k : Fin 11)
    (l : List UInt32) (p : UInt32) (c : PageC) : Prop where
  first : FirstFrom L (Nat.clog 2 pageCount.toNat) k
  last : L k = l ++ [p]
  listOf_eq : listOf c = some k
  size : (originPh pageCount).toNat = Nat.clog 2 pageCount.toNat
  popped : popFrom 12 (originPh pageCount) s = some (p, c, s.cutLast k l)
  lists : FreeLists (s.cutLast k l) (Function.update L k l)

theorem FreeLists.exists_picks (h : FreeLists s L) (hr : ¬ Refused L pageCount) :
    ∃ k l p c, Picks s L pageCount k l p c := by
  unfold Refused at hr
  rw [not_or, not_or, gt_iff_lt, UInt32.not_lt, UInt32.le_iff_toNat_le] at hr
  obtain ⟨h0, h1024, hne⟩ := hr
  have hclog := originPh_eq_clog h0 h1024
  obtain ⟨k, hk⟩ := exists_firstFrom hne
  rcases (L k).eq_nil_or_concat' with hnil | ⟨l, p, hl⟩
  · exact absurd hnil hk.nonempty
  · obtain ⟨c, hpop, hc⟩ := h.popFrom_first (n := 12) (c := originPh pageCount) (hclog ▸ hk) hl
      (by have := k.isLt; omega)
    exact ⟨k, l, p, c, hk, hl, hc, hclog, hpop, h.cutLast hl⟩

/-- The block that was picked is returned, whatever is done with the remainders. -/
theorem FreeLists.allocPagesWith_eq (h : FreeLists s L) (hr : ¬ Refused L pageCount)
    (hp : Picks s L pageCount k l p c) {append : UInt32 → PageC → Pmm → Option Pmm}
    (hstart : ∀ q c u v, append q c u = some v → v.pageStart = u.pageStart) :
    s.allocPagesWith append pageCount =
      (allocHelperWith append (originPh pageCount) 12 c p (s.cutLast k l)).map
        fun r => (⟨s.pageNoToAddr p, originPh pageCount, 1⟩, r.2) := by
  have hb : ¬ (pageCount > 1024 ∨ pageCount = 0) := fun hb =>
    hr (hb.elim (fun hgt => Or.inr (Or.inl hgt)) Or.inl)
  have hmem : p ∈ L k := by simp [hp.last]
  unfold allocPagesWith
  rw [if_neg hb, hp.popped]
  simp only [Option.bind_eq_bind, Option.bind_some, if_neg (h.ne_erro hmem)]
  cases hh : allocHelperWith append (originPh pageCount) 12 c p (s.cutLast k l) with
  | none => rfl
  | some r =>
      obtain ⟨q, t⟩ := r
      obtain ⟨rfl, ht⟩ := allocHelperWith_returns hstart hh
      have haddr : t.pageNoToAddr q = s.pageNoToAddr q := by
        unfold pageNoToAddr
        rw [ht, (s.frame_cutLast k l).pageStart]
      simp only [Option.bind_some, Option.map_some, haddr]

/-- A page of the single page buffer is handed out, and the lists are left alone. -/
theorem allocOnePage_single (hS : IsList s.next s.singleLink S) (hne : S ≠ []) :
    ∃ d t, s.allocOnePage = some (d, t) ∧ d.state = 1 ∧ t.multiLink = s.multiLink ∧
      ∀ p ∉ S, t.next p = s.next p := by
  have hlen := length_le_listBound hS
  obtain ⟨header, hd⟩ := hS.exists_head hne
  rw [hd] at hS
  rcases S.eq_nil_or_concat' with hnil | ⟨l, p, rfl⟩
  · exact absurd hnil hne
  · unfold allocOnePage
    simp only [hd]
    rcases l.eq_nil_or_concat' with rfl | ⟨l, a, rfl⟩
    · obtain rfl : header = p := Option.some.inj hS.1
      have hn : s.next header = none := hS.2
      rw [if_pos hn]
      exact ⟨_, _, rfl, rfl, rfl, fun _ _ => rfl⟩
    · rw [List.append_assoc, List.singleton_append] at hS hlen
      have ha : s.next a = some p := hS.next_of_split
      rw [if_neg hS.next_head_ne_none, hS.seek_before_last (by simp at hlen; omega)]
      simp only [Option.bind_eq_bind, Option.bind_some, ha]
      refine ⟨_, _, rfl, rfl, rfl, ?_⟩
      intro q hq
      have hqa : q ≠ a := fun e => hq (by simp [e])
      rw [next_setNext, Function.update_of_ne hqa]

/-- **Selection and completeness of allocation.**  A request is refused, with the state as it was,
exactly when no list from its class on has a block; otherwise it takes the last block of the first
such list off that list, and returns it when the remainders are put away, however that is done.  A
single page comes from the lists only when the single page buffer is empty. -/
theorem alloc_selects (s : Pmm) (L : Fin 11 → List UInt32) (h : FreeLists s L) :
    (∀ n, Refused L n → s.allocPages n = some (failed, s)) ∧
    (∀ n, ¬ Refused L n → ∃ k l p c, Picks s L n k l p c ∧
      (s.allocPages n = (allocHelper (originPh n) 12 c p (s.cutLast k l)).map
        fun r => (⟨s.pageNoToAddr p, originPh n, 1⟩, r.2)) ∧
      ∀ append : UInt32 → PageC → Pmm → Option Pmm,
        (∀ q c u, ∃ v, append q c u = some v ∧ v.pageStart = u.pageStart) →
        ∃ t, s.allocPagesWith append n = some (⟨s.pageNoToAddr p, originPh n, 1⟩, t)) ∧
    (∀ n d t, s.allocPages n = some (d, t) → (d.state = 0 ↔ Refused L n)) ∧
    ∀ S, IsList s.next s.singleLink S →
      (S ≠ [] → ∃ d t, s.allocOnePage = some (d, t) ∧ d.state = 1 ∧
        t.multiLink = s.multiLink ∧ ∀ p ∉ S, t.next p = s.next p) ∧
      (S = [] → s.allocOnePage = s.allocPages 1) ∧
      ∀ d t, s.allocOnePage = some (d, t) → (d.state = 0 ↔ S = [] ∧ ∀ k, L k = []) := by
  have hserved : ∀ n, ¬ Refused L n → ∀ d t, s.allocPages n = some (d, t) → d.state = 1 := by
    intro n hr d t hd
    obtain ⟨k, l, p, c, hp⟩ := h.exists_picks hr
    rw [← allocPagesWith_appendBlock,
      h.allocPagesWith_eq hr hp fun _ _ _ _ hv => (appendBlock_sameRange hv).pageStart] at hd
    obtain ⟨r, -, hd⟩ := Option.map_eq_some_iff.mp hd
    exact (Prod.mk.inj hd).1 ▸ rfl
  have hstate : ∀ n d t, s.allocPages n = some (d, t) → (d.state = 0 ↔ Refused L n) := by
    intro n d t hd
    by_cases hr : Refused L n
    · obtain ⟨rfl, -⟩ := Prod.mk.inj (Option.some.inj (hd.symm.trans (h.allocPages_refused hr)))
      exact iff_of_true rfl hr
    · rw [hserved n hr d t hd]
      exact iff_of_false (by decide) hr
  refine ⟨fun n hr => h.allocPages_refused hr, ?_, hstate, fun S hS => ⟨fun hne =>
    allocOnePage_single hS hne, ?_, ?_⟩⟩
  · intro n hr
    obtain ⟨k, l, p, c, hp⟩ := h.exists_picks hr
    refine ⟨k, l, p, c, hp, ?_, ?_⟩
    · rw [← allocPagesWith_appendBlock,
        h.allocPagesWith_eq hr hp fun _ _ _ _ hv => (appendBlock_sameRange hv).pageStart]
      simp only [allocHelperWith_appendBlock]
    · intro append happend
      have hc := listOf_eq hp.listOf_eq
      have hfirst := hp.first.le
      have hk := k.isLt
      obtain ⟨r, hr'⟩ : ∃ r, allocHelperWith append (originPh n) 12 c p (s.cutLast k l) = some r :=
        allocHelperWith_isSome (fun q c u => (happend q c u).imp fun _ hv => hv.1)
          (by rw [hp.size]; omega) (by omega)
      rw [h.allocPagesWith_eq hr hp fun q c u v hv => by
        obtain ⟨v', hv', he⟩ := happend q c u
        exact Option.some.inj (hv.symm.trans hv') ▸ he, hr']
      exact ⟨_, rfl⟩
  · intro hnil
    unfold allocOnePage
    rw [hS.eq_nil_iff.mp hnil]
  · intro d t hd
    by_cases hnil : S = []
    · have hlink := hS.eq_nil_iff.mp hnil
      have hd' : s.allocPages 1 = some (d, t) := by
        unfold allocOnePage at hd
        rwa [hlink] at hd
      rw [hstate 1 d t hd']
      exact refused_one.trans (and_iff_right hnil).symm
    · obtain ⟨d', t', hd', hst, -⟩ := allocOnePage_single hS hnil
      obtain ⟨rfl, rfl⟩ := Prod.mk.inj (Option.some.inj (hd.symm.trans hd'))
      rw [hst]
      exact iff_of_false (by decide) fun hn => hnil hn.1

/-- Free blocks of 2 pages from page 2 and from page 6 on and of 8 pages from page 8 and from page
24 on. -/
def mixedLists (k : Fin 11) : List UInt32 :=
  if k.val = 1 then [2, 6] else if k.val = 3 then [8, 24] else []

/-- A state with these lists and the pages 40 and 41 in the single page buffer. -/
def mixed : Pmm :=
  { Pmm.zero with
    maxPageNo := 64
    singleLink := some 40
    pageArray := fun i =>
      ⟨i, if i = 2 then some 6 else if i = 8 then some 24 else if i = 40 then some 41 else none, 1⟩
    multiLink := fun k => if k.val = 1 then some 2 else if k.val = 3 then some 8 else none }

theorem freeLists_mixed : FreeLists mixed mixedLists := by
  have hmem : ∀ (k : Fin 11) (p : UInt32), p ∈ mixedLists k →
      k.val = 1 ∧ (p = 2 ∨ p = 6) ∨ k.val = 3 ∧ (p = 8 ∨ p = 24) := by
    intro k p hp
    unfold mixedLists at hp
    split_ifs at hp with h1 h3
    · exact Or.inl ⟨h1, by simpa using hp⟩
    · exact Or.inr ⟨h3, by simpa using hp⟩
    · exact absurd hp List.not_mem_nil
  refine ⟨?_, ?_, ?_⟩
  · intro k
    unfold mixedLists
    split_ifs with h1 h3
    · exact ⟨if_pos h1, rfl, rfl⟩
    · exact ⟨(if_neg h1).trans (if_pos h3), rfl, rfl⟩
    · exact (if_neg h1).trans (if_neg h3)
  · intro i j hij p hi hj
    have hne : i.val ≠ j.val := fun e => hij (Fin.ext e)
    rcases hmem i p hi with ⟨hi, rfl | rfl⟩ | ⟨hi, rfl | rfl⟩ <;>
      rcases hmem j _ hj with ⟨hj, h | h⟩ | ⟨hj, h | h⟩ <;> first | omega | exact absurd h (by decide)
  · intro k p hp
    rcases hmem k p hp with ⟨-, rfl | rfl⟩ | ⟨-, rfl | rfl⟩ <;> exact ⟨by decide, rfl⟩

/-- A request for 16 pages fails, one for 3 pages takes the last block of the next larger class,
and one page comes from the buffer. -/
theorem alloc_selects_mixed : mixed.allocPages 16 = some (failed, mixed) ∧
    (∃ k c, k.val = 3 ∧ Picks mixed mixedLists 3 k [8] 24 c) ∧
    ∃ d t, mixed.allocOnePage = some (d, t) ∧ d.state = 1 ∧ t.multiLink = mixed.multiLink := by
  obtain ⟨hrefused, hpicks, -, hone⟩ := alloc_selects mixed mixedLists freeLists_mixed
  have hsixteen : Nat.clog 2 (16 : UInt32).toNat = 4 := by decide +kernel
  have hthree : Nat.clog 2 (3 : UInt32).toNat = 2 := by decide +kernel
  have hnil : ∀ k : Fin 11, 2 ≤ k.val → k.val ≠ 3 → mixedLists k = [] := by decide
  refine ⟨hrefused 16 (Or.inr (Or.inr fun k hk => hnil k (by omega) (by omega))), ?_, ?_⟩
  · obtain ⟨k, l, p, c, hp, -⟩ := hpicks 3 (by
      rintro (h0 | h1024 | hnone)
      · exact absurd h0 (by decide)
      · exact absurd h1024 (by decide)
      · exact absurd (hnone ⟨3, by decide⟩ (by rw [hthree]; decide)) (by decide))
    have hk : k.val = 3 := by
      by_contra hne
      have hle := hp.first.le
      exact hp.first.nonempty (hnil k (by omega) hne)
    have hlast : [8] ++ [24] = l ++ [p] := by
      rw [← hp.last, show k = ⟨3, by decide⟩ from Fin.ext hk]
      rfl
    obtain ⟨rfl, hp24⟩ := List.append_inj' hlast rfl
    obtain rfl := List.singleton_injective hp24
    exact ⟨k, c, hk, hp⟩
  · obtain ⟨hsingle, -⟩ := hone [40, 41] ⟨rfl, rfl, rfl⟩
    obtain ⟨d, t, hd, hst, hm, -⟩ := hsingle (List.cons_ne_nil _ _)
    exact ⟨d, t, hd, hst, hm⟩

end Pmm
end BHOS
