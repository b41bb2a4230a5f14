import Mathlib.Data.Fintype.Card
import Mathlib.Data.List.Nodup
import BHOS.Lib.Words
import BHOS.Pmm

/-! # The free lists as sequences of pages

`Holds s L` says that the pointers of the allocator state `s` represent the sequences `L`: the
eleven buddy lists and the single page buffer are null-terminated, and no page is in two of
them.  There is one lemma for each list operation of `pmm.c`, saying what it does to the
sequences; everything above this module works on them. -/

namespace BHOS

open Linked

/-- The pages in the eleven buddy lists and in the single page buffer, in list order. -/
structure Lists where
  buddy : Fin 11 → List UInt32
  single : List UInt32

namespace Lists

variable (L : Lists)

/-- The sequences with the list of one class replaced. -/
def set (k : Fin 11) (l : List UInt32) : Lists := { L with buddy := Function.update L.buddy k l }

@[simp] theorem set_self (k : Fin 11) (l : List UInt32) : (L.set k l).buddy k = l := by
  simp [set]

theorem set_of_ne {j k : Fin 11} (h : j ≠ k) (l : List UInt32) :
    (L.set k l).buddy j = L.buddy j := by
  simp [set, h]

@[simp] theorem set_single (k : Fin 11) (l : List UInt32) : (L.set k l).single = L.single := rfl

/-- No list has a page. -/
def empty : Lists := ⟨fun _ => [], []⟩

/-- The page is in none of the lists. -/
def Fresh (p : UInt32) : Prop := (∀ k, p ∉ L.buddy k) ∧ p ∉ L.single

variable {L}

theorem Fresh.of_mem_concat {p : UInt32} (hp : L.Fresh p) {l : List UInt32} :
    ∀ q ∈ l ++ [p], q ∈ l ∨ L.Fresh q := by
  intro q hq
  rcases List.mem_append.mp hq with hq | hq
  · exact Or.inl hq
  · rw [List.mem_singleton.mp hq]
    exact Or.inr hp

end Lists

namespace Pmm

/-- The pointers of the state represent the sequences. -/
structure Holds (s : Pmm) (L : Lists) : Prop where
  buddy : ∀ k, IsList s.next (s.multiLink k) (L.buddy k)
  single : IsList s.next s.singleLink L.single
  apart : ∀ j k, j ≠ k → ∀ p ∈ L.buddy j, p ∉ L.buddy k
  apartSingle : ∀ k, ∀ p ∈ L.buddy k, p ∉ L.single

/-- Two states that differ only in the list heads and in the `next` fields of the pages `l`. -/
structure Frame (l : List UInt32) (s t : Pmm) : Prop where
  pageStart : t.pageStart = s.pageStart
  pageEnd : t.pageEnd = s.pageEnd
  maxPageNo : t.maxPageNo = s.maxPageNo
  singelPageFirstNo : t.singelPageFirstNo = s.singelPageFirstNo
  pageNo : ∀ p, (t.pageArray p).pageNo = (s.pageArray p).pageNo
  next : ∀ p ∉ l, t.next p = s.next p

variable {s t u : Pmm} {L : Lists} {p q : UInt32} {k : Fin 11} {l l' : List UInt32}

theorem Frame.refl (l : List UInt32) (s : Pmm) : Frame l s s :=
  ⟨rfl, rfl, rfl, rfl, fun _ => rfl, fun _ _ => rfl⟩

theorem Frame.mono (hl : l ⊆ l') (h : Frame l s t) : Frame l' s t :=
  ⟨h.pageStart, h.pageEnd, h.maxPageNo, h.singelPageFirstNo, h.pageNo,
    fun p hp => h.next p fun hpl => hp (hl hpl)⟩

theorem Frame.trans (h₁ : Frame l s t) (h₂ : Frame l t u) : Frame l s u :=
  ⟨h₂.pageStart.trans h₁.pageStart, h₂.pageEnd.trans h₁.pageEnd,
    h₂.maxPageNo.trans h₁.maxPageNo, h₂.singelPageFirstNo.trans h₁.singelPageFirstNo,
    fun p => (h₂.pageNo p).trans (h₁.pageNo p), fun p hp => (h₂.next p hp).trans (h₁.next p hp)⟩

/-! ### Single assignments -/

theorem next_setNext (v : Option UInt32) :
    (s.setNext p v).next = Function.update s.next p v := by
  funext q
  by_cases h : q = p
  · subst h
    simp [next, setNext]
  · simp [next, setNext, Function.update_of_ne h]

@[simp] theorem multiLink_setNext (v : Option UInt32) : (s.setNext p v).multiLink = s.multiLink :=
  rfl

@[simp] theorem singleLink_setNext (v : Option UInt32) :
    (s.setNext p v).singleLink = s.singleLink := rfl

@[simp] theorem next_setMulti (v : Option UInt32) : (s.setMulti k v).next = s.next := rfl

theorem pageNo_setNext (v : Option UInt32) :
    ((s.setNext p v).pageArray q).pageNo = (s.pageArray q).pageNo := by
  by_cases h : q = p
  · subst h
    simp [setNext]
  · simp [setNext, Function.update_of_ne h]

theorem frame_setNext (s : Pmm) (hp : p ∈ l) (v : Option UInt32) : Frame l s (s.setNext p v) := by
  refine ⟨rfl, rfl, rfl, rfl, fun _ => pageNo_setNext v, ?_⟩
  intro q hq
  have hne : q ≠ p := fun e => hq (e ▸ hp)
  rw [next_setNext, Function.update_of_ne hne]

theorem frame_setMulti (s : Pmm) (k : Fin 11) (v : Option UInt32) : Frame l s (s.setMulti k v) :=
  ⟨rfl, rfl, rfl, rfl, fun _ => rfl, fun _ _ => rfl⟩

theorem listOf_eq {c : PageC} (h : listOf c = some k) : c.toNat = k.val := by
  simp only [listOf] at h
  split_ifs at h
  exact congrArg Fin.val (Option.some.inj h)

theorem listOf_lt {c : PageC} (h : c.toNat < 11) : listOf c = some ⟨c.toNat, h⟩ := by
  simp [listOf, h]

theorem exists_listOf {c : PageC} (h : c.toNat < 11) :
    ∃ k : Fin 11, listOf c = some k ∧ c.toNat = k.val := ⟨⟨c.toNat, h⟩, listOf_lt h, rfl⟩

theorem ne_erro_of_listOf {c : PageC} (h : listOf c = some k) : c ≠ erro := by
  rintro rfl
  simp [listOf, erro] at h

/-- Writing the `next` field of a page in no list changes no list. -/
theorem Holds.setNext_fresh (h : s.Holds L) (hp : L.Fresh p) (v : Option UInt32) :
    (s.setNext p v).Holds L := by
  refine ⟨?_, ?_, h.apart, h.apartSingle⟩
  · intro k
    rw [next_setNext]
    exact (h.buddy k).update_of_notMem (hp.1 k) v
  · rw [next_setNext]
    exact h.single.update_of_notMem hp.2 v

/-- Replacing the list of one class by a list of its own pages and fresh ones, when the pointers
of the other lists were not touched. -/
theorem Holds.replace (h : s.Holds L) {l : List UInt32} (hl : IsList t.next (t.multiLink k) l)
    (hm : ∀ j, j ≠ k → t.multiLink j = s.multiLink j) (hs : t.singleLink = s.singleLink)
    (hmem : ∀ p ∈ l, p ∈ L.buddy k ∨ L.Fresh p)
    (hn : ∀ p, p ∉ L.buddy k → ¬ L.Fresh p → t.next p = s.next p) : t.Holds (L.set k l) := by
  have hback : ∀ j, j ≠ k → ∀ p ∈ L.buddy j, t.next p = s.next p := fun j hj p hp =>
    hn p (h.apart j k hj p hp) fun hf => hf.1 j hp
  refine ⟨?_, ?_, ?_, ?_⟩
  · intro j
    by_cases hj : j = k
    · subst hj
      rwa [Lists.set_self]
    · rw [Lists.set_of_ne L hj, hm j hj]
      exact (h.buddy j).congr (hback j hj)
  · rw [hs]
    exact h.single.congr fun p hp => hn p (fun hk => h.apartSingle k p hk hp) fun hf => hf.2 hp
  · intro i j hij p hi hj
    by_cases hi' : i = k
    · subst hi'
      rw [Lists.set_self] at hi
      rw [Lists.set_of_ne L hij.symm] at hj
      exact (hmem p hi).elim (fun hk => h.apart i j hij p hk hj) fun hf => hf.1 j hj
    · rw [Lists.set_of_ne L hi'] at hi
      by_cases hj' : j = k
      · subst hj'
        rw [Lists.set_self] at hj
        exact (hmem p hj).elim (fun hk => h.apart i j hij p hi hk) fun hf => hf.1 i hi
      · rw [Lists.set_of_ne L hj'] at hj
        exact h.apart i j hij p hi hj
  · intro j p hj hS
    by_cases hj' : j = k
    · subst hj'
      rw [Lists.set_self] at hj
      exact (hmem p hj).elim (fun hk => h.apartSingle j p hk hS) fun hf => hf.2 hS
    · rw [Lists.set_of_ne L hj'] at hj
      exact h.apartSingle j p hj hS

/-- Replacing the single page buffer by a list of its own pages and fresh ones. -/
theorem Holds.replaceSingle (h : s.Holds L) {l : List UInt32}
    (hl : IsList t.next t.singleLink l) (hm : t.multiLink = s.multiLink)
    (hmem : ∀ p ∈ l, p ∈ L.single ∨ L.Fresh p)
    (hn : ∀ p, p ∉ L.single → ¬ L.Fresh p → t.next p = s.next p) :
    t.Holds { L with single := l } := by
  refine ⟨?_, hl, h.apart, ?_⟩
  · intro k
    rw [hm]
    exact (h.buddy k).congr fun p hp => hn p (h.apartSingle k p hp) fun hf => hf.1 k hp
  · intro k p hk hp
    exact (hmem p hp).elim (h.apartSingle k p hk) fun hf => hf.1 k hk

/-- A null-terminated list is no longer than the bound of the list walks. -/
theorem length_le_listBound {hd : Option UInt32} {l : List UInt32} (hl : IsList s.next hd l) :
    l.length ≤ listBound := Words.length_le_of_nodup hl.nodup

/-- The sequences that the pointers of a state represent. -/
def lists (s : Pmm) : Lists :=
  ⟨fun k => toList s.next listBound (s.multiLink k), toList s.next listBound s.singleLink⟩

theorem Holds.lists_eq (h : s.Holds L) : s.lists = L := by
  obtain ⟨bs, ss⟩ := L
  simp only [lists, Lists.mk.injEq]
  exact ⟨funext fun k => (h.buddy k).toList_eq (length_le_listBound (h.buddy k)),
    h.single.toList_eq (length_le_listBound h.single)⟩

/-- Two states of the allocator for the same range of pages. -/
structure SameRange (s t : Pmm) : Prop where
  pageStart : t.pageStart = s.pageStart
  pageEnd : t.pageEnd = s.pageEnd
  maxPageNo : t.maxPageNo = s.maxPageNo

theorem SameRange.refl (s : Pmm) : SameRange s s := ⟨rfl, rfl, rfl⟩

theorem SameRange.trans (h₁ : SameRange s t) (h₂ : SameRange t u) : SameRange s u :=
  ⟨h₂.pageStart.trans h₁.pageStart, h₂.pageEnd.trans h₁.pageEnd, h₂.maxPageNo.trans h₁.maxPageNo⟩

/-! ### `append_block` -/

theorem appendBlock_sameRange {c : PageC} (h : s.appendBlock p c = some t) : SameRange s t := by
  unfold appendBlock at h
  cases hc : listOf c with
  | none =>
      rw [hc] at h
      cases h
  | some k =>
      simp only [hc] at h
      cases hk : (s.setNext p none).multiLink k with
      | none =>
          simp only [hk] at h
          obtain rfl := Option.some.inj h
          exact ⟨rfl, rfl, rfl⟩
      | some header =>
          simp only [hk] at h
          obtain ⟨probe, -, h⟩ := Option.bind_eq_some_iff.mp h
          obtain rfl := Option.some.inj h
          exact ⟨rfl, rfl, rfl⟩

/-- `append_block` puts a page that is in no list at the end of the list of its class. -/
theorem Holds.appendBlock_eq (h : s.Holds L) (hp : L.Fresh p) {c : PageC} (hc : listOf c = some k) :
    ∃ t, s.appendBlock p c = some t ∧ t.Holds (L.set k (L.buddy k ++ [p])) ∧
      Frame (p :: L.buddy k) s t := by
  have h' := h.setNext_fresh hp none
  have hnil : (s.setNext p none).next p = none := by rw [next_setNext, Function.update_self]
  rcases (L.buddy k).eq_nil_or_concat' with hnl | ⟨l, a, hla⟩
  · have hk : s.multiLink k = none := (h.buddy k).eq_nil_iff.mp hnl
    refine ⟨(s.setNext p none).setMulti k (some p), ?_, ?_, ?_⟩
    · simp only [appendBlock, hc, multiLink_setNext, hk]
    · rw [hnl, List.nil_append]
      refine h'.replace (k := k) ?_ ?_ rfl (fun q hq => Or.inr ?_) fun q _ _ => rfl
      · simp only [setMulti, Function.update_self]
        exact ⟨rfl, hnil⟩
      · intro j hj
        simp [setMulti, Function.update_of_ne hj]
      · rw [List.mem_singleton.mp hq]
        exact hp
    · exact (frame_setNext s List.mem_cons_self none).trans (frame_setMulti _ k _)
  · have hb := h'.buddy k
    obtain ⟨header, hd⟩ := (h.buddy k).exists_head (by simp [hla])
    rw [hla, multiLink_setNext] at hb
    have hpa : p ∉ l ++ [a] := hla ▸ hp.1 k
    refine ⟨(s.setNext p none).setNext a (some p), ?_, ?_, ?_⟩
    · have hlen := length_le_listBound hb
      rw [hd] at hb
      simp only [appendBlock, hc, multiLink_setNext, hd, Option.bind_eq_bind]
      rw [hb.seek_last (by simp at hlen; omega), Option.bind_some]
    · refine h'.replace ?_ (fun _ _ => rfl) rfl hp.of_mem_concat ?_
      · rw [next_setNext, multiLink_setNext, hla, multiLink_setNext]
        exact hb.append_cell hpa hnil
      · intro q hq _
        have hqa : q ≠ a := fun e => hq (by simp [hla, e])
        rw [next_setNext, Function.update_of_ne hqa]
    · exact (frame_setNext s List.mem_cons_self none).trans
        (frame_setNext _ (by simp [hla]) (some p))

/-! ### The single page buffer -/

/-- A page with no successor becomes the only page of the buffer. -/
theorem Holds.single_start (h : s.Holds L) (hp : L.Fresh p) (hn : s.next p = none) :
    Holds { s with singleLink := some p } { L with single := [p] } := by
  refine h.replaceSingle ⟨rfl, hn⟩ rfl (fun q hq => Or.inr ?_) fun _ _ _ => rfl
  rw [List.mem_singleton.mp hq]
  exact hp

/-- A page with no successor goes to the end of the buffer. -/
theorem Holds.single_append (h : s.Holds L) (hp : L.Fresh p) (hn : s.next p = none)
    {l : List UInt32} {a : UInt32} (hL : L.single = l ++ [a]) :
    (s.setNext a (some p)).Holds { L with single := L.single ++ [p] } := by
  have hs := h.single
  rw [hL] at hs
  refine h.replaceSingle ?_ rfl hp.of_mem_concat ?_
  · rw [next_setNext, singleLink_setNext, hL]
    exact hs.append_cell (hL ▸ hp.2) hn
  · intro q hq _
    have hqa : q ≠ a := fun e => hq (by simp [hL, e])
    rw [next_setNext, Function.update_of_ne hqa]

/-- The last page of the buffer is cut off. -/
theorem Holds.single_cut (h : s.Holds L) {l : List UInt32} {a b : UInt32}
    (hL : L.single = l ++ [a, b]) :
    (s.setNext a none).Holds { L with single := l ++ [a] } := by
  have hs := h.single
  rw [hL] at hs
  refine h.replaceSingle ?_ rfl (fun q hq => Or.inl ?_) ?_
  · rw [next_setNext, singleLink_setNext]
    exact hs.cut
  · rw [hL]
    simp only [List.mem_append, List.mem_cons, List.not_mem_nil, or_false] at hq ⊢
    tauto
  · intro q hq _
    have hqa : q ≠ a := fun e => hq (by simp [hL, e])
    rw [next_setNext, Function.update_of_ne hqa]

/-- The buffer is emptied. -/
theorem Holds.single_clear (h : s.Holds L) :
    Holds { s with singleLink := none } { L with single := [] } :=
  h.replaceSingle rfl rfl (fun _ hq => absurd hq List.not_mem_nil) fun _ _ _ => rfl

/-! ### `pop_block` -/

/-- The state without the last block of the list of class `k`, of which `l` are the others. -/
def cutLast (s : Pmm) (k : Fin 11) (l : List UInt32) : Pmm :=
  match l.getLast? with
  | none => s.setMulti k none
  | some a => s.setNext a none

/-- `pop_block` takes the last block of its list and changes nothing else. -/
theorem popBlock_eq {c : PageC} (hc : listOf c = some k) (hl : IsList s.next (s.multiLink k) (l ++ [p])) :
    s.popBlock c = some ((s.pageArray p).pageNo, s.cutLast k l) := by
  have hne := ne_erro_of_listOf hc
  have hlen := length_le_listBound hl
  obtain ⟨header, hd⟩ := hl.exists_head (by simp)
  unfold cutLast
  rcases l.eq_nil_or_concat' with rfl | ⟨l, a, rfl⟩
  · rw [hd] at hl
    obtain rfl : header = p := Option.some.inj hl.1
    have hn : s.next header = none := hl.2
    simp only [popBlock, if_neg hne, hc, hd, hn, if_true, List.getLast?_nil]
  · rw [List.append_assoc, List.singleton_append, hd] at hl
    rw [List.append_assoc, List.singleton_append] at hlen
    have ha : s.next a = some p := hl.next_of_split
    have hn := hl.next_head_ne_none
    rw [List.getLast?_concat]
    simp only [popBlock, if_neg hne, hc, hd, if_neg hn, Option.bind_eq_bind]
    rw [hl.seek_before_last (by simp at hlen; omega), Option.bind_some, ha, Option.bind_some]

theorem popBlock_empty {c : PageC} (hc : listOf c = some k) (hk : s.multiLink k = none) :
    s.popBlock c = some (erroPopBlock, s) := by
  simp only [popBlock, if_neg (ne_erro_of_listOf hc), hc, hk]

/-- A list whose last page is cut off. -/
theorem Holds.cut_last (h : s.Holds L) {l : List UInt32} {a b : UInt32}
    (hL : L.buddy k = l ++ [a, b]) : (s.setNext a none).Holds (L.set k (l ++ [a])) := by
  have hb := h.buddy k
  rw [hL] at hb
  refine h.replace ?_ (fun _ _ => rfl) rfl (fun q hq => Or.inl ?_) ?_
  · rw [next_setNext, multiLink_setNext]
    exact hb.cut
  · rw [hL]
    simp only [List.mem_append, List.mem_cons, List.not_mem_nil, or_false] at hq ⊢
    tauto
  · intro q hq _
    have hqa : q ≠ a := fun e => hq (by simp [hL, e])
    rw [next_setNext, Function.update_of_ne hqa]

/-- A list of one page is emptied. -/
theorem Holds.clear (h : s.Holds L) (k : Fin 11) : (s.setMulti k none).Holds (L.set k []) := by
  refine h.replace ?_ ?_ rfl (fun q hq => absurd hq List.not_mem_nil) fun q _ _ => rfl
  · simp [setMulti, IsList]
  · intro j hj
    simp [setMulti, Function.update_of_ne hj]

/-- `pop_block` takes the last page of the list of its class. -/
theorem Holds.popBlock_concat (h : s.Holds L) {c : PageC} (hc : listOf c = some k)
    {l : List UInt32} {a : UInt32} (hL : L.buddy k = l ++ [a]) :
    ∃ t, s.popBlock c = some ((s.pageArray a).pageNo, t) ∧ t.Holds (L.set k l) ∧
      Frame (L.buddy k) s t := by
  refine ⟨s.cutLast k l, popBlock_eq hc (hL ▸ h.buddy k), ?_⟩
  unfold cutLast
  rcases l.eq_nil_or_concat' with rfl | ⟨l, a', rfl⟩
  · exact ⟨h.clear k, frame_setMulti s k none⟩
  · rw [List.append_assoc, List.singleton_append] at hL
    rw [List.getLast?_concat]
    exact ⟨h.cut_last hL, frame_setNext s (by simp [hL]) none⟩

/-! ### `find_and_pop_block` -/

/-- The pages that `find_and_pop_block` finds: any page of the list but the first, or the only
page of the list. -/
def Findable (l : List UInt32) (target : UInt32) : Prop := target ∈ l.tail ∨ l = [target]

instance (l : List UInt32) (target : UInt32) : Decidable (Findable l target) :=
  inferInstanceAs (Decidable (_ ∨ _))

theorem Findable.mem {l : List UInt32} {target : UInt32} (h : Findable l target) : target ∈ l := by
  rcases h with h | rfl
  · exact List.mem_of_mem_tail h
  · exact List.mem_singleton_self target

/-- The test of the search loop, on a page with a successor. -/
theorem atTarget_of_next {target : UInt32} (hn : s.next p = some q)
    (hq : (s.pageArray q).pageNo = q) : s.atTarget target p = decide (q = target) := by
  simp [atTarget, hn, hq, beq_eq_decide]

/-- The list of class `k` has become `l'`; the other lists, and the descriptors of all pages but
those of the old list `l`, are as they were. -/
structure Relinked (s t : Pmm) (k : Fin 11) (l l' : List UInt32) : Prop where
  list : IsList t.next (t.multiLink k) l'
  others : ∀ j, j ≠ k → t.multiLink j = s.multiLink j
  single : t.singleLink = s.singleLink
  frame : Frame l s t

theorem Relinked.holds (hr : Relinked s t k (L.buddy k) l) (h : s.Holds L)
    (hl : l ⊆ L.buddy k) : t.Holds (L.set k l) :=
  h.replace hr.list hr.others hr.single (fun _ hp => Or.inl (hl hp))
    fun p hp _ => hr.frame.next p hp

/-- The page after `a` is unlinked. -/
theorem findAndPopBlock_after {c : PageC} (hc : listOf c = some k) {target a : UInt32}
    {l₀ l₂ : List UInt32} (hl : IsList s.next (s.multiLink k) (l₀ ++ a :: target :: l₂))
    (hno : ∀ p ∈ l₀ ++ a :: target :: l₂, (s.pageArray p).pageNo = p)
    (hnot : target ∉ l₀ ++ [a]) :
    s.findAndPopBlock target c = some (target, s.setNext a (s.next target)) := by
  have hne := ne_erro_of_listOf hc
  have hlen := length_le_listBound hl
  obtain ⟨header, hd⟩ := hl.exists_head (by simp)
  have ha : s.next a = some target := hl.next_of_split
  have hpass : ∀ b ∈ l₀, ∃ q ∈ (l₀ ++ [a]).tail, s.next b = some q := by
    obtain ⟨m, hm, -⟩ := isSeg_append.mp (List.append_cons l₀ a _ ▸ hl)
    exact fun b hbl => hm.next_mem_tail hbl
  rw [hd] at hl
  have hseek : seek s.next (s.atTarget target) listBound header = some a := by
    refine hl.seek_eq ?_ ?_ ?_
    · intro b hbl
      obtain ⟨q, hqm, hq⟩ := hpass b hbl
      have hqm' := List.mem_of_mem_tail hqm
      have hqno : (s.pageArray q).pageNo = q := by
        apply hno
        rw [List.append_cons]
        exact List.mem_append_left _ hqm'
      rw [atTarget_of_next hq hqno]
      exact decide_eq_false fun e => hnot (e ▸ hqm')
    · rw [atTarget_of_next ha (hno target (by simp))]
      simp
    · simp at hlen
      omega
  have hfirst : ¬ (s.next header = none ∧ (s.pageArray header).pageNo = target) := by
    rintro ⟨e, -⟩
    cases l₀ with
    | nil =>
        obtain rfl : header = a := Option.some.inj hl.1
        rw [ha] at e
        cases e
    | cons x l₀ =>
        obtain rfl : header = x := Option.some.inj hl.1
        obtain ⟨q, -, hq⟩ := hpass header List.mem_cons_self
        rw [hq] at e
        cases e
  simp only [findAndPopBlock, if_neg hne, hc, hd, if_neg hfirst, Option.bind_eq_bind, hseek,
    Option.bind_some, ha]

/-- The only page of a list is popped. -/
theorem findAndPopBlock_only {c : PageC} (hc : listOf c = some k) {target : UInt32}
    (hl : IsList s.next (s.multiLink k) [target]) (hno : (s.pageArray target).pageNo = target) :
    s.findAndPopBlock target c = some (target, s.setMulti k none) := by
  have hpop := popBlock_eq (l := []) hc hl
  have hd : s.multiLink k = some target := hl.1
  have hn : s.next target = none := hl.2
  simp only [findAndPopBlock, if_neg (ne_erro_of_listOf hc), hc, hd, hn, hno, and_self, if_true,
    hpop, Option.bind_eq_bind, Option.bind_some]
  rfl

/-- A page that is found is taken out of its list. -/
theorem findAndPopBlock_found {c : PageC} (hc : listOf c = some k)
    (hl : IsList s.next (s.multiLink k) l) (hno : ∀ p ∈ l, (s.pageArray p).pageNo = p)
    {target : UInt32} (hf : Findable l target) :
    ∃ t, s.findAndPopBlock target c = some (target, t) ∧
      Relinked s t k l (l.erase target) := by
  obtain ⟨l₁, l₂, hnot, hsplit, herase⟩ := List.exists_erase_eq hf.mem
  rw [herase]
  rcases l₁.eq_nil_or_concat' with rfl | ⟨l₀, a, hl₁⟩
  · -- the target is the first page, so it is the only one
    have hl₂ : l₂ = [] := by
      rcases hf with hf | hf
      · have hnd := hl.nodup
        rw [hsplit] at hf hnd
        exact absurd hf (List.nodup_cons.mp hnd).1
      · rw [hsplit] at hf
        exact (List.cons.inj hf).2
    subst hl₂
    rw [List.nil_append] at hsplit
    subst hsplit
    refine ⟨_, findAndPopBlock_only hc hl (hno target List.mem_cons_self), ?_, ?_, rfl,
      frame_setMulti s k none⟩
    · simp [setMulti, IsList]
    · intro j hj
      simp [setMulti, Function.update_of_ne hj]
  · -- the loop stops at the page `a` before the target
    subst hl₁
    rw [List.append_assoc, List.singleton_append] at hsplit
    subst hsplit
    refine ⟨_, findAndPopBlock_after hc hl hno hnot, ?_, fun _ _ => rfl, rfl,
      frame_setNext s (by simp) _⟩
    rw [next_setNext, multiLink_setNext, List.append_assoc, List.singleton_append]
    exact hl.unlink

theorem Holds.findAndPopBlock_found (h : s.Holds L) {c : PageC} (hc : listOf c = some k)
    (hno : ∀ p ∈ L.buddy k, (s.pageArray p).pageNo = p) {target : UInt32}
    (hf : Findable (L.buddy k) target) :
    ∃ t, s.findAndPopBlock target c = some (target, t) ∧
      t.Holds (L.set k ((L.buddy k).erase target)) ∧ Frame (L.buddy k) s t := by
  obtain ⟨t, ht, hr⟩ := Pmm.findAndPopBlock_found hc (h.buddy k) hno hf
  exact ⟨t, ht, hr.holds h fun _ hp => List.mem_of_mem_erase hp, hr.frame⟩

/-- A page that is not found leaves the lists alone. -/
theorem findAndPopBlock_missed {c : PageC} (hc : listOf c = some k)
    (hl : IsList s.next (s.multiLink k) l) (hno : ∀ p ∈ l, (s.pageArray p).pageNo = p)
    {target : UInt32} (hf : ¬ Findable l target) :
    s.findAndPopBlock target c = some (erroPopBlock, s) := by
  have hne := ne_erro_of_listOf hc
  have hlen := length_le_listBound hl
  rcases l.eq_nil_or_concat' with rfl | ⟨l, z, rfl⟩
  · have hd : s.multiLink k = none := hl
    simp only [findAndPopBlock, if_neg hne, hc, hd]
  · obtain ⟨header, hd⟩ := hl.exists_head (by simp)
    rw [hd] at hl
    have hz : s.next z = none := hl.next_of_split
    have hzt : z ≠ target := by
      rintro rfl
      cases l with
      | nil => exact hf (Or.inr rfl)
      | cons x l => exact hf (Or.inl (by simp))
    have hpass : ∀ b ∈ l, ∃ q ∈ (l ++ [z]).tail, s.next b = some q :=
      fun b hbl => IsSeg.next_mem_tail hl hbl
    have hseek : seek s.next (s.atTarget target) listBound header = some z := by
      refine hl.seek_eq ?_ ?_ ?_
      · intro b hbl
        obtain ⟨q, hqm, hq⟩ := hpass b hbl
        rw [atTarget_of_next hq (hno q (List.mem_of_mem_tail hqm))]
        exact decide_eq_false fun e => hf (Or.inl (e ▸ hqm))
      · simp [atTarget, hz]
      · simp at hlen
        omega
    have hfirst : ¬ (s.next header = none ∧ (s.pageArray header).pageNo = target) := by
      rintro ⟨e, e'⟩
      cases l with
      | nil =>
          obtain rfl : header = z := Option.some.inj hl.1
          rw [hno header (by simp)] at e'
          exact hzt e'
      | cons x l =>
          obtain rfl : header = x := Option.some.inj hl.1
          obtain ⟨q, -, hq⟩ := hpass header List.mem_cons_self
          rw [hq] at e
          cases e
    have hzn := hno z (by simp)
    simp only [findAndPopBlock, if_neg hne, hc, hd, if_neg hfirst, Option.bind_eq_bind, hseek,
      Option.bind_some, hz, hzn, if_neg hzt]

end Pmm
end BHOS
