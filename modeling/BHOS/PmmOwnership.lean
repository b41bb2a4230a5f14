import Mathlib.Data.Multiset.AddSub
import BHOS.Lib.Runs
import BHOS.PmmInit
import BHOS.PmmSelect
import BHOS.PmmFree

/-! # Who owns which page

A client of the page manager allocates and frees; `Client.live` are the descriptors it was given
with `state` 1 and has not freed.  The pages of the live descriptors, of the blocks in the buddy
lists and of the single page buffer should be disjoint and lie below `pmm_max_page_no`
(`Client.Apart`).

They are, as long as no allocation splits a block and no free merges up to class `_erro`
(`Whole`): every other step hands a block from one owner to another, or joins two buddies, so
the pages owned stay the same multiset (`Owned`).  A split calls `append_block` with
`pop_page_no-1` in the place of the class, and that is not repaired later: five allocations are
enough to give a page two owners. -/

namespace BHOS

open Blocks Linked Transition

/-! ### Page counts and page numbers -/

namespace Pmm

variable {s t : Pmm} {L L' : Lists} {k : Fin 11} {p : UInt32} {c : PageC} {l : List UInt32}

theorem addrToPageNo_pageNoToAddr (s : Pmm) (hp : p.toNat < 2 ^ 20) :
    s.addrToPageNo (s.pageNoToAddr p) = p := by
  rw [addrToPageNo, pageNoToAddr, UInt32.add_sub_cancel, ← UInt32.toNat_inj]
  simp only [UInt32.toNat_shiftRight, UInt32.toNat_shiftLeft, UInt32.reduceToNat, Nat.reduceMod,
    Nat.shiftLeft_eq, Nat.shiftRight_eq_div_pow]
  omega

/-! ### Allocating from the buddy lists -/

/-- The request is refused, or the list of its class has a block, or neither that list nor any
for larger blocks has one: in all these cases no block is split. -/
def ServedWhole (s : Pmm) (pageCount : UInt32) : Prop :=
  pageCount > 1024 ∨ pageCount = 0 ∨ ∀ k, listOf (originPh pageCount) = some k →
    s.multiLink k ≠ none ∨ ∀ j, k ≤ j → s.multiLink j = none

instance (s : Pmm) (pageCount : UInt32) : Decidable (s.ServedWhole pageCount) :=
  inferInstanceAs (Decidable (_ ∨ _ ∨ ∀ k, listOf (originPh pageCount) = some k → _ ∨ ∀ _, _ → _))

/-- The first list that is not empty gives its last block. -/
theorem popFrom_nonempty {n : ℕ} (h : Sound s L) (hk : L.buddy k = l ++ [p]) (hck : c.toNat ≤ k.val)
    (hn : k.val < n + c.toNat) (hno : ∀ j : Fin 11, c.toNat ≤ j.val → j < k → s.multiLink j = none) :
    ∃ c' t, popFrom n c s = some (p, c', t) ∧ listOf c' = some k ∧ Sound t (L.set k l) ∧
      Frame (L.buddy k) s t := by
  have hfirst : FirstFrom L.buddy c.toNat k :=
    ⟨hck, by simp [hk], fun j hj hjk => (h.holds.buddy j).eq_nil_iff.mpr (hno j hj hjk)⟩
  obtain ⟨c', hpop, hc'⟩ := h.freeLists.popFrom_first hfirst hk hn
  obtain ⟨t, ht, hh, hf⟩ := h.holds.popBlock_concat hc' hk
  rw [popBlock_eq hc' (hk ▸ h.holds.buddy k)] at ht
  obtain rfl := (Prod.mk.inj (Option.some.inj ht)).2
  exact ⟨c', _, hpop, hc', h.set hh hf fun q hq => h.buddy k q (by simp [hk, hq]), hf⟩

/-- A request that splits no block is refused, or takes the last block of its list. -/
theorem Sound.allocPages_eq (h : Sound s L) {pageCount : UInt32} (hw : s.ServedWhole pageCount) :
    s.allocPages pageCount = some (failed, s) ∨
      ∃ k l p t, listOf (originPh pageCount) = some k ∧ L.buddy k = l ++ [p] ∧
        s.allocPages pageCount = some (⟨s.pageNoToAddr p, originPh pageCount, 1⟩, t) ∧
        Sound t (L.set k l) ∧ Frame (L.buddy k) s t := by
  by_cases hb : pageCount > 1024 ∨ pageCount = 0
  · left
    simp only [allocPages, if_pos hb]
  · have hb' := hb
    rw [not_or, gt_iff_lt, UInt32.not_lt, UInt32.le_iff_toNat_le] at hb'
    have horg := listOf_lt (Nat.lt_succ_of_le (originPh_spec hb'.2 hb'.1).1)
    generalize hk : (⟨(originPh pageCount).toNat, _⟩ : Fin 11) = k at horg
    have hkv := listOf_eq horg
    rcases (L.buddy k).eq_nil_or_concat' with hnil | ⟨l, p, hl⟩
    · left
      have hlk : s.multiLink k = none := (h.holds.buddy k).eq_nil_iff.mp hnil
      have hall : ∀ j : Fin 11, (originPh pageCount).toNat ≤ j.val → s.multiLink j = none := by
        rcases hw with hw | hw | hw
        · exact absurd (Or.inl hw) hb
        · exact absurd (Or.inr hw) hb
        · rcases hw k horg with hw | hw
          · exact absurd hlk hw
          · exact fun j hj => hw j (Fin.le_def.mpr (hkv ▸ hj))
      obtain ⟨c', hc'⟩ := popFrom_empty (n := 12) hall
      simp only [allocPages, if_neg hb, hc', Option.bind_eq_bind, Option.bind_some, if_true]
    · right
      obtain ⟨c', t, ht, hc', hs, hf⟩ := popFrom_nonempty (n := 12) h hl hkv.le
        (by have := k.isLt; omega) fun j hj hjk => absurd (Fin.lt_def.mp hjk) (by omega)
      obtain rfl : c' = originPh pageCount := by
        rw [← UInt32.toNat_inj, listOf_eq hc', hkv]
      have hp := ne_erro_of_lt_max h (h.buddy_lt (by rw [hl]; simp) : p < s.maxPageNo)
      have haddr : t.pageNoToAddr p = s.pageNoToAddr p := by
        rw [pageNoToAddr, pageNoToAddr, hf.pageStart]
      refine ⟨k, l, p, t, horg, hl, ?_, hs, hf⟩
      simp only [allocPages, if_neg hb, ht, Option.bind_eq_bind, Option.bind_some, if_neg hp,
        allocHelper, ne_eq, not_true_eq_false, if_false, haddr]

/-! ### Allocating from the single page buffer -/

/-- A page of the buffer is handed out with its `next` field cleared. -/
theorem Sound.allocOnePage_eq (h : Sound s L) (hne : s.singleLink ≠ none) :
    ∃ l p t, L.single = l ++ [p] ∧ s.allocOnePage = some (⟨s.pageNoToAddr p, 0, 1⟩, t) ∧
      Sound t { L with single := l } ∧ Frame l s t ∧ t.next p = none := by
  have hsl := h.holds.single
  have hlen := length_le_listBound hsl
  obtain ⟨header, hd⟩ := Option.ne_none_iff_exists'.mp hne
  rcases L.single.eq_nil_or_concat' with hnil | ⟨l, p, hl⟩
  · exact absurd (hsl.eq_nil_iff.mp hnil) hne
  · have hno := h.pageNo_single (by rw [hl]; simp : p ∈ L.single)
    have hmem : ∀ q ∈ l, s.singelPageFirstNo ≤ q ∧ q < s.maxPageNo :=
      fun q hq => h.single q (by simp [hl, hq])
    rw [hl, hd] at hsl
    rcases l.eq_nil_or_concat' with rfl | ⟨l, a, rfl⟩
    · obtain rfl : header = p := Option.some.inj hsl.1
      have hn : s.next header = none := hsl.2
      refine ⟨[], header, _, hl, ?_, h.setSingle h.holds.single_clear
        (l := []) ⟨rfl, rfl, rfl, rfl, fun _ => rfl, fun _ _ => rfl⟩ hmem,
        ⟨rfl, rfl, rfl, rfl, fun _ => rfl, fun _ _ => rfl⟩, hn⟩
      simp only [allocOnePage, hd, hn, if_true, hno]
    · rw [List.append_assoc, List.singleton_append] at hl hsl
      have ha : s.next a = some p := hsl.next_of_split
      have hp : s.next p = none := by
        rw [List.append_cons] at hsl
        exact hsl.next_of_split
      have hpa : p ≠ a := by
        rintro rfl
        rw [ha] at hp
        cases hp
      have hn := hsl.next_head_ne_none
      have hf : Frame (l ++ [a]) s (s.setNext a none) := frame_setNext s (by simp) none
      refine ⟨l ++ [a], p, s.setNext a none, by simp [hl], ?_,
        h.setSingle (h.holds.single_cut hl) hf hmem, hf, ?_⟩
      · rw [hl] at hlen
        simp only [allocOnePage, hd, if_neg hn, Option.bind_eq_bind]
        rw [hsl.seek_before_last (by simp at hlen; omega), Option.bind_some, ha, Option.bind_some,
          hno]
      · rw [next_setNext, Function.update_of_ne hpa, hp]

theorem allocOnePage_none (hs : s.singleLink = none) : s.allocOnePage = s.allocPages 1 := by
  simp only [allocOnePage, hs]

/-! ### Freeing a single page -/

/-- A page behind the blocks goes back to the end of the single page buffer. -/
theorem Sound.freePage_single (h : Sound s L) {d : PmAlloc} (hp : s.addrToPageNo d.addr = p)
    (hlt : p < s.maxPageNo) (hge : s.singelPageFirstNo ≤ p) (hfresh : L.Fresh p)
    (hn : s.next p = none) :
    ∃ t, s.freePage d = some (true, t) ∧ Sound t { L with single := L.single ++ [p] } ∧
      Frame L.single s t := by
  have hmem : ∀ q ∈ L.single ++ [p], s.singelPageFirstNo ≤ q ∧ q < s.maxPageNo := by
    intro q hq
    rcases List.mem_append.mp hq with hq | hq
    · exact h.single q hq
    · rw [List.mem_singleton.mp hq]
      exact ⟨hge, hlt⟩
  have hge' : ¬ p < s.singelPageFirstNo := UInt32.not_lt.mpr hge
  rcases L.single.eq_nil_or_concat' with hnil | ⟨l, a, hl⟩
  · have hsl : s.singleLink = none := h.holds.single.eq_nil_iff.mp hnil
    have hf : Frame L.single s { s with singleLink := some p } :=
      ⟨rfl, rfl, rfl, rfl, fun _ => rfl, fun _ _ => rfl⟩
    refine ⟨{ s with singleLink := some p }, ?_, h.setSingle ?_ hf hmem, hf⟩
    · simp only [freePage, hp, if_pos hlt, if_neg hge', hsl]
    · rw [hnil]
      exact h.holds.single_start hfresh hn
  · have hsl := h.holds.single
    have hlen := length_le_listBound hsl
    obtain ⟨header, hd⟩ := hsl.exists_head (by simp [hl])
    rw [hl] at hlen
    rw [hl, hd] at hsl
    have hf : Frame L.single s (s.setNext a (some p)) := frame_setNext s (by simp [hl]) _
    refine ⟨s.setNext a (some p), ?_, h.setSingle (h.holds.single_append hfresh hn hl) hf hmem, hf⟩
    simp only [freePage, hp, if_pos hlt, if_neg hge', hd, Option.bind_eq_bind]
    rw [hsl.seek_last (by simp at hlen; omega), Option.bind_some]

/-! ### A client of the page manager -/

/-- The block that a descriptor stands for. -/
def blockAt (s : Pmm) (d : PmAlloc) : Block := ⟨(s.addrToPageNo d.addr).toNat, d.size.toNat⟩

theorem Frame.blockAt_eq (hf : Frame l s t) : t.blockAt = s.blockAt := by
  funext d
  simp only [blockAt, addrToPageNo, hf.pageStart]

end Pmm

/-- The calls a client makes. -/
inductive PmmOp
  | allocPages (pageCount : UInt32)
  | allocOnePage
  | freePage (blockDisc : PmAlloc)

/-- The page manager and the descriptors that were handed out and not yet freed. -/
structure Client where
  pmm : Pmm
  live : List PmAlloc

namespace Client

/-- A returned descriptor is live when its `state` is 1. -/
def receive (live : List PmAlloc) : PmAlloc × Pmm → Client
  | (d, s) => ⟨s, if d.state = 1 then d :: live else live⟩

/-- One call. -/
def step : PmmOp → Client → Option Client
  | .allocPages pageCount, c => (c.pmm.allocPages pageCount).map (receive c.live)
  | .allocOnePage, c => c.pmm.allocOnePage.map (receive c.live)
  | .freePage d, c => (c.pmm.freePage d).map fun r => ⟨r.2, c.live.erase d⟩

/-- A client frees live descriptors only. -/
def Allowed : PmmOp → Client → Prop
  | .freePage d, c => d ∈ c.live
  | _, _ => True

/-- The blocks of the live descriptors. -/
def liveBlocks (c : Client) : Multiset Block := (c.live : Multiset PmAlloc).map c.pmm.blockAt

/-- Everything that has an owner: live allocations, buddy lists and single page buffer. -/
def blocks (c : Client) : Multiset Block := c.liveBlocks + c.pmm.lists.blocks

/-- The owned blocks are pairwise disjoint and lie below `pmm_max_page_no`. -/
structure Apart (c : Client) : Prop where
  disjoint : c.blocks.Pairwise fun a b => Disjoint a.pages b.pages
  inside : ∀ b ∈ c.blocks, b.base + 2 ^ b.order ≤ c.pmm.maxPageNo.toNat

/-- The call splits no block, and a free does not merge up to class `_erro`. -/
def Whole : PmmOp → Client → Prop
  | .allocPages pageCount, c => c.pmm.ServedWhole pageCount
  | .allocOnePage, c => c.pmm.singleLink ≠ none ∨ c.pmm.ServedWhole 1
  | .freePage d, c => c.pmm.addrToPageNo d.addr < c.pmm.singelPageFirstNo →
      Pmm.MergeStops c.pmm.lists (c.pmm.addrToPageNo d.addr) d.size

instance : ∀ e c, Decidable (Allowed e c)
  | .freePage d, c => inferInstanceAs (Decidable (d ∈ c.live))
  | .allocPages _, _ => isTrue trivial
  | .allocOnePage, _ => isTrue trivial

instance : ∀ e c, Decidable (Whole e c)
  | .freePage _, _ => inferInstanceAs (Decidable (_ → _))
  | .allocPages _, _ => inferInstanceAs (Decidable (Pmm.ServedWhole _ _))
  | .allocOnePage, _ => inferInstanceAs (Decidable (_ ∨ _))

/-! ### The invariant -/

/-- What holds of a live descriptor: it stands for an aligned block below the single pages, or
for a single page whose `next` field is null. -/
structure LiveOk (s : Pmm) (d : PmAlloc) : Prop where
  size_le : d.size.toNat ≤ 10
  aligned : (s.addrToPageNo d.addr).toNat % 2 ^ d.size.toNat = 0
  place : (s.addrToPageNo d.addr).toNat + 2 ^ d.size.toNat ≤ s.singelPageFirstNo.toNat ∨
    s.singelPageFirstNo ≤ s.addrToPageNo d.addr ∧ s.addrToPageNo d.addr < s.maxPageNo ∧
      d.size = 0 ∧ s.next (s.addrToPageNo d.addr) = none

/-- The allocator is well formed, and each page below `pmm_max_page_no` has exactly one owner. -/
structure Owned (c : Client) (L : Lists) : Prop where
  sound : c.pmm.Sound L
  covered : cover (c.liveBlocks + L.blocks) = Multiset.range c.pmm.maxPageNo.toNat
  live : ∀ d ∈ c.live, LiveOk c.pmm d

variable {c : Client} {L L' : Lists} {s t : Pmm} {d : PmAlloc} {l : List UInt32} {k : Fin 11}
  {live : List PmAlloc}

theorem Owned.apart (h : c.Owned L) : c.Apart := by
  have hcov := h.covered
  rw [← h.sound.holds.lists_eq] at hcov
  refine ⟨cover_nodup_iff.mp ?_, fun b hb => le_of_cover hcov hb⟩
  rw [blocks, hcov]
  exact Multiset.nodup_range _

theorem LiveOk.frame (h : LiveOk s d) (hf : Pmm.Frame l s t) (hd : s.addrToPageNo d.addr ∉ l) :
    LiveOk t d := by
  have e : t.addrToPageNo d.addr = s.addrToPageNo d.addr := by
    simp only [Pmm.addrToPageNo, hf.pageStart]
  refine ⟨h.size_le, e ▸ h.aligned, ?_⟩
  rw [e, hf.singelPageFirstNo, hf.maxPageNo, hf.next _ hd]
  exact h.place

/-- No page of a live descriptor is in a list. -/
theorem Owned.live_fresh (h : Owned ⟨s, live⟩ L) (hd : d ∈ live) {x : ℕ}
    (hx : x ∈ (s.blockAt d).pages) : x ∉ cover L.blocks := by
  have hnd : (cover (liveBlocks ⟨s, live⟩) + cover L.blocks).Nodup := by
    rw [← cover_add, h.covered]
    exact Multiset.nodup_range _
  have hmem : s.blockAt d ∈ liveBlocks ⟨s, live⟩ := Multiset.mem_map_of_mem _ hd
  exact Multiset.disjoint_left.mp (Multiset.nodup_add.mp hnd).2.2 (mem_cover.mpr ⟨_, hmem, hx⟩)

theorem Owned.live_notMem (h : Owned ⟨s, live⟩ L) (hd : d ∈ live)
    (hl : ∀ q ∈ l, q.toNat ∈ cover L.blocks) : s.addrToPageNo d.addr ∉ l :=
  fun hmem => h.live_fresh hd (Block.base_mem_pages _) (hl _ hmem)

/-- A block moves from the lists to the live descriptors. -/
theorem Owned.allocated (h : Owned ⟨s, live⟩ L) (hs : t.Sound L') (hf : Pmm.Frame l s t)
    (hl : ∀ q ∈ l, q.toNat ∈ cover L.blocks)
    (hcov : cover L.blocks = (t.blockAt d).pages.val + cover L'.blocks) (hd : LiveOk t d) :
    Owned ⟨t, d :: live⟩ L' := by
  refine ⟨hs, ?_, ?_⟩
  · have hcov' := h.covered
    simp only [liveBlocks, cover_add, hcov, ← hf.blockAt_eq, ← hf.maxPageNo] at hcov'
    simp only [liveBlocks, ← Multiset.cons_coe, Multiset.map_cons, cover_add, cover_cons]
    rw [← hcov']
    abel
  · intro e he
    rcases List.mem_cons.mp he with rfl | he
    · exact hd
    · exact (h.live e he).frame hf (h.live_notMem he hl)

/-- The block of a live descriptor moves to the lists. -/
theorem Owned.freed (h : Owned ⟨s, live⟩ L) (hd : d ∈ live) (hs : t.Sound L')
    (hf : Pmm.Frame (s.addrToPageNo d.addr :: l) s t)
    (hl : ∀ q ∈ l, q.toNat ∈ cover L.blocks)
    (hcov : cover L'.blocks = (s.blockAt d).pages.val + cover L.blocks) :
    Owned ⟨t, live.erase d⟩ L' := by
  have hsplit : (live : Multiset PmAlloc) = d ::ₘ (live.erase d : List PmAlloc) := by
    rw [← Multiset.coe_erase, Multiset.cons_erase (Multiset.mem_coe.mpr hd)]
  have hcov' := h.covered
  simp only [liveBlocks, hsplit, Multiset.map_cons, cover_add, cover_cons] at hcov'
  have hnd : ((s.blockAt d).pages.val +
      cover (((live.erase d : List PmAlloc) : Multiset PmAlloc).map s.blockAt)).Nodup := by
    have := Multiset.nodup_range s.maxPageNo.toNat
    rw [← hcov'] at this
    exact (Multiset.nodup_add.mp this).1
  refine ⟨hs, ?_, fun e he => (h.live e (List.mem_of_mem_erase he)).frame hf ?_⟩
  · simp only [liveBlocks, cover_add, hcov, hf.blockAt_eq, hf.maxPageNo]
    rw [← hcov']
    abel
  · intro hmem
    rcases List.mem_cons.mp hmem with hed | hmem
    · have he' : s.blockAt e ∈ ((live.erase d : List PmAlloc) : Multiset PmAlloc).map s.blockAt :=
        Multiset.mem_map_of_mem _ he
      refine Multiset.disjoint_left.mp (Multiset.nodup_add.mp hnd).2.2
        (Block.base_mem_pages (s.blockAt d)) (mem_cover.mpr ⟨_, he', ?_⟩)
      have hbase : (s.blockAt d).base = (s.blockAt e).base := by
        simp only [Pmm.blockAt, hed]
      rw [hbase]
      exact Block.base_mem_pages _
    · exact h.live_notMem (List.mem_of_mem_erase he) hl hmem

theorem mem_cover_buddy {p : UInt32} (hp : p ∈ L.buddy k) : p.toNat ∈ cover L.blocks :=
  mem_cover.mpr ⟨_, Lists.mem_blocks_of_buddy hp, Block.base_mem_pages _⟩

theorem mem_cover_single {p : UInt32} (hp : p ∈ L.single) : p.toNat ∈ cover L.blocks :=
  mem_cover.mpr ⟨_, Lists.mem_blocks_of_single hp, Block.base_mem_pages _⟩

/-! ### The steps -/

theorem Owned.receive_failed (h : Owned ⟨s, live⟩ L) : (receive live (Pmm.failed, s)).Owned L := h

theorem Owned.step_allocPages (h : c.Owned L) {pageCount : UInt32}
    (hw : c.pmm.ServedWhole pageCount) :
    ∃ c' L', (c.pmm.allocPages pageCount).map (receive c.live) = some c' ∧ c'.Owned L' ∧
      c'.pmm.maxPageNo = c.pmm.maxPageNo := by
  obtain ⟨s, live⟩ := c
  rcases h.sound.allocPages_eq hw with he | ⟨k, l, p, t, hc, hl, he, hs, hf⟩
  · refine ⟨_, L, by rw [he]; rfl, h.receive_failed, rfl⟩
  · have hp : p ∈ L.buddy k := by simp [hl]
    obtain ⟨hal, hle⟩ := h.sound.buddy k p hp
    have hmax := h.sound.max_le
    have hlt := UInt32.lt_iff_toNat_lt.mp (h.sound.buddy_lt hp)
    have hcv := Pmm.listOf_eq hc
    have haddr : t.addrToPageNo (s.pageNoToAddr p) = p := by
      have := s.addrToPageNo_pageNoToAddr (p := p) (lt_of_lt_of_le hlt hmax)
      rwa [Pmm.addrToPageNo, ← hf.pageStart] at this
    refine ⟨⟨t, ⟨s.pageNoToAddr p, Pmm.originPh pageCount, 1⟩ :: live⟩, L.set k l, ?_,
      h.allocated hs hf (fun q hq => mem_cover_buddy hq) ?_ ⟨?_, ?_, Or.inl ?_⟩, hf.maxPageNo⟩
    · simp only [he, Option.map_some, receive, if_true]
    · simp only [Pmm.blockAt, haddr, hcv]
      exact Lists.cover_pop hl
    · simp only [hcv]
      omega
    · simp only [haddr, hcv, hal]
    · simp only [haddr, hcv, hf.singelPageFirstNo, hle]

theorem Owned.step_allocOnePage (h : c.Owned L)
    (hw : c.pmm.singleLink ≠ none ∨ c.pmm.ServedWhole 1) :
    ∃ c' L', c.pmm.allocOnePage.map (receive c.live) = some c' ∧ c'.Owned L' ∧
      c'.pmm.maxPageNo = c.pmm.maxPageNo := by
  by_cases hsl : c.pmm.singleLink = none
  · rw [Pmm.allocOnePage_none hsl]
    exact h.step_allocPages (hw.resolve_left fun hne => hne hsl)
  · obtain ⟨s, live⟩ := c
    obtain ⟨l, p, t, hl, he, hs, hf, hn⟩ := h.sound.allocOnePage_eq hsl
    obtain ⟨hge, hlt⟩ := h.sound.single p (by simp [hl])
    have hmax := h.sound.max_le
    have hlt' := UInt32.lt_iff_toNat_lt.mp hlt
    have haddr : t.addrToPageNo (s.pageNoToAddr p) = p := by
      have := s.addrToPageNo_pageNoToAddr (p := p) (lt_of_lt_of_le hlt' hmax)
      rwa [Pmm.addrToPageNo, ← hf.pageStart] at this
    refine ⟨⟨t, ⟨s.pageNoToAddr p, 0, 1⟩ :: live⟩, { L with single := l }, ?_,
      h.allocated hs hf (fun q hq => mem_cover_single (by simp [hl, hq])) ?_
        ⟨?_, ?_, Or.inr ?_⟩, hf.maxPageNo⟩
    · simp only [he, Option.map_some, receive, if_true]
    · simp only [Pmm.blockAt, haddr]
      exact Lists.cover_popSingle hl
    · exact Nat.zero_le 10
    · exact Nat.mod_one _
    · simp only [haddr, hf.singelPageFirstNo, hf.maxPageNo]
      exact ⟨hge, hlt, trivial, hn⟩

theorem Owned.step_freePage (h : c.Owned L) (hd : d ∈ c.live)
    (hw : Whole (.freePage d) c) :
    ∃ c' L', step (.freePage d) c = some c' ∧ c'.Owned L' ∧
      c'.pmm.maxPageNo = c.pmm.maxPageNo := by
  obtain ⟨s, live⟩ := c
  have hok := h.live d hd
  simp only [Whole, h.sound.holds.lists_eq] at hw
  have hnd : ((s.blockAt d).pages.val + cover L.blocks).Nodup :=
    Multiset.nodup_add.mpr ⟨Finset.nodup _, (Multiset.nodup_add.mp (by
      have := Multiset.nodup_range s.maxPageNo.toNat
      rwa [← h.covered, cover_add] at this)).2.1,
      Multiset.disjoint_left.mpr fun hx => h.live_fresh hd hx⟩
  have hfresh : L.Fresh (s.addrToPageNo d.addr) :=
    Lists.fresh_of_not_covered (h.live_fresh hd (Block.base_mem_pages _))
  have hsl := h.sound.singel_le
  by_cases hlt : s.addrToPageNo d.addr < s.singelPageFirstNo
  · -- a block of the buddy lists
    have hplace := hok.place.resolve_right fun hp => UInt32.not_lt.mpr hp.1 hlt
    obtain ⟨t, L', l, he, hs, -, hcov, hf, hl⟩ := h.sound.freeHelper_eq hok.size_le hok.aligned
      hplace hnd (hw hlt) (n := 13) (by omega)
    have hmax : s.addrToPageNo d.addr < s.maxPageNo :=
      UInt32.lt_of_lt_of_le hlt (UInt32.le_iff_toNat_le.mpr hsl)
    refine ⟨⟨t, live.erase d⟩, L', ?_, h.freed hd hs hf ?_ hcov, hf.maxPageNo⟩
    · simp only [step, Pmm.freePage, if_pos hmax, if_pos hlt, he, Option.bind_eq_bind,
        Option.bind_some, Option.map_some]
    · intro q hq
      obtain ⟨k, hk⟩ := hl q hq
      exact mem_cover_buddy hk
  · -- a single page
    have hge := UInt32.not_lt.mp hlt
    have hpos := Nat.two_pow_pos d.size.toNat
    have hle := UInt32.le_iff_toNat_le.mp hge
    obtain ⟨-, hmax, hsize, hn⟩ := hok.place.resolve_left fun hp => by
      simp only at hp
      omega
    obtain ⟨t, he, hs, hf⟩ := h.sound.freePage_single rfl hmax hge hfresh hn
    refine ⟨⟨t, live.erase d⟩, _, ?_, h.freed hd hs (hf.mono (List.subset_cons_self _ _))
      (fun q hq => mem_cover_single hq) ?_, hf.maxPageNo⟩
    · simp only [step, he, Option.map_some]
    · rw [Lists.cover_pushSingle, Pmm.blockAt, hsize]
      rfl

theorem Owned.step_eq {e : PmmOp} (h : c.Owned L) (ha : Allowed e c) (hw : Whole e c) :
    ∃ c' L', step e c = some c' ∧ c'.Owned L' ∧ c'.pmm.maxPageNo = c.pmm.maxPageNo := by
  cases e with
  | allocPages pageCount => exact h.step_allocPages hw
  | allocOnePage => exact h.step_allocOnePage hw
  | freePage d => exact h.step_freePage ha hw

/-- **No page has two owners** in a run from `pmm_page_init` that splits no block and does not
merge up to class `_erro`, on a machine whose page array ends below the text buffer of the
screen: every call ends, and in the state reached the live allocations, the blocks of the buddy
lists and the single pages are disjoint and lie below `pmm_max_page_no`. -/
theorem apart_of_whole (s : Pmm) (hs : s.singleLink = none) (hge : 2048 ≤ s.maxPageNo.toNat)
    (hmax : s.maxPageNo.toNat ≤ 62784) :
    ∃ t, s.pageInit = some t ∧ t.maxPageNo = s.maxPageNo ∧
      ∀ es, Along step Allowed es ⟨t, []⟩ → Along step Whole es ⟨t, []⟩ →
        ∃ c, run step es ⟨t, []⟩ = some c ∧ c.pmm.maxPageNo = s.maxPageNo ∧ c.Apart := by
  obtain ⟨t, L, ht, hsound, hm, hcov⟩ := Pmm.pageInit_sound s hs hge (by omega)
  have h₀ : Owned ⟨t, []⟩ L := by
    refine ⟨hsound, ?_, fun d hd => absurd hd List.not_mem_nil⟩
    rw [← hm] at hcov
    simpa [liveBlocks] using hcov
  refine ⟨t, ht, hm, ?_⟩
  intro es ha hw
  have hQ := ha.and hw
  have hI : ∀ e c c', (∃ L, Owned c L ∧ c.pmm.maxPageNo = s.maxPageNo) →
      (Allowed e c ∧ Whole e c) → step e c = some c' →
      ∃ L, Owned c' L ∧ c'.pmm.maxPageNo = s.maxPageNo := by
    rintro e c c' ⟨L, hL, hcm⟩ ⟨hae, hwe⟩ he
    obtain ⟨c'', L', he', hL', hm'⟩ := hL.step_eq hae hwe
    obtain rfl := Option.some.inj (he.symm.trans he')
    exact ⟨L', hL', hm'.trans hcm⟩
  have hI₀ : ∃ L, Owned ⟨t, []⟩ L ∧ t.maxPageNo = s.maxPageNo := ⟨L, h₀, hm⟩
  obtain ⟨c, hc⟩ := run_isSome hI (fun e c hc hq => by
    obtain ⟨L, hL, -⟩ := hc
    obtain ⟨c', -, he, -, -⟩ := hL.step_eq hq.1 hq.2
    exact ⟨c', he⟩) hI₀ hQ
  obtain ⟨L', hL', hm'⟩ := invariant hI hI₀ hQ hc
  exact ⟨c, hc, hm', hL'.apart⟩

/-- The state before `pmm_page_init` on a machine with 2048 pages from 2 MiB on. -/
def smallPmm : Pmm :=
  { Pmm.zero with pageStart := 0x200000, pageEnd := 0xA00000, maxPageNo := 2048 }

theorem apart_of_whole_cycle : ∃ t c, smallPmm.pageInit = some t ∧
    run step [.allocPages 1024, .freePage ⟨0x600000, 10, 1⟩, .allocOnePage] ⟨t, []⟩ = some c ∧
      c.Apart := by
  obtain ⟨t, ht, -, h⟩ := apart_of_whole smallPmm rfl (by decide) (by decide)
  have hside : (smallPmm.pageInit.all fun t => decide
      (Along step (fun e c => Allowed e c ∧ Whole e c)
        [.allocPages 1024, .freePage ⟨0x600000, 10, 1⟩, .allocOnePage] ⟨t, []⟩)) = true := by
    decide +kernel
  rw [ht] at hside
  have hside := of_decide_eq_true hside
  obtain ⟨c, hc, -, hap⟩ := h _ (hside.mono fun _ _ h => h.1) (hside.mono fun _ _ h => h.2)
  exact ⟨t, c, ht, hc, hap⟩

theorem Apart.live_disjoint {a b : Block} {bs : List Block} (h : c.Apart)
    (hl : c.live.map c.pmm.blockAt = a :: b :: bs) : Disjoint a.pages b.pages := by
  have hnd := cover_nodup_iff.mpr h.disjoint
  rw [blocks, liveBlocks, Multiset.map_coe, hl, ← Multiset.cons_coe, ← Multiset.cons_coe,
    Multiset.cons_add, Multiset.cons_add] at hnd
  exact disjoint_of_nodup hnd

/-- Splitting the block of the pages 2 and 3 puts page 3 into the list of class 1, where it
stands for the pages 3 and 4; the request for 2 pages then takes it, and the request for 4 pages
takes the block that starts with page 4. -/
theorem two_owners : ∃ t c, smallPmm.pageInit = some t ∧
    run step [.allocPages 1, .allocPages 1, .allocPages 1, .allocPages 2, .allocPages 4] ⟨t, []⟩ =
      some c ∧ ¬ c.Apart := by
  have hlive : (smallPmm.pageInit.bind fun t => (run step [.allocPages 1, .allocPages 1,
      .allocPages 1, .allocPages 2, .allocPages 4] ⟨t, []⟩).map fun c =>
        c.live.map c.pmm.blockAt) = some [⟨4, 2⟩, ⟨3, 1⟩, ⟨2, 0⟩, ⟨0, 0⟩, ⟨1, 0⟩] := by
    decide +kernel
  obtain ⟨t, ht, hlive⟩ := Option.bind_eq_some_iff.mp hlive
  obtain ⟨c, hc, hlive⟩ := Option.map_eq_some_iff.mp hlive
  refine ⟨t, c, ht, hc, ?_⟩
  intro h
  have h4 : 4 ∈ (Block.mk 4 2).pages := by decide
  exact Finset.disjoint_left.mp (h.live_disjoint hlive) h4 (by decide)

end Client
end BHOS
