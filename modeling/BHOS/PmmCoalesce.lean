import BHOS.PmmOwnership

/-! # What a call of `pmm_free_page` keeps

Two things are asked of a free.  It should neither lose nor invent pages (`Conserves`), and no two
buddies should be left in the list of one class (`Unpaired`).  The first fails when merging goes on
beyond class `_1024`; the second also fails when `find_and_pop_block` misses a buddy that is there,
as it does with the first of several blocks of a list. -/

namespace BHOS

open Blocks Linked

namespace Pmm

variable {s t : Pmm} {L : Lists} {k : Fin 11} {p : UInt32} {c : PageC} {d : PmAlloc}

/-- The classes that `pmm_free_page` hands to `find_and_pop_block` and `append_block`. -/
def freeClasses (s : Pmm) (blockDisc : PmAlloc) : List PageC :=
  let pageNo := s.addrToPageNo blockDisc.addr
  if pageNo < s.maxPageNo ∧ pageNo < s.singelPageFirstNo then
    helperClasses 13 pageNo blockDisc.size s
  else []

/-- A live block: aligned and below the single pages, or a single page with a null `next` field;
and apart from all free blocks. -/
structure Freeable (s : Pmm) (L : Lists) (d : PmAlloc) : Prop where
  size_le : d.size.toNat ≤ 10
  aligned : (s.addrToPageNo d.addr).toNat % 2 ^ d.size.toNat = 0
  place : (s.addrToPageNo d.addr).toNat + 2 ^ d.size.toNat ≤ s.singelPageFirstNo.toNat ∨
    s.singelPageFirstNo ≤ s.addrToPageNo d.addr ∧ d.size = 0 ∧ s.next (s.addrToPageNo d.addr) = none
  disjoint : ((s.blockAt d).pages.val + cover L.blocks).Nodup

/-- The free calls `append_block` and `find_and_pop_block` with the classes `_1` to `_1024` only,
and when it returns `True` the blocks are aligned and the free pages are those of before and those
of the freed block. -/
structure Conserves (s : Pmm) (d : PmAlloc) : Prop where
  classes : ∀ c ∈ s.freeClasses d, c.toNat ≤ 10
  returns : ∃ b t, s.freePage d = some (b, t) ∧ (b = true →
    (∀ k, ∀ p ∈ t.lists.buddy k, p.toNat % 2 ^ k.val = 0) ∧
      cover t.lists.blocks = (s.blockAt d).pages.val + cover s.lists.blocks)

/-- No two blocks of the list of a class below `_1024` are buddies. -/
def Unpaired (L : Lists) : Prop :=
  ∀ k : Fin 11, k.val < 10 → ∀ p ∈ L.buddy k, ∀ q ∈ L.buddy k, q.toNat ≠ buddy p.toNat k

instance (L : Lists) : Decidable (Unpaired L) :=
  have (k : Fin 11) (p : UInt32) : Decidable (∀ q ∈ L.buddy k, q.toNat ≠ buddy p.toNat k) :=
    List.decidableBAll _ _
  have (k : Fin 11) : Decidable (∀ p ∈ L.buddy k, ∀ q ∈ L.buddy k, q.toNat ≠ buddy p.toNat k) :=
    List.decidableBAll _ _
  inferInstanceAs (Decidable (∀ k : Fin 11, k.val < 10 → _))

/-! ### Blocks of the buddy lists -/

theorem Freeable.detached (hd : Freeable s L d)
    (hlt : s.addrToPageNo d.addr < s.singelPageFirstNo) :
    Detached s L (s.addrToPageNo d.addr) d.size :=
  ⟨hd.size_le, hd.aligned, hd.place.resolve_right fun hp => UInt32.not_lt.mpr hp.1 hlt, hd.disjoint⟩

theorem freePage_of_lt (h : Sound s L) (hlt : s.addrToPageNo d.addr < s.singelPageFirstNo) :
    s.freePage d = (freeHelper 13 (s.addrToPageNo d.addr) d.size s).map fun t => (true, t) := by
  have hmax : s.addrToPageNo d.addr < s.maxPageNo :=
    UInt32.lt_of_lt_of_le hlt (UInt32.le_iff_toNat_le.mpr h.singel_le)
  unfold freePage
  simp only [if_pos hmax, if_pos hlt]
  cases freeHelper 13 (s.addrToPageNo d.addr) d.size s <;> rfl

theorem freeClasses_of_lt (h : Sound s L) (hlt : s.addrToPageNo d.addr < s.singelPageFirstNo) :
    s.freeClasses d = helperClasses 13 (s.addrToPageNo d.addr) d.size s := by
  have hmax : s.addrToPageNo d.addr < s.maxPageNo :=
    UInt32.lt_of_lt_of_le hlt (UInt32.le_iff_toNat_le.mpr h.singel_le)
  unfold freeClasses
  exact if_pos ⟨hmax, hlt⟩

/-- A free whose merging stops. -/
theorem Sound.freePage_stops (h : Sound s L) (hd : Freeable s L d)
    (hlt : s.addrToPageNo d.addr < s.singelPageFirstNo)
    (hstop : StopsAt L (s.addrToPageNo d.addr) d.size k) :
    ∃ t, s.freePage d = some (true, t) ∧ Sound t (L.merged (s.addrToPageNo d.addr) d.size k) ∧
      cover (L.merged (s.addrToPageNo d.addr) d.size k).blocks =
        (s.blockAt d).pages.val + cover L.blocks ∧ ∀ c ∈ s.freeClasses d, c.toNat ≤ 10 := by
  obtain ⟨t, l, ht, hs, hcov, -, -, hcls⟩ := h.freeHelper_stops (n := 13) (hd.detached hlt) hstop
    (by omega)
  rw [freePage_of_lt h hlt, freeClasses_of_lt h hlt, ht]
  exact ⟨t, rfl, hs, hcov, hcls⟩

/-- A free whose merging does not stop. -/
theorem Sound.freePage_runs_out (h : Sound s L) (hd : Freeable s L d)
    (hlt : s.addrToPageNo d.addr < s.singelPageFirstNo)
    (hnone : ¬ ∃ k, StopsAt L (s.addrToPageNo d.addr) d.size k) :
    s.freePage d = none ∧ erro ∈ s.freeClasses d := by
  have hb := hd.detached hlt
  have hp := h.lt_of_detached hb
  have hall : ∀ j : Fin 11, d.size.toNat ≤ j.val →
      Findable (L.buddy j) (buddyAt (s.addrToPageNo d.addr) j) := by
    intro j hj
    by_contra hmiss
    exact hnone (exists_stopsAt hj hmiss)
  obtain ⟨hrun, hmem⟩ := h.freeHelper_runs_out (n := 13) hb hall (by omega)
  rw [freePage_of_lt h hlt, freeClasses_of_lt h hlt, hrun]
  exact ⟨rfl, hmem⟩

/-! ### Single pages -/

/-- A free of a single page leaves the buddy lists alone. -/
theorem Sound.freePage_of_ge (h : Sound s L) (hd : Freeable s L d)
    (hge : ¬ s.addrToPageNo d.addr < s.singelPageFirstNo) :
    s.freeClasses d = [] ∧ ∃ b t L', s.freePage d = some (b, t) ∧ Sound t L' ∧
      L'.buddy = L.buddy ∧
      (b = true → cover L'.blocks = (s.blockAt d).pages.val + cover L.blocks) := by
  refine ⟨if_neg fun hn => hge hn.2, ?_⟩
  by_cases hmax : s.addrToPageNo d.addr < s.maxPageNo
  · have hle := UInt32.not_lt.mp hge
    have hpos := Nat.two_pow_pos d.size.toNat
    obtain ⟨-, hsize, hn⟩ := hd.place.resolve_left fun hp => by
      have := UInt32.le_iff_toNat_le.mp hle
      omega
    have hfresh : L.Fresh (s.addrToPageNo d.addr) := Lists.fresh_of_nodup hd.disjoint
    obtain ⟨t, ht, hs, -⟩ := h.freePage_single rfl hmax hle hfresh hn
    refine ⟨true, t, _, ht, hs, rfl, ?_⟩
    intro _
    rw [Lists.cover_pushSingle, blockAt, hsize]
    rfl
  · refine ⟨false, s, L, ?_, h, rfl, fun hb => absurd hb Bool.false_ne_true⟩
    unfold freePage
    simp only [if_neg hmax]

/-! ### Two small states -/

/-- An allocator whose only free blocks are the list `l` of class `k`, linked by `next`. -/
def freeOnly (pages : UInt32) (k : ℕ) (l : List UInt32) (next : UInt32 → Option UInt32) : Pmm :=
  { Pmm.zero with
    maxPageNo := pages
    singelPageFirstNo := pages
    pageArray := fun p => ⟨p, next p, 1⟩
    multiLink := fun j => if j.val = k then l.head? else none }

theorem sound_freeOnly {pages : UInt32} {l : List UInt32} {next : UInt32 → Option UInt32}
    (hmax : pages.toNat ≤ 2 ^ 20) (hmod : pages.toNat % 2 ^ 10 = 0)
    (hl : IsList next l.head? l)
    (hblocks : ∀ p ∈ l, p.toNat % 2 ^ k.val = 0 ∧ p.toNat + 2 ^ k.val ≤ pages.toNat) :
    Sound (freeOnly pages k l next) (Lists.empty.set k l) := by
  have hother : ∀ j ≠ k, (Lists.empty.set k l).buddy j = [] := fun j hj => Lists.set_of_ne _ hj l
  refine ⟨⟨?_, rfl, ?_, fun _ _ _ => List.not_mem_nil⟩,
    fun _ _ => rfl, hmax, le_rfl, hmod, ?_, nofun⟩
  · intro j
    by_cases hj : j = k
    · subst hj
      rw [Lists.set_self]
      show IsList next (if j.val = j.val then l.head? else none) l
      rwa [if_pos rfl]
    · rw [hother j hj]
      exact if_neg fun e => hj (Fin.ext e)
  · intro i j hij p hi hj
    by_cases hik : i = k
    · rw [hother j fun hjk => hij (hik.trans hjk.symm)] at hj
      exact List.not_mem_nil hj
    · rw [hother i hik] at hi
      exact List.not_mem_nil hi
  · intro j p hp
    by_cases hj : j = k
    · subst hj
      rw [Lists.set_self] at hp
      exact hblocks p hp
    · rw [hother j hj] at hp
      exact absurd hp List.not_mem_nil

theorem blocks_only (k : Fin 11) (l : List UInt32) :
    (Lists.empty.set k l).blocks = blocksOf k l := by
  have h := Lists.empty.blocks_set k l
  have hempty : Lists.empty.blocks = 0 := by simp [Lists.blocks, Lists.empty]
  have hnil : Lists.empty.buddy k = [] := rfl
  rwa [hempty, hnil, blocksOf_nil, add_zero, zero_add] at h

theorem freeable_freeOnly {pages : UInt32} {l : List UInt32} {next : UInt32 → Option UInt32}
    (hsize : d.size.toNat ≤ 10) (hal : (d.addr >>> 12).toNat % 2 ^ d.size.toNat = 0)
    (hle : (d.addr >>> 12).toNat + 2 ^ d.size.toNat ≤ pages.toNat)
    (hdis : (cover (⟨(d.addr >>> 12).toNat, d.size.toNat⟩ ::ₘ blocksOf k l)).Nodup) :
    Freeable (freeOnly pages k l next) (Lists.empty.set k l) d := by
  have hpage : (freeOnly pages k l next).addrToPageNo d.addr = d.addr >>> 12 := by
    show (d.addr - 0) >>> 12 = d.addr >>> 12
    rw [UInt32.sub_zero]
  refine ⟨hsize, hpage ▸ hal, Or.inl (hpage ▸ hle), ?_⟩
  rw [blocks_only, blockAt, hpage, ← cover_cons]
  exact hdis

/-- Two free pages: 2, and after it in the list 5. -/
def twoPages : Pmm := freeOnly 1024 0 [2, 5] fun p => if p = 2 then some 5 else none

theorem sound_twoPages : Sound twoPages (Lists.empty.set 0 [2, 5]) := by
  refine sound_freeOnly (k := 0) (by decide) (by decide) ⟨rfl, rfl, rfl⟩ fun p hp => ?_
  simp only [List.mem_cons, List.not_mem_nil, or_false] at hp
  obtain rfl | rfl := hp <;> decide

/-- One free block of 1024 pages. -/
def largeBlock : Pmm := freeOnly 4096 10 [2048] fun _ => none

theorem sound_largeBlock : Sound largeBlock (Lists.empty.set 10 [2048]) := by
  refine sound_freeOnly (k := 10) (by decide) (by decide) ⟨rfl, rfl⟩ fun p hp => ?_
  rw [List.mem_singleton.mp hp]
  decide

/-- The pages 3072 to 4095 are the buddy of the free block. -/
theorem freeable_largeBlock :
    Freeable largeBlock (Lists.empty.set 10 [2048]) ⟨0xC00000, 10, 1⟩ := by
  apply freeable_freeOnly (k := 10) (by decide) (by decide) (by decide)
  show (cover ({⟨3072, 10⟩} + {⟨2048, 10⟩})).Nodup
  rw [cover_add, cover_singleton, cover_singleton]
  refine Multiset.nodup_add.mpr ⟨Finset.nodup _, Finset.nodup _, Finset.disjoint_val.mpr ?_⟩
  exact (Finset.Ico_disjoint_Ico_consecutive 2048 3072 4096).symm

/-! ### The search for one block -/

/-- `find_and_pop_block` on the list `l` of class `k`: a target in the list is returned and only it
is taken out; for any other target `ERRO_POP_BLOCK` is returned and nothing changes. -/
def FindsExactly (s : Pmm) (c : PageC) (k : Fin 11) (l : List UInt32) (target : UInt32) : Prop :=
  ∃ r t, s.findAndPopBlock target c = some (r, t) ∧
    (target ∈ l → r = target ∧ Relinked s t k l (l.erase target)) ∧
    (target ∉ l → r = erroPopBlock ∧ t = s)

/-- Of the pages of a list only the first of several is not found. -/
theorem findable_iff_of_mem {l : List UInt32} (hnd : l.Nodup) (hp : p ∈ l) :
    Findable l p ↔ ¬ (l.head? = some p ∧ 2 ≤ l.length) := by
  cases l with
  | nil => cases hp
  | cons a l =>
      unfold Findable
      rw [List.tail_cons, List.head?_cons, List.length_cons]
      obtain ⟨ha, -⟩ := List.nodup_cons.mp hnd
      by_cases hap : a = p
      · subst hap
        cases l with
        | nil => simp
        | cons b l => simpa using ha
      · have hpl : p ∈ l := (List.mem_cons.mp hp).resolve_left (Ne.symm hap)
        simp [hap, hpl]

/-- A page that is in the list and not found stays there. -/
theorem FindsExactly.findable {l : List UInt32} {target : UInt32}
    (h : FindsExactly s c k l target) (hc : listOf c = some k)
    (hl : IsList s.next (s.multiLink k) l) (hno : ∀ p ∈ l, (s.pageArray p).pageNo = p)
    (hp : target ∈ l) : Findable l target := by
  by_contra hmiss
  obtain ⟨r, t, ht, hfound, -⟩ := h
  have hrun := findAndPopBlock_missed hc hl hno hmiss
  obtain ⟨rfl, rfl⟩ := Prod.mk.inj (Option.some.inj (ht.symm.trans hrun))
  obtain ⟨-, hr⟩ := hfound hp
  have herase : l = l.erase target := hl.unique hr.list
  have hlen := congrArg List.length herase
  rw [List.length_erase_of_mem hp] at hlen
  have hpos := List.length_pos_of_mem hp
  omega

/-- **`find_and_pop_block` is exact** unless the target is the first of several blocks. -/
theorem findsExactly_iff (s : Pmm) (c : PageC) (k : Fin 11) (l : List UInt32) (target : UInt32)
    (hc : listOf c = some k) (hl : IsList s.next (s.multiLink k) l)
    (hno : ∀ p ∈ l, (s.pageArray p).pageNo = p) :
    FindsExactly s c k l target ↔ ¬ (l.head? = some target ∧ 2 ≤ l.length) := by
  by_cases hp : target ∈ l
  · rw [← findable_iff_of_mem hl.nodup hp]
    constructor
    · intro h
      exact h.findable hc hl hno hp
    · intro hf
      obtain ⟨t, ht, hr⟩ := findAndPopBlock_found hc hl hno hf
      exact ⟨target, t, ht, fun _ => ⟨rfl, hr⟩, fun hn => absurd hp hn⟩
  · have hmiss := findAndPopBlock_missed hc hl hno fun hf => hp hf.mem
    refine iff_of_true ?_ ?_
    · exact ⟨erroPopBlock, s, hmiss, fun h => absurd h hp, fun _ => ⟨rfl, rfl⟩⟩
    · rintro ⟨hhead, -⟩
      exact hp (List.mem_of_mem_head? hhead)

theorem isList_twoPages : IsList twoPages.next (twoPages.multiLink 0) [2, 5] := ⟨rfl, rfl, rfl⟩

/-- The second of the two pages is found. -/
theorem findsExactly_twoPages : FindsExactly twoPages 0 0 [2, 5] 5 :=
  (findsExactly_iff twoPages 0 0 [2, 5] 5 rfl isList_twoPages fun _ _ => rfl).mpr (by decide)

/-- The first of the two pages is not found. -/
theorem not_findsExactly_twoPages : ¬ FindsExactly twoPages 0 0 [2, 5] 2 := by
  intro h
  have hf := h.findable rfl isList_twoPages (fun _ _ => rfl) (by decide)
  exact absurd hf (by decide)

/-! ### No page is lost or invented -/

/-- **Freeing loses and invents no page**, and calls no function with class `_erro`, exactly when
merging stops: on the way up from the class of the block some buddy is not found. -/
theorem conserves_iff_stops (s : Pmm) (L : Lists) (d : PmAlloc) (h : Sound s L)
    (hd : Freeable s L d) : Conserves s d ↔ (s.addrToPageNo d.addr < s.singelPageFirstNo →
      MergeStops L (s.addrToPageNo d.addr) d.size) := by
  have hL : s.lists = L := h.holds.lists_eq
  by_cases hlt : s.addrToPageNo d.addr < s.singelPageFirstNo
  · have hp := h.lt_of_detached (hd.detached hlt)
    rw [mergeStops_iff (by omega)]
    by_cases hstop : ∃ k, StopsAt L (s.addrToPageNo d.addr) d.size k
    · obtain ⟨k, hk⟩ := hstop
      obtain ⟨t, ht, hs, hcov, hcls⟩ := h.freePage_stops hd hlt hk
      refine iff_of_true ⟨hcls, true, t, ht, ?_⟩ fun _ => ⟨k, hk⟩
      intro _
      rw [hs.holds.lists_eq, hL]
      exact ⟨fun j p hp => (hs.buddy j p hp).1, hcov⟩
    · obtain ⟨hnone, hmem⟩ := h.freePage_runs_out hd hlt hstop
      refine iff_of_false ?_ fun hn => hstop (hn hlt)
      intro hc
      exact absurd (hc.classes erro hmem) (by decide)
  · obtain ⟨hcls, b, t, L', ht, hs, -, hcov⟩ := h.freePage_of_ge hd hlt
    refine iff_of_true ⟨?_, b, t, ht, ?_⟩ fun hn => absurd hn hlt
    · rw [hcls]
      exact fun c hc => absurd hc List.not_mem_nil
    · intro hb
      rw [hs.holds.lists_eq, hL]
      exact ⟨fun j p hp => (hs.buddy j p hp).1, hcov hb⟩

theorem conserves_iff_stops_twoPages : Conserves twoPages ⟨0x3000, 0, 1⟩ := by
  have hd : Freeable twoPages (Lists.empty.set 0 [2, 5]) ⟨0x3000, 0, 1⟩ :=
    freeable_freeOnly (k := 0) (by decide) (by decide) (by decide) (by decide)
  apply (conserves_iff_stops twoPages _ _ sound_twoPages hd).mpr
  intro _
  decide +kernel

/-- The two halves of the pages 2048 to 4095 are merged to a block of class `_erro`. -/
theorem merges_beyond_last : ∃ s L d, Sound s L ∧ Freeable s L d ∧ ¬ Conserves s d := by
  have hlt : largeBlock.addrToPageNo 0xC00000 < largeBlock.singelPageFirstNo := by decide
  have hnone : ¬ ∃ k, StopsAt (Lists.empty.set 10 [2048]) 3072 10 k := by
    rw [← mergeStops_iff (by decide)]
    decide +kernel
  refine ⟨largeBlock, _, _, sound_largeBlock, freeable_largeBlock, ?_⟩
  intro hc
  obtain ⟨-, hmem⟩ := sound_largeBlock.freePage_runs_out freeable_largeBlock hlt hnone
  exact absurd (hc.classes erro hmem) (by decide)

/-! ### Coalescing -/

/-- The lists after merging has stopped have no buddies, unless the buddy that was not found is in
its list. -/
theorem unpaired_merged (hp : p.toNat < 2 ^ 31)
    (hal : ∀ j, ∀ q ∈ L.buddy j, q.toNat % 2 ^ j.val = 0) (hno : Unpaired L) :
    Unpaired (L.merged p c k) ↔ k.val = 10 ∨ buddyAt p k ∉ L.buddy k := by
  have hbase := baseAt_toNat p k
  have hbuddy : (buddyAt p k).toNat = buddy (baseAt p k).toNat k := by
    rw [buddyAt_toNat hp (Nat.le_of_lt_succ k.isLt), hbase]
  have hmod : (baseAt p k).toNat % 2 ^ k.val = 0 := by rw [hbase, Nat.mul_mod_left]
  have hself : (L.merged p c k).buddy k = L.buddy k ++ [baseAt p k] := by
    unfold Lists.merged
    simp only [lt_irrefl, and_false, if_false, if_true]
  have hother : ∀ j ≠ k, ∀ q ∈ (L.merged p c k).buddy j, q ∈ L.buddy j := by
    intro j hj q hq
    unfold Lists.merged at hq
    simp only [if_neg hj] at hq
    split_ifs at hq
    · exact List.mem_of_mem_erase hq
    · exact hq
  constructor
  · intro hun
    by_contra hn
    rw [not_or, not_not] at hn
    have hlt : k.val < 10 := lt_of_le_of_ne (Nat.le_of_lt_succ k.isLt) hn.1
    refine hun k hlt (baseAt p k) ?_ (buddyAt p k) ?_ hbuddy
    · rw [hself]
      exact List.mem_append_right _ (List.mem_singleton_self _)
    · rw [hself]
      exact List.mem_append_left _ hn.2
  · intro hmiss j hj q hq r hr e
    by_cases hjk : j = k
    · subst hjk
      have hnot := hmiss.resolve_left hj.ne
      rw [hself] at hq hr
      rcases List.mem_append.mp hq with hq | hq <;> rcases List.mem_append.mp hr with hr | hr
      · exact hno j hj q hq r hr e
      · -- the new block is the buddy of an old one
        rw [List.mem_singleton.mp hr] at e
        have hq' : q.toNat = (buddyAt p j).toNat := by
          rw [hbuddy, e, buddy_buddy (hal j q hq)]
        exact hnot (UInt32.toNat_inj.mp hq' ▸ hq)
      · -- an old block is the buddy of the new one
        rw [List.mem_singleton.mp hq, ← hbuddy] at e
        exact hnot (UInt32.toNat_inj.mp e ▸ hr)
      · rw [List.mem_singleton.mp hq, List.mem_singleton.mp hr] at e
        exact buddy_ne_self hmod e.symm
    · exact hno j hj q (hother j hjk q hq) r (hother j hjk r hr) e

/-- **Freeing coalesces completely** exactly when merging stops at class `_1024`, or at a class
whose list does not have the buddy at all: no buddy is missed that is there. -/
theorem unpaired_iff_not_missed (s : Pmm) (L : Lists) (d : PmAlloc) (h : Sound s L)
    (hd : Freeable s L d) (hno : Unpaired L) :
    (∃ b t, s.freePage d = some (b, t) ∧ Unpaired t.lists) ↔
      (s.addrToPageNo d.addr < s.singelPageFirstNo →
        ∃ k, StopsAt L (s.addrToPageNo d.addr) d.size k ∧
          (k.val = 10 ∨ buddyAt (s.addrToPageNo d.addr) k ∉ L.buddy k)) := by
  have hal : ∀ j, ∀ q ∈ L.buddy j, q.toNat % 2 ^ j.val = 0 := fun j q hq => (h.buddy j q hq).1
  by_cases hlt : s.addrToPageNo d.addr < s.singelPageFirstNo
  · have hp := h.lt_of_detached (hd.detached hlt)
    by_cases hstop : ∃ k, StopsAt L (s.addrToPageNo d.addr) d.size k
    · obtain ⟨k, hk⟩ := hstop
      obtain ⟨t, ht, hs, -⟩ := h.freePage_stops hd hlt hk
      have hiff := unpaired_merged (c := d.size) (k := k) (p := s.addrToPageNo d.addr) (by omega)
        hal hno
      constructor
      · rintro ⟨b, t', ht', hun⟩ -
        obtain ⟨rfl, rfl⟩ := Prod.mk.inj (Option.some.inj (ht.symm.trans ht'))
        rw [hs.holds.lists_eq] at hun
        exact ⟨k, hk, hiff.mp hun⟩
      · intro hn
        obtain ⟨k', hk', hmiss⟩ := hn hlt
        obtain rfl := hk.unique hk'
        refine ⟨true, t, ht, ?_⟩
        rw [hs.holds.lists_eq]
        exact hiff.mpr hmiss
    · obtain ⟨hnone, -⟩ := h.freePage_runs_out hd hlt hstop
      refine iff_of_false (fun ⟨b, t, ht, _⟩ => ?_) ?_
      · rw [hnone] at ht
        cases ht
      · intro hn
        obtain ⟨k, hk, -⟩ := hn hlt
        exact hstop ⟨k, hk⟩
  · obtain ⟨-, b, t, L', ht, hs, hbuddy, -⟩ := h.freePage_of_ge hd hlt
    refine iff_of_true ⟨b, t, ht, ?_⟩ fun hn => absurd hn hlt
    rw [hs.holds.lists_eq]
    unfold Unpaired
    rw [hbuddy]
    exact hno

theorem unpaired_twoPages : Unpaired (Lists.empty.set 0 [2, 5]) := by decide +kernel

/-- The buddy of page 4 is the last page of the list. -/
theorem unpaired_iff_not_missed_twoPages :
    ∃ b t, twoPages.freePage ⟨0x4000, 0, 1⟩ = some (b, t) ∧ Unpaired t.lists := by
  have hd : Freeable twoPages (Lists.empty.set 0 [2, 5]) ⟨0x4000, 0, 1⟩ :=
    freeable_freeOnly (k := 0) (by decide) (by decide) (by decide) (by decide)
  apply (unpaired_iff_not_missed twoPages _ _ sound_twoPages hd unpaired_twoPages).mpr
  intro _
  refine ⟨1, ⟨by decide, ?_, by decide +kernel⟩, Or.inr (by decide +kernel)⟩
  decide +kernel

/-- The buddy of page 3 is the first page of the list, which has another one. -/
theorem first_of_list_missed : ∃ s L d, Sound s L ∧ Freeable s L d ∧ Unpaired L ∧
    ¬ ∃ b t, s.freePage d = some (b, t) ∧ Unpaired t.lists := by
  have hd : Freeable twoPages (Lists.empty.set 0 [2, 5]) ⟨0x3000, 0, 1⟩ :=
    freeable_freeOnly (k := 0) (by decide) (by decide) (by decide) (by decide)
  have hstop : StopsAt (Lists.empty.set 0 [2, 5]) 3 0 0 :=
    ⟨by decide, by decide +kernel, by decide +kernel⟩
  obtain ⟨t, ht, hs, -⟩ := sound_twoPages.freePage_stops hd (by decide) hstop
  refine ⟨twoPages, _, _, sound_twoPages, hd, unpaired_twoPages, ?_⟩
  rintro ⟨b, t', ht', hun⟩
  obtain ⟨-, rfl⟩ := Prod.mk.inj (Option.some.inj (ht.symm.trans ht'))
  rw [hs.holds.lists_eq] at hun
  exact hun 0 (by decide) 2 (by decide +kernel) 3 (by decide +kernel) (by decide)

end Pmm
end BHOS
