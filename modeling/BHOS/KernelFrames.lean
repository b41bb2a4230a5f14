import BHOS.Frames
import BHOS.PageNumbers

/-! # Kernel pages on usable memory

From the memory map of the boot loader to the kernel's pages: `pmm_init` builds the lists of the page
manager, `vmm_kern_init` the pool of kernel pages, and the calls of the allocator take a page from
one and a frame from the other.  No assumption on the page manager is left.

While the calls need no more frames than there are single pages, and name no page behind the first
64 MiB, each page that they hand out is on a frame of its own, inside usable memory and above the
kernel, and the kernel image stays where it was (`backed_of_boot`).  `Supplied` carries the number
of frames that are left. -/

namespace BHOS

open Blocks Linked Transition

/-! ### The single pages -/

namespace Pmm

variable {s t : Pmm} {L : Lists} {m : ℕ}

/-- The single pages of the lists that `pmm_page_init` builds. -/
theorem Filled.length_single (h : Filled s L m)
    (hbuddy : ∀ k, ∀ p ∈ L.buddy k, p.toNat + 2 ^ k.val ≤ s.singelPageFirstNo.toNat) :
    m - s.singelPageFirstNo.toNat ≤ L.single.length := by
  have hsub : Finset.Ico s.singelPageFirstNo.toNat m ⊆ (L.single.map UInt32.toNat).toFinset := by
    intro x hx
    obtain ⟨hlo, hhi⟩ := Finset.mem_Ico.mp hx
    have hmem : x ∈ cover L.blocks := by rwa [h.covered, Multiset.mem_range]
    obtain ⟨b, hb, hxb⟩ := mem_cover.mp hmem
    have hpages := Block.mem_pages.mp hxb
    rw [Lists.blocks, Multiset.mem_add, Multiset.mem_sum] at hb
    rcases hb with ⟨k, -, hb⟩ | hb
    · obtain ⟨p, hp, rfl⟩ := mem_blocksOf.mp hb
      have := hbuddy k p hp
      simp only at hpages
      omega
    · obtain ⟨p, hp, rfl⟩ := mem_blocksOf.mp hb
      simp only [pow_zero] at hpages
      obtain rfl : x = p.toNat := by omega
      exact List.mem_toFinset.mpr (List.mem_map_of_mem hp)
  have hcard := Finset.card_le_card hsub
  rw [Nat.card_Ico] at hcard
  exact hcard.trans ((List.toFinset_card_le _).trans (List.length_map _).le)

theorem singleLink_withRange (s : Pmm) (pageStart pageEnd maxPageNo : UInt32) :
    ({ s with pageStart := pageStart, pageEnd := pageEnd, maxPageNo := maxPageNo } : Pmm).singleLink =
      s.singleLink := rfl

/-- With a single page left, a request for one page takes the last one. -/
theorem Sound.allocOnePage_single (h : Sound s L) (hne : L.single ≠ []) :
    ∃ p t L', s.allocOnePage = some (⟨s.pageNoToAddr p, 0, 1⟩, t) ∧ Sound t L' ∧
      p < s.maxPageNo ∧ cover L.blocks = p.toNat ::ₘ cover L'.blocks ∧
      L'.single.length + 1 = L.single.length ∧ t.pageStart = s.pageStart ∧
      t.maxPageNo = s.maxPageNo := by
  obtain ⟨l, p, t, hl, he, hs, hf, -⟩ := h.allocOnePage_eq
    fun hnone => hne (h.holds.single.eq_nil_iff.mpr hnone)
  refine ⟨p, t, _, he, hs, (h.single p (by simp [hl])).2, ?_, by simp [hl], hf.pageStart,
    hf.maxPageNo⟩
  rw [Lists.cover_popSingle hl]
  simp [Block.pages]

end Pmm

namespace Vmm

variable {s t : Vmm Pmm} {dir kernEnd : UInt32} {mmap : List PmEntry} {used n q : ℕ} {op : KernOp}

/-- The frames that a call takes at most. -/
def KernOp.frames : KernOp → ℕ
  | .releaseOnePage _ => 0
  | _ => 1

/-- The call names no page behind the first 64 MiB. -/
def KernOp.Low (op : KernOp) : Prop := ∀ target, op = .allocOnePage target → target < 0xC4000000

/-- Calls that release only what they returned and stay below the first 64 MiB. -/
def Modest (used : ℕ) (op : KernOp) (s : Vmm Pmm) : Prop := ReleasesHeld used op s ∧ op.Low

/-- An allocation takes a page, `vmm_kern_alloc` in every case, and leaves it allocated. -/
def Succeeds (op : KernOp) (s : Vmm Pmm) : Prop :=
  (op = .alloc → ∃ q, Takes op s q) ∧
    ∀ q t, Takes op s q → step Pmm.allocOnePage op s = some t → t.Allocated q

/-- Different pages are on different frames, the kernel image is where the boot loader put it, and
every other page is on a frame inside usable memory above the image. -/
structure Backed (kernEnd : UInt32) (mmap : List PmEntry) (used : ℕ) (s : Vmm Pmm) : Prop where
  isolated : s.Isolated
  image : ∀ q < used, s.frameOf q = some (UInt32.ofNat (4096 * q))
  ram : ∀ q ∈ s.heldPages used, ∃ f, s.frameOf q = some f ∧ kernEnd ≤ f ∧
    ∃ e ∈ mmap, e.type = 1 ∧ e.HasPage f.toNat

/-- The invariant: at least `n` single pages are left, and the frame of a page that was handed out
is a managed page that is in no list. -/
structure Supplied (kernEnd : UInt32) (mmap : List PmEntry) (used : ℕ) (dir : UInt32) (s : Vmm Pmm)
    (n : ℕ) : Prop where
  mapping : s.Mapping dir
  lists : ∃ L, s.pmm.Sound L ∧ n ≤ L.single.length ∧ (cover L.blocks).Nodup ∧
    ∀ q ∈ s.heldPages used, ∃ p < s.pmm.maxPageNo,
      frame (s.mem (slot dir q)) = s.pmm.pageNoToAddr p ∧ p.toNat ∉ cover L.blocks
  image : ∀ q < used, s.Allocated q ∧ frame (s.mem (slot dir q)) = UInt32.ofNat (4096 * q)
  addr : ∀ p < s.pmm.maxPageNo,
    (s.pmm.pageNoToAddr p).toNat = ramStart kernEnd + p.toNat * 4096
  max : s.pmm.maxPageNo.toNat = pageCount kernEnd mmap
  low : ∀ q, s.Allocated q → q < aliasPages
  few : {q | s.Allocated q}.ncard + n ≤ 2048

/-! ### What an allocation finds -/

theorem finite_allocated (s : Vmm Pmm) : {q | s.Allocated q}.Finite :=
  (Set.finite_lt_nat windowPage).subset fun _ hq => hq.1

/-- The pages below a free one are allocated, when none of them is free. -/
theorem le_ncard_of_lowest (hwin : q < windowPage) (hmin : ∀ r ∈ s.freePages, q ≤ r) :
    q ≤ {r | s.Allocated r}.ncard := by
  have hsub : {r | r < q} ⊆ {r | s.Allocated r} := by
    intro r hr
    refine ⟨lt_trans hr hwin, fun hfree => ?_⟩
    exact absurd (hmin r hfree) (Nat.not_le_of_lt hr)
  have hcard := Set.ncard_le_ncard hsub s.finite_allocated
  have hq : {r | r < q} = ↑(Finset.range q) := by
    ext r
    simp
  rw [hq, Set.ncard_coe_finset, Finset.card_range] at hcard
  exact hcard

/-- `vmm_kern_alloc` finds a free page. -/
theorem Supplied.takes (h : s.Supplied kernEnd mmap used dir n) : ∃ q, Takes .alloc s q := by
  by_contra hno
  have hempty : s.freePages = ∅ := by
    by_contra hne
    obtain ⟨q, hq⟩ := Set.nonempty_iff_ne_empty.mpr hne
    exact hno ⟨_, takes_sInf ⟨q, hq⟩⟩
  have hle := le_ncard_of_lowest (s := s) (q := windowPage - 1) (by decide) (by simp [hempty])
  have hfew := h.few
  simp only [windowPage] at hle
  omega

/-- The page that a call takes lies in the first 64 MiB. -/
theorem Supplied.takes_low (h : s.Supplied kernEnd mmap used dir n) (hlow : op.Low)
    (hq : Takes op s q) : q < aliasPages := by
  cases op with
  | alloc =>
      have hle := le_ncard_of_lowest (h.mapping.ready.window q hq.1) hq.2
      have hfew := h.few
      simp only [aliasPages]
      omega
  | allocOnePage target =>
      have hlt := UInt32.lt_iff_toNat_lt.mp (hlow target rfl)
      have hpage := kernPage_eq_some.mp hq.1
      simp only [UInt32.reduceToNat] at hlt
      simp only [aliasPages]
      omega
  | releaseOnePage target => exact hq.elim

/-- Two pages of the first 64 MiB share no entry of the page tables. -/
theorem Supplied.far (h : s.Supplied kernEnd mmap used dir n) (hq : q < aliasPages)
    (hfree : q ∈ s.freePages) {r : ℕ} (hr : s.Allocated r) : r % aliasPages ≠ q % aliasPages := by
  rw [Nat.mod_eq_of_lt hq, Nat.mod_eq_of_lt (h.low r hr)]
  rintro rfl
  exact hr.2 hfree

/-- The frame of a page in the lists is not in use. -/
theorem Supplied.unused (h : s.Supplied kernEnd mmap used dir n)
    (himage : used * 4096 ≤ ramStart kernEnd) {p : UInt32} {L : Lists} (hL : s.pmm.Sound L)
    (hp : p < s.pmm.maxPageNo) (hmem : p.toNat ∈ cover L.blocks) {r : ℕ} (hr : s.Allocated r) :
    s.frameOf r ≠ some (frame (s.pmm.pageNoToAddr p)) := by
  have haddr := h.addr p hp
  have haligned : ramStart kernEnd % 4096 = 0 := Nat.mul_mod_left _ _
  rw [h.mapping.frameOf_eq hr, ne_eq, Option.some.injEq, ← UInt32.toNat_inj,
    frame_toNat (s.pmm.pageNoToAddr p), haddr]
  by_cases hu : r < used
  · rw [(h.image r hu).2, UInt32.toNat_ofNat']
    omega
  · obtain ⟨L', hL', -, -, hheld⟩ := h.lists
    obtain rfl : L' = L := hL'.holds.lists_eq.symm.trans hL.holds.lists_eq
    obtain ⟨p', hp', hframe, hno⟩ := hheld r ⟨by omega, hr⟩
    rw [hframe, h.addr p' hp']
    intro e
    have e' : p'.toNat = p.toNat := by omega
    exact hno (e' ▸ hmem)

/-! ### One call -/

theorem pageNoToAddr_congr {p : Pmm} {p' : Pmm} (h : p'.pageStart = p.pageStart) (x : UInt32) :
    p'.pageNoToAddr x = p.pageNoToAddr x := by rw [Pmm.pageNoToAddr, Pmm.pageNoToAddr, h]

/-- One allocated page more. -/
theorem ncard_allocated_taken (hF : t.freePages = s.freePages \ {q}) :
    {r | t.Allocated r}.ncard ≤ {r | s.Allocated r}.ncard + 1 := by
  have hsub : {r | t.Allocated r} ⊆ insert q {r | s.Allocated r} := by
    intro r hr
    rcases allocated_of_taken hF hr with hr | rfl
    · exact Set.mem_insert_of_mem q hr
    · exact Set.mem_insert r _
  exact (Set.ncard_le_ncard hsub (s.finite_allocated.insert q)).trans (Set.ncard_insert_le q _)

/-- A call that takes a page maps it on one of the single pages. -/
theorem Supplied.step_takes (h : s.Supplied kernEnd mmap used dir (n + 1))
    (himage : used * 4096 ≤ ramStart kernEnd) (hlow : op.Low) (hq : Takes op s q) :
    ∃ t, step Pmm.allocOnePage op s = some t ∧ t.Supplied kernEnd mmap used dir n ∧
      t.Allocated q := by
  obtain ⟨L, hL, hlen, hnd, hheld⟩ := h.lists
  have hne : L.single ≠ [] := by
    intro e
    rw [e, List.length_nil] at hlen
    omega
  obtain ⟨p, p', L', he, hL', hp, hcov, hlen', hst, hmax⟩ := hL.allocOnePage_single hne
  have hcov' : p.toNat ∈ cover L.blocks := hcov ▸ Multiset.mem_cons_self _ _
  have hle : cover L'.blocks ≤ cover L.blocks := hcov ▸ Multiset.le_cons_self _ _
  have hpout : p.toNat ∉ cover L'.blocks := (Multiset.nodup_cons.mp (hcov ▸ hnd)).1
  have hqlow := h.takes_low hlow hq
  obtain ⟨t, ht, hready, heff⟩ := h.mapping.ready.takes_effect hq he
  refine ⟨t, ht, ?_⟩
  cases heff with
  | idle _ hno => exact absurd hq (hno q)
  | unmapped target _ hkind =>
      subst hkind
      exact hq.elim
  | refused _ d _ hd hstate =>
      obtain ⟨rfl, -⟩ := Prod.mk.inj (Option.some.inj (he.symm.trans hd))
      cases hstate
  | mapped r d htakes hd _ hF hm =>
      obtain rfl := htakes.unique hq
      obtain ⟨rfl, hpmm⟩ := Prod.mk.inj (Option.some.inj (he.symm.trans hd))
      have hfar : ∀ i, s.Allocated i → i % aliasPages ≠ r % aliasPages := fun i hi =>
        h.far hqlow htakes.free hi
      have hold : ∀ i, s.Allocated i → t.mem (slot dir i) = s.mem (slot dir i) := fun i hi =>
        h.mapping.ready.mem_of_far hm (hfar i hi)
      have haddr : ∀ x, t.pmm.pageNoToAddr x = s.pmm.pageNoToAddr x :=
        pageNoToAddr_congr (hpmm ▸ hst)
      have hnew : frame (t.mem (slot dir r)) = s.pmm.pageNoToAddr p := by
        have hval := h.addr p hp
        rw [hm, Function.update_self, frame_kernDesc, ← UInt32.toNat_inj, frame_toNat, hval,
          ramStart]
        omega
      have htaken : t.Allocated r := by
        refine ⟨h.mapping.ready.window r htakes.free, fun hfree => ?_⟩
        rw [hF] at hfree
        exact hfree.2 rfl
      refine ⟨⟨h.mapping.mapped hready hF hm hfar fun i hi =>
        h.unused himage hL hp hcov' hi, ⟨L', hpmm ▸ hL', by omega,
        Multiset.nodup_of_le hle hnd, ?_⟩, ?_, ?_, ?_, ?_, ?_⟩, htaken⟩
      · rintro i ⟨hu, hi⟩
        rw [← hpmm, hmax]
        rcases allocated_of_taken hF hi with hi | rfl
        · obtain ⟨x, hx, hframe, hout⟩ := hheld i ⟨hu, hi⟩
          refine ⟨x, hx, ?_, fun hmem => hout (Multiset.mem_of_le hle hmem)⟩
          rw [hold i hi, hframe, hpmm, haddr]
        · exact ⟨p, hp, by rw [hnew, hpmm, haddr], hpout⟩
      · intro i hi
        obtain ⟨hia, hframe⟩ := h.image i hi
        refine ⟨⟨hia.1, fun hfree => ?_⟩, by rw [hold i hia, hframe]⟩
        rw [hF] at hfree
        exact hia.2 hfree.1
      · intro x hx
        rw [haddr]
        exact h.addr x (by rwa [← hpmm, hmax] at hx)
      · rw [← hpmm, hmax, h.max]
      · intro i hi
        rcases allocated_of_taken hF hi with hi | rfl
        · exact h.low i hi
        · exact hqlow
      · have hcard := ncard_allocated_taken hF
        have hfew := h.few
        omega

/-- With fewer pages asked for. -/
theorem Supplied.mono {m : ℕ} (h : s.Supplied kernEnd mmap used dir n) (hm : m ≤ n) :
    s.Supplied kernEnd mmap used dir m := by
  obtain ⟨L, hL, hlen, hrest⟩ := h.lists
  have hfew := h.few
  exact ⟨h.mapping, ⟨L, hL, hm.trans hlen, hrest⟩, h.image, h.addr, h.max, h.low, by omega⟩

/-- A release takes a held page out of the page tables; its frame is in no list. -/
theorem Supplied.step_release (h : s.Supplied kernEnd mmap used dir n) {target : UInt32}
    (hq : q ∈ s.heldPages used) (hp : kernPage? target = some q) :
    ∃ t, step Pmm.allocOnePage (.releaseOnePage target) s = some t ∧
      t.Supplied kernEnd mmap used dir n := by
  obtain ⟨t, ht, hready, heff⟩ := h.mapping.ready.release_effect Pmm.allocOnePage hp hq.2.1
  refine ⟨t, ht, ?_⟩
  cases heff with
  | idle hkind => exact absurd rfl (hkind target)
  | refused _ _ htakes => exact htakes.elim
  | mapped _ _ htakes => exact htakes.elim
  | unmapped target' r hkind hp' hF hm hpmm =>
      cases hkind
      obtain rfl := Option.some.inj (hp.symm.trans hp')
      have hold : ∀ i, s.Allocated i → i ≠ q → t.mem (slot dir i) = s.mem (slot dir i) :=
        fun i hi hne => h.mapping.ready.mem_of_far hm (h.mapping.apart i q hi hq.2 hne)
      obtain ⟨L, hL, hlen, hnd, hheld⟩ := h.lists
      refine ⟨h.mapping.unmapped hready hq.2 hF hm, ⟨L, hpmm ▸ hL, hlen, hnd, ?_⟩, ?_, ?_, ?_, ?_,
        ?_⟩
      · rintro i ⟨hu, hi⟩
        obtain ⟨hia, hne⟩ := allocated_of_released hF hi
        rw [hpmm, hold i hia hne]
        exact hheld i ⟨hu, hia⟩
      · intro i hi
        obtain ⟨hia, hframe⟩ := h.image i hi
        have hne : i ≠ q := fun e => absurd hq.1 (by omega)
        refine ⟨⟨hia.1, fun hfree => ?_⟩, by rw [hold i hia hne, hframe]⟩
        rw [hF] at hfree
        exact hia.2 (Set.mem_of_mem_insert_of_ne hfree hne)
      · rw [hpmm]
        exact h.addr
      · rw [hpmm]
        exact h.max
      · exact fun i hi => h.low i (allocated_of_released hF hi).1
      · have hsub : {i | t.Allocated i} ⊆ {i | s.Allocated i} := fun i hi =>
          (allocated_of_released hF hi).1
        have hcard := Set.ncard_le_ncard hsub s.finite_allocated
        have hfew := h.few
        omega

/-- One call spends at most the frames that it asks for, and an allocation succeeds. -/
theorem Supplied.step (himage : used * 4096 ≤ ramStart kernEnd)
    (h : s.Supplied kernEnd mmap used dir (n + op.frames)) (ha : Modest used op s) :
    Succeeds op s ∧ ∃ t, Vmm.step Pmm.allocOnePage op s = some t ∧
      t.Supplied kernEnd mmap used dir n := by
  obtain ⟨hheld, hlow⟩ := ha
  cases op with
  | releaseOnePage target =>
      obtain ⟨q, hq, hp⟩ := hheld
      exact ⟨⟨fun e => (nomatch e), fun _ _ htakes => htakes.elim⟩, h.step_release hq hp⟩
  | alloc =>
      obtain ⟨q, hq⟩ := h.takes
      obtain ⟨t, ht, hsup, hall⟩ := h.step_takes himage hlow hq
      refine ⟨⟨fun _ => ⟨q, hq⟩, ?_⟩, t, ht, hsup⟩
      intro q' t' hq' ht'
      obtain rfl := hq.unique hq'
      exact Option.some.inj (ht.symm.trans ht') ▸ hall
  | allocOnePage target =>
      refine ⟨⟨fun e => (nomatch e), ?_⟩, ?_⟩
      · intro q t hq ht
        obtain ⟨t', ht', -, hall⟩ := h.step_takes himage hlow hq
        exact Option.some.inj (ht'.symm.trans ht) ▸ hall
      · by_cases htakes : ∃ q, Takes (.allocOnePage target) s q
        · obtain ⟨q, hq⟩ := htakes
          obtain ⟨t, ht, hsup, -⟩ := h.step_takes himage hlow hq
          exact ⟨t, ht, hsup⟩
        · have hno : ∀ q, ¬ Takes (.allocOnePage target) s q := fun q hq => htakes ⟨q, hq⟩
          exact ⟨s, h.mapping.ready.step_idle (fun _ e => (nomatch e)) hno,
            h.mono (Nat.le_add_right n _)⟩

/-- What the invariant says about the pages. -/
theorem Supplied.backed (h : s.Supplied kernEnd mmap used dir n) (hc : Contiguous kernEnd mmap) :
    s.Backed kernEnd mmap used := by
  refine ⟨h.mapping.isolated, ?_, ?_⟩
  · intro q hq
    obtain ⟨hall, hframe⟩ := h.image q hq
    rw [h.mapping.frameOf_eq hall, hframe]
  · rintro q ⟨hu, hq⟩
    obtain ⟨L, -, -, -, hheld⟩ := h.lists
    obtain ⟨p, hp, hframe, -⟩ := hheld q ⟨hu, hq⟩
    have haddr := h.addr p hp
    have hlt := UInt32.lt_iff_toNat_lt.mp hp
    have hstart := ramStart_eq kernEnd
    have hend := ramEnd_eq mmap
    rw [h.max, pageCount_eq hc.1] at hlt
    refine ⟨_, h.mapping.frameOf_eq hq, ?_, ?_⟩
    · rw [hframe, UInt32.le_iff_toNat_le, haddr]
      omega
    · rw [hframe, haddr]
      exact hc.2 _ (by omega) (by omega) (by omega)

/-! ### The kernel after boot -/

theorem usedPages_le (kernEnd : UInt32) :
    (getKernUsedPageCount kernEnd).toNat * 4096 ≤ ramStart kernEnd := by
  have hlt := kernEnd.toNat_lt
  simp only [getKernUsedPageCount, pageSize, ramStart, UInt32.sub_zero, UInt32.toNat_div,
    UInt32.toNat_sub, UInt32.toNat_add, UInt32.reduceToNat]
  omega

/-- The number of single pages that `pmm_init` leaves. -/
def singlePages (kernEnd : UInt32) (mmap : List PmEntry) : ℕ :=
  pageCount kernEnd mmap - Pmm.singelFirst (pageCount kernEnd mmap)

theorem singlePages_le (h : 2048 ≤ pageCount kernEnd mmap) : singlePages kernEnd mmap ≤ 1024 := by
  rw [singlePages, Pmm.singelFirst]
  generalize pageCount kernEnd mmap = n at h
  omega

/-- The state after `pmm_init` and `vmm_kern_init`. -/
theorem supplied_of_boot (dir kernEnd kb : UInt32) (mmap : List PmEntry) (m : PhysMem)
    (pool : Bitmap) {poolMem : ByteMem} (p₀ : Pmm) (hal : dir.toNat % 4096 = 0)
    (hroom : dir.toNat + 4096 * 257 ≤ 2 ^ 32)
    (hused : (getKernUsedPageCount kernEnd).toNat ≤ 1024) (hs : (kernPool kb).Stored poolMem)
    (hsl : p₀.singleLink = none) (hc : ramStart kernEnd + 2048 * 4096 ≤ ramEnd mmap) :
    ∃ p s, pmmInit kernEnd mmap p₀ = some p ∧
      vmmKernInit kernEnd kb (booted dir m pool poolMem p) = some s ∧
      s.Supplied kernEnd mmap (getKernUsedPageCount kernEnd).toNat dir
        (singlePages kernEnd mmap) := by
  have hcount : pageCount kernEnd mmap = _ := pageCount_eq (by omega)
  have hstart := ramStart_eq kernEnd
  have hend := ramEnd_eq mmap
  have hge : 2048 ≤ pageCount kernEnd mmap := by omega
  have hlt : pageCount kernEnd mmap < 2 ^ 20 := Nat.mod_lt _ (by decide)
  rw [Pmm.pmmInit_eq_pageInit]
  have hrange := Pmm.hasRange_setRange kernEnd (getMaxPmAddr mmap) p₀
  have hst₁ : (p₀.setRange kernEnd (getMaxPmAddr mmap)).pageStart.toNat =
      ramStart kernEnd % 2 ^ 32 := by rw [hrange.pageStart, pageStart_toNat]
  have hmax₁ : (p₀.setRange kernEnd (getMaxPmAddr mmap)).maxPageNo.toNat =
      pageCount kernEnd mmap := by
    rw [hrange.maxPageNo, hrange.pageEnd, hrange.pageStart, maxPageNo_toNat]
  have hsl₁ : (p₀.setRange kernEnd (getMaxPmAddr mmap)).singleLink = none :=
    (p₀.singleLink_withRange _ _ _).trans hsl
  generalize p₀.setRange kernEnd (getMaxPmAddr mmap) = p₁ at hmax₁ hst₁ hsl₁ ⊢
  obtain ⟨p, L, hp, hfill, hbuddy, -, hfirst, hpmax, hpst⟩ :=
    Pmm.pageInit_eq p₁ hsl₁ (by omega) (by omega)
  obtain ⟨p', L', hp', hL, -, hcov⟩ := Pmm.pageInit_sound p₁ hsl₁ (by omega) (by omega)
  obtain rfl := Option.some.inj (hp.symm.trans hp')
  obtain rfl : L = L' := hfill.holds.lists_eq.symm.trans hL.holds.lists_eq
  obtain ⟨s, h₀, hmap, hpmm, hF, hframe⟩ := mapping_of_boot m pool p hal hroom hused hs
  have hlen := hfill.length_single hbuddy
  rw [hfirst, hmax₁, max_eq_right hge, ← singlePages] at hlen
  have hall : ∀ q, s.Allocated q ↔ q < (getKernUsedPageCount kernEnd).toNat := by
    intro q
    refine ⟨fun hq => hq.lt hF, fun hq => ⟨?_, fun hfree => ?_⟩⟩
    · simp only [windowPage]
      omega
    · rw [hF] at hfree
      exact absurd hfree.1 (by omega)
  refine ⟨p, s, hp, h₀, hmap, ⟨L, hpmm ▸ hL, hlen, ?_, ?_⟩, ?_, ?_, ?_, ?_, ?_⟩
  · rw [hcov]
    exact Multiset.nodup_range _
  · rintro q ⟨hu, hq⟩
    exact absurd ((hall q).mp hq) (by omega)
  · intro q hq
    have hq' := (hall q).mpr hq
    have hid := hframe q (by omega)
    rw [hmap.frameOf_eq hq'] at hid
    exact ⟨hq', Option.some.inj hid⟩
  · intro x hx
    have hx' := UInt32.lt_iff_toNat_lt.mp hx
    rw [hpmm, hpmax, hmax₁] at hx'
    rw [hpmm, Pmm.pageNoToAddr, UInt32.toNat_add, hpst, hst₁]
    simp only [UInt32.toNat_shiftLeft, UInt32.reduceToNat, Nat.reduceMod, Nat.shiftLeft_eq]
    omega
  · rw [hpmm, hpmax, hmax₁]
  · intro q hq
    have hq' := (hall q).mp hq
    simp only [aliasPages]
    omega
  · have hset : {q | s.Allocated q} =
        ↑(Finset.range (getKernUsedPageCount kernEnd).toNat) := by
      ext q
      simp [hall]
    have hle := singlePages_le hge
    rw [hset, Set.ncard_coe_finset, Finset.card_range]
    omega

/-- **Kernel pages are on usable memory.**  On a memory map without gaps and with at most 62784
pages above the kernel, from the lists of `pmm_init` and the pool of `vmm_kern_init`, calls that ask
for no more frames than there are single pages, release only what they returned and stay in the first
64 MiB all end: each allocation succeeds, every page is on a frame of its own inside usable memory
above the kernel, and the kernel image is not remapped.  The page array lies below the text buffer of
the screen. -/
theorem backed_of_boot (dir kernEnd kb : UInt32) (mmap : List PmEntry) (m : PhysMem)
    (pool : Bitmap) (poolMem : ByteMem) (p₀ : Pmm) (hal : dir.toNat % 4096 = 0)
    (hroom : dir.toNat + 4096 * 257 ≤ 2 ^ 32)
    (hused : (getKernUsedPageCount kernEnd).toNat ≤ 1024) (hs : (kernPool kb).Stored poolMem)
    (hsl : p₀.singleLink = none) (hc : Contiguous kernEnd mmap)
    (hge : ramStart kernEnd + 2048 * 4096 ≤ ramEnd mmap)
    (hle : ramEnd mmap ≤ ramStart kernEnd + 62784 * 4096) :
    ∃ p s, pmmInit kernEnd mmap p₀ = some p ∧ p.DescriptorsClear ∧
      vmmKernInit kernEnd kb (booted dir m pool poolMem p) = some s ∧
      ∀ ops, Along (step Pmm.allocOnePage) (Modest (getKernUsedPageCount kernEnd).toNat) ops s →
        (ops.map KernOp.frames).sum ≤ singlePages kernEnd mmap →
        Along (step Pmm.allocOnePage) Succeeds ops s ∧
          ∃ t, run (step Pmm.allocOnePage) ops s = some t ∧
            t.Backed kernEnd mmap (getKernUsedPageCount kernEnd).toNat := by
  obtain ⟨p, s, hp, h₀, hsup⟩ :=
    supplied_of_boot dir kernEnd kb mmap m pool p₀ hal hroom hused hs hsl hge
  have hclear : p.DescriptorsClear := by
    have hcount : pageCount kernEnd mmap = _ := pageCount_eq (by omega)
    have hlow : 1024 ≤ pageCount kernEnd mmap := by omega
    obtain ⟨p', hp', hmax, -⟩ := pmmInit_eq hsl hlow
    obtain rfl := Option.some.inj (hp.symm.trans hp')
    exact (Pmm.descriptorsClear_iff_le (by omega)).mpr (by omega)
  refine ⟨p, s, hp, hclear, h₀, fun ops ha hsum => ?_⟩
  have himage := usedPages_le kernEnd
  generalize (getKernUsedPageCount kernEnd).toNat = used at hsup himage ha ⊢
  have hstart : s.Supplied kernEnd mmap used dir (0 + (ops.map KernOp.frames).sum) :=
    hsup.mono (by omega)
  have hstep : ∀ op c n, c.Supplied kernEnd mmap used dir (n + KernOp.frames op) →
      Modest used op c → Succeeds op c ∧ ∃ t, step Pmm.allocOnePage op c = some t ∧
        t.Supplied kernEnd mmap used dir n := fun _ _ _ hc hm => hc.step himage hm
  obtain ⟨hall, t, ht, hend⟩ := run_of_budget hstep hstart ha
  exact ⟨hall, t, ht, hend.backed hc⟩

theorem contiguous_flatMap : Contiguous 0x300000 flatMap := by
  have hst : ramStart 0x300000 = 0x301000 := by decide
  have hen : ramEnd flatMap = 0x7FE0000 := by decide
  refine ⟨by decide, fun a _ hlo hhi => ⟨⟨20, 0x100000, 0, 0x7EE0000, 0, 1⟩, by decide, rfl, ?_⟩⟩
  rw [hst] at hlo
  rw [hen] at hhi
  simp only [PmEntry.HasPage, PmEntry.base, PmEntry.length, UInt32.reduceToNat]
  omega

/-- With 128 MiB of memory the allocator hands out all single pages, one after the other. -/
theorem backed_of_boot_flatMap : ∃ p s t, pmmInit 0x300000 flatMap Pmm.zero = some p ∧
    vmmKernInit 0x300000 0xC0250000
      (booted 0x101000 (fun _ => 0) ⟨0, 0, 0⟩ (kernPool 0xC0250000).blankMem p) = some s ∧
    run (step Pmm.allocOnePage) (List.replicate 223 .alloc) s = some t ∧
    t.Backed 0x300000 flatMap 768 := by
  obtain ⟨p, s, hp, -, h₀, hrun⟩ := backed_of_boot 0x101000 0x300000 0xC0250000 flatMap (fun _ => 0)
    ⟨0, 0, 0⟩ (kernPool 0xC0250000).blankMem Pmm.zero (by decide) (by decide) (by decide)
    (kernPool 0xC0250000).stored_blankMem rfl contiguous_flatMap (by decide) (by decide)
  have hused : (getKernUsedPageCount 0x300000).toNat = 768 := by decide
  have hsingle : singlePages 0x300000 flatMap = 223 := by decide
  have hframes : KernOp.frames .alloc = 1 := rfl
  rw [hused, hsingle] at hrun
  obtain ⟨-, t, ht, hb⟩ := hrun (List.replicate 223 .alloc)
    (along_of_forall fun op hop c => by
      rw [List.eq_of_mem_replicate hop]
      exact ⟨trivial, fun _ e => (nomatch e)⟩)
    (by rw [List.map_replicate, List.sum_replicate, hframes, smul_eq_mul, mul_one])
  exact ⟨p, s, t, hp, h₀, ht, hb⟩

end Vmm
end BHOS
