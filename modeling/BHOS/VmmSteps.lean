import BHOS.KernelPool

/-! # What a kernel allocation does to the page tables

Kernel page `q` is translated through one word of the page tables, `slot dir q`.  Since only 16
tables are in use, pages whose numbers differ by a multiple of `16 * 1024` share their word.
`step_effect` lists what one call of `vmm_kern_alloc`, `vmm_kern_alloc_one_page` or
`vmm_kern_release_one_page` can do: nothing, map one free page, or unmap one page. -/

namespace BHOS

/-- The number of pages after which the page tables repeat: 64 MiB. -/
def aliasPages : ℕ := 16 * 1024

/-- The word of the page tables that translates a kernel page. -/
def slot (dir : UInt32) (q : ℕ) : UInt32 := dir + 4096 + UInt32.ofNat (q % aliasPages) * 4

/-- An address outside the directory and the 16 tables that are in use. -/
def OutsideTables (dir x : UInt32) : Prop := x.toNat < dir.toNat ∨ dir.toNat + 4096 * 17 ≤ x.toNat

/-- The words of a frame outside the tables are outside. -/
theorem OutsideTables.word {dir F : UInt32} (hal : dir.toNat % 4096 = 0)
    (h : OutsideTables dir (frame F)) (v : UInt32) :
    OutsideTables dir (frame F + (v &&& 0xFFF)) := by
  unfold OutsideTables at h ⊢
  rw [frame_toNat] at h
  rw [frame_add_offset_toNat]
  have ho : v.toNat % 4096 < 4096 := Nat.mod_lt _ (by decide)
  have hf : F.toNat / 4096 * 4096 % 4096 = 0 := Nat.mul_mod_left _ _
  generalize F.toNat / 4096 * 4096 = f at h hf ⊢
  omega

namespace KernTables

variable {m m' : PhysMem} {dir v w x : UInt32} {q r : ℕ}

theorem slot_toNat (h : KernTables m dir) (q : ℕ) :
    (slot dir q).toNat = dir.toNat + 4096 + 4 * (q % aliasPages) := by
  have hr := h.room
  simp only [slot, aliasPages, UInt32.toNat_add, UInt32.toNat_mul, UInt32.toNat_ofNat',
    UInt32.reduceToNat]
  omega

theorem slot_eq_iff (h : KernTables m dir) :
    slot dir q = slot dir r ↔ q % aliasPages = r % aliasPages := by
  rw [← UInt32.toNat_inj, h.slot_toNat, h.slot_toNat]
  omega

theorem selfMapped (h : KernTables m dir) : SelfMapped m dir := by
  have hal := h.aligned
  have hr := h.room
  have e : dirEntry dir 0xFFFFF000 = dir + UInt32.ofNat 255 * 4 + 0xc00 := by
    rw [← UInt32.toNat_inj, dirEntry_toNat, pdeAddr_toNat (by omega) le_rfl]
    simp only [UInt32.reduceToNat]
    omega
  constructor
  · rw [e, present_iff, h.self]
    omega
  · rw [e, ← UInt32.toNat_inj, frame_toNat, frame_toNat, h.self]
    omega

/-- The directory entry of a kernel page is present and leads to its slot. -/
theorem tableEntry_eq (h : KernTables m dir) (hv : Vmm.kernPage? v = some q)
    (hq : q < Vmm.windowPage) :
    Present (m (dirEntry dir v)) ∧ tableEntry (m (dirEntry dir v)) v = slot dir q := by
  have hal := h.aligned
  have hr := h.room
  have hvn := v.toNat_lt
  obtain ⟨hlo, hqv⟩ := Vmm.kernPage_eq_some.mp hv
  simp only [Vmm.windowPage] at hq
  have e : dirEntry dir v = dir + UInt32.ofNat (q / 1024) * 4 + 0xc00 := by
    rw [← UInt32.toNat_inj, dirEntry_toNat, pdeAddr_toNat (by omega) (by omega)]
    omega
  have hp := h.pde (q / 1024) (by omega)
  rw [← e] at hp
  constructor
  · rw [present_iff, hp]
    omega
  · rw [← UInt32.toNat_inj, tableEntry_toNat, hp, h.slot_toNat, aliasPages]
    omega

/-- The translation of a kernel address. -/
theorem translate_eq (h : KernTables m dir) (hv : Vmm.kernPage? v = some q)
    (hq : q < Vmm.windowPage) :
    translate m dir v =
      if Present (m (slot dir q)) then some (frame (m (slot dir q)) + (v &&& 0xFFF)) else none := by
  obtain ⟨hp, he⟩ := h.tableEntry_eq hv hq
  rw [translate, if_pos hp, he]

theorem translate_getPte (h : KernTables m dir) (hv : Vmm.kernPage? v = some q)
    (hq : q < Vmm.windowPage) : translate m dir (getPte v) = some (slot dir q) := by
  obtain ⟨hp, he⟩ := h.tableEntry_eq hv hq
  rw [h.selfMapped.translate_getPte, if_pos hp, he]

/-- Writing a page table entry leaves the directory alone. -/
theorem update_slot (h : KernTables m dir) (q : ℕ) (x : UInt32) :
    KernTables (Function.update m (slot dir q) x) dir := by
  have hr := h.room
  have hs := h.slot_toNat q
  have hne : ∀ i ≤ 255, dir + UInt32.ofNat i * 4 + 0xc00 ≠ slot dir q := by
    intro i hi e
    have e' := congrArg UInt32.toNat e
    rw [pdeAddr_toNat (by omega) hi, hs] at e'
    omega
  refine ⟨h.aligned, h.room, ?_, ?_⟩
  · intro i hi
    rw [Function.update_of_ne (hne i (by omega))]
    exact h.pde i hi
  · rw [Function.update_of_ne (hne 255 le_rfl)]
    exact h.self

theorem not_outside_slot (h : KernTables m dir) (q : ℕ) : ¬ OutsideTables dir (slot dir q) := by
  have hs := h.slot_toNat q
  unfold OutsideTables
  unfold aliasPages at hs
  omega

/-- Only the words of the tables matter. -/
theorem congr_words (h : KernTables m dir) (hm : ∀ x, ¬ OutsideTables dir x → m' x = m x) :
    KernTables m' dir ∧ ∀ q, m' (slot dir q) = m (slot dir q) := by
  have hroom := h.room
  have hpde : ∀ i ≤ 255, m' (dir + UInt32.ofNat i * 4 + 0xc00) =
      m (dir + UInt32.ofNat i * 4 + 0xc00) := by
    intro i hi
    apply hm
    unfold OutsideTables
    rw [pdeAddr_toNat (by omega) hi]
    omega
  refine ⟨⟨h.aligned, h.room, ?_, ?_⟩, ?_⟩
  · intro i hi
    rw [hpde i (by omega)]
    exact h.pde i hi
  · rw [hpde 255 le_rfl]
    exact h.self
  · intro q
    exact hm _ (h.not_outside_slot q)

/-- A word outside the tables can be written. -/
theorem update_outside (h : KernTables m dir) (hx : OutsideTables dir x) (y : UInt32) :
    KernTables (Function.update m x y) dir ∧
      ∀ q, Function.update m x y (slot dir q) = m (slot dir q) := by
  apply h.congr_words
  intro a ha
  apply Function.update_of_ne
  rintro rfl
  exact ha hx

end KernTables

/-- The page table entry for a frame. -/
def kernDesc (addr : UInt32) : UInt32 := (addr &&& 0xFFFFF000) + 0x2 + 0x0 + 0x100 + 0x1

theorem kernDesc_toNat (addr : UInt32) : (kernDesc addr).toNat = addr.toNat / 4096 * 4096 + 0x103 := by
  have h := addr.toNat_lt
  simp only [kernDesc, UInt32.toNat_add, Words.toNat_and_frame, UInt32.reduceToNat]
  omega

theorem present_kernDesc (addr : UInt32) : Present (kernDesc addr) := by
  rw [present_iff, kernDesc_toNat]
  omega

theorem frame_kernDesc (addr : UInt32) : frame (kernDesc addr) = frame addr := by
  rw [← UInt32.toNat_inj, frame_toNat, frame_toNat, kernDesc_toNat]
  omega

theorem not_present_release (x : UInt32) : ¬ Present (x &&& 0xFFFFFFFE) := by
  have h := Words.nat_and_field x.toNat 31 1
  rw [present_iff, UInt32.toNat_and]
  have e : (0xFFFFFFFE : UInt32).toNat = (2 ^ 31 - 1) <<< 1 := by decide
  rw [e, h]
  omega

namespace Vmm

variable {π : Type} {alloc : π → Option (PmAlloc × π)} {s t : Vmm π} {dir : UInt32} {q r : ℕ}
  {target : UInt32} {d : PmAlloc} {p' : π}

/-- The calls of the kernel's allocator. -/
inductive KernOp
  | alloc
  | allocOnePage (target : UInt32)
  | releaseOnePage (target : UInt32)

/-- One call, without its return value. -/
def step (alloc : π → Option (PmAlloc × π)) : KernOp → Vmm π → Option (Vmm π)
  | .alloc, s => (vmmKernAlloc alloc s).map Prod.snd
  | .allocOnePage target, s => (vmmKernAllocOnePage alloc s target).map Prod.snd
  | .releaseOnePage target, s => vmmKernReleaseOnePage s target

/-- The page the call takes from the pool: the page asked for, or the lowest free page. -/
def Takes : KernOp → Vmm π → ℕ → Prop
  | .alloc, s, q => q ∈ s.freePages ∧ ∀ r ∈ s.freePages, q ≤ r
  | .allocOnePage target, s, q => kernPage? target = some q ∧ q ∈ s.freePages
  | .releaseOnePage _, _, _ => False

/-- `vmm_kern_alloc` takes the lowest free page. -/
theorem takes_sInf (h : s.freePages.Nonempty) : Takes .alloc s (sInf s.freePages) :=
  ⟨Nat.sInf_mem h, fun _ hr => Nat.sInf_le hr⟩

theorem Takes.unique {op : KernOp} (h₁ : Takes op s q) (h₂ : Takes op s r) : q = r := by
  cases op with
  | alloc => exact le_antisymm (h₁.2 r h₂.1) (h₂.2 q h₁.1)
  | allocOnePage target => exact Option.some.inj (h₁.1.symm.trans h₂.1)
  | releaseOnePage target => exact h₁.elim

theorem Takes.free {op : KernOp} (h : Takes op s q) : q ∈ s.freePages := by
  cases op with
  | alloc => exact h.1
  | allocOnePage target => exact h.2
  | releaseOnePage target => exact h.elim

/-- Only allocated pages are released. -/
def Allowed : KernOp → Vmm π → Prop
  | .releaseOnePage target, s => ∃ q, kernPage? target = some q ∧ s.Allocated q
  | _, _ => True

/-- The pool is `kern_vmm_pool`, and its storage is there. -/
structure Pooled (s : Vmm π) : Prop where
  pool : ∃ kb, s.kernVmmPool = kernPool kb
  stored : s.kernVmmPool.Stored s.poolMem

theorem Pooled.ok (h : s.Pooled) : s.kernVmmPool.Ok := by
  obtain ⟨kb, hk⟩ := h.pool
  exact hk ▸ kernPool_ok kb

theorem Pooled.pageIndex (h : s.Pooled) (t : UInt32) :
    s.kernVmmPool.pageIndex? t = kernPage? t := by
  obtain ⟨kb, hk⟩ := h.pool
  rw [hk, pageIndex_kernPool]

theorem Pooled.pageAddr (h : s.Pooled) (q : ℕ) : s.kernVmmPool.pageAddr q = kernAddr q := by
  obtain ⟨kb, hk⟩ := h.pool
  rw [hk, pageAddr_kernPool]

theorem Pooled.page_lt (h : s.Pooled) (hq : q ∈ s.freePages) : q < 256 * 1024 := by
  obtain ⟨kb, hk⟩ := h.pool
  have hlt := hq.1
  rwa [hk, pages_kernPool] at hlt

/-- `bitmap_alloc` on the kernel's pool takes the lowest free page. -/
theorem Pooled.alloc_eq (h : s.Pooled) :
    (s.freePages = ∅ ∧ s.kernVmmPool.alloc s.poolMem = some (bitmapReturnErro, s.poolMem)) ∨
      ∃ q m, q ∈ s.freePages ∧ (∀ r ∈ s.freePages, q ≤ r) ∧
        s.kernVmmPool.alloc s.poolMem = some (kernAddr q, m) ∧ s.kernVmmPool.Stored m ∧
        s.kernVmmPool.freeSet m = s.freePages \ {q} := by
  have hbitmap := h.ok.alloc_eq h.stored
  simp only [h.pageAddr] at hbitmap
  exact hbitmap

/-- `bitmap_alloc_one_page` on the kernel's pool, for a kernel page. -/
theorem Pooled.allocOnePage_eq (h : s.Pooled) {v : UInt32} (hq : kernPage? v = some q) :
    ∃ m, s.kernVmmPool.Stored m ∧ (q ∈ s.freePages →
        s.kernVmmPool.allocOnePage v s.poolMem = some (kernAddr q, m) ∧
          s.kernVmmPool.freeSet m = s.freePages \ {q}) ∧
      (q ∉ s.freePages →
        s.kernVmmPool.allocOnePage v s.poolMem = some (bitmapReturnErro, s.poolMem)) := by
  have hbitmap := h.ok.allocOnePage_eq h.stored ((h.pageIndex v).trans hq)
  rw [h.pageAddr] at hbitmap
  exact hbitmap

/-- `bitmap_release_one_page` on the kernel's pool, for a kernel page. -/
theorem Pooled.release_page (h : s.Pooled) {v : UInt32} (hq : kernPage? v = some q) :
    ∃ m, s.kernVmmPool.releaseOnePage v s.poolMem = some m ∧ s.kernVmmPool.Stored m ∧
      s.kernVmmPool.freeSet m = insert q s.freePages :=
  h.ok.releaseOnePage_eq h.stored ((h.pageIndex v).trans hq)

/-- The kernel's page tables are those of `set_page` but for the entries of kernel pages, and
the pool has the pages of the last 4 MiB marked as taken. -/
structure Ready (s : Vmm π) (dir : UInt32) : Prop where
  cr3 : s.cr3 = dir
  tables : KernTables s.mem dir
  pool : ∃ kb, s.kernVmmPool = kernPool kb
  stored : s.kernVmmPool.Stored s.poolMem
  window : ∀ q ∈ s.freePages, q < windowPage

theorem Ready.pooled (h : s.Ready dir) : s.Pooled := ⟨h.pool, h.stored⟩

/-- A state with the same page tables and another pool. -/
theorem Ready.with_pool (h : s.Ready dir) (hm : t.mem = s.mem) (hc : t.cr3 = s.cr3)
    (hb : t.kernVmmPool = s.kernVmmPool) (hs : s.kernVmmPool.Stored t.poolMem)
    (hF : ∀ q ∈ t.freePages, q < windowPage) : t.Ready dir :=
  ⟨hc.trans h.cr3, hm ▸ h.tables, hb ▸ h.pool, hb ▸ hs, hF⟩

/-! ### Mapping and unmapping a page -/

/-- What `mapPage` did, in any state: there was no frame and the page went back to the pool, or
the frame was written into the entry of the page. -/
theorem mapPage_cases {a : UInt32} (h : mapPage alloc s target = some (a, t)) :
    ∃ d p, alloc s.pmm = some (d, p) ∧
      ((d.state = 0 ∧ a = kernVmmAllocErro ∧ ∃ m,
          s.kernVmmPool.releaseOnePage target s.poolMem = some m ∧
          t = { s with pmm := p, poolMem := m }) ∨
        (d.state ≠ 0 ∧ a = target ∧
          ({ s with pmm := p } : Vmm π).write (getPte target) (kernDesc d.addr) = some t)) := by
  have htest : (1 ||| 0x00000001 : UInt32) ≠ 0 := by decide
  unfold mapPage at h
  obtain ⟨desc, -, h⟩ := Option.bind_eq_some_iff.mp h
  simp only [if_true, if_pos htest] at h
  obtain ⟨s', hs', h⟩ := Option.bind_eq_some_iff.mp h
  obtain rfl := Option.some.inj hs'
  obtain ⟨⟨d, p⟩, hd, h⟩ := Option.bind_eq_some_iff.mp h
  refine ⟨d, p, hd, ?_⟩
  by_cases hst : d.state = 0
  · simp only [if_pos hst] at h
    obtain ⟨m, hm, h⟩ := Option.bind_eq_some_iff.mp h
    obtain ⟨rfl, rfl⟩ := Prod.mk.inj (Option.some.inj h)
    exact Or.inl ⟨hst, rfl, m, hm, rfl⟩
  · simp only [if_neg hst] at h
    obtain ⟨u, hu, h⟩ := Option.bind_eq_some_iff.mp h
    obtain ⟨rfl, rfl⟩ := Prod.mk.inj (Option.some.inj h)
    exact Or.inr ⟨hst, rfl, hu⟩

/-- What an allocation answers that took a page from the pool, which left the bytes `m`: without a
frame everything is as before, otherwise the frame is written into the entry `x` of the page. -/
def answer (s : Vmm π) (a x : UInt32) (m : ByteMem) (r : PmAlloc × π) : UInt32 × Vmm π :=
  if r.1.state = 0 then (kernVmmAllocErro, { s with pmm := r.2 })
  else (a, { s with
    pmm := r.2, poolMem := m, mem := Function.update s.mem x (kernDesc r.1.addr) })

/-- An allocation that answers so returns the page when there is a frame, and only then. -/
theorem answer_cases {a x : UInt32} {m : ByteMem} {call : Option (UInt32 × Vmm π)}
    (he : call = (alloc s.pmm).map (s.answer a x m)) :
    (∀ d p, alloc s.pmm = some (d, p) → d.state ≠ 0 → call = some (a, { s with
      pmm := p, poolMem := m, mem := Function.update s.mem x (kernDesc d.addr) })) ∧
    ∀ a' t, call = some (a', t) → a' ≠ kernVmmAllocErro →
      ∃ d p, alloc s.pmm = some (d, p) ∧ d.state ≠ 0 ∧ a' = a ∧ t = { s with
        pmm := p, poolMem := m, mem := Function.update s.mem x (kernDesc d.addr) } := by
  constructor
  · intro d p hd hst
    rw [he, hd, Option.map_some, answer, if_neg hst]
  · intro a' t hr hne
    rw [he] at hr
    obtain ⟨⟨d, p⟩, hd, hr⟩ := Option.map_eq_some_iff.mp hr
    unfold answer at hr
    by_cases hst : d.state = 0
    · rw [if_pos hst] at hr
      exact absurd (Prod.mk.inj hr).1.symm hne
    · rw [if_neg hst] at hr
      obtain ⟨rfl, rfl⟩ := Prod.mk.inj hr
      exact ⟨d, p, hd, hst, rfl, rfl⟩

section calls

variable {m : ByteMem} {x y : UInt32}

variable (alloc) in
/-- Mapping a page that was just taken from the pool, when its entries can be reached. -/
theorem Pooled.mapPage_eq (h : s.Pooled) (hfree : q ∈ s.freePages) (hq : kernPage? target = some q)
    (hs : s.kernVmmPool.Stored m) (hF : s.kernVmmPool.freeSet m = s.freePages \ {q})
    (hpde : translate s.mem s.cr3 (getPde target) = some y)
    (hpte : translate s.mem s.cr3 (getPte target) = some x) :
    mapPage alloc { s with poolMem := m } target = (alloc s.pmm).map (s.answer target x m) := by
  have htest : (1 ||| 0x00000001 : UInt32) ≠ 0 := by decide
  have h' : Pooled { s with poolMem := m } := ⟨h.pool, hs⟩
  have hread : read { s with poolMem := m } (getPde target) = some (s.mem y) := by
    rw [read, hpde, Option.map_some]
  have hwrite : ∀ (p : π) (z : UInt32),
      write { s with poolMem := m, pmm := p } (getPte target) z =
        some { s with poolMem := m, pmm := p, mem := Function.update s.mem x z } := by
    intro p z
    rw [write, hpte, Option.map_some]
  -- giving the page back restores every byte of the pool
  have hrelease : s.kernVmmPool.releaseOnePage target m = some s.poolMem := by
    obtain ⟨m', hm', hs', hF'⟩ := h'.release_page hq
    have hback : s.kernVmmPool.freeSet m' = s.freePages := by
      rw [hF', freePages, hF, Set.insert_sdiff_singleton, Set.insert_eq_of_mem hfree]
    rw [hm', h.stored.eq_of_freeSet hs' hback]
  simp only [mapPage, hread, Option.bind_eq_bind, Option.bind_some, if_true, if_pos htest, hrelease]
  cases alloc s.pmm with
  | none => rfl
  | some r =>
      unfold answer
      simp only [Option.bind_some, Option.map_some, hwrite, kernDesc]
      split_ifs <;> rfl

variable (alloc) in
/-- `vmm_kern_alloc` when a page is free. -/
theorem Pooled.vmmKernAlloc_eq (h : s.Pooled) (ht : Takes .alloc s q)
    (hpde : translate s.mem s.cr3 (getPde (kernAddr q)) = some y)
    (hpte : translate s.mem s.cr3 (getPte (kernAddr q)) = some x) :
    ∃ m, s.kernVmmPool.Stored m ∧ s.kernVmmPool.freeSet m = s.freePages \ {q} ∧
      vmmKernAlloc alloc s = (alloc s.pmm).map (s.answer (kernAddr q) x m) := by
  rcases h.alloc_eq with ⟨hnil, -⟩ | ⟨r, m, hr, hmin, he, hs, hF⟩
  · have hq := ht.1
    rw [hnil] at hq
    exact hq.elim
  · have hr' : Takes .alloc s r := ⟨hr, hmin⟩
    obtain rfl := hr'.unique ht
    have hpage : r < 256 * 1024 := h.page_lt hr
    have hne : kernAddr r ≠ bitmapReturnErro := (kernPool_ok 0).pageAddr_ne_erro hpage
    refine ⟨m, hs, hF, ?_⟩
    rw [← h.mapPage_eq alloc hr (kernPage_kernAddr hpage) hs hF hpde hpte]
    simp only [vmmKernAlloc, he, Option.bind_eq_bind, Option.bind_some, if_neg hne]

theorem Pooled.vmmKernAlloc_none (h : s.Pooled) (hno : s.freePages = ∅) :
    vmmKernAlloc alloc s = some (kernVmmAllocErro, s) := by
  rcases h.alloc_eq with ⟨-, he⟩ | ⟨q, m, hq, -⟩
  · simp only [vmmKernAlloc, he, Option.bind_eq_bind, Option.bind_some, if_true]
  · rw [hno] at hq
    exact hq.elim

variable (alloc) in
/-- `vmm_kern_alloc_one_page` when the page is free. -/
theorem Pooled.vmmKernAllocOnePage_eq (h : s.Pooled) (ht : Takes (.allocOnePage target) s q)
    (hpde : translate s.mem s.cr3 (getPde target) = some y)
    (hpte : translate s.mem s.cr3 (getPte target) = some x) :
    ∃ m, s.kernVmmPool.Stored m ∧ s.kernVmmPool.freeSet m = s.freePages \ {q} ∧
      vmmKernAllocOnePage alloc s target = (alloc s.pmm).map (s.answer target x m) := by
  obtain ⟨hp, hq⟩ := ht
  obtain ⟨m, hs, hin, -⟩ := h.allocOnePage_eq hp
  obtain ⟨he, hF⟩ := hin hq
  have hne : kernAddr q ≠ bitmapReturnErro := (kernPool_ok 0).pageAddr_ne_erro (kernPage_lt hp)
  refine ⟨m, hs, hF, ?_⟩
  rw [← h.mapPage_eq alloc hq hp hs hF hpde hpte]
  simp only [vmmKernAllocOnePage, he, Option.bind_eq_bind, Option.bind_some, if_neg hne]

theorem Pooled.vmmKernAllocOnePage_none (h : s.Pooled)
    (hno : ∀ q ∈ s.freePages, kernPage? target ≠ some q) :
    vmmKernAllocOnePage alloc s target = some (kernVmmAllocErro, s) := by
  have he : s.kernVmmPool.allocOnePage target s.poolMem = some (bitmapReturnErro, s.poolMem) := by
    cases hp : kernPage? target with
    | none => exact h.ok.allocOnePage_out ((h.pageIndex target).trans hp)
    | some q =>
        obtain ⟨m, -, -, hout⟩ := h.allocOnePage_eq hp
        exact hout fun hq => hno q hq hp
  simp only [vmmKernAllocOnePage, he, Option.bind_eq_bind, Option.bind_some, if_true]

end calls

/-- The entries of a kernel page can be reached. -/
theorem Ready.translate_entries (h : s.Ready dir) (hq : kernPage? target = some q)
    (hw : q < windowPage) : translate s.mem s.cr3 (getPde target) = some (dirEntry dir target) ∧
      translate s.mem s.cr3 (getPte target) = some (slot dir q) := by
  rw [h.cr3]
  exact ⟨h.tables.selfMapped.translate_getPde target, h.tables.translate_getPte hq hw⟩

variable (alloc) in
/-- A call that takes page `q` from the pool. -/
theorem Ready.step_takes (h : s.Ready dir) {op : KernOp} (ht : Takes op s q) :
    ∃ a m, s.kernVmmPool.Stored m ∧ s.kernVmmPool.freeSet m = s.freePages \ {q} ∧
      step alloc op s = (alloc s.pmm).map fun r => (s.answer a (slot dir q) m r).2 := by
  have hw := h.window q ht.free
  cases op with
  | alloc =>
      obtain ⟨hpde, hpte⟩ := h.translate_entries (kernPage_kernAddr (h.pooled.page_lt ht.free)) hw
      obtain ⟨m, hs, hF, he⟩ := h.pooled.vmmKernAlloc_eq alloc ht hpde hpte
      refine ⟨kernAddr q, m, hs, hF, ?_⟩
      rw [step, he, Option.map_map]
      rfl
  | allocOnePage target =>
      obtain ⟨hpde, hpte⟩ := h.translate_entries ht.1 hw
      obtain ⟨m, hs, hF, he⟩ := h.pooled.vmmKernAllocOnePage_eq alloc ht hpde hpte
      refine ⟨target, m, hs, hF, ?_⟩
      rw [step, he, Option.map_map]
      rfl
  | releaseOnePage target => exact ht.elim

/-- An allocation that finds no page to take changes nothing. -/
theorem Ready.step_idle (h : s.Ready dir) {op : KernOp} (hop : ∀ target, op ≠ .releaseOnePage target)
    (hno : ∀ q, ¬ Takes op s q) : step alloc op s = some s := by
  cases op with
  | alloc =>
      have hnone : s.freePages = ∅ := by
        by_contra hne
        obtain ⟨q, hq⟩ := Set.nonempty_iff_ne_empty.mpr hne
        exact hno _ (takes_sInf ⟨q, hq⟩)
      rw [step, h.pooled.vmmKernAlloc_none hnone, Option.map_some]
  | allocOnePage target =>
      have hnone : ∀ q ∈ s.freePages, kernPage? target ≠ some q := fun q hq hp => hno q ⟨hp, hq⟩
      rw [step, h.pooled.vmmKernAllocOnePage_none hnone, Option.map_some]
  | releaseOnePage target => exact absurd rfl (hop target)

variable (alloc) in
/-- Releasing a page gives it back to the pool and clears the P bit of its entry. -/
theorem Ready.step_release (h : s.Ready dir) (hp : kernPage? target = some q) (hw : q < windowPage) :
    ∃ m, s.kernVmmPool.Stored m ∧ s.kernVmmPool.freeSet m = insert q s.freePages ∧
      step alloc (.releaseOnePage target) s = some { s with
        poolMem := m
        mem := Function.update s.mem (slot dir q) (s.mem (slot dir q) &&& 0xFFFFFFFE) } := by
  obtain ⟨m, hm, hs, hF⟩ := h.pooled.release_page hp
  have hlo : ¬ target < 0xC0000000 := by
    rw [UInt32.not_lt, UInt32.le_iff_toNat_le]
    exact (kernPage_eq_some.mp hp).1
  refine ⟨m, hs, hF, ?_⟩
  simp only [step, vmmKernReleaseOnePage, if_neg hlo, hm, Option.bind_eq_bind, Option.bind_some,
    read, write, h.cr3, h.tables.translate_getPte hp hw, Option.map_some]

/-! ### Effects -/

/-- What a call can do: nothing, when there is no page to take; nothing but ask for a frame, when
there is none; map the page it takes; unmap the page it releases. -/
inductive Effect (alloc : π → Option (PmAlloc × π)) (dir : UInt32) (op : KernOp) (s : Vmm π) :
    Vmm π → Prop
  | idle (kind : ∀ target, op ≠ .releaseOnePage target) (none : ∀ q, ¬ Takes op s q) :
      Effect alloc dir op s s
  | refused {t : Vmm π} (q : ℕ) (d : PmAlloc) (takes : Takes op s q)
      (frame : alloc s.pmm = some (d, t.pmm)) (state : d.state = 0)
      (free : t.freePages = s.freePages) (mem : t.mem = s.mem) : Effect alloc dir op s t
  | mapped {t : Vmm π} (q : ℕ) (d : PmAlloc) (takes : Takes op s q)
      (frame : alloc s.pmm = some (d, t.pmm)) (state : d.state ≠ 0)
      (free : t.freePages = s.freePages \ {q})
      (mem : t.mem = Function.update s.mem (slot dir q) (kernDesc d.addr)) :
      Effect alloc dir op s t
  | unmapped {t : Vmm π} (target : UInt32) (q : ℕ) (kind : op = .releaseOnePage target)
      (page : kernPage? target = some q) (free : t.freePages = insert q s.freePages)
      (mem : t.mem = Function.update s.mem (slot dir q) (s.mem (slot dir q) &&& 0xFFFFFFFE))
      (pmm : t.pmm = s.pmm) : Effect alloc dir op s t

/-- An allocation that takes a page, when the page manager answers. -/
theorem Ready.takes_effect (h : s.Ready dir) {op : KernOp} (ht : Takes op s q)
    (hd : alloc s.pmm = some (d, p')) :
    ∃ t, step alloc op s = some t ∧ t.Ready dir ∧ Effect alloc dir op s t := by
  obtain ⟨a, m, hs, hF, he⟩ := h.step_takes alloc ht
  rw [hd, Option.map_some] at he
  unfold answer at he
  by_cases hst : d.state = 0
  · rw [if_pos hst] at he
    exact ⟨_, he, h.with_pool rfl rfl rfl h.stored h.window, .refused q d ht hd hst rfl rfl⟩
  · rw [if_neg hst] at he
    refine ⟨_, he, ⟨h.cr3, h.tables.update_slot q _, h.pool, hs, ?_⟩,
      .mapped q d ht hd hst hF rfl⟩
    intro r hr
    simp only [freePages, hF] at hr
    exact h.window r hr.1

variable (alloc) in
theorem Ready.release_effect (h : s.Ready dir) (hp : kernPage? target = some q)
    (hw : q < windowPage) :
    ∃ t, step alloc (.releaseOnePage target) s = some t ∧ t.Ready dir ∧
      Effect alloc dir (.releaseOnePage target) s t := by
  obtain ⟨m, hs, hF, he⟩ := h.step_release alloc hp hw
  refine ⟨_, he, ⟨h.cr3, h.tables.update_slot q _, h.pool, hs, ?_⟩,
    .unmapped target q rfl hp hF rfl rfl⟩
  intro r hr
  simp only [freePages, hF] at hr
  rcases Set.mem_insert_iff.mp hr with rfl | hr
  · exact hw
  · exact h.window r hr

/-- A page that is released is free. -/
theorem Ready.release_free (h : s.Ready dir) (hp : kernPage? target = some q)
    (hw : q < windowPage) : ∃ t, vmmKernReleaseOnePage s target = some t ∧ t.Ready dir ∧
      t.freePages = insert q s.freePages ∧ t.pmm = s.pmm := by
  obtain ⟨t, ht, hr, heff⟩ := h.release_effect (fun _ => none) hp hw
  refine ⟨t, ht, hr, ?_⟩
  cases heff with
  | idle hkind => exact absurd rfl (hkind target)
  | refused _ _ htakes => exact htakes.elim
  | mapped _ _ htakes => exact htakes.elim
  | unmapped target' r hkind hr' hF _ hpmm =>
      obtain rfl := KernOp.releaseOnePage.inj hkind
      obtain rfl := Option.some.inj (hp.symm.trans hr')
      exact ⟨hF, hpmm⟩

variable (alloc) in
/-- One call from a state with the kernel's page tables, when the page manager answers for the
page that the call takes. -/
theorem Ready.step_effect (h : s.Ready dir) {op : KernOp} (ha : Allowed op s)
    (hd : ∀ q, Takes op s q → ∃ d p', alloc s.pmm = some (d, p')) :
    ∃ t, step alloc op s = some t ∧ t.Ready dir ∧ Effect alloc dir op s t := by
  by_cases hop : ∃ target, op = .releaseOnePage target
  · obtain ⟨target, rfl⟩ := hop
    obtain ⟨q, hp, hq⟩ := ha
    exact h.release_effect alloc hp hq.1
  · by_cases ht : ∃ q, Takes op s q
    · obtain ⟨q, hq⟩ := ht
      obtain ⟨d, p', hd⟩ := hd q hq
      exact h.takes_effect hq hd
    · have hno : ∀ q, ¬ Takes op s q := fun q hq => ht ⟨q, hq⟩
      have hkind : ∀ target, op ≠ .releaseOnePage target := fun target e => hop ⟨target, e⟩
      exact ⟨s, h.step_idle hkind hno, h, .idle hkind hno⟩

/-- What a call did that came to its end. -/
theorem Ready.effect_of_step (h : s.Ready dir) {op : KernOp} (ha : Allowed op s)
    (ht : step alloc op s = some t) : t.Ready dir ∧ Effect alloc dir op s t := by
  have hd : ∀ q, Takes op s q → ∃ d p', alloc s.pmm = some (d, p') := by
    intro q hq
    obtain ⟨a, m, -, -, he⟩ := h.step_takes alloc hq
    obtain ⟨⟨d, p'⟩, hd, -⟩ := Option.map_eq_some_iff.mp (he.symm.trans ht)
    exact ⟨d, p', hd⟩
  obtain ⟨t', ht', hready, heff⟩ := h.step_effect alloc ha hd
  obtain rfl := Option.some.inj (ht'.symm.trans ht)
  exact ⟨hready, heff⟩

end Vmm
end BHOS
