import BHOS.UserPdt

/-! # Kernel pages under any directory

`VmmSteps` follows the directory that `boot.s` builds, where 16 tables serve the whole kernel half.
Here the loaded directory maps itself and has a present entry for every kernel address, no two of
which lead to the same table (`KernDirectory`); that of `boot.s` is not such a directory.  Every
kernel page then has a table entry of its own, and writing it changes neither the directory nor the
entry of any other page.  `Space` adds the pool; `Space.gives` says what an allocation does there. -/

namespace BHOS

variable {m m' : PhysMem} {c v w x F W : UInt32}

/-- The physical address of the table entry of a virtual address. -/
def pteAddr (m : PhysMem) (c v : UInt32) : UInt32 := tableEntry (m (dirEntry c v)) v

/-- The table entry of a virtual address. -/
def pte (m : PhysMem) (c v : UInt32) : UInt32 := m (pteAddr m c v)

theorem frame_tableEntry (p v : UInt32) : frame (tableEntry p v) = frame p := by
  rw [← UInt32.toNat_inj, frame_toNat, frame_toNat, tableEntry_toNat]
  omega

theorem frame_pteAddr (m : PhysMem) (c v : UInt32) :
    frame (pteAddr m c v) = frame (m (dirEntry c v)) := frame_tableEntry _ v

theorem frame_of_dirEntry (c v : UInt32) : frame (dirEntry c v) = frame c := by
  have hv := v.toNat_lt
  rw [← UInt32.toNat_inj, frame_toNat, frame_toNat, dirEntry_toNat]
  omega

theorem pteAddr_index (h : pteAddr m c v = pteAddr m' c w) :
    v.toNat / 4096 % 1024 = w.toNat / 4096 % 1024 := by
  have hframe := congrArg frame h
  rw [frame_pteAddr, frame_pteAddr, ← UInt32.toNat_inj, frame_toNat, frame_toNat] at hframe
  have hn := congrArg UInt32.toNat h
  unfold pteAddr at hn
  rw [tableEntry_toNat, tableEntry_toNat] at hn
  omega

/-- Addresses with one entry are of one page, when their page tables lie in different frames. -/
theorem page_eq_of_pteAddr (h : pteAddr m c v = pteAddr m c w)
    (hapart : frame (m (dirEntry c v)) = frame (m (dirEntry c w)) →
      v.toNat / 2 ^ 22 = w.toNat / 2 ^ 22) : v.toNat / 4096 = w.toNat / 4096 := by
  have hindex := pteAddr_index h
  have hframe := congrArg frame h
  rw [frame_pteAddr, frame_pteAddr] at hframe
  have hdiv := hapart hframe
  omega

/-- The entries only depend on the directory. -/
theorem pteAddr_congr (h : m' (dirEntry c v) = m (dirEntry c v)) : pteAddr m' c v = pteAddr m c v := by
  rw [pteAddr, pteAddr, h]

/-- The addresses of a page share their entry. -/
theorem pteAddr_page (h : v.toNat / 4096 = w.toNat / 4096) : pteAddr m c v = pteAddr m c w := by
  have hdir : dirEntry c v = dirEntry c w := dirEntry_eq_of_div (by omega)
  rw [pteAddr, pteAddr, hdir, ← UInt32.toNat_inj, tableEntry_toNat, tableEntry_toNat, h]

/-- The R/W bit of an entry. -/
def Writable (desc : UInt32) : Prop := desc &&& 2 = 2

/-- The U/S bit of an entry. -/
def UserAccess (desc : UInt32) : Prop := desc &&& 4 = 4

theorem writable_iff (x : UInt32) : Writable x ↔ x.toNat / 2 % 2 = 1 := by
  have h := Words.nat_and_field x.toNat 1 1
  have e : (x &&& 2).toNat = x.toNat / 2 % 2 * 2 := h
  rw [Writable, ← UInt32.toNat_inj, e]
  simp only [UInt32.reduceToNat]
  omega

theorem userAccess_iff (x : UInt32) : UserAccess x ↔ x.toNat / 4 % 2 = 1 := by
  have h := Words.nat_and_field x.toNat 1 2
  have e : (x &&& 4).toNat = x.toNat / 4 % 2 * 4 := h
  rw [UserAccess, ← UInt32.toNat_inj, e]
  simp only [UInt32.reduceToNat]
  omega

/-- The entry of a kernel page is writable, for the kernel only. -/
theorem rights_kernDesc (addr : UInt32) : Writable (kernDesc addr) ∧ ¬ UserAccess (kernDesc addr) := by
  rw [writable_iff, userAccess_iff, kernDesc_toNat]
  omega

/-- The directory maps itself, and its entries for the kernel half are present and lead to pairwise
distinct tables. -/
structure KernDirectory (m : PhysMem) (c : UInt32) : Prop where
  self : SelfMapped m c
  present : ∀ v, 0xC0000000 ≤ v.toNat → Present (m (dirEntry c v))
  apart : ∀ v w, 0xC0000000 ≤ v.toNat → 0xC0000000 ≤ w.toNat →
    frame (m (dirEntry c v)) = frame (m (dirEntry c w)) → v.toNat / 2 ^ 22 = w.toNat / 2 ^ 22

/-- The frames of the kernel's tables; one of them is the directory. -/
def TableFrame (m : PhysMem) (c F : UInt32) : Prop :=
  ∃ v, 0xC0000000 ≤ v.toNat ∧ frame (m (dirEntry c v)) = F

namespace KernDirectory

theorem congr (h : KernDirectory m c)
    (hm : ∀ v, 0xC0000000 ≤ v.toNat → m' (dirEntry c v) = m (dirEntry c v)) :
    KernDirectory m' c := by
  have hself := hm 0xFFFFF000 (by decide)
  refine ⟨⟨?_, ?_⟩, ?_, ?_⟩
  · rw [hself]
    exact h.self.present
  · rw [hself]
    exact h.self.own
  · intro v hv
    rw [hm v hv]
    exact h.present v hv
  · intro v w hv hw
    rw [hm v hv, hm w hw]
    exact h.apart v w hv hw

/-- Below the last 4 MiB the tables are not the directory. -/
theorem frame_ne (h : KernDirectory m c) (hv : 0xC0000000 ≤ v.toNat) (hw : v.toNat < 0xFFC00000) :
    frame (m (dirEntry c v)) ≠ frame c := by
  intro e
  have hdiv := h.apart v 0xFFFFF000 hv (by decide) (e.trans h.self.own.symm)
  simp only [UInt32.reduceToNat] at hdiv
  omega

/-- A table entry below the last 4 MiB is not a word of the directory. -/
theorem dirEntry_ne (h : KernDirectory m c) (hv : 0xC0000000 ≤ v.toNat) (hw : v.toNat < 0xFFC00000)
    (w : UInt32) : dirEntry c w ≠ pteAddr m c v := by
  intro e
  apply h.frame_ne hv hw
  rw [← frame_pteAddr, ← e, frame_of_dirEntry]

/-- Different pages have different entries. -/
theorem pteAddr_inj (h : KernDirectory m c) (hv : 0xC0000000 ≤ v.toNat)
    (hw : 0xC0000000 ≤ w.toNat) (e : pteAddr m c v = pteAddr m c w) :
    v.toNat / 4096 = w.toNat / 4096 :=
  page_eq_of_pteAddr e (h.apart v w hv hw)

theorem translate_eq (h : KernDirectory m c) (hv : 0xC0000000 ≤ v.toNat) :
    translate m c v =
      if Present (pte m c v) then some (frame (pte m c v) + (v &&& 0xFFF)) else none := by
  rw [translate, if_pos (h.present v hv)]
  rfl

theorem translate_getPte (h : KernDirectory m c) (hv : 0xC0000000 ≤ v.toNat) :
    translate m c (getPte v) = some (pteAddr m c v) := by
  rw [h.self.translate_getPte, if_pos (h.present v hv)]
  rfl

section update

variable (h : KernDirectory m c) (hv : 0xC0000000 ≤ v.toNat) (hw : v.toNat < 0xFFC00000)

include h hv hw

theorem update_dirEntry (x w : UInt32) :
    Function.update m (pteAddr m c v) x (dirEntry c w) = m (dirEntry c w) :=
  Function.update_of_ne (h.dirEntry_ne hv hw w) _ _

/-- Writing a table entry leaves the directory alone. -/
theorem update (x : UInt32) : KernDirectory (Function.update m (pteAddr m c v) x) c :=
  h.congr fun w _ => h.update_dirEntry hv hw x w

theorem pteAddr_update (x w : UInt32) :
    pteAddr (Function.update m (pteAddr m c v) x) c w = pteAddr m c w :=
  pteAddr_congr (h.update_dirEntry hv hw x w)

theorem pte_update_self (x : UInt32) : pte (Function.update m (pteAddr m c v) x) c v = x := by
  rw [pte, h.pteAddr_update hv hw, Function.update_self]

/-- Writing the entry of a page leaves the entries of the others alone. -/
theorem pte_update_of_ne (x : UInt32) (hr : 0xC0000000 ≤ w.toNat)
    (hne : w.toNat / 4096 ≠ v.toNat / 4096) :
    pte (Function.update m (pteAddr m c v) x) c w = pte m c w := by
  rw [pte, h.pteAddr_update hv hw, Function.update_of_ne, pte]
  intro e
  exact hne (h.pteAddr_inj hr hv e)

end update

section frames

variable (h : KernDirectory m c) (hF : ¬ TableFrame m c F) (hm : ∀ a, frame a ≠ F → m' a = m a)

include h hF hm

theorem dirEntry_of_frame (v : UInt32) : m' (dirEntry c v) = m (dirEntry c v) := by
  apply hm
  rw [frame_of_dirEntry, ← h.self.own]
  exact fun e => hF ⟨0xFFFFF000, by decide, e⟩

/-- Writing into a frame that is not in use as a table keeps the directory. -/
theorem of_frame : KernDirectory m' c := h.congr fun v _ => h.dirEntry_of_frame hF hm v

theorem pte_of_frame (hv : 0xC0000000 ≤ v.toNat) : pte m' c v = pte m c v := by
  rw [pte, pteAddr_congr (h.dirEntry_of_frame hF hm v), pte]
  apply hm
  rw [frame_pteAddr]
  exact fun e => hF ⟨v, hv, e⟩

end frames

end KernDirectory

namespace Vmm

variable {π : Type} {alloc : π → Option (PmAlloc × π)} {s t : Vmm π} {q r : ℕ} {a target : UInt32}
  {b : ByteMem} {d : PmAlloc} {p' : π}

/-- The kernel's pool, with the last 4 MiB taken, and a directory that is loaded. -/
structure Space (s : Vmm π) : Prop where
  pooled : s.Pooled
  directory : KernDirectory s.mem s.cr3
  window : ∀ q ∈ s.freePages, q < windowPage

/-- The physical address of the table entry of a kernel page. -/
def slotOf (s : Vmm π) (q : ℕ) : UInt32 := pteAddr s.mem s.cr3 (kernAddr q)

theorem kernAddr_range (hq : q < windowPage) :
    0xC0000000 ≤ (kernAddr q).toNat ∧ (kernAddr q).toNat < 0xFFC00000 := by
  unfold windowPage at hq
  rw [kernAddr_toNat (by omega)]
  omega

/-- A page-aligned address is the address of its page. -/
theorem kernAddr_of_aligned (hq : kernPage? target = some q) (hal : target.toNat % 4096 = 0) :
    kernAddr q = target := by
  obtain ⟨hlo, hqv⟩ := kernPage_eq_some.mp hq
  rw [← UInt32.toNat_inj, kernAddr_toNat (kernPage_lt hq)]
  omega

variable (alloc) in
/-- An allocation of the page `q` with the address `kernAddr q`, by either function. -/
theorem Space.gives (h : s.Space) :
    (∀ q, Takes .alloc s q → ∃ m, s.kernVmmPool.Stored m ∧
      s.kernVmmPool.freeSet m = s.freePages \ {q} ∧
      vmmKernAlloc alloc s = (alloc s.pmm).map (s.answer (kernAddr q) (s.slotOf q) m)) ∧
    ∀ target q, target.toNat % 4096 = 0 → Takes (.allocOnePage target) s q →
      ∃ m, s.kernVmmPool.Stored m ∧ s.kernVmmPool.freeSet m = s.freePages \ {q} ∧
        vmmKernAllocOnePage alloc s target =
          (alloc s.pmm).map (s.answer (kernAddr q) (s.slotOf q) m) := by
  constructor
  · intro q ht
    obtain ⟨hlo, -⟩ := kernAddr_range (h.window q ht.free)
    exact h.pooled.vmmKernAlloc_eq alloc ht (h.directory.self.translate_getPde _)
      (h.directory.translate_getPte hlo)
  · intro target q hal ht
    have hlo := (kernPage_eq_some.mp ht.1).1
    have haddr := kernAddr_of_aligned ht.1 hal
    unfold slotOf
    rw [haddr]
    exact h.pooled.vmmKernAllocOnePage_eq alloc ht (h.directory.self.translate_getPde _)
      (h.directory.translate_getPte hlo)

/-- The page `q` was free and has been mapped, for the kernel to read and write, to the frame that
the page manager handed out; no other bit of the pool, table entry or word of memory has changed. -/
structure PageMapped (alloc : π → Option (PmAlloc × π)) (s t : Vmm π) (q : ℕ) (d : PmAlloc) :
    Prop where
  free : q ∈ s.freePages
  taken : t.freePages = s.freePages \ {q}
  pool : t.kernVmmPool = s.kernVmmPool ∧ t.kernVmmPool.Stored t.poolMem
  cr3 : t.cr3 = s.cr3
  handed : alloc s.pmm = some (d, t.pmm) ∧ d.state ≠ 0
  entry : frame (pte t.mem t.cr3 (kernAddr q)) = frame d.addr
  present : Present (pte t.mem t.cr3 (kernAddr q))
  rights : Writable (pte t.mem t.cr3 (kernAddr q)) ∧ ¬ UserAccess (pte t.mem t.cr3 (kernAddr q))
  others : ∀ v, 0xC0000000 ≤ v.toNat → kernPage? v ≠ some q →
    pte t.mem t.cr3 v = pte s.mem s.cr3 v
  words : ∀ a, a ≠ s.slotOf q → t.mem a = s.mem a

/-- The frame is written into the entry of the page. -/
theorem Space.pageMapped (h : s.Space) (hq : q ∈ s.freePages) (hs : s.kernVmmPool.Stored b)
    (hF : s.kernVmmPool.freeSet b = s.freePages \ {q}) (hd : alloc s.pmm = some (d, p'))
    (hst : d.state ≠ 0) : PageMapped alloc s { s with
      pmm := p', poolMem := b, mem := Function.update s.mem (s.slotOf q) (kernDesc d.addr) } q d := by
  obtain ⟨hlo, hhi⟩ := kernAddr_range (h.window q hq)
  have hentry : pte (Function.update s.mem (s.slotOf q) (kernDesc d.addr)) s.cr3 (kernAddr q) =
      kernDesc d.addr := h.directory.pte_update_self hlo hhi _
  refine ⟨hq, hF, ⟨rfl, hs⟩, rfl, ⟨hd, hst⟩, ?_, ?_, ?_, ?_, ?_⟩
  · rw [hentry, frame_kernDesc]
  · rw [hentry]
    exact present_kernDesc d.addr
  · rw [hentry]
    exact rights_kernDesc d.addr
  · intro v hv hne
    apply h.directory.pte_update_of_ne hlo hhi _ hv
    rw [kernAddr_toNat (h.pooled.page_lt hq)]
    intro e
    exact hne (kernPage_eq_some.mpr ⟨hv, by omega⟩)
  · intro a ha
    exact Function.update_of_ne ha _ _

theorem PageMapped.dirEntry (hm : PageMapped alloc s t q d) (h : s.Space) (v : UInt32) :
    t.mem (dirEntry s.cr3 v) = s.mem (dirEntry s.cr3 v) := by
  obtain ⟨hlo, hhi⟩ := kernAddr_range (h.window q hm.free)
  exact hm.words _ (h.directory.dirEntry_ne hlo hhi v)

/-- The frame is that of the request. -/
theorem PageMapped.pmm_eq {d' : PmAlloc} (hm : PageMapped alloc s t q d)
    (hd : alloc s.pmm = some (d', p')) : t.pmm = p' :=
  (Prod.mk.inj (Option.some.inj (hm.handed.1.symm.trans hd))).2

theorem PageMapped.space (hm : PageMapped alloc s t q d) (h : s.Space) : t.Space := by
  obtain ⟨hp, hs⟩ := hm.pool
  refine ⟨⟨hp ▸ h.pooled.pool, hs⟩, ?_, ?_⟩
  · rw [hm.cr3]
    exact h.directory.congr fun v _ => hm.dirEntry h v
  · intro r hr
    rw [hm.taken] at hr
    exact h.window r hr.1

/-- What an allocation returns that took a free page. -/
theorem Space.answer_cases (h : s.Space) (hq : q ∈ s.freePages) (hs : s.kernVmmPool.Stored b)
    (hF : s.kernVmmPool.freeSet b = s.freePages \ {q}) {call : Option (UInt32 × Vmm π)}
    (he : call = (alloc s.pmm).map (s.answer (kernAddr q) (s.slotOf q) b)) :
    (∀ d p', alloc s.pmm = some (d, p') → d.state ≠ 0 →
      ∃ t, call = some (kernAddr q, t) ∧ PageMapped alloc s t q d) ∧
    ∀ a t, call = some (a, t) → a ≠ kernVmmAllocErro →
      ∃ d, a = kernAddr q ∧ PageMapped alloc s t q d := by
  obtain ⟨hgives, hgiven⟩ := Vmm.answer_cases he
  constructor
  · intro d p' hd hst
    exact ⟨_, hgives d p' hd hst, h.pageMapped hq hs hF hd hst⟩
  · intro a t hr hne
    obtain ⟨d, p', hd, hst, rfl, rfl⟩ := hgiven a t hr hne
    exact ⟨d, rfl, h.pageMapped hq hs hF hd hst⟩

/-- `vmm_kern_alloc` maps the lowest free page. -/
theorem Space.vmmKernAlloc_mapped (h : s.Space) (ht : Takes .alloc s q)
    (hd : alloc s.pmm = some (d, p')) (hst : d.state ≠ 0) :
    ∃ t, vmmKernAlloc alloc s = some (kernAddr q, t) ∧ PageMapped alloc s t q d := by
  obtain ⟨m, hs, hF, he⟩ := (h.gives alloc).1 q ht
  exact (h.answer_cases ht.1 hs hF he).1 d p' hd hst

theorem Space.mapped_of_vmmKernAlloc (h : s.Space) (hr : vmmKernAlloc alloc s = some (a, t))
    (hne : a ≠ kernVmmAllocErro) :
    ∃ q d, Takes .alloc s q ∧ a = kernAddr q ∧ PageMapped alloc s t q d := by
  by_cases hfree : s.freePages = ∅
  · rw [h.pooled.vmmKernAlloc_none hfree] at hr
    exact absurd (Prod.mk.inj (Option.some.inj hr)).1.symm hne
  · have hex := Set.nonempty_iff_ne_empty.mpr hfree
    have ht : Takes .alloc s (sInf s.freePages) := takes_sInf hex
    obtain ⟨m, hs, hF, he⟩ := (h.gives alloc).1 _ ht
    obtain ⟨d, ha, hm⟩ := (h.answer_cases ht.1 hs hF he).2 a t hr hne
    exact ⟨_, d, ht, ha, hm⟩

/-- `vmm_kern_init` under such a directory. -/
theorem space_of_init {kernEnd kb : UInt32} (s : Vmm π) (hdir : KernDirectory s.mem s.cr3)
    (hs : (kernPool kb).Stored s.poolMem) (hused : (getKernUsedPageCount kernEnd).toNat ≤ 1024) :
    ∃ t, vmmKernInit kernEnd kb s = some t ∧ t.Space ∧ t.mem = s.mem ∧ t.cr3 = s.cr3 ∧
      t.pmm = s.pmm ∧
      t.freePages = {q | (getKernUsedPageCount kernEnd).toNat ≤ q ∧ q < windowPage} := by
  obtain ⟨m, hm, hs', hF⟩ := vmmKernInit_eq kernEnd kb s hs hused
  refine ⟨_, hm, ⟨⟨⟨kb, rfl⟩, hs'⟩, hdir, ?_⟩, rfl, rfl, rfl, hF⟩
  intro q hq
  unfold freePages at hq
  rw [hF] at hq
  exact hq.2

end Vmm

/-- A directory at the frame `0x400000` with 255 kernel tables behind it. -/
def sampleDirectory : PhysMem := fun a =>
  let entry : UInt32 := ((a &&& 0xFFF) >>> 2) + 1
  if frame a = 0x400000 ∧ 0xC00 ≤ a &&& 0xFFF then 0x400003 + (entry &&& 0x3FF) * 4096 else 0

theorem sampleDirectory_toNat (hv : 0xC0000000 ≤ v.toNat) :
    (sampleDirectory (dirEntry 0x400000 v)).toNat =
      0x400003 + (v.toNat / 2 ^ 22 + 1) % 1024 * 4096 := by
  have hlt := v.toNat_lt
  have hoff : (dirEntry 0x400000 v &&& 0xFFF).toNat = v.toNat / 2 ^ 22 * 4 := by
    rw [Words.toNat_and_offset, dirEntry_toNat]
    simp only [UInt32.reduceToNat]
    omega
  have hcond : frame (dirEntry 0x400000 v) = 0x400000 ∧ 0xC00 ≤ dirEntry 0x400000 v &&& 0xFFF := by
    constructor
    · rw [frame_of_dirEntry]
      decide
    · rw [UInt32.le_iff_toNat_le, hoff]
      simp only [UInt32.reduceToNat]
      omega
  unfold sampleDirectory
  simp only [if_pos hcond, UInt32.toNat_add, UInt32.toNat_mul, Words.toNat_and_index,
    UInt32.toNat_shiftRight, hoff, UInt32.reduceToNat, Nat.reduceMod, Nat.shiftRight_eq_div_pow]
  omega

theorem kernDirectory_sample : KernDirectory sampleDirectory 0x400000 := by
  have hself := sampleDirectory_toNat (v := 0xFFFFF000) (by decide)
  refine ⟨⟨?_, ?_⟩, ?_, ?_⟩
  · rw [present_iff, hself]
    decide
  · rw [← UInt32.toNat_inj, frame_toNat, frame_toNat, hself]
    decide
  · intro v hv
    rw [present_iff, sampleDirectory_toNat hv]
    omega
  · intro v w hv hw e
    have hv' := v.toNat_lt
    have hw' := w.toNat_lt
    rw [← UInt32.toNat_inj, frame_toNat, frame_toNat, sampleDirectory_toNat hv,
      sampleDirectory_toNat hw] at e
    omega

/-- Its tables lie in the second 4 MiB of memory. -/
theorem tableFrame_sample (h : TableFrame sampleDirectory 0x400000 F) : F.toNat < 0x800000 := by
  obtain ⟨v, hv, rfl⟩ := h
  rw [frame_toNat, sampleDirectory_toNat hv]
  omega

end BHOS
