import BHOS.Lib.Runs
import BHOS.VmmSteps

/-! # Isolation of kernel pages

Two allocated kernel pages should never share a frame, and an operation on one page should not
change the translation of another.  This holds in exactly the runs in which no page is mapped
while an allocated page lies a multiple of 64 MiB away (`Far`): the page tables built at boot
repeat after 64 MiB, so such a mapping replaces the frame of the other page as well.  When only
pages of the kernel image are spared (`SparesImage`), the kernel still reaches its own data.

The page manager is a function `alloc` of which only one thing is assumed, that the frames it
returns are not in use (`UnusedFrame`). -/

namespace BHOS

open Transition

namespace Vmm

variable {π : Type} {alloc : π → PmAlloc × π} {s t : Vmm π} {dir : UInt32} {q r : ℕ} {op : KernOp}

/-- The frame a kernel page is translated to. -/
def frameOf (s : Vmm π) (q : ℕ) : Option UInt32 := translate s.mem s.cr3 (kernAddr q)

/-- Different allocated kernel pages are mapped to different frames. -/
def Isolated (s : Vmm π) : Prop :=
  ∀ q r, s.Allocated q → s.Allocated r → q ≠ r →
    ∃ f g, s.frameOf q = some f ∧ s.frameOf r = some g ∧ f ≠ g

/-- The page that a call names. -/
def KernOp.page? : KernOp → Option ℕ
  | .alloc => none
  | .allocOnePage target => kernPage? target
  | .releaseOnePage target => kernPage? target

/-- A page manager that always answers. -/
def answers (alloc : π → PmAlloc × π) : π → Option (PmAlloc × π) := fun p => some (alloc p)

/-- The call leaves the translation of all other allocated pages as it is. -/
def Undisturbed (alloc : π → PmAlloc × π) (op : KernOp) (s : Vmm π) : Prop :=
  ∀ t, step (answers alloc) op s = some t →
    ∀ r, s.Allocated r → op.page? ≠ some r → t.frameOf r = s.frameOf r

/-- The call leaves different allocated pages on different frames and the translation of the
other pages as it is. -/
def KeepsIsolation (alloc : π → PmAlloc × π) (op : KernOp) (s : Vmm π) : Prop :=
  (∀ t, step (answers alloc) op s = some t → t.Isolated) ∧ Undisturbed alloc op s

/-- The frame that the page manager would return next is not in use. -/
def UnusedFrame (alloc : π → PmAlloc × π) (_ : KernOp) (s : Vmm π) : Prop :=
  (alloc s.pmm).1.state ≠ 0 → ∀ r, s.Allocated r → s.frameOf r ≠ some (frame (alloc s.pmm).1.addr)

/-- No allocated page lies a multiple of 64 MiB from a page that the call maps. -/
def Far (alloc : π → PmAlloc × π) (op : KernOp) (s : Vmm π) : Prop :=
  ∀ q, Takes op s q → (alloc s.pmm).1.state ≠ 0 →
    ∀ r, s.Allocated r → r % aliasPages ≠ q % aliasPages

/-- No page that the call maps lies a multiple of 64 MiB from a page of the kernel image.  The
image holds the storage of the pool and the static variables and the page array of the page
manager, which the functions reach through its pages. -/
def SparesImage (alloc : π → Option (PmAlloc × π)) (used : ℕ) (op : KernOp) (s : Vmm π) : Prop :=
  ∀ q d p, Takes op s q → alloc s.pmm = some (d, p) → d.state ≠ 0 → used ≤ q % aliasPages

theorem Ready.frameOf_eq (h : s.Ready dir) (hq : q < windowPage) :
    s.frameOf q = if Present (s.mem (slot dir q)) then some (frame (s.mem (slot dir q))) else none := by
  have hpage : q < 256 * 1024 := lt_trans hq (by decide)
  have hoff : kernAddr q &&& 0xFFF = 0 := Words.and_offset_of_aligned (kernAddr_aligned hpage)
  rw [frameOf, h.cr3, h.tables.translate_eq (kernPage_kernAddr hpage) hq, hoff, UInt32.add_zero]

/-! ### The invariant -/

/-- Allocated pages are present, no two of them share a word of the page tables, and no two
have the same frame. -/
structure Mapping (s : Vmm π) (dir : UInt32) : Prop where
  ready : s.Ready dir
  present : ∀ q, s.Allocated q → Present (s.mem (slot dir q))
  apart : ∀ q r, s.Allocated q → s.Allocated r → q ≠ r → q % aliasPages ≠ r % aliasPages
  frames : ∀ q r, s.Allocated q → s.Allocated r → q ≠ r →
    frame (s.mem (slot dir q)) ≠ frame (s.mem (slot dir r))

theorem Mapping.frameOf_eq (h : s.Mapping dir) (hq : s.Allocated q) :
    s.frameOf q = some (frame (s.mem (slot dir q))) := by
  rw [h.ready.frameOf_eq hq.1, if_pos (h.present q hq)]

theorem Mapping.isolated (h : s.Mapping dir) : s.Isolated := fun q r hq hr hne =>
  ⟨_, _, h.frameOf_eq hq, h.frameOf_eq hr, h.frames q r hq hr hne⟩

/-- A page allocated after page `q` was taken from the pool. -/
theorem allocated_of_taken (hF : t.freePages = s.freePages \ {q}) (hr : t.Allocated r) :
    s.Allocated r ∨ r = q := by
  by_cases he : r = q
  · exact Or.inr he
  · refine Or.inl ⟨hr.1, fun hrs => hr.2 ?_⟩
    rw [hF]
    exact ⟨hrs, he⟩

/-- A page allocated after page `q` was given back to the pool. -/
theorem allocated_of_released (hF : t.freePages = insert q s.freePages) (hr : t.Allocated r) :
    s.Allocated r ∧ r ≠ q := by
  refine ⟨⟨hr.1, fun hrs => hr.2 ?_⟩, ?_⟩
  · rw [hF]
    exact Set.mem_insert_of_mem q hrs
  · rintro rfl
    apply hr.2
    rw [hF]
    exact Set.mem_insert r _

/-- Writing the word of page `q` leaves the words of the pages far from it alone. -/
theorem Ready.mem_of_far (h : s.Ready dir) {x : UInt32}
    (hm : t.mem = Function.update s.mem (slot dir q) x) (hne : r % aliasPages ≠ q % aliasPages) :
    t.mem (slot dir r) = s.mem (slot dir r) := by
  rw [hm, Function.update_of_ne fun e => hne (h.tables.slot_eq_iff.mp e)]

/-- A page far from the written word is translated as before. -/
theorem Ready.frameOf_of_far (h : s.Ready dir) (ht : t.Ready dir) {x : UInt32}
    (hm : t.mem = Function.update s.mem (slot dir q) x) (hne : r % aliasPages ≠ q % aliasPages)
    (hr : r < windowPage) : t.frameOf r = s.frameOf r := by
  rw [h.frameOf_eq hr, ht.frameOf_eq hr, h.mem_of_far hm hne]

/-- A call that spares the kernel image leaves the words of its pages alone, if it releases no page
a multiple of 64 MiB from them either. -/
theorem Ready.mem_of_spares {alloc : π → Option (PmAlloc × π)} {used : ℕ} (h : s.Ready dir)
    (heff : Effect alloc dir op s t) (hs : SparesImage alloc used op s)
    (hrel : ∀ target q, op = .releaseOnePage target → kernPage? target = some q →
      used ≤ q % aliasPages) (hr : r < used) (hu : used ≤ 1024) :
    t.mem (slot dir r) = s.mem (slot dir r) := by
  have hlow : r % aliasPages = r := Nat.mod_eq_of_lt (by unfold aliasPages; omega)
  cases heff with
  | idle => rfl
  | refused _ _ _ _ _ _ hm => rw [hm]
  | mapped q d takes hd hst _ hm =>
      have hle := hs q d _ takes hd hst
      exact h.mem_of_far hm (by omega)
  | unmapped target q hkind hp _ hm _ =>
      have hle := hrel target q hkind hp
      exact h.mem_of_far hm (by omega)

/-- The same page tables and the same free pages. -/
theorem Mapping.same (h : s.Mapping dir) (ht : t.Ready dir) (hF : t.freePages = s.freePages)
    (hm : t.mem = s.mem) : t.Mapping dir := by
  have hall : ∀ r, t.Allocated r → s.Allocated r := fun r hr => ⟨hr.1, hF ▸ hr.2⟩
  refine ⟨ht, ?_, fun q r hq hr => h.apart q r (hall q hq) (hall r hr), ?_⟩
  · intro q hq
    rw [hm]
    exact h.present q (hall q hq)
  · intro q r hq hr
    rw [hm]
    exact h.frames q r (hall q hq) (hall r hr)

/-- Mapping a page far from all allocated ones on an unused frame. -/
theorem Mapping.mapped (h : s.Mapping dir) (ht : t.Ready dir) {d : PmAlloc}
    (hF : t.freePages = s.freePages \ {q})
    (hm : t.mem = Function.update s.mem (slot dir q) (kernDesc d.addr))
    (hfar : ∀ r, s.Allocated r → r % aliasPages ≠ q % aliasPages)
    (hunused : ∀ r, s.Allocated r → s.frameOf r ≠ some (frame d.addr)) : t.Mapping dir := by
  have hself : t.mem (slot dir q) = kernDesc d.addr := by rw [hm, Function.update_self]
  have hold : ∀ r, s.Allocated r → t.mem (slot dir r) = s.mem (slot dir r) := fun r hr =>
    h.ready.mem_of_far hm (hfar r hr)
  have hnew : ∀ r, s.Allocated r → frame (s.mem (slot dir r)) ≠ frame (kernDesc d.addr) :=
    fun r hr e => hunused r hr (by rw [h.frameOf_eq hr, e, frame_kernDesc])
  refine ⟨ht, ?_, ?_, ?_⟩
  · intro r hr
    rcases allocated_of_taken hF hr with hr | rfl
    · rw [hold r hr]
      exact h.present r hr
    · rw [hself]
      exact present_kernDesc d.addr
  · intro r u hr hu hne
    rcases allocated_of_taken hF hr with hr | rfl <;> rcases allocated_of_taken hF hu with hu | rfl
    · exact h.apart r u hr hu hne
    · exact hfar r hr
    · exact (hfar u hu).symm
    · exact absurd rfl hne
  · intro r u hr hu hne
    rcases allocated_of_taken hF hr with hr | rfl <;> rcases allocated_of_taken hF hu with hu | rfl
    · rw [hold r hr, hold u hu]
      exact h.frames r u hr hu hne
    · rw [hold r hr, hself]
      exact hnew r hr
    · rw [hold u hu, hself]
      exact (hnew u hu).symm
    · exact absurd rfl hne

/-- Unmapping an allocated page. -/
theorem Mapping.unmapped (h : s.Mapping dir) (ht : t.Ready dir) (hq : s.Allocated q) {x : UInt32}
    (hF : t.freePages = insert q s.freePages)
    (hm : t.mem = Function.update s.mem (slot dir q) x) : t.Mapping dir := by
  have hold : ∀ r, t.Allocated r → s.Allocated r ∧ t.mem (slot dir r) = s.mem (slot dir r) := by
      intro r hr
      obtain ⟨hrs, hne⟩ := allocated_of_released hF hr
      exact ⟨hrs, h.ready.mem_of_far hm (h.apart r q hrs hq hne)⟩
  refine ⟨ht, ?_, ?_, ?_⟩
  · intro r hr
    rw [(hold r hr).2]
    exact h.present r (hold r hr).1
  · intro r u hr hu hne
    exact h.apart r u (hold r hr).1 (hold u hu).1 hne
  · intro r u hr hu hne
    rw [(hold r hr).2, (hold u hu).2]
    exact h.frames r u (hold r hr).1 (hold u hu).1 hne

/-! ### One call -/

/-- A call that maps only far from the allocated pages keeps the invariant and disturbs no other
page. -/
theorem Mapping.step_of_far (h : s.Mapping dir) (ha : Allowed op s) (hu : UnusedFrame alloc op s)
    (hfar : Far alloc op s) :
    ∃ t, step (answers alloc) op s = some t ∧ t.Mapping dir ∧
      ∀ r, s.Allocated r → op.page? ≠ some r → t.frameOf r = s.frameOf r := by
  obtain ⟨t, ht, hr, heff⟩ := h.ready.step_effect (answers alloc) ha
    fun _ _ => ⟨_, _, rfl⟩
  refine ⟨t, ht, ?_⟩
  cases heff with
  | idle => exact ⟨h, fun _ _ _ => rfl⟩
  | refused _ _ _ _ _ hF hm => exact ⟨h.same hr hF hm, fun r hr' _ => by
      rw [hr.frameOf_eq hr'.1, h.ready.frameOf_eq hr'.1, hm]⟩
  | mapped q d takes hd hst hF hm =>
      have hd' : alloc s.pmm = (d, t.pmm) := Option.some.inj hd
      have hst' : (alloc s.pmm).1.state ≠ 0 := by rwa [hd']
      have hfar' := hfar q takes hst'
      have hun := hu hst'
      rw [hd'] at hun
      exact ⟨h.mapped hr hF hm hfar' hun, fun r hr' _ =>
        h.ready.frameOf_of_far hr hm (hfar' r hr') hr'.1⟩
  | unmapped target q hop hp hF hm _ =>
      subst hop
      obtain ⟨q', hp', hq⟩ := ha
      obtain rfl := Option.some.inj (hp.symm.trans hp')
      refine ⟨h.unmapped hr hq hF hm, ?_⟩
      intro r hr' hne
      have hrq : r ≠ q := by
        rintro rfl
        exact hne hp
      exact h.ready.frameOf_of_far hr hm (h.apart r q hr' hq hrq) hr'.1

/-- A call that maps a page while an allocated page lies a multiple of 64 MiB away puts both on
one frame. -/
theorem Mapping.far_of_isolated (h : s.Mapping dir) (ha : Allowed op s)
    (hk : KeepsIsolation alloc op s) : Far alloc op s := by
  intro q hq hst r hr halias
  obtain ⟨t, ht, hready, heff⟩ := h.ready.step_effect (answers alloc) ha
    fun _ _ => ⟨_, _, rfl⟩
  cases heff with
  | idle _ hno => exact hno q hq
  | refused _ d _ hd hst' =>
      have hd' : alloc s.pmm = (d, t.pmm) := Option.some.inj hd
      rw [hd'] at hst
      exact hst hst'
  | unmapped target _ hop =>
      subst hop
      exact hq
  | mapped q' d takes hd _ hF hm =>
      obtain rfl := takes.unique hq
      have hrq : r ≠ q' := by
        rintro rfl
        exact hr.2 takes.free
      have hr' : t.Allocated r := ⟨hr.1, fun hmem => by
        rw [hF] at hmem
        exact hr.2 hmem.1⟩
      have hq' : t.Allocated q' := ⟨h.ready.window q' takes.free, fun hmem => by
        rw [hF] at hmem
        exact hmem.2 rfl⟩
      obtain ⟨f, g, hf, hg, hne⟩ := hk.1 t ht r q' hr' hq' hrq
      have hslot : slot dir r = slot dir q' := h.ready.tables.slot_eq_iff.mpr halias
      rw [hready.frameOf_eq hr'.1, hslot, ← hready.frameOf_eq hq'.1, hg] at hf
      exact hne (Option.some.inj hf).symm

/-! ### The kernel after boot -/

/-- The state before `vmm_kern_init`: the page tables of `set_page`, everything else arbitrary. -/
def booted (dir : UInt32) (m : PhysMem) (pool : Bitmap) (poolMem : ByteMem) (p : π) : Vmm π :=
  ⟨setPage dir m, dir, pool, poolMem, p⟩

theorem mapping_of_boot {kernEnd kb : UInt32} (m : PhysMem) (pool : Bitmap) {poolMem : ByteMem}
    (p : π) (hal : dir.toNat % 4096 = 0) (hroom : dir.toNat + 4096 * 257 ≤ 2 ^ 32)
    (hused : (getKernUsedPageCount kernEnd).toNat ≤ 1024) (hs : (kernPool kb).Stored poolMem) :
    ∃ s, vmmKernInit kernEnd kb (booted dir m pool poolMem p) = some s ∧ s.Mapping dir ∧
      s.pmm = p ∧
      s.freePages = {q | (getKernUsedPageCount kernEnd).toNat ≤ q ∧ q < windowPage} ∧
      ∀ q < 1024, s.frameOf q = some (UInt32.ofNat (4096 * q)) := by
  obtain ⟨m', hm, hs', hF⟩ := vmmKernInit_eq kernEnd kb (booted dir m pool poolMem p) hs hused
  obtain ⟨htab, hpte⟩ := setPage_tables dir m hal hroom
  have hslot : ∀ q < 1024, (setPage dir m (slot dir q)).toNat = 4096 * q + 3 := by
    intro q hq
    have e : q % aliasPages = q := Nat.mod_eq_of_lt (lt_trans hq (by decide))
    rw [slot, e]
    exact hpte q hq
  have hready : Ready ⟨setPage dir m, dir, kernPool kb, m', p⟩ dir :=
    ⟨rfl, htab, ⟨kb, rfl⟩, hs', fun q hq => by
      rw [freePages, hF] at hq
      exact hq.2⟩
  have hlow : ∀ q, Allocated (⟨setPage dir m, dir, kernPool kb, m', p⟩ : Vmm π) q → q < 1024 :=
    fun q hq => lt_of_lt_of_le (hq.lt hF) hused
  have hpres : ∀ q < 1024, Present (setPage dir m (slot dir q)) := by
    intro q hq
    rw [present_iff, hslot q hq]
    omega
  refine ⟨⟨setPage dir m, dir, kernPool kb, m', p⟩, hm, ⟨hready, fun q hq => hpres q (hlow q hq), ?_,
    ?_⟩, rfl, hF, ?_⟩
  · intro q r hq hr hne
    have h₁ := hlow q hq
    have h₂ := hlow r hr
    simp only [aliasPages]
    omega
  · intro q r hq hr hne e
    have h₁ := hslot q (hlow q hq)
    have h₂ := hslot r (hlow r hr)
    have e' := congrArg UInt32.toNat e
    simp only [frame_toNat, h₁, h₂] at e'
    omega
  · intro q hq
    rw [hready.frameOf_eq (lt_trans hq (by decide)), if_pos (hpres q hq), Option.some.injEq,
      ← UInt32.toNat_inj, frame_toNat, UInt32.toNat_ofNat']
    simp only [hslot q hq]
    omega

/-- **Kernel pages stay isolated** exactly in the runs that never map a page while an allocated
page lies a multiple of 64 MiB away.  From the page tables of `set_page` and the pool of
`vmm_kern_init`, with a page manager that returns unused frames, every call is defined. -/
theorem isolated_iff_far (alloc : π → PmAlloc × π) (dir kernEnd kb : UInt32) (m : PhysMem)
    (pool : Bitmap) (poolMem : ByteMem) (p : π) (hal : dir.toNat % 4096 = 0)
    (hroom : dir.toNat + 4096 * 257 ≤ 2 ^ 32)
    (hused : (getKernUsedPageCount kernEnd).toNat ≤ 1024) (hs : (kernPool kb).Stored poolMem) :
    ∃ s, vmmKernInit kernEnd kb (booted dir m pool poolMem p) = some s ∧ s.Isolated ∧
      ∀ ops, Along (step (answers alloc)) Allowed ops s →
        Along (step (answers alloc)) (UnusedFrame alloc) ops s →
        (Along (step (answers alloc)) (KeepsIsolation alloc) ops s ↔
          Along (step (answers alloc)) (Far alloc) ops s) ∧
        (Along (step (answers alloc)) (Far alloc) ops s →
          ∃ t, run (step (answers alloc)) ops s = some t ∧ t.Isolated) := by
  obtain ⟨s, h₀, hmap, -⟩ := mapping_of_boot m pool p hal hroom hused hs
  refine ⟨s, h₀, hmap.isolated, ?_⟩
  intro ops ha hu
  have hQ := ha.and hu
  have hI : ∀ op s t, s.Mapping dir → (Allowed op s ∧ UnusedFrame alloc op s) → Far alloc op s →
      step (answers alloc) op s = some t → t.Mapping dir := by
    intro op s t hs hq hf ht
    obtain ⟨t', ht', hm, -⟩ := hs.step_of_far hq.1 hq.2 hf
    exact Option.some.inj (ht.symm.trans ht') ▸ hm
  refine ⟨along_iff hI (fun op s hs hq => ⟨hs.far_of_isolated hq.1, ?_⟩) hmap hQ, ?_⟩
  · intro hf
    obtain ⟨t, ht, hm, hsame⟩ := hs.step_of_far hq.1 hq.2 hf
    refine ⟨?_, ?_⟩
    · intro t' ht'
      exact Option.some.inj (ht.symm.trans ht') ▸ hm.isolated
    · intro t' ht'
      exact Option.some.inj (ht.symm.trans ht') ▸ hsame
  · intro hf
    have hI' : ∀ op s t, s.Mapping dir →
        ((Allowed op s ∧ UnusedFrame alloc op s) ∧ Far alloc op s) →
        step (answers alloc) op s = some t → t.Mapping dir :=
      fun op s t hs hq ht => hI op s t hs hq.1 hq.2 ht
    obtain ⟨t, ht⟩ := run_isSome hI' (fun op s hs hq => by
      obtain ⟨t, ht, -⟩ := hs.step_of_far hq.1.1 hq.1.2 hq.2
      exact ⟨t, ht⟩) hmap (hQ.and hf)
    exact ⟨t, ht, (invariant hI' hmap (hQ.and hf) ht).isolated⟩

/-- A page manager that hands out one frame after the other. -/
def nextFrame (p : UInt32) : PmAlloc × UInt32 := (⟨p, 0, 1⟩, p + 4096)

/-- The machine after boot with a kernel image of 768 pages and unused frames from 4 MiB on. -/
def sampleBoot : Vmm UInt32 :=
  booted 0x101000 (fun _ => 0) ⟨0, 0, 0⟩ (kernPool 0xC0250000).blankMem 0x400000

theorem sampleBoot_eq : ∃ s, vmmKernInit 0x300000 0xC0250000 sampleBoot = some s ∧
    s.Mapping 0x101000 ∧ s.freePages = {q | 768 ≤ q ∧ q < windowPage} ∧
    UnusedFrame nextFrame .alloc s := by
  have hused : (getKernUsedPageCount 0x300000).toNat = 768 := by decide
  obtain ⟨s, hs, hmap, hp, hF, hfr⟩ := mapping_of_boot (fun _ => 0) ⟨0, 0, 0⟩
    (0x400000 : UInt32) (by decide : (0x101000 : UInt32).toNat % 4096 = 0) (by decide)
    (by rw [hused]; decide) (kernPool 0xC0250000).stored_blankMem
  rw [hused] at hF
  refine ⟨s, hs, hmap, hF, ?_⟩
  intro _ r hr e
  have hr768 := hr.lt hF
  rw [hfr r (by omega), hp, Option.some.injEq, ← UInt32.toNat_inj, UInt32.toNat_ofNat',
    frame_toNat] at e
  have h4 : (nextFrame 0x400000).1.addr.toNat = 0x400000 := rfl
  rw [h4] at e
  omega

theorem isolated_iff_far_sample : ∃ s t, vmmKernInit 0x300000 0xC0250000 sampleBoot = some s ∧
    run (step (answers nextFrame)) [.alloc] s = some t ∧ t.Isolated := by
  obtain ⟨s, hs, -, hiff⟩ := isolated_iff_far nextFrame 0x101000 0x300000 0xC0250000 (fun _ => 0)
    ⟨0, 0, 0⟩ (kernPool 0xC0250000).blankMem 0x400000 (by decide) (by decide) (by decide)
    (kernPool 0xC0250000).stored_blankMem
  obtain ⟨s', hs', hmap, hF, hu⟩ := sampleBoot_eq
  obtain rfl := Option.some.inj (hs.symm.trans hs')
  have hfar : Far nextFrame .alloc s := by
    intro q hq _ r hr
    have h768 : 768 ∈ s.freePages := by
      rw [hF]
      exact ⟨le_rfl, by decide⟩
    have hq768 : q = 768 := by
      have h₁ := hq.2 768 h768
      have h₂ := hq.1
      rw [hF] at h₂
      exact le_antisymm h₁ h₂.1
    have hr768 := hr.lt hF
    simp only [aliasPages]
    omega
  obtain ⟨-, hrun⟩ := hiff [.alloc] ⟨trivial, fun _ _ => trivial⟩ ⟨hu, fun _ _ => trivial⟩
  obtain ⟨t, ht, hiso⟩ := hrun ⟨hfar, fun _ _ => trivial⟩
  exact ⟨s, t, hs, ht, hiso⟩

/-- Allocating the page at `0xC4000000` remaps the first page of the kernel image. -/
theorem not_keepsIsolation_sample :
    ∃ s, vmmKernInit 0x300000 0xC0250000 sampleBoot = some s ∧
      Allowed (.allocOnePage 0xC4000000) s ∧
      UnusedFrame nextFrame (.allocOnePage 0xC4000000) s ∧
      ¬ KeepsIsolation nextFrame (.allocOnePage 0xC4000000) s := by
  obtain ⟨s, hs, hmap, hF, hu⟩ := sampleBoot_eq
  refine ⟨s, hs, trivial, hu, ?_⟩
  intro hk
  have hpage : kernPage? 0xC4000000 = some aliasPages :=
    kernPage_eq_some.mpr ⟨by decide, by decide⟩
  have htakes : Takes (.allocOnePage 0xC4000000) s aliasPages := by
    refine ⟨hpage, ?_⟩
    rw [hF]
    exact ⟨by decide, by decide⟩
  have hzero : s.Allocated 0 := by
    refine ⟨by decide, fun h => ?_⟩
    rw [hF] at h
    exact absurd h.1 (by decide)
  have ha : Allowed (.allocOnePage 0xC4000000) s := trivial
  have hfar := hmap.far_of_isolated ha hk
  exact hfar aliasPages htakes (by simp [nextFrame]) 0 hzero (by decide)

end Vmm
end BHOS
