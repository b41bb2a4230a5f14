import BHOS.KernelMapping
import BHOS.UserAlloc
import BHOS.UserPdt

/-! # The kernel half of the user directories

The kernel half of a user directory is copied once, by `create_user_task_pdt`, and never again.
`Uniform` says that all directories agree on it and that no word of it can be reached by the
writes of later calls: these go into the kernel's page tables, into frames that were not in use,
into the user half of a directory, or into user page tables.

The exception is a call of `vmm_user_alloc_one_page` for an address of the last 4 MiB.  It fails
and makes the page free in the kernel's pool, where the pages of the window of the page tables must
never be free: mapping one of them replaces an entry of the loaded directory.

The storage of the pool is part of the kernel image.  The runs also have to leave the pages of the
image on their frames (`Careful`): with another frame under the pool any page may seem free. -/

namespace BHOS

open Transition

/-- The machine, and the directories built so far with the pages they were built in. -/
structure UserSpaces (π : Type) where
  user : UserVmm π
  created : List (UInt32 × UInt32)

/-- The calls of kernel threads and user tasks; `load` is what `active_task` does to `cr3`. -/
inductive SpaceOp
  | kern (op : Vmm.KernOp)
  | createPdt
  | load (dir : UInt32)
  | userAlloc (tcb : Tcb) (vaddr : UInt32)

variable {π : Type} {alloc : π → Option (PmAlloc × π)} {m m' : PhysMem} {dir F a x v w : UInt32}
  {created : List (UInt32 × UInt32)} {k l : Vmm π} {used q : ℕ}

/-- The frames that hold directories and the kernel's page tables. -/
def Reserved (dir : UInt32) (created : List (UInt32 × UInt32)) (F : UInt32) : Prop :=
  KernFrame dir F ∨ ∃ v, (v, F) ∈ created

/-- The frames in use by directories and page tables. -/
def InUse (dir : UInt32) (created : List (UInt32 × UInt32)) (m : PhysMem) (F : UInt32) : Prop :=
  Reserved dir created F ∨ ∃ v d u, (v, d) ∈ created ∧ u < 0xC0000000 ∧
    Present (m (dirEntry d u)) ∧ frame (m (dirEntry d u)) = F

namespace UserSpaces

/-- One call. -/
def step (alloc : π → Option (PmAlloc × π)) : SpaceOp → UserSpaces π → Option (UserSpaces π)
  | .kern op, g =>
      (Vmm.step alloc op g.user.kern).map fun k => { g with user := { g.user with kern := k } }
  | .createPdt, g => do
      let (pdtVaddr, k) ← g.user.kern.createUserTaskPdt alloc
      let g := { g with user := { g.user with kern := k } }
      if pdtVaddr = userTaskInitErro then some g
      else do
        let pdtPaddr ← vmmV2p k.mem k.cr3 pdtVaddr
        some { g with created := (pdtVaddr, pdtPaddr) :: g.created }
  | .load d, g => some { g with user := { g.user with kern := { g.user.kern with cr3 := d } } }
  | .userAlloc tcb vaddr, g =>
      (g.user.vmmUserAllocOnePage alloc tcb vaddr).map fun r => { g with user := r.2 }

/-- Only allocated kernel pages are released, only the kernel's directory and those that were
built are loaded, and user pages are allocated by a user task whose directory is loaded. -/
def Allowed (dir : UInt32) : SpaceOp → UserSpaces π → Prop
  | .kern op, g => Vmm.Allowed op g.user.kern
  | .createPdt, _ => True
  | .load d, g => d = dir ∨ ∃ v, (v, d) ∈ g.created
  | .userAlloc tcb _, g => tcb.isKernThread = false ∧ (tcb.pdtVaddr, g.user.kern.cr3) ∈ g.created ∧
      ∃ head, tcb.userVmmPool = ⟨head, 0x18000, 0⟩

/-- The frame that the page manager would return next is not in use. -/
def Unused (alloc : π → Option (PmAlloc × π)) (dir : UInt32) (_ : SpaceOp) (g : UserSpaces π) :
    Prop :=
  ∀ d p, alloc g.user.kern.pmm = some (d, p) → d.state ≠ 0 →
    ¬ InUse dir g.created g.user.kern.mem (frame d.addr)

/-- No user page is asked for in the last 4 MiB, and no page that lies a multiple of 64 MiB from a
page of the kernel image is mapped or released. -/
def Careful (alloc : π → Option (PmAlloc × π)) (used : ℕ) : SpaceOp → UserSpaces π → Prop
  | .kern op, g => Vmm.SparesImage alloc used op g.user.kern ∧ ∀ target q,
      op = .releaseOnePage target → Vmm.kernPage? target = some q → used ≤ q % aliasPages
  | .createPdt, g => Vmm.SparesImage alloc used .alloc g.user.kern
  | .load _, _ => True
  | .userAlloc _ vaddr, g => vaddr < 0xFFC00000 ∧ Vmm.SparesImage alloc used .alloc g.user.kern

/-- Every user directory maps itself and translates the kernel half as the kernel's directory. -/
def Agree (dir : UInt32) (g : UserSpaces π) : Prop :=
  ∀ v d, (v, d) ∈ g.created → SelfMapped g.user.kern.mem d ∧
    ∀ a, 0xC0000000 ≤ a → a < 0xFFC00000 →
      translate g.user.kern.mem d a = translate g.user.kern.mem dir a

end UserSpaces

/-! ### Writes -/

/-- The directories agree on the kernel half, and the user page tables lie apart from them. -/
structure Halves (dir : UInt32) (created : List (UInt32 × UInt32)) (m : PhysMem) : Prop where
  tables : KernTables m dir
  shares : ∀ v d, (v, d) ∈ created → SharesKernel m dir d
  pages : ∀ v d, (v, d) ∈ created → v.toNat % 4096 = 0
  aligned : ∀ v d, (v, d) ∈ created → d.toNat % 4096 = 0
  apart : ∀ v d, (v, d) ∈ created → ¬ KernFrame dir d
  userTables : ∀ v d u, (v, d) ∈ created → u < 0xC0000000 → Present (m (dirEntry d u)) →
    ¬ Reserved dir created (frame (m (dirEntry d u)))

/-- A change that leaves the kernel halves alone and puts no reserved frame into a user half. -/
theorem Halves.congr (h : Halves dir created m)
    (hkern : ∀ v, 768 ≤ v.toNat / 2 ^ 22 → m' (dirEntry dir v) = m (dirEntry dir v))
    (hshared : ∀ v d, (v, d) ∈ created → ∀ w, 768 ≤ w.toNat / 2 ^ 22 →
      m' (dirEntry d w) = m (dirEntry d w))
    (huser : ∀ v d u, (v, d) ∈ created → u < 0xC0000000 → m' (dirEntry d u) = m (dirEntry d u) ∨
      ¬ Reserved dir created (frame (m' (dirEntry d u)))) : Halves dir created m' := by
  refine ⟨h.tables.congr hkern, ?_, h.pages, h.aligned, h.apart, ?_⟩
  · intro v d hd
    obtain ⟨hself, hsame⟩ := h.shares v d hd
    have hlast := hshared v d hd 0xFFFFF000 (by decide)
    refine ⟨⟨?_, ?_⟩, ?_⟩
    · rw [hlast]
      exact hself.present
    · rw [hlast]
      exact hself.own
    · intro w hw
      rw [hshared v d hd w hw.1, hkern w hw.1]
      exact hsame w hw
  · intro v d u hd hu hp
    rcases huser v d u hd hu with e | hno
    · rw [e] at hp ⊢
      exact h.userTables v d u hd hu hp
    · exact hno

/-- A frame without directories. -/
theorem Halves.of_frame (h : Halves dir created m) (hdir : dir ≠ F)
    (hcreated : ∀ v d, (v, d) ∈ created → d ≠ F) (hm : ∀ a, frame a ≠ F → m' a = m a) :
    Halves dir created m' := by
  have hword : ∀ v d, (v, d) ∈ created → ∀ w, m' (dirEntry d w) = m (dirEntry d w) :=
    fun v d hd w => hm _ (by rw [frame_dirEntry (h.aligned v d hd)]; exact hcreated v d hd)
  refine h.congr (fun w _ => hm _ ?_) (fun v d hd w _ => hword v d hd w)
    fun v d u hd _ => Or.inl (hword v d hd u)
  rw [frame_dirEntry h.tables.aligned]
  exact hdir

theorem ne_of_not_reserved (h : KernTables m dir) (hF : ¬ Reserved dir created F) :
    dir ≠ F ∧ ∀ v d, (v, d) ∈ created → d ≠ F := by
  constructor
  · rintro rfl
    exact hF (Or.inl h.kernFrame_self)
  · rintro v d hd rfl
    exact hF (Or.inr ⟨v, hd⟩)

/-- A word of the kernel's page tables. -/
theorem Halves.update_slot (h : Halves dir created m) (q : ℕ) (x : UInt32) :
    Halves dir created (Function.update m (slot dir q) x) := by
  have hslot := h.tables.slot_toNat q
  have hal := h.tables.aligned
  refine h.of_frame (F := frame (slot dir q)) ?_ ?_ ?_
  · intro e
    have e := congrArg UInt32.toNat e
    rw [frame_toNat, hslot] at e
    omega
  · intro v d hd e
    apply h.apart v d hd
    rw [e]
    exact h.tables.frame_slot q
  · intro a ha
    refine Function.update_of_ne ?_ _ _
    rintro rfl
    exact ha rfl

/-- A word in the user half of a frame, when the new value leads to no reserved frame. -/
theorem Halves.update_user (h : Halves dir created m) (ha : a.toNat % 4096 < 0xC00)
    (hx : ¬ Reserved dir created (frame x)) : Halves dir created (Function.update m a x) := by
  have hne : ∀ d w : UInt32, d.toNat % 4096 = 0 → 768 ≤ w.toNat / 2 ^ 22 → dirEntry d w ≠ a := by
    rintro d w hd hw rfl
    have hlt := w.toNat_lt
    rw [dirEntry_toNat] at ha
    omega
  refine h.congr (fun w hw => Function.update_of_ne (hne dir w h.tables.aligned hw) _ _)
    (fun v d hd w hw => Function.update_of_ne (hne d w (h.aligned v d hd) hw) _ _) ?_
  intro v d u hd hu
  by_cases e : dirEntry d u = a
  · right
    rw [e, Function.update_self]
    exact hx
  · left
    exact Function.update_of_ne e _ _

/-- A new directory in a frame that was not in use. -/
theorem Halves.create (h : Halves dir created m) {c : UInt32} (hc : c.toNat % 4096 = 0)
    (hs : SharesKernel m dir c) (hv : v.toNat % 4096 = 0) (hF : F.toNat % 4096 = 0)
    (hfree : ¬ InUse dir created m F) : Halves dir ((v, F) :: created) (pdtMem F c m) := by
  have hres : ¬ Reserved dir created F := fun hr => hfree (Or.inl hr)
  obtain ⟨hdir, hcreated⟩ := ne_of_not_reserved h.tables hres
  have hold := h.of_frame hdir hcreated fun a ha => pdtMem_of_frame (c := c) hF ha
  refine ⟨hold.tables, ?_, ?_, ?_, ?_, ?_⟩
  · intro w d hd
    rcases List.mem_cons.mp hd with e | hd
    · obtain ⟨rfl, rfl⟩ := Prod.mk.inj e
      exact hs.pdtMem hc h.tables.aligned hF hdir
    · exact hold.shares w d hd
  · intro w d hd
    rcases List.mem_cons.mp hd with e | hd
    · obtain ⟨rfl, rfl⟩ := Prod.mk.inj e
      exact hv
    · exact h.pages w d hd
  · intro w d hd
    rcases List.mem_cons.mp hd with e | hd
    · obtain ⟨rfl, rfl⟩ := Prod.mk.inj e
      exact hF
    · exact h.aligned w d hd
  · intro w d hd
    rcases List.mem_cons.mp hd with e | hd
    · obtain ⟨rfl, rfl⟩ := Prod.mk.inj e
      exact fun hk => hres (Or.inl hk)
    · exact h.apart w d hd
  · intro w d u hd hu hp hr
    rcases List.mem_cons.mp hd with e | hd
    · -- the user half of the new directory is empty
      obtain ⟨rfl, rfl⟩ := Prod.mk.inj e
      have hlt : u.toNat / 2 ^ 22 < 768 := by
        have hu := UInt32.lt_iff_toNat_lt.mp hu
        simp only [UInt32.reduceToNat] at hu
        omega
      rw [dirEntry_eq_word hF, pdtMem_word hF (by omega), if_pos hlt] at hp
      exact absurd hp (by decide)
    · have e : pdtMem F c m (dirEntry d u) = m (dirEntry d u) := by
        apply pdtMem_of_frame hF
        rw [frame_dirEntry (h.aligned w d hd)]
        exact hcreated w d hd
      rw [e] at hp hr
      rcases hr with hk | ⟨y, hy⟩
      · exact h.userTables w d u hd hu hp (Or.inl hk)
      · rcases List.mem_cons.mp hy with e | hy
        · exact hfree (Or.inr ⟨w, d, u, hd, hu, hp, (Prod.mk.inj e).2⟩)
        · exact h.userTables w d u hd hu hp (Or.inr ⟨y, hy⟩)

/-! ### Calls -/

/-- The directories agree on the kernel half, one of them is loaded, and the pool has no free page
in the last 4 MiB. -/
structure Uniform (dir : UInt32) (created : List (UInt32 × UInt32)) (k : Vmm π) : Prop where
  pooled : k.Pooled
  window : ∀ q ∈ k.freePages, q < Vmm.windowPage
  halves : Halves dir created k.mem
  loaded : k.cr3 = dir ∨ ∃ v, (v, k.cr3) ∈ created

namespace Uniform

open Vmm

theorem aligned (h : Uniform dir created k) : k.cr3.toNat % 4096 = 0 := by
  rcases h.loaded with e | ⟨v, hv⟩
  · rw [e]
    exact h.halves.tables.aligned
  · exact h.halves.aligned v _ hv

theorem shares (h : Uniform dir created k) : SharesKernel k.mem dir k.cr3 := by
  rcases h.loaded with e | ⟨v, hv⟩
  · rw [e]
    exact SharesKernel.refl h.halves.tables.selfMapped
  · exact h.halves.shares v _ hv

theorem cr3_ne (h : Uniform dir created k) (hF : ¬ Reserved dir created F) : k.cr3 ≠ F := by
  obtain ⟨hdir, hcreated⟩ := ne_of_not_reserved h.halves.tables hF
  rcases h.loaded with e | ⟨v, hv⟩
  · rw [e]
    exact hdir
  · exact hcreated v _ hv

/-- The same loaded directory, with other memory and another pool. -/
theorem of_halves (h : Uniform dir created k) (hp : l.Pooled)
    (hw : ∀ q ∈ l.freePages, q < windowPage) (hm : Halves dir created l.mem) (hc : l.cr3 = k.cr3) :
    Uniform dir created l := ⟨hp, hw, hm, hc ▸ h.loaded⟩

/-- The entry of a kernel page is reached through every directory. -/
theorem translate_getPte (h : Uniform dir created k) (hv : kernPage? v = some q)
    (hq : q < windowPage) : translate k.mem k.cr3 (getPte v) = some (slot dir q) := by
  have hlt := v.toNat_lt
  obtain ⟨hlo, hqv⟩ := kernPage_eq_some.mp hv
  have hhalf : KernHalf v := by
    unfold KernHalf
    unfold windowPage at hq
    omega
  obtain ⟨hpres, hentry⟩ := h.halves.tables.tableEntry_eq hv hq
  rw [← h.shares.shared v hhalf] at hpres hentry
  rw [h.shares.selfMapped.translate_getPte, if_pos hpres, hentry]

/-- An allocation of a kernel page writes a word of the kernel's page tables. -/
theorem given (h : Uniform dir created k) {op : KernOp} (hg : Given alloc op k a l) :
    Uniform dir created l ∧ l.cr3 = k.cr3 ∧ (a = kernVmmAllocErro ∨
      ∃ q d, Takes op k q ∧ (op = .alloc → a = kernAddr q) ∧ alloc k.pmm = some (d, l.pmm) ∧
        d.state ≠ 0 ∧ l.mem = Function.update k.mem (slot dir q) (kernDesc d.addr)) := by
  cases hg with
  | none herr _ => exact ⟨h, rfl, Or.inl herr⟩
  | refused q d p m _ _ _ herr hs hF =>
      refine ⟨h.of_halves ⟨h.pooled.pool, hs⟩ ?_ h.halves rfl, rfl, Or.inl herr⟩
      intro r hr
      rw [freePages, hF] at hr
      exact h.window r hr
  | mapped q d p m htakes hd hst hpage haddr hs hF hw =>
      have hq := h.window q htakes.free
      rw [Vmm.write, h.translate_getPte hpage hq, Option.map_some, Option.some.injEq] at hw
      subst hw
      refine ⟨h.of_halves ⟨h.pooled.pool, hs⟩ ?_ (h.halves.update_slot q _) rfl, rfl,
        Or.inr ⟨q, d, htakes, haddr, hd, hst, rfl⟩⟩
      intro r hr
      rw [freePages, hF] at hr
      exact h.window r hr.1

/-- A call of the kernel's allocator. -/
theorem kern (h : Uniform dir created k) {op : KernOp} (ha : Vmm.Allowed op k)
    (hl : Vmm.step alloc op k = some l) : Uniform dir created l := by
  cases op with
  | alloc =>
      obtain ⟨⟨a, t⟩, hcall, rfl⟩ := Option.map_eq_some_iff.mp hl
      have hg : Gives alloc a t .alloc k := hcall
      exact (h.given (h.pooled.given hg)).1
  | allocOnePage target =>
      obtain ⟨⟨a, t⟩, hcall, rfl⟩ := Option.map_eq_some_iff.mp hl
      have hg : Gives alloc a t (.allocOnePage target) k := hcall
      exact (h.given (h.pooled.given hg)).1
  | releaseOnePage target =>
      obtain ⟨q, hpage, hq, -⟩ := ha
      unfold Vmm.step vmmKernReleaseOnePage at hl
      have hlo : ¬ target < 0xC0000000 := by
        rw [UInt32.not_lt, UInt32.le_iff_toNat_le]
        exact (kernPage_eq_some.mp hpage).1
      obtain ⟨m, hm, hs, hF⟩ := h.pooled.releaseOnePage_eq target
      simp only [if_neg hlo, hm, Option.bind_eq_bind, Option.bind_some, Vmm.read, Vmm.write,
        h.translate_getPte hpage hq, Option.map_some, Option.some.injEq] at hl
      subst hl
      refine h.of_halves ⟨h.pooled.pool, hs⟩ ?_ (h.halves.update_slot q _) rfl
      intro r hr
      rcases (hF r).mp hr with hr | hr
      · exact h.window r hr
      · obtain rfl := Option.some.inj (hpage.symm.trans hr)
        exact hq

/-- What is known after `vmm_kern_alloc` returned a page: it is mapped to a frame that was not in
use, and still is not. -/
theorem alloc_page (h : Uniform dir created k)
    (hu : ∀ d p, alloc k.pmm = some (d, p) → d.state ≠ 0 → ¬ InUse dir created k.mem (frame d.addr))
    (hr : vmmKernAlloc alloc k = some (a, l)) (ha : a ≠ kernVmmAllocErro) :
    ∃ q, q < windowPage ∧ a = kernAddr q ∧ Present (l.mem (slot dir q)) ∧
      ¬ InUse dir created l.mem (frame (l.mem (slot dir q))) := by
  have hg : Gives alloc a l .alloc k := hr
  obtain ⟨-, -, hout⟩ := h.given (h.pooled.given hg)
  obtain ⟨q, d, htakes, haddr, hd, hst, hm⟩ := hout.resolve_left ha
  have hq := h.window q htakes.free
  have hslot : l.mem (slot dir q) = kernDesc d.addr := by rw [hm, Function.update_self]
  refine ⟨q, hq, haddr rfl, ?_, ?_⟩
  · rw [hslot]
    exact present_kernDesc d.addr
  · rw [hslot, frame_kernDesc]
    rintro (hres | ⟨w, e, u, he, hlt, hp, hf⟩)
    · exact hu d _ hd hst (Or.inl hres)
    · have hne : dirEntry e u ≠ slot dir q := by
        intro hs
        apply h.halves.apart w e he
        rw [← frame_dirEntry (h.halves.aligned w e he) u, hs]
        exact h.halves.tables.frame_slot q
      rw [hm, Function.update_of_ne hne] at hp hf
      exact hu d _ hd hst (Or.inr ⟨w, e, u, he, hlt, hp, hf⟩)

/-- `create_user_task_pdt` builds a directory in a frame that was not in use, or fails. -/
theorem createUserTaskPdt (h : Uniform dir created k)
    (hu : ∀ d p, alloc k.pmm = some (d, p) → d.state ≠ 0 → ¬ InUse dir created k.mem (frame d.addr))
    (hr : Vmm.createUserTaskPdt alloc k = some (a, l)) :
    (a = userTaskInitErro ∧ Uniform dir created l) ∨
      ∃ F, a ≠ userTaskInitErro ∧ vmmV2p l.mem l.cr3 a = some F ∧ UserPdt l.mem dir a F ∧
        Uniform dir ((a, F) :: created) l := by
  obtain ⟨⟨b, t⟩, hb, -⟩ := Option.bind_eq_some_iff.mp hr
  have hg : Gives alloc b t .alloc k := hb
  obtain ⟨ht, -, -⟩ := h.given (h.pooled.given hg)
  by_cases herr : b = kernVmmAllocErro
  · simp only [Vmm.createUserTaskPdt, hb, Option.bind_eq_bind, Option.bind_some, if_pos herr,
      Option.some.injEq, Prod.mk.injEq] at hr
    exact Or.inl ⟨hr.1.symm, hr.2 ▸ ht⟩
  · obtain ⟨q, hq, rfl, hp, hfree⟩ := h.alloc_page hu hb herr
    have hres : ¬ Reserved dir created (frame (t.mem (slot dir q))) := fun hr => hfree (Or.inl hr)
    have hk : ¬ KernFrame dir (frame (t.mem (slot dir q))) := fun hk => hres (Or.inl hk)
    have hal := frame_aligned (t.mem (slot dir q))
    have he := createUserTaskPdt_of_alloc hb ht.halves.tables ht.shares ht.aligned hq hp rfl
      (ht.cr3_ne hres) hk
    obtain ⟨rfl, rfl⟩ := Prod.mk.inj (Option.some.inj (hr.symm.trans he))
    have hpdt := userPdt_of_create ht.halves.tables ht.shares ht.aligned hq rfl hk
    have hnew := ht.halves.create ht.aligned ht.shares hpdt.aligned hal hfree
    have hloaded : t.cr3 = dir ∨ ∃ v, (v, t.cr3) ∈ (kernAddr q, frame (t.mem (slot dir q))) :: created :=
      ht.loaded.imp_right fun ⟨v, hv⟩ => ⟨v, List.mem_cons_of_mem _ hv⟩
    obtain ⟨hdir, -⟩ := ne_of_not_reserved ht.halves.tables hres
    have hshares := ht.shares.of_frame ht.halves.tables.aligned ht.aligned hdir (ht.cr3_ne hres)
      fun a ha => pdtMem_of_frame (c := t.cr3) hal ha
    exact Or.inr ⟨frame (t.mem (slot dir q)), herr, hpdt.vmmV2p_eq hshares, hpdt,
      ⟨ht.pooled.pool, ht.pooled.stored⟩, ht.window, hnew, hloaded⟩

/-- `create_user_page_table` writes a word of a user half, that leads to a frame not in use. -/
theorem createUserPageTable (h : Uniform dir created k)
    (hu : ∀ d p, alloc k.pmm = some (d, p) → d.state ≠ 0 → ¬ InUse dir created k.mem (frame d.addr))
    (hv : v.toNat % 4096 < 0xC00) {b : Bool}
    (hr : Vmm.createUserPageTable alloc k v = some (b, l)) :
    Uniform dir created l ∧ l.cr3 = k.cr3 := by
  obtain ⟨⟨a, t⟩, ha, hrest⟩ := Option.bind_eq_some_iff.mp hr
  have hg : Gives alloc a t .alloc k := ha
  obtain ⟨ht, hcr3, -⟩ := h.given (h.pooled.given hg)
  by_cases herr : a = kernVmmAllocErro
  · simp only [if_pos herr, Option.some.injEq, Prod.mk.injEq] at hrest
    obtain ⟨-, rfl⟩ := hrest
    exact ⟨ht, hcr3⟩
  · obtain ⟨q, hq, rfl, hp, hfree⟩ := h.alloc_page hu ha herr
    have hres : ¬ Reserved dir created (frame (t.mem (slot dir q))) := fun hr => hfree (Or.inl hr)
    have hk : ¬ KernFrame dir (frame (t.mem (slot dir q))) := fun hk => hres (Or.inl hk)
    have hal := frame_aligned (t.mem (slot dir q))
    obtain ⟨hdir, hcreated⟩ := ne_of_not_reserved ht.halves.tables hres
    have hwin := ht.shares.window ht.halves.tables ht.aligned hq hp (ht.cr3_ne hres) hk
    have hm : ∀ a, frame a ≠ frame (t.mem (slot dir q)) →
        clearedMem (frame (t.mem (slot dir q))) t.mem a = t.mem a := fun a => clearedMem_of_frame hal
    have hpaddr : vmmV2p (clearedMem (frame (t.mem (slot dir q))) t.mem) t.cr3 (kernAddr q) =
        some (frame (t.mem (slot dir q))) := by
      rw [(ht.shares.of_frame ht.halves.tables.aligned ht.aligned hdir (ht.cr3_ne hres)
        hm).vmmV2p_kernAddr (ht.halves.tables.of_frame hdir hm) hq,
        hm _ fun e => hk (e ▸ ht.halves.tables.frame_slot q)]
    have hcleared : Uniform dir created
        { t with mem := clearedMem (frame (t.mem (slot dir q))) t.mem } :=
      ht.of_halves ⟨ht.pooled.pool, ht.pooled.stored⟩ ht.window
        (ht.halves.of_frame hdir hcreated hm) rfl
    rw [createUserPageTable_of_window ha (lt_trans hq (by decide)) hal hwin hpaddr] at hr
    obtain ⟨u, hw, hr⟩ := Option.map_eq_some_iff.mp hr
    obtain ⟨-, rfl⟩ := Prod.mk.inj hr
    obtain ⟨b, hb, rfl⟩ := Option.map_eq_some_iff.mp hw
    refine ⟨hcleared.of_halves ⟨ht.pooled.pool, ht.pooled.stored⟩ ht.window
      (hcleared.halves.update_user ?_ ?_) rfl, hcr3⟩
    · rw [translate_offset hb]
      exact hv
    · rw [frame_userDesc, frame_eq_self hal]
      exact hres

/-- Releasing a page below the last 4 MiB in the kernel's pool. -/
theorem release (h : Uniform dir created k) {m : ByteMem}
    (hm : k.kernVmmPool.releaseOnePage v k.poolMem = some m) (hv : v < 0xFFC00000) :
    Uniform dir created { k with poolMem := m } := by
  obtain ⟨m', hm', hs, hF⟩ := h.pooled.releaseOnePage_eq v
  obtain rfl := Option.some.inj (hm'.symm.trans hm)
  refine h.of_halves ⟨h.pooled.pool, hs⟩ ?_ h.halves rfl
  intro q hq
  rcases (hF q).mp hq with hq | hq
  · exact h.window q hq
  · obtain ⟨-, hqv⟩ := kernPage_eq_some.mp hq
    have hv := UInt32.lt_iff_toNat_lt.mp hv
    simp only [UInt32.reduceToNat] at hv
    unfold windowPage
    omega

/-- The entry of a user address lies in the user half of a directory. -/
theorem userPdeVaddr_lt {pdt : UInt32} (hpdt : pdt.toNat % 4096 = 0) (hv : v < 0xC0000000) :
    (userPdeVaddr pdt v).toNat % 4096 < 0xC00 := by
  have hlt := UInt32.lt_iff_toNat_lt.mp hv
  simp only [UInt32.reduceToNat] at hlt
  rw [userPdeVaddr_eq, word_toNat hpdt (by omega)]
  omega

/-- A user table entry is written through the directory of the task. -/
theorem writeUser (h : Uniform dir created k) (hc : ∃ w, (w, k.cr3) ∈ created)
    (hv : v < 0xC0000000) (hl : k.write (getPte v) x = some l) : Uniform dir created l := by
  obtain ⟨w, hw⟩ := hc
  obtain ⟨b, hb, rfl⟩ := Option.map_eq_some_iff.mp hl
  rw [h.shares.selfMapped.translate_getPte] at hb
  split_ifs at hb with hp
  obtain rfl := Option.some.inj hb
  have hframe : frame (tableEntry (k.mem (dirEntry k.cr3 v)) v) = frame (k.mem (dirEntry k.cr3 v)) := by
    rw [← UInt32.toNat_inj, frame_toNat, tableEntry_toNat, frame_toNat]
    omega
  obtain ⟨hdir, hcreated⟩ := ne_of_not_reserved h.halves.tables (h.halves.userTables w _ v hw hv hp)
  refine h.of_halves ⟨h.pooled.pool, h.pooled.stored⟩ h.window
    (h.halves.of_frame hdir hcreated fun a ha => Function.update_of_ne ?_ _ _) rfl
  rintro rfl
  exact ha hframe

end Uniform

/-- A call of `vmm_user_alloc_one_page` for an address below the last 4 MiB. -/
theorem Uniform.userAlloc {s t : UserVmm π} {tcb : Tcb} {r head : UInt32}
    (h : Uniform dir created s.kern)
    (hu : ∀ d p, alloc s.kern.pmm = some (d, p) → d.state ≠ 0 →
      ¬ InUse dir created s.kern.mem (frame d.addr))
    (hk : tcb.isKernThread = false) (hc : (tcb.pdtVaddr, s.kern.cr3) ∈ created)
    (hpool : tcb.userVmmPool = ⟨head, 0x18000, 0⟩) (hv : v < 0xFFC00000)
    (hr : s.vmmUserAllocOnePage alloc tcb v = some (r, t)) : Uniform dir created t.kern := by
  have hclean : ∀ {u : UserVmm π}, Uniform dir created u.kern →
      u.cleanBitmapAlloc v = some (r, t) → Uniform dir created t.kern := fun hu hr => by
    obtain ⟨m, hm, hr⟩ := Option.bind_eq_some_iff.mp hr
    obtain ⟨-, rfl⟩ := Prod.mk.inj (Option.some.inj hr)
    exact hu.release hm hv
  unfold UserVmm.vmmUserAllocOnePage at hr
  simp only [hk, Bool.false_eq_true, if_false] at hr
  obtain ⟨⟨b, m⟩, hb, hr⟩ := Option.bind_eq_some_iff.mp hr
  by_cases herr : b = bitmapReturnErro
  · simp only [if_pos herr] at hr
    exact hclean (u := { s with userMem := m }) h hr
  · simp only [if_neg herr] at hr
    -- a page that was taken lies in the lowest 3 GiB
    have hlow : v < 0xC0000000 := by
      by_contra hge
      have hok : tcb.userVmmPool.Ok := by
        rw [hpool]
        exact ⟨rfl, (by decide : 1 ≤ (0x18000 : UInt32).toNat), (by decide :
          (0 : UInt32).toNat + (0x18000 : UInt32).toNat * 8 * 4096 ≤ 2 ^ 32)⟩
      have hout : tcb.userVmmPool.pageIndex? v = none := by
        have hge := UInt32.le_iff_toNat_le.mp (UInt32.not_lt.mp hge)
        rw [hpool, Bitmap.pageIndex?, if_neg]
        simp only [UInt32.reduceToNat] at hge ⊢
        omega
      have he := hok.allocOnePage_out (m := s.userMem) hout
      exact herr (Prod.mk.inj (Option.some.inj (hb.symm.trans he))).1
    obtain ⟨⟨c, u⟩, hcall, hr⟩ := Option.bind_eq_some_iff.mp hr
    have hu' : Uniform dir created u.kern ∧ u.kern.cr3 = s.kern.cr3 := by
      unfold UserVmm.ensurePageTable at hcall
      obtain ⟨present, -, hcall⟩ := Option.bind_eq_some_iff.mp hcall
      cases present with
      | true =>
          obtain ⟨-, rfl⟩ := Prod.mk.inj (Option.some.inj hcall)
          exact ⟨h, rfl⟩
      | false =>
          obtain ⟨⟨made, k⟩, hmade, hcall⟩ := Option.bind_eq_some_iff.mp hcall
          obtain ⟨-, rfl⟩ := Prod.mk.inj (Option.some.inj hcall)
          have hpde := Uniform.userPdeVaddr_lt (h.halves.pages _ _ hc) hlow
          exact h.createUserPageTable hu hpde hmade
    cases c with
    | false => exact hclean hu'.1 hr
    | true =>
        simp only [if_true] at hr
        unfold UserVmm.mapUserPage at hr
        obtain ⟨⟨d, p⟩, -, hr⟩ := Option.bind_eq_some_iff.mp hr
        have hp : Uniform dir created { u.kern with pmm := p } :=
          ⟨⟨hu'.1.pooled.pool, hu'.1.pooled.stored⟩, hu'.1.window, hu'.1.halves, hu'.1.loaded⟩
        by_cases hst : d.state = 0
        · simp only [if_pos hst] at hr
          exact hclean (u := { u with kern := { u.kern with pmm := p } }) hp hr
        · simp only [if_neg hst] at hr
          obtain ⟨k, hw, hr⟩ := Option.bind_eq_some_iff.mp hr
          obtain ⟨-, rfl⟩ := Prod.mk.inj (Option.some.inj hr)
          exact hp.writeUser ⟨tcb.pdtVaddr, hu'.2 ▸ hc⟩ hlow hw

/-! ### Runs -/

namespace UserSpaces

/-- The directories of a reachable state agree on the kernel half. -/
abbrev Inv (dir : UInt32) (g : UserSpaces π) : Prop := Uniform dir g.created g.user.kern

theorem Inv.agree {g : UserSpaces π} (h : Inv dir g) : Agree dir g := by
  intro v d hd
  have hs := h.halves.shares v d hd
  refine ⟨hs.selfMapped, ?_⟩
  intro a hlo hhi
  have hlo := UInt32.le_iff_toNat_le.mp hlo
  have hhi := UInt32.lt_iff_toNat_lt.mp hhi
  simp only [UInt32.reduceToNat] at hlo hhi
  rw [translate, translate, hs.shared a ⟨by omega, by omega⟩]

theorem Inv.step {g g' : UserSpaces π} (h : Inv dir g) {op : SpaceOp} (ha : Allowed dir op g)
    (hu : Unused alloc dir op g) (hb : Careful alloc used op g) (hg : step alloc op g = some g') :
    Inv dir g' := by
  cases op with
  | kern op =>
      obtain ⟨k, hk, rfl⟩ := Option.map_eq_some_iff.mp hg
      exact Uniform.kern h ha hk
  | createPdt =>
      unfold UserSpaces.step at hg
      obtain ⟨⟨a, k⟩, hk, hg⟩ := Option.bind_eq_some_iff.mp hg
      rcases Uniform.createUserTaskPdt h hu hk with ⟨herr, hk'⟩ | ⟨F, herr, hF, -, hk'⟩
      · simp only [if_pos herr, Option.some.injEq] at hg
        subst hg
        exact hk'
      · simp only [if_neg herr, hF, Option.bind_eq_bind, Option.bind_some, Option.some.injEq] at hg
        subst hg
        exact hk'
  | load d =>
      obtain rfl := Option.some.inj hg
      exact ⟨⟨h.pooled.pool, h.pooled.stored⟩, h.window, h.halves, ha⟩
  | userAlloc tcb v =>
      obtain ⟨⟨r, t⟩, hr, rfl⟩ := Option.map_eq_some_iff.mp hg
      obtain ⟨hk, hc, head, hpool⟩ := ha
      exact Uniform.userAlloc h hu hk hc hpool hb.1 hr

/-- **All user directories keep the same kernel half** in every run in which no user page is asked
for in the last 4 MiB and the pages of the kernel image stay on their frames: they translate each
address below the window of the page tables as the kernel's directory does, and map themselves in
their last entry. -/
theorem agree_of_careful (alloc : π → Option (PmAlloc × π)) (dir kernEnd kb : UInt32) (m : PhysMem)
    (pool : Bitmap) (poolMem userMem : ByteMem) (eflags : UInt32) (p : π)
    (hal : dir.toNat % 4096 = 0) (hroom : dir.toNat + 4096 * 257 ≤ 2 ^ 32)
    (hused : (Vmm.getKernUsedPageCount kernEnd).toNat ≤ 1024)
    (hs : (Vmm.kernPool kb).Stored poolMem) :
    ∃ k, Vmm.vmmKernInit kernEnd kb (Vmm.booted dir m pool poolMem p) = some k ∧
      ∀ ops g, run (step alloc) ops ⟨⟨k, userMem, eflags⟩, []⟩ = some g →
        Along (step alloc) (Allowed dir) ops ⟨⟨k, userMem, eflags⟩, []⟩ →
        Along (step alloc) (Unused alloc dir) ops ⟨⟨k, userMem, eflags⟩, []⟩ →
        Along (step alloc) (Careful alloc (Vmm.getKernUsedPageCount kernEnd).toNat) ops
          ⟨⟨k, userMem, eflags⟩, []⟩ → Agree dir g := by
  obtain ⟨k, h₀, hmap, -⟩ := Vmm.mapping_of_boot m pool p hal hroom hused hs
  refine ⟨k, h₀, ?_⟩
  intro ops g hg ha hu hb
  have hinit : Inv dir (⟨⟨k, userMem, eflags⟩, []⟩ : UserSpaces π) :=
    ⟨hmap.ready.pooled, hmap.ready.window,
      ⟨hmap.ready.tables, nofun, nofun, nofun, nofun, nofun⟩, Or.inl hmap.ready.cr3⟩
  exact (invariant (I := Inv dir) (fun op g g' h hq hg => h.step hq.1.1 hq.1.2 hq.2 hg) hinit
    ((ha.and hu).and hb) hg).agree

/-- The pool of a user task without free pages. -/
def noPages : Bitmap := ⟨0xC0400000, 0x18000, 0⟩

/-- The states of the two samples: the kernel `k` with the user directories `created`. -/
def sampleSpaces (k : Vmm UInt32) (created : List (UInt32 × UInt32)) : UserSpaces UInt32 :=
  ⟨⟨k, noPages.blankMem, 0x202⟩, created⟩

/-- The first directory: its page and its frame. -/
def sampleDirs : List (UInt32 × UInt32) := [(0xC0300000, 0x400000)]

theorem mem_sampleDirs : (0xC0300000, 0x400000) ∈ sampleDirs := List.mem_singleton.mpr rfl

open Vmm in
/-- The first directory lies in the page behind the kernel image and in the first unused frame. -/
theorem createPdt_sample : ∃ k l, vmmKernInit 0x300000 0xC0250000 sampleBoot = some k ∧
    Takes .alloc k 768 ∧
    Unused (answers nextFrame) 0x101000 .createPdt (sampleSpaces k []) ∧
    step (answers nextFrame) .createPdt (sampleSpaces k []) =
      some (sampleSpaces l sampleDirs) ∧
    Uniform 0x101000 sampleDirs l ∧ l.pmm = 0x401000 ∧
    ∀ u < 0xC0000000, l.mem (dirEntry 0x400000 u) = 0 := by
  have hused : (getKernUsedPageCount 0x300000).toNat = 768 := by decide
  obtain ⟨k, hk, hmap, hp, hF, -⟩ := mapping_of_boot (fun _ => 0) ⟨0, 0, 0⟩
    (0x400000 : UInt32) (by decide : (0x101000 : UInt32).toNat % 4096 = 0) (by decide)
    (by rw [hused]; decide) (kernPool 0xC0250000).stored_blankMem
  rw [hused] at hF
  have hinit : Uniform 0x101000 [] k := ⟨hmap.ready.pooled, hmap.ready.window,
    ⟨hmap.ready.tables, nofun, nofun, nofun, nofun, nofun⟩, Or.inl hmap.ready.cr3⟩
  have hunused : Unused (answers nextFrame) 0x101000 .createPdt (sampleSpaces k []) := by
    rintro d p hd - ((⟨-, hhi⟩ | ⟨v, hv⟩) | ⟨v, e, u, hv, -⟩)
    · rw [show (sampleSpaces k []).user.kern.pmm = 0x400000 from hp] at hd
      obtain ⟨rfl, -⟩ := Prod.mk.inj (Option.some.inj hd)
      revert hhi
      decide
    · exact absurd hv List.not_mem_nil
    · exact absurd hv List.not_mem_nil
  have htakes : Takes .alloc k 768 := by
    refine ⟨?_, ?_⟩
    · rw [hF]
      exact ⟨le_rfl, by decide⟩
    · intro r hr
      rw [hF] at hr
      exact hr.1
  have hallowed : Vmm.Allowed .alloc k := trivial
  obtain ⟨t, ht, -⟩ := hmap.ready.step_effect (answers nextFrame) hallowed fun q _ => ⟨_, _, rfl⟩
  obtain ⟨⟨a, t'⟩, hcall, rfl⟩ := Option.map_eq_some_iff.mp ht
  have hg : Gives (answers nextFrame) a t' .alloc k := hcall
  obtain ⟨huni, hcr3, hout⟩ := hinit.given (hinit.pooled.given hg)
  have herr : a ≠ kernVmmAllocErro :=
    (hinit.pooled.vmmKernAlloc_cases hcall).2.1.mpr ⟨⟨768, htakes.free⟩, _, _, rfl, by simp⟩
  obtain ⟨q, d, hq, haddr, hd, -, hm⟩ := hout.resolve_left herr
  obtain rfl := hq.unique htakes
  rw [hp, show answers nextFrame 0x400000 = some (⟨0x400000, 0, 1⟩, 0x401000) by decide] at hd
  obtain ⟨rfl, hpmm⟩ := Prod.mk.inj (Option.some.inj hd)
  have hslot : frame (t'.mem (slot 0x101000 768)) = 0x400000 := by
    rw [hm, Function.update_self]
    decide
  have hpres : Present (t'.mem (slot 0x101000 768)) := by
    rw [hm, Function.update_self]
    decide
  have hpage : kernAddr 768 = 0xC0300000 := by decide
  have he := createUserTaskPdt_of_alloc (haddr rfl ▸ hcall) huni.halves.tables huni.shares
    huni.aligned (by decide) hpres hslot (by rw [hcr3, hmap.ready.cr3]; decide)
    (by decide : ¬ (_ ∧ _))
  rcases hinit.createUserTaskPdt hunused he with ⟨herr', -⟩ | ⟨F, -, hF', hpdt, hl⟩
  · exact absurd herr' (by decide)
  have hnew := userPdt_of_create huni.halves.tables huni.shares huni.aligned (by decide) hslot
    (by decide : ¬ (_ ∧ _))
  obtain rfl := hnew.paddr.symm.trans hpdt.paddr
  rw [hpage] at he hl hF'
  refine ⟨k, _, hk, htakes, hunused, ?_, hl, hpmm.symm, ?_⟩
  · have hcall : createUserTaskPdt (answers nextFrame) (sampleSpaces k []).user.kern = _ := he
    simp only [UserSpaces.step, hcall, Option.bind_eq_bind, Option.bind_some, hF']
    rfl
  · intro u hu
    have hlt := UInt32.lt_iff_toNat_lt.mp hu
    simp only [UInt32.reduceToNat] at hlt
    have hi : u.toNat / 2 ^ 22 < 768 := by omega
    have hal : (0x400000 : UInt32).toNat % 4096 = 0 := by decide
    have h0 : pdtMem 0x400000 t'.cr3 t'.mem (word 0x400000 (u.toNat / 2 ^ 22)) = 0 := by
      rw [pdtMem_word hal (by omega), if_pos hi]
    rw [dirEntry_eq_word hal]
    exact h0

/-- The first directory uses no frame but its own. -/
theorem unused_sample {l : Vmm UInt32} (hp : l.pmm = 0x401000)
    (hempty : ∀ u < 0xC0000000, l.mem (dirEntry 0x400000 u) = 0) (op : SpaceOp) :
    Unused (Vmm.answers Vmm.nextFrame) 0x101000 op (sampleSpaces l sampleDirs) := by
  intro d p hd hst hin
  rw [show (sampleSpaces l sampleDirs).user.kern.pmm = 0x401000 from hp] at hd
  obtain ⟨rfl, -⟩ := Prod.mk.inj (Option.some.inj hd)
  rcases hin with (⟨-, hhi⟩ | ⟨v, hv⟩) | ⟨v, e, u, hv, hu, hpres, -⟩
  · exact absurd hhi (by decide)
  · have e := (Prod.mk.inj (List.mem_singleton.mp hv)).2
    exact absurd e (by decide)
  · obtain rfl := (Prod.mk.inj (List.mem_singleton.mp hv)).2
    have h0 : Present (l.mem (dirEntry 0x400000 u)) := hpres
    rw [hempty u hu] at h0
    exact absurd h0 (by decide)

/-- A user task whose directory is the first one built. -/
def sampleTask : Tcb := { Threads.zero.tcb 0 with userVmmPool := noPages, pdtVaddr := 0xC0300000 }

theorem agree_of_careful_sample : ∃ k g,
    Vmm.vmmKernInit 0x300000 0xC0250000 Vmm.sampleBoot = some k ∧
      run (step (Vmm.answers Vmm.nextFrame)) [.createPdt, .load 0x400000] (sampleSpaces k []) =
        some g ∧ (0xC0300000, 0x400000) ∈ g.created ∧ Agree 0x101000 g := by
  obtain ⟨k, l, hk, htakes, hunused, hcreate, -, hpmm, hempty⟩ := createPdt_sample
  obtain ⟨k', hk', hrun⟩ := agree_of_careful (Vmm.answers Vmm.nextFrame) 0x101000 0x300000 0xC0250000
    (fun _ => 0) ⟨0, 0, 0⟩ (Vmm.kernPool 0xC0250000).blankMem noPages.blankMem 0x202 0x400000
    (by decide) (by decide) (by decide) (Vmm.kernPool 0xC0250000).stored_blankMem
  obtain rfl := Option.some.inj (hk.symm.trans hk')
  have hload : run (step (Vmm.answers Vmm.nextFrame)) [.createPdt, .load 0x400000]
      (sampleSpaces k []) = some (sampleSpaces { l with cr3 := 0x400000 } sampleDirs) := by
    rw [run_cons_of_step hcreate]
    rfl
  refine ⟨k, _, hk, hload, mem_sampleDirs, hrun _ _ hload ?_ ?_ ?_⟩
  · exact (along_cons_of_step hcreate).mpr
      ⟨trivial, Or.inr ⟨0xC0300000, mem_sampleDirs⟩, fun _ _ => trivial⟩
  · exact (along_cons_of_step hcreate).mpr
      ⟨hunused, unused_sample hpmm hempty _, fun _ _ => trivial⟩
  · refine (along_cons_of_step hcreate).mpr ⟨?_, trivial, fun _ _ => trivial⟩
    intro q _ _ hq _ _
    obtain rfl := hq.unique htakes
    decide

/-- A kernel allocation that got the last page replaces the last entry of the loaded directory. -/
theorem mapPage_lastPage {k : Vmm π} (h : SelfMapped k.mem k.cr3) {d : PmAlloc} {p : π}
    (hd : alloc k.pmm = some (d, p)) (hst : d.state ≠ 0) :
    Vmm.mapPage alloc k 0xFFFFF000 = some (0xFFFFF000, { k with
      pmm := p, mem := Function.update k.mem (dirEntry k.cr3 0xFFFFF000) (kernDesc d.addr) }) := by
  have htest : (1 ||| 0x00000001 : UInt32) ≠ 0 := by decide
  have hread : k.read (getPde 0xFFFFF000) = some (k.mem (dirEntry k.cr3 0xFFFFF000)) := by
    rw [Vmm.read, h.translate_getPde, Option.map_some]
  have hentry : tableEntry (k.mem (dirEntry k.cr3 0xFFFFF000)) 0xFFFFF000 =
      dirEntry k.cr3 0xFFFFF000 := h.tableEntry_eq (by decide)
  have hwrite : ∀ x, ({ k with pmm := p } : Vmm π).write (getPte 0xFFFFF000) x =
      some { k with pmm := p, mem := Function.update k.mem (dirEntry k.cr3 0xFFFFF000) x } :=
    fun x => by rw [Vmm.write, h.translate_getPte, if_pos h.present, hentry, Option.map_some]
  simp only [Vmm.mapPage, hread, Option.bind_eq_bind, Option.bind_some, if_true, if_pos htest, hd,
    if_neg hst, hwrite]
  rfl

/-- A task asks for the last page and is refused; the page is free for the kernel then, and its
allocation destroys the last entry of the directory of the task. -/
def windowRun : List SpaceOp :=
  [.createPdt, .load 0x400000, .userAlloc sampleTask 0xFFFFF000, .kern (.allocOnePage 0xFFFFF000)]

theorem not_agree_sample : ∃ k g,
    Vmm.vmmKernInit 0x300000 0xC0250000 Vmm.sampleBoot = some k ∧
      run (step (Vmm.answers Vmm.nextFrame)) windowRun (sampleSpaces k []) = some g ∧
      Along (step (Vmm.answers Vmm.nextFrame)) (Allowed 0x101000) windowRun (sampleSpaces k []) ∧
      Along (step (Vmm.answers Vmm.nextFrame)) (Unused (Vmm.answers Vmm.nextFrame) 0x101000)
        windowRun (sampleSpaces k []) ∧ ¬ Agree 0x101000 g := by
  obtain ⟨k, l, hk, -, hunused, hcreate, hl, hpmm, hempty⟩ := createPdt_sample
  have hself : SelfMapped l.mem 0x400000 := (hl.halves.shares _ _ mem_sampleDirs).selfMapped
  obtain ⟨m, hm, hs, hF⟩ := hl.pooled.releaseOnePage_eq 0xFFFFF000
  have hpool : ({ l with cr3 := 0x400000, poolMem := m } : Vmm UInt32).Pooled :=
    ⟨hl.pooled.pool, hs⟩
  have hpage : Vmm.kernPage? 0xFFFFF000 = some 0x3FFFF := by decide
  -- the refused call, and the allocation of the page
  have hload : step (Vmm.answers Vmm.nextFrame) (.load 0x400000) (sampleSpaces l sampleDirs) =
      some (sampleSpaces { l with cr3 := 0x400000 } sampleDirs) := rfl
  have hrefused : step (Vmm.answers Vmm.nextFrame) (.userAlloc sampleTask 0xFFFFF000)
      (sampleSpaces { l with cr3 := 0x400000 } sampleDirs) =
      some (sampleSpaces { l with cr3 := 0x400000, poolMem := m } sampleDirs) := by
    have hout : noPages.allocOnePage 0xFFFFF000 noPages.blankMem =
        some (bitmapReturnErro, noPages.blankMem) := by
      refine Bitmap.Ok.allocOnePage_out ?_ (by decide)
      constructor <;> decide
    have htask : sampleTask.userVmmPool = noPages := rfl
    have hkern : sampleTask.isKernThread = false := rfl
    simp only [step, UserVmm.vmmUserAllocOnePage, sampleSpaces, hkern, htask, hout,
      Bool.false_eq_true, if_false, Option.bind_eq_bind, Option.bind_some, if_true,
      UserVmm.cleanBitmapAlloc, hm, Option.map_some]
  obtain ⟨m', hs', hin, -⟩ := hpool.allocOnePage_eq hpage
  have htaken : step (Vmm.answers Vmm.nextFrame) (.kern (.allocOnePage 0xFFFFF000))
      (sampleSpaces { l with cr3 := 0x400000, poolMem := m } sampleDirs) =
      some (sampleSpaces ⟨Function.update l.mem (dirEntry 0x400000 0xFFFFF000) (kernDesc 0x401000),
        0x400000, l.kernVmmPool, m', 0x402000⟩ sampleDirs) := by
    have hfree : 0x3FFFF ∈ ({ l with cr3 := 0x400000, poolMem := m } : Vmm UInt32).freePages :=
      (hF 0x3FFFF).mpr (Or.inr hpage)
    have hbit := (hin hfree).1
    rw [show Vmm.kernAddr 0x3FFFF = 0xFFFFF000 by decide] at hbit
    have hne : (0xFFFFF000 : UInt32) ≠ bitmapReturnErro := by decide
    have hframe : Vmm.answers Vmm.nextFrame l.pmm = some (⟨0x401000, 0, 1⟩, 0x402000) := by
      rw [hpmm]
      decide
    have hmap := mapPage_lastPage (k := { l with cr3 := 0x400000, poolMem := m' }) hself hframe
      (by decide)
    simp only [step, Vmm.step, Vmm.vmmKernAllocOnePage, sampleSpaces, hbit, if_neg hne,
      Option.bind_eq_bind, Option.bind_some, hmap, Option.map_some]
  refine ⟨k, sampleSpaces ⟨Function.update l.mem (dirEntry 0x400000 0xFFFFF000)
    (kernDesc 0x401000), 0x400000, l.kernVmmPool, m', 0x402000⟩ sampleDirs, hk, ?_, ?_, ?_, ?_⟩
  · rw [windowRun, run_cons_of_step hcreate, run_cons_of_step hload, run_cons_of_step hrefused,
      run_cons_of_step htaken, run_nil]
  · refine (along_cons_of_step hcreate).mpr ⟨trivial, (along_cons_of_step hload).mpr
      ⟨Or.inr ⟨_, mem_sampleDirs⟩, (along_cons_of_step hrefused).mpr ⟨?_, trivial,
        fun _ _ => trivial⟩⟩⟩
    exact ⟨rfl, mem_sampleDirs, 0xC0400000, rfl⟩
  · exact (along_cons_of_step hcreate).mpr ⟨hunused, (along_cons_of_step hload).mpr
      ⟨unused_sample hpmm hempty (.load 0x400000), (along_cons_of_step hrefused).mpr
        ⟨unused_sample (l := { l with cr3 := 0x400000 }) hpmm hempty
          (.userAlloc sampleTask 0xFFFFF000),
          unused_sample (l := { l with cr3 := 0x400000, poolMem := m }) hpmm hempty
            (.kern (.allocOnePage 0xFFFFF000)), fun _ _ => trivial⟩⟩⟩
  · intro ha
    have hlast := (ha 0xC0300000 0x400000 mem_sampleDirs).1.own
    have e : Function.update l.mem (dirEntry 0x400000 0xFFFFF000) (kernDesc 0x401000)
        (dirEntry 0x400000 0xFFFFF000) = kernDesc 0x401000 := Function.update_self _ _ _
    exact absurd ((congrArg frame e).symm.trans hlast) (by decide)

end UserSpaces
end BHOS
