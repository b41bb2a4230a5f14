import BHOS.PoolStorage

/-! # Safety of the pool of kernel pages

After `vmm_kern_init` the pool should give out neither a page of the kernel image, nor one of the last
4 MiB, where the page tables appear, nor a page that a client holds.  This holds in the runs in which
no page is mapped a multiple of 64 MiB from the kernel image (`safe_of_spares`).  Otherwise the bits
of the pool may become those of any frame (`not_safe_aliased`). -/

namespace BHOS

open Transition Vmm

/-- The kernel's virtual memory and the pages its clients hold. -/
structure MemClient (π : Type) where
  vmm : MemVmm π
  live : Finset ℕ

namespace MemClient

open MemVmm

variable {π : Type} {alloc : π → Option (PmAlloc × π)} {c c' : MemClient π} {v w : Vmm π}
  {live : Finset ℕ} {dir a : UInt32} {op : KernOp} {used q : ℕ}

/-- A client holds the page of an address that was returned to it. -/
def receive (live : Finset ℕ) : UInt32 × MemVmm π → MemClient π
  | (a, s) => ⟨s, if a = kernVmmAllocErro then live else insert (pageNo a) live⟩

/-- One call. -/
def step (alloc : π → Option (PmAlloc × π)) : KernOp → MemClient π → Option (MemClient π)
  | .alloc, c => (vmmKernAlloc alloc c.vmm).map (receive c.live)
  | .allocOnePage target, c => (vmmKernAllocOnePage alloc c.vmm target).map (receive c.live)
  | .releaseOnePage target, c =>
      (vmmKernReleaseOnePage c.vmm target).map fun s => ⟨s, c.live.erase (pageNo target)⟩

/-- The same clients and a machine with the storage as a component of its own. -/
def copy (c : MemClient π) : PoolClient π := ⟨c.vmm.toVmm, c.live⟩

/-- Clients release pages they hold. -/
def Allowed (op : KernOp) (c : MemClient π) : Prop := PoolClient.Allowed op c.copy

/-- An address that the call returns lies behind the kernel image and below the window of the
page tables, in a page that no client holds. -/
def Safe (alloc : π → Option (PmAlloc × π)) (used : ℕ) (op : KernOp) (c : MemClient π) : Prop :=
  ∀ a t, call alloc op c.vmm = some (a, t) → a ≠ kernVmmAllocErro →
    0xC0000000 + used * 4096 ≤ a.toNat ∧ a.toNat < 0xFFC00000 ∧ pageNo a ∉ c.live

/-- No page that the call maps lies a multiple of 64 MiB from a page of the kernel image. -/
def Spares (alloc : π → Option (PmAlloc × π)) (used : ℕ) (op : KernOp) (c : MemClient π) : Prop :=
  SparesImage alloc used op c.vmm.toVmm

/-- The storage is in its place, the pages that must not be given out are not free, and no page that
a client holds lies a multiple of 64 MiB from a page of the kernel image. -/
structure Settled (used : ℕ) (dir : UInt32) (c : MemClient π) : Prop where
  lodged : c.vmm.Lodged used dir
  guarded : c.copy.Guarded used dir
  apart : ∀ q, 0xC0000 + q ∈ c.live → used ≤ q % aliasPages

theorem guarded_congr (h : PoolClient.Guarded used dir ⟨v, live⟩) (hw : w.Ready dir)
    (hF : w.freePages = v.freePages) : PoolClient.Guarded used dir ⟨w, live⟩ :=
  ⟨hw, fun q hq => h.image q (hF ▸ hq), fun q hq => h.apart q (hF ▸ hq), h.kernel⟩

theorem Settled.call {t : MemVmm π} (h : c.Settled used dir) (hs : Spares alloc used op c)
    (hc : MemVmm.call alloc op c.vmm = some (a, t)) : (receive c.live (a, t)).Settled used dir := by
  obtain ⟨hl, hpage, v, hg, hF⟩ := h.lodged.follows hs hc
  have hgiven : PoolClient.Guarded used dir (PoolClient.receive c.live (a, v)) := h.guarded.gives hg
  refine ⟨hl, guarded_congr hgiven hl.ready hF, ?_⟩
  intro q hq
  by_cases ha : a = kernVmmAllocErro
  · rw [receive, if_pos ha] at hq
    exact h.apart q hq
  · rw [receive, if_neg ha] at hq
    rcases Finset.mem_insert.mp hq with e | hq
    · obtain ⟨r, hr, hle⟩ := hpage ha
      rw [PoolClient.pageNo_eq hr] at e
      exact Nat.add_left_cancel e ▸ hle
    · exact h.apart q hq

theorem Settled.release {target : UInt32} {t : MemVmm π} (h : c.Settled used dir)
    (ha : pageNo target ∈ c.live) (hc : vmmKernReleaseOnePage c.vmm target = some t) :
    (⟨t, c.live.erase (pageNo target)⟩ : MemClient π).Settled used dir := by
  obtain ⟨q, hpage, hlow, hwin⟩ := h.guarded.kernel _ ha
  have hp : kernPage? target = some q := PoolClient.kernPage_of_pageNo hpage
  obtain ⟨t', ht', hl, hF⟩ := h.lodged.release hp hwin (h.apart q (hpage ▸ ha))
  obtain rfl := Option.some.inj (ht'.symm.trans hc)
  obtain ⟨v, hv, -, hFv, -⟩ := h.lodged.ready.release_free hp hwin
  have hgiven := h.guarded.release ha hv
  exact ⟨hl, guarded_congr hgiven hl.ready (hF.trans hFv.symm),
    fun r hr => h.apart r (Finset.mem_of_mem_erase hr)⟩

theorem Settled.step (h : c.Settled used dir) (ha : Allowed op c) (hs : Spares alloc used op c)
    (hc : MemClient.step alloc op c = some c') : c'.Settled used dir := by
  cases op with
  | alloc =>
      obtain ⟨⟨a, t⟩, hcall, rfl⟩ := Option.map_eq_some_iff.mp hc
      exact h.call hs hcall
  | allocOnePage target =>
      obtain ⟨⟨a, t⟩, hcall, rfl⟩ := Option.map_eq_some_iff.mp hc
      exact h.call hs hcall
  | releaseOnePage target =>
      obtain ⟨t, hcall, rfl⟩ := Option.map_eq_some_iff.mp hc
      exact h.release ha hcall

theorem Settled.safe (h : c.Settled used dir) (hs : Spares alloc used op c) :
    Safe alloc used op c := by
  intro a t hc hne
  obtain ⟨-, -, v, hg, -⟩ := h.lodged.follows hs hc
  exact h.guarded.safe a v hg hne

/-- With a page manager that answers, a call of a client returns. -/
theorem Settled.returns (h : c.Settled used dir) (ha : Allowed op c)
    (hd : ∀ p, ∃ d p', alloc p = some (d, p')) : ∃ c', MemClient.step alloc op c = some c' := by
  cases op with
  | alloc =>
      have hcall : ∃ a t, MemVmm.call alloc .alloc c.vmm = some (a, t) :=
        h.lodged.returns (fun _ e => nomatch e) (hd c.vmm.pmm)
      obtain ⟨a, t, hc⟩ := hcall
      exact ⟨_, Option.map_eq_some_iff.mpr ⟨(a, t), hc, rfl⟩⟩
  | allocOnePage target =>
      have hcall : ∃ a t, MemVmm.call alloc (.allocOnePage target) c.vmm = some (a, t) :=
        h.lodged.returns (fun _ e => nomatch e) (hd c.vmm.pmm)
      obtain ⟨a, t, hc⟩ := hcall
      exact ⟨_, Option.map_eq_some_iff.mpr ⟨(a, t), hc, rfl⟩⟩
  | releaseOnePage target =>
      obtain ⟨q, hpage, -, hwin⟩ := h.guarded.kernel _ ha
      obtain ⟨t, ht, -⟩ := h.lodged.release (PoolClient.kernPage_of_pageNo hpage) hwin
        (h.apart q (hpage ▸ ha))
      exact ⟨_, Option.map_eq_some_iff.mpr ⟨t, ht, rfl⟩⟩

/-- **The pool of kernel pages is safe** in every run from `vmm_kern_init` on in which no call maps a
page a multiple of 64 MiB from a page of the kernel image and clients release pages they hold: no
allocation returns an address in the kernel image, in the last 4 MiB, outside the kernel half or in a
page that is still held; and when the page manager answers, every call returns. -/
theorem safe_of_spares (alloc : π → Option (PmAlloc × π)) (dir kernEnd kb : UInt32) (m : PhysMem)
    (pool : Bitmap) (p : π) (hal : dir.toNat % 4096 = 0) (hroom : dir.toNat + 4096 * 257 ≤ 2 ^ 32)
    (hused : (getKernUsedPageCount kernEnd).toNat ≤ 1024)
    (hkb : InImage (getKernUsedPageCount kernEnd).toNat dir kb) :
    ∃ s, vmmKernInit (booted dir m pool p) kernEnd kb = some s ∧
      ∀ ops, Along (MemClient.step alloc) Allowed ops ⟨s, ∅⟩ →
        Along (MemClient.step alloc) (Spares alloc (getKernUsedPageCount kernEnd).toNat) ops ⟨s, ∅⟩ →
        Along (MemClient.step alloc) (Safe alloc (getKernUsedPageCount kernEnd).toNat) ops ⟨s, ∅⟩ ∧
        ((∀ p, ∃ d p', alloc p = some (d, p')) →
          ∃ c, run (MemClient.step alloc) ops ⟨s, ∅⟩ = some c) := by
  obtain ⟨s, h₀, hl, -, hF⟩ := lodged_of_init m p pool hal hroom hused hkb
  have hinit : (⟨s, ∅⟩ : MemClient π).Settled (getKernUsedPageCount kernEnd).toNat dir := by
    refine ⟨hl, ⟨hl.ready, ?_, fun q _ h => absurd h (Finset.notMem_empty _),
      fun n hn => absurd hn (Finset.notMem_empty n)⟩, fun q hq => absurd hq (Finset.notMem_empty _)⟩
    intro q hq
    rw [copy, hF] at hq
    exact hq.1
  refine ⟨s, h₀, fun ops ha hs => ?_⟩
  have hboth := ha.and hs
  constructor
  · exact Along.of_invariant (I := Settled (getKernUsedPageCount kernEnd).toNat dir)
      (fun op c c' h hq hc => h.step hq.1 hq.2 hc) (fun op c h hq => h.safe hq.2) hinit hboth
  · intro hd
    exact run_isSome (I := Settled (getKernUsedPageCount kernEnd).toNat dir)
      (fun op c c' h hq hc => h.step hq.1 hq.2 hc) (fun op c h hq => h.returns hq.1 hd) hinit hboth

/-- Where the image of the samples has the array. -/
theorem inImage_sample : InImage (getKernUsedPageCount 0x300000).toNat 0x101000 0xC0250000 := by
  have hused : (getKernUsedPageCount 0x300000).toNat = 768 := by decide
  rw [hused]
  exact ⟨by decide, by decide, .inr (by decide)⟩

theorem safe_of_spares_sample : ∃ s,
    vmmKernInit (booted 0x101000 (fun _ => 0xFFFFFFFF) ⟨0, 0, 0⟩ 0x400000) 0x300000 0xC0250000 =
      some s ∧
    Along (MemClient.step (answers nextFrame)) (Safe (answers nextFrame) 768)
      [.alloc, .allocOnePage 0xFFFFF000, .allocOnePage 0xC4300123] ⟨s, ∅⟩ ∧
    ∃ c, run (MemClient.step (answers nextFrame))
      [.alloc, .allocOnePage 0xFFFFF000, .allocOnePage 0xC4300123] ⟨s, ∅⟩ = some c := by
  obtain ⟨s, hs, hrun⟩ := safe_of_spares (answers nextFrame) 0x101000 0x300000 0xC0250000
    (fun _ => 0xFFFFFFFF) ⟨0, 0, 0⟩ 0x400000 (by decide) (by decide) (by decide) inImage_sample
  obtain ⟨s', hs', hl, -, hF⟩ := lodged_of_init (fun _ => 0xFFFFFFFF) (0x400000 : UInt32) ⟨0, 0, 0⟩
    (by decide) (by decide) (by decide) inImage_sample
  obtain rfl := Option.some.inj (hs.symm.trans hs')
  have hused : (getKernUsedPageCount 0x300000).toNat = 768 := by decide
  rw [hused] at hrun hF
  have hspares : ∀ (target : UInt32) (q : ℕ) (c : MemClient UInt32), kernPage? target = some q →
      768 ≤ q % aliasPages → Spares (answers nextFrame) 768 (.allocOnePage target) c := by
    rintro target q c hp hle r d p ⟨hr, -⟩ - -
    exact Option.some.inj (hp.symm.trans hr) ▸ hle
  have hfirst : Spares (answers nextFrame) 768 .alloc (⟨s, ∅⟩ : MemClient UInt32) := by
    rintro q d p ⟨hq, hmin⟩ - -
    have hin : 768 ∈ s.toVmm.freePages := by
      rw [hF]
      exact ⟨le_rfl, by decide⟩
    have hle := hmin 768 hin
    have hq : q ∈ s.toVmm.freePages := hq
    rw [hF] at hq
    have e : q = 768 := le_antisymm hle hq.1
    rw [e]
    decide
  obtain ⟨hsafe, hreturns⟩ := hrun [.alloc, .allocOnePage 0xFFFFF000, .allocOnePage 0xC4300123]
    ⟨trivial, fun _ _ => ⟨trivial, fun _ _ => ⟨trivial, fun _ _ => trivial⟩⟩⟩
    ⟨hfirst, fun c _ => ⟨hspares _ 0x3FFFF c (kernPage_eq_some.mpr ⟨by decide, by decide⟩) (by decide),
      fun c _ => ⟨hspares _ 0x4300 c (kernPage_eq_some.mpr ⟨by decide, by decide⟩) (by decide),
        fun _ _ => trivial⟩⟩⟩
  exact ⟨s, hs, hsafe, hreturns fun p => ⟨_, _, rfl⟩⟩

/-- The page `0xC4250000` has the frame `0x400000`, and so has the first page of the array. -/
def aliased (u : MemVmm UInt32) : MemVmm UInt32 :=
  { u with
    pmm := 0x401000
    mem := Function.update u.mem (slot 0x101000 0x4250) (kernDesc 0x400000) }

theorem aliased_slot (u : MemVmm UInt32) :
    (aliased u).mem (slot 0x101000 0x4250) = kernDesc 0x400000 := by
  simp only [aliased, Function.update_self]

theorem aliased_mem {u : MemVmm UInt32} {x : UInt32} (hx : x ≠ slot 0x101000 0x4250) :
    (aliased u).mem x = u.mem x := by
  simp only [aliased, Function.update_of_ne hx]

theorem translate_aliased {u : MemVmm UInt32} {i : ℕ} (hu : u.Placed 768 0x101000)
    (hkb : u.kernVmmPool = kernPool 0xC0250000)
    (hslots : ∀ q < 1024, (u.mem (slot 0x101000 q)).toNat = 4096 * q + 3) (hi : i < 0x8000) :
    ∃ a, translate (aliased u).mem 0x101000 (u.byteAddr i) = some a ∧
      a.toNat = (if i < 4096 then 0x400000 else 0x250000) + i ∧
      (4096 ≤ i → translate u.mem 0x101000 (u.byteAddr i) = some a) := by
  have haddr : (u.byteAddr i).toNat = 0xC0250000 + i := by
    simp only [byteAddr, hkb, kernPool, UInt32.toNat_add, UInt32.toNat_ofNat', UInt32.reduceToNat]
    omega
  have hpage : kernPage? (u.byteAddr i) = some (592 + i / 4096) :=
    kernPage_eq_some.mpr ⟨by omega, by omega⟩
  have hw : 592 + i / 4096 < windowPage := by
    unfold windowPage
    omega
  have htab : KernTables (aliased u).mem 0x101000 := hu.tables.update_slot _ _
  by_cases hfirst : i < 4096
  · have hword : (aliased u).mem (slot 0x101000 (592 + i / 4096)) = kernDesc 0x400000 := by
      rw [← aliased_slot u]
      exact congrArg (aliased u).mem (hu.tables.slot_eq_iff.mpr (by unfold aliasPages; omega))
    obtain ⟨a, ha, hn⟩ := translate_page htab hpage hw (hword ▸ present_kernDesc _)
    refine ⟨a, ha, ?_, fun hge => absurd hfirst (Nat.not_lt.mpr hge)⟩
    rw [hn, hword, kernDesc_toNat, if_pos hfirst]
    simp only [UInt32.reduceToNat]
    omega
  · have hword : (aliased u).mem (slot 0x101000 (592 + i / 4096)) =
        u.mem (slot 0x101000 (592 + i / 4096)) := by
      apply aliased_mem
      intro e
      have halias := hu.tables.slot_eq_iff.mp e
      unfold aliasPages at halias
      omega
    have hslot := hslots (592 + i / 4096) (by omega)
    have hpres : Present (u.mem (slot 0x101000 (592 + i / 4096))) := by
      rw [present_iff, hslot]
      omega
    obtain ⟨a, ha, hn⟩ := translate_page hu.tables hpage hw hpres
    refine ⟨a, ?_, ?_, fun _ => ha⟩
    · rw [← ha, hu.tables.translate_eq hpage hw, ← hword]
      exact htab.translate_eq hpage hw
    · rw [hn, hslot, if_neg hfirst]
      omega

section aliased

variable {u : MemVmm UInt32} (hu : u.Lodged 768 0x101000)
  (hkb : u.kernVmmPool = kernPool 0xC0250000)
  (hslots : ∀ q < 1024, (u.mem (slot 0x101000 q)).toNat = 4096 * q + 3)

include hu hkb hslots

theorem placed_aliased : (aliased u).Placed 768 0x101000 := by
  have htrans := fun (i : ℕ) (hi : i < 0x8000) => translate_aliased hu.toPlaced hkb hslots hi
  refine ⟨hu.cr3, hu.tables.update_slot _ _, hu.pool, hu.few, hu.page, ?_, ?_, ?_⟩
  · intro i hi
    obtain ⟨a, ha, -⟩ := htrans i hi
    exact ⟨a, ha⟩
  · intro i hi a ha
    obtain ⟨b, hb, hn, -⟩ := htrans i hi
    obtain rfl := Option.some.inj (ha.symm.trans hb)
    unfold OutsideTables
    rw [Bytes.wordAddr_toNat, hn]
    simp only [UInt32.reduceToNat]
    split <;> omega
  · intro i hi j hj e
    obtain ⟨a, ha, hn, -⟩ := htrans i hi
    obtain ⟨b, hb, hn', -⟩ := htrans j hj
    have e' := congrArg UInt32.toNat (Option.some.inj ((ha.symm.trans e).trans hb))
    rw [hn, hn'] at e'
    split at e' <;> split at e' <;> omega

/-- The other pages of the array have kept their bytes. -/
theorem poolMem_aliased {i : ℕ} (hi : i < 0x8000) (hrest : 4096 ≤ i) :
    (aliased u).poolMem (u.byteAddr i) = u.poolMem (u.byteAddr i) := by
  obtain ⟨a, ha, hn, hsame⟩ := translate_aliased hu.toPlaced hkb hslots hi
  have hsame := hsame hrest
  have hword : Bytes.wordAddr a ≠ slot 0x101000 0x4250 := by
    intro e
    have hout := hu.outside i hi a hsame
    rw [e] at hout
    exact hu.tables.not_outside_slot _ hout
  have hread : (aliased u).poolMem (u.byteAddr i) = _ :=
    (placed_aliased hu hkb hslots).poolMem_byte hi
  rw [hread, hu.poolMem_byte hi]
  refine (congrArg (Option.map _) ha).trans ?_
  rw [hsame, Option.map_some, Option.map_some, Bytes.read, Bytes.read, aliased_mem hword]

theorem lodged_aliased : (aliased u).Lodged 768 0x101000 := by
  refine ⟨placed_aliased hu hkb hslots, ?_⟩
  rintro q ⟨hq, b, hb, hbit⟩
  have hlen : u.kernVmmPool.length.toNat = 0x8000 := hu.length
  have hi : q / 8 < 0x8000 := by
    have hq : q < 8 * u.kernVmmPool.length.toNat := hq
    rw [hlen] at hq
    omega
  by_cases hfirst : q / 8 < 4096
  · unfold windowPage
    omega
  · have hsame := poolMem_aliased hu hkb hslots hi (Nat.not_lt.mp hfirst)
    exact hu.window q ⟨hq, b, hsame.symm.trans hb, hbit⟩

/-- When the frame begins with a set bit, the first page of the kernel image is free. -/
theorem free_aliased (hones : u.mem 0x400000 = 0xFFFFFFFF) : 0 ∈ (aliased u).toVmm.freePages := by
  obtain ⟨a, ha, hn, -⟩ := translate_aliased (i := 0) hu.toPlaced hkb hslots (by decide)
  obtain rfl : a = 0x400000 := UInt32.toNat_inj.mp hn
  have hword : (aliased u).mem 0x400000 = 0xFFFFFFFF := (aliased_mem (by decide)).trans hones
  have hbyte : Bytes.read (aliased u).mem 0x400000 = 0xFF := by
    have e : Bytes.wordAddr 0x400000 = 0x400000 := by decide
    rw [Bytes.read, e, hword]
    decide
  have hread : (aliased u).poolMem (u.byteAddr 0) = some 0xFF := by
    have hmem := (placed_aliased hu hkb hslots).poolMem_byte (i := 0) (by decide)
    refine hmem.trans ((congrArg (Option.map _) ha).trans ?_)
    rw [Option.map_some, hbyte]
  have hlen : u.kernVmmPool.length.toNat = 0x8000 := hu.length
  have hpage : 0 < 8 * u.kernVmmPool.length.toNat := by
    rw [hlen]
    decide
  exact ⟨hpage, 0xFF, hread, by decide⟩

end aliased

/-- After boot the page `0xC4250000` is mapped to a frame that was never cleared.  It takes the place
of the first page of the array, and the next page that is given out is the first of the image. -/
theorem not_safe_aliased : ∃ s c t,
    vmmKernInit (booted 0x101000 (fun _ => 0xFFFFFFFF) ⟨0, 0, 0⟩ 0x400000) 0x300000 0xC0250000 =
      some s ∧
    MemClient.step (answers nextFrame) (.allocOnePage 0xC4250000) ⟨s, ∅⟩ = some c ∧
    call (answers nextFrame) .alloc c.vmm = some (0xC0000000, t) ∧
    ¬ Safe (answers nextFrame) 768 .alloc c := by
  have hused : (getKernUsedPageCount 0x300000).toNat = 768 := by decide
  have hkb : InImage 768 0x101000 0xC0250000 := hused ▸ inImage_sample
  obtain ⟨s, h₀, hl, ⟨b, hb⟩, hF⟩ := lodged_of_init (fun _ => 0xFFFFFFFF) (0x400000 : UInt32)
    ⟨0, 0, 0⟩ (by decide) (by decide) (by decide) inImage_sample
  rw [hused] at hl hF
  have hp₀ := placed_booted (fun _ => 0xFFFFFFFF) (0x400000 : UInt32) (by decide) (by decide)
    (by decide) hkb
  have hpte := (setPage_tables 0x101000 (fun _ => 0xFFFFFFFF) (by decide) (by decide)).2
  have hfar : setPage 0x101000 (fun _ => 0xFFFFFFFF) 0x400000 = 0xFFFFFFFF :=
    setPage_of_outside (by decide) (.inr (by decide))
  have hwhere := fun (i : ℕ) (hi : i < 0x8000) =>
    translate_booted (fun _ => 0xFFFFFFFF) (0x400000 : UInt32) (by decide) (by decide) (by decide) hkb hi
  generalize setPage 0x101000 (fun _ => 0xFFFFFFFF) = mem₀ at hb hp₀ hpte hfar hwhere
  -- the first call
  have htakes : Takes (.allocOnePage 0xC4250000) s.toVmm 0x4250 := by
    refine ⟨kernPage_eq_some.mpr ⟨by decide, by decide⟩, ?_⟩
    rw [hF]
    exact ⟨by decide, by decide⟩
  obtain ⟨u, a, m, m', hu⟩ := hl.call_takes (answers nextFrame) htakes
  obtain ⟨b', hb'⟩ := hu.written
  have hpmm : s.pmm = 0x400000 := by
    rw [hb]
    rfl
  have hcall : call (answers nextFrame) (.allocOnePage 0xC4250000) s = some (a, aliased u) := by
    rw [hu.answers, hpmm]
    rfl
  -- what is in memory after it
  have hpool : u.kernVmmPool = kernPool 0xC0250000 := by
    rw [hb', hb]
    rfl
  have hslots : ∀ q < 1024, (u.mem (slot 0x101000 q)).toNat = 4096 * q + 3 := by
    intro q hq
    have e : q % aliasPages = q := Nat.mod_eq_of_lt (by unfold aliasPages; omega)
    rw [hb', (hl.tables_putPool b').2, hb, (hp₀.tables_putPool b).2, slot, e]
    exact hpte q hq
  have hapart : ∀ i < 0x8000, ∀ x, translate mem₀ 0x101000
      (byteAddr ⟨mem₀, 0x101000, kernPool 0xC0250000, (0x400000 : UInt32)⟩ i) = some x →
        0x400000 ≠ Bytes.wordAddr x := by
    intro i hi x hx e
    obtain ⟨y, hy, hn, -⟩ := hwhere i hi
    obtain rfl := Option.some.inj (hx.symm.trans hy)
    have e' := congrArg UInt32.toNat e
    rw [Bytes.wordAddr_toNat, hn] at e'
    simp only [UInt32.reduceToNat] at e'
    omega
  have hones : u.mem 0x400000 = 0xFFFFFFFF := by
    have hplaced := hl.toPlaced
    rw [hb] at hplaced
    rw [hb', hb, hp₀.putPool_twice hplaced hapart]
    exact hfar
  -- the second call
  have htakes' : Takes .alloc (aliased u).toVmm 0 :=
    ⟨free_aliased hu.lodged hpool hslots hones, fun r _ => Nat.zero_le r⟩
  obtain ⟨w, a', k, k', hw⟩ :=
    (lodged_aliased hu.lodged hpool hslots).call_takes (answers nextFrame) htakes'
  have ha' : a' = 0xC0000000 := (hw.addr rfl).trans (by decide)
  have hcall' : ∃ t, call (answers nextFrame) .alloc (aliased u) = some (0xC0000000, t) := by
    rw [hw.answers, ha']
    exact ⟨_, rfl⟩
  obtain ⟨t, ht⟩ := hcall'
  refine ⟨s, receive ∅ (a, aliased u), t, h₀, ?_, ht, ?_⟩
  · exact Option.map_eq_some_iff.mpr ⟨_, hcall, rfl⟩
  · intro hsafe
    obtain ⟨hlow, -⟩ := hsafe 0xC0000000 t ht (by decide)
    exact absurd hlow (by decide)

end MemClient
end BHOS
