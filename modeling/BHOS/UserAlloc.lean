import BHOS.KernelCalls
import BHOS.Translation
import BHOS.UserVmm

/-! # Failures of `vmm_user_alloc_one_page`

The call fails when the page is not to be had from the pool of the task, when no page table can be
created, and when no frame is left.  All three ways lead to `clean_bitmap_alloc`, where the page
is given back to the kernel's pool and not to the pool of the task.  So a failed call is without
effect (`Atomic`) exactly when it fails before the page was taken and the address is not that of
an allocated kernel page (`Harmless`). -/

namespace BHOS

namespace Vmm

variable {π : Type} {alloc : π → Option (PmAlloc × π)} {s t : Vmm π} {a v : UInt32} {q : ℕ}

/-- A page manager has a frame left. -/
def FrameLeft (alloc : π → Option (PmAlloc × π)) (p : π) : Prop :=
  ∃ d p', alloc p = some (d, p') ∧ d.state ≠ 0

/-! ### Calls of the kernel's allocator -/

/-- Two states with the same pool and page manager. -/
structure SamePools (s t : Vmm π) : Prop where
  pool : t.kernVmmPool = s.kernVmmPool
  poolMem : t.poolMem = s.poolMem
  pmm : t.pmm = s.pmm

theorem SamePools.trans {u : Vmm π} (h₁ : SamePools s t) (h₂ : SamePools t u) : SamePools s u :=
  ⟨h₂.pool.trans h₁.pool, h₂.poolMem.trans h₁.poolMem, h₂.pmm.trans h₁.pmm⟩

theorem Pooled.of_same (h : s.Pooled) (hst : SamePools s t) : t.Pooled := by
  constructor
  · rw [hst.pool]
    exact h.pool
  · rw [hst.pool, hst.poolMem]
    exact h.stored

theorem samePools_write {x : UInt32} (h : s.write v x = some t) : SamePools s t := by
  unfold write at h
  obtain ⟨b, -, rfl⟩ := Option.map_eq_some_iff.mp h
  exact ⟨rfl, rfl, rfl⟩

theorem samePools_memsetZero {n : ℕ} (h : memsetZero n v s = some t) : SamePools s t := by
  induction n generalizing v s with
  | zero =>
      obtain rfl := Option.some.inj h
      exact ⟨rfl, rfl, rfl⟩
  | succ n ih =>
      obtain ⟨u, hu, h⟩ := Option.bind_eq_some_iff.mp h
      exact (samePools_write hu).trans (ih h)

theorem frameLeft_iff {p p' : π} {d : PmAlloc} (hd : alloc p = some (d, p')) :
    FrameLeft alloc p ↔ d.state ≠ 0 := by
  constructor
  · rintro ⟨d', p', hd', hst⟩
    obtain ⟨rfl, -⟩ := Prod.mk.inj (Option.some.inj (hd.symm.trans hd'))
    exact hst
  · intro hst
    exact ⟨d, p', hd, hst⟩

/-- `vmm_kern_alloc` succeeds exactly when there is a free page and a frame for it. -/
theorem Pooled.vmmKernAlloc_cases (h : s.Pooled) (hr : vmmKernAlloc alloc s = some (a, t)) :
    t.Pooled ∧ (a ≠ kernVmmAllocErro ↔ s.freePages.Nonempty ∧ FrameLeft alloc s.pmm) ∧
      (a ≠ kernVmmAllocErro → a.toNat % 4096 = 0 ∧ ∃ d, alloc s.pmm = some (d, t.pmm)) := by
  have hg : Gives alloc a t .alloc s := hr
  cases h.given hg with
  | none herr hno =>
      refine ⟨h, iff_of_false (fun hne => hne herr) ?_, fun hne => absurd herr hne⟩
      rintro ⟨⟨q, hq⟩, -⟩
      exact hno _ (takes_sInf ⟨q, hq⟩)
  | refused q d p m _ hd hst herr hs _ =>
      refine ⟨⟨h.pool, hs⟩, iff_of_false (fun hne => hne herr) ?_, fun hne => absurd herr hne⟩
      rintro ⟨-, hleft⟩
      exact (frameLeft_iff hd).mp hleft hst
  | mapped q d p m htakes hd hst _ haddr hs _ hw =>
      have hpage := h.page_lt htakes.free
      have hsame := samePools_write hw
      have hne : a ≠ kernVmmAllocErro := by
        rw [haddr rfl]
        exact (kernPool_ok 0).pageAddr_ne_erro hpage
      refine ⟨(show Pooled { s with pmm := p, poolMem := m } from ⟨h.pool, hs⟩).of_same hsame,
        iff_of_true hne ⟨⟨q, htakes.free⟩, (frameLeft_iff hd).mpr hst⟩, fun _ => ⟨?_, d, ?_⟩⟩
      · rw [haddr rfl, kernAddr_toNat hpage]
        omega
      · rw [hd, hsame.pmm]

/-! ### Page tables -/

/-- The address of a page is never translated to the error value. -/
theorem vmmV2p_ne_error {m : PhysMem} {c : UInt32} (hv : v.toNat % 4096 = 0) :
    vmmV2p m c v ≠ some v2pError := by
  have htest : (1 ||| 0x00000001 : UInt32) ≠ 0 := by decide
  intro h
  unfold vmmV2p checkVaddrPresent at h
  simp only [if_true, if_pos htest] at h
  obtain ⟨present, hp, h⟩ := Option.bind_eq_some_iff.mp h
  obtain ⟨pde, -, hp⟩ := Option.bind_eq_some_iff.mp hp
  obtain ⟨pte, -, hp⟩ := Option.bind_eq_some_iff.mp hp
  obtain rfl := Option.some.inj hp
  simp only [if_true] at h
  obtain ⟨pte', -, h⟩ := Option.bind_eq_some_iff.mp h
  have h0 : (0x00000FFF &&& v) = 0 := by
    rw [UInt32.and_comm, Words.and_offset_of_aligned hv]
  have hn := congrArg UInt32.toNat (Option.some.inj h)
  have herr : v2pError.toNat = 0xFFFFFFFF := rfl
  rw [h0, UInt32.or_zero, Words.toNat_and_frame, herr] at hn
  omega

/-- `create_user_page_table` succeeds exactly when `vmm_kern_alloc` does. -/
theorem Pooled.createUserPageTable_cases (h : s.Pooled) {b : Bool}
    (hr : createUserPageTable alloc s v = some (b, t)) :
    t.Pooled ∧ (b = true ↔ s.freePages.Nonempty ∧ FrameLeft alloc s.pmm) ∧
      (b = true → ∃ d, alloc s.pmm = some (d, t.pmm)) := by
  unfold createUserPageTable at hr
  obtain ⟨⟨a, u⟩, hu, hr⟩ := Option.bind_eq_some_iff.mp hr
  obtain ⟨hpool, hiff, hval⟩ := h.vmmKernAlloc_cases hu
  by_cases ha : a = kernVmmAllocErro
  · simp only [if_pos ha, Option.some.injEq, Prod.mk.injEq] at hr
    obtain ⟨rfl, rfl⟩ := hr
    refine ⟨hpool, iff_of_false Bool.false_ne_true fun hfree => hiff.mpr hfree ha,
      fun e => absurd e Bool.false_ne_true⟩
  · simp only [if_neg ha] at hr
    obtain ⟨halign, d, hd⟩ := hval ha
    obtain ⟨w, hw, hr⟩ := Option.bind_eq_some_iff.mp hr
    obtain ⟨paddr, hp, hr⟩ := Option.bind_eq_some_iff.mp hr
    have hne : paddr ≠ v2pError := fun e => vmmV2p_ne_error halign (e ▸ hp)
    simp only [if_neg hne] at hr
    obtain ⟨x, hx, hr⟩ := Option.bind_eq_some_iff.mp hr
    obtain ⟨rfl, rfl⟩ := Prod.mk.inj (Option.some.inj hr)
    have hsame := (samePools_memsetZero hw).trans (samePools_write hx)
    refine ⟨hpool.of_same hsame, iff_of_true rfl (hiff.mp ha), fun _ => ⟨d, ?_⟩⟩
    rw [hd, hsame.pmm]

end Vmm

namespace UserVmm

open Vmm

variable {π : Type} {alloc : π → Option (PmAlloc × π)} {s t : UserVmm π} {tcb : Tcb}
  {v r : UInt32}

/-- The free user pages and the present user pages are the same as before, and no allocated
kernel page has become free. -/
structure Atomic (tcb : Tcb) (s t : UserVmm π) : Prop where
  user : tcb.userVmmPool.freeSet t.userMem = tcb.userVmmPool.freeSet s.userMem
  kern : t.kern.freePages ⊆ s.kern.freePages
  present : ∀ u : UInt32, u < 0xC0000000 → Mapped t.kern.mem t.kern.cr3 u →
    Mapped s.kern.mem s.kern.cr3 u

/-- The page of the address is free in the pool of the task. -/
def PageFree (tcb : Tcb) (v : UInt32) (s : UserVmm π) : Prop :=
  ∃ q, tcb.userVmmPool.pageIndex? v = some q ∧ q ∈ tcb.userVmmPool.freeSet s.userMem

/-- There is a frame for the page and, when it has no page table, a page and a frame for the page
table. -/
def Provided (alloc : π → Option (PmAlloc × π)) (tcb : Tcb) (v : UInt32) (s : UserVmm π) : Prop :=
  (s.kern.vmmUserCheckPtPresent tcb.pdtVaddr v = some true → FrameLeft alloc s.kern.pmm) ∧
    (s.kern.vmmUserCheckPtPresent tcb.pdtVaddr v = some false →
      s.kern.freePages.Nonempty ∧ FrameLeft alloc s.kern.pmm ∧
        ∀ d p, alloc s.kern.pmm = some (d, p) → FrameLeft alloc p)

/-- A page that is free for the task gets all it needs; any other address is not that of an
allocated kernel page. -/
structure Harmless (alloc : π → Option (PmAlloc × π)) (tcb : Tcb) (v : UInt32) (s : UserVmm π) :
    Prop where
  provided : PageFree tcb v s → Provided alloc tcb v s
  unallocated : ¬ PageFree tcb v s → ∀ q, kernPage? v = some q → q ∈ s.kern.freePages

/-! ### The parts of the call -/

/-- `clean_bitmap_alloc` makes the page of the address free in the kernel's pool. -/
theorem cleanBitmapAlloc_eq (h : s.kern.Pooled) (hr : s.cleanBitmapAlloc v = some (r, t)) :
    r = userVmmAllocErro ∧ t.userMem = s.userMem ∧ t.kern.mem = s.kern.mem ∧
      t.kern.cr3 = s.kern.cr3 ∧
      ∀ q, q ∈ t.kern.freePages ↔ q ∈ s.kern.freePages ∨ kernPage? v = some q := by
  unfold cleanBitmapAlloc at hr
  obtain ⟨m, hm, hr⟩ := Option.bind_eq_some_iff.mp hr
  obtain ⟨rfl, rfl⟩ := Prod.mk.inj (Option.some.inj hr)
  refine ⟨rfl, rfl, rfl, rfl, ?_⟩
  intro q
  obtain ⟨m', hm', -, hF⟩ := h.releaseOnePage_eq v
  obtain rfl := Option.some.inj (hm'.symm.trans hm)
  exact hF q

/-- There is a page table in the end exactly when there was one or `create_user_page_table` made
one. -/
theorem ensurePageTable_cases (h : s.kern.Pooled) {b : Bool} {pdt : UInt32}
    (hr : s.ensurePageTable alloc pdt v = some (b, t)) :
    t.userMem = s.userMem ∧ t.kern.Pooled ∧ ∃ present,
      s.kern.vmmUserCheckPtPresent pdt v = some present ∧
      (present = true → b = true ∧ t.kern = s.kern) ∧
      (present = false → (b = true ↔ s.kern.freePages.Nonempty ∧ FrameLeft alloc s.kern.pmm) ∧
        (b = true → ∃ d, alloc s.kern.pmm = some (d, t.kern.pmm))) := by
  unfold ensurePageTable at hr
  obtain ⟨present, hp, hr⟩ := Option.bind_eq_some_iff.mp hr
  cases present with
  | true =>
      simp only [if_true, Option.some.injEq, Prod.mk.injEq] at hr
      obtain ⟨rfl, rfl⟩ := hr
      exact ⟨rfl, h, true, hp, fun _ => ⟨rfl, rfl⟩, fun e => absurd e.symm Bool.false_ne_true⟩
  | false =>
      simp only [Bool.false_eq_true, if_false] at hr
      obtain ⟨⟨c, k⟩, hc, hr⟩ := Option.bind_eq_some_iff.mp hr
      obtain ⟨rfl, rfl⟩ := Prod.mk.inj (Option.some.inj hr)
      obtain ⟨hpool, hiff, hval⟩ := h.createUserPageTable_cases hc
      exact ⟨rfl, hpool, false, hp, fun e => absurd e Bool.false_ne_true, fun _ => ⟨hiff, hval⟩⟩

/-- With a page table, the call fails exactly when no frame is left. -/
theorem mapUserPage_cases (h : s.kern.Pooled) (hr : s.mapUserPage alloc v = some (r, t)) :
    t.userMem = s.userMem ∧ (r = userVmmAllocErro ↔ ¬ FrameLeft alloc s.kern.pmm) := by
  unfold mapUserPage at hr
  obtain ⟨⟨d, p⟩, hd, hr⟩ := Option.bind_eq_some_iff.mp hr
  have hleft := frameLeft_iff hd
  by_cases hst : d.state = 0
  · simp only [if_pos hst] at hr
    have h' : ({ s.kern with pmm := p } : Vmm π).Pooled := ⟨h.pool, h.stored⟩
    obtain ⟨rfl, hmem, -⟩ := cleanBitmapAlloc_eq h' hr
    exact ⟨hmem, iff_of_true rfl fun hl => hleft.mp hl hst⟩
  · simp only [if_neg hst] at hr
    obtain ⟨k, -, hr⟩ := Option.bind_eq_some_iff.mp hr
    obtain ⟨rfl, rfl⟩ := Prod.mk.inj (Option.some.inj hr)
    refine ⟨rfl, iff_of_false ?_ fun hl => hl (hleft.mpr hst)⟩
    intro e
    have hn := congrArg UInt32.toNat e
    have herr : userVmmAllocErro.toNat = 0xFFFFFFFF := rfl
    rw [Words.toNat_and_frame, herr] at hn
    omega

/-! ### The call as a whole -/

/-- The page is not to be had from the pool of the task: only the kernel's pool may change. -/
theorem alloc_busy (h : s.kern.Pooled) (hok : tcb.userVmmPool.Ok)
    (hs : tcb.userVmmPool.Stored s.userMem) (hk : tcb.isKernThread = false)
    (hbusy : ¬ PageFree tcb v s) (hr : s.vmmUserAllocOnePage alloc tcb v = some (r, t)) :
    r = userVmmAllocErro ∧ t.userMem = s.userMem ∧ t.kern.mem = s.kern.mem ∧
      t.kern.cr3 = s.kern.cr3 ∧
      ∀ q, q ∈ t.kern.freePages ↔ q ∈ s.kern.freePages ∨ kernPage? v = some q := by
  have he : tcb.userVmmPool.allocOnePage v s.userMem = some (bitmapReturnErro, s.userMem) := by
    cases hp : tcb.userVmmPool.pageIndex? v with
    | none => exact hok.allocOnePage_out hp
    | some q =>
        obtain ⟨m, -, -, hout⟩ := hok.allocOnePage_eq hs hp
        exact hout fun hq => hbusy ⟨q, hp, hq⟩
  unfold vmmUserAllocOnePage at hr
  simp only [hk, Bool.false_eq_true, if_false, he, Option.bind_eq_bind, Option.bind_some,
    if_true] at hr
  exact cleanBitmapAlloc_eq (s := { s with userMem := s.userMem }) h hr

/-- The page is free for the task: it is taken from the pool, whether the call then succeeds,
which it does when all it needs is there, or not. -/
theorem alloc_taken (h : s.kern.Pooled) (hok : tcb.userVmmPool.Ok)
    (hs : tcb.userVmmPool.Stored s.userMem) (hk : tcb.isKernThread = false)
    (hfree : PageFree tcb v s) (hr : s.vmmUserAllocOnePage alloc tcb v = some (r, t)) :
    tcb.userVmmPool.freeSet t.userMem ≠ tcb.userVmmPool.freeSet s.userMem ∧
      (r = userVmmAllocErro ↔ ¬ Provided alloc tcb v s) := by
  obtain ⟨q, hq, hmem⟩ := hfree
  obtain ⟨m, -, hin, -⟩ := hok.allocOnePage_eq hs hq
  obtain ⟨he, hF⟩ := hin hmem
  have hne : tcb.userVmmPool.pageAddr q ≠ bitmapReturnErro :=
    hok.pageAddr_ne_erro (hok.pageIndex_eq hq).1
  have htaken : tcb.userVmmPool.freeSet m ≠ tcb.userVmmPool.freeSet s.userMem := by
    intro e
    rw [← e, hF] at hmem
    exact hmem.2 rfl
  unfold vmmUserAllocOnePage at hr
  simp only [hk, Bool.false_eq_true, if_false, he, Option.bind_eq_bind, Option.bind_some,
    if_neg hne] at hr
  obtain ⟨⟨b, u⟩, hu, hr⟩ := Option.bind_eq_some_iff.mp hr
  obtain ⟨huser, hpool, present, hcheck, hyes, hno⟩ :=
    ensurePageTable_cases (s := { s with userMem := m }) h hu
  have hdone : b = true → t.userMem = m ∧
      (r = userVmmAllocErro ↔ ¬ FrameLeft alloc u.kern.pmm) := by
    rintro rfl
    simp only [if_true] at hr
    obtain ⟨hmem', hiff⟩ := mapUserPage_cases hpool hr
    exact ⟨hmem'.trans huser, hiff⟩
  have hfailed : b = false → t.userMem = m ∧ r = userVmmAllocErro := by
    rintro rfl
    simp only [Bool.false_eq_true, if_false] at hr
    obtain ⟨hr, hmem', -⟩ := cleanBitmapAlloc_eq hpool hr
    exact ⟨hmem'.trans huser, hr⟩
  have huserMem : t.userMem = m := by
    cases b with
    | true => exact (hdone rfl).1
    | false => exact (hfailed rfl).1
  refine ⟨huserMem ▸ htaken, ?_⟩
  unfold Provided
  rw [show s.kern.vmmUserCheckPtPresent tcb.pdtVaddr v = some present from hcheck]
  cases present with
  | true =>
      obtain ⟨hb, hkern⟩ := hyes rfl
      rw [(hdone hb).2, hkern]
      simp
  | false =>
      obtain ⟨hb, hd⟩ := hno rfl
      cases b with
      | true =>
          obtain ⟨d, hd⟩ := hd rfl
          obtain ⟨hne, hleft⟩ := hb.mp rfl
          rw [(hdone rfl).2, not_iff_not]
          refine ⟨fun hl => ⟨fun e => (nomatch e), fun _ => ⟨hne, hleft, ?_⟩⟩,
            fun hp => (hp.2 rfl).2.2 d u.kern.pmm hd⟩
          intro d' p' h'
          obtain ⟨-, rfl⟩ := Prod.mk.inj (Option.some.inj (hd.symm.trans h'))
          exact hl
      | false =>
          apply iff_of_true (hfailed rfl).2
          intro hp
          obtain ⟨hne, hleft, -⟩ := hp.2 rfl
          exact Bool.false_ne_true (hb.mpr ⟨hne, hleft⟩)

/-- **A failed allocation of a user page is without effect** exactly when the page was not to be
had from the pool of the task and the address is not that of an allocated kernel page. -/
theorem atomic_iff_harmless (alloc : π → Option (PmAlloc × π)) (tcb : Tcb) (v r : UInt32)
    (s t : UserVmm π) (hk : tcb.isKernThread = false) (hok : tcb.userVmmPool.Ok)
    (hs : tcb.userVmmPool.Stored s.userMem) (h : s.kern.Pooled)
    (hr : s.vmmUserAllocOnePage alloc tcb v = some (r, t)) :
    (r = userVmmAllocErro → Atomic tcb s t) ↔ Harmless alloc tcb v s := by
  by_cases hfree : PageFree tcb v s
  · obtain ⟨htaken, hiff⟩ := alloc_taken h hok hs hk hfree hr
    constructor
    · intro ha
      refine ⟨?_, fun hn => absurd hfree hn⟩
      intro _
      by_contra hno
      exact htaken (ha (hiff.mpr hno)).user
    · intro hh herr
      exact absurd (hh.provided hfree) (hiff.mp herr)
  · obtain ⟨herr, huser, hmem, hcr3, hF⟩ := alloc_busy h hok hs hk hfree hr
    constructor
    · intro ha
      refine ⟨fun hp => absurd hp hfree, ?_⟩
      intro _ q hq
      exact (ha herr).kern ((hF q).mpr (Or.inr hq))
    · intro hh _
      refine ⟨by rw [huser], fun q hq => ?_, fun u _ hu => ?_⟩
      · rcases (hF q).mp hq with hq | hq
        · exact hq
        · exact hh.unallocated hfree q hq
      · rwa [hmem, hcr3] at hu

/-- A pool for the lowest 3 GiB. -/
def userPool : Bitmap := ⟨0xD0000000, 0x18000, 0⟩

/-- A user task whose directory lies in the first kernel page. -/
def userTask : Tcb := { Threads.zero.tcb 0 with userVmmPool := userPool, pdtVaddr := 0xC0000000 }

/-- One kernel page is mapped, the next one is free, and the page below `0xC0000000` is the only
free user page. -/
def lastPage : UserVmm Unit where
  kern := { onePage with poolMem := Function.update (kernPool 0x9000).blankMem 0x9000 (some 0x40) }
  userMem := Function.update userPool.blankMem 0xD0017FFF (some 1)
  eflags := 0x202

/-- A page manager without frames. -/
def noFrame (p : Unit) : Option (PmAlloc × Unit) := some (⟨0, 0, 0⟩, p)

theorem userPool_ok : userPool.Ok := by
  constructor <;> decide

theorem stored_lastPage : userPool.Stored lastPage.userMem :=
  userPool.stored_blankMem.update (i := 0x17FFF) (by decide) 1

theorem pooled_lastPage : lastPage.kern.Pooled :=
  ⟨⟨0x9000, rfl⟩, (kernPool 0x9000).stored_blankMem.update (i := 0) (by decide) 0x40⟩

theorem atomic_iff_harmless_lastPage : ∃ t,
    lastPage.vmmUserAllocOnePage noFrame userTask 0xC0001000 = some (userVmmAllocErro, t) ∧
      Atomic userTask lastPage t := by
  have hrun : (lastPage.vmmUserAllocOnePage noFrame userTask 0xC0001000).map
      (fun r => decide (r.1 = userVmmAllocErro)) = some true := by
    decide +kernel
  obtain ⟨⟨r, t⟩, hr, herr⟩ := Option.map_eq_some_iff.mp hrun
  obtain rfl := of_decide_eq_true herr
  have hout : userPool.pageIndex? 0xC0001000 = none := by decide
  have hharmless : Harmless noFrame userTask 0xC0001000 lastPage := by
    constructor
    · rintro ⟨q, hq, -⟩
      exact absurd (hout.symm.trans hq) (Option.some_ne_none q).symm
    · intro _ q hq
      obtain rfl := Option.some.inj hq
      exact ⟨by decide, 0x40, rfl, rfl⟩
  exact ⟨t, hr, (atomic_iff_harmless noFrame userTask 0xC0001000 _ lastPage t rfl userPool_ok
    stored_lastPage pooled_lastPage hr).mpr hharmless rfl⟩

/-- The last user page is taken from the pool, and without a frame for its page table it is lost. -/
theorem not_atomic_lastPage : ∃ t,
    lastPage.vmmUserAllocOnePage noFrame userTask 0xBFFFF000 = some (userVmmAllocErro, t) ∧
      ¬ Atomic userTask lastPage t := by
  have hrun : (lastPage.vmmUserAllocOnePage noFrame userTask 0xBFFFF000).map
      (fun r => decide (r.1 = userVmmAllocErro)) = some true := by
    decide +kernel
  obtain ⟨⟨r, t⟩, hr, herr⟩ := Option.map_eq_some_iff.mp hrun
  obtain rfl := of_decide_eq_true herr
  have hfree : PageFree userTask 0xBFFFF000 lastPage :=
    ⟨0xBFFFF, rfl, by decide, 1, rfl, rfl⟩
  obtain ⟨htaken, -⟩ := alloc_taken pooled_lastPage userPool_ok stored_lastPage rfl hfree hr
  exact ⟨t, hr, fun ha => htaken ha.user⟩

end UserVmm
end BHOS
