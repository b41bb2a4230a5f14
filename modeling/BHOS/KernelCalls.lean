import BHOS.VmmSteps

/-! # Calls of the kernel's allocator in any address space

`VmmSteps` describes the calls while the kernel's own directory is loaded.  A user task calls the
same functions under its directory.  Here only the pool is known (`Pooled`); `Given` lists how an
allocation that returns has ended, with the one word it wrote as a virtual address. -/

namespace BHOS
namespace Vmm

variable {π : Type} {alloc : π → Option (PmAlloc × π)} {s t : Vmm π} {op : KernOp}
  {a v target : UInt32} {q : ℕ}

/-- Releasing a page makes it free. -/
theorem Pooled.releaseOnePage_eq (h : s.Pooled) (v : UInt32) :
    ∃ m, s.kernVmmPool.releaseOnePage v s.poolMem = some m ∧ s.kernVmmPool.Stored m ∧
      ∀ q, q ∈ s.kernVmmPool.freeSet m ↔ q ∈ s.freePages ∨ kernPage? v = some q := by
  cases hp : kernPage? v with
  | none =>
      refine ⟨s.poolMem, h.ok.releaseOnePage_out ((h.pageIndex v).trans hp), h.stored, ?_⟩
      intro q
      exact (or_iff_left (fun e => nomatch e)).symm
  | some p =>
      obtain ⟨m, hm, hs, hF⟩ := h.release_page hp
      refine ⟨m, hm, hs, ?_⟩
      intro q
      rw [hF, Set.mem_insert_iff, Option.some.injEq, or_comm, eq_comm]

/-- The call is an allocation that returns `a` in the state `t`. -/
def Gives (alloc : π → Option (PmAlloc × π)) (a : UInt32) (t : Vmm π) : KernOp → Vmm π → Prop
  | .alloc, s => vmmKernAlloc alloc s = some (a, t)
  | .allocOnePage target, s => vmmKernAllocOnePage alloc s target = some (a, t)
  | .releaseOnePage _, _ => False

/-- How an allocation ends: there is no page to take; there is no frame for the page, which goes
back to the pool; the frame is written into the entry of the page. -/
inductive Given (alloc : π → Option (PmAlloc × π)) (op : KernOp) (s : Vmm π) (a : UInt32) :
    Vmm π → Prop
  | none (error : a = kernVmmAllocErro) (none : ∀ q, ¬ Takes op s q) : Given alloc op s a s
  | refused (q : ℕ) (d : PmAlloc) (p : π) (m : ByteMem) (takes : Takes op s q)
      (frame : alloc s.pmm = some (d, p)) (state : d.state = 0) (error : a = kernVmmAllocErro)
      (stored : s.kernVmmPool.Stored m) (free : s.kernVmmPool.freeSet m = s.freePages) :
      Given alloc op s a { s with pmm := p, poolMem := m }
  | mapped {t : Vmm π} (q : ℕ) (d : PmAlloc) (p : π) (m : ByteMem) (takes : Takes op s q)
      (frame : alloc s.pmm = some (d, p)) (state : d.state ≠ 0) (page : kernPage? a = some q)
      (addr : op = .alloc → a = kernAddr q)
      (stored : s.kernVmmPool.Stored m) (free : s.kernVmmPool.freeSet m = s.freePages \ {q})
      (write : ({ s with pmm := p, poolMem := m } : Vmm π).write (getPte a) (kernDesc d.addr) =
        some t) : Given alloc op s a t

/-- The part of an allocation that follows after page `q` was taken from the pool. -/
theorem Pooled.given_of_mapPage (h : s.Pooled) {m : ByteMem} (htakes : Takes op s q)
    (hq : kernPage? target = some q) (haddr : op = .alloc → target = kernAddr q)
    (hs : s.kernVmmPool.Stored m) (hF : s.kernVmmPool.freeSet m = s.freePages \ {q})
    (hr : mapPage alloc { s with poolMem := m } target = some (a, t)) : Given alloc op s a t := by
  obtain ⟨d, p, hd, ⟨hst, rfl, m', hm', rfl⟩ | ⟨hst, rfl, hw⟩⟩ := mapPage_cases hr
  · have h' : Pooled { s with poolMem := m } := ⟨h.pool, hs⟩
    obtain ⟨m'', hm'', hs', hF'⟩ := h'.releaseOnePage_eq target
    obtain rfl := Option.some.inj (hm''.symm.trans hm')
    refine .refused q d p m'' htakes hd hst rfl hs' ?_
    ext r
    rw [hF' r, hq, freePages, hF, Set.mem_sdiff, Set.mem_singleton_iff, Option.some.injEq]
    constructor
    · rintro (hr | rfl)
      · exact hr.1
      · exact htakes.free
    · intro hr
      by_cases he : r = q
      · exact Or.inr he.symm
      · exact Or.inl ⟨hr, he⟩
  · exact .mapped q d p m htakes hd hst hq haddr hs hF hw

/-- Every allocation that returns ends in one of the three ways. -/
theorem Pooled.given (h : s.Pooled) (hg : Gives alloc a t op s) : Given alloc op s a t := by
  have herr : ∀ {q}, q < 256 * 1024 → kernAddr q ≠ bitmapReturnErro := fun hq =>
    (kernPool_ok 0).pageAddr_ne_erro hq
  cases op with
  | alloc =>
      unfold Gives vmmKernAlloc at hg
      rcases h.alloc_eq with ⟨hnil, he⟩ | ⟨q, m, hq, hmin, he, hs, hF⟩
      · simp only [he, Option.bind_eq_bind, Option.bind_some, if_true, Option.some.injEq,
          Prod.mk.injEq] at hg
        obtain ⟨rfl, rfl⟩ := hg
        refine .none rfl ?_
        intro q hq
        rw [Takes, hnil] at hq
        exact hq.1
      · have hpage : q < 256 * 1024 := h.page_lt hq
        simp only [he, Option.bind_eq_bind, Option.bind_some, if_neg (herr hpage)] at hg
        have htakes : Takes .alloc s q := ⟨hq, hmin⟩
        exact h.given_of_mapPage htakes (kernPage_kernAddr hpage) (fun _ => rfl) hs hF hg
  | allocOnePage target =>
      unfold Gives vmmKernAllocOnePage at hg
      have hbusy : s.kernVmmPool.allocOnePage target s.poolMem =
          some (bitmapReturnErro, s.poolMem) → a = kernVmmAllocErro ∧ t = s := by
        intro he
        simp only [he, Option.bind_eq_bind, Option.bind_some, if_true, Option.some.injEq,
          Prod.mk.injEq] at hg
        exact ⟨hg.1.symm, hg.2.symm⟩
      cases hp : kernPage? target with
      | none =>
          obtain ⟨rfl, rfl⟩ := hbusy (h.ok.allocOnePage_out ((h.pageIndex target).trans hp))
          refine .none rfl ?_
          intro q hq
          exact absurd (hq.1.symm.trans hp) (Option.some_ne_none q)
      | some q =>
          obtain ⟨m, hs, hin, hout⟩ := h.allocOnePage_eq hp
          by_cases hq : q ∈ s.freePages
          · have hpage : q < 256 * 1024 := kernPage_lt hp
            obtain ⟨he, hF⟩ := hin hq
            simp only [he, Option.bind_eq_bind, Option.bind_some, if_neg (herr hpage)] at hg
            exact h.given_of_mapPage ⟨hp, hq⟩ hp (by simp) hs hF hg
          · obtain ⟨rfl, rfl⟩ := hbusy (hout hq)
            refine .none rfl fun r hr => hq ?_
            obtain rfl := Option.some.inj (hp.symm.trans hr.1)
            exact hr.2
  | releaseOnePage target => exact hg.elim

theorem step_of_gives (hg : Gives alloc a t op s) : Vmm.step alloc op s = some t := by
  cases op with
  | alloc => exact Option.map_eq_some_iff.mpr ⟨(a, t), hg, rfl⟩
  | allocOnePage target => exact Option.map_eq_some_iff.mpr ⟨(a, t), hg, rfl⟩
  | releaseOnePage target => exact hg.elim

end Vmm
end BHOS
