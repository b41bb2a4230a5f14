import Mathlib.Data.Finset.Basic
import BHOS.KernelCalls
import BHOS.KernelMapping

/-! # Pages that are never given out

A client of the kernel's allocator holds the pages that were returned to it and that it has not
released.  The pages of the kernel image, those of the last 4 MiB, where the page tables appear, and
those that clients hold are not free (`Guarded`).  One call with a storage of its own keeps that so;
`PoolStorage` has the runs, in which the storage lies in memory. -/

namespace BHOS

open Transition

/-- The page of an address. -/
def pageNo (a : UInt32) : ℕ := a.toNat / 4096

/-- The kernel's virtual memory and the pages its clients hold. -/
structure PoolClient (π : Type) where
  vmm : Vmm π
  live : Finset ℕ

namespace PoolClient

open Vmm

variable {π : Type} {alloc : π → Option (PmAlloc × π)} {c c' : PoolClient π} {s t : Vmm π}
  {dir a : UInt32} {op : KernOp} {used q : ℕ}

/-- A client holds the page of an address that was returned to it. -/
def receive (live : Finset ℕ) : UInt32 × Vmm π → PoolClient π
  | (a, s) => ⟨s, if a = kernVmmAllocErro then live else insert (pageNo a) live⟩

/-- Clients release pages they hold. -/
def Allowed : KernOp → PoolClient π → Prop
  | .releaseOnePage target, c => pageNo target ∈ c.live
  | _, _ => True

/-- An address that the call returns lies behind the kernel image and below the window of the
page tables, in a page that no client holds. -/
def Safe (alloc : π → Option (PmAlloc × π)) (used : ℕ) (op : KernOp) (c : PoolClient π) : Prop :=
  ∀ a t, Gives alloc a t op c.vmm → a ≠ kernVmmAllocErro →
    0xC0000000 + used * 4096 ≤ a.toNat ∧ a.toNat < 0xFFC00000 ∧ pageNo a ∉ c.live

/-! ### What a call returns -/

/-- Writing a word leaves the pool alone. -/
theorem freePages_write {v x : UInt32} (h : s.write v x = some t) : t.freePages = s.freePages := by
  obtain ⟨b, -, rfl⟩ := Option.map_eq_some_iff.mp h
  rfl

/-- The address that a call returns is in the page that the call takes from the pool. -/
theorem takes_of_gives (h : s.Ready dir) (hg : Gives alloc a t op s) (hne : a ≠ kernVmmAllocErro) :
    ∃ q, Takes op s q ∧ kernPage? a = some q ∧ t.freePages = s.freePages \ {q} := by
  cases h.pooled.given hg with
  | none herr _ => exact absurd herr hne
  | refused q d p m _ _ _ herr => exact absurd herr hne
  | mapped q d p m htakes _ _ hpage _ _ hF hw =>
      exact ⟨q, htakes, hpage, (freePages_write hw).trans hF⟩

/-! ### The pages that are never free -/

/-- The pages of the kernel image, those of the last 4 MiB and those that clients hold are not
free, and clients hold kernel pages below the last 4 MiB only. -/
structure Guarded (used : ℕ) (dir : UInt32) (c : PoolClient π) : Prop where
  ready : c.vmm.Ready dir
  image : ∀ q ∈ c.vmm.freePages, used ≤ q
  apart : ∀ q ∈ c.vmm.freePages, 0xC0000 + q ∉ c.live
  kernel : ∀ n ∈ c.live, ∃ q, n = 0xC0000 + q ∧ used ≤ q ∧ q < windowPage

theorem pageNo_eq (h : kernPage? a = some q) : pageNo a = 0xC0000 + q := by
  have h := kernPage_eq_some.mp h
  unfold pageNo
  omega

theorem kernPage_of_pageNo (h : pageNo a = 0xC0000 + q) : kernPage? a = some q := by
  unfold pageNo at h
  exact kernPage_eq_some.mpr ⟨by omega, by omega⟩

theorem Guarded.safe (h : c.Guarded used dir) : Safe alloc used op c := by
  intro a t hg hne
  obtain ⟨q, htakes, hq, -⟩ := takes_of_gives h.ready hg hne
  have hlow := h.image q htakes.free
  have hwin := h.ready.window q htakes.free
  have hpage := pageNo_eq hq
  refine ⟨?_, ?_, ?_⟩
  · unfold pageNo at hpage
    omega
  · unfold pageNo at hpage
    unfold windowPage at hwin
    omega
  · rw [hpage]
    exact h.apart q htakes.free

/-- An allocation: the free pages become fewer, and a client holds the page that was taken. -/
theorem Guarded.gives (h : c.Guarded used dir) (hg : Gives alloc a t op c.vmm) :
    (receive c.live (a, t)).Guarded used dir := by
  have hop : ∀ target, op ≠ .releaseOnePage target := by
    rintro target rfl
    exact hg
  have hallowed : Vmm.Allowed op c.vmm := by
    cases op with
    | releaseOnePage target => exact hg.elim
    | alloc => trivial
    | allocOnePage target => trivial
  obtain ⟨hr, heff⟩ := h.ready.effect_of_step hallowed (step_of_gives hg)
  have hF : t.freePages ⊆ c.vmm.freePages := by
    cases heff with
    | idle _ _ => exact subset_rfl
    | refused _ _ _ _ _ hF _ => exact hF.subset
    | mapped _ _ _ _ _ hF _ => exact hF ▸ Set.sdiff_subset
    | unmapped target _ hkind => exact absurd hkind (hop target)
  by_cases herr : a = kernVmmAllocErro
  · rw [receive, if_pos herr]
    exact ⟨hr, fun q hq => h.image q (hF hq), fun q hq => h.apart q (hF hq), h.kernel⟩
  · obtain ⟨q, htakes, hp, hq⟩ := takes_of_gives h.ready hg herr
    have hno : q ∉ t.freePages := by
      intro hmem
      rw [hq] at hmem
      exact hmem.2 rfl
    rw [receive, if_neg herr, pageNo_eq hp]
    refine ⟨hr, fun r hr => h.image r (hF hr), ?_, ?_⟩
    · intro r hr hmem
      rcases Finset.mem_insert.mp hmem with e | hmem
      · exact hno (Nat.add_left_cancel e ▸ hr)
      · exact h.apart r (hF hr) hmem
    · intro n hn
      rcases Finset.mem_insert.mp hn with rfl | hn
      · exact ⟨q, rfl, h.image q htakes.free, h.ready.window q htakes.free⟩
      · exact h.kernel n hn

/-- A release by a client that holds the page. -/
theorem Guarded.release (h : c.Guarded used dir) {target : UInt32} (hm : pageNo target ∈ c.live)
    (ht : vmmKernReleaseOnePage c.vmm target = some t) :
    (⟨t, c.live.erase (pageNo target)⟩ : PoolClient π).Guarded used dir := by
  obtain ⟨q, hpage, hlow, hwin⟩ := h.kernel _ hm
  have hp : kernPage? target = some q := kernPage_of_pageNo hpage
  obtain ⟨t', ht', hr, hF, -⟩ := h.ready.release_free hp hwin
  obtain rfl := Option.some.inj (ht'.symm.trans ht)
  refine ⟨hr, ?_, ?_, fun n hn => h.kernel n (Finset.mem_of_mem_erase hn)⟩
  · intro r hr
    rcases Set.mem_insert_iff.mp (hF ▸ hr) with rfl | hr
    · exact hlow
    · exact h.image r hr
  · intro r hr hmem
    rcases Set.mem_insert_iff.mp (hF ▸ hr) with rfl | hr
    · exact (Finset.mem_erase.mp hmem).1 hpage.symm
    · exact h.apart r hr (Finset.mem_of_mem_erase hmem)

end PoolClient
end BHOS
