import BHOS.KernelMapping
import BHOS.UserAlloc
import BHOS.UserPdt

/-! # The bitmap of a user task (`user_task.c`)

`create_user_task_bitmap` needs 24 consecutive kernel pages.  It takes the first with
`vmm_kern_alloc`, that is the lowest free page, and asks for the 23 behind it; when one of them is
taken it does not return (`none`).  So it finds a run of 24 free pages only where the lowest free
page starts one (`LowestRun`), however many there are further up.

The page tables are those of `set_page`, which repeat after 64 MiB: a run a multiple of 64 MiB from a
page of the kernel image would take the place of that page, and with it of data of the kernel. -/

namespace BHOS
namespace Vmm

open Transition

section source

variable {π : Type} (alloc : π → Option (PmAlloc × π)) (s : Vmm π)

/-- `memset` with 255, of so many words from a virtual address on. -/
def memsetOnes : ℕ → UInt32 → Vmm π → Option (Vmm π)
  | 0, _, s => some s
  | n + 1, dest, s => do
      let s ← s.write dest 0xFFFFFFFF
      memsetOnes n (dest + 4) s

/-- `bitmap_init_mem`, when the storage of the bitmap is reached through the page tables. -/
def bitmapInitMem (bm : Bitmap) : Option (Vmm π) :=
  memsetOnes (bm.length / 4).toNat bm.vaddrHeader s

/-- The loop of `create_user_task_bitmap`, with the `alloc_flag` it ends with. -/
def allocPages : ℕ → UInt32 → Vmm π → Option (Bool × Vmm π)
  | 0, _, s => some (true, s)
  | n + 1, addrFor, s => do
      let (vaddr, s) ← s.vmmKernAllocOnePage alloc addrFor
      if vaddr = kernVmmAllocErro then some (false, s) else allocPages n (addrFor + 0x1000) s

/-- `create_user_task_bitmap`; it does not return from its two error loops. -/
def createUserTaskBitmap : Option (Bitmap × Vmm π) := do
  let (vmHead, s) ← s.vmmKernAlloc alloc
  if vmHead = kernVmmAllocErro then none
  else do
    let (allocFlag, s) ← allocPages alloc 23 (vmHead + 0x1000) s
    if allocFlag then do
      let reBitmap : Bitmap := ⟨vmHead, 0x00018000, 0x00000000⟩
      let s ← s.bitmapInitMem reBitmap
      some (reBitmap, s)
    else none

end source

variable {π : Type} {alloc : π → Option (PmAlloc × π)} {s t u : Vmm π} {n q r k w used : ℕ}
  {d : PmAlloc} {p p' : π} {F dir a x : UInt32} {b : ByteMem}

/-! ### Requests for one page in a row -/

variable (alloc) in
/-- The page manager hands out a frame so many times in a row. -/
def serves : ℕ → π → Bool
  | 0, _ => true
  | n + 1, p => (alloc p).any fun r => r.1.state != 0 && serves n r.2

variable (alloc) in
/-- The frames that it hands out. -/
def handed : ℕ → π → List UInt32
  | 0, _ => []
  | n + 1, p =>
      match alloc p with
      | none => []
      | some (d, p') => frame d.addr :: handed n p'

theorem serves_succ : serves alloc (n + 1) p = true ↔
    ∃ d p', alloc p = some (d, p') ∧ d.state ≠ 0 ∧ serves alloc n p' = true := by
  rw [serves]
  cases h : alloc p with
  | none =>
      constructor
      · intro hf
        cases hf
      · rintro ⟨d, p', hd, -⟩
        cases hd
  | some r =>
      rw [Option.any_some, Bool.and_eq_true, bne_iff_ne]
      constructor
      · intro hr
        exact ⟨r.1, r.2, rfl, hr⟩
      · rintro ⟨d, p', hd, hr⟩
        obtain rfl := Option.some.inj hd
        exact hr

theorem handed_succ (hd : alloc p = some (d, p')) :
    handed alloc (n + 1) p = frame d.addr :: handed alloc n p' := by
  rw [handed, hd]

/-! ### One page -/

/-- The page `q` was free and is now mapped to the frame that was handed out, and no other word of
memory has changed. -/
structure EntryMapped (alloc : π → Option (PmAlloc × π)) (dir : UInt32) (s t : Vmm π) (q : ℕ)
    (d : PmAlloc) : Prop where
  free : q ∈ s.freePages
  taken : t.freePages = s.freePages \ {q}
  ready : t.Ready dir
  handed : alloc s.pmm = some (d, t.pmm) ∧ d.state ≠ 0
  mem : t.mem = Function.update s.mem (slot dir q) (kernDesc d.addr)

/-- The frame is that of the request. -/
theorem EntryMapped.pmm_eq {d' : PmAlloc} (hm : EntryMapped alloc dir s t q d)
    (hd : alloc s.pmm = some (d', p')) : t.pmm = p' :=
  (Prod.mk.inj (Option.some.inj (hm.handed.1.symm.trans hd))).2

/-- What an allocation returns that took a free page. -/
theorem Ready.answer_cases (h : s.Ready dir) (hq : q ∈ s.freePages) (hs : s.kernVmmPool.Stored b)
    (hF : s.kernVmmPool.freeSet b = s.freePages \ {q}) {call : Option (UInt32 × Vmm π)}
    (he : call = (alloc s.pmm).map (s.answer a (slot dir q) b)) :
    (∀ d p', alloc s.pmm = some (d, p') → d.state ≠ 0 →
      ∃ t, call = some (a, t) ∧ EntryMapped alloc dir s t q d) ∧
    ∀ a' t, call = some (a', t) → a' ≠ kernVmmAllocErro →
      ∃ d, a' = a ∧ EntryMapped alloc dir s t q d := by
  have hmapped : ∀ d p', alloc s.pmm = some (d, p') → d.state ≠ 0 → EntryMapped alloc dir s
      { s with pmm := p', poolMem := b, mem := Function.update s.mem (slot dir q) (kernDesc d.addr) }
      q d := by
    intro d p' hd hst
    refine ⟨hq, hF, ⟨h.cr3, h.tables.update_slot q _, h.pool, hs, ?_⟩, ⟨hd, hst⟩, rfl⟩
    intro r hr
    simp only [freePages, hF] at hr
    exact h.window r hr.1
  obtain ⟨hgives, hgiven⟩ := Vmm.answer_cases he
  constructor
  · intro d p' hd hst
    exact ⟨_, hgives d p' hd hst, hmapped d p' hd hst⟩
  · intro a' t hr hne
    obtain ⟨d, p', hd, hst, rfl, rfl⟩ := hgiven a' t hr hne
    exact ⟨d, rfl, hmapped d p' hd hst⟩

/-- The lowest free page is mapped when there is a frame. -/
theorem Ready.vmmKernAlloc_mapped (h : s.Ready dir) (ht : Takes .alloc s q)
    (hd : alloc s.pmm = some (d, p')) (hst : d.state ≠ 0) :
    ∃ t, vmmKernAlloc alloc s = some (kernAddr q, t) ∧ EntryMapped alloc dir s t q d := by
  obtain ⟨hpde, hpte⟩ := h.translate_entries (kernPage_kernAddr (h.pooled.page_lt ht.free))
    (h.window q ht.free)
  obtain ⟨m, hs, hF, he⟩ := h.pooled.vmmKernAlloc_eq alloc ht hpde hpte
  exact (h.answer_cases ht.free hs hF he).1 d p' hd hst

/-- A page that is asked for is mapped when it is free and there is a frame. -/
theorem Ready.vmmKernAllocOnePage_mapped (h : s.Ready dir) (hq : q ∈ s.freePages)
    (hd : alloc s.pmm = some (d, p')) (hst : d.state ≠ 0) :
    ∃ t, vmmKernAllocOnePage alloc s (kernAddr q) = some (kernAddr q, t) ∧
      EntryMapped alloc dir s t q d := by
  have hp : kernPage? (kernAddr q) = some q := kernPage_kernAddr (h.pooled.page_lt hq)
  obtain ⟨hpde, hpte⟩ := h.translate_entries hp (h.window q hq)
  obtain ⟨m, hs, hF, he⟩ := h.pooled.vmmKernAllocOnePage_eq alloc ⟨hp, hq⟩ hpde hpte
  exact (h.answer_cases hq hs hF he).1 d p' hd hst

/-- An address that `vmm_kern_alloc` returns is that of the lowest free page. -/
theorem Ready.mapped_of_vmmKernAlloc (h : s.Ready dir)
    (hr : vmmKernAlloc alloc s = some (a, t)) (hne : a ≠ kernVmmAllocErro) :
    ∃ q d, Takes .alloc s q ∧ a = kernAddr q ∧ EntryMapped alloc dir s t q d := by
  by_cases hfree : s.freePages.Nonempty
  · have ht := takes_sInf hfree
    obtain ⟨hpde, hpte⟩ := h.translate_entries (kernPage_kernAddr (h.pooled.page_lt ht.free))
      (h.window _ ht.free)
    obtain ⟨m, hs, hF, he⟩ := h.pooled.vmmKernAlloc_eq alloc ht hpde hpte
    obtain ⟨d, ha, hm⟩ := (h.answer_cases ht.free hs hF he).2 a t hr hne
    exact ⟨_, d, ht, ha, hm⟩
  · rw [h.pooled.vmmKernAlloc_none (Set.not_nonempty_iff_eq_empty.mp hfree)] at hr
    exact absurd (Prod.mk.inj (Option.some.inj hr)).1.symm hne

/-- An address that `vmm_kern_alloc_one_page` returns is that of a page that was free. -/
theorem Ready.mapped_of_vmmKernAllocOnePage (h : s.Ready dir) (hq : q < 256 * 1024)
    (hr : vmmKernAllocOnePage alloc s (kernAddr q) = some (a, t)) (hne : a ≠ kernVmmAllocErro) :
    ∃ d, EntryMapped alloc dir s t q d := by
  have hp : kernPage? (kernAddr q) = some q := kernPage_kernAddr hq
  by_cases hfree : q ∈ s.freePages
  · obtain ⟨hpde, hpte⟩ := h.translate_entries hp (h.window q hfree)
    obtain ⟨m, hs, hF, he⟩ := h.pooled.vmmKernAllocOnePage_eq alloc ⟨hp, hfree⟩ hpde hpte
    obtain ⟨d, -, hm⟩ := (h.answer_cases hfree hs hF he).2 a t hr hne
    exact ⟨d, hm⟩
  · have hno : ∀ r ∈ s.freePages, kernPage? (kernAddr q) ≠ some r := by
      intro r hrf e
      obtain rfl := Option.some.inj (hp.symm.trans e)
      exact hfree hrf
    rw [h.pooled.vmmKernAllocOnePage_none hno] at hr
    exact absurd (Prod.mk.inj (Option.some.inj hr)).1.symm hne

theorem kernAddr_succ (hq : q + 1 < 256 * 1024) : kernAddr q + 0x1000 = kernAddr (q + 1) := by
  have h₁ := kernAddr_toNat (q := q) (by omega)
  have h₂ := kernAddr_toNat hq
  rw [← UInt32.toNat_inj, UInt32.toNat_add, h₁, h₂]
  simp only [UInt32.reduceToNat]
  omega

theorem EntryMapped.succ_lt (hm : EntryMapped alloc dir s t q d) (h : s.Ready dir) :
    q + 1 < 256 * 1024 := by
  have hw := h.window q hm.free
  unfold windowPage at hw
  omega

/-! ### The loop -/

/-- The `n` pages from `q` on were free and are now mapped to frames that were handed out; the other
pages keep their state and the other words of memory their values. -/
structure Taken (alloc : π → Option (PmAlloc × π)) (dir : UInt32) (s t : Vmm π) (q n : ℕ) :
    Prop where
  ready : t.Ready dir
  free : ∀ i < n, q + i ∈ s.freePages
  rest : t.freePages = s.freePages \ {r | q ≤ r ∧ r < q + n}
  mapped : ∀ i < n, ∃ addr, frame addr ∈ handed alloc n s.pmm ∧
    t.mem (slot dir (q + i)) = kernDesc addr
  words : ∀ x, (∀ i < n, x ≠ slot dir (q + i)) → t.mem x = s.mem x

theorem Taken.zero (h : s.Ready dir) (q : ℕ) : Taken alloc dir s s q 0 := by
  refine ⟨h, ?_, ?_, ?_, fun _ _ => rfl⟩
  · intro i hi
    omega
  · have hnone : {r | q ≤ r ∧ r < q + 0} = (∅ : Set ℕ) := by
      ext r
      simp only [Set.mem_ofPred_eq, Set.mem_empty_iff_false, iff_false]
      omega
    rw [hnone, Set.sdiff_empty]
  · intro i hi
    omega

/-- One page more in front; so few pages have words of their own. -/
theorem Taken.cons (h : s.Ready dir) (hm : EntryMapped alloc dir s u q d)
    (ht : Taken alloc dir u t (q + 1) n) (hn : n < aliasPages) : Taken alloc dir s t q (n + 1) := by
  have hframes := handed_succ (n := n) hm.handed.1
  refine ⟨ht.ready, ?_, ?_, ?_, ?_⟩
  · intro i hi
    cases i with
    | zero => exact hm.free
    | succ i =>
        have hi := ht.free i (by omega)
        rw [hm.taken] at hi
        rw [add_comm i, ← add_assoc]
        exact hi.1
  · ext r
    rw [ht.rest, hm.taken]
    simp only [Set.mem_sdiff, Set.mem_singleton_iff, Set.mem_ofPred_eq]
    constructor
    · rintro ⟨⟨hr, hne⟩, hno⟩
      exact ⟨hr, by omega⟩
    · rintro ⟨hr, hno⟩
      exact ⟨⟨hr, by omega⟩, by omega⟩
  · intro i hi
    rw [hframes]
    cases i with
    | zero =>
        refine ⟨d.addr, List.mem_cons_self, ?_⟩
        have hother : ∀ i < n, slot dir (q + 0) ≠ slot dir (q + 1 + i) := by
          intro i hi e
          have halias := h.tables.slot_eq_iff.mp e
          unfold aliasPages at hn halias
          omega
        rw [ht.words _ hother, hm.mem, add_zero, Function.update_self]
    | succ i =>
        obtain ⟨addr, hf, hx⟩ := ht.mapped i (by omega)
        rw [add_comm i, ← add_assoc]
        exact ⟨addr, List.mem_cons_of_mem _ hf, hx⟩
  · intro x hx
    have hfirst := hx 0 (Nat.succ_pos n)
    rw [add_zero] at hfirst
    rw [ht.words x, hm.mem, Function.update_of_ne hfirst]
    intro i hi
    rw [add_assoc, add_comm 1]
    exact hx (i + 1) (by omega)

/-- Where the first page of a run was mapped, the others are still free. -/
theorem EntryMapped.free_succ (hm : EntryMapped alloc dir s u q d)
    (hfree : ∀ i < n + 1, q + i ∈ s.freePages) : ∀ i < n, q + 1 + i ∈ u.freePages := by
  intro i hi
  rw [hm.taken]
  refine ⟨?_, ?_⟩
  · rw [add_assoc, add_comm 1]
    exact hfree (i + 1) (by omega)
  · rw [Set.mem_singleton_iff]
    omega

/-- A run of the loop that ends with `alloc_flag` set begins with a page that is mapped. -/
theorem Ready.allocPages_succ (h : s.Ready dir) (hq : q < 256 * 1024)
    (hr : allocPages alloc (n + 1) (kernAddr q) s = some (true, t)) :
    ∃ d u, EntryMapped alloc dir s u q d ∧
      allocPages alloc n (kernAddr (q + 1)) u = some (true, t) := by
  obtain ⟨⟨a, u⟩, hu, hrest⟩ := Option.bind_eq_some_iff.mp hr
  by_cases ha : a = kernVmmAllocErro
  · simp only [if_pos ha, Option.some.injEq, Prod.mk.injEq, Bool.false_eq_true, false_and] at hrest
  · simp only [if_neg ha] at hrest
    obtain ⟨d, hm⟩ := h.mapped_of_vmmKernAllocOnePage hq hu ha
    rw [kernAddr_succ (hm.succ_lt h)] at hrest
    exact ⟨d, u, hm, hrest⟩

variable (alloc) in
/-- The loop ends with `alloc_flag` set exactly when the pages are free and there are frames. -/
theorem allocPages_iff (h : s.Ready dir) (hq : q < 256 * 1024) (hn : n ≤ aliasPages) :
    ((∃ t, allocPages alloc n (kernAddr q) s = some (true, t)) ↔
      (∀ i < n, q + i ∈ s.freePages) ∧ serves alloc n s.pmm = true) ∧
    ∀ t, allocPages alloc n (kernAddr q) s = some (true, t) → Taken alloc dir s t q n := by
  induction n generalizing s q with
  | zero =>
      refine ⟨iff_of_true ⟨s, rfl⟩ ⟨fun i hi => absurd hi (Nat.not_lt_zero i), rfl⟩, ?_⟩
      intro t ht
      obtain ⟨-, rfl⟩ := Prod.mk.inj (Option.some.inj ht)
      exact Taken.zero h q
  | succ n ih =>
      refine ⟨⟨?_, ?_⟩, ?_⟩
      · rintro ⟨t, ht⟩
        obtain ⟨d, u, hm, hrest⟩ := h.allocPages_succ hq ht
        obtain ⟨hiff, htaken⟩ := ih hm.ready (hm.succ_lt h) (by omega)
        obtain ⟨-, hs⟩ := hiff.mp ⟨t, hrest⟩
        exact ⟨(Taken.cons h hm (htaken t hrest) (by omega)).free,
          serves_succ.mpr ⟨d, u.pmm, hm.handed.1, hm.handed.2, hs⟩⟩
      · rintro ⟨hfree, hserves⟩
        have hfirst : q ∈ s.freePages := hfree 0 (Nat.succ_pos n)
        obtain ⟨d, p', hd, hst, hs⟩ := serves_succ.mp hserves
        obtain ⟨u, hu, hm⟩ := h.vmmKernAllocOnePage_mapped hfirst hd hst
        have hp := hm.pmm_eq hd
        obtain ⟨t, ht⟩ := (ih hm.ready (hm.succ_lt h) (by omega)).1.mpr
          ⟨hm.free_succ hfree, hp ▸ hs⟩
        have hne : kernAddr q ≠ kernVmmAllocErro := (kernPool_ok 0).pageAddr_ne_erro hq
        refine ⟨t, ?_⟩
        simp only [allocPages, hu, Option.bind_eq_bind, Option.bind_some, if_neg hne,
          kernAddr_succ (hm.succ_lt h), ht]
      · intro t ht
        obtain ⟨d, u, hm, hrest⟩ := h.allocPages_succ hq ht
        exact Taken.cons h hm ((ih hm.ready (hm.succ_lt h) (by omega)).2 t hrest) (by omega)

/-! ### Clearing the storage -/

theorem word_kernAddr_toNat (hk : q + k / 1024 < 256 * 1024) :
    (word (kernAddr q) k).toNat = 0xC0000000 + q * 4096 + 4 * k := by
  have haddr := kernAddr_toNat (q := q) (by omega)
  simp only [word, UInt32.toNat_add, UInt32.toNat_mul, UInt32.toNat_ofNat', haddr,
    UInt32.reduceToNat]
  omega

/-- Words are written in pages that are mapped outside the tables. -/
theorem memsetOnes_eq (h : t.Ready dir) (hq : q + n ≤ windowPage)
    (hmap : ∀ i < n, Present (t.mem (slot dir (q + i))) ∧
      OutsideTables dir (frame (t.mem (slot dir (q + i))))) (hk : k + w ≤ n * 1024) :
    ∃ u, memsetOnes w (word (kernAddr q) k) t = some u ∧ SamePools t u ∧ u.Ready dir ∧
      ∀ r, u.mem (slot dir r) = t.mem (slot dir r) := by
  induction w generalizing t k with
  | zero => exact ⟨t, rfl, ⟨rfl, rfl, rfl⟩, h, fun _ => rfl⟩
  | succ w ih =>
      have hlast := hq
      unfold windowPage at hlast
      have hi : k / 1024 < n := by omega
      have hword := word_kernAddr_toNat (q := q) (k := k) (by omega)
      have hpage : kernPage? (word (kernAddr q) k) = some (q + k / 1024) :=
        kernPage_eq_some.mpr ⟨by omega, by omega⟩
      obtain ⟨hp, hout⟩ := hmap (k / 1024) hi
      have htrans := h.tables.translate_eq hpage (by omega)
      rw [if_pos hp] at htrans
      obtain ⟨htables, hslots⟩ := h.tables.update_outside
        (hout.word h.tables.aligned (word (kernAddr q) k)) 0xFFFFFFFF
      generalize frame (t.mem (slot dir (q + k / 1024))) + (word (kernAddr q) k &&& 0xFFF) = x
        at htrans htables hslots
      have hwrite : t.write (word (kernAddr q) k) 0xFFFFFFFF =
          some { t with mem := Function.update t.mem x 0xFFFFFFFF } := by
        rw [write, h.cr3, htrans, Option.map_some]
      have hready : Ready { t with mem := Function.update t.mem x 0xFFFFFFFF } dir :=
        ⟨h.cr3, htables, h.pool, h.stored, h.window⟩
      obtain ⟨u, hu, hpools, hr, hsame⟩ := ih hready (k := k + 1) (fun i hi => by
        dsimp only
        rw [hslots]
        exact hmap i hi) (by omega)
      refine ⟨u, ?_, ⟨hpools.pool, hpools.poolMem, hpools.pmm⟩, hr, fun r => ?_⟩
      · simp only [memsetOnes, hwrite, Option.bind_eq_bind, Option.bind_some, word_succ, hu]
      · exact (hsame r).trans (hslots r)

/-! ### The bitmap -/

/-- The lowest free page starts a run of 24 free pages, none of them a multiple of 64 MiB from a
page of the kernel image. -/
def LowestRun (used : ℕ) (s : Vmm π) : Prop :=
  ∃ q, (∀ r ∈ s.freePages, q ≤ r) ∧ ∀ i < 24, q + i ∈ s.freePages ∧ used ≤ (q + i) % aliasPages

/-- The storage of the bitmap is in the 24 pages from `q` on, which were free and are now
allocated; all others keep their state, and the pages of the kernel image their frames. -/
structure BitmapAt (used : ℕ) (s t : Vmm π) (bm : Bitmap) (q : ℕ) : Prop where
  length : bm.length = 0x18000
  target : bm.targetAddrHeader = 0
  storage : ∀ k < 0x18000, kernPage? (bm.vaddrHeader + UInt32.ofNat k) = some (q + k / 4096)
  free : ∀ i < 24, q + i ∈ s.freePages
  rest : t.freePages = s.freePages \ {r | q ≤ r ∧ r < q + 24}
  image : ∀ r < used, t.frameOf r = s.frameOf r

/-- A frame that is neither one of the tables nor mapped by an allocated page. -/
structure Unused (dir : UInt32) (s : Vmm π) (F : UInt32) : Prop where
  outside : OutsideTables dir F
  apart : ∀ r, s.Allocated r → s.frameOf r ≠ some F

/-- What the function has mapped when it returns: 24 pages from the lowest free page on, whose words
the memory keeps. -/
structure Found (alloc : π → Option (PmAlloc × π)) (dir : UInt32) (s t : Vmm π) (q : ℕ) :
    Prop where
  lowest : ∀ r ∈ s.freePages, q ≤ r
  serves : serves alloc 24 s.pmm = true
  taken : ∃ v, Taken alloc dir s v q 24 ∧
    bitmapInitMem v ⟨kernAddr q, 0x18000, 0⟩ = some t

/-- What the function did when it returns. -/
theorem createUserTaskBitmap_taken (h : s.Ready dir) {bm : Bitmap}
    (hr : createUserTaskBitmap alloc s = some (bm, t)) :
    ∃ q, bm = ⟨kernAddr q, 0x18000, 0⟩ ∧ Found alloc dir s t q := by
  obtain ⟨⟨a, u⟩, hu, hrest⟩ := Option.bind_eq_some_iff.mp hr
  by_cases ha : a = kernVmmAllocErro
  · simp only [if_pos ha] at hrest
    cases hrest
  · simp only [if_neg ha] at hrest
    obtain ⟨q, d, ht, rfl, hm⟩ := h.mapped_of_vmmKernAlloc hu ha
    rw [kernAddr_succ (hm.succ_lt h)] at hrest
    obtain ⟨⟨flag, v⟩, hv, hrest⟩ := Option.bind_eq_some_iff.mp hrest
    cases flag with
    | false => cases hrest
    | true =>
        obtain ⟨hiff, htaken⟩ := allocPages_iff alloc (n := 23) hm.ready (hm.succ_lt h) (by decide)
        obtain ⟨-, hs⟩ := hiff.mp ⟨v, hv⟩
        obtain ⟨t', ht', hrest⟩ := Option.bind_eq_some_iff.mp hrest
        obtain ⟨rfl, rfl⟩ := Prod.mk.inj (Option.some.inj hrest)
        exact ⟨q, rfl, ht.2, serves_succ.mpr ⟨d, u.pmm, hm.handed.1, hm.handed.2, hs⟩, v,
          Taken.cons h hm (htaken v hv) (by decide), ht'⟩

/-- Clearing the storage keeps the pool and the words of the page tables. -/
theorem Taken.bitmapInitMem_eq {v : Vmm π} (hv : Taken alloc dir s v q 24) (h : s.Ready dir)
    (hunused : ∀ F ∈ handed alloc 24 s.pmm, Unused dir s F) :
    ∃ t, bitmapInitMem v ⟨kernAddr q, 0x18000, 0⟩ = some t ∧ SamePools v t ∧ t.Ready dir ∧
      ∀ r, t.mem (slot dir r) = v.mem (slot dir r) := by
  have hlast := h.window _ (hv.free 23 (by decide))
  have hmap : ∀ i < 24, Present (v.mem (slot dir (q + i))) ∧
      OutsideTables dir (frame (v.mem (slot dir (q + i)))) := by
    intro i hi
    obtain ⟨addr, hF, hx⟩ := hv.mapped i hi
    rw [hx, frame_kernDesc]
    exact ⟨present_kernDesc addr, (hunused _ hF).outside⟩
  have hwords : ((0x18000 : UInt32) / 4).toNat = 0x6000 := by decide
  have hhead : word (kernAddr q) 0 = kernAddr q := by
    unfold windowPage at hlast
    rw [← UInt32.toNat_inj, word_kernAddr_toNat (by omega), kernAddr_toNat (by omega)]
    omega
  obtain ⟨t, ht, hrest⟩ := memsetOnes_eq (k := 0) (w := 0x6000) hv.ready
    (show q + 24 ≤ windowPage by omega) hmap (by decide)
  rw [hhead] at ht
  exact ⟨t, by rw [bitmapInitMem, hwords, ht], hrest⟩

/-- A page of the image keeps its frame unless it shares its word with one of the pages. -/
theorem Taken.frameOf_eq {v : Vmm π} (hv : Taken alloc dir s v q n) (h : s.Ready dir)
    (ht : t.Ready dir) (hslots : ∀ r, t.mem (slot dir r) = v.mem (slot dir r)) (hr : r < windowPage)
    (hne : ∀ i < n, (q + i) % aliasPages ≠ r % aliasPages) : t.frameOf r = s.frameOf r := by
  have hword : v.mem (slot dir r) = s.mem (slot dir r) :=
    hv.words _ fun i hi e => hne i hi (h.tables.slot_eq_iff.mp e).symm
  rw [ht.frameOf_eq hr, h.frameOf_eq hr, hslots, hword]

/-- **`create_user_task_bitmap` finds its storage**, and leaves the kernel image where it is,
exactly when the lowest free page starts a run of 24 free pages away from the image and the page
manager hands out a frame 24 times in a row. -/
theorem finds_iff_lowestRun (alloc : π → Option (PmAlloc × π)) (s : Vmm π) (h : s.Ready dir)
    (hused : used ≤ 1024) (himage : ∀ r < used, s.Allocated r)
    (hunused : ∀ F ∈ handed alloc 24 s.pmm, Unused dir s F) :
    (∃ bm t q, createUserTaskBitmap alloc s = some (bm, t) ∧ BitmapAt used s t bm q) ↔
      s.LowestRun used ∧ serves alloc 24 s.pmm = true := by
  have hlow : ∀ r < used, r % aliasPages = r := fun r hr =>
    Nat.mod_eq_of_lt (by unfold aliasPages; omega)
  constructor
  · rintro ⟨bm, t, q', hr, hbm⟩
    obtain ⟨q, rfl, hmin, hs, v, hv, hinit⟩ := createUserTaskBitmap_taken h hr
    obtain ⟨t', ht', -, hready, hslots⟩ := hv.bitmapInitMem_eq h hunused
    obtain rfl := Option.some.inj (ht'.symm.trans hinit)
    refine ⟨⟨q, hmin, fun i hi => ⟨hv.free i hi, ?_⟩⟩, hs⟩
    -- a page of the image with the same word would have the new frame
    by_contra hlt
    rw [Nat.not_le] at hlt
    have hin := himage _ hlt
    obtain ⟨addr, hF, hx⟩ := hv.mapped i hi
    have hslot : slot dir ((q + i) % aliasPages) = slot dir (q + i) :=
      h.tables.slot_eq_iff.mpr (hlow _ hlt)
    have hkeep := hbm.image _ hlt
    rw [hready.frameOf_eq hin.1, hslots, hslot, hx, if_pos (present_kernDesc addr),
      frame_kernDesc] at hkeep
    exact (hunused _ hF).apart _ hin hkeep.symm
  · rintro ⟨⟨q, hmin, hrun⟩, hserves⟩
    have hfree : ∀ i < 24, q + i ∈ s.freePages := fun i hi => (hrun i hi).1
    have hfirst : q ∈ s.freePages := hfree 0 (by decide)
    have hlast := h.window _ (hfree 23 (by decide))
    have hq : q + 24 ≤ 256 * 1024 := by
      unfold windowPage at hlast
      omega
    obtain ⟨d, p', hd, hst, hs⟩ := serves_succ.mp hserves
    obtain ⟨u, hu, hm⟩ := h.vmmKernAlloc_mapped ⟨hfirst, hmin⟩ hd hst
    have hp := hm.pmm_eq hd
    obtain ⟨hiff, htaken⟩ := allocPages_iff alloc (n := 23) hm.ready (hm.succ_lt h) (by decide)
    obtain ⟨v, hv⟩ := hiff.mpr ⟨hm.free_succ hfree, hp ▸ hs⟩
    have hall := Taken.cons h hm (htaken v hv) (by decide)
    obtain ⟨t, hinit, hsame, hready, hslots⟩ := hall.bitmapInitMem_eq h hunused
    have hrest : t.freePages = s.freePages \ {r | q ≤ r ∧ r < q + 24} := by
      rw [← hall.rest, freePages, freePages, hsame.pool, hsame.poolMem]
    have hne : kernAddr q ≠ kernVmmAllocErro :=
      (kernPool_ok 0).pageAddr_ne_erro (show q < 256 * 1024 by omega)
    have hkeep : ∀ r < used, t.frameOf r = s.frameOf r := by
      intro r hr
      refine hall.frameOf_eq h hready hslots (himage r hr).1 fun i hi e => ?_
      have haway := (hrun i hi).2
      rw [e, hlow r hr] at haway
      omega
    refine ⟨⟨kernAddr q, 0x18000, 0⟩, t, q, ?_, rfl, rfl, ?_, hfree, hrest, hkeep⟩
    · simp only [createUserTaskBitmap, hu, Option.bind_eq_bind, Option.bind_some, if_neg hne,
        kernAddr_succ (hm.succ_lt h), hv, if_true, hinit]
    · intro k hk
      have haddr := kernAddr_toNat (q := q) (by omega)
      apply kernPage_eq_some.mpr
      simp only [UInt32.toNat_add, UInt32.toNat_ofNat', haddr]
      omega

/-- A page manager with 26 pages from 8 MiB on, all in the single page buffer. -/
def bufferPmm : Pmm :=
  { Pmm.zero with
    pageStart := 0x800000
    maxPageNo := 26
    pageArray := fun i => ⟨i, if i < 25 then some (i + 1) else none, 1⟩
    singleLink := some 0 }

theorem bufferPmm_serves : serves Pmm.allocOnePage 26 bufferPmm = true ∧
    ∀ F ∈ handed Pmm.allocOnePage 26 bufferPmm, 0x800000 ≤ F.toNat := by
  have hall : (serves Pmm.allocOnePage 26 bufferPmm && (handed Pmm.allocOnePage 26 bufferPmm).all
      fun F => decide (0x800000 ≤ F.toNat)) = true := by
    decide +kernel
  rw [Bool.and_eq_true, List.all_eq_true] at hall
  exact ⟨hall.1, fun F hF => of_decide_eq_true (hall.2 F hF)⟩

/-- Serving fewer requests. -/
theorem serves_mono (hn : k ≤ n) (h : serves alloc n p = true) :
    serves alloc k p = true ∧ handed alloc k p ⊆ handed alloc n p := by
  induction k generalizing n p with
  | zero => exact ⟨rfl, List.nil_subset _⟩
  | succ k ih =>
      obtain ⟨n, rfl⟩ : ∃ m, n = m + 1 := ⟨n - 1, by omega⟩
      obtain ⟨d, p', hd, hst, hs⟩ := serves_succ.mp h
      obtain ⟨hk, hsub⟩ := ih (by omega) hs
      refine ⟨serves_succ.mpr ⟨d, p', hd, hst, hk⟩, ?_⟩
      rw [handed_succ hd, handed_succ hd]
      exact List.cons_subset_cons _ hsub

/-- The kernel after boot with an image of 768 pages and 26 frames. -/
def bufferBoot : Vmm Pmm :=
  booted 0x101000 (fun _ => 0) ⟨0, 0, 0⟩ (kernPool 0xC0250000).blankMem bufferPmm

theorem bufferBoot_eq : ∃ s, vmmKernInit 0x300000 0xC0250000 bufferBoot = some s ∧
    s.Ready 0x101000 ∧ s.pmm = bufferPmm ∧ s.freePages = {q | 768 ≤ q ∧ q < windowPage} ∧
    ∀ q < 1024, s.frameOf q = some (UInt32.ofNat (4096 * q)) := by
  have hused : (getKernUsedPageCount 0x300000).toNat = 768 := by decide
  obtain ⟨s, hs, hmap, hp, hF, hfr⟩ := mapping_of_boot (fun _ => 0) ⟨0, 0, 0⟩ bufferPmm
    (by decide : (0x101000 : UInt32).toNat % 4096 = 0) (by decide) (by rw [hused]; decide)
    (kernPool 0xC0250000).stored_blankMem
  rw [hused] at hF
  exact ⟨s, hs, hmap.ready, hp, hF, hfr⟩

theorem finds_iff_lowestRun_sample : ∃ s,
    vmmKernInit 0x300000 0xC0250000 bufferBoot = some s ∧
      ∃ bm t q, createUserTaskBitmap Pmm.allocOnePage s = some (bm, t) ∧ BitmapAt 768 s t bm q := by
  obtain ⟨s, h₀, hs, hp, hF, hfr⟩ := bufferBoot_eq
  obtain ⟨hserves, hsub⟩ := serves_mono (show 24 ≤ 26 by decide) bufferPmm_serves.1
  refine ⟨s, h₀, (finds_iff_lowestRun Pmm.allocOnePage s hs (by decide) ?_ ?_).mpr
    ⟨⟨768, ?_, ?_⟩, hp ▸ hserves⟩⟩
  · intro r hr
    refine ⟨lt_trans hr (by decide), fun hmem => ?_⟩
    rw [hF] at hmem
    exact absurd hmem.1 (Nat.not_le.mpr hr)
  · rw [hp]
    intro F hF'
    have hge := bufferPmm_serves.2 F (hsub hF')
    refine ⟨.inr (le_trans (by decide) hge), fun r hr e => ?_⟩
    have hr768 := hr.lt hF
    rw [hfr r (by omega), Option.some.injEq] at e
    have e' := congrArg UInt32.toNat e
    rw [UInt32.toNat_ofNat'] at e'
    omega
  · intro r hr
    rw [hF] at hr
    exact hr.1
  · intro i hi
    rw [hF]
    unfold windowPage aliasPages
    exact ⟨⟨by omega, by omega⟩, by omega⟩

theorem takes_of_range (hF : s.freePages = {r | q ≤ r ∧ r < windowPage}) (hq : q < windowPage) :
    Takes .alloc s q := by
  rw [Takes, hF]
  exact ⟨⟨le_rfl, hq⟩, fun r hr => hr.1⟩

/-- The first two pages are allocated and the first of them is released again: it is the lowest
free page, and the page behind it is taken. -/
theorem not_finds_fragmented : ∃ s t,
    vmmKernInit 0x300000 0xC0250000 bufferBoot = some s ∧
    run (step Pmm.allocOnePage) [.alloc, .alloc, .releaseOnePage 0xC0300000] s = some t ∧
    t.Ready 0x101000 ∧ (∀ i < 24, 770 + i ∈ t.freePages) ∧
    serves Pmm.allocOnePage 24 t.pmm = true ∧ createUserTaskBitmap Pmm.allocOnePage t = none := by
  obtain ⟨s, h₀, hs, hp, hF, -⟩ := bufferBoot_eq
  have hserves := bufferPmm_serves.1
  rw [← hp] at hserves
  obtain ⟨d₁, p₁, hd₁, hst₁, hserves₁⟩ := serves_succ.mp hserves
  obtain ⟨d₂, p₂, hd₂, hst₂, hserves₂⟩ := serves_succ.mp hserves₁
  -- the two allocations
  have ht₁ : Takes .alloc s 768 := takes_of_range hF (by decide)
  obtain ⟨s₁, hs₁, hm₁⟩ := hs.vmmKernAlloc_mapped ht₁ hd₁ hst₁
  have hp₁ := hm₁.pmm_eq hd₁
  have hF₁ : s₁.freePages = {q | 769 ≤ q ∧ q < windowPage} := by
    ext r
    rw [hm₁.taken, hF]
    simp only [Set.mem_sdiff, Set.mem_ofPred_eq, Set.mem_singleton_iff]
    omega
  have ht₂ : Takes .alloc s₁ 769 := takes_of_range hF₁ (by decide)
  rw [← hp₁] at hd₂
  obtain ⟨s₂, hs₂, hm₂⟩ := hm₁.ready.vmmKernAlloc_mapped ht₂ hd₂ hst₂
  have hp₂ := hm₂.pmm_eq hd₂
  -- the release
  have hpage : kernPage? 0xC0300000 = some 768 := kernPage_eq_some.mpr ⟨by decide, by decide⟩
  obtain ⟨t, ht, hready, hFt, hpt⟩ := hm₂.ready.release_free hpage (by decide)
  have hfree : ∀ r, r ∈ t.freePages ↔ r = 768 ∨ 770 ≤ r ∧ r < windowPage := by
    intro r
    rw [hFt, hm₂.taken, hF₁]
    simp only [Set.mem_insert_iff, Set.mem_sdiff, Set.mem_ofPred_eq, Set.mem_singleton_iff]
    omega
  refine ⟨s, t, h₀, ?_, hready, ?_, ?_, ?_⟩
  · simp only [run, step, hs₁, hs₂, Option.map_some, Option.bind_some, Option.bind_fun_some]
    exact ht
  · intro i hi
    apply (hfree (770 + i)).mpr
    unfold windowPage
    omega
  · rw [hpt, hp₂]
    exact hserves₂
  · by_contra hsome
    obtain ⟨⟨bm, u⟩, hu⟩ := Option.ne_none_iff_exists'.mp hsome
    obtain ⟨q, -, hmin, -, v, hv, -⟩ := createUserTaskBitmap_taken hready hu
    have hle := hmin 768 ((hfree 768).mpr (Or.inl rfl))
    have h0 := (hfree _).mp (hv.free 0 (by decide))
    have h1 := (hfree _).mp (hv.free 1 (by decide))
    omega

end Vmm
end BHOS
