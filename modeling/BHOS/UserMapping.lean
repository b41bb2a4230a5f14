import BHOS.UserBitmap
import BHOS.KernelAtomic
import BHOS.UserSpace

/-! # Mapping a user page

`vmm_user_alloc_one_page` writes twice into the page tables of the task: the entry of a new page
table into the directory, by the kernel address of the directory, and the entry of the page into
its table, through the loaded directory itself.  In a `UserSpace` both ways lead to the same
directory.  Making a page table changes the translation of no user address (`SameUser`), and then
the table entry is that of the page alone (`PageGiven`). -/

namespace BHOS
namespace Vmm

variable {π : Type} {alloc : π → Option (PmAlloc × π)} {k l : Vmm π} {pdt a c v w : UInt32}
  {others : Set UInt32} {q : ℕ} {d : PmAlloc}

/-! ### A new page table -/

/-- A page table for the address `v` has been made: the kernel page `q` is mapped to a frame, which
has been cleared and entered into the directory; no other word has changed. -/
structure TableMade (alloc : π → Option (PmAlloc × π)) (k l : Vmm π) (v : UInt32) (q : ℕ)
    (d : PmAlloc) : Prop where
  free : q ∈ k.freePages
  taken : l.freePages = k.freePages \ {q}
  pool : l.kernVmmPool = k.kernVmmPool ∧ l.kernVmmPool.Stored l.poolMem
  cr3 : l.cr3 = k.cr3
  handed : alloc k.pmm = some (d, l.pmm) ∧ d.state ≠ 0
  pde : l.mem (dirEntry k.cr3 v) = userDesc (frame d.addr)
  clear : ∀ i < 1024, l.mem (word (frame d.addr) i) = 0
  words : ∀ a, frame a ≠ frame d.addr → a ≠ k.slotOf q → a ≠ dirEntry k.cr3 v → l.mem a = k.mem a

/-- What `create_user_page_table` does after it got its page. -/
theorem UserSpace.createUserPageTable_mapped (h : k.UserSpace pdt others) {u : Vmm π}
    (hg : vmmKernAlloc alloc k = some (kernAddr q, u)) (hm : PageMapped alloc k u q d)
    (hF : ¬ OwnFrame k.mem k.cr3 (frame d.addr)) (v : UInt32) :
    ∃ l, createUserPageTable alloc k (userPdeVaddr pdt v) = some (true, l) ∧
      TableMade alloc k l v q d := by
  have hal := frame_aligned d.addr
  have hT : ¬ TableFrame k.mem k.cr3 (frame d.addr) := fun ht =>
    hF (OwnFrame.of_tableFrame h.space.directory ht)
  have hsame : ∀ a, frame a ≠ frame d.addr → clearedMem (frame d.addr) u.mem a = u.mem a :=
    fun a => clearedMem_of_frame hal
  have hpde := translate_userPdeVaddr h.aligned (h.mapped_of_frame hm hT hsame) v
  refine ⟨{ u with
    mem := Function.update (clearedMem (frame d.addr) u.mem) (dirEntry u.cr3 v)
      (userDesc (frame d.addr)) }, ?_, hm.free, hm.taken, hm.pool, hm.cr3, hm.handed, ?_, ?_, ?_⟩
  · rw [createUserPageTable_of_window hg (h.space.pooled.page_lt hm.free) hal (hm.window h.space hT)
      (hm.vmmV2p_eq h.space hT hsame), write, hpde, Option.map_some, Option.map_some]
  · rw [← hm.cr3]
    exact Function.update_self _ _ _
  · intro i hi
    have hword : word (frame d.addr) i ≠ dirEntry u.cr3 v := by
      intro e
      have hframe := congrArg frame e
      rw [frame_word hal hi, frame_of_dirEntry, hm.cr3] at hframe
      exact hF (hframe ▸ ownFrame_self h.space.directory)
    exact (Function.update_of_ne hword _ _).trans (clearedMem_word hal hi)
  · intro a hframe hslot hentry
    rw [← hm.cr3] at hentry
    apply (Function.update_of_ne hentry _ _).trans
    rw [hsame a hframe, hm.words a hslot]

/-- How `create_user_page_table` ends when it succeeds. -/
theorem UserSpace.tableMade (h : k.UserSpace pdt others)
    (hunused : ∀ d p, alloc k.pmm = some (d, p) → d.state ≠ 0 → ¬ OwnFrame k.mem k.cr3 (frame d.addr))
    (hr : createUserPageTable alloc k (userPdeVaddr pdt v) = some (true, l)) :
    ∃ q d, TableMade alloc k l v q d := by
  obtain ⟨⟨a, u⟩, hu, hrest⟩ := Option.bind_eq_some_iff.mp hr
  by_cases ha : a = kernVmmAllocErro
  · simp only [if_pos ha, Option.some.injEq, Prod.mk.injEq, Bool.false_eq_true, false_and] at hrest
  · obtain ⟨q, d, -, rfl, hm⟩ := h.space.mapped_of_vmmKernAlloc hu ha
    obtain ⟨l', hl, hmade⟩ := h.createUserPageTable_mapped hu hm
      (hunused d u.pmm hm.handed.1 hm.handed.2) v
    obtain rfl := (Prod.mk.inj (Option.some.inj (hl.symm.trans hr))).2
    exact ⟨q, d, hmade⟩

/-- No user address is translated differently, by the loaded directory or by the others. -/
structure SameUser (k l : Vmm π) (others : Set UInt32) : Prop where
  own : ∀ w : UInt32, w.toNat < 0xC0000000 → translate l.mem l.cr3 w = translate k.mem k.cr3 w
  other : ∀ c ∈ others, ∀ w : UInt32, w.toNat < 0xC0000000 →
    translate l.mem c w = translate k.mem c w

section made

variable (h : k.UserSpace pdt others) (ht : TableMade alloc k l v q d)
  (hF : ¬ k.FrameInUse others (frame d.addr))

include h ht hF

/-- Only one entry of the directory has changed. -/
theorem TableMade.dirEntry_of_ne (hw : w.toNat / 2 ^ 22 ≠ v.toNat / 2 ^ 22) :
    l.mem (dirEntry k.cr3 w) = k.mem (dirEntry k.cr3 w) := by
  obtain ⟨hlo, hhi⟩ := kernAddr_range (h.space.window q ht.free)
  apply ht.words
  · rw [frame_of_dirEntry]
    exact fun e => hF (Or.inl (e ▸ ownFrame_self h.space.directory))
  · exact h.space.directory.dirEntry_ne hlo hhi w
  · intro e
    have hn := congrArg UInt32.toNat e
    rw [dirEntry_toNat, dirEntry_toNat] at hn
    omega

/-- The table entries that were there are there still, but for that of the page `q`. -/
theorem TableMade.entry_of_ne (hw : w.toNat < 0xFFC00000) (hp : Present (k.mem (dirEntry k.cr3 w)))
    (hne : w.toNat / 4096 ≠ (kernAddr q).toNat / 4096) :
    l.mem (pteAddr k.mem k.cr3 w) = k.mem (pteAddr k.mem k.cr3 w) := by
  obtain ⟨hlo, -⟩ := kernAddr_range (h.space.window q ht.free)
  apply ht.words
  · rw [frame_pteAddr]
    exact fun e => hF (Or.inl ⟨w, hp, e⟩)
  · intro e
    exact hne (h.directory.pteAddr_inj hp (h.space.directory.present _ hlo) e)
  · exact h.directory.pteAddr_ne hw hp v

/-- What the other directories read is as before. -/
theorem TableMade.word_of_userFrame (hc : c ∈ others) (ha : UserFrame k.mem c (frame a)) :
    l.mem a = k.mem a := by
  obtain ⟨hlo, -⟩ := kernAddr_range (h.space.window q ht.free)
  have hown := h.elsewhere c hc _ ha
  apply ht.words
  · intro e
    exact hF (Or.inr ⟨c, hc, e ▸ ha⟩)
  · rintro rfl
    apply hown
    rw [slotOf, frame_pteAddr]
    exact ⟨kernAddr q, h.space.directory.present _ hlo, rfl⟩
  · rintro rfl
    apply hown
    rw [frame_of_dirEntry]
    exact ownFrame_self h.space.directory

theorem TableMade.directory (hv : v.toNat < 0xC0000000) : UserDirectory l.mem l.cr3 := by
  rw [ht.cr3]
  apply h.directory.add hv (frame_aligned d.addr) (fun e => hF (Or.inl e)) ht.pde
  intro w hw
  exact ht.dirEntry_of_ne h hF hw

/-- A task keeps its address space when a page table is made for it. -/
theorem TableMade.userSpace (hv : v.toNat < 0xC0000000) : l.UserSpace pdt others := by
  have hdir := ht.directory h hF hv
  obtain ⟨hpool, hs⟩ := ht.pool
  obtain ⟨r, hr, hw, hbusy⟩ := h.page
  obtain ⟨hlo, hrv⟩ := kernPage_eq_some.mp hr
  have hhi : pdt.toNat < 0xFFC00000 := by
    unfold windowPage at hw
    omega
  have hpde := ht.dirEntry_of_ne h hF (w := pdt) (by omega)
  refine ⟨⟨⟨hpool ▸ h.space.pooled.pool, hs⟩, hdir.kern, ?_⟩, hdir, h.aligned, ⟨r, hr, hw, ?_⟩, ?_, ?_⟩
  · intro r hr
    rw [ht.taken] at hr
    exact h.space.window r hr.1
  · rw [ht.taken]
    exact fun hr => hbusy hr.1
  · rw [ht.cr3, ← h.mapped]
    apply translate_congr hpde
    intro hp
    apply ht.entry_of_ne h hF hhi hp
    intro e
    have hpage := h.space.pooled.page_lt ht.free
    have haddr := kernAddr_toNat hpage
    have hq : r = q := by omega
    exact hbusy (hq ▸ ht.free)
  · rw [ht.cr3]
    apply h.elsewhere_congr
    · rintro F ⟨w, hp, e⟩
      by_cases hw : w.toNat / 2 ^ 22 = v.toNat / 2 ^ 22
      · rw [dirEntry_eq_of_div hw, ht.pde, frame_userDesc, frame_eq_self (frame_aligned _)] at e
        exact Or.inr fun c hc hu => hF (Or.inr ⟨c, hc, e ▸ hu⟩)
      · rw [ht.dirEntry_of_ne h hF hw] at hp e
        exact Or.inl ⟨w, hp, e⟩
    · intro c hc a ha
      exact ht.word_of_userFrame h hF hc ha

/-- Where there was no page table, making one changes the translation of no user address. -/
theorem TableMade.sameUser (habsent : ¬ Present (k.mem (dirEntry k.cr3 v))) :
    SameUser k l others := by
  constructor
  · intro w hw
    rw [ht.cr3]
    by_cases hdiv : w.toNat / 2 ^ 22 = v.toNat / 2 ^ 22
    · have hdir : dirEntry k.cr3 w = dirEntry k.cr3 v := dirEntry_eq_of_div hdiv
      have hpte : pte l.mem k.cr3 w = 0 := by
        rw [pte, pteAddr, hdir, ht.pde, tableEntry_eq_word, frame_userDesc,
          frame_eq_self (frame_aligned _)]
        exact ht.clear _ (by omega)
      have hno : ¬ Present (0 : UInt32) := by decide
      rw [translate_eq, translate_eq, hdir, if_neg habsent, hpte, if_neg hno, ite_self]
    · apply translate_congr (ht.dirEntry_of_ne h hF hdiv)
      intro hp
      apply ht.entry_of_ne h hF (by omega) hp
      rw [kernAddr_toNat (h.space.pooled.page_lt ht.free)]
      omega
  · intro c hc w hw
    apply translate_of_userFrame _ hw
    intro a ha
    exact ht.word_of_userFrame h hF hc ha

end made

end Vmm

namespace UserVmm

open Vmm

variable {π : Type} {alloc : π → Option (PmAlloc × π)} {s t : UserVmm π} {others : Set UInt32}
  {tcb : Tcb} {r : UInt32}

/-! ### The call as a whole -/

/-- The page of `v` is mapped to the frame that the page manager handed out last, for the user to
read and write; no other user address is translated differently, by the directory of the task or by
another one, and a page table that is new maps no other page. -/
structure PageGiven (alloc : π → Option (PmAlloc × π)) (s t : Vmm π) (v : UInt32)
    (others : Set UInt32) : Prop where
  cr3 : t.cr3 = s.cr3
  frame : ∃ d p, (Present (s.mem (dirEntry s.cr3 v)) → p = s.pmm) ∧
    (¬ Present (s.mem (dirEntry s.cr3 v)) → ∃ d₁, alloc s.pmm = some (d₁, p)) ∧
    alloc p = some (d, t.pmm) ∧ d.state ≠ 0 ∧
    ∀ w : UInt32, w.toNat / 4096 = v.toNat / 4096 →
      translate t.mem t.cr3 w = some (frame d.addr + (w &&& 0xFFF))
  table : Writable (t.mem (dirEntry t.cr3 v)) ∧ UserAccess (t.mem (dirEntry t.cr3 v))
  entry : Writable (pte t.mem t.cr3 v) ∧ UserAccess (pte t.mem t.cr3 v)
  own : ∀ w : UInt32, w.toNat < 0xC0000000 → w.toNat / 4096 ≠ v.toNat / 4096 →
    translate t.mem t.cr3 w = translate s.mem s.cr3 w
  fresh : ¬ Present (s.mem (dirEntry s.cr3 v)) → ∀ w : UInt32, w.toNat / 2 ^ 22 = v.toNat / 2 ^ 22 →
    w.toNat / 4096 ≠ v.toNat / 4096 → translate t.mem t.cr3 w = none
  other : ∀ c ∈ others, ∀ w : UInt32, w.toNat < 0xC0000000 →
    translate t.mem c w = translate s.mem c w

/-- What the entry of the page does, when the page table is there. -/
theorem pageGiven_of_present {k : Vmm π} {pdt v : UInt32} {d : PmAlloc} {p : π}
    (h : k.UserSpace pdt others) (hv : v.toNat < 0xC0000000)
    (hp : Present (k.mem (dirEntry k.cr3 v))) (hd : alloc k.pmm = some (d, p)) (hst : d.state ≠ 0) :
    PageGiven alloc k { k with
      pmm := p, mem := Function.update k.mem (pteAddr k.mem k.cr3 v) (userDesc d.addr) } v others := by
  have hdir := h.update_dirEntry hv hp (userDesc d.addr)
  refine ⟨rfl, ⟨d, k.pmm, fun _ => rfl, fun hn => absurd hp hn, hd, hst, ?_⟩, ?_, ?_, ?_, ?_, ?_⟩
  · intro w hw
    exact h.translate_update_self hv hp d.addr hw
  · simp only [hdir]
    exact h.directory.rights v hv hp
  · simp only [pte, pteAddr_congr (hdir v), Function.update_self]
    exact rights_userDesc d.addr
  · intro w _ hne
    exact h.translate_update hv hp (userDesc d.addr) hne
  · exact fun hn => absurd hp hn
  · intro c hc w hw
    apply translate_of_userFrame _ hw
    intro a ha
    exact h.update_of_userFrame hp (userDesc d.addr) hc ha

/-- A page table that was made before changes nothing of it. -/
theorem PageGiven.of_sameUser {k l u : Vmm π} {v : UInt32} {d₁ : PmAlloc}
    (hg : PageGiven alloc l u v others) (hsame : SameUser k l others) (hcr3 : l.cr3 = k.cr3)
    (hv : v.toNat < 0xC0000000) (habsent : ¬ Present (k.mem (dirEntry k.cr3 v)))
    (hpres : Present (l.mem (dirEntry l.cr3 v))) (hd : alloc k.pmm = some (d₁, l.pmm)) :
    PageGiven alloc k u v others := by
  obtain ⟨d, p, hp, -, hframe⟩ := hg.frame
  have hown : ∀ w : UInt32, w.toNat < 0xC0000000 → w.toNat / 4096 ≠ v.toNat / 4096 →
      translate u.mem u.cr3 w = translate k.mem k.cr3 w := fun w hw hne =>
    (hg.own w hw hne).trans (hsame.own w hw)
  refine ⟨hg.cr3.trans hcr3, ⟨d, p, fun hk => absurd hk habsent, ?_, hframe⟩, hg.table, hg.entry,
    hown, ?_, ?_⟩
  · intro _
    rw [hp hpres]
    exact ⟨d₁, hd⟩
  · intro _ w hdiv hne
    rw [hown w (by omega) hne, translate_eq, dirEntry_eq_of_div hdiv, if_neg habsent]
  · intro c hc w hw
    exact (hg.other c hc w hw).trans (hsame.other c hc w hw)

section call

variable {pdt v : UInt32} (h : s.kern.UserSpace pdt others)

include h

/-- The entry of the page is reached through the loaded directory. -/
theorem translate_getPte (hp : Present (s.kern.mem (dirEntry s.kern.cr3 v))) :
    translate s.kern.mem s.kern.cr3 (getPte v) = some (pteAddr s.kern.mem s.kern.cr3 v) := by
  rw [h.directory.kern.self.translate_getPte, if_pos hp]
  rfl

/-- `vmm_user_alloc_one_page` after the page table is there, when there is a frame. -/
theorem mapUserPage_succeeds (hp : Present (s.kern.mem (dirEntry s.kern.cr3 v)))
    (hleft : FrameLeft alloc s.kern.pmm) : ∃ t, s.mapUserPage alloc v = some (v &&& 0xFFFFF000, t) := by
  obtain ⟨d, p, hd, hst⟩ := hleft
  simp only [mapUserPage, hd, Option.bind_eq_bind, Option.bind_some, if_neg hst, write,
    translate_getPte h hp, Option.map_some]
  exact ⟨_, rfl⟩

/-- `vmm_user_alloc_one_page` after the page table is there, when it succeeds. -/
theorem mapUserPage_given (hv : v.toNat < 0xC0000000)
    (hp : Present (s.kern.mem (dirEntry s.kern.cr3 v)))
    (hr : s.mapUserPage alloc v = some (r, t)) (hok : r ≠ userVmmAllocErro) :
    r = v &&& 0xFFFFF000 ∧ PageGiven alloc s.kern t.kern v others ∧ t.kern.UserSpace pdt others := by
  obtain ⟨⟨d, p⟩, hd, hrest⟩ := Option.bind_eq_some_iff.mp hr
  by_cases hst : d.state = 0
  · simp only [if_pos hst] at hrest
    obtain ⟨m, -, hrest⟩ := Option.bind_eq_some_iff.mp hrest
    exact absurd (Prod.mk.inj (Option.some.inj hrest)).1.symm hok
  · simp only [if_neg hst] at hrest
    obtain ⟨u, hu, hrest⟩ := Option.bind_eq_some_iff.mp hrest
    obtain ⟨rfl, rfl⟩ := Prod.mk.inj (Option.some.inj hrest)
    simp only [write, translate_getPte h hp, Option.map_some, Option.some.injEq] at hu
    subst hu
    exact ⟨rfl, pageGiven_of_present h hv hp hd hst, h.update hv hp (userDesc d.addr) p⟩

variable (hunused : ∀ d p, alloc s.kern.pmm = some (d, p) → d.state ≠ 0 →
  ¬ s.kern.FrameInUse others (frame d.addr))

include hunused

/-- There is a page table in the end, when all that is needed for it is there. -/
theorem ensurePageTable_succeeds (hneed : Provided alloc tcb v s) (hpdt : tcb.pdtVaddr = pdt) :
    ∃ u, s.ensurePageTable alloc pdt v = some (true, u) ∧ FrameLeft alloc u.kern.pmm := by
  obtain ⟨hpresent, habsent⟩ := hneed
  rw [hpdt, h.check_eq] at hpresent habsent
  by_cases hp : Present (s.kern.mem (dirEntry s.kern.cr3 v))
  · refine ⟨s.cli.sti, ?_, hpresent (by rw [decide_eq_true hp])⟩
    simp only [ensurePageTable, h.check_eq, decide_eq_true hp, Option.bind_eq_bind, Option.bind_some,
      if_true]
  · obtain ⟨hfree, ⟨d, p, hd, hst⟩, hleft⟩ := habsent (by rw [decide_eq_false hp])
    obtain ⟨k, hk, hm⟩ := h.space.vmmKernAlloc_mapped (takes_sInf hfree) hd hst
    obtain ⟨l, hl, hmade⟩ := h.createUserPageTable_mapped hk hm
      (fun hF => hunused d p hd hst (Or.inl hF)) v
    refine ⟨{ s with kern := l }, ?_, hleft d l.pmm hmade.handed.1⟩
    simp only [ensurePageTable, h.check_eq, decide_eq_false hp, Option.bind_eq_bind,
      Option.bind_some, Bool.false_eq_true, if_false, hl]

/-- There is a page table in the end, and no user address is translated differently. -/
theorem ensurePageTable_given {u : UserVmm π} (hv : v.toNat < 0xC0000000)
    (hr : s.ensurePageTable alloc pdt v = some (true, u)) :
    u.kern.UserSpace pdt others ∧ Present (u.kern.mem (dirEntry u.kern.cr3 v)) ∧
      ((Present (s.kern.mem (dirEntry s.kern.cr3 v)) ∧ u.kern = s.kern) ∨
        (¬ Present (s.kern.mem (dirEntry s.kern.cr3 v)) ∧ SameUser s.kern u.kern others ∧
          u.kern.cr3 = s.kern.cr3 ∧ ∃ d, alloc s.kern.pmm = some (d, u.kern.pmm))) := by
  unfold ensurePageTable at hr
  simp only [h.check_eq, Option.bind_eq_bind, Option.bind_some] at hr
  by_cases hp : Present (s.kern.mem (dirEntry s.kern.cr3 v))
  · simp only [decide_eq_true hp, if_true, Option.some.injEq, Prod.mk.injEq, true_and] at hr
    subst hr
    exact ⟨h, hp, Or.inl ⟨hp, rfl⟩⟩
  · simp only [decide_eq_false hp, Bool.false_eq_true, if_false] at hr
    obtain ⟨⟨created, l⟩, hl, hr⟩ := Option.bind_eq_some_iff.mp hr
    obtain ⟨rfl, rfl⟩ := Prod.mk.inj (Option.some.inj hr)
    obtain ⟨q, d, hmade⟩ := h.tableMade (fun d p hd hst hF => hunused d p hd hst (Or.inl hF)) hl
    have hF := hunused d l.pmm hmade.handed.1 hmade.handed.2
    refine ⟨hmade.userSpace h hF hv, ?_,
      Or.inr ⟨hp, hmade.sameUser h hF hp, hmade.cr3, d, hmade.handed.1⟩⟩
    rw [hmade.cr3, hmade.pde]
    exact present_userDesc _

end call

/-- How a call that succeeds ends: with a page table and the entry of the page. -/
theorem success_cases {v : UInt32} (hr : s.vmmUserAllocOnePage alloc tcb v = some (r, t))
    (hok : r ≠ userVmmAllocErro) : ∃ m u,
    ensurePageTable alloc { s with userMem := m } tcb.pdtVaddr v = some (true, u) ∧
      u.mapUserPage alloc v = some (r, t) := by
  have hfailed : ∀ u : UserVmm π, u.cleanBitmapAlloc v ≠ some (r, t) := by
    intro u hu
    obtain ⟨m, -, hu⟩ := Option.bind_eq_some_iff.mp hu
    exact hok (Prod.mk.inj (Option.some.inj hu)).1.symm
  unfold vmmUserAllocOnePage at hr
  by_cases hk : tcb.isKernThread = true
  · rw [if_pos hk] at hr
    exact absurd (Prod.mk.inj (Option.some.inj hr)).1.symm hok
  · rw [if_neg hk] at hr
    obtain ⟨⟨vaddrGet, m⟩, -, hr⟩ := Option.bind_eq_some_iff.mp hr
    by_cases hbusy : vaddrGet = bitmapReturnErro
    · simp only [if_pos hbusy] at hr
      exact absurd hr (hfailed _)
    · simp only [if_neg hbusy] at hr
      obtain ⟨⟨ready, u⟩, hu, hr⟩ := Option.bind_eq_some_iff.mp hr
      cases ready with
      | true => exact ⟨m, u, hu, hr⟩
      | false => exact absurd hr (hfailed u)

/-- **A user page is mapped** to the frame that was handed out for it, and no other user address is
translated differently, in the address space of the task or of another one.  The call succeeds when
the page is free and there is what it needs. -/
theorem pageGiven_of_alloc (alloc : π → Option (PmAlloc × π)) (tcb : Tcb) (v : UInt32)
    (s : UserVmm π) (others : Set UInt32) (hv : v < 0xC0000000)
    (h : s.kern.UserSpace tcb.pdtVaddr others)
    (hunused : ∀ d p, alloc s.kern.pmm = some (d, p) → d.state ≠ 0 →
      ¬ s.kern.FrameInUse others (frame d.addr)) :
    (∀ r t, s.vmmUserAllocOnePage alloc tcb v = some (r, t) → r ≠ userVmmAllocErro →
      r = v &&& 0xFFFFF000 ∧ PageGiven alloc s.kern t.kern v others ∧
        t.kern.UserSpace tcb.pdtVaddr others) ∧
    (tcb.isKernThread = false → tcb.userVmmPool.Ok → tcb.userVmmPool.Stored s.userMem →
      PageFree tcb v s → Provided alloc tcb v s →
        ∃ t, s.vmmUserAllocOnePage alloc tcb v = some (v &&& 0xFFFFF000, t)) := by
  have hv : v.toNat < 0xC0000000 := UInt32.lt_iff_toNat_lt.mp hv
  constructor
  · intro r t hr hok
    obtain ⟨m, u, hu, hr⟩ := success_cases hr hok
    obtain ⟨hspace, hpres, hkern⟩ :=
      ensurePageTable_given (s := { s with userMem := m }) h hunused hv hu
    obtain ⟨hval, hgiven, hspace'⟩ := mapUserPage_given hspace hv hpres hr hok
    refine ⟨hval, ?_, hspace'⟩
    -- a page table that was made first has changed no translation
    rcases hkern with ⟨-, e⟩ | ⟨hp, hsame, hcr3, d, hd⟩
    · rw [e] at hgiven
      exact hgiven
    · exact hgiven.of_sameUser hsame hcr3 hv hp hpres hd
  · intro hk hpool hs hfree hneed
    obtain ⟨q, hq, hmem⟩ := hfree
    obtain ⟨m, -, hin, -⟩ := hpool.allocOnePage_eq hs hq
    have he := (hin hmem).1
    have hne : tcb.userVmmPool.pageAddr q ≠ bitmapReturnErro :=
      hpool.pageAddr_ne_erro (hpool.pageIndex_eq hq).1
    obtain ⟨u, hu, hleft⟩ :=
      ensurePageTable_succeeds (s := { s with userMem := m }) h hunused hneed rfl
    obtain ⟨hspace, hpres, -⟩ :=
      ensurePageTable_given (s := { s with userMem := m }) h hunused hv hu
    obtain ⟨t, ht⟩ := mapUserPage_succeeds hspace hpres hleft
    refine ⟨t, ?_⟩
    simp only [vmmUserAllocOnePage, hk, Bool.false_eq_true, if_false, he, Option.bind_eq_bind,
      Option.bind_some, if_neg hne, hu, if_true, ht]

/-- A user task whose directory is the lowest free kernel page after boot. -/
def firstTask : Tcb := { userTask with pdtVaddr := 0xC0300000 }

/-- The storage of its pool, in which only the page at `0x400000` is free. -/
def firstTaskMem : ByteMem := Function.update userPool.blankMem 0xD0000080 (some 0x80)

theorem userFrame_sample {F : UInt32} (h : UserFrame sampleDirectory 0x400000 F) : F = 0x400000 := by
  rcases h with e | ⟨v, hv, hp, -⟩
  · exact e.symm
  · have hlow : ¬ 0xC00 ≤ dirEntry 0x400000 v &&& 0xFFF := by
      rw [UInt32.le_iff_toNat_le, Words.toNat_and_offset, dirEntry_toNat]
      simp only [UInt32.reduceToNat]
      omega
    unfold sampleDirectory at hp
    simp only [hlow, and_false, if_false] at hp
    exact absurd hp (by decide)

/-- The kernel's tables are no user page tables. -/
theorem not_userFrame_sample {v : UInt32} (hlo : 0xC0000000 ≤ v.toNat) (hhi : v.toNat < 0xFFC00000) :
    ¬ UserFrame sampleDirectory 0x400000 (frame (sampleDirectory (dirEntry 0x400000 v))) := by
  intro h
  have e := congrArg UInt32.toNat (userFrame_sample h)
  rw [frame_toNat, sampleDirectory_toNat hlo] at e
  simp only [UInt32.reduceToNat] at e
  omega

/-- After boot `create_user_task_pdt` builds the directory of the first task, and the next frames
that are handed out are not in use. -/
theorem firstTask_space : ∃ k l F d p,
    vmmKernInit 0x300000 0xC0250000 (sampleKernel bufferPmm) = some k ∧
    createUserTaskPdt Pmm.allocOnePage k = some (0xC0300000, l) ∧
    vmmV2p l.mem l.cr3 0xC0300000 = some F ∧ UserSpace { l with cr3 := F } 0xC0300000 {0x400000} ∧
    l.freePages.Nonempty ∧ Pmm.allocOnePage l.pmm = some (d, p) ∧ d.state ≠ 0 ∧
    FrameLeft Pmm.allocOnePage p ∧ ¬ FrameInUse { l with cr3 := F } {0x400000} (frame d.addr) := by
  obtain ⟨k, h₀, hk, hmem, hcr3, hp, hfree⟩ := space_sampleKernel bufferPmm
  obtain ⟨hserves, hhigh⟩ := bufferPmm_serves
  have hunused : ∀ F ∈ handed Pmm.allocOnePage 26 bufferPmm,
      ¬ TableFrame sampleDirectory 0x400000 F := fun F hF h =>
    Nat.not_le.mpr (tableFrame_sample h) (hhigh F hF)
  have hnodup : (handed Pmm.allocOnePage 26 bufferPmm).Nodup := by decide +kernel
  rw [← hp] at hserves hunused hnodup
  obtain ⟨d₁, p₁, hd₁, hst₁, hserves⟩ := serves_succ.mp hserves
  obtain ⟨d₂, p₂, hd₂, hst₂, hserves⟩ := serves_succ.mp hserves
  obtain ⟨d₃, p₃, hd₃, hst₃, -⟩ := serves_succ.mp hserves
  rw [handed_succ hd₁, handed_succ hd₂] at hunused hnodup
  have hne : frame d₁.addr ≠ frame d₂.addr := by
    intro e
    rw [e] at hnodup
    exact (List.nodup_cons.mp hnodup).1 List.mem_cons_self
  have hF₁ := hunused _ List.mem_cons_self
  have hF₂ := hunused _ (List.mem_cons_of_mem _ List.mem_cons_self)
  have hself : TableFrame sampleDirectory 0x400000 0x400000 :=
    ⟨0xFFFFF000, by decide, kernDirectory_sample.self.own⟩
  have hc : k.cr3.toNat % 4096 = 0 := by
    rw [hcr3]
    decide
  have ht : Takes .alloc k 768 := takes_of_range hfree (by decide)
  obtain ⟨u, hu, hm⟩ := hk.vmmKernAlloc_mapped ht hd₁ hst₁
  have hpu := hm.pmm_eq hd₁
  have hT : ¬ TableFrame k.mem k.cr3 (frame d₁.addr) := by
    rw [hmem, hcr3]
    exact hF₁
  have hF' : ∀ c ∈ ({0x400000} : Set UInt32), ¬ UserFrame k.mem c (frame d₁.addr) := by
    rintro c rfl hF
    rw [hmem] at hF
    exact hF₁ (userFrame_sample hF ▸ hself)
  have hothers : ∀ c ∈ ({0x400000} : Set UInt32), ∀ v : UInt32, 0xC0000000 ≤ v.toNat →
      v.toNat < 0xFFC00000 → ¬ UserFrame k.mem c (frame (k.mem (dirEntry k.cr3 v))) := by
    rintro c rfl v hlo hhi
    rw [hmem, hcr3]
    exact not_userFrame_sample hlo hhi
  refine ⟨k, _, frame d₁.addr, d₂, p₂, h₀, createUserTaskPdt_mapped hk hm hc hT hu,
    hm.vmmV2p_eq hk hT fun a => pdtMem_of_frame (frame_aligned d₁.addr),
    userSpace_pdtMem hk hm hc hT hF' hothers, ?_, hpu ▸ hd₂, hst₂, ⟨d₃, p₃, hd₃, hst₃⟩, ?_⟩
  · refine ⟨769, ?_⟩
    have hin : 769 ∈ u.freePages := by
      rw [hm.taken, hfree]
      exact ⟨⟨by decide, by decide⟩, by decide⟩
    exact hin
  · rintro (hG | ⟨c, hc', hG⟩)
    · rcases ownFrame_pdtMem hk hm hc hG with ⟨v, hlo, -, e⟩ | e
      · rw [hmem, hcr3] at e
        exact hF₂ ⟨v, hlo, e⟩
      · exact hne e
    · have hG := userFrame_pdtMem hk hm hF' hothers hc' hG
      obtain rfl := hc'
      rw [hmem] at hG
      exact hF₂ (userFrame_sample hG ▸ hself)

/-- The directory of the first task is loaded and a page is allocated in it, for which a page table
has to be made first. -/
theorem pageGiven_of_alloc_sample : ∃ k l F t,
    vmmKernInit 0x300000 0xC0250000 (sampleKernel bufferPmm) = some k ∧
    createUserTaskPdt Pmm.allocOnePage k = some (0xC0300000, l) ∧
    vmmV2p l.mem l.cr3 0xC0300000 = some F ∧
    vmmUserAllocOnePage Pmm.allocOnePage ⟨{ l with cr3 := F }, firstTaskMem, 0x202⟩ firstTask 0x400123 =
      some (0x400000, t) ∧
    PageGiven Pmm.allocOnePage { l with cr3 := F } t.kern 0x400123 {0x400000} := by
  obtain ⟨k, l, F, d, p, hinit, hcreate, hF, hspace, hfree, hd, hst, hleft, hunused⟩ := firstTask_space
  have hunused' : ∀ d p, Pmm.allocOnePage l.pmm = some (d, p) → d.state ≠ 0 →
      ¬ FrameInUse { l with cr3 := F } {0x400000} (frame d.addr) := by
    intro d' p' hd' _
    obtain ⟨rfl, rfl⟩ := Prod.mk.inj (Option.some.inj (hd.symm.trans hd'))
    exact hunused
  obtain ⟨hgiven, hsucceeds⟩ := pageGiven_of_alloc Pmm.allocOnePage firstTask 0x400123
    ⟨{ l with cr3 := F }, firstTaskMem, 0x202⟩ {0x400000} (by decide) hspace hunused'
  have hstored : userPool.Stored firstTaskMem :=
    userPool.stored_blankMem.update (i := 0x80) (by decide) 0x80
  have hpage : PageFree firstTask 0x400123 ⟨{ l with cr3 := F }, firstTaskMem, 0x202⟩ :=
    ⟨0x400, rfl, by decide, 0x80, rfl, rfl⟩
  have hneed : Provided Pmm.allocOnePage firstTask 0x400123
      ⟨{ l with cr3 := F }, firstTaskMem, 0x202⟩ := by
    refine ⟨fun _ => ⟨d, p, hd, hst⟩, fun _ => ⟨hfree, ⟨d, p, hd, hst⟩, ?_⟩⟩
    intro d' p' hd'
    obtain ⟨-, rfl⟩ := Prod.mk.inj (Option.some.inj (hd.symm.trans hd'))
    exact hleft
  obtain ⟨t, ht⟩ := hsucceeds rfl userPool_ok hstored hpage hneed
  exact ⟨k, l, F, t, hinit, hcreate, hF, ht, (hgiven _ t ht (by decide)).2.1⟩

end UserVmm
end BHOS
