import BHOS.KernelSpace
import BHOS.UserAlloc

/-! # The address space of a user task

`UserSpace` describes a user task whose directory is loaded.  The directory lies in a kernel page,
no two of its entries lead to the same table, and it has no table in common with the user halves of
other tasks.  `create_user_task_pdt` builds such a directory (`userSpace_of_create`).  Writing the
entry of a user page changes the translation of that page only. -/

namespace BHOS

variable {m m' : PhysMem} {c c' a v w F G addr : UInt32}

/-! ### User directories -/

/-- The frames of a directory and of all its tables. -/
def OwnFrame (m : PhysMem) (c F : UInt32) : Prop :=
  ∃ v, Present (m (dirEntry c v)) ∧ frame (m (dirEntry c v)) = F

/-- The frames that translate the user half: the directory and its user page tables. -/
def UserFrame (m : PhysMem) (c F : UInt32) : Prop :=
  frame c = F ∨ ∃ v : UInt32, v.toNat < 0xC0000000 ∧ Present (m (dirEntry c v)) ∧
    frame (m (dirEntry c v)) = F

theorem UserFrame.of_congr (h : UserFrame m' c F) (hm : ∀ a, frame a = frame c → m' a = m a) :
    UserFrame m c F := by
  rcases h with e | ⟨v, hv, hp, e⟩
  · exact Or.inl e
  · rw [hm _ (frame_of_dirEntry c v)] at hp e
    exact Or.inr ⟨v, hv, hp, e⟩

/-- A directory that maps itself and the kernel half, in which no two entries lead to the same
table, and whose user page tables are for the user to read and write. -/
structure UserDirectory (m : PhysMem) (c : UInt32) : Prop where
  kern : KernDirectory m c
  apart : ∀ v w, Present (m (dirEntry c v)) → Present (m (dirEntry c w)) →
    frame (m (dirEntry c v)) = frame (m (dirEntry c w)) → v.toNat / 2 ^ 22 = w.toNat / 2 ^ 22
  rights : ∀ v : UInt32, v.toNat < 0xC0000000 → Present (m (dirEntry c v)) →
    Writable (m (dirEntry c v)) ∧ UserAccess (m (dirEntry c v))

theorem userDesc_toNat (addr : UInt32) : (userDesc addr).toNat = addr.toNat / 4096 * 4096 + 0x107 := by
  have h := addr.toNat_lt
  simp only [userDesc, UInt32.toNat_add, Words.toNat_and_frame, UInt32.reduceToNat]
  omega

theorem present_userDesc (addr : UInt32) : Present (userDesc addr) := by
  rw [present_iff, userDesc_toNat]
  omega

/-- The entry of a user page is for the user to read and write. -/
theorem rights_userDesc (addr : UInt32) : Writable (userDesc addr) ∧ UserAccess (userDesc addr) := by
  rw [writable_iff, userAccess_iff, userDesc_toNat]
  omega

/-- A directory without user page tables, as `create_user_task_pdt` leaves it. -/
theorem UserDirectory.of_clear (h : KernDirectory m c)
    (hclear : ∀ v : UInt32, v.toNat < 0xC0000000 → ¬ Present (m (dirEntry c v))) :
    UserDirectory m c := by
  refine ⟨h, ?_, fun v hv hp => absurd hp (hclear v hv)⟩
  intro v w hv hw
  apply h.apart
  · by_contra hlt
    exact hclear v (by omega) hv
  · by_contra hlt
    exact hclear w (by omega) hw

theorem translate_eq (m : PhysMem) (c v : UInt32) : translate m c v =
    if Present (m (dirEntry c v)) then
      if Present (pte m c v) then some (frame (pte m c v) + (v &&& 0xFFF)) else none
    else none := rfl

/-- Where the two words that the walk reads are the same, the translation is. -/
theorem translate_congr (hdir : m' (dirEntry c v) = m (dirEntry c v))
    (hpte : Present (m (dirEntry c v)) → m' (pteAddr m c v) = m (pteAddr m c v)) :
    translate m' c v = translate m c v := by
  rw [translate_eq, translate_eq, hdir]
  by_cases hp : Present (m (dirEntry c v))
  · have hsame : pte m' c v = pte m c v := by
      rw [pte, pteAddr_congr hdir, hpte hp, pte]
    rw [if_pos hp, if_pos hp, hsame]
  · rw [if_neg hp, if_neg hp]

/-- What is written elsewhere does not change the translation of the user half. -/
theorem translate_of_userFrame (hm : ∀ a, UserFrame m c (frame a) → m' a = m a)
    (hv : v.toNat < 0xC0000000) : translate m' c v = translate m c v := by
  apply translate_congr
  · apply hm
    rw [frame_of_dirEntry]
    exact Or.inl rfl
  · intro hp
    apply hm
    rw [frame_pteAddr]
    exact Or.inr ⟨v, hv, hp, rfl⟩

/-- The words of a page that is mapped to the frame `F`. -/
theorem translate_word (hv : v.toNat % 4096 = 0) (h : translate m c v = some F) {i : ℕ}
    (hi : i < 1024) : translate m c (word v i) = some (word F i) := by
  have hw := word_toNat hv hi
  have hpage : (word v i).toNat / 4096 = v.toNat / 4096 := by omega
  have hoff : v &&& 0xFFF = 0 := Words.and_offset_of_aligned hv
  have hdir : dirEntry c (word v i) = dirEntry c v := dirEntry_eq_of_div (by omega)
  have hpte : pte m c (word v i) = pte m c v := by
    rw [pte, pteAddr_page hpage, pte]
  rw [translate_eq] at h ⊢
  rw [hdir, hpte]
  split_ifs at h ⊢
  obtain rfl := Option.some.inj h
  have hF := frame_aligned (pte m c v)
  rw [hoff, UInt32.add_zero, Option.some.injEq, ← UInt32.toNat_inj, frame_add_offset_toNat,
    word_toNat hF hi, hw, frame_toNat]
  omega

/-- A table entry is a word of the frame of the table. -/
theorem tableEntry_eq_word (p v : UInt32) :
    tableEntry p v = word (frame p) (v.toNat / 4096 % 1024) := by
  rw [← UInt32.toNat_inj, tableEntry_toNat, word_toNat (frame_aligned p) (by omega), frame_toNat]
  omega

namespace UserDirectory

/-- The tables of the user half are not the directory. -/
theorem frame_ne (h : UserDirectory m c) (hv : v.toNat < 0xFFC00000)
    (hp : Present (m (dirEntry c v))) : frame (m (dirEntry c v)) ≠ frame c := by
  intro e
  have hdiv := h.apart v 0xFFFFF000 hp h.kern.self.present (e.trans h.kern.self.own.symm)
  simp only [UInt32.reduceToNat] at hdiv
  omega

/-- A table entry is not a word of the directory. -/
theorem pteAddr_ne (h : UserDirectory m c) (hv : v.toNat < 0xFFC00000)
    (hp : Present (m (dirEntry c v))) (w : UInt32) : pteAddr m c v ≠ dirEntry c w := by
  intro e
  apply h.frame_ne hv hp
  rw [← frame_pteAddr, e, frame_of_dirEntry]

/-- Different pages have different entries. -/
theorem pteAddr_inj (h : UserDirectory m c) (hv : Present (m (dirEntry c v)))
    (hw : Present (m (dirEntry c w))) (e : pteAddr m c v = pteAddr m c w) :
    v.toNat / 4096 = w.toNat / 4096 :=
  page_eq_of_pteAddr e (h.apart v w hv hw)

theorem congr (h : UserDirectory m c) (hm : ∀ v, m' (dirEntry c v) = m (dirEntry c v)) :
    UserDirectory m' c := by
  refine ⟨h.kern.congr fun v _ => hm v, ?_, ?_⟩
  · intro v w hv hw
    rw [hm] at hv hw
    rw [hm, hm]
    exact h.apart v w hv hw
  · intro v hv hp
    rw [hm] at hp ⊢
    exact h.rights v hv hp

/-- A page table in a frame that the directory does not use is added for a user address. -/
theorem add (h : UserDirectory m c) (hv : v.toNat < 0xC0000000) (hal : F.toNat % 4096 = 0)
    (hF : ¬ OwnFrame m c F) (hpde : m' (dirEntry c v) = userDesc F)
    (hm : ∀ w, w.toNat / 2 ^ 22 ≠ v.toNat / 2 ^ 22 → m' (dirEntry c w) = m (dirEntry c w)) :
    UserDirectory m' c := by
  have hframe : frame (userDesc F) = F := by
    rw [frame_userDesc, frame_eq_self hal]
  have hsame : ∀ w : UInt32, w.toNat / 2 ^ 22 = v.toNat / 2 ^ 22 → m' (dirEntry c w) = userDesc F := by
    intro w hw
    rw [dirEntry_eq_of_div hw, hpde]
  refine ⟨h.kern.congr ?_, ?_, ?_⟩
  · intro w hw
    exact hm w (by omega)
  · intro u w hu hw e
    by_cases hu' : u.toNat / 2 ^ 22 = v.toNat / 2 ^ 22 <;>
      by_cases hw' : w.toNat / 2 ^ 22 = v.toNat / 2 ^ 22
    · omega
    · rw [hsame u hu', hm w hw', hframe] at e
      rw [hm w hw'] at hw
      exact absurd ⟨w, hw, e.symm⟩ hF
    · rw [hm u hu', hsame w hw', hframe] at e
      rw [hm u hu'] at hu
      exact absurd ⟨u, hu, e⟩ hF
    · rw [hm u hu'] at hu
      rw [hm w hw'] at hw
      rw [hm u hu', hm w hw'] at e
      exact h.apart u w hu hw e
  · intro w hw hp
    by_cases hw' : w.toNat / 2 ^ 22 = v.toNat / 2 ^ 22
    · rw [hsame w hw']
      exact rights_userDesc F
    · rw [hm w hw'] at hp ⊢
      exact h.rights w hw hp

end UserDirectory

namespace Vmm

variable {π : Type} {alloc : π → Option (PmAlloc × π)} {k l : Vmm π} {pdt : UInt32}
  {others : Set UInt32} {q : ℕ} {d : PmAlloc} {p : π}

/-! ### The address space of a task -/

/-- The directory of a task is loaded and lies in the allocated kernel page `pdt`; its tables are
no part of what translates the user half under the directories `others`. -/
structure UserSpace (k : Vmm π) (pdt : UInt32) (others : Set UInt32) : Prop where
  space : k.Space
  directory : UserDirectory k.mem k.cr3
  aligned : pdt.toNat % 4096 = 0
  page : ∃ q, kernPage? pdt = some q ∧ k.Allocated q
  mapped : translate k.mem k.cr3 pdt = some (frame k.cr3)
  elsewhere : ∀ c ∈ others, ∀ F, UserFrame k.mem c F → ¬ OwnFrame k.mem k.cr3 F

/-- The frame is in use by the task or by another one. -/
def FrameInUse (k : Vmm π) (others : Set UInt32) (F : UInt32) : Prop :=
  OwnFrame k.mem k.cr3 F ∨ ∃ c ∈ others, UserFrame k.mem c F

/-- The kernel address of a directory entry leads to the entry that the walk of the MMU reads. -/
theorem translate_userPdeVaddr (hal : pdt.toNat % 4096 = 0)
    (h : translate m c pdt = some (frame c)) (v : UInt32) :
    translate m c (userPdeVaddr pdt v) = some (dirEntry c v) := by
  have hv := v.toNat_lt
  have hframe : dirEntry c v = dirEntry (frame c) v := by
    rw [← UInt32.toNat_inj, dirEntry_toNat, dirEntry_toNat, frame_toNat]
    omega
  rw [userPdeVaddr_eq, translate_word hal h (by omega), hframe, dirEntry_eq_word (frame_aligned c)]

/-- `vmm_user_check_pt_present` tests the P bit. -/
theorem UserSpace.check_eq (h : k.UserSpace pdt others) (v : UInt32) :
    k.vmmUserCheckPtPresent pdt v = some (decide (Present (k.mem (dirEntry k.cr3 v)))) := by
  have hpde := translate_userPdeVaddr h.aligned h.mapped v
  simp only [vmmUserCheckPtPresent, read, hpde, Option.map_some, Option.bind_eq_bind,
    Option.bind_some, Words.eq_or_iff]
  rfl

/-- What the directories of other tasks translate is not changed by what is written elsewhere. -/
theorem UserSpace.elsewhere_congr (h : k.UserSpace pdt others)
    (hown : ∀ F, OwnFrame m' k.cr3 F → OwnFrame k.mem k.cr3 F ∨ ∀ c ∈ others, ¬ UserFrame k.mem c F)
    (hm : ∀ c ∈ others, ∀ a, UserFrame k.mem c (frame a) → m' a = k.mem a) :
    ∀ c ∈ others, ∀ F, UserFrame m' c F → ¬ OwnFrame m' k.cr3 F := by
  intro c hc F hF hF'
  have hF : UserFrame k.mem c F := hF.of_congr fun a ha => hm c hc a (Or.inl ha.symm)
  rcases hown F hF' with hk | hno
  · exact h.elsewhere c hc F hF hk
  · exact hno c hc hF

/-! ### The entry of the page -/

theorem UserSpace.update_of_userFrame (h : k.UserSpace pdt others)
    (hp : Present (k.mem (dirEntry k.cr3 v))) (x : UInt32) (hc : c ∈ others)
    (ha : UserFrame k.mem c (frame a)) :
    Function.update k.mem (pteAddr k.mem k.cr3 v) x a = k.mem a := by
  apply Function.update_of_ne
  rintro rfl
  apply h.elsewhere c hc _ ha
  rw [frame_pteAddr]
  exact ⟨v, hp, rfl⟩

section written

variable (h : k.UserSpace pdt others) (hv : v.toNat < 0xC0000000)
  (hp : Present (k.mem (dirEntry k.cr3 v)))

include h hv hp

theorem UserSpace.update_dirEntry (x w : UInt32) :
    Function.update k.mem (pteAddr k.mem k.cr3 v) x (dirEntry k.cr3 w) = k.mem (dirEntry k.cr3 w) :=
  Function.update_of_ne (h.directory.pteAddr_ne (by omega) hp w).symm _ _

/-- Writing the entry of a user page changes the translation of no other page. -/
theorem UserSpace.translate_update (x : UInt32) (hne : w.toNat / 4096 ≠ v.toNat / 4096) :
    translate (Function.update k.mem (pteAddr k.mem k.cr3 v) x) k.cr3 w =
      translate k.mem k.cr3 w := by
  apply translate_congr (h.update_dirEntry hv hp x w)
  intro hw
  apply Function.update_of_ne
  intro e
  exact hne (h.directory.pteAddr_inj hw hp e)

/-- A task keeps its address space when an entry is written into one of its user page tables. -/
theorem UserSpace.update (x : UInt32) (p : π) : UserSpace
    { k with pmm := p, mem := Function.update k.mem (pteAddr k.mem k.cr3 v) x } pdt others := by
  have hdir := h.update_dirEntry hv hp x
  have hdirectory := h.directory.congr hdir
  obtain ⟨r, hr, hw, hbusy⟩ := h.page
  have hlo := (kernPage_eq_some.mp hr).1
  refine ⟨⟨⟨h.space.pooled.pool, h.space.pooled.stored⟩, hdirectory.kern, h.space.window⟩, hdirectory,
    h.aligned, ⟨r, hr, hw, hbusy⟩, ?_, ?_⟩
  · exact (h.translate_update hv hp x (by omega)).trans h.mapped
  · apply h.elsewhere_congr
    · rintro F ⟨w, hw, e⟩
      exact Or.inl ⟨w, hdir w ▸ hw, (congrArg frame (hdir w)).symm.trans e⟩
    · intro c hc a ha
      exact h.update_of_userFrame hp x hc ha

/-- The page is mapped to the frame that is written into its entry. -/
theorem UserSpace.translate_update_self (addr : UInt32) (hpage : w.toNat / 4096 = v.toNat / 4096) :
    translate (Function.update k.mem (pteAddr k.mem k.cr3 v) (userDesc addr)) k.cr3 w =
      some (frame addr + (w &&& 0xFFF)) := by
  have hdir := h.update_dirEntry hv hp (userDesc addr) w
  have hentry : dirEntry k.cr3 w = dirEntry k.cr3 v := dirEntry_eq_of_div (by omega)
  have hpte : pte (Function.update k.mem (pteAddr k.mem k.cr3 v) (userDesc addr)) k.cr3 w =
      userDesc addr := by
    rw [pte, pteAddr_congr hdir, pteAddr_page hpage, Function.update_self]
  rw [translate_eq, hdir, hentry, if_pos hp, hpte, if_pos (present_userDesc addr), frame_userDesc]

end written

/-! ### A kernel page that was just mapped -/

theorem OwnFrame.of_tableFrame (h : KernDirectory m c) (hF : TableFrame m c F) : OwnFrame m c F := by
  obtain ⟨v, hv, e⟩ := hF
  exact ⟨v, h.present v hv, e⟩

/-- The directory is one of its own tables. -/
theorem ownFrame_self (h : KernDirectory m c) : OwnFrame m c (frame c) :=
  ⟨0xFFFFF000, h.self.present, h.self.own⟩

theorem PageMapped.not_tableFrame (hm : PageMapped alloc k l q d) (h : k.Space)
    (hF : ¬ TableFrame k.mem k.cr3 F) : ¬ TableFrame l.mem l.cr3 F := by
  rintro ⟨v, hv, e⟩
  rw [hm.cr3, hm.dirEntry h] at e
  exact hF ⟨v, hv, e⟩

/-- A page that was just mapped can be written without losing it, when its frame is no table. -/
theorem PageMapped.window (hm : PageMapped alloc k l q d) (h : k.Space)
    (hF : ¬ TableFrame k.mem k.cr3 (frame d.addr)) :
    Window l.mem l.cr3 (kernAddr q) (frame d.addr) (frame d.addr) := by
  intro m' hm' i hi
  have hdir := (hm.space h).directory
  have hF' := hm.not_tableFrame h hF
  obtain ⟨hlo, -⟩ := kernAddr_range (h.window q hm.free)
  have hal := kernAddr_aligned (h.pooled.page_lt hm.free)
  have hoff : kernAddr q &&& 0xFFF = 0 := Words.and_offset_of_aligned hal
  apply translate_word hal ?_ hi
  rw [(hdir.of_frame hF' hm').translate_eq hlo, hdir.pte_of_frame hF' hm' hlo, if_pos hm.present,
    hm.entry, hoff, UInt32.add_zero]

/-- It is also translated by the kernel to that frame. -/
theorem PageMapped.vmmV2p_eq (hm : PageMapped alloc k l q d) (h : k.Space)
    (hF : ¬ TableFrame k.mem k.cr3 (frame d.addr))
    (hsame : ∀ a, frame a ≠ frame d.addr → m' a = l.mem a) :
    vmmV2p m' l.cr3 (kernAddr q) = some (frame d.addr) := by
  have hdir := (hm.space h).directory
  have hF' := hm.not_tableFrame h hF
  have hdir' := hdir.of_frame hF' hsame
  obtain ⟨hlo, -⟩ := kernAddr_range (h.window q hm.free)
  have hal := kernAddr_aligned (h.pooled.page_lt hm.free)
  have hlow : (0x00000FFF &&& kernAddr q) = 0 := by
    rw [UInt32.and_comm, Words.and_offset_of_aligned hal]
  have hentry : frame (pte m' l.cr3 (kernAddr q)) = frame d.addr := by
    rw [hdir.pte_of_frame hF' hsame hlo, hm.entry]
  rw [hdir'.self.vmmV2p_eq (hdir'.present _ hlo), hlow, UInt32.or_zero]
  exact congrArg some hentry

/-- The directory stays mapped to its page. -/
theorem UserSpace.mapped_of_frame (h : k.UserSpace pdt others) (hm : PageMapped alloc k l q d)
    (hF : ¬ TableFrame k.mem k.cr3 (frame d.addr))
    (hsame : ∀ a, frame a ≠ frame d.addr → m' a = l.mem a) :
    translate m' l.cr3 pdt = some (frame l.cr3) := by
  have hdir := (hm.space h.space).directory
  have hF' := hm.not_tableFrame h.space hF
  obtain ⟨r, hr, -, hbusy⟩ := h.page
  have hpdt := (kernPage_eq_some.mp hr).1
  have hother : kernPage? pdt ≠ some q := by
    rw [hr]
    intro e
    exact hbusy (Option.some.inj e ▸ hm.free)
  rw [(hdir.of_frame hF' hsame).translate_eq hpdt, hdir.pte_of_frame hF' hsame hpdt,
    hm.others pdt hpdt hother, ← h.space.directory.translate_eq hpdt, h.mapped, hm.cr3]

/-! ### The first address space -/

section create

variable {u : Vmm π} (h : k.Space) (hm : PageMapped alloc k u q d)

section others

variable (hF' : ∀ c ∈ others, ¬ UserFrame k.mem c (frame d.addr))
  (hothers : ∀ c ∈ others, ∀ v : UInt32, 0xC0000000 ≤ v.toNat → v.toNat < 0xFFC00000 →
    ¬ UserFrame k.mem c (frame (k.mem (dirEntry k.cr3 v))))

include h hm hF' hothers

/-- The user halves of the other tasks have the tables that they had. -/
theorem userFrame_pdtMem (hc : c ∈ others)
    (hG : UserFrame (pdtMem (frame d.addr) u.cr3 u.mem) c G) : UserFrame k.mem c G := by
  obtain ⟨hlo, hhi⟩ := kernAddr_range (h.window q hm.free)
  apply hG.of_congr
  intro a ha
  have hcF : UserFrame k.mem c (frame a) := Or.inl ha.symm
  have hne : frame a ≠ frame d.addr := fun e => hF' c hc (e ▸ hcF)
  have hslot : a ≠ k.slotOf q := by
    rintro rfl
    rw [slotOf, frame_pteAddr] at hcF
    exact hothers c hc _ hlo hhi hcF
  rw [pdtMem_of_frame (frame_aligned d.addr) hne, hm.words a hslot]

end others

variable (hc : k.cr3.toNat % 4096 = 0)

include h hm hc

/-- The entries of the new directory for the kernel half are those of the loaded one. -/
theorem pdtMem_kern (hlo : 0xC0000000 ≤ v.toNat) (hhi : v.toNat < 0xFFC00000) :
    pdtMem (frame d.addr) u.cr3 u.mem (dirEntry (frame d.addr) v) = k.mem (dirEntry k.cr3 v) := by
  have hal := frame_aligned d.addr
  rw [dirEntry_eq_word hal, pdtMem_word hal (by omega), if_neg (by omega), hm.cr3,
    ← dirEntry_eq_word hc, hm.dirEntry h]

/-- The tables of the new directory are those of the kernel, and itself. -/
theorem ownFrame_pdtMem (hG : OwnFrame (pdtMem (frame d.addr) u.cr3 u.mem) (frame d.addr) G) :
    (∃ v : UInt32, 0xC0000000 ≤ v.toNat ∧ v.toNat < 0xFFC00000 ∧
      frame (k.mem (dirEntry k.cr3 v)) = G) ∨ frame d.addr = G := by
  have hal := frame_aligned d.addr
  obtain ⟨v, hp, e⟩ := hG
  rcases Nat.lt_or_ge v.toNat 0xC0000000 with hlt | hge
  · rw [pdtMem_user hal hlt] at hp
    exact absurd hp (by decide)
  · rcases Nat.lt_or_ge v.toNat 0xFFC00000 with hlt | hge'
    · rw [pdtMem_kern h hm hc hge hlt] at e
      exact Or.inl ⟨v, hge, hlt, e⟩
    · rw [pdtMem_self hal hge', frame_kernDesc, frame_eq_self hal] at e
      exact Or.inr e

variable (hF : ¬ TableFrame k.mem k.cr3 (frame d.addr))

include hF

/-- `create_user_task_pdt` after it got its page. -/
theorem createUserTaskPdt_mapped (hg : vmmKernAlloc alloc k = some (kernAddr q, u)) :
    createUserTaskPdt alloc k =
      some (kernAddr q, { u with mem := pdtMem (frame d.addr) u.cr3 u.mem }) := by
  have hal := frame_aligned d.addr
  have hc' : u.cr3.toNat % 4096 = 0 := hm.cr3 ▸ hc
  have hne : u.cr3 ≠ frame d.addr := by
    intro e
    apply hF
    rw [← e, hm.cr3]
    exact ⟨0xFFFFF000, by decide, h.directory.self.own.trans (frame_eq_self hc)⟩
  apply createUserTaskPdt_of_window hg (h.pooled.page_lt hm.free) (hm.space h).directory.self hc' hal
    hne (hm.window h hF)
  exact hm.vmmV2p_eq h hF fun a => copiedMem_of_frame hal

theorem kernDirectory_pdtMem : KernDirectory (pdtMem (frame d.addr) u.cr3 u.mem) (frame d.addr) := by
  have hentry : ∀ v : UInt32, 0xC0000000 ≤ v.toNat → v.toNat < 0xFFC00000 →
      pdtMem (frame d.addr) u.cr3 u.mem (dirEntry (frame d.addr) v) = k.mem (dirEntry k.cr3 v) :=
    fun v => pdtMem_kern h hm hc
  have hal := frame_aligned d.addr
  have hframe := frame_eq_self hal
  refine ⟨⟨?_, ?_⟩, ?_, ?_⟩
  · rw [pdtMem_self hal (by decide)]
    exact present_kernDesc _
  · rw [pdtMem_self hal (by decide), frame_kernDesc]
  · intro v hv
    rcases Nat.lt_or_ge v.toNat 0xFFC00000 with hlt | hge
    · rw [hentry v hv hlt]
      exact h.directory.present v hv
    · rw [pdtMem_self hal hge]
      exact present_kernDesc _
  · intro v w hv hw e
    have hv' := v.toNat_lt
    have hw' := w.toNat_lt
    rcases Nat.lt_or_ge v.toNat 0xFFC00000 with hlt | hge <;>
      rcases Nat.lt_or_ge w.toNat 0xFFC00000 with hlt' | hge'
    · rw [hentry v hv hlt, hentry w hw hlt'] at e
      exact h.directory.apart v w hv hw e
    · rw [hentry v hv hlt, pdtMem_self hal hge', frame_kernDesc, hframe] at e
      exact absurd ⟨v, hv, e⟩ hF
    · rw [pdtMem_self hal hge, hentry w hw hlt', frame_kernDesc, hframe] at e
      exact absurd ⟨w, hw, e.symm⟩ hF
    · omega

/-- The page of the new directory is mapped to it there too. -/
theorem translate_pdtMem : translate (pdtMem (frame d.addr) u.cr3 u.mem) (frame d.addr) (kernAddr q) =
    some (frame (frame d.addr)) := by
  have hal := frame_aligned d.addr
  obtain ⟨hlo, hhi⟩ := kernAddr_range (h.window q hm.free)
  have hT := hm.not_tableFrame h hF
  have hdir : pdtMem (frame d.addr) u.cr3 u.mem (dirEntry (frame d.addr) (kernAddr q)) =
      u.mem (dirEntry u.cr3 (kernAddr q)) := by
    rw [pdtMem_kern h hm hc hlo hhi, hm.cr3, hm.dirEntry h]
  have haddr : pteAddr (pdtMem (frame d.addr) u.cr3 u.mem) (frame d.addr) (kernAddr q) =
      pteAddr u.mem u.cr3 (kernAddr q) := by
    rw [pteAddr, hdir, pteAddr]
  have hpte : pte (pdtMem (frame d.addr) u.cr3 u.mem) (frame d.addr) (kernAddr q) =
      pte u.mem u.cr3 (kernAddr q) := by
    rw [pte, haddr, pte]
    apply pdtMem_of_frame hal
    rw [frame_pteAddr]
    exact fun e => hT ⟨_, hlo, e⟩
  have hoff : kernAddr q &&& 0xFFF = 0 :=
    Words.and_offset_of_aligned (kernAddr_aligned (h.pooled.page_lt hm.free))
  rw [(kernDirectory_pdtMem h hm hc hF).translate_eq hlo, hpte, if_pos hm.present, hm.entry, hoff,
    UInt32.add_zero, frame_eq_self hal]

/-- The new directory is that of a user task. -/
theorem userSpace_pdtMem (hF' : ∀ c ∈ others, ¬ UserFrame k.mem c (frame d.addr))
    (hothers : ∀ c ∈ others, ∀ v : UInt32, 0xC0000000 ≤ v.toNat → v.toNat < 0xFFC00000 →
      ¬ UserFrame k.mem c (frame (k.mem (dirEntry k.cr3 v)))) :
    UserSpace { u with mem := pdtMem (frame d.addr) u.cr3 u.mem, cr3 := frame d.addr }
      (kernAddr q) others := by
  have hal := frame_aligned d.addr
  have hpage := h.pooled.page_lt hm.free
  have hw := h.window q hm.free
  have hu := hm.space h
  have hkern := kernDirectory_pdtMem h hm hc hF
  have hclear : ∀ v : UInt32, v.toNat < 0xC0000000 →
      ¬ Present (pdtMem (frame d.addr) u.cr3 u.mem (dirEntry (frame d.addr) v)) := by
    intro v hv
    rw [pdtMem_user hal hv]
    decide
  have hbusy : q ∉ u.freePages := by
    rw [hm.taken]
    exact fun hq => hq.2 rfl
  have helsewhere : ∀ c ∈ others, ∀ F, UserFrame (pdtMem (frame d.addr) u.cr3 u.mem) c F →
      ¬ OwnFrame (pdtMem (frame d.addr) u.cr3 u.mem) (frame d.addr) F := by
    intro c hc' F hF₁ hF₂
    have hold := userFrame_pdtMem h hm hF' hothers hc' hF₁
    rcases ownFrame_pdtMem h hm hc hF₂ with ⟨v, hlo, hhi, e⟩ | e
    · exact hothers c hc' v hlo hhi (e ▸ hold)
    · exact hF' c hc' (e ▸ hold)
  exact ⟨⟨⟨hu.pooled.pool, hu.pooled.stored⟩, hkern, hu.window⟩, .of_clear hkern hclear,
    kernAddr_aligned hpage, ⟨q, kernPage_kernAddr hpage, hw, hbusy⟩, translate_pdtMem h hm hc hF,
    helsewhere⟩

end create

/-- **`create_user_task_pdt` builds the directory of a user task**: once it is loaded, the task has
an address space of its own. -/
theorem userSpace_of_create {a : UInt32} (h : k.Space) (hc : k.cr3.toNat % 4096 = 0)
    (hunused : ∀ d p, alloc k.pmm = some (d, p) → d.state ≠ 0 →
      ¬ TableFrame k.mem k.cr3 (frame d.addr) ∧ ∀ c ∈ others, ¬ UserFrame k.mem c (frame d.addr))
    (hothers : ∀ c ∈ others, ∀ v : UInt32, 0xC0000000 ≤ v.toNat → v.toNat < 0xFFC00000 →
      ¬ UserFrame k.mem c (frame (k.mem (dirEntry k.cr3 v))))
    (hr : createUserTaskPdt alloc k = some (a, l)) (hok : a ≠ userTaskInitErro) :
    ∃ F, vmmV2p l.mem l.cr3 a = some F ∧ UserSpace { l with cr3 := F } a others := by
  obtain ⟨⟨b, u⟩, hu, hrest⟩ := Option.bind_eq_some_iff.mp hr
  by_cases hb : b = kernVmmAllocErro
  · simp only [if_pos hb, Option.some.injEq, Prod.mk.injEq] at hrest
    exact absurd hrest.1.symm hok
  · obtain ⟨q, d, -, rfl, hm⟩ := h.mapped_of_vmmKernAlloc hu hb
    obtain ⟨hF, hF'⟩ := hunused d u.pmm hm.handed.1 hm.handed.2
    have he := createUserTaskPdt_mapped h hm hc hF hu
    obtain ⟨rfl, rfl⟩ := Prod.mk.inj (Option.some.inj (he.symm.trans hr))
    exact ⟨frame d.addr, hm.vmmV2p_eq h hF fun a => pdtMem_of_frame (frame_aligned d.addr),
      userSpace_pdtMem h hm hc hF hF' hothers⟩

end Vmm
end BHOS
