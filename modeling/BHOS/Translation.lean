import BHOS.VmmSteps

/-! # Translation by the kernel and by the MMU

`check_vaddr_present` looks for the directory entry and the table entry of an address through the
self-mapped directory, and `vmm_v2p` computes the physical address from the table entry.  Both
presence tests are of the form `x==x|1`, that is `(x==x)|1`, and so hold of every `x`.  An address
is therefore translated as the MMU does it exactly when it is mapped: without a page table the
second test faults, and the entry of a page that was released is still taken for a present one. -/

namespace BHOS

variable {m : PhysMem} {cr3 v : UInt32}

/-- The directory entry and the table entry of an address are present. -/
def Mapped (m : PhysMem) (cr3 v : UInt32) : Prop :=
  Present (m (dirEntry cr3 v)) ∧ Present (m (tableEntry (m (dirEntry cr3 v)) v))

instance : Decidable (Mapped m cr3 v) := inferInstanceAs (Decidable (_ ∧ _))

/-- `check_vaddr_present` tells whether an address is mapped, without a fault, and `vmm_v2p`
returns the physical address of a mapped address and `V2P_ERROR` for any other. -/
structure V2pAgrees (m : PhysMem) (cr3 v : UInt32) : Prop where
  check : checkVaddrPresent m cr3 v = some (decide (Mapped m cr3 v))
  mapped : Mapped m cr3 v →
    vmmV2p m cr3 v = some (frame (m (tableEntry (m (dirEntry cr3 v)) v)) ||| (v &&& 0xFFF))
  unmapped : ¬ Mapped m cr3 v → vmmV2p m cr3 v = some v2pError

/-! ### The walk of the MMU -/

theorem frame_or_offset (x v : UInt32) : frame x ||| (v &&& 0xFFF) = frame x + (v &&& 0xFFF) := by
  have hx : (frame x).toNat % 2 ^ 12 = 0 := by
    rw [frame_toNat]
    omega
  have hv : (v &&& 0xFFF).toNat < 2 ^ 12 := by
    rw [Words.toNat_and_offset]
    omega
  rw [← UInt32.toNat_inj, Words.toNat_or _ _ 12 hx hv, frame_add_offset_toNat, frame_toNat,
    Words.toNat_and_offset]

/-- The MMU translates exactly the mapped addresses. -/
theorem translate_isSome_iff : (translate m cr3 v).isSome ↔ Mapped m cr3 v := by
  unfold translate Mapped
  split_ifs with h₁ h₂
  · exact iff_of_true rfl ⟨h₁, h₂⟩
  · exact iff_of_false (by simp) fun h => h₂ h.2
  · exact iff_of_false (by simp) fun h => h₁ h.1

/-- Where `vmm_v2p` agrees on a mapped address, its value is the one of the MMU. -/
theorem V2pAgrees.eq_translate (h : V2pAgrees m cr3 v) (hm : Mapped m cr3 v) :
    vmmV2p m cr3 v = translate m cr3 v := by
  rw [h.mapped hm, translate, if_pos hm.1, if_pos hm.2, frame_or_offset]

/-! ### The tests of `check_vaddr_present` -/

/-- Where the page table is present, the address is taken for a mapped one. -/
theorem SelfMapped.checkVaddrPresent_eq (h : SelfMapped m cr3)
    (hp : Present (m (dirEntry cr3 v))) : checkVaddrPresent m cr3 v = some true := by
  have htest : (1 ||| 0x00000001 : UInt32) ≠ 0 := by decide
  simp only [checkVaddrPresent, readWord, h.translate_getPde, h.translate_getPte, if_pos hp,
    Option.map_some, Option.bind_eq_bind, Option.bind_some, if_true, if_pos htest]

/-- Without a page table the second test reads an unmapped address. -/
theorem SelfMapped.checkVaddrPresent_fault (h : SelfMapped m cr3)
    (hp : ¬ Present (m (dirEntry cr3 v))) : checkVaddrPresent m cr3 v = none := by
  have htest : (1 ||| 0x00000001 : UInt32) ≠ 0 := by decide
  simp only [checkVaddrPresent, readWord, h.translate_getPde, h.translate_getPte, if_neg hp,
    Option.map_some, Option.map_none, Option.bind_eq_bind, Option.bind_some, Option.bind_none,
    if_true, if_pos htest]

theorem SelfMapped.v2pAgrees_of_mapped (h : SelfMapped m cr3) (hm : Mapped m cr3 v) :
    V2pAgrees m cr3 v := by
  constructor
  · rw [h.checkVaddrPresent_eq hm.1, decide_eq_true hm]
  · intro _
    rw [h.vmmV2p_eq hm.1, UInt32.and_comm]
  · intro hn
    exact absurd hm hn

theorem SelfMapped.mapped_of_v2pAgrees (h : SelfMapped m cr3) (ha : V2pAgrees m cr3 v) :
    Mapped m cr3 v := by
  have hcheck := ha.check
  by_cases hp : Present (m (dirEntry cr3 v))
  · rw [h.checkVaddrPresent_eq hp, Option.some.injEq] at hcheck
    exact of_decide_eq_true hcheck.symm
  · rw [h.checkVaddrPresent_fault hp] at hcheck
    cases hcheck

namespace Vmm

variable {π : Type} {s t : Vmm π} {dir : UInt32} {q : ℕ}

/-! ### After a release -/

/-- A released page is not mapped: the word that a release changes is the table entry of the
page, or the walk of the page ends before it. -/
theorem not_mapped_of_release (h : SelfMapped s.mem s.cr3) (hv : 0xC0000000 ≤ v)
    (ht : vmmKernReleaseOnePage s v = some t) : ¬ Mapped t.mem t.cr3 v := by
  unfold vmmKernReleaseOnePage at ht
  rw [if_neg (UInt32.not_lt.mpr hv)] at ht
  obtain ⟨m, -, ht⟩ := Option.bind_eq_some_iff.mp ht
  obtain ⟨desc, hread, ht⟩ := Option.bind_eq_some_iff.mp ht
  simp only [read, write, h.translate_getPte] at hread ht
  by_cases hp : Present (s.mem (dirEntry s.cr3 v))
  · simp only [if_pos hp, Option.map_some, Option.some.injEq] at hread ht
    subst hread
    subst ht
    unfold Mapped
    simp only
    rintro ⟨hdir, htable⟩
    have hne : dirEntry s.cr3 v ≠ tableEntry (s.mem (dirEntry s.cr3 v)) v := by
      intro e
      rw [← e, Function.update_self] at hdir
      exact not_present_release _ hdir
    simp only [Function.update_of_ne hne, Function.update_self] at htable
    exact not_present_release _ htable
  · simp only [if_neg hp, Option.map_none] at hread
    cases hread

/-- What `vmm_v2p` returns for a released kernel page: the address it was mapped to. -/
theorem Ready.vmmV2p_of_release (h : s.Ready dir) (hq : kernPage? v = some q)
    (hw : q < windowPage) : ∃ t, vmmKernReleaseOnePage s v = some t ∧ t.Ready dir ∧
      vmmV2p t.mem t.cr3 v = some (frame (s.mem (slot dir q)) ||| (0x00000FFF &&& v)) := by
  obtain ⟨t, ht, hready, heff⟩ := h.release_effect (fun _ => none) hq hw
  refine ⟨t, ht, hready, ?_⟩
  cases heff with
  | idle hkind => exact absurd rfl (hkind v)
  | refused r _ htakes => exact htakes.elim
  | mapped r _ htakes => exact htakes.elim
  | unmapped target r hkind hr _ hmem =>
      obtain rfl := (KernOp.releaseOnePage.inj hkind)
      obtain rfl := Option.some.inj (hr.symm.trans hq)
      obtain ⟨hp, he⟩ := hready.tables.tableEntry_eq hq hw
      have hframe : ∀ x : UInt32, frame (x &&& 0xFFFFFFFE) = frame x := by
        intro x
        rw [frame, frame, UInt32.and_assoc]
        rfl
      rw [hready.cr3, hready.tables.selfMapped.vmmV2p_eq hp, he, hmem, Function.update_self,
        hframe]

/-- **Translation by the kernel agrees with the MMU** exactly at the addresses that are mapped,
and so never at a page that was just released. -/
theorem v2pAgrees_iff_mapped (s : Vmm π) (v : UInt32) (h : SelfMapped s.mem s.cr3) :
    (V2pAgrees s.mem s.cr3 v ↔ Mapped s.mem s.cr3 v) ∧
      ∀ t, 0xC0000000 ≤ v → vmmKernReleaseOnePage s v = some t → SelfMapped t.mem t.cr3 →
        ¬ V2pAgrees t.mem t.cr3 v := by
  refine ⟨⟨h.mapped_of_v2pAgrees, h.v2pAgrees_of_mapped⟩, ?_⟩
  intro t hv ht hself ha
  exact not_mapped_of_release h hv ht (hself.mapped_of_v2pAgrees ha)

/-- A directory at `0x1000` that maps itself and has a table at `0x2000` for `0xC0000000`, with
one entry, of the frame `0x5000`. -/
def oneTable : PhysMem := fun a =>
  if a = 0x1C00 then 0x2003 else if a = 0x1FFC then 0x1003 else if a = 0x2000 then 0x5103 else 0

/-- The pool and the page tables of one kernel page. -/
def onePage : Vmm Unit := ⟨oneTable, 0x1000, kernPool 0x9000, (kernPool 0x9000).blankMem, ()⟩

theorem v2pAgrees_iff_mapped_onePage :
    V2pAgrees onePage.mem onePage.cr3 0xC0000123 ∧ ¬ V2pAgrees onePage.mem onePage.cr3 0xC0001000 := by
  have hself : SelfMapped onePage.mem onePage.cr3 := ⟨by decide, by decide⟩
  exact ⟨(v2pAgrees_iff_mapped onePage 0xC0000123 hself).1.mpr (by decide),
    fun h => absurd ((v2pAgrees_iff_mapped onePage 0xC0001000 hself).1.mp h) (by decide)⟩

/-- After the release of the page, `vmm_v2p` still returns the frame. -/
theorem not_v2pAgrees_released : ∃ t, vmmKernReleaseOnePage onePage 0xC0000000 = some t ∧
    SelfMapped t.mem t.cr3 ∧ ¬ Mapped t.mem t.cr3 0xC0000000 ∧
    checkVaddrPresent t.mem t.cr3 0xC0000000 = some true ∧
    vmmV2p t.mem t.cr3 0xC0000000 = some 0x5000 ∧ ¬ V2pAgrees t.mem t.cr3 0xC0000000 := by
  have hrun : (vmmKernReleaseOnePage onePage 0xC0000000).map (fun t =>
      decide ((Present (t.mem (dirEntry t.cr3 0xFFFFF000)) ∧
        frame (t.mem (dirEntry t.cr3 0xFFFFF000)) = frame t.cr3) ∧
        ¬ Mapped t.mem t.cr3 0xC0000000 ∧
        checkVaddrPresent t.mem t.cr3 0xC0000000 = some true ∧
        vmmV2p t.mem t.cr3 0xC0000000 = some 0x5000)) = some true := by
    decide +kernel
  obtain ⟨t, ht, hd⟩ := Option.map_eq_some_iff.mp hrun
  obtain ⟨hself, hno, hcheck, hv2p⟩ := of_decide_eq_true hd
  refine ⟨t, ht, ⟨hself.1, hself.2⟩, hno, hcheck, hv2p, ?_⟩
  intro ha
  have herr := ha.unmapped hno
  rw [hv2p] at herr
  exact absurd herr (by decide)

end Vmm
end BHOS
