import BHOS.AddressSpace
import BHOS.KernelCalls
import BHOS.UserVmm

/-! # Building a user directory

`create_user_task_pdt` fills a new page by its virtual address.  `Window m c v P W` says that the
page at `v` is mapped to the frame `P` and stays so while words are written into the frame `W`;
with it the loops of `memset` and `memcpy` are writes into physical memory (`fillWords`).  What
`create_user_task_pdt` leaves is a user directory as `active_task` expects it (`UserPdt`). -/

namespace BHOS

variable {m m' : PhysMem} {dir c v w F P W a x : UInt32} {i j k n q : ℕ} {f : ℕ → UInt32}

/-! ### Words of a frame -/

/-- The word of a frame with a number below 1024. -/
def word (F : UInt32) (i : ℕ) : UInt32 := F + UInt32.ofNat i * 4

theorem word_toNat (hF : F.toNat % 4096 = 0) (hi : i < 1024) : (word F i).toNat = F.toNat + 4 * i := by
  have h := F.toNat_lt
  simp only [word, UInt32.toNat_add, UInt32.toNat_mul, UInt32.toNat_ofNat', UInt32.reduceToNat]
  omega

theorem frame_word (hF : F.toNat % 4096 = 0) (hi : i < 1024) : frame (word F i) = F := by
  rw [← UInt32.toNat_inj, frame_toNat, word_toNat hF hi]
  omega

theorem frame_eq_self (hF : F.toNat % 4096 = 0) : frame F = F := by
  rw [← UInt32.toNat_inj, frame_toNat]
  omega

theorem frame_aligned (x : UInt32) : (frame x).toNat % 4096 = 0 := by
  rw [frame_toNat]
  omega

theorem word_ne (hF : F.toNat % 4096 = 0) (hi : i < 1024) (hj : j < 1024) (h : i ≠ j) :
    word F i ≠ word F j := by
  intro e
  have e := congrArg UInt32.toNat e
  rw [word_toNat hF hi, word_toNat hF hj] at e
  omega

theorem dirEntry_eq_word (hF : F.toNat % 4096 = 0) (v : UInt32) :
    dirEntry F v = word F (v.toNat / 2 ^ 22) := by
  have hv := v.toNat_lt
  rw [← UInt32.toNat_inj, dirEntry_toNat, word_toNat hF (by omega)]
  omega

theorem frame_dirEntry (hF : F.toNat % 4096 = 0) (v : UInt32) : frame (dirEntry F v) = F := by
  have hv := v.toNat_lt
  rw [dirEntry_eq_word hF, frame_word hF (by omega)]

/-- `n` words of the frame `F` from number `k` on. -/
def fillWords (F : UInt32) (f : ℕ → UInt32) : ℕ → ℕ → PhysMem → PhysMem
  | _, 0, m => m
  | k, n + 1, m => fillWords F f (k + 1) n (Function.update m (word F k) (f k))

theorem fillWords_of_frame (hF : F.toNat % 4096 = 0) (hk : k + n ≤ 1024) (ha : frame a ≠ F) :
    fillWords F f k n m a = m a := by
  induction n generalizing k m with
  | zero => rfl
  | succ n ih =>
      rw [fillWords, ih (by omega), Function.update_of_ne]
      rintro rfl
      exact ha (frame_word hF (by omega))

theorem fillWords_word (hF : F.toNat % 4096 = 0) (hk : k + n ≤ 1024) (hi : i < 1024) :
    fillWords F f k n m (word F i) = if k ≤ i ∧ i < k + n then f i else m (word F i) := by
  induction n generalizing k m with
  | zero => rw [fillWords, if_neg (by omega)]
  | succ n ih =>
      rw [fillWords, ih (by omega)]
      by_cases hik : i = k
      · subst hik
        rw [if_neg (by omega), if_pos (by omega), Function.update_self]
      · rw [Function.update_of_ne (word_ne hF hi (by omega) hik)]
        refine if_congr ?_ rfl rfl
        omega

/-- The directory or table entry for a frame of a user task. -/
def userDesc (addr : UInt32) : UInt32 := (addr &&& 0xFFFFF000) + 0x2 + 0x4 + 0x100 + 0x1

theorem frame_userDesc (addr : UInt32) : frame (userDesc addr) = frame addr := by
  have h := addr.toNat_lt
  rw [← UInt32.toNat_inj, frame_toNat, frame_toNat]
  simp only [userDesc, UInt32.toNat_add, Words.toNat_and_frame, UInt32.reduceToNat]
  omega

/-- Translation keeps the offset in the page. -/
theorem translate_offset (h : translate m c v = some a) : a.toNat % 4096 = v.toNat % 4096 := by
  unfold translate at h
  split_ifs at h
  obtain rfl := Option.some.inj h
  rw [frame_add_offset_toNat]
  omega

/-! ### Windows -/

/-- The page at `v` is mapped to the frame `P`, whatever is written into the frame `W`. -/
def Window (m : PhysMem) (c v P W : UInt32) : Prop :=
  ∀ m' : PhysMem, (∀ a, frame a ≠ W → m' a = m a) → ∀ i < 1024,
    translate m' c (word v i) = some (word P i)

theorem Window.here (h : Window m c v P W) (hi : i < 1024) :
    translate m c (word v i) = some (word P i) := h m (fun _ _ => rfl) i hi

/-- Writes into the frame keep the window. -/
theorem Window.of_frame (h : Window m c v P W) (hm : ∀ a, frame a ≠ W → m' a = m a) :
    Window m' c v P W := fun m'' hm'' => h m'' fun a ha => (hm'' a ha).trans (hm a ha)

theorem Window.update (h : Window m c v P W) (ha : frame a = W) :
    Window (Function.update m a x) c v P W := by
  refine h.of_frame fun b hb => Function.update_of_ne ?_ _ _
  rintro rfl
  exact hb ha

theorem word_succ (v : UInt32) (i : ℕ) : word v i + 4 = word v (i + 1) := by
  rw [← UInt32.toNat_inj]
  simp only [word, UInt32.toNat_add, UInt32.toNat_mul, UInt32.toNat_ofNat', UInt32.reduceToNat]
  omega

namespace Vmm

variable {π : Type} {s : Vmm π}

theorem write_window (h : Window s.mem s.cr3 v P W) (hi : i < 1024) :
    s.write (word v i) x = some { s with mem := Function.update s.mem (word P i) x } := by
  rw [write, h.here hi, Option.map_some]

theorem read_window (h : Window s.mem s.cr3 v P W) (hi : i < 1024) :
    s.read (word v i) = some (s.mem (word P i)) := by
  rw [read, h.here hi, Option.map_some]

/-- `memset` in a page that is mapped to `F`. -/
theorem memsetZero_eq (h : Window s.mem s.cr3 v F F) (hF : F.toNat % 4096 = 0)
    (hk : k + n ≤ 1024) : memsetZero n (word v k) s =
      some { s with mem := fillWords F (fun _ => 0) k n s.mem } := by
  induction n generalizing s k with
  | zero => rfl
  | succ n ih =>
      have hw := write_window h (by omega : k < 1024) (x := 0)
      simp only [memsetZero, hw, Option.bind_eq_bind, Option.bind_some, word_succ]
      exact ih (h.update (frame_word hF (by omega))) (by omega)

/-- `memcpy` from a page that is mapped to `P`, whose words are `f`, into one that is mapped to
`F`. -/
theorem memcpy_eq (h : Window s.mem s.cr3 v F F) (hsrc : Window s.mem s.cr3 w P F)
    (hF : F.toNat % 4096 = 0) (hP : P.toNat % 4096 = 0) (hne : P ≠ F)
    (hf : ∀ i < 1024, s.mem (word P i) = f i) (hk : k + n ≤ 1024) :
    memcpy n (word v k) (word w k) s = some { s with mem := fillWords F f k n s.mem } := by
  induction n generalizing s k with
  | zero => rfl
  | succ n ih =>
      have hk' : k < 1024 := by omega
      have hr := read_window hsrc hk'
      have hw := write_window h hk' (x := f k)
      have hframe := frame_word hF hk'
      simp only [memcpy, hr, hf k hk', hw, Option.bind_eq_bind, Option.bind_some, word_succ]
      refine ih (h.update hframe) (hsrc.update hframe) (fun i hi => ?_) (by omega)
      rw [← hf i hi]
      refine Function.update_of_ne ?_ _ _
      intro e
      have e := congrArg frame e
      rw [frame_word hP hi, hframe] at e
      exact hne e

end Vmm

/-! ### The windows of `create_user_task_pdt` -/

/-- The frames of the kernel's directory and of the tables that `boot.s` puts behind it. -/
def KernFrame (dir F : UInt32) : Prop := dir.toNat ≤ F.toNat ∧ F.toNat < dir.toNat + 4096 * 257

theorem KernTables.frame_slot (h : KernTables m dir) (q : ℕ) : KernFrame dir (frame (slot dir q)) := by
  have hal := h.aligned
  have hs := h.slot_toNat q
  unfold KernFrame
  rw [frame_toNat, hs]
  unfold aliasPages
  omega

theorem KernTables.kernFrame_self (h : KernTables m dir) : KernFrame dir dir := by
  have hroom := h.room
  exact ⟨le_rfl, by omega⟩

theorem KernTables.congr (h : KernTables m dir)
    (hm : ∀ v, 768 ≤ v.toNat / 2 ^ 22 → m' (dirEntry dir v) = m (dirEntry dir v)) :
    KernTables m' dir := by
  have hal := h.aligned
  have hroom := h.room
  have hword : ∀ i < 256, m' (dir + UInt32.ofNat i * 4 + 0xc00) = m (dir + UInt32.ofNat i * 4 + 0xc00) := by
    intro i hi
    have hv : (UInt32.ofNat ((768 + i) * 2 ^ 22)).toNat = (768 + i) * 2 ^ 22 := by
      rw [UInt32.toNat_ofNat']
      omega
    have e : dir + UInt32.ofNat i * 4 + 0xc00 = dirEntry dir (UInt32.ofNat ((768 + i) * 2 ^ 22)) := by
      rw [← UInt32.toNat_inj, pdeAddr_toNat (by omega) (by omega), dirEntry_toNat, hv]
      omega
    rw [e]
    exact hm _ (by rw [hv]; omega)
  refine ⟨hal, hroom, ?_, ?_⟩
  · intro i hi
    rw [hword i (by omega)]
    exact h.pde i hi
  · rw [hword 255 (by omega)]
    exact h.self

theorem SelfMapped.of_frame (h : SelfMapped m c) (hc : c.toNat % 4096 = 0) (hne : c ≠ W)
    (hm : ∀ a, frame a ≠ W → m' a = m a) : SelfMapped m' c := by
  have hsame : m' (dirEntry c 0xFFFFF000) = m (dirEntry c 0xFFFFF000) := by
    apply hm _
    rw [frame_dirEntry hc]
    exact hne
  constructor
  · rw [hsame]
    exact h.present
  · rw [hsame]
    exact h.own

theorem SharesKernel.of_frame (h : SharesKernel m dir c) (hd : dir.toNat % 4096 = 0)
    (hc : c.toNat % 4096 = 0) (hdW : dir ≠ W) (hcW : c ≠ W)
    (hm : ∀ a, frame a ≠ W → m' a = m a) : SharesKernel m' dir c := by
  refine ⟨h.selfMapped.of_frame hc hcW hm, ?_⟩
  intro v hv
  rw [hm _ (by rw [frame_dirEntry hc]; exact hcW), hm _ (by rw [frame_dirEntry hd]; exact hdW)]
  exact h.shared v hv

theorem KernTables.of_frame (h : KernTables m dir) (hdW : dir ≠ W)
    (hm : ∀ a, frame a ≠ W → m' a = m a) : KernTables m' dir :=
  h.congr fun v _ => hm _ (by rw [frame_dirEntry h.aligned]; exact hdW)

/-- The directory is the page at `0xFFFFF000`. -/
theorem SelfMapped.window (h : SelfMapped m c) (hc : c.toNat % 4096 = 0) (hne : c ≠ W) :
    Window m c 0xFFFFF000 c W := by
  intro m' hm' i hi
  have hw : (word 0xFFFFF000 i).toNat = 0xFFFFF000 + 4 * i := word_toNat (by decide) hi
  have h' := h.of_frame hc hne hm'
  have hdir : dirEntry c (word 0xFFFFF000 i) = dirEntry c 0xFFFFF000 := by
    apply dirEntry_eq_of_div
    rw [hw]
    simp only [UInt32.reduceToNat]
    omega
  have hentry : tableEntry (m' (dirEntry c 0xFFFFF000)) (word 0xFFFFF000 i) =
      dirEntry c 0xFFFFF000 := h'.tableEntry_eq (by rw [hw]; simp only [UInt32.reduceToNat]; omega)
  rw [translate, hdir, hentry, if_pos h'.present, if_pos h'.present, h'.own, frame_eq_self hc,
    Option.some.injEq, ← UInt32.toNat_inj, word_toNat hc hi]
  simp only [UInt32.toNat_add, Words.toNat_and_offset, hw]
  have hlt := c.toNat_lt
  omega

/-- The entries of a kernel page in a directory that shares the kernel half. -/
theorem SharesKernel.tableEntry_eq (h : SharesKernel m dir c) (ht : KernTables m dir)
    (hq : q < Vmm.windowPage) : Present (m (dirEntry c (Vmm.kernAddr q))) ∧
      tableEntry (m (dirEntry c (Vmm.kernAddr q))) (Vmm.kernAddr q) = slot dir q := by
  have hpage : q < 256 * 1024 := lt_trans hq (by decide)
  have haddr := Vmm.kernAddr_toNat hpage
  have hhalf : KernHalf (Vmm.kernAddr q) := by
    unfold KernHalf
    unfold Vmm.windowPage at hq
    omega
  rw [h.shared _ hhalf]
  exact ht.tableEntry_eq (Vmm.kernPage_kernAddr hpage) hq

theorem SharesKernel.vmmV2p_kernAddr (h : SharesKernel m dir c) (ht : KernTables m dir)
    (hq : q < Vmm.windowPage) :
    vmmV2p m c (Vmm.kernAddr q) = some (frame (m (slot dir q))) := by
  obtain ⟨hpres, hentry⟩ := h.tableEntry_eq ht hq
  have hal := Vmm.kernAddr_aligned (lt_trans hq (by decide))
  have hlow : (0x00000FFF &&& Vmm.kernAddr q) = 0 := by
    rw [UInt32.and_comm, Words.and_offset_of_aligned hal]
  rw [h.selfMapped.vmmV2p_eq hpres, hentry, hlow, UInt32.or_zero]

/-- A kernel page is mapped to its frame in every directory that shares the kernel half. -/
theorem SharesKernel.window (h : SharesKernel m dir c) (ht : KernTables m dir)
    (hc : c.toNat % 4096 = 0) (hq : q < Vmm.windowPage) (hp : Present (m (slot dir q)))
    (hne : c ≠ W) (hW : ¬ KernFrame dir W) :
    Window m c (Vmm.kernAddr q) (frame (m (slot dir q))) W := by
  intro m' hm' i hi
  have hpage : q < 256 * 1024 := lt_trans hq (by decide)
  have haddr := Vmm.kernAddr_toNat hpage
  have hw : (word (Vmm.kernAddr q) i).toNat = 0xC0000000 + q * 4096 + 4 * i := by
    rw [word_toNat (by rw [haddr]; omega) hi, haddr]
  have hk : Vmm.kernPage? (word (Vmm.kernAddr q) i) = some q :=
    Vmm.kernPage_eq_some.mpr ⟨by omega, by omega⟩
  have hhalf : KernHalf (word (Vmm.kernAddr q) i) := by
    unfold KernHalf
    unfold Vmm.windowPage at hq
    omega
  obtain ⟨hpres, hentry⟩ := ht.tableEntry_eq hk hq
  rw [← h.shared _ hhalf] at hpres hentry
  have hdir : m' (dirEntry c (word (Vmm.kernAddr q) i)) = m (dirEntry c (word (Vmm.kernAddr q) i)) := by
    apply hm' _
    rw [frame_dirEntry hc]
    exact hne
  have hslot : m' (slot dir q) = m (slot dir q) := by
    refine hm' _ fun e => hW ?_
    rw [← e]
    exact ht.frame_slot q
  rw [translate, hdir, if_pos hpres, hentry, hslot, if_pos hp, Option.some.injEq,
    ← UInt32.toNat_inj, word_toNat (frame_aligned _) hi]
  simp only [UInt32.toNat_add, Words.toNat_and_offset, hw]
  have hlt := (frame (m (slot dir q))).toNat_lt
  have hal := frame_aligned (m (slot dir q))
  omega

/-! ### `create_user_task_pdt` -/

/-- Memory after the frame `F` was cleared. -/
@[irreducible] def clearedMem (F : UInt32) (m : PhysMem) : PhysMem := fillWords F (fun _ => 0) 0 1024 m

/-- Memory after the kernel half of the directory `c` was copied there. -/
@[irreducible] def copiedMem (F c : UInt32) (m : PhysMem) : PhysMem :=
  fillWords F (fun i => m (word c i)) 768 256 (clearedMem F m)

/-- Memory after a directory was built in the frame `F` while `c` was loaded. -/
@[irreducible] def pdtMem (F c : UInt32) (m : PhysMem) : PhysMem :=
  Function.update (copiedMem F c m) (word F 1023) (kernDesc F)

theorem clearedMem_of_frame (hF : F.toNat % 4096 = 0) (ha : frame a ≠ F) :
    clearedMem F m a = m a := by
  unfold clearedMem
  exact fillWords_of_frame hF (by omega) ha

theorem clearedMem_word (hF : F.toNat % 4096 = 0) (hi : i < 1024) :
    clearedMem F m (word F i) = 0 := by
  unfold clearedMem
  rw [fillWords_word hF (by omega) hi, if_pos (by omega)]

theorem copiedMem_of_frame (hF : F.toNat % 4096 = 0) (ha : frame a ≠ F) :
    copiedMem F c m a = m a := by
  unfold copiedMem
  rw [fillWords_of_frame hF (by omega) ha, clearedMem_of_frame hF ha]

theorem pdtMem_of_frame (hF : F.toNat % 4096 = 0) (ha : frame a ≠ F) : pdtMem F c m a = m a := by
  have hne : a ≠ word F 1023 := by
    rintro rfl
    exact ha (frame_word hF (by omega))
  unfold pdtMem
  rw [Function.update_of_ne hne, copiedMem_of_frame hF ha]

theorem pdtMem_word (hF : F.toNat % 4096 = 0) (hi : i < 1023) :
    pdtMem F c m (word F i) = if i < 768 then 0 else m (word c i) := by
  unfold pdtMem copiedMem
  rw [Function.update_of_ne (word_ne hF (by omega) (by omega) (by omega)),
    fillWords_word hF (by omega) (by omega), clearedMem_word hF (by omega)]
  split_ifs <;> first | rfl | omega

theorem pdtMem_last : pdtMem F c m (word F 1023) = kernDesc F := by
  unfold pdtMem
  exact Function.update_self _ _ _

/-- The user half of a new directory is empty. -/
theorem pdtMem_user (hF : F.toNat % 4096 = 0) (hv : v.toNat < 0xC0000000) :
    pdtMem F c m (dirEntry F v) = 0 := by
  rw [dirEntry_eq_word hF, pdtMem_word hF (by omega), if_pos (by omega)]

/-- It maps itself. -/
theorem pdtMem_self (hF : F.toNat % 4096 = 0) (hv : 0xFFC00000 ≤ v.toNat) :
    pdtMem F c m (dirEntry F v) = kernDesc F := by
  have hlt := v.toNat_lt
  have hnum : v.toNat / 2 ^ 22 = 1023 := by omega
  rw [dirEntry_eq_word hF, hnum, pdtMem_last]

theorem SharesKernel.pdtMem (h : SharesKernel m dir c) (hc : c.toNat % 4096 = 0)
    (hd : dir.toNat % 4096 = 0) (hF : F.toNat % 4096 = 0) (hne : dir ≠ F) :
    SharesKernel (pdtMem F c m) dir F := by
  have hself : BHOS.pdtMem F c m (dirEntry F 0xFFFFF000) = kernDesc F := by
    rw [dirEntry_eq_word hF]
    exact pdtMem_last
  refine ⟨⟨?_, ?_⟩, ?_⟩
  · rw [hself]
    exact present_kernDesc F
  · rw [hself, frame_kernDesc]
  · intro v hv
    obtain ⟨hlo, hhi⟩ := hv
    have hold : BHOS.pdtMem F c m (dirEntry dir v) = m (dirEntry dir v) := by
      apply pdtMem_of_frame hF
      rw [frame_dirEntry hd]
      exact hne
    rw [hold, ← h.shared v ⟨hlo, hhi⟩, dirEntry_eq_word hF, pdtMem_word hF hhi, if_neg (by omega),
      dirEntry_eq_word hc]

namespace Vmm

variable {π : Type} {alloc : π → Option (PmAlloc × π)} {s t : Vmm π}

/-- `memset` of a whole page. -/
theorem memsetZero_page (h : Window t.mem t.cr3 v F F) (hv : v.toNat % 4096 = 0)
    (hF : F.toNat % 4096 = 0) :
    memsetZero 1024 v t = some { t with mem := clearedMem F t.mem } := by
  have e : v = word v 0 := by
    rw [← UInt32.toNat_inj, word_toNat hv (by decide)]
    rfl
  unfold clearedMem
  have h := memsetZero_eq h hF (k := 0) (n := 1024) (by omega)
  rwa [← e] at h

/-- What `create_user_task_pdt` does after it got its page, of number `q`, when that can be written
as the frame `F` and is translated to it. -/
theorem createUserTaskPdt_of_window (hg : vmmKernAlloc alloc s = some (kernAddr q, t))
    (hpage : q < 256 * 1024) (hself : SelfMapped t.mem t.cr3) (hc : t.cr3.toNat % 4096 = 0)
    (hal : F.toNat % 4096 = 0) (hne : t.cr3 ≠ F) (hwin : Window t.mem t.cr3 (kernAddr q) F F)
    (hpaddr : vmmV2p (copiedMem F t.cr3 t.mem) t.cr3 (kernAddr q) = some F) :
    createUserTaskPdt alloc s = some (kernAddr q, { t with mem := pdtMem F t.cr3 t.mem }) := by
  have haddr := kernAddr_toNat hpage
  have hok : kernAddr q ≠ kernVmmAllocErro := (kernPool_ok 0).pageAddr_ne_erro hpage
  have hdir : Window t.mem t.cr3 0xFFFFF000 t.cr3 F := hself.window hc hne
  -- the destinations and the source are words of the two pages
  have e₁ : kernAddr q + 0xC00 = word (kernAddr q) 768 := rfl
  have e₂ : getPde 0xC0000000 = word 0xFFFFF000 768 := by decide
  have e₃ : kernAddr q + 0x1000 - 4 = word (kernAddr q) 1023 := by
    rw [← UInt32.toNat_inj, word_toNat (by omega) (by omega)]
    simp only [UInt32.toNat_add, UInt32.toNat_sub, haddr, UInt32.reduceToNat]
    omega
  have hm₁ : ∀ a, frame a ≠ F → clearedMem F t.mem a = t.mem a :=
    fun a => clearedMem_of_frame hal
  have hm₂ : ∀ a, frame a ≠ F → copiedMem F t.cr3 t.mem a = t.mem a :=
    fun a => copiedMem_of_frame hal
  have hclear := memsetZero_page hwin (by omega) hal
  have hcopy : pdtMappingHelper { t with mem := clearedMem F t.mem } (kernAddr q) =
      some { t with mem := copiedMem F t.cr3 t.mem } := by
    have hf : ∀ i < 1024, clearedMem F t.mem (word t.cr3 i) = t.mem (word t.cr3 i) := by
      intro i hi
      apply hm₁ _
      rw [frame_word hc hi]
      exact hne
    have hto : Window (clearedMem F t.mem) t.cr3 (kernAddr q) F F := hwin.of_frame hm₁
    have hfrom : Window (clearedMem F t.mem) t.cr3 0xFFFFF000 t.cr3 F := hdir.of_frame hm₁
    have h := memcpy_eq (s := { t with mem := clearedMem F t.mem }) (k := 768) (n := 256)
      hto hfrom hal hc hne hf (by decide)
    unfold copiedMem
    rwa [← e₁, ← e₂] at h
  have hlast : mappingLastPde { t with mem := copiedMem F t.cr3 t.mem } (word (kernAddr q) 1023) F =
      some { t with mem := pdtMem F t.cr3 t.mem } := by
    have hto : Window (copiedMem F t.cr3 t.mem) t.cr3 (kernAddr q) F F := hwin.of_frame hm₂
    have hlt : 1023 < 1024 := by decide
    unfold pdtMem
    exact write_window (s := { t with mem := copiedMem F t.cr3 t.mem }) hto hlt
  unfold createUserTaskPdt
  simp only [hg, Option.bind_eq_bind, Option.bind_some, if_neg hok, hclear, hcopy, hpaddr, e₃, hlast]

/-- What `create_user_task_pdt` does after it got its page, of number `q` with the frame `F`. -/
theorem createUserTaskPdt_of_alloc (hg : vmmKernAlloc alloc s = some (kernAddr q, t))
    (ht : KernTables t.mem dir) (h : SharesKernel t.mem dir t.cr3) (hc : t.cr3.toNat % 4096 = 0)
    (hq : q < windowPage) (hp : Present (t.mem (slot dir q))) (hF : frame (t.mem (slot dir q)) = F)
    (hne : t.cr3 ≠ F) (hk : ¬ KernFrame dir F) :
    createUserTaskPdt alloc s = some (kernAddr q, { t with mem := pdtMem F t.cr3 t.mem }) := by
  have hal : F.toNat % 4096 = 0 := hF ▸ frame_aligned _
  have hwin : Window t.mem t.cr3 (kernAddr q) F F := hF ▸ h.window ht hc hq hp (hF ▸ hne) (hF ▸ hk)
  have hm : ∀ a, frame a ≠ F → copiedMem F t.cr3 t.mem a = t.mem a := fun a => copiedMem_of_frame hal
  have hdir : dir ≠ F := fun e => hk (e ▸ ht.kernFrame_self)
  apply createUserTaskPdt_of_window hg (lt_trans hq (by decide)) h.selfMapped hc hal hne hwin
  rw [(h.of_frame ht.aligned hc hdir hne hm).vmmV2p_kernAddr (ht.of_frame hdir hm) hq,
    hm _ fun e => hk (e ▸ ht.frame_slot q), hF]

/-- What `create_user_page_table` does after it got its page, of number `q`, when that can be written
as the frame `F` and is translated to it. -/
theorem createUserPageTable_of_window (hg : vmmKernAlloc alloc s = some (kernAddr q, t))
    (hpage : q < 256 * 1024) (hal : F.toNat % 4096 = 0) (hwin : Window t.mem t.cr3 (kernAddr q) F F)
    (hpaddr : vmmV2p (clearedMem F t.mem) t.cr3 (kernAddr q) = some F) (pdeVaddr : UInt32) :
    createUserPageTable alloc s pdeVaddr =
      (write { t with mem := clearedMem F t.mem } pdeVaddr (userDesc F)).map fun l => (true, l) := by
  have hok : kernAddr q ≠ kernVmmAllocErro := (kernPool_ok 0).pageAddr_ne_erro hpage
  have hclear := memsetZero_page hwin (kernAddr_aligned hpage) hal
  have hne : F ≠ v2pError := by
    rintro rfl
    exact absurd hal (by decide)
  simp only [createUserPageTable, hg, Option.bind_eq_bind, Option.bind_some, if_neg hok, hclear,
    hpaddr, if_neg hne, userDesc, Option.map_eq_bind]
  rfl

/-- The kernel address of the entry of a user address in a directory. -/
theorem userPdeVaddr_eq (pdt v : UInt32) : userPdeVaddr pdt v = word pdt (v.toNat / 2 ^ 22) := by
  have hv := v.toNat_lt
  have htimes : ((v >>> 22) &&& 0x000003FF).toNat = v.toNat / 2 ^ 22 := by
    simp only [Words.toNat_and_index, UInt32.toNat_shiftRight, UInt32.reduceToNat, Nat.reduceMod,
      Nat.shiftRight_eq_div_pow]
    omega
  rw [userPdeVaddr, word, ← UInt32.toNat_inj]
  simp only [UInt32.toNat_add, UInt32.toNat_mul, htimes, UInt32.toNat_ofNat', UInt32.reduceToNat]
  omega

/-- The new directory is one that `active_task` can load. -/
theorem userPdt_of_create (ht : KernTables t.mem dir) (h : SharesKernel t.mem dir t.cr3)
    (hc : t.cr3.toNat % 4096 = 0) (hq : q < windowPage) (hF : frame (t.mem (slot dir q)) = F)
    (hk : ¬ KernFrame dir F) :
    UserPdt (pdtMem F t.cr3 t.mem) dir (kernAddr q) F := by
  have hpage : q < 256 * 1024 := lt_trans hq (by decide)
  have haddr := kernAddr_toNat hpage
  have hal : F.toNat % 4096 = 0 := hF ▸ frame_aligned _
  have hne : dir ≠ F := fun e => hk (e ▸ ht.kernFrame_self)
  have hpde : pdtMem F t.cr3 t.mem (dirEntry dir (kernAddr q)) = t.mem (dirEntry dir (kernAddr q)) :=
    pdtMem_of_frame hal (by rw [frame_dirEntry ht.aligned]; exact hne)
  have hpte : pdtMem F t.cr3 t.mem (slot dir q) = t.mem (slot dir q) :=
    pdtMem_of_frame hal fun e => hk (e ▸ ht.frame_slot q)
  obtain ⟨hpres, hentry⟩ := ht.tableEntry_eq (kernPage_kernAddr hpage) hq
  constructor
  · unfold KernHalf
    unfold windowPage at hq
    omega
  · omega
  · rw [hpde]
    exact hpres
  · rw [hpde, hentry, hpte, hF]
  · exact hne.symm
  · exact h.pdtMem hc ht.aligned hal hne

end Vmm
end BHOS
