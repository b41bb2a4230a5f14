import BHOS.PmmBlocks

/-! # Freeing a block

`free_helper` goes up from the class of the freed block and merges it with its buddy as long as
`find_and_pop_block` finds the buddy.  `StopsAt` is the class where it does not, and
`Lists.merged` are the lists in the end.  When the buddy is found in all lists up to the last one,
`append_block` is called with class `_erro`. -/

namespace BHOS

open Blocks Linked

/-- The base of the block of class `k` that page `p` belongs to. -/
def baseAt (p : UInt32) (k : ℕ) : UInt32 := UInt32.ofNat (p.toNat / 2 ^ k * 2 ^ k)

/-- The base of the buddy of that block. -/
def buddyAt (p : UInt32) (k : ℕ) : UInt32 := UInt32.ofNat (buddy (p.toNat / 2 ^ k * 2 ^ k) k)

section bases

variable {p : UInt32} {c : PageC} {i j k : ℕ}

theorem baseAt_toNat (p : UInt32) (k : ℕ) : (baseAt p k).toNat = p.toNat / 2 ^ k * 2 ^ k :=
  UInt32.toNat_ofNat_of_lt' (lt_of_le_of_lt (Nat.div_mul_le_self _ _) p.toNat_lt)

theorem baseAt_of_aligned (hal : p.toNat % 2 ^ k = 0) : baseAt p k = p := by
  rw [← UInt32.toNat_inj, baseAt_toNat, Nat.div_mul_cancel (Nat.dvd_of_mod_eq_zero hal)]

theorem buddyAt_toNat (hp : p.toNat < 2 ^ 31) (hk : k ≤ 10) :
    (buddyAt p k).toNat = buddy (p.toNat / 2 ^ k * 2 ^ k) k := by
  have hbase := Nat.div_mul_le_self p.toNat (2 ^ k)
  have hpos := Nat.two_pow_pos k
  have hpow : 2 ^ k ≤ 2 ^ 10 := Nat.pow_le_pow_right (by decide) hk
  have hle : buddy (p.toNat / 2 ^ k * 2 ^ k) k ≤ p.toNat / 2 ^ k * 2 ^ k + 2 ^ k := by
    unfold buddy
    split_ifs <;> omega
  apply UInt32.toNat_ofNat_of_lt'
  show _ < 2 ^ 32
  omega

/-- The block of a larger class does not change when the page is rounded down to a smaller one. -/
theorem baseAt_div (hij : i ≤ j) : (baseAt p i).toNat / 2 ^ j = p.toNat / 2 ^ j := by
  obtain ⟨d, rfl⟩ := Nat.exists_eq_add_of_le hij
  rw [baseAt_toNat, pow_add, ← Nat.div_div_eq_div_mul, ← Nat.div_div_eq_div_mul,
    Nat.mul_div_cancel _ (Nat.two_pow_pos _)]

theorem baseAt_baseAt (hij : i ≤ j) : baseAt (baseAt p i) j = baseAt p j := by
  rw [← UInt32.toNat_inj, baseAt_toNat (baseAt p i), baseAt_div hij, baseAt_toNat]

theorem buddyAt_baseAt (hij : i ≤ j) : buddyAt (baseAt p i) j = buddyAt p j := by
  unfold buddyAt
  rw [baseAt_div hij]

theorem getPartnerPageNo_eq (hc : c.toNat ≤ 10) (hal : p.toNat % 2 ^ c.toNat = 0)
    (hp : p.toNat < 2 ^ 31) : getPartnerPageNo p c = buddyAt p c.toNat := by
  rw [← UInt32.toNat_inj, getPartnerPageNo_toNat hc hal hp, buddyAt_toNat hp hc,
    Nat.div_mul_cancel (Nat.dvd_of_mod_eq_zero hal)]

end bases

namespace Pmm

variable {s t : Pmm} {L : Lists} {k : Fin 11} {p : UInt32} {c : PageC} {n : ℕ}

/-- Merging a freed block stops below class `_erro`: on the way up from its class, some buddy is
not found in its list. -/
def MergeStops (L : Lists) (p : UInt32) (c : PageC) : Prop :=
  ∃ k : Fin 11, c.toNat ≤ k.val ∧
    ∀ q ∈ L.buddy k, Findable (L.buddy k) q →
      q.toNat ≠ Blocks.buddy (p.toNat / 2 ^ k.val * 2 ^ k.val) k.val

instance (L : Lists) (p : UInt32) (c : PageC) : Decidable (MergeStops L p c) :=
  have (k : Fin 11) : Decidable (∀ q ∈ L.buddy k, Findable (L.buddy k) q →
      q.toNat ≠ Blocks.buddy (p.toNat / 2 ^ k.val * 2 ^ k.val) k.val) := List.decidableBAll _ _
  inferInstanceAs (Decidable (∃ k : Fin 11, _ ∧ ∀ q ∈ L.buddy k, _ → _))

/-- The class where merging stops: the buddy of the block of that class is not found, and the
buddies before it are. -/
structure StopsAt (L : Lists) (p : UInt32) (c : PageC) (k : Fin 11) : Prop where
  le : c.toNat ≤ k.val
  found : ∀ j : Fin 11, c.toNat ≤ j.val → j < k → Findable (L.buddy j) (buddyAt p j)
  missed : ¬ Findable (L.buddy k) (buddyAt p k)

theorem StopsAt.unique {j : Fin 11} (hk : StopsAt L p c k) (hj : StopsAt L p c j) : k = j := by
  rcases lt_trichotomy k j with hlt | rfl | hlt
  · exact absurd (hj.found k hk.le hlt) hk.missed
  · rfl
  · exact absurd (hk.found j hj.le hlt) hj.missed

/-- When some buddy is not found, there is a first one. -/
theorem exists_stopsAt (hk : c.toNat ≤ k.val) (hmiss : ¬ Findable (L.buddy k) (buddyAt p k)) :
    ∃ j, StopsAt L p c j := by
  obtain ⟨j, ⟨hj, hjmiss⟩, hmin⟩ := WellFounded.has_min (r := (· < ·)) wellFounded_lt
    {j : Fin 11 | c.toNat ≤ j.val ∧ ¬ Findable (L.buddy j) (buddyAt p j)} ⟨k, hk, hmiss⟩
  refine ⟨j, hj, ?_, hjmiss⟩
  intro i hi hij
  by_contra hmiss'
  exact hmin i ⟨hi, hmiss'⟩ hij

theorem mergeStops_iff (hp : p.toNat < 2 ^ 31) : MergeStops L p c ↔ ∃ k, StopsAt L p c k := by
  have hiff : ∀ j : Fin 11, (∀ q ∈ L.buddy j, Findable (L.buddy j) q →
      q.toNat ≠ buddy (p.toNat / 2 ^ j.val * 2 ^ j.val) j.val) ↔
      ¬ Findable (L.buddy j) (buddyAt p j) := by
    intro j
    have hj := buddyAt_toNat (k := j.val) hp (Nat.le_of_lt_succ j.isLt)
    constructor
    · intro h hf
      exact h _ hf.mem hf hj
    · rintro h q - hf e
      exact h (UInt32.toNat_inj.mp (e.trans hj.symm) ▸ hf)
  unfold MergeStops
  simp only [hiff]
  constructor
  · rintro ⟨j, hj, hmiss⟩
    exact exists_stopsAt hj hmiss
  · rintro ⟨k, hk⟩
    exact ⟨k, hk.le, hk.missed⟩

end Pmm

/-- The lists after merging has stopped at class `k`. -/
def Lists.merged (L : Lists) (p : UInt32) (c : PageC) (k : Fin 11) : Lists :=
  { L with buddy := fun j =>
      if c.toNat ≤ j.val ∧ j < k then (L.buddy j).erase (buddyAt p j)
      else if j = k then L.buddy j ++ [baseAt p j]
      else L.buddy j }

namespace Pmm

variable {s t : Pmm} {L : Lists} {k : Fin 11} {p : UInt32} {c : PageC} {n : ℕ}

/-- The classes that `free_helper` hands to `find_and_pop_block`, the last one of them also to
`append_block`. -/
def helperClasses : ℕ → UInt32 → PageC → Pmm → List PageC
  | 0, _, _, _ => []
  | n + 1, pageNo, size, s =>
      let partnerPageNo := getPartnerPageNo pageNo size
      size ::
        match s.findAndPopBlock partnerPageNo size with
        | none => []
        | some (found, s) =>
            if found ≠ erroPopBlock then
              helperClasses n (if partnerPageNo < pageNo then partnerPageNo else pageNo) (size + 1) s
            else []

/-- The block is aligned, below the single pages, and apart from all free blocks. -/
structure Detached (s : Pmm) (L : Lists) (p : UInt32) (c : PageC) : Prop where
  size_le : c.toNat ≤ 10
  aligned : p.toNat % 2 ^ c.toNat = 0
  below : p.toNat + 2 ^ c.toNat ≤ s.singelPageFirstNo.toNat
  disjoint : ((Block.mk p.toNat c.toNat).pages.val + cover L.blocks).Nodup

/-- What one merge does. -/
structure Merges (s t : Pmm) (L : Lists) (p : UInt32) (c : PageC) (k : Fin 11) : Prop where
  found : s.findAndPopBlock (getPartnerPageNo p c) c = some (buddyAt p k, t)
  ne_erro : buddyAt p k ≠ erroPopBlock
  lower : (if getPartnerPageNo p c < p then getPartnerPageNo p c else p) = baseAt p (k.val + 1)
  sound : Sound t (L.set k ((L.buddy k).erase (buddyAt p k)))
  frame : Frame (L.buddy k) s t
  mem : baseAt p (k.val + 1) ∈ p :: L.buddy k
  cover : (Block.mk (baseAt p (k.val + 1)).toNat (k.val + 1)).pages.val +
    cover (L.set k ((L.buddy k).erase (buddyAt p k))).blocks =
      (Block.mk p.toNat k).pages.val + cover L.blocks
  below : (baseAt p (k.val + 1)).toNat + 2 ^ (k.val + 1) ≤ t.singelPageFirstNo.toNat

theorem Sound.lt_of_detached (h : Sound s L) (hb : Detached s L p c) : p.toNat < 2 ^ 20 := by
  have hmax := h.max_le
  have hle := h.singel_le
  have hbelow := hb.below
  have hpos := Nat.two_pow_pos c.toNat
  omega

/-- A buddy that is found is merged with the block. -/
theorem Sound.merges (h : Sound s L) (hb : Detached s L p c) (hk : listOf c = some k)
    (hf : Findable (L.buddy k) (buddyAt p k)) : ∃ t, Merges s t L p c k := by
  have hkv := listOf_eq hk
  have hp := h.lt_of_detached hb
  obtain ⟨hc, hal, hle, -⟩ := hb
  have hpart := getPartnerPageNo_eq hc hal (by omega)
  have hround := buddyAt_toNat (p := p) (k := c.toNat) (by omega) hc
  rw [Nat.div_mul_cancel (Nat.dvd_of_mod_eq_zero hal)] at hround
  rw [hkv] at hal hle hpart hround
  have hq := hf.mem
  have hno : ∀ q ∈ L.buddy k, (s.pageArray q).pageNo = q := fun q hq => h.pageNo_buddy hq
  obtain ⟨t, ht, hh, hfr⟩ := h.holds.findAndPopBlock_found hk hno hf
  have hqle := (h.buddy k _ hq).2
  have hcov := Lists.cover_erase hq
  have hlower : (if getPartnerPageNo p c < p then getPartnerPageNo p c else p) =
      baseAt p (k.val + 1) := by
    rw [hpart, ← UInt32.toNat_inj, baseAt_toNat, ← min_buddy hal, ← hround]
    by_cases hlt : buddyAt p k < p
    · rw [if_pos hlt, min_eq_left (UInt32.le_iff_toNat_le.mp (UInt32.le_of_lt hlt))]
    · rw [if_neg hlt, min_eq_right (UInt32.le_iff_toNat_le.mp (UInt32.not_lt.mp hlt))]
  have hmin : (baseAt p (k.val + 1)).toNat = min (buddyAt p k).toNat p.toNat := by
    rw [baseAt_toNat, ← min_buddy hal, hround]
  refine ⟨t, hpart ▸ ht, ne_erro_of_lt_max h (h.buddy_lt hq), hlower,
    h.set hh hfr fun q hq => h.buddy k q (List.mem_of_mem_erase hq), hfr, ?_, ?_, ?_⟩
  · rw [← hlower, hpart]
    split_ifs
    · exact List.mem_cons_of_mem p hq
    · exact List.mem_cons_self
  · rw [hcov, ← add_assoc, hmin, hround, pages_add_buddy hal]
  · rw [hfr.singelPageFirstNo, hmin, hround]
    rw [hround] at hqle
    rcases buddy_cases hal with ⟨-, e⟩ | ⟨-, e⟩ <;> omega

/-- The merged block is detached from the free blocks again. -/
theorem Merges.detached (h : Merges s t L p c k) (hb : Detached s L p c) (hk : listOf c = some k)
    (hk10 : k.val < 10) : Detached t (L.set k ((L.buddy k).erase (buddyAt p k)))
      (baseAt p (k.val + 1)) (c + 1) := by
  have hkv := listOf_eq hk
  have hc : (c + 1).toNat = k.val + 1 := by
    simp only [UInt32.toNat_add, hkv, UInt32.reduceToNat]
    omega
  refine ⟨by omega, ?_, hc ▸ h.below, ?_⟩
  · rw [hc, baseAt_toNat, Nat.mul_mod_left]
  · rw [hc, h.cover, ← hkv]
    exact hb.disjoint

theorem freeHelper_merge (h : Merges s t L p c k) :
    freeHelper (n + 1) p c s = freeHelper n (baseAt p (k.val + 1)) (c + 1) t ∧
      helperClasses (n + 1) p c s = c :: helperClasses n (baseAt p (k.val + 1)) (c + 1) t := by
  constructor
  · rw [freeHelper]
    simp only [h.found, h.lower, Option.bind_eq_bind, Option.bind_some, ne_eq, h.ne_erro,
      not_false_eq_true, if_true]
  · rw [helperClasses]
    simp only [h.found, h.lower, ne_eq, h.ne_erro, not_false_eq_true, if_true]

/-- Class `_erro` is not in any list, and `append_block` has no case for it. -/
theorem freeHelper_erro (n : ℕ) (p : UInt32) (s : Pmm) :
    freeHelper (n + 1) p erro s = none ∧ erro ∈ helperClasses (n + 1) p erro s := by
  constructor
  · rw [freeHelper]
    unfold findAndPopBlock appendBlock
    simp only [if_true, Option.bind_eq_bind, Option.bind_some, ne_eq, not_true_eq_false, if_false]
    rfl
  · rw [helperClasses]
    exact List.mem_cons_self

/-! ### Merging stops -/

theorem StopsAt.of_merge {L' : Lists} {j : Fin 11} (h : StopsAt L p c j) (hc : (c + 1).toNat = k.val + 1)
    (hck : c.toNat = k.val) (hf : Findable (L.buddy k) (buddyAt p k))
    (hL : ∀ i : Fin 11, k < i → L'.buddy i = L.buddy i) :
    StopsAt L' (baseAt p (k.val + 1)) (c + 1) j := by
  have hkj : k < j := by
    refine lt_of_le_of_ne (Fin.le_def.mpr (hck ▸ h.le)) fun e => h.missed (e ▸ hf)
  refine ⟨hc ▸ hkj, ?_, ?_⟩
  · intro i hi hij
    have hki : k < i := Fin.lt_def.mpr (by omega)
    rw [hL i hki, buddyAt_baseAt (by omega)]
    exact h.found i (by omega) hij
  · rw [hL j hkj, buddyAt_baseAt (Fin.lt_def.mp hkj)]
    exact h.missed

theorem merged_of_merge {j : Fin 11} (hc : (c + 1).toNat = k.val + 1) (hck : c.toNat = k.val)
    (hkj : k < j) : (L.set k ((L.buddy k).erase (buddyAt p k))).merged (baseAt p (k.val + 1))
      (c + 1) j = L.merged p c j := by
  unfold Lists.merged
  congr 1
  funext i
  by_cases hik : i = k
  · subst hik
    rw [Lists.set_self, if_neg (fun hn => by omega), if_neg hkj.ne, if_pos ⟨hck.le, hkj⟩]
  · rw [Lists.set_of_ne L hik]
    have hiff : (c + 1).toNat ≤ i.val ↔ c.toNat ≤ i.val := by
      have hne : i.val ≠ k.val := fun e => hik (Fin.ext e)
      omega
    by_cases hci : c.toNat ≤ i.val
    · rw [buddyAt_baseAt (by omega), baseAt_baseAt (by omega)]
      simp only [hiff]
    · have hij : i ≠ j := fun e => hci (by omega)
      simp only [hiff, hci, false_and, if_false, hij]

theorem merged_self (hc : c.toNat = k.val) (hal : p.toNat % 2 ^ k.val = 0) :
    L.merged p c k = L.set k (L.buddy k ++ [p]) := by
  unfold Lists.merged Lists.set
  congr 1
  funext i
  by_cases hik : i = k
  · subst hik
    rw [if_neg (fun hn => lt_irrefl _ hn.2), if_pos rfl, Function.update_self,
      baseAt_of_aligned hal]
  · rw [if_neg (fun hn => ?_), if_neg hik, Function.update_of_ne hik]
    have hlt := Fin.lt_def.mp hn.2
    omega

/-- The pages whose `next` field a merge and the steps after it change. -/
theorem Merges.frame_trans {u : Pmm} {l : List UInt32} (h : Merges s t L p c k)
    (hfr : Frame (baseAt p (k.val + 1) :: l) t u) : Frame (p :: (L.buddy k ++ l)) s u := by
  refine (h.frame.mono ?_).trans (hfr.mono ?_)
  · intro q hq
    exact List.mem_cons_of_mem p (List.mem_append_left l hq)
  · intro q hq
    rcases List.mem_cons.mp hq with rfl | hq
    · rcases List.mem_cons.mp h.mem with e | hmem
      · exact List.mem_cons.mpr (Or.inl e)
      · exact List.mem_cons_of_mem p (List.mem_append_left l hmem)
    · exact List.mem_cons_of_mem p (List.mem_append_right _ hq)

/-- The buddy is not found: the block goes to the list of its class. -/
theorem Sound.freeHelper_missed (h : Sound s L) (hb : Detached s L p c) (hk : listOf c = some k)
    (hf : ¬ Findable (L.buddy k) (buddyAt p k)) :
    ∃ t, freeHelper (n + 1) p c s = some t ∧ Sound t (L.set k (L.buddy k ++ [p])) ∧
      Frame (p :: L.buddy k) s t ∧ helperClasses (n + 1) p c s = [c] := by
  have hkv := listOf_eq hk
  have hp := h.lt_of_detached hb
  obtain ⟨hc, hal, hle, hnd⟩ := hb
  have hfresh : L.Fresh p := Lists.fresh_of_nodup hnd
  have hpart := getPartnerPageNo_eq hc hal (by omega)
  rw [hkv] at hal hle hpart
  have hmiss := findAndPopBlock_missed hk (h.holds.buddy k) (fun q hq => h.pageNo_buddy hq) hf
  obtain ⟨t, ht, hh, hfr⟩ := h.holds.appendBlock_eq hfresh hk
  refine ⟨t, ?_, h.set hh hfr ?_, hfr, ?_⟩
  · rw [freeHelper]
    simp only [hpart, hmiss, ht, Option.bind_eq_bind, Option.bind_some, ne_eq,
      not_true_eq_false, if_false]
  · intro q hq
    rcases List.mem_append.mp hq with hq | hq
    · exact h.buddy k q hq
    · rw [List.mem_singleton.mp hq]
      exact ⟨hal, hle⟩
  · rw [helperClasses]
    simp only [hpart, hmiss, ne_eq, not_true_eq_false, if_false]

/-- **Freeing a block** whose merging stops: the lists are those of `Lists.merged`, they cover the
pages of the block as well, and no function is called with class `_erro`. -/
theorem Sound.freeHelper_stops {j : Fin 11} (h : Sound s L) (hb : Detached s L p c)
    (hstop : StopsAt L p c j) (hn : 11 ≤ n + c.toNat) :
    ∃ t l, freeHelper n p c s = some t ∧ Sound t (L.merged p c j) ∧
      cover (L.merged p c j).blocks = (Block.mk p.toNat c.toNat).pages.val + cover L.blocks ∧
      Frame (p :: l) s t ∧ (∀ q ∈ l, ∃ k, q ∈ L.buddy k) ∧
      ∀ c' ∈ helperClasses n p c s, c'.toNat ≤ 10 := by
  induction n generalizing s L p c with
  | zero =>
      have hc := hb.size_le
      omega
  | succ n ih =>
      have hc := hb.size_le
      obtain ⟨k, hcl, hck⟩ := exists_listOf (c := c) (by omega)
      by_cases hf : Findable (L.buddy k) (buddyAt p k)
      · -- the buddy is found: merge and go on one class up
        have hkj : k < j := lt_of_le_of_ne (Fin.le_def.mpr (hck ▸ hstop.le))
          fun e => hstop.missed (e ▸ hf)
        have hk10 : k.val < 10 := by
          have hj := j.isLt
          omega
        have hc' : (c + 1).toNat = k.val + 1 := by
          simp only [UInt32.toNat_add, hck, UInt32.reduceToNat]
          omega
        obtain ⟨t, hm⟩ := h.merges hb hcl hf
        have hstop' : StopsAt (L.set k ((L.buddy k).erase (buddyAt p k)))
            (baseAt p (k.val + 1)) (c + 1) j :=
          hstop.of_merge hc' hck hf fun i hi => Lists.set_of_ne L hi.ne' _
        obtain ⟨u, l, hu, hs, hcov, hfr, hl, hcls⟩ := ih hm.sound (hm.detached hb hcl hk10) hstop'
          (by omega)
        rw [merged_of_merge hc' hck hkj] at hs hcov
        obtain ⟨hrun, hruncls⟩ := freeHelper_merge (n := n) hm
        refine ⟨u, L.buddy k ++ l, hrun.trans hu, hs, ?_, hm.frame_trans hfr, ?_, ?_⟩
        · rw [hcov, hc', hm.cover, hck]
        · intro r hr
          rcases List.mem_append.mp hr with hr | hr
          · exact ⟨k, hr⟩
          · obtain ⟨i, hi⟩ := hl r hr
            refine ⟨i, ?_⟩
            by_cases hik : i = k
            · subst hik
              rw [Lists.set_self] at hi
              exact List.mem_of_mem_erase hi
            · rwa [Lists.set_of_ne L hik] at hi
        · intro c₁ hc₁
          rw [hruncls] at hc₁
          rcases List.mem_cons.mp hc₁ with rfl | hc₁
          · exact hc
          · exact hcls c₁ hc₁
      · -- the buddy is not found: merging stops here
        have hjk : j = k := by
          by_contra hne
          have hkj : k < j := lt_of_le_of_ne (Fin.le_def.mpr (hck ▸ hstop.le)) fun e => hne e.symm
          exact hf (hstop.found k hck.le hkj)
        subst hjk
        obtain ⟨t, ht, hs, hfr, hcls⟩ := h.freeHelper_missed (n := n) hb hcl hf
        rw [merged_self hck (hck ▸ hb.aligned)]
        refine ⟨t, L.buddy j, ht, hs, ?_, hfr, fun q hq => ⟨j, hq⟩, ?_⟩
        · rw [Lists.cover_push, hck]
        · intro c₁ hc₁
          rw [hcls] at hc₁
          rw [List.mem_singleton.mp hc₁]
          exact hc

/-- `free_helper` on an aligned block that the free blocks do not touch: every step keeps the
allocator well formed, and in the end the lists cover the pages of the block as well. -/
theorem Sound.freeHelper_eq (h : Sound s L) (hc : c.toNat ≤ 10)
    (hal : p.toNat % 2 ^ c.toNat = 0)
    (hle : p.toNat + 2 ^ c.toNat ≤ s.singelPageFirstNo.toNat)
    (hnd : ((Block.mk p.toNat c.toNat).pages.val + cover L.blocks).Nodup)
    (hstop : MergeStops L p c) {n : ℕ} (hn : 11 ≤ n + c.toNat) :
    ∃ t L' l, freeHelper n p c s = some t ∧ Sound t L' ∧ L'.single = L.single ∧
      cover L'.blocks = (Block.mk p.toNat c.toNat).pages.val + cover L.blocks ∧
      Frame (p :: l) s t ∧ ∀ q ∈ l, ∃ k, q ∈ L.buddy k := by
  have hb : Detached s L p c := ⟨hc, hal, hle, hnd⟩
  have hp := h.lt_of_detached hb
  obtain ⟨j, hj⟩ := (mergeStops_iff (by omega)).mp hstop
  obtain ⟨t, l, ht, hs, hcov, hfr, hl, -⟩ := h.freeHelper_stops hb hj hn
  exact ⟨t, L.merged p c j, l, ht, hs, rfl, hcov, hfr, hl⟩

/-- When merging does not stop, `append_block` is called with class `_erro`. -/
theorem Sound.freeHelper_runs_out (h : Sound s L) (hb : Detached s L p c)
    (hall : ∀ j : Fin 11, c.toNat ≤ j.val → Findable (L.buddy j) (buddyAt p j))
    (hn : 12 ≤ n + c.toNat) : freeHelper n p c s = none ∧ erro ∈ helperClasses n p c s := by
  induction n generalizing s L p c with
  | zero =>
      have hc := hb.size_le
      omega
  | succ n ih =>
      have hc := hb.size_le
      obtain ⟨k, hcl, hck⟩ := exists_listOf (c := c) (by omega)
      obtain ⟨t, hm⟩ := h.merges hb hcl (hall k hck.le)
      obtain ⟨hrun, hruncls⟩ := freeHelper_merge (n := n) hm
      rw [hrun, hruncls]
      have hc' : (c + 1).toNat = k.val + 1 := by
        simp only [UInt32.toNat_add, hck, UInt32.reduceToNat]
        omega
      by_cases hk10 : k.val < 10
      · obtain ⟨hnone, hmem⟩ := ih hm.sound (hm.detached hb hcl hk10) (fun j hj => by
          have hkj : k < j := Fin.lt_def.mpr (by omega)
          rw [Lists.set_of_ne L hkj.ne', buddyAt_baseAt (by omega)]
          exact hall j (by omega)) (by omega)
        exact ⟨hnone, List.mem_cons_of_mem c hmem⟩
      · have hlast : c + 1 = erro := by
          rw [← UInt32.toNat_inj, hc']
          have he : erro.toNat = 11 := rfl
          have hlt := k.isLt
          omega
        rw [hlast]
        obtain ⟨m, rfl⟩ : ∃ m, n = m + 1 := ⟨n - 1, by omega⟩
        obtain ⟨hnone, hmem⟩ := freeHelper_erro m (baseAt p (k.val + 1)) t
        exact ⟨hnone, List.mem_cons_of_mem c hmem⟩

end Pmm
end BHOS
