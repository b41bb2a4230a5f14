import BHOS.Paging

/-! # The page tables that `boot.s` builds

`set_page` clears the directory and the 256 page tables behind it, points the directory entries
of the kernel half to page tables, fills the first table with the identity mapping of the first
4 MiB, and maps the directory to itself in its last entry.  The loops that clear memory byte by
byte are written as loops over words.

The address of a page table is computed with `mul cx`, a 16-bit multiplication: of the product
`4096 * cx` only the low half is left in `eax`, so the entries for `cx` and `cx + 16` point to
the same table.  `setPage_tables` states what the directory is in the end. -/

namespace BHOS

/-- The register `eax` after `mov eax,0; mov ax,4096; mul cx`. -/
def mulCx (cx : UInt16) : UInt32 := (4096 * cx).toUInt32

/-- `PG_US_S|PG_RW_W|PG_P`. -/
def pgKern : UInt32 := 0 ||| 2 ||| 1

/-- `.clear_dir_table` and `.clear_page_table`: `n` words from `base` on. -/
def clearTable (base : UInt32) : ℕ → PhysMem → PhysMem
  | 0, m => m
  | n + 1, m => clearTable base n (Function.update m (base + UInt32.ofNat n * 4) 0)

/-- `.create_pde`: `cx` counts down to 1. -/
def createPde (kernDirTable kernPageTable : UInt32) : ℕ → PhysMem → PhysMem
  | 0, m => m
  | cx + 1, m =>
      let eax := (mulCx (UInt16.ofNat (cx + 1)) + kernPageTable) ||| pgKern
      createPde kernDirTable kernPageTable cx
        (Function.update m (kernDirTable + UInt32.ofNat (cx + 1) * 4 + 0xc00) eax)

/-- `.create_pte`: `eax` counts down to 1. -/
def createPte (kernPageTable : UInt32) : ℕ → PhysMem → PhysMem
  | 0, m => m
  | eax + 1, m =>
      let ebx := ((UInt32.ofNat (eax + 1) <<< 12) &&& 0xFFFFF000) ||| pgKern
      createPte kernPageTable eax (Function.update m (kernPageTable + UInt32.ofNat (eax + 1) * 4) ebx)

/-- `set_page`; `kern_page_table` follows `kern_dir_table` in memory. -/
def setPage (kernDirTable : UInt32) (m : PhysMem) : PhysMem :=
  let kernPageTable := kernDirTable + 4096
  let m := clearTable kernDirTable 1024 m
  let m := clearTable kernPageTable (1024 * 256) m
  let m := createPde kernDirTable kernPageTable 255 m
  let m := Function.update m (kernDirTable + 0xc00) (kernPageTable ||| pgKern)
  let m := Function.update m kernDirTable (kernPageTable ||| pgKern)
  let m := createPte kernPageTable 1023 m
  let m := Function.update m kernPageTable (0 ||| pgKern)
  Function.update m (kernDirTable + 0xc00 + 255 * 4) (kernDirTable ||| pgKern)

/-! ### The loops -/

variable {dir table a : UInt32} {m : PhysMem} {i n : ℕ}

theorem mulCx_toNat (n : ℕ) : (mulCx (UInt16.ofNat n)).toNat = 4096 * (n % 16) := by
  simp only [mulCx, UInt16.toNat_toUInt32, UInt16.toNat_mul, UInt16.toNat_ofNat',
    UInt16.reduceToNat]
  omega

theorem createPde_of_ne (h : ∀ i, 0 < i → i ≤ n → a ≠ dir + UInt32.ofNat i * 4 + 0xc00) :
    createPde dir table n m a = m a := by
  induction n generalizing m with
  | zero => rfl
  | succ n ih =>
      rw [createPde, ih fun i hi hn => h i hi (by omega),
        Function.update_of_ne (h (n + 1) (by omega) le_rfl)]

/-- The address of a kernel directory entry. -/
theorem pdeAddr_toNat (hroom : dir.toNat + 4096 ≤ 2 ^ 32) (hi : i ≤ 255) :
    (dir + UInt32.ofNat i * 4 + 0xc00).toNat = dir.toNat + 4 * (768 + i) := by
  simp only [UInt32.toNat_add, UInt32.toNat_mul, UInt32.toNat_ofNat', UInt32.reduceToNat]
  omega

theorem createPde_at (hroom : dir.toNat + 4096 ≤ 2 ^ 32) (h0 : 0 < i) (hi : i ≤ n) (hn : n ≤ 255) :
    createPde dir table n m (dir + UInt32.ofNat i * 4 + 0xc00) =
      (mulCx (UInt16.ofNat i) + table) ||| pgKern := by
  induction n generalizing m with
  | zero => omega
  | succ n ih =>
      rw [createPde]
      by_cases hin : i = n + 1
      · subst hin
        rw [createPde_of_ne, Function.update_self]
        intro j _ hj e
        have := congrArg UInt32.toNat e
        rw [pdeAddr_toNat hroom hn, pdeAddr_toNat hroom (by omega)] at this
        omega
      · exact ih (by omega) (by omega)

theorem createPte_of_ne (h : ∀ i, 0 < i → i ≤ n → a ≠ table + UInt32.ofNat i * 4) :
    createPte table n m a = m a := by
  induction n generalizing m with
  | zero => rfl
  | succ n ih =>
      rw [createPte, ih fun i hi hn => h i hi (by omega),
        Function.update_of_ne (h (n + 1) (by omega) le_rfl)]

theorem pteAddr_toNat (hroom : table.toNat + 4096 * 256 ≤ 2 ^ 32) (hi : i < 1024 * 256) :
    (table + UInt32.ofNat i * 4).toNat = table.toNat + 4 * i := by
  simp only [UInt32.toNat_add, UInt32.toNat_mul, UInt32.toNat_ofNat', UInt32.reduceToNat]
  omega

theorem createPte_at (hroom : table.toNat + 4096 * 256 ≤ 2 ^ 32) (h0 : 0 < i) (hi : i ≤ n)
    (hn : n ≤ 1023) : (createPte table n m (table + UInt32.ofNat i * 4)).toNat = 4096 * i + 3 := by
  induction n generalizing m with
  | zero => omega
  | succ n ih =>
      rw [createPte]
      by_cases hin : i = n + 1
      · subst hin
        rw [createPte_of_ne, Function.update_self]
        · have hfr : ((UInt32.ofNat (n + 1) <<< 12) &&& 0xFFFFF000).toNat = 4096 * (n + 1) := by
            simp only [Words.toNat_and_frame, UInt32.toNat_shiftLeft, UInt32.toNat_ofNat',
              UInt32.reduceToNat, Nat.reduceMod, Nat.shiftLeft_eq]
            omega
          rw [Words.toNat_or _ _ 12 (by rw [hfr]; omega) (by decide), hfr]
          rfl
        · intro j _ hj e
          have := congrArg UInt32.toNat e
          rw [pteAddr_toNat hroom (by omega), pteAddr_toNat hroom (by omega)] at this
          omega
      · exact ih (by omega) (by omega)

theorem clearTable_of_ne {base : UInt32} (h : ∀ i < n, a ≠ base + UInt32.ofNat i * 4) :
    clearTable base n m a = m a := by
  induction n generalizing m with
  | zero => rfl
  | succ n ih =>
      rw [clearTable, ih fun i hi => h i (by omega), Function.update_of_ne (h n (by omega))]

/-- `set_page` writes the directory and the 256 pages behind it. -/
theorem setPage_of_outside (hroom : dir.toNat + 4096 * 257 ≤ 2 ^ 32)
    (ha : a.toNat < dir.toNat ∨ dir.toNat + 4096 * 257 ≤ a.toNat) : setPage dir m a = m a := by
  have htab : (dir + 4096).toNat = dir.toNat + 4096 := by
    simp only [UInt32.toNat_add, UInt32.reduceToNat]
    omega
  have hself : (dir + 0xc00 + 255 * 4).toNat = dir.toNat + 4092 := by
    simp only [UInt32.toNat_add, UInt32.reduceMul, UInt32.reduceToNat]
    omega
  have hfirst : (dir + 0xc00).toNat = dir.toNat + 3072 := by
    simp only [UInt32.toNat_add, UInt32.reduceToNat]
    omega
  have hne : ∀ {b : UInt32}, dir.toNat ≤ b.toNat → b.toNat < dir.toNat + 4096 * 257 → a ≠ b := by
    rintro b hlo hhi rfl
    omega
  have hword : ∀ i < 1024 * 256, a ≠ dir + 4096 + UInt32.ofNat i * 4 := fun i hi => by
    have e : (dir + 4096 + UInt32.ofNat i * 4).toNat = (dir + 4096).toNat + 4 * i :=
      pteAddr_toNat (by omega) (by omega)
    exact hne (by omega) (by omega)
  have hentry : ∀ i < 1024, a ≠ dir + UInt32.ofNat i * 4 := fun i hi => by
    have e : (dir + UInt32.ofNat i * 4).toNat = dir.toNat + 4 * i :=
      pteAddr_toNat (by omega) (by omega)
    exact hne (by omega) (by omega)
  have hpde : ∀ i, 0 < i → i ≤ 255 → a ≠ dir + UInt32.ofNat i * 4 + 0xc00 := fun i _ hi => by
    have e : (dir + UInt32.ofNat i * 4 + 0xc00).toNat = dir.toNat + 4 * (768 + i) :=
      pdeAddr_toNat (by omega) hi
    exact hne (by omega) (by omega)
  simp only [setPage]
  rw [Function.update_of_ne (hne (by omega) (by omega)),
    Function.update_of_ne (hne (by omega) (by omega)),
    createPte_of_ne fun i _ hi => hword i (by omega),
    Function.update_of_ne (hne le_rfl (by omega)),
    Function.update_of_ne (hne (by omega) (by omega)), createPde_of_ne hpde,
    clearTable_of_ne hword, clearTable_of_ne hentry]

/-! ### The kernel half of the directory -/

/-- What `set_page` leaves and no later kernel allocation changes: the directory maps itself in
entry 1023, and entry `768 + i` points to table `i % 16` of the tables behind it. -/
structure KernTables (m : PhysMem) (dir : UInt32) : Prop where
  aligned : dir.toNat % 4096 = 0
  room : dir.toNat + 4096 * 257 ≤ 2 ^ 32
  pde : ∀ i < 255, (m (dir + UInt32.ofNat i * 4 + 0xc00)).toNat =
    dir.toNat + 4096 * (1 + i % 16) + 3
  self : (m (dir + UInt32.ofNat 255 * 4 + 0xc00)).toNat = dir.toNat + 3

theorem pde_value (h : dir.toNat % 4096 = 0) (hroom : dir.toNat + 4096 * 257 ≤ 2 ^ 32) :
    ((mulCx (UInt16.ofNat i) + (dir + 4096)) ||| pgKern).toNat =
      dir.toNat + 4096 * (1 + i % 16) + 3 := by
  have hsum : (mulCx (UInt16.ofNat i) + (dir + 4096)).toNat = dir.toNat + 4096 * (1 + i % 16) := by
    simp only [UInt32.toNat_add, mulCx_toNat, UInt32.reduceToNat]
    omega
  rw [Words.toNat_or _ _ 12 (by rw [hsum]; omega) (by decide), hsum]
  rfl

variable (dir) in
/-- The directory and the first page table after `set_page`. -/
theorem setPage_tables (m : PhysMem) (h : dir.toNat % 4096 = 0)
    (hroom : dir.toNat + 4096 * 257 ≤ 2 ^ 32) :
    KernTables (setPage dir m) dir ∧
      ∀ j < 1024, (setPage dir m (dir + 4096 + UInt32.ofNat j * 4)).toNat = 4096 * j + 3 := by
  have htab : (dir + 4096).toNat = dir.toNat + 4096 := by
    simp only [UInt32.toNat_add, UInt32.reduceToNat]
    omega
  have hself : (dir + 0xc00 + 255 * 4).toNat = dir.toNat + 4092 := by
    simp only [UInt32.toNat_add, UInt32.reduceMul, UInt32.reduceToNat]
    omega
  have hfirst : (dir + 0xc00).toNat = dir.toNat + 3072 := by
    simp only [UInt32.toNat_add, UInt32.reduceToNat]
    omega
  have hne : ∀ {a b : UInt32}, a.toNat ≠ b.toNat → a ≠ b := fun h e => h (congrArg _ e)
  refine ⟨⟨h, hroom, ?_, ?_⟩, ?_⟩
  · intro i hi
    have ha : (dir + UInt32.ofNat i * 4 + 0xc00).toNat = dir.toNat + 4 * (768 + i) :=
      pdeAddr_toNat (by omega) (by omega)
    have hpte : ∀ k, 0 < k → k ≤ 1023 →
        dir + UInt32.ofNat i * 4 + 0xc00 ≠ dir + 4096 + UInt32.ofNat k * 4 := fun k _ hk =>
      hne (by rw [ha, pteAddr_toNat (by omega) (by omega), htab]; omega)
    simp only [setPage]
    rw [Function.update_of_ne (hne (by rw [ha, hself]; omega)),
      Function.update_of_ne (hne (by rw [ha, htab]; omega)), createPte_of_ne hpte,
      Function.update_of_ne (hne (by rw [ha]; omega))]
    by_cases h0 : i = 0
    · subst h0
      have e : dir + UInt32.ofNat 0 * 4 + 0xc00 = dir + 0xc00 := by
        rw [← UInt32.toNat_inj, ha, hfirst]
      rw [e, Function.update_self]
      rw [Words.toNat_or _ _ 12 (by rw [htab]; omega) (by decide), htab]
      rfl
    · rw [Function.update_of_ne (hne (by rw [ha, hfirst]; omega)),
        createPde_at (by omega) (by omega) (by omega) le_rfl, pde_value h hroom]
  · have e : dir + UInt32.ofNat 255 * 4 + 0xc00 = dir + 0xc00 + 255 * 4 := by
      rw [← UInt32.toNat_inj, pdeAddr_toNat (by omega) le_rfl, hself]
    simp only [setPage]
    rw [e, Function.update_self, Words.toNat_or _ _ 12 h (by decide)]
    rfl
  · intro j hj
    have ha : (dir + 4096 + UInt32.ofNat j * 4).toNat = (dir + 4096).toNat + 4 * j :=
      pteAddr_toNat (by omega) (by omega)
    simp only [setPage]
    rw [Function.update_of_ne (hne (by rw [ha, hself, htab]; omega))]
    by_cases h0 : j = 0
    · subst h0
      have e : dir + 4096 + UInt32.ofNat 0 * 4 = dir + 4096 := by
        rw [← UInt32.toNat_inj, ha, Nat.mul_zero, Nat.add_zero]
      rw [e, Function.update_self]
      rfl
    · rw [Function.update_of_ne (hne (by rw [ha]; omega)),
        createPte_at (by omega) (by omega) (by omega) le_rfl]

end BHOS
