import BHOS.Lib.Bytes
import BHOS.PoolSafety

/-! # The storage of the pool of kernel pages (`vmm.c`)

The storage of `kern_vmm_pool` is the array `kern_bitmap_block` of the kernel image.  Here its bytes
are bytes of physical memory, reached through the page tables that the calls write.  An allocation or
release of `bitmap.c` reads the storage and then writes one byte of it, so it is run on what the page
tables show, and the byte that changed is written through them (`putPool`).  As long as no
call maps a page a multiple of 64 MiB from the kernel image, the calls do what they do with a storage
of its own (`Lodged.follows`). -/

namespace BHOS

open Vmm

/-- The machine as `vmm.c` sees it, with the storage of the pool in memory. -/
structure MemVmm (π : Type) where
  mem : PhysMem
  cr3 : UInt32
  kernVmmPool : Bitmap
  pmm : π

namespace MemVmm

section source

variable {π : Type} (alloc : π → Option (PmAlloc × π)) (s : MemVmm π)

/-- The storage of the pool, as the page tables show it. -/
def poolMem : ByteMem := fun v =>
  if (v - s.kernVmmPool.vaddrHeader).toNat < s.kernVmmPool.length.toNat then
    (translate s.mem s.cr3 v).map (Bytes.read s.mem)
  else none

/-- The same machine with the storage as a component of its own. -/
def toVmm : Vmm π := ⟨s.mem, s.cr3, s.kernVmmPool, s.poolMem, s.pmm⟩

/-- A byte of the storage that has changed, with its physical address. -/
def change (m : ByteMem) (i : ℕ) : Option (UInt32 × UInt8) :=
  let v := s.kernVmmPool.vaddrHeader + UInt32.ofNat i
  if m v = s.poolMem v then none
  else do
    let a ← translate s.mem s.cr3 v
    let b ← m v
    some (a, b)

/-- All the bytes that have changed. -/
def changes (m : ByteMem) : List (UInt32 × UInt8) :=
  (List.range s.kernVmmPool.length.toNat).filterMap (s.change m)

/-- Write what a function of `bitmap.c` has left in the storage. -/
def putPool (m : ByteMem) : MemVmm π := { s with mem := Bytes.writes s.mem (s.changes m) }

/-- Write the word at a virtual address. -/
def write (vaddr x : UInt32) : Option (MemVmm π) :=
  (translate s.mem s.cr3 vaddr).map fun a => { s with mem := Function.update s.mem a x }

/-- `vmm_kern_init`; all that it writes is the storage, whose bytes are at different places then. -/
def vmmKernInit (kernEnd kernBitmap : UInt32) : Option (MemVmm π) :=
  let s := { s with kernVmmPool := kernPool kernBitmap }
  (Vmm.vmmKernInit kernEnd kernBitmap s.toVmm).map fun t => s.putPool t.poolMem

/-- The common part of the two allocation functions. -/
def mapPage (target : UInt32) : Option (UInt32 × MemVmm π) := do
  let desc ← s.toVmm.read (getPde target)
  let s ←
    if ((if desc = desc then 1 else 0) ||| 0x00000001 : UInt32) ≠ 0 then some s
    else s.write (getPde target) (desc ||| 0x00000001)
  let (phyPage, pmm) ← alloc s.pmm
  let s := { s with pmm := pmm }
  if phyPage.state = 0 then do
    let m ← s.kernVmmPool.releaseOnePage target s.poolMem
    some (kernVmmAllocErro, s.putPool m)
  else do
    let s ← s.write (getPte target) ((phyPage.addr &&& 0xFFFFF000) + 0x2 + 0x0 + 0x100 + 0x1)
    some (target, s)

/-- `vmm_kern_alloc_one_page`. -/
def vmmKernAllocOnePage (target : UInt32) : Option (UInt32 × MemVmm π) := do
  let (vaddrGet, m) ← s.kernVmmPool.allocOnePage target s.poolMem
  let s := s.putPool m
  if vaddrGet = bitmapReturnErro then some (kernVmmAllocErro, s) else mapPage alloc s target

/-- `vmm_kern_alloc`. -/
def vmmKernAlloc : Option (UInt32 × MemVmm π) := do
  let (target, m) ← s.kernVmmPool.alloc s.poolMem
  let s := s.putPool m
  if target = bitmapReturnErro then some (kernVmmAllocErro, s) else mapPage alloc s target

/-- `vmm_kern_release_one_page`. -/
def vmmKernReleaseOnePage (target : UInt32) : Option (MemVmm π) :=
  if target < 0xC0000000 then some s
  else do
    let m ← s.kernVmmPool.releaseOnePage target s.poolMem
    let s := s.putPool m
    let descInf ← s.toVmm.read (getPte target)
    s.write (getPte target) (descInf &&& 0xFFFFFFFE)

end source

variable {π : Type} {alloc : π → Option (PmAlloc × π)} {s t : MemVmm π} {dir a x target : UInt32}
  {m : ByteMem} {used q i j : ℕ} {d : PmAlloc} {p : π} {op : KernOp}

/-- The address of a byte of the storage. -/
def byteAddr (s : MemVmm π) (i : ℕ) : UInt32 := s.kernVmmPool.vaddrHeader + UInt32.ofNat i

/-- The kernel's page tables and its pool, whose storage is mapped in pages of the kernel image,
outside the tables and byte by byte at different places. -/
structure Placed (used : ℕ) (dir : UInt32) (s : MemVmm π) : Prop where
  cr3 : s.cr3 = dir
  tables : KernTables s.mem dir
  pool : ∃ kb, s.kernVmmPool = kernPool kb
  few : used ≤ 1024
  page : ∀ i < 0x8000, ∃ q < used, kernPage? (s.byteAddr i) = some q
  mapped : ∀ i < 0x8000, ∃ a, translate s.mem dir (s.byteAddr i) = some a
  outside : ∀ i < 0x8000, ∀ a, translate s.mem dir (s.byteAddr i) = some a →
    OutsideTables dir (Bytes.wordAddr a)
  apart : ∀ i < 0x8000, ∀ j < 0x8000,
    translate s.mem dir (s.byteAddr i) = translate s.mem dir (s.byteAddr j) → i = j

/-- And the pages of the last 4 MiB are marked as taken. -/
structure Lodged (used : ℕ) (dir : UInt32) (s : MemVmm π) : Prop extends Placed used dir s where
  window : ∀ q ∈ s.toVmm.freePages, q < windowPage

theorem byteAddr_putPool (s : MemVmm π) (m : ByteMem) (i : ℕ) :
    (s.putPool m).byteAddr i = s.byteAddr i := rfl

theorem poolMem_out (hv : ¬ (a - s.kernVmmPool.vaddrHeader).toNat < s.kernVmmPool.length.toNat) :
    s.poolMem a = none := if_neg hv

theorem Placed.length (h : s.Placed used dir) : s.kernVmmPool.length.toNat = 0x8000 := by
  obtain ⟨kb, hk⟩ := h.pool
  rw [hk]
  rfl

theorem byteAddr_sub (hi : i < 0x8000) :
    (s.byteAddr i - s.kernVmmPool.vaddrHeader).toNat = i := by
  rw [byteAddr, UInt32.add_comm, UInt32.add_sub_cancel, UInt32.toNat_ofNat']
  exact Nat.mod_eq_of_lt (by omega)

theorem poolMem_byte (hlen : s.kernVmmPool.length.toNat = 0x8000) (hc : s.cr3 = dir)
    (hi : i < 0x8000) :
    s.poolMem (s.byteAddr i) = (translate s.mem dir (s.byteAddr i)).map (Bytes.read s.mem) := by
  have hin : (s.byteAddr i - s.kernVmmPool.vaddrHeader).toNat < s.kernVmmPool.length.toNat := by
    rw [byteAddr_sub hi, hlen]
    exact hi
  rw [poolMem, if_pos hin, hc]

theorem Placed.poolMem_byte (h : s.Placed used dir) (hi : i < 0x8000) :
    s.poolMem (s.byteAddr i) = (translate s.mem dir (s.byteAddr i)).map (Bytes.read s.mem) :=
  MemVmm.poolMem_byte h.length h.cr3 hi

/-- A byte of a storage is that of an address of the array. -/
theorem eq_byteAddr (hlen : s.kernVmmPool.length.toNat = 0x8000)
    (hv : (a - s.kernVmmPool.vaddrHeader).toNat < s.kernVmmPool.length.toNat) :
    ∃ i < 0x8000, a = s.byteAddr i := by
  refine ⟨_, hlen ▸ hv, ?_⟩
  rw [byteAddr, UInt32.ofNat_toNat, UInt32.add_comm, UInt32.sub_add_cancel]

/-- Two storages with the same bytes at the addresses of the array are the same. -/
theorem poolMem_ext (hlen : s.kernVmmPool.length.toNat = 0x8000) (hs : s.kernVmmPool.Stored m)
    (hb : ∀ i < 0x8000, s.poolMem (s.byteAddr i) = m (s.byteAddr i)) : s.poolMem = m := by
  funext v
  by_cases hv : (v - s.kernVmmPool.vaddrHeader).toNat < s.kernVmmPool.length.toNat
  · obtain ⟨i, hi, rfl⟩ := eq_byteAddr hlen hv
    exact hb i hi
  · rw [poolMem_out hv, eq_comm, ← Option.not_isSome_iff_eq_none]
    intro hsome
    obtain ⟨i, hi, rfl⟩ := (hs v).mp hsome
    apply hv
    have hi' := byteAddr_sub (s := s) (hlen ▸ hi)
    rw [byteAddr] at hi'
    rw [hi']
    exact hi

/-- The storage is there. -/
theorem Placed.stored (h : s.Placed used dir) : s.kernVmmPool.Stored s.poolMem := by
  intro v
  constructor
  · intro hsome
    by_cases hv : (v - s.kernVmmPool.vaddrHeader).toNat < s.kernVmmPool.length.toNat
    · obtain ⟨i, hi, rfl⟩ := eq_byteAddr h.length hv
      exact ⟨i, h.length ▸ hi, rfl⟩
    · rw [poolMem_out hv] at hsome
      cases hsome
  · rintro ⟨i, hi, rfl⟩
    have hi : i < 0x8000 := h.length ▸ hi
    obtain ⟨a, ha⟩ := h.mapped i hi
    have hb := h.poolMem_byte hi
    rw [ha, Option.map_some] at hb
    exact Option.isSome_iff_exists.mpr ⟨_, hb⟩

theorem Lodged.ready (h : s.Lodged used dir) : s.toVmm.Ready dir :=
  ⟨h.cr3, h.tables, h.pool, h.stored, h.window⟩

/-- The storage is translated by the words of its pages. -/
theorem Placed.translate_congr (h : s.Placed used dir) {m' : PhysMem} (ht : KernTables m' dir)
    (hslots : ∀ q < used, m' (slot dir q) = s.mem (slot dir q)) (hi : i < 0x8000) :
    translate m' dir (s.byteAddr i) = translate s.mem dir (s.byteAddr i) := by
  obtain ⟨q, hq, hpage⟩ := h.page i hi
  have hfew := h.few
  have hw : q < windowPage := by
    unfold windowPage
    omega
  rw [ht.translate_eq hpage hw, h.tables.translate_eq hpage hw, hslots q hq]

/-- The storage stays where it is when the words of its pages stay as they are. -/
theorem Placed.of_words (h : s.Placed used dir) (hpool : t.kernVmmPool = s.kernVmmPool)
    (hcr3 : t.cr3 = s.cr3) (ht : KernTables t.mem dir)
    (hslots : ∀ q < used, t.mem (slot dir q) = s.mem (slot dir q)) : t.Placed used dir := by
  have haddr : ∀ i, t.byteAddr i = s.byteAddr i := fun i => by rw [byteAddr, byteAddr, hpool]
  have htrans : ∀ i < 0x8000, translate t.mem dir (t.byteAddr i) =
      translate s.mem dir (s.byteAddr i) := by
    intro i hi
    rw [haddr, h.translate_congr ht hslots hi]
  obtain ⟨kb, hk⟩ := h.pool
  refine ⟨hcr3.trans h.cr3, ht, ⟨kb, hpool.trans hk⟩, h.few, ?_, ?_, ?_, ?_⟩
  · intro i hi
    rw [haddr]
    exact h.page i hi
  · intro i hi
    rw [htrans i hi]
    exact h.mapped i hi
  · intro i hi a ha
    rw [htrans i hi] at ha
    exact h.outside i hi a ha
  · intro i hi j hj e
    rw [htrans i hi, htrans j hj] at e
    exact h.apart i hi j hj e

/-- The page manager does not matter. -/
theorem Lodged.with_pmm (h : s.Lodged used dir) (p : π) : Lodged used dir { s with pmm := p } :=
  ⟨h.toPlaced.of_words rfl rfl h.tables fun _ _ => rfl, h.window⟩

/-! ### Writing the storage -/

theorem Placed.change_eq_some (h : s.Placed used dir) {y : UInt32 × UInt8} :
    s.change m i = some y ↔ m (s.byteAddr i) ≠ s.poolMem (s.byteAddr i) ∧
      translate s.mem dir (s.byteAddr i) = some y.1 ∧ m (s.byteAddr i) = some y.2 := by
  have hc : s.cr3 = dir := h.cr3
  unfold change byteAddr
  rw [hc]
  by_cases hsame : m (s.kernVmmPool.vaddrHeader + UInt32.ofNat i) =
      s.poolMem (s.kernVmmPool.vaddrHeader + UInt32.ofNat i)
  · simp only [if_pos hsame]
    exact iff_of_false (fun e => nomatch e) fun e => e.1 hsame
  · simp only [if_neg hsame]
    constructor
    · intro hy
      obtain ⟨a, ha, hy⟩ := Option.bind_eq_some_iff.mp hy
      obtain ⟨b, hb, hy⟩ := Option.bind_eq_some_iff.mp hy
      obtain rfl := Option.some.inj hy
      exact ⟨hsame, ha, hb⟩
    · rintro ⟨-, ha, hb⟩
      simp only [ha, hb, Option.bind_eq_bind, Option.bind_some]

theorem Placed.mem_changes (h : s.Placed used dir) {y : UInt32 × UInt8} :
    y ∈ s.changes m ↔ ∃ i < 0x8000, m (s.byteAddr i) ≠ s.poolMem (s.byteAddr i) ∧
      translate s.mem dir (s.byteAddr i) = some y.1 ∧ m (s.byteAddr i) = some y.2 := by
  simp only [changes, List.mem_filterMap, h.length, List.mem_range, h.change_eq_some]

/-- No byte of memory is written twice. -/
theorem Placed.nodup_changes (h : s.Placed used dir) (m : ByteMem) :
    ((s.changes m).map Prod.fst).Nodup := by
  rw [changes, h.length, List.Nodup, List.pairwise_map, List.pairwise_filterMap]
  refine List.Pairwise.imp_of_mem ?_ List.nodup_range
  intro i j hi hj hne y hy z hz e
  obtain ⟨-, hi', -⟩ := h.change_eq_some.mp hy
  obtain ⟨-, hj', -⟩ := h.change_eq_some.mp hz
  rw [List.mem_range] at hi hj
  rw [e] at hi'
  exact hne (h.apart i hi j hj (hi'.trans hj'.symm))

/-- The words in which no byte of the storage lies stay as they are. -/
theorem Placed.putPool_of_ne (h : s.Placed used dir) (hx : ∀ i < 0x8000, ∀ a,
    translate s.mem dir (s.byteAddr i) = some a → x ≠ Bytes.wordAddr a) :
    (s.putPool m).mem x = s.mem x := by
  apply Bytes.writes_of_ne
  intro y hy
  obtain ⟨i, hi, -, ha, -⟩ := h.mem_changes.mp hy
  exact hx i hi _ ha

/-- So do the words of the tables. -/
theorem Placed.putPool_mem (h : s.Placed used dir) (hx : ¬ OutsideTables dir x) :
    (s.putPool m).mem x = s.mem x := by
  apply h.putPool_of_ne
  rintro i hi a ha rfl
  exact hx (h.outside i hi a ha)

/-- So are they when the storage is written twice. -/
theorem Placed.putPool_twice {b b' : ByteMem} (h : s.Placed used dir)
    (h' : (s.putPool b).Placed used dir) (hx : ∀ i < 0x8000, ∀ a,
      translate s.mem dir (s.byteAddr i) = some a → x ≠ Bytes.wordAddr a) :
    ((s.putPool b).putPool b').mem x = s.mem x := by
  have htab : KernTables (s.putPool b).mem dir := h'.tables
  have hslots : ∀ q < used, (s.putPool b).mem (slot dir q) = s.mem (slot dir q) := fun q _ =>
    h.putPool_mem (h.tables.not_outside_slot q)
  rw [h'.putPool_of_ne, h.putPool_of_ne hx]
  intro i hi a ha
  rw [byteAddr_putPool, h.translate_congr htab hslots hi] at ha
  exact hx i hi a ha

/-- The bytes that are written are read back. -/
theorem Placed.read_putPool (h : s.Placed used dir) (hs : s.kernVmmPool.Stored m)
    (hi : i < 0x8000) (ha : translate s.mem dir (s.byteAddr i) = some a) :
    some (Bytes.read (s.putPool m).mem a) = m (s.byteAddr i) := by
  by_cases hsame : m (s.byteAddr i) = s.poolMem (s.byteAddr i)
  · have hother : ∀ y ∈ s.changes m, a ≠ y.1 := by
      rintro y hy rfl
      obtain ⟨j, hj, hne, hj', -⟩ := h.mem_changes.mp hy
      obtain rfl := h.apart i hi j hj (ha.trans hj'.symm)
      exact hne hsame
    rw [hsame, h.poolMem_byte hi, ha, Option.map_some, Option.some.injEq]
    exact Bytes.read_writes_of_ne hother
  · obtain ⟨b, hb⟩ := hs.load (h.length ▸ hi)
    have hb : m (s.byteAddr i) = some b := hb
    rw [hb, Option.some.injEq]
    exact Bytes.read_writes_of_mem (h.nodup_changes m) (h.mem_changes.mpr ⟨i, hi, hsame, ha, hb⟩)

theorem Placed.tables_putPool (h : s.Placed used dir) (m : ByteMem) :
    KernTables (s.putPool m).mem dir ∧ ∀ q, (s.putPool m).mem (slot dir q) = s.mem (slot dir q) :=
  KernTables.congr_words h.tables fun _ hx => h.putPool_mem hx

theorem Placed.poolMem_putPool (h : s.Placed used dir) (hs : s.kernVmmPool.Stored m) :
    (s.putPool m).poolMem = m := by
  obtain ⟨htab, hslots⟩ := h.tables_putPool m
  refine poolMem_ext (s := s.putPool m) h.length hs fun i hi => ?_
  obtain ⟨a, ha⟩ := h.mapped i hi
  have hb := MemVmm.poolMem_byte (s := s.putPool m) h.length h.cr3 hi
  rw [byteAddr_putPool, h.translate_congr htab (fun q _ => hslots q) hi, ha, Option.map_some] at hb
  rw [byteAddr_putPool, hb]
  exact h.read_putPool hs hi ha

/-- The storage stays where it is when it is written. -/
theorem Placed.putPool (h : s.Placed used dir) (hs : s.kernVmmPool.Stored m)
    (hwindow : ∀ q ∈ s.kernVmmPool.freeSet m, q < windowPage) :
    (s.putPool m).Lodged used dir := by
  obtain ⟨htab, hslots⟩ := h.tables_putPool m
  refine ⟨h.of_words rfl rfl htab fun q _ => hslots q, ?_⟩
  intro q hq
  have hF : (s.putPool m).toVmm.freePages = s.kernVmmPool.freeSet m :=
    congrArg s.kernVmmPool.freeSet (h.poolMem_putPool hs)
  exact hwindow q (hF ▸ hq)

/-- The storage stays as it is when the word of a page is written that is none of the image's. -/
theorem Lodged.update_slot (h : s.Lodged used dir) (hq : used ≤ q % aliasPages) (x : UInt32) :
    MemVmm.poolMem { s with mem := Function.update s.mem (slot dir q) x } = s.poolMem ∧
      Lodged used dir { s with mem := Function.update s.mem (slot dir q) x } := by
  have hfew := h.few
  have htab := h.tables
  have hslots : ∀ r < used, Function.update s.mem (slot dir q) x (slot dir r) =
      s.mem (slot dir r) := by
    intro r hr
    apply Function.update_of_ne
    intro e
    have halias := htab.slot_eq_iff.mp e
    have hlow : r % aliasPages = r := Nat.mod_eq_of_lt (by unfold aliasPages; omega)
    omega
  have hpool : MemVmm.poolMem { s with mem := Function.update s.mem (slot dir q) x } =
      s.poolMem := by
    refine poolMem_ext h.length h.stored fun i hi => ?_
    obtain ⟨a, ha⟩ := h.mapped i hi
    have haddr : byteAddr { s with mem := Function.update s.mem (slot dir q) x } i =
        s.byteAddr i := rfl
    have hword : Bytes.wordAddr a ≠ slot dir q := by
      intro e
      have hout := h.outside i hi a ha
      rw [e] at hout
      exact htab.not_outside_slot q hout
    have hb := MemVmm.poolMem_byte (s := { s with mem := Function.update s.mem (slot dir q) x })
      h.length h.cr3 hi
    have hread : Bytes.read (Function.update s.mem (slot dir q) x) a = Bytes.read s.mem a := by
      rw [Bytes.read, Bytes.read, Function.update_of_ne hword]
    rw [haddr, h.translate_congr (htab.update_slot q x) hslots hi, ha, Option.map_some] at hb
    have hs := h.poolMem_byte hi
    rw [ha, Option.map_some] at hs
    exact (hb.trans (congrArg some hread)).trans hs.symm
  refine ⟨hpool, h.of_words rfl rfl (htab.update_slot q x) hslots, ?_⟩
  intro r hr
  have hF : (MemVmm.toVmm { s with mem := Function.update s.mem (slot dir q) x }).freePages =
      s.toVmm.freePages := congrArg s.kernVmmPool.freeSet hpool
  exact h.window r (hF ▸ hr)

/-! ### The calls -/

/-- What an allocation answers that took a page from the pool: without a frame it leaves `m` in the
storage, otherwise the frame is written into the entry `x` of the page. -/
def answer (s : MemVmm π) (a x : UInt32) (m : ByteMem) (r : PmAlloc × π) : UInt32 × MemVmm π :=
  if r.1.state = 0 then (kernVmmAllocErro, putPool { s with pmm := r.2 } m)
  else (a, { s with pmm := r.2, mem := Function.update s.mem x (kernDesc r.1.addr) })

variable (alloc) in
/-- Mapping a page that was just taken from the pool. -/
theorem Lodged.mapPage_eq (h : s.Lodged used dir) (hq : kernPage? target = some q)
    (hw : q < windowPage) :
    ∃ m, s.kernVmmPool.Stored m ∧ s.kernVmmPool.freeSet m = insert q s.toVmm.freePages ∧
      mapPage alloc s target = (alloc s.pmm).map (s.answer target (slot dir q) m) := by
  have htest : (1 ||| 0x00000001 : UInt32) ≠ 0 := by decide
  obtain ⟨hpde, hpte⟩ := h.ready.translate_entries hq hw
  obtain ⟨m, hm, hs, hF⟩ := h.ready.pooled.release_page hq
  refine ⟨m, hs, hF, ?_⟩
  have hread : s.toVmm.read (getPde target) = some (s.mem (dirEntry dir target)) := by
    rw [Vmm.read, hpde, Option.map_some]
    rfl
  have hrelease : ∀ p : π, s.kernVmmPool.releaseOnePage target
      (MemVmm.poolMem { s with pmm := p }) = some m := fun _ => hm
  have hwrite : ∀ (p : π) (z : UInt32), write { s with pmm := p } (getPte target) z =
      some { s with pmm := p, mem := Function.update s.mem (slot dir q) z } := by
    intro p z
    have htrans : translate s.mem s.cr3 (getPte target) = some (slot dir q) := hpte
    rw [write, htrans, Option.map_some]
  simp only [mapPage, hread, Option.bind_eq_bind, Option.bind_some, if_true, if_pos htest]
  cases alloc s.pmm with
  | none => rfl
  | some r =>
      unfold answer
      simp only [Option.bind_some, Option.map_some, hwrite, hrelease, kernDesc]
      split_ifs <;> rfl

/-- Writing back what is there changes nothing. -/
theorem putPool_self (s : MemVmm π) : s.putPool s.poolMem = s := by
  have hnone : s.changes s.poolMem = [] := by
    rw [changes, List.filterMap_eq_nil_iff]
    intro i _
    simp only [change, if_true]
  rw [putPool, hnone]
  rfl

/-- An allocation. -/
def call (alloc : π → Option (PmAlloc × π)) : KernOp → MemVmm π → Option (UInt32 × MemVmm π)
  | .alloc, s => vmmKernAlloc alloc s
  | .allocOnePage target, s => vmmKernAllocOnePage alloc s target
  | .releaseOnePage _, _ => none

variable (alloc) in
/-- An allocation finds no page to take, with the storage in memory and with a copy of it. -/
theorem Lodged.call_idle (h : s.Lodged used dir) (hop : ∀ target, op ≠ .releaseOnePage target)
    (hno : ∀ q, ¬ Takes op s.toVmm q) :
    call alloc op s = some (kernVmmAllocErro, s) ∧
      Gives alloc kernVmmAllocErro s.toVmm op s.toVmm := by
  cases op with
  | alloc =>
      have hnone : s.toVmm.freePages = ∅ := by
        by_contra hne
        exact hno _ (takes_sInf (Set.nonempty_iff_ne_empty.mpr hne))
      refine ⟨?_, h.ready.pooled.vmmKernAlloc_none hnone⟩
      rcases h.ready.pooled.alloc_eq with ⟨-, he⟩ | ⟨q, m, hq, -⟩
      · have he : s.kernVmmPool.alloc s.poolMem = some (bitmapReturnErro, s.poolMem) := he
        simp only [call, vmmKernAlloc, he, Option.bind_eq_bind, Option.bind_some, if_true,
          putPool_self]
      · rw [hnone] at hq
        exact hq.elim
  | allocOnePage target =>
      have hnone : ∀ q ∈ s.toVmm.freePages, kernPage? target ≠ some q := fun q hq hp =>
        hno q ⟨hp, hq⟩
      refine ⟨?_, h.ready.pooled.vmmKernAllocOnePage_none hnone⟩
      have he : s.kernVmmPool.allocOnePage target s.poolMem =
          some (bitmapReturnErro, s.poolMem) := by
        cases hp : kernPage? target with
        | none =>
            exact h.ready.pooled.ok.allocOnePage_out ((h.ready.pooled.pageIndex target).trans hp)
        | some q =>
            obtain ⟨m, -, -, hout⟩ := h.ready.pooled.allocOnePage_eq hp
            exact hout fun hq => hnone q hq hp
      simp only [call, vmmKernAllocOnePage, he, Option.bind_eq_bind, Option.bind_some, if_true,
        putPool_self]
  | releaseOnePage target => exact absurd rfl (hop target)

/-- An allocation that takes the page `q`: it writes the pool, and `u` is the state after that; then
it answers, with the storage in memory and with a copy of it. -/
structure Taken (alloc : π → Option (PmAlloc × π)) (used : ℕ) (dir : UInt32) (op : KernOp)
    (s u : MemVmm π) (q : ℕ) (a : UInt32) (m m' : ByteMem) : Prop where
  page : kernPage? a = some q
  addr : op = .alloc → a = kernAddr q
  lodged : u.Lodged used dir
  written : ∃ b, u = s.putPool b
  free : u.toVmm.freePages = s.toVmm.freePages \ {q}
  stored : u.kernVmmPool.Stored m ∧ s.kernVmmPool.Stored m'
  back : u.kernVmmPool.freeSet m = s.toVmm.freePages
  copy : s.kernVmmPool.freeSet m' = s.toVmm.freePages \ {q}
  answers : call alloc op s = (alloc s.pmm).map (u.answer a (slot dir q) m)
  follows : ∀ b v, Gives alloc b v op s.toVmm ↔
    (alloc s.pmm).map (s.toVmm.answer a (slot dir q) m') = some (b, v)

variable (alloc) in
theorem Lodged.call_takes (h : s.Lodged used dir) (ht : Takes op s.toVmm q) :
    ∃ u a m m', Taken alloc used dir op s u q a m m' := by
  have hw := h.ready.window q ht.free
  -- the state after the bitmap was written, whatever the function was
  have hput : ∀ {m : ByteMem} {target : UInt32}, kernPage? target = some q →
      s.kernVmmPool.Stored m → s.kernVmmPool.freeSet m = s.toVmm.freePages \ {q} →
      (s.putPool m).Lodged used dir ∧
        (s.putPool m).toVmm.freePages = s.toVmm.freePages \ {q} ∧
        ∃ m', s.kernVmmPool.Stored m' ∧ s.kernVmmPool.freeSet m' = s.toVmm.freePages ∧
          mapPage alloc (s.putPool m) target =
            (alloc s.pmm).map ((s.putPool m).answer target (slot dir q) m') := by
    intro m target hp hs hF
    have hF' : (s.putPool m).toVmm.freePages = s.toVmm.freePages \ {q} :=
      (congrArg s.kernVmmPool.freeSet (h.poolMem_putPool hs)).trans hF
    have hl : (s.putPool m).Lodged used dir := by
      refine h.putPool hs fun r hr => ?_
      rw [hF] at hr
      exact h.ready.window r hr.1
    obtain ⟨m', hs', hback, he⟩ := hl.mapPage_eq alloc hp hw
    refine ⟨hl, hF', m', hs', ?_, he⟩
    have hback : s.kernVmmPool.freeSet m' = insert q (s.putPool m).toVmm.freePages := hback
    rw [hback, hF', Set.insert_sdiff_singleton, Set.insert_eq_of_mem ht.free]
  cases op with
  | alloc =>
      obtain ⟨hpde, hpte⟩ :=
        h.ready.translate_entries (kernPage_kernAddr (h.ready.pooled.page_lt ht.free)) hw
      obtain ⟨m', hs', hF', hv⟩ := h.ready.pooled.vmmKernAlloc_eq alloc ht hpde hpte
      rcases h.ready.pooled.alloc_eq with ⟨hnil, -⟩ | ⟨r, m, hr, hmin, he, hs, hF⟩
      · have hq := ht.free
        rw [hnil] at hq
        exact hq.elim
      · have hr' : Takes .alloc s.toVmm r := ⟨hr, hmin⟩
        obtain rfl := hr'.unique ht
        have he : s.kernVmmPool.alloc s.poolMem = some (kernAddr r, m) := he
        have hpage : r < 256 * 1024 := h.ready.pooled.page_lt hr
        have hne : kernAddr r ≠ bitmapReturnErro := (kernPool_ok 0).pageAddr_ne_erro hpage
        obtain ⟨hl, hu, m'', hs'', hback, hmap⟩ := hput (kernPage_kernAddr hpage) hs hF
        refine ⟨s.putPool m, kernAddr r, m'', m', kernPage_kernAddr hpage, fun _ => rfl, hl,
          ⟨m, rfl⟩, hu, ⟨hs'', hs'⟩, hback, hF', ?_, ?_⟩
        · simp only [call, vmmKernAlloc, he, Option.bind_eq_bind, Option.bind_some, if_neg hne, hmap]
        · intro b v
          exact Eq.congr_left hv
  | allocOnePage target =>
      obtain ⟨hpde, hpte⟩ := h.ready.translate_entries ht.1 hw
      obtain ⟨m', hs', hF', hv⟩ := h.ready.pooled.vmmKernAllocOnePage_eq alloc ht hpde hpte
      obtain ⟨m, hs, hin, -⟩ := h.ready.pooled.allocOnePage_eq ht.1
      obtain ⟨he, hF⟩ := hin ht.2
      have he : s.kernVmmPool.allocOnePage target s.poolMem = some (kernAddr q, m) := he
      have hne : kernAddr q ≠ bitmapReturnErro := (kernPool_ok 0).pageAddr_ne_erro (kernPage_lt ht.1)
      obtain ⟨hl, hu, m'', hs'', hback, hmap⟩ := hput ht.1 hs hF
      refine ⟨s.putPool m, target, m'', m', ht.1, (fun e => nomatch e), hl, ⟨m, rfl⟩, hu,
        ⟨hs'', hs'⟩, hback, hF', ?_, ?_⟩
      · simp only [call, vmmKernAllocOnePage, he, Option.bind_eq_bind, Option.bind_some, if_neg hne,
          hmap]
      · intro b v
        exact Eq.congr_left hv
  | releaseOnePage target => exact ht.elim

/-- What an allocation returns that took a page, in a run that spares the kernel image. -/
theorem Taken.follows_of {u : MemVmm π} {b : UInt32} {m m' : ByteMem}
    (h : Taken alloc used dir op s u q a m m') (hs : s.Lodged used dir)
    (hspare : ∀ d p, alloc s.pmm = some (d, p) → d.state ≠ 0 → used ≤ q % aliasPages)
    (hc : call alloc op s = some (b, t)) :
    t.Lodged used dir ∧ (b ≠ kernVmmAllocErro → b = a ∧ used ≤ q % aliasPages) ∧
      ∃ v, Gives alloc b v op s.toVmm ∧ t.toVmm.freePages = v.freePages := by
  rw [h.answers] at hc
  obtain ⟨⟨d, p⟩, hd, hr⟩ := Option.map_eq_some_iff.mp hc
  have hl := h.lodged.with_pmm p
  unfold answer at hr
  by_cases hst : d.state = 0
  · rw [if_pos hst] at hr
    obtain ⟨rfl, rfl⟩ := Prod.mk.inj hr
    have hback : u.kernVmmPool.freeSet m = s.toVmm.freePages := h.back
    refine ⟨hl.putPool h.stored.1 fun r hr => hs.window r (hback ▸ hr), fun hne => absurd rfl hne,
      { s.toVmm with pmm := p }, ?_, ?_⟩
    · rw [h.follows, hd, Option.map_some, Vmm.answer, if_pos hst]
    · exact (congrArg u.kernVmmPool.freeSet (hl.poolMem_putPool h.stored.1)).trans hback
  · rw [if_neg hst] at hr
    obtain ⟨rfl, rfl⟩ := Prod.mk.inj hr
    have hle := hspare d p hd hst
    obtain ⟨hpool, hl'⟩ := hl.update_slot hle (kernDesc d.addr)
    refine ⟨hl', fun _ => ⟨rfl, hle⟩, { s.toVmm with
      pmm := p
      poolMem := m'
      mem := Function.update s.toVmm.mem (slot dir q) (kernDesc d.addr) }, ?_, ?_⟩
    · rw [h.follows, hd, Option.map_some, Vmm.answer, if_neg hst]
    · exact ((congrArg u.kernVmmPool.freeSet hpool).trans h.free).trans h.copy.symm

/-- **The storage in memory is as good as a copy of it**: an allocation that spares the kernel image
returns what it returns with a copy, and leaves the same pages free. -/
theorem Lodged.follows (h : s.Lodged used dir) (hspare : SparesImage alloc used op s.toVmm)
    (hc : call alloc op s = some (a, t)) : t.Lodged used dir ∧
      (a ≠ kernVmmAllocErro → ∃ q, kernPage? a = some q ∧ used ≤ q % aliasPages) ∧
      ∃ v, Gives alloc a v op s.toVmm ∧ t.toVmm.freePages = v.freePages := by
  by_cases ht : ∃ q, Takes op s.toVmm q
  · obtain ⟨q, hq⟩ := ht
    obtain ⟨u, b, m, m', hu⟩ := h.call_takes alloc hq
    obtain ⟨hl, hpage, hv⟩ := hu.follows_of h (fun d p => hspare q d p hq) hc
    refine ⟨hl, fun hne => ?_, hv⟩
    obtain ⟨rfl, hle⟩ := hpage hne
    exact ⟨q, hu.page, hle⟩
  · have hop : ∀ target, op ≠ .releaseOnePage target := by
      rintro target rfl
      cases hc
    obtain ⟨he, hg⟩ := h.call_idle alloc hop fun q hq => ht ⟨q, hq⟩
    obtain ⟨rfl, rfl⟩ := Prod.mk.inj (Option.some.inj (he.symm.trans hc))
    exact ⟨h, fun hne => absurd rfl hne, _, hg, rfl⟩

/-- An allocation returns when the page manager does. -/
theorem Lodged.returns (h : s.Lodged used dir) (hop : ∀ target, op ≠ .releaseOnePage target)
    (hd : ∃ d p, alloc s.pmm = some (d, p)) : ∃ a t, call alloc op s = some (a, t) := by
  by_cases ht : ∃ q, Takes op s.toVmm q
  · obtain ⟨q, hq⟩ := ht
    obtain ⟨u, b, m, m', hu⟩ := h.call_takes alloc hq
    obtain ⟨d, p, hd⟩ := hd
    exact ⟨_, _, by rw [hu.answers, hd, Option.map_some]⟩
  · exact ⟨_, s, (h.call_idle alloc hop fun q hq => ht ⟨q, hq⟩).1⟩

/-- Releasing a page, with the storage in memory and with a copy of it. -/
theorem Lodged.release (h : s.Lodged used dir) (hp : kernPage? target = some q) (hw : q < windowPage)
    (hle : used ≤ q % aliasPages) : ∃ t, vmmKernReleaseOnePage s target = some t ∧
      t.Lodged used dir ∧ t.toVmm.freePages = insert q s.toVmm.freePages := by
  obtain ⟨m, hm, hs, hF⟩ := h.ready.pooled.release_page hp
  have hm : s.kernVmmPool.releaseOnePage target s.poolMem = some m := hm
  have hF : s.kernVmmPool.freeSet m = insert q s.toVmm.freePages := hF
  have hlo : ¬ target < 0xC0000000 := by
    rw [UInt32.not_lt, UInt32.le_iff_toNat_le]
    exact (kernPage_eq_some.mp hp).1
  have hl : (s.putPool m).Lodged used dir := by
    refine h.putPool hs fun r hr => ?_
    rw [hF] at hr
    rcases Set.mem_insert_iff.mp hr with rfl | hr
    · exact hw
    · exact h.window r hr
  have htrans : translate (s.putPool m).mem (s.putPool m).cr3 (getPte target) = some (slot dir q) :=
    (hl.ready.translate_entries hp hw).2
  have hread : (s.putPool m).toVmm.read (getPte target) = some ((s.putPool m).mem (slot dir q)) := by
    have htrans' : translate (s.putPool m).toVmm.mem (s.putPool m).toVmm.cr3 (getPte target) =
      some (slot dir q) := htrans
    rw [Vmm.read, htrans', Option.map_some]
    rfl
  obtain ⟨hpool, hl'⟩ := hl.update_slot hle ((s.putPool m).mem (slot dir q) &&& 0xFFFFFFFE)
  refine ⟨_, ?_, hl', ?_⟩
  · simp only [vmmKernReleaseOnePage, if_neg hlo, hm, Option.bind_eq_bind, Option.bind_some, hread,
      write, htrans, Option.map_some]
  · have hback : (s.putPool m).poolMem = m := h.poolMem_putPool hs
    exact (congrArg s.kernVmmPool.freeSet (hpool.trans hback)).trans hF

/-! ### The kernel after boot -/

/-- The state before `vmm_kern_init`: the page tables of `set_page`, everything else arbitrary. -/
def booted (dir : UInt32) (m : PhysMem) (pool : Bitmap) (p : π) : MemVmm π :=
  ⟨setPage dir m, dir, pool, p⟩

/-- The array lies in the kernel image, and not in the page tables. -/
structure InImage (used : ℕ) (dir kb : UInt32) : Prop where
  low : 0xC0000000 ≤ kb.toNat
  high : kb.toNat + 0x8000 ≤ 0xC0000000 + used * 4096
  apart : kb.toNat - 0xC0000000 + 0x8000 ≤ dir.toNat ∨ dir.toNat + 4096 * 17 ≤ kb.toNat - 0xC0000000

section boot

variable (mem : PhysMem) (p : π) {kb kernEnd : UInt32}

/-- A kernel address is translated by the word of its page. -/
theorem translate_page {mem : PhysMem} {v : UInt32} (h : KernTables mem dir) (hp : kernPage? v = some q)
    (hw : q < windowPage) (hpres : Present (mem (slot dir q))) : ∃ a, translate mem dir v = some a ∧
      a.toNat = (mem (slot dir q)).toNat / 4096 * 4096 + v.toNat % 4096 :=
  ⟨_, by rw [h.translate_eq hp hw, if_pos hpres], frame_add_offset_toNat _ _⟩

/-- The kernel image is mapped to the low frames. -/
theorem translate_booted (hal : dir.toNat % 4096 = 0) (hroom : dir.toNat + 4096 * 257 ≤ 2 ^ 32)
    (hused : used ≤ 1024) (hkb : InImage used dir kb) (hi : i < 0x8000) :
    ∃ a, translate (setPage dir mem) dir (byteAddr ⟨setPage dir mem, dir, kernPool kb, p⟩ i) = some a ∧
      a.toNat = kb.toNat - 0xC0000000 + i ∧
      kernPage? (byteAddr ⟨setPage dir mem, dir, kernPool kb, p⟩ i) =
        some ((kb.toNat - 0xC0000000 + i) / 4096) := by
  obtain ⟨hlow, hhigh, -⟩ := hkb
  obtain ⟨htab, hpte⟩ := setPage_tables dir mem hal hroom
  have haddr : (byteAddr ⟨setPage dir mem, dir, kernPool kb, p⟩ i).toNat = kb.toNat + i := by
    simp only [byteAddr, kernPool, UInt32.toNat_add, UInt32.toNat_ofNat']
    omega
  generalize byteAddr ⟨setPage dir mem, dir, kernPool kb, p⟩ i = v at haddr ⊢
  have hpage : kernPage? v = some ((kb.toNat - 0xC0000000 + i) / 4096) :=
    kernPage_eq_some.mpr ⟨by omega, by omega⟩
  generalize hq : (kb.toNat - 0xC0000000 + i) / 4096 = q at hpage
  have hslot : (setPage dir mem (slot dir q)).toNat = 4096 * q + 3 := by
    have e : q % aliasPages = q := Nat.mod_eq_of_lt (by unfold aliasPages; omega)
    rw [slot, e]
    exact hpte q (by omega)
  have hpres : Present (setPage dir mem (slot dir q)) := by
    rw [present_iff, hslot]
    omega
  have hw : q < windowPage := by
    unfold windowPage
    omega
  obtain ⟨a, ha, hn⟩ := translate_page htab hpage hw hpres
  refine ⟨a, ha, ?_, hpage⟩
  rw [hn, hslot]
  omega

/-- The storage is in its place before `vmm_kern_init`. -/
theorem placed_booted (hal : dir.toNat % 4096 = 0) (hroom : dir.toNat + 4096 * 257 ≤ 2 ^ 32)
    (hused : used ≤ 1024) (hkb : InImage used dir kb) :
    Placed used dir ⟨setPage dir mem, dir, kernPool kb, p⟩ := by
  have htrans := fun (i : ℕ) (hi : i < 0x8000) => translate_booted mem p hal hroom hused hkb hi
  obtain ⟨hlow, hhigh, hapart⟩ := hkb
  refine ⟨rfl, (setPage_tables dir mem hal hroom).1, ⟨kb, rfl⟩, hused, ?_, ?_, ?_, ?_⟩
  · intro i hi
    obtain ⟨-, -, -, hpage⟩ := htrans i hi
    exact ⟨_, by omega, hpage⟩
  · intro i hi
    obtain ⟨a, ha, -⟩ := htrans i hi
    exact ⟨a, ha⟩
  · intro i hi a ha
    obtain ⟨b, hb, hn, -⟩ := htrans i hi
    obtain rfl := Option.some.inj (ha.symm.trans hb)
    unfold OutsideTables
    rw [Bytes.wordAddr_toNat, hn]
    omega
  · intro i hi j hj e
    obtain ⟨a, ha, hn, -⟩ := htrans i hi
    obtain ⟨b, hb, hn', -⟩ := htrans j hj
    have e' := congrArg UInt32.toNat (Option.some.inj ((ha.symm.trans e).trans hb))
    rw [hn, hn'] at e'
    omega

/-- The pool after `vmm_kern_init`. -/
theorem lodged_of_init (pool : Bitmap) (hal : dir.toNat % 4096 = 0)
    (hroom : dir.toNat + 4096 * 257 ≤ 2 ^ 32) (hused : (getKernUsedPageCount kernEnd).toNat ≤ 1024)
    (hkb : InImage (getKernUsedPageCount kernEnd).toNat dir kb) :
    ∃ s, vmmKernInit (booted dir mem pool p) kernEnd kb = some s ∧
      s.Lodged (getKernUsedPageCount kernEnd).toNat dir ∧
      (∃ b, s = putPool ⟨setPage dir mem, dir, kernPool kb, p⟩ b) ∧
      s.toVmm.freePages = {q | (getKernUsedPageCount kernEnd).toNat ≤ q ∧ q < windowPage} := by
  have hplaced := placed_booted mem p hal hroom hused hkb
  obtain ⟨m, hm, hs, hF⟩ := vmmKernInit_eq kernEnd kb
    (toVmm ⟨setPage dir mem, dir, kernPool kb, p⟩) hplaced.stored hused
  have hback := hplaced.poolMem_putPool hs
  refine ⟨putPool ⟨setPage dir mem, dir, kernPool kb, p⟩ m, ?_, ?_, ⟨m, rfl⟩, ?_⟩
  · rw [vmmKernInit, booted, hm, Option.map_some]
  · refine hplaced.putPool hs fun q hq => ?_
    rw [hF] at hq
    exact hq.2
  · exact (congrArg (kernPool kb).freeSet hback).trans hF

end boot

end MemVmm

end BHOS
