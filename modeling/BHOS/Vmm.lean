import BHOS.Bitmap
import BHOS.Pmm
import BHOS.Boot

/-! # Kernel virtual memory (`vmm.c`)

`kern_vmm_pool` is a bitmap over the 1 GiB from `0xC0000000` on; `vmm_kern_alloc` and
`vmm_kern_alloc_one_page` take a page from the pool and a frame from the page manager and write
the frame into the page table entry, reached through the self-mapped directory.

The functions are generic in the page manager: `alloc : π → Option (PmAlloc × π)` stands for
`pmm_alloc_one_page` on a state of type `π`.  A read or write of an unmapped virtual address is
undefined (`none`).  The storage of the pool and the static variables of the page manager are
components of their own.  They lie in the kernel image and are reached through its pages, which a
call remaps when it maps a page a multiple of 64 MiB above one of them; results that depend on
these components are about runs without such a call, or about tables that no two entries share,
and `BHOS.PoolStorage` has the storage of the pool in memory.  The TLB is left out: the source
flushes the entry of the page that a call names, not those of other pages with the same word. -/

namespace BHOS

/-- `KERN_VMM_ALLOC_ERRO`. -/
def kernVmmAllocErro : UInt32 := 0xFFFFFFFF

/-- The machine as `vmm.c` sees it. -/
structure Vmm (π : Type) where
  mem : PhysMem
  cr3 : UInt32
  kernVmmPool : Bitmap
  poolMem : ByteMem
  pmm : π

namespace Vmm

variable {π : Type} (alloc : π → Option (PmAlloc × π)) (s : Vmm π)

/-- Read the word at a virtual address. -/
def read (vaddr : UInt32) : Option UInt32 := (translate s.mem s.cr3 vaddr).map s.mem

/-- Write the word at a virtual address. -/
def write (vaddr v : UInt32) : Option (Vmm π) :=
  (translate s.mem s.cr3 vaddr).map fun a => { s with mem := Function.update s.mem a v }

/-! ### Initialisation -/

/-- `get_kern_used_page_count`. -/
def getKernUsedPageCount (kernEnd : UInt32) : UInt32 := (kernEnd - 0 + pageSize - 1) / pageSize

/-- The loop that takes the pages of the kernel image out of the pool. -/
def takePages (pool : Bitmap) : ℕ → ByteMem → Option ByteMem
  | 0, m => some m
  | n + 1, m => do
      let (_, m) ← pool.alloc m
      takePages pool n m

/-- The loop that clears the last bytes of the pool, downwards from `probe`. -/
def clearBytes : ℕ → UInt32 → ByteMem → Option ByteMem
  | 0, _, m => some m
  | n + 1, probe, m => do
      let m ← store m probe 0
      clearBytes n (probe - 1) m

/-- `kern_vmm_pool` as `vmm_kern_init` sets it. -/
def kernPool (kernBitmap : UInt32) : Bitmap := ⟨kernBitmap, 0x8000, 0xC0000000⟩

/-- `vmm_kern_init`; with a kernel image of more than 1024 pages it does not return. -/
def vmmKernInit (kernEnd kernBitmap : UInt32) (s : Vmm π) : Option (Vmm π) := do
  let pool := kernPool kernBitmap
  let m ← pool.initMem s.poolMem
  let pageUsed := getKernUsedPageCount kernEnd
  if pageUsed > 1024 then none
  else do
    let m ← takePages pool pageUsed.toNat m
    let m ← clearBytes 128 (kernBitmap + 0x8000 - 1) m
    some { s with kernVmmPool := pool, poolMem := m }

/-! ### Allocation and release -/

/-- The common part of the two allocation functions, from the test of the directory entry on.
In that test `==` binds tighter than `|`, so its value is never 0. -/
def mapPage (target : UInt32) : Option (UInt32 × Vmm π) := do
  let desc ← s.read (getPde target)
  let s ←
    if ((if desc = desc then 1 else 0) ||| 0x00000001 : UInt32) ≠ 0 then some s
    else s.write (getPde target) (desc ||| 0x00000001)
  let (phyPage, pmm) ← alloc s.pmm
  let s := { s with pmm := pmm }
  if phyPage.state = 0 then do
    let m ← s.kernVmmPool.releaseOnePage target s.poolMem
    some (kernVmmAllocErro, { s with poolMem := m })
  else do
    let s ← s.write (getPte target) ((phyPage.addr &&& 0xFFFFF000) + 0x2 + 0x0 + 0x100 + 0x1)
    some (target, s)

/-- `vmm_kern_alloc_one_page`. -/
def vmmKernAllocOnePage (target : UInt32) : Option (UInt32 × Vmm π) := do
  let (vaddrGet, m) ← s.kernVmmPool.allocOnePage target s.poolMem
  let s := { s with poolMem := m }
  if vaddrGet = bitmapReturnErro then some (kernVmmAllocErro, s) else mapPage alloc s target

/-- `vmm_kern_alloc`. -/
def vmmKernAlloc : Option (UInt32 × Vmm π) := do
  let (target, m) ← s.kernVmmPool.alloc s.poolMem
  let s := { s with poolMem := m }
  if target = bitmapReturnErro then some (kernVmmAllocErro, s) else mapPage alloc s target

/-- `vmm_kern_release_one_page`; the call of `pmm_free_page` is commented out in the source. -/
def vmmKernReleaseOnePage (target : UInt32) : Option (Vmm π) :=
  if target < 0xC0000000 then some s
  else do
    let m ← s.kernVmmPool.releaseOnePage target s.poolMem
    let s := { s with poolMem := m }
    let descInf ← s.read (getPte target)
    s.write (getPte target) (descInf &&& 0xFFFFFFFE)

end Vmm
end BHOS
