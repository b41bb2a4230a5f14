import BHOS.Threads
import BHOS.Vmm

/-! # User virtual memory (`vmm.c`, `user_task.c`)

A user task has a page directory and a pool of user pages.  The directory lies in a page of the
kernel half; `create_user_task_pdt` copies the kernel half of the loaded directory into it and
lets its last entry point to the directory itself.  `vmm_user_alloc_one_page` takes a page from
the pool of the task, creates a page table where there is none, and writes the table entry
through the loaded directory.

The storage of the pools of user tasks is a component of its own, like that of the kernel's pool,
and memory is cleared and copied by words.  `USER_PAGE_DIR_IS_LOADED` is always `True`, and the
message that is printed when the page table is present is left out but for the `cli` before it and
the `sti` after it. -/

namespace BHOS

/-- `USER_VMM_ALLOC_ERRO`. -/
def userVmmAllocErro : UInt32 := 0xFFFFFFFF

/-- `USER_TASK_INIT_ERRO`. -/
def userTaskInitErro : UInt32 := 0xFFFFFFFF

/-- The machine as `vmm_user_alloc_one_page` sees it. -/
structure UserVmm (π : Type) where
  kern : Vmm π
  userMem : ByteMem
  eflags : UInt32

namespace Vmm

variable {π : Type} (alloc : π → Option (PmAlloc × π)) (s : Vmm π)

/-- `memset` with 0, of so many words from a virtual address on. -/
def memsetZero : ℕ → UInt32 → Vmm π → Option (Vmm π)
  | 0, _, s => some s
  | n + 1, dest, s => do
      let s ← s.write dest 0
      memsetZero n (dest + 4) s

/-- `memcpy` of so many words between virtual addresses. -/
def memcpy : ℕ → UInt32 → UInt32 → Vmm π → Option (Vmm π)
  | 0, _, _, s => some s
  | n + 1, dest, src, s => do
      let x ← s.read src
      let s ← s.write dest x
      memcpy n (dest + 4) (src + 4) s

/-! ### Page directories of user tasks -/

/-- `pdt_mapping_helper`. -/
def pdtMappingHelper (pdtVaddr : UInt32) : Option (Vmm π) :=
  memcpy 256 (pdtVaddr + 0xC00) (getPde 0xC0000000) s

/-- `mapping_last_pde`. -/
def mappingLastPde (lastPteVaddr pdtPaddr : UInt32) : Option (Vmm π) :=
  s.write lastPteVaddr ((pdtPaddr &&& 0xFFFFF000) + 0x2 + 0x0 + 0x100 + 0x1)

/-- `create_user_task_pdt`. -/
def createUserTaskPdt : Option (UInt32 × Vmm π) := do
  let (pdtVaddr, s) ← s.vmmKernAlloc alloc
  if pdtVaddr = kernVmmAllocErro then some (userTaskInitErro, s)
  else do
    let s ← memsetZero 1024 pdtVaddr s
    let s ← s.pdtMappingHelper pdtVaddr
    let pdtPaddr ← vmmV2p s.mem s.cr3 pdtVaddr
    let s ← s.mappingLastPde (pdtVaddr + 0x1000 - 4) pdtPaddr
    some (pdtVaddr, s)

/-! ### Page tables of user tasks -/

/-- The virtual address of the entry of an address in the directory at `userPdtVaddr`. -/
def userPdeVaddr (userPdtVaddr targetVaddr : UInt32) : UInt32 :=
  let times := (targetVaddr >>> 22) &&& 0x000003FF
  userPdtVaddr + times * 4

/-- `vmm_user_check_pt_present`. -/
def vmmUserCheckPtPresent (userPdtVaddr targetVaddr : UInt32) : Option Bool := do
  let pde ← s.read (userPdeVaddr userPdtVaddr targetVaddr)
  some (pde = pde ||| 0x00000001)

/-- `create_user_page_table`. -/
def createUserPageTable (pdeVaddr : UInt32) : Option (Bool × Vmm π) := do
  let (reVaddr, s) ← s.vmmKernAlloc alloc
  if reVaddr = kernVmmAllocErro then some (false, s)
  else do
    let s ← memsetZero 1024 reVaddr s
    let pagePaddr ← vmmV2p s.mem s.cr3 reVaddr
    if pagePaddr = v2pError then some (false, s)
    else do
      let s ← s.write pdeVaddr ((pagePaddr &&& 0xFFFFF000) + 0x2 + 0x4 + 0x100 + 0x1)
      some (true, s)

end Vmm

namespace UserVmm

variable {π : Type} (alloc : π → Option (PmAlloc × π)) (s : UserVmm π)

/-- `cli`. -/
def cli : UserVmm π := { s with eflags := s.eflags &&& 0xFFFFFDFF }

/-- `sti`. -/
def sti : UserVmm π := { s with eflags := s.eflags ||| 0x200 }

/-- What follows the label `clean_bitmap_alloc`: the page is given back to the kernel's pool. -/
def cleanBitmapAlloc (vaddr : UInt32) : Option (UInt32 × UserVmm π) := do
  let m ← s.kern.kernVmmPool.releaseOnePage vaddr s.kern.poolMem
  some (userVmmAllocErro, { s with kern := { s.kern with poolMem := m } })

/-- The branches of `vmm_user_alloc_one_page` that make sure there is a page table; `false` is
the jump to `clean_bitmap_alloc`. -/
def ensurePageTable (userPdtVaddr vaddr : UInt32) : Option (Bool × UserVmm π) := do
  let present ← s.kern.vmmUserCheckPtPresent userPdtVaddr vaddr
  if present then some (true, s.cli.sti)
  else do
    let (created, kern) ← s.kern.createUserPageTable alloc (Vmm.userPdeVaddr userPdtVaddr vaddr)
    some (created, { s with kern := kern })

/-- `vmm_user_alloc_one_page` after the page table is there. -/
def mapUserPage (vaddr : UInt32) : Option (UInt32 × UserVmm π) := do
  let (phyPage, pmm) ← alloc s.kern.pmm
  let s := { s with kern := { s.kern with pmm := pmm } }
  if phyPage.state = 0 then s.cleanBitmapAlloc vaddr
  else do
    let kern ← s.kern.write (getPte vaddr)
      ((phyPage.addr &&& 0xFFFFF000) + 0x2 + 0x4 + 0x100 + 0x1)
    some (vaddr &&& 0xFFFFF000, { s with kern := kern })

/-- `vmm_user_alloc_one_page`. -/
def vmmUserAllocOnePage (tcb : Tcb) (vaddr : UInt32) : Option (UInt32 × UserVmm π) :=
  if tcb.isKernThread then some (userVmmAllocErro, s)
  else do
    let (vaddrGet, m) ← tcb.userVmmPool.allocOnePage vaddr s.userMem
    let s := { s with userMem := m }
    if vaddrGet = bitmapReturnErro then s.cleanBitmapAlloc vaddr
    else do
      let (ready, s) ← s.ensurePageTable alloc tcb.pdtVaddr vaddr
      if ready then s.mapUserPage alloc vaddr else s.cleanBitmapAlloc vaddr

end UserVmm
end BHOS
