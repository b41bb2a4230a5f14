import Mathlib.Logic.Function.Basic
import BHOS.Lib.Chain

/-! # The physical page manager (`pmm.c`)

A buddy allocator for blocks of `2^k` pages, `k ≤ 10`, and an independent buffer of single pages.
All twelve free lists are threaded through the one `next` field of the page descriptors
`page_array[i]`.  A pointer into `page_array` is modelled by the index it points at, `none` being
`NULL`; the `page_c_t` values, on which the source computes (`ph++`, `size+1`), are `UInt32`.

An operation is `none` where the C code has no defined result: `append_block` with a class whose
`switch` sets no `header`, and a list walk that does not end (`listBound` tests are more than
there are descriptors).  Console output is left out. -/

namespace BHOS

/-- `ERRO_POP_BLOCK`. -/
def erroPopBlock : UInt32 := 0xFFFFFFFF

/-- `page_c_t`: the exponent of a block size; `_1` is 0, `_1024` is 10, `_erro` is 11. -/
abbrev PageC := UInt32

/-- `_erro`. -/
def erro : PageC := 11

/-- `pm_page_t`. -/
structure PmPage where
  pageNo : UInt32
  next : Option UInt32
  state : UInt8

/-- `pm_alloc_t`. -/
structure PmAlloc where
  addr : UInt32
  size : PageC
  state : UInt8
deriving DecidableEq, Repr

/-- The static variables of `pmm.c`; `multiLink k` is the field `_2^k` of `MULTI_LINK`. -/
structure Pmm where
  pageStart : UInt32
  pageEnd : UInt32
  maxPageNo : UInt32
  singelPageFirstNo : UInt32
  pageArray : UInt32 → PmPage
  multiLink : Fin 11 → Option UInt32
  singleLink : Option UInt32

/-- The static variables before `pmm_init`. -/
def Pmm.zero : Pmm := ⟨0, 0, 0, 0, fun _ => ⟨0, none, 0⟩, fun _ => none, none⟩

/-- The number of tests after which a list walk is taken not to end. -/
def listBound : ℕ := 0x100000000

/-- The list a `switch (c)` selects; `none` for `_erro` and for every value without a case. -/
def listOf (c : PageC) : Option (Fin 11) := if h : c.toNat < 11 then some ⟨c.toNat, h⟩ else none

/-- `c_to_uint32`. -/
def cToUint32 (ph : PageC) : UInt32 := 1 <<< ph

/-- `get_partner_page_no`. -/
def getPartnerPageNo (pageNo : UInt32) (type : PageC) : UInt32 :=
  let v1 := cToUint32 type
  let v2 := 2 * v1
  if (pageNo - v1) % v2 = 0 then pageNo - v1 else pageNo + v1

namespace Pmm

variable (s : Pmm)

/-- The `next` field of a descriptor. -/
def next (p : UInt32) : Option UInt32 := (s.pageArray p).next

/-- `page_array[p].next = v`. -/
def setNext (p : UInt32) (v : Option UInt32) : Pmm :=
  { s with pageArray := Function.update s.pageArray p { s.pageArray p with next := v } }

/-- `MULTI_LINK->_2^k = v`. -/
def setMulti (k : Fin 11) (v : Option UInt32) : Pmm :=
  { s with multiLink := Function.update s.multiLink k v }

/-- `pmm_page_no_to_addr`. -/
def pageNoToAddr (pageNo : UInt32) : UInt32 := (pageNo <<< 12) + s.pageStart

/-- `addr_to_pmm_page_no`. -/
def addrToPageNo (addr : UInt32) : UInt32 := (addr - s.pageStart) >>> 12

/-- `append_block`: the new block goes to the end of the list of its class.  Without a case for
the class the local `header` is read uninitialised. -/
def appendBlock (pageNo : UInt32) (c : PageC) : Option Pmm :=
  let s := s.setNext pageNo none
  match listOf c with
  | none => none
  | some k =>
      match s.multiLink k with
      | none => some (s.setMulti k (some pageNo))
      | some header => do
          let probe ← Linked.seek s.next (fun p => (s.next p).isNone) listBound header
          some (s.setNext probe (some pageNo))

/-- `pop_block`: the last block of the list of a class, or `ERRO_POP_BLOCK`. -/
def popBlock (c : PageC) : Option (UInt32 × Pmm) :=
  if c = erro then some (erroPopBlock, s)
  else
    match listOf c with
    | none => none
    | some k =>
        match s.multiLink k with
        | none => some (erroPopBlock, s)
        | some header =>
            if s.next header = none then
              some ((s.pageArray header).pageNo, s.setMulti k none)
            else do
              let probe ← Linked.seek s.next (fun p => ((s.next p).bind s.next).isNone)
                listBound header
              let last ← s.next probe
              some ((s.pageArray last).pageNo, s.setNext probe none)

/-- The test of the search loop of `find_and_pop_block`. -/
def atTarget (target : UInt32) (p : UInt32) : Bool :=
  match s.next p with
  | none => true
  | some q => (s.pageArray q).pageNo == target

/-- `find_and_pop_block`. -/
def findAndPopBlock (target : UInt32) (ph : PageC) : Option (UInt32 × Pmm) :=
  if ph = erro then some (erroPopBlock, s)
  else
    match listOf ph with
    | none => none
    | some k =>
        match s.multiLink k with
        | none => some (erroPopBlock, s)
        | some header =>
            if s.next header = none ∧ (s.pageArray header).pageNo = target then do
              let (_, s) ← s.popBlock ph
              some (target, s)
            else do
              let probe ← Linked.seek s.next (s.atTarget target) listBound header
              match s.next probe with
              | some q => some (target, s.setNext probe (s.next q))
              | none =>
                  if (s.pageArray probe).pageNo = target then do
                    let (_, s) ← s.popBlock ph
                    some (target, s)
                  else some (erroPopBlock, s)

/-! ### Allocation -/

/-- The loop of `alloc_helper`.  The class handed to `append_block` is `pop_page_no-1`. -/
def allocHelper (targetPh : PageC) : ℕ → PageC → UInt32 → Pmm → Option (UInt32 × Pmm)
  | 0, _, _, _ => none
  | n + 1, popPh, popPageNo, s =>
      if popPh ≠ targetPh then do
        let appendPageNo := popPageNo + cToUint32 popPh / 2
        let s ← s.appendBlock appendPageNo (popPageNo - 1)
        allocHelper targetPh n (popPh - 1) popPageNo s
      else some (popPageNo, s)

/-- The loop that counts the binary digits of `page_count`. -/
def countBits : ℕ → UInt32 → UInt32 → UInt32
  | 0, _, counter1 => counter1
  | n + 1, probe, counter1 =>
      if probe ≠ 0 then countBits n (probe >>> 1) (counter1 + 1) else counter1

/-- The class `origin_ph` of a request for `page_count` pages. -/
def originPh (pageCount : UInt32) : PageC :=
  let counter1 := countBits 33 pageCount 0
  let counter2 := counter1 - 1
  if pageCount = 1 <<< counter2 then counter1 - 1 else counter1

/-- The loop `for(;ph<_erro;ph++)`: pop from the first list that is not empty. -/
def popFrom : ℕ → PageC → Pmm → Option (UInt32 × PageC × Pmm)
  | 0, ph, s => some (erroPopBlock, ph, s)
  | n + 1, ph, s =>
      if ph < erro then do
        let (popPageNo, s) ← s.popBlock ph
        if popPageNo ≠ erroPopBlock then some (popPageNo, ph, s) else popFrom n (ph + 1) s
      else some (erroPopBlock, ph, s)

/-- The descriptor of a failed request. -/
def failed : PmAlloc := ⟨0, erro, 0⟩

/-- `pmm_alloc_pages`. -/
def allocPages (pageCount : UInt32) : Option (PmAlloc × Pmm) :=
  if pageCount > 1024 ∨ pageCount = 0 then some (failed, s)
  else do
    let (popPageNo, ph, s) ← popFrom 12 (originPh pageCount) s
    if popPageNo = erroPopBlock then some (failed, s)
    else
      let (targetPageNo, s) ← allocHelper (originPh pageCount) 12 ph popPageNo s
      some (⟨s.pageNoToAddr targetPageNo, originPh pageCount, 1⟩, s)

/-- `pmm_alloc_one_page`. -/
def allocOnePage : Option (PmAlloc × Pmm) :=
  match s.singleLink with
  | some header =>
      if s.next header = none then
        some (⟨s.pageNoToAddr (s.pageArray header).pageNo, 0, 1⟩, { s with singleLink := none })
      else do
        let probe ← Linked.seek s.next (fun p => ((s.next p).bind s.next).isNone) listBound header
        let last ← s.next probe
        some (⟨s.pageNoToAddr (s.pageArray last).pageNo, 0, 1⟩, s.setNext probe none)
  | none => s.allocPages 1

/-! ### Freeing -/

/-- `free_helper`: merge with the partner while it is found in the list of the class. -/
def freeHelper : ℕ → UInt32 → PageC → Pmm → Option Pmm
  | 0, _, _, _ => none
  | n + 1, pageNo, size, s => do
      let partnerPageNo := getPartnerPageNo pageNo size
      let (found, s) ← s.findAndPopBlock partnerPageNo size
      if found ≠ erroPopBlock then
        freeHelper n (if partnerPageNo < pageNo then partnerPageNo else pageNo) (size + 1) s
      else s.appendBlock pageNo size

/-- `pmm_free_page`. -/
def freePage (blockDisc : PmAlloc) : Option (Bool × Pmm) :=
  let pageNo := s.addrToPageNo blockDisc.addr
  if pageNo < s.maxPageNo then
    if pageNo < s.singelPageFirstNo then do
      let s ← freeHelper 13 pageNo blockDisc.size s
      some (true, s)
    else
      match s.singleLink with
      | none => some (true, { s with singleLink := some pageNo })
      | some header => do
          let probe ← Linked.seek s.next (fun p => (s.next p).isNone) listBound header
          some (true, s.setNext probe (some pageNo))
  else some (false, s)

/-! ### Initialisation -/

/-- The loop that fills the page descriptors, with `n` descriptors left from `i` on. -/
def initPages : ℕ → UInt32 → (UInt32 → PmPage) → UInt32 → PmPage
  | 0, _, pages => pages
  | n + 1, i, pages => initPages n (i + 1) (Function.update pages i ⟨i, none, 1⟩)

/-- The loop that fills the list of 1024-page blocks.  Its counter is an `int` that the test
compares as unsigned; `temp_page_no += 1024` must not overflow it. -/
def loadLoop : ℕ → UInt32 → Pmm → Option (UInt32 × Pmm)
  | 0, _, _ => none
  | n + 1, tempPageNo, s =>
      if tempPageNo < s.maxPageNo - 1024 then do
        let s ← s.appendBlock tempPageNo 10
        if tempPageNo + 1024 < 0x80000000 then loadLoop n (tempPageNo + 1024) s else none
      else some (tempPageNo, s)

/-- The loop that chains the remaining pages into the single page buffer. -/
def singleLoop : ℕ → UInt32 → Option UInt32 → Pmm → Option Pmm
  | 0, _, _, _ => none
  | n + 1, tempPageNo, tempSingleProbe, s =>
      if tempPageNo < s.maxPageNo then
        match s.singleLink with
        | none =>
            singleLoop n (tempPageNo + 1) (some tempPageNo) { s with singleLink := some tempPageNo }
        | some _ => do
            let probe ← tempSingleProbe
            singleLoop n (tempPageNo + 1) (some tempPageNo) (s.setNext probe (some tempPageNo))
      else some s

/-- The first twelve blocks: `append_block(0,_1)`, `append_block(1,_1)`, `append_block(2,_2)`, …,
`append_block(1024,_1024)`. -/
def firstBlocks : List (UInt32 × PageC) :=
  [(0, 0), (1, 0), (2, 1), (4, 2), (8, 3), (16, 4), (32, 5), (64, 6), (128, 7), (256, 8), (512, 9),
    (1024, 10)]

/-- `pmm_page_init`, with a page array that nothing else is in.  That is so for up to 62784 pages;
the descriptors behind them lie in the text buffer of the screen. -/
def pageInit : Option Pmm := do
  let s := { s with multiLink := fun _ => none
                    pageArray := initPages s.maxPageNo.toNat 0 s.pageArray }
  let s ← firstBlocks.foldlM (fun s b => s.appendBlock b.1 b.2) s
  let (tempPageNo, s) ← loadLoop listBound 2048 s
  singleLoop listBound tempPageNo none { s with singelPageFirstNo := tempPageNo }

end Pmm

end BHOS
