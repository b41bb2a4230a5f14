import Mathlib.Algebra.Order.BigOperators.Group.Finset
import BHOS.Frames
import BHOS.KernelLog

/-! # The free pages on the screen (`pmm.c`)

`pmm_show_page_count` counts the cells of the eleven buddy lists and of the single page buffer and
prints a line for each of them.

In a run that splits no block, the numbers on the screen are those of the lists, and together with
the pages of the live descriptors they account for every page that is managed (`report_shown`). -/

namespace BHOS

open Blocks CharArray Linked Transition

/-! ### Printing whole lines -/

/-- The screen has these lines from its first row on, white on black, and the cursor is at the
start of the row behind them. -/
structure Console.HasLines (c : Console) (lines : List (List UInt8)) : Prop where
  cells : ∀ i < 25, ∀ j < 80, c.cell (i * 80 + j) =
    ⟨(lines.getD i []).getD j 0, Terminal.attr black white⟩
  cursorX : c.cursorX = 0
  cursorY : c.cursorY.toNat = lines.length

/-- The cells of a row. -/
def rowCells (line : List UInt8) : List Cell :=
  Terminal.cellsOf line black white ++
    List.replicate (80 - line.length % 80) ⟨0, Terminal.attr black white⟩

/-- The code prints lines, when it begins in the first column. -/
def PrintsLines (p : PrintState → Except Fault PrintState) (lines : List (List UInt8)) : Prop :=
  ∀ (st : PrintState) (t : Terminal) (l : List Cell),
    st.console.Shows t → t.Typed l → l.length % 80 = 0 →
      ∃ st' t', p st = .ok st' ∧ st'.console.Shows t' ∧ t'.Typed (l ++ lines.flatMap rowCells)

section lines

variable {p q : PrintState → Except Fault PrintState} {line : List UInt8}
  {lines lines' : List (List UInt8)} {c : Console} {t : Terminal}

theorem length_rowCells (line : List UInt8) : (rowCells line).length % 80 = 0 := by
  rw [rowCells, Terminal.cellsOf, List.length_append, List.length_map, List.length_replicate]
  omega

theorem length_rowCells_of_lt (h : line.length < 80) : (rowCells line).length = 80 := by
  rw [rowCells, Terminal.cellsOf, List.length_append, List.length_map, List.length_replicate]
  omega

theorem length_flatMap_rowCells (lines : List (List UInt8)) :
    (lines.flatMap rowCells).length % 80 = 0 := by
  induction lines with
  | nil => rfl
  | cons line lines ih =>
      have hline := length_rowCells line
      rw [List.flatMap_cons, List.length_append]
      omega

/-- One piece of code after the other. -/
theorem PrintsLines.bind (hp : PrintsLines p lines) (hq : PrintsLines q lines') :
    PrintsLines (fun st => p st >>= q) (lines ++ lines') := by
  intro st t l hst ht hl
  obtain ⟨st₁, t₁, hrun, hshows, htyped⟩ := hp st t l hst ht hl
  have hrows := length_flatMap_rowCells lines
  obtain ⟨st₂, t₂, hrest, hshows', htyped'⟩ := hq st₁ t₁ _ hshows htyped
    (by rw [List.length_append]; omega)
  refine ⟨st₂, t₂, ?_, hshows', ?_⟩
  · show p st >>= q = .ok st₂
    rw [hrun, ok_bind, hrest]
  · rwa [List.flatMap_append, ← List.append_assoc]

/-- A value that is computed before the code prints. -/
theorem PrintsLines.value {α : Type} {a : α} {r : Except Fault α}
    {f : α → PrintState → Except Fault PrintState} (hr : r = .ok a) (hf : PrintsLines (f a) lines) :
    PrintsLines (fun st => r >>= fun a => f a st) lines := by
  subst hr
  exact hf

/-- The cell of a row in a list of rows. -/
theorem getD_flatMap_rowCells (h : ∀ line ∈ lines, line.length < 80) (i : ℕ) {j : ℕ} (hj : j < 80) :
    (lines.flatMap rowCells).getD (i * 80 + j) unwritten =
      ⟨(lines.getD i []).getD j 0, Terminal.attr black white⟩ := by
  induction lines generalizing i with
  | nil => rfl
  | cons line lines ih =>
      have hline := h line List.mem_cons_self
      have hlen := length_rowCells_of_lt hline
      rw [List.flatMap_cons]
      cases i with
      | zero =>
          rw [Nat.zero_mul, Nat.zero_add, List.getD_append _ _ _ _ (by omega), List.getD_cons_zero,
            rowCells, Terminal.cellsOf]
          by_cases hchar : j < line.length
          · rw [List.getD_append _ _ _ _ (by rwa [List.length_map]),
              List.getD_eq_getElem _ _ (by rwa [List.length_map]), List.getElem_map,
              List.getD_eq_getElem _ _ hchar]
          · rw [List.getD_append_right _ _ _ _ (by rw [List.length_map]; omega), List.length_map,
              List.getD_eq_default _ _ (Nat.le_of_not_lt hchar), List.getD_eq_getElem _ _
                (by rw [List.length_replicate]; omega), List.getElem_replicate]
      | succ i =>
          have hat : (i + 1) * 80 + j - (rowCells line).length = i * 80 + j := by omega
          rw [List.getD_append_right _ _ _ _ (by omega), hat, List.getD_cons_succ]
          exact ih (fun l hl => h l (List.mem_cons_of_mem line hl)) i

theorem length_flatMap_of_lt (h : ∀ line ∈ lines, line.length < 80) :
    (lines.flatMap rowCells).length = lines.length * 80 := by
  induction lines with
  | nil => rfl
  | cons line lines ih =>
      rw [List.flatMap_cons, List.length_append, length_rowCells_of_lt (h line List.mem_cons_self),
        ih fun l hl => h l (List.mem_cons_of_mem line hl), List.length_cons]
      omega

/-- Lines that fit on the screen are there. -/
theorem hasLines_of_typed (hs : c.Shows t) (ht : t.Typed (lines.flatMap rowCells))
    (hshort : ∀ line ∈ lines, line.length < 80) (hfew : lines.length ≤ 24) : c.HasLines lines := by
  have hrow := ht.row
  have hcol := ht.col
  rw [length_flatMap_of_lt hshort] at hrow hcol
  have hrow' : t.row = lines.length := by omega
  have hcol' : t.col = 0 := by omega
  have htop : t.top = 0 := by
    rw [Terminal.top, hrow']
    omega
  refine ⟨fun i hi j hj => ?_, ?_, ?_⟩
  · rw [hs.cells i hi j hj, ht.cells _ j hj, htop, Nat.zero_add]
    exact getD_flatMap_rowCells hshort i hj
  · exact UInt8.toNat_inj.mp (by rw [hs.x, hcol']; rfl)
  · have hy := hs.y
    omega

/-- After `clear_screen` the lines are all that is on the screen. -/
theorem PrintsLines.hasLines (hp : PrintsLines p lines) (hshort : ∀ line ∈ lines, line.length < 80)
    (hfew : lines.length ≤ 24) (st : PrintState) :
    ∃ st', p { st with console := st.console.clearScreen } = .ok st' ∧
      st'.console.HasLines lines := by
  obtain ⟨st', t', hrun, hshows, htyped⟩ := hp { st with console := st.console.clearScreen } _ []
    (Console.shows_clearScreen st.console) Terminal.typed_blank rfl
  exact ⟨st', hrun, hasLines_of_typed hshows htyped hshort hfew⟩

end lines

/-! ### The code -/

namespace Pmm

/-- `counte_helper`. -/
def counteHelper (s : Pmm) (probe : Option UInt32) : Except Fault UInt32 :=
  match Linked.fold s.next (fun counter _ => counter + 1) listBound probe 0 with
  | some counter => .ok counter
  | none => .error .loop

/-- `get_block_count`: `block_count_array`, in the order of the assignments. -/
def getBlockCount (s : Pmm) : Except Fault (List UInt32) := do
  let counts ← (List.finRange 11).mapM fun k => s.counteHelper (s.multiLink k)
  .ok (counts ++ [0])

/-- `get_single_count`; its loop is that of `counte_helper`. -/
def getSingleCount (s : Pmm) : Except Fault UInt32 := s.counteHelper s.singleLink

end Pmm

/-- The arguments of a call with one number. -/
def numberArgs (word : UInt32) : ℕ → VArg := fun _ => ⟨word, ⟨[], nul_notMem_nil⟩⟩

/-- `MACRO_PMM_1`. -/
def macroPmm1 (number : List Char) (count : UInt32) (st : PrintState) : Except Fault PrintState :=
  printk
    (ascii (['_'] ++ number ++ [':', '%', 'd', ' ', 'b', 'l', 'o', 'c', 'k', 's', '\n']) ++ [0])
    (numberArgs count) st

/-- `pmm_show_page_count`. -/
def Pmm.showPageCount (s : Pmm) (st : PrintState) : Except Fault PrintState := do
  let blockCountArray ← s.getBlockCount
  let st ← printk (ascii ['P', 'a', 'r', 't', 'n', 'e', 'r', ':', '\n'] ++ [0]) (numberArgs 0) st
  let st ← macroPmm1 ['1'] (blockCountArray.getD 0 0) st
  let st ← macroPmm1 ['2'] (blockCountArray.getD 1 0) st
  let st ← macroPmm1 ['4'] (blockCountArray.getD 2 0) st
  let st ← macroPmm1 ['8'] (blockCountArray.getD 3 0) st
  let st ← macroPmm1 ['1', '6'] (blockCountArray.getD 4 0) st
  let st ← macroPmm1 ['3', '2'] (blockCountArray.getD 5 0) st
  let st ← macroPmm1 ['6', '4'] (blockCountArray.getD 6 0) st
  let st ← macroPmm1 ['1', '2', '8'] (blockCountArray.getD 7 0) st
  let st ← macroPmm1 ['2', '5', '6'] (blockCountArray.getD 8 0) st
  let st ← macroPmm1 ['5', '1', '2'] (blockCountArray.getD 9 0) st
  let st ← macroPmm1 ['1', '0', '2', '4'] (blockCountArray.getD 10 0) st
  let counter ← s.getSingleCount
  printk (ascii ['s', 'i', 'n', 'g', 'e', 'l', ' ', 'b', 'u', 'f', 'f', 'e', 'r', ' ', 'h', 'a',
    'v', 'e', ':', '%', 'd', ' ', 'p', 'a', 'g', 'e', 's', '!', '\n'] ++ [0])
    (numberArgs counter) st

/-! ### Lines with a number -/

section numbers

variable {pre post : List UInt8} {va : ℕ → VArg}

theorem expand_self (h : 37 ∉ post) (va : ℕ → VArg) (n : ℕ) : expand va post n = post := by
  have e : expand va (post ++ []) n = post ++ expand va [] n := expand_append h [] n
  rwa [List.append_nil, expand, List.append_nil] at e

theorem stages_self (h : 37 ∉ post) (va : ℕ → VArg) (n : ℕ) : stages va post n = [post] := by
  have e : stages va (post ++ []) n = (stages va [] n).map (post ++ ·) := stages_append h [] n
  rwa [List.append_nil, stages, List.map_singleton, List.append_nil] at e

theorem plain_decimal (k : ℕ) : Terminal.Plain (decimal k) := by
  have hdigit : ∀ d < 10, digitChar d ≠ 9 ∧ digitChar d ≠ 10 := by decide
  unfold decimal
  split_ifs
  · decide
  · constructor
    · intro h
      obtain ⟨d, hd, e⟩ := mem_numeral (by decide) h
      exact (hdigit d hd).1 e
    · intro h
      obtain ⟨d, hd, e⟩ := mem_numeral (by decide) h
      exact (hdigit d hd).2 e

/-- A text without directives, on a line of its own. -/
theorem printsLines_text (hpre : 37 ∉ pre) (hnul : 0 ∉ pre) (hplain : Terminal.Plain pre)
    (hlen : pre.length ≤ 98) (va : ℕ → VArg) :
    PrintsLines (printk (pre ++ [10] ++ [0]) va) [pre] := by
  intro st t l hst ht hl
  have hpercent : 37 ∉ pre ++ [10] := by simp [hpre]
  have hchars : 0 ∉ pre ++ [10] := by simp [hnul]
  have hfits : StaysWithin (pre ++ [10]) va := by
    intro s hs
    rw [stages_self hpercent, List.mem_singleton] at hs
    rw [hs, List.length_append, List.length_singleton]
    omega
  rw [List.flatMap_singleton]
  exact printkColor_line ⟨pre ++ [10], hchars⟩ black white hst ht hl hfits hplain
    (expand_self hpercent va 0)

/-- A format string with one number. -/
theorem expand_number (hpre : 37 ∉ pre) (hpost : 37 ∉ post) (word : UInt32) :
    expand (numberArgs word) (pre ++ [37, 100] ++ post) 0 = pre ++ decimal word.toNat ++ post := by
  have hdirective : expansion 100 (numberArgs word 0) = some (decimal word.toNat) := rfl
  rw [List.append_assoc, expand_append hpre, List.cons_append, List.cons_append, List.nil_append,
    expand_directive hdirective, expand_self hpost, List.append_assoc]

theorem staysWithin_number (hpre : 37 ∉ pre) (hpost : 37 ∉ post)
    (hlen : (pre ++ post).length ≤ 81) (word : UInt32) :
    StaysWithin (pre ++ [37, 100] ++ post) (numberArgs word) := by
  have hdirective : expansion 100 (numberArgs word 0) = some (decimal word.toNat) := rfl
  have hdigits := decimal_length_le word
  rw [List.length_append] at hlen
  unfold StaysWithin
  rw [List.append_assoc, stages_append hpre, List.cons_append, List.cons_append, List.nil_append,
    stages_directive hdirective, stages_self hpost]
  simp only [List.map_cons, List.map_nil, List.forall_mem_cons, List.length_append,
    List.length_cons]
  exact ⟨by omega, by omega, fun s hs => absurd hs List.not_mem_nil⟩

/-- A text with one number, on a line of its own. -/
theorem printsLines_number (hpre : 37 ∉ pre) (hpost : 37 ∉ post) (hnul : 0 ∉ pre ++ post)
    (hplain : Terminal.Plain (pre ++ post)) (hlen : (pre ++ post).length ≤ 80) (word : UInt32) :
    PrintsLines (printk (pre ++ [37, 100] ++ (post ++ [10]) ++ [0]) (numberArgs word))
      [pre ++ (decimal word.toNat ++ post)] := by
  intro st t l hst ht hl
  obtain ⟨hnul₁, hnul₂⟩ := not_or.mp fun h => hnul (List.mem_append.mpr h)
  obtain ⟨hplain₁, hplain₂⟩ := Terminal.plain_append.mp hplain
  have hpercent : 37 ∉ post ++ [10] := by simp [hpost]
  have hchars : 0 ∉ pre ++ [37, 100] ++ (post ++ [10]) := by simp [hnul₁, hnul₂]
  have hfits := staysWithin_number hpre hpercent
    (by rw [← List.append_assoc, List.length_append, List.length_singleton]; omega) word
  have htext : expand (numberArgs word) (pre ++ [37, 100] ++ (post ++ [10])) 0 =
      pre ++ (decimal word.toNat ++ post) ++ [10] := by
    rw [expand_number hpre hpercent]
    simp only [List.append_assoc]
  rw [List.flatMap_singleton]
  have hline : Terminal.Plain (pre ++ (decimal word.toNat ++ post)) :=
    Terminal.plain_append.mpr ⟨hplain₁, Terminal.plain_append.mpr ⟨plain_decimal _, hplain₂⟩⟩
  exact printkColor_line ⟨_, hchars⟩ black white hst ht hl hfits hline htext

/-- `MACRO_PMM_1` prints one line. -/
theorem macroPmm1_prints {number : List Char} (hpercent : 37 ∉ ascii number)
    (hnul : 0 ∉ ascii number) (hplain : Terminal.Plain (ascii number)) (hlen : number.length ≤ 4)
    (count : UInt32) :
    PrintsLines (macroPmm1 number count)
      [ascii ['_'] ++ ascii number ++ ascii [':'] ++
        (decimal count.toNat ++ ascii [' ', 'b', 'l', 'o', 'c', 'k', 's'])] := by
  have hpost : 37 ∉ ascii [' ', 'b', 'l', 'o', 'c', 'k', 's'] := by decide
  have hformat :
      ascii (['_'] ++ number ++ [':', '%', 'd', ' ', 'b', 'l', 'o', 'c', 'k', 's', '\n']) =
        ascii ['_'] ++ ascii number ++ ascii [':'] ++ [37, 100] ++
          (ascii [' ', 'b', 'l', 'o', 'c', 'k', 's'] ++ [10]) := by
    simp only [ascii, List.map_append, List.append_assoc]
    rfl
  have hchars : (ascii number).length ≤ 4 := by rwa [ascii, List.length_map]
  have hpre : 37 ∉ ascii ['_'] ++ ascii number ++ ascii [':'] := by
    simp only [List.mem_append, not_or]
    exact ⟨⟨by decide, hpercent⟩, by decide⟩
  unfold macroPmm1
  rw [hformat]
  refine printsLines_number hpre hpost ?_ ?_ ?_ count
  · simp only [List.mem_append, not_or]
    exact ⟨⟨⟨by decide, hnul⟩, by decide⟩, by decide⟩
  · simp only [Terminal.plain_append]
    exact ⟨⟨⟨by decide, hplain⟩, by decide⟩, by decide⟩
  · simp only [List.length_append]
    have h₁ : (ascii ['_']).length = 1 := rfl
    have h₂ : (ascii [':']).length = 1 := rfl
    have h₃ : (ascii [' ', 'b', 'l', 'o', 'c', 'k', 's']).length = 7 := rfl
    omega

end numbers

/-! ### The counts -/

/-- The line of a buddy list. -/
def blockLine (k n : ℕ) : List UInt8 :=
  ascii ['_'] ++ decimal (2 ^ k) ++ ascii [':'] ++
    (decimal n ++ ascii [' ', 'b', 'l', 'o', 'c', 'k', 's'])

/-- The line of the single page buffer. -/
def singleLine (n : ℕ) : List UInt8 :=
  ascii ['s', 'i', 'n', 'g', 'e', 'l', ' ', 'b', 'u', 'f', 'f', 'e', 'r', ' ', 'h', 'a', 'v', 'e',
    ':'] ++ (decimal n ++ ascii [' ', 'p', 'a', 'g', 'e', 's', '!'])

/-- The lines of `pmm_show_page_count`. -/
def reportLines (L : Lists) : List (List UInt8) :=
  [ascii ['P', 'a', 'r', 't', 'n', 'e', 'r', ':']] ++
    (List.finRange 11).map (fun k : Fin 11 => blockLine k (L.buddy k).length) ++
    [singleLine L.single.length]

namespace Pmm

variable {s : Pmm} {L : Lists} {hd : Option UInt32} {l : List UInt32}

theorem foldl_count (l : List UInt32) (b : UInt32) :
    l.foldl (fun counter _ => counter + 1) b = b + UInt32.ofNat l.length := by
  induction l generalizing b with
  | nil => exact (UInt32.add_zero b).symm
  | cons p l ih =>
      rw [List.foldl_cons, ih, List.length_cons, Nat.add_comm, UInt32.ofNat_add, ← UInt32.add_assoc]
      rfl

/-- `counte_helper` counts the cells of a list. -/
theorem counteHelper_eq (hl : IsList s.next hd l) (hlt : l.length < listBound) :
    s.counteHelper hd = .ok (UInt32.ofNat l.length) := by
  rw [counteHelper, hl.fold_eq hlt, foldl_count, UInt32.zero_add]

theorem toNat_count {n : ℕ} (h : n < listBound) : (UInt32.ofNat n).toNat = n := by
  rw [UInt32.toNat_ofNat']
  exact Nat.mod_eq_of_lt h

end Pmm

namespace Lists

variable {L : Lists}

theorem length_buddy_le (L : Lists) (k : Fin 11) : (L.buddy k).length ≤ L.frames := by
  have hterm : 2 ^ k.val * (L.buddy k).length ≤ ∑ j : Fin 11, 2 ^ j.val * (L.buddy j).length :=
    Finset.single_le_sum (f := fun j : Fin 11 => 2 ^ j.val * (L.buddy j).length)
      (fun _ _ => Nat.zero_le _) (Finset.mem_univ k)
  have hone := Nat.le_mul_of_pos_left (L.buddy k).length (Nat.two_pow_pos k.val)
  unfold frames
  omega

theorem length_single_le (L : Lists) : L.single.length ≤ L.frames := Nat.le_add_left _ _

/-- The number of pages that the free blocks own. -/
theorem card_cover (L : Lists) : (cover L.blocks).card = L.frames := by
  have hlist : ∀ (k : ℕ) (l : List UInt32), (cover (blocksOf k l)).card = 2 ^ k * l.length := by
    intro k l
    rw [Blocks.card_cover, blocksOf, Multiset.map_map]
    show ((l : Multiset UInt32).map fun _ => 2 ^ k).sum = _
    rw [Multiset.map_const', Multiset.sum_replicate, Multiset.coe_card, smul_eq_mul, Nat.mul_comm]
  have hsum : (cover (∑ k : Fin 11, blocksOf k (L.buddy k))).card =
      ∑ k : Fin 11, 2 ^ k.val * (L.buddy k).length := by
    have hom : ∀ bs, (cover bs).card = (Multiset.sumAddMonoidHom.comp
        (Multiset.mapAddMonoidHom fun b : Block => 2 ^ b.order)) bs := Blocks.card_cover
    rw [hom, map_sum]
    exact Finset.sum_congr rfl fun k _ => (hom _).symm.trans (hlist k _)
  rw [blocks, cover_add, Multiset.card_add, hsum, hlist, pow_zero, one_mul, frames]

end Lists

/-! ### The report -/

section report

variable {s : Pmm} {L : Lists} {n : ℕ}

theorem length_blockLine (k : Fin 11) (hn : n < listBound) : (blockLine k n).length < 80 := by
  have hsize : ∀ k : Fin 11, (decimal (2 ^ k.val)).length ≤ 10 := by
    intro k
    have hle : 2 ^ k.val ≤ 2 ^ 10 := Nat.pow_le_pow_right Nat.two_pos (by omega)
    have hlt : 2 ^ k.val < listBound := hle.trans_lt (by decide)
    have h := decimal_length_le (UInt32.ofNat (2 ^ k.val))
    rwa [Pmm.toNat_count hlt] at h
  have hk := hsize k
  have hcount := decimal_length_le (UInt32.ofNat n)
  rw [Pmm.toNat_count hn] at hcount
  have h₁ : (ascii ['_']).length = 1 := rfl
  have h₂ : (ascii [':']).length = 1 := rfl
  have h₃ : (ascii [' ', 'b', 'l', 'o', 'c', 'k', 's']).length = 7 := rfl
  simp only [blockLine, List.length_append]
  omega

theorem length_singleLine (hn : n < listBound) : (singleLine n).length < 80 := by
  have hcount := decimal_length_le (UInt32.ofNat n)
  rw [Pmm.toNat_count hn] at hcount
  have h₁ : (ascii ['s', 'i', 'n', 'g', 'e', 'l', ' ', 'b', 'u', 'f', 'f', 'e', 'r', ' ', 'h', 'a',
    'v', 'e', ':']).length = 19 := rfl
  have h₂ : (ascii [' ', 'p', 'a', 'g', 'e', 's', '!']).length = 7 := rfl
  simp only [singleLine, List.length_append]
  omega

theorem length_reportLines (hlt : L.frames < listBound) :
    ∀ line ∈ reportLines L, line.length < 80 := by
  intro line hline
  simp only [reportLines, List.mem_append, List.mem_singleton, List.mem_map] at hline
  rcases hline with (rfl | ⟨k, -, rfl⟩) | rfl
  · decide
  · exact length_blockLine k ((L.length_buddy_le k).trans_lt hlt)
  · exact length_singleLine (L.length_single_le.trans_lt hlt)

/-- The name of a size in the source is its numeral. -/
theorem macroPmm1_line {number : List Char} (k : ℕ) (hnumber : ascii number = decimal (2 ^ k))
    (hpercent : 37 ∉ ascii number) (hlen : number.length ≤ 4) (hn : n < listBound) :
    PrintsLines (macroPmm1 number (UInt32.ofNat n)) [blockLine k n] := by
  have hprints := macroPmm1_prints hpercent (hnumber ▸ zero_notMem_decimal _)
    (hnumber ▸ plain_decimal _) hlen (UInt32.ofNat n)
  rwa [Pmm.toNat_count hn, hnumber] at hprints

theorem partner_prints : PrintsLines
    (printk (ascii ['P', 'a', 'r', 't', 'n', 'e', 'r', ':', '\n'] ++ [0]) (numberArgs 0))
    [ascii ['P', 'a', 'r', 't', 'n', 'e', 'r', ':']] := by
  have hpercent : 37 ∉ ascii ['P', 'a', 'r', 't', 'n', 'e', 'r', ':'] := by decide
  exact printsLines_text hpercent (by decide) (by decide) (by decide) (numberArgs 0)

theorem single_prints (hn : n < listBound) : PrintsLines
    (printk (ascii ['s', 'i', 'n', 'g', 'e', 'l', ' ', 'b', 'u', 'f', 'f', 'e', 'r', ' ', 'h', 'a',
      'v', 'e', ':', '%', 'd', ' ', 'p', 'a', 'g', 'e', 's', '!', '\n'] ++ [0])
      (numberArgs (UInt32.ofNat n))) [singleLine n] := by
  have hpre : 37 ∉ ascii ['s', 'i', 'n', 'g', 'e', 'l', ' ', 'b', 'u', 'f', 'f', 'e', 'r', ' ', 'h',
    'a', 'v', 'e', ':'] := by decide
  have hpost : 37 ∉ ascii [' ', 'p', 'a', 'g', 'e', 's', '!'] := by decide
  have hprints := printsLines_number hpre hpost (by decide) (by decide) (by decide) (UInt32.ofNat n)
  rw [Pmm.toNat_count hn] at hprints
  exact hprints

theorem map_finRange {α : Type} (f : Fin 11 → α) : (List.finRange 11).map f =
    [f 0, f 1, f 2, f 3, f 4, f 5, f 6, f 7, f 8, f 9, f 10] := rfl

/-- `pmm_show_page_count` prints the lengths of the lists. -/
theorem Pmm.Holds.showPageCount_prints (h : s.Holds L) (hlt : L.frames < listBound) :
    PrintsLines s.showPageCount (reportLines L) := by
  have hbuddy : ∀ k, (L.buddy k).length < listBound := fun k =>
    (L.length_buddy_le k).trans_lt hlt
  have hsingle : L.single.length < listBound := L.length_single_le.trans_lt hlt
  have hcounts : (fun k => s.counteHelper (s.multiLink k)) =
      fun k => pure (UInt32.ofNat (L.buddy k).length) :=
    funext fun k => Pmm.counteHelper_eq (h.buddy k) (hbuddy k)
  have hblocks : s.getBlockCount =
      .ok ((List.finRange 11).map (fun k => UInt32.ofNat (L.buddy k).length) ++ [0]) := by
    rw [Pmm.getBlockCount, hcounts, List.mapM_pure]
    rfl
  rw [map_finRange] at hblocks
  have hcounter : s.getSingleCount = .ok (UInt32.ofNat L.single.length) := by
    rw [Pmm.getSingleCount, Pmm.counteHelper_eq h.single hsingle]
  rw [reportLines, map_finRange]
  unfold Pmm.showPageCount
  exact PrintsLines.value hblocks (partner_prints.bind
    ((macroPmm1_line 0 (by decide) (by decide) (by decide) (hbuddy 0)).bind
    ((macroPmm1_line 1 (by decide) (by decide) (by decide) (hbuddy 1)).bind
    ((macroPmm1_line 2 (by decide) (by decide) (by decide) (hbuddy 2)).bind
    ((macroPmm1_line 3 (by decide) (by decide) (by decide) (hbuddy 3)).bind
    ((macroPmm1_line 4 (by decide) (by decide) (by decide) (hbuddy 4)).bind
    ((macroPmm1_line 5 (by decide) (by decide) (by decide) (hbuddy 5)).bind
    ((macroPmm1_line 6 (by decide) (by decide) (by decide) (hbuddy 6)).bind
    ((macroPmm1_line 7 (by decide) (by decide) (by decide) (hbuddy 7)).bind
    ((macroPmm1_line 8 (by decide) (by decide) (by decide) (hbuddy 8)).bind
    ((macroPmm1_line 9 (by decide) (by decide) (by decide) (hbuddy 9)).bind
    ((macroPmm1_line 10 (by decide) (by decide) (by decide) (hbuddy 10)).bind
    (PrintsLines.value hcounter (single_prints hsingle))))))))))))))

end report

namespace Client

variable {c : Client} {L : Lists} {es : List PmmOp}

/-- Every page is free or belongs to a live descriptor. -/
theorem Owned.all_pages (h : c.Owned L) :
    L.frames + (c.live.map fun d => 2 ^ d.size.toNat).sum = c.pmm.maxPageNo.toNat := by
  have hlive : (cover c.liveBlocks).card = (c.live.map fun d => 2 ^ d.size.toNat).sum := by
    rw [Blocks.card_cover, liveBlocks, Multiset.map_map, Multiset.map_coe, Multiset.sum_coe]
    rfl
  have hcard := congrArg Multiset.card h.covered
  rw [cover_add, Multiset.card_add, Multiset.card_range, hlive, L.card_cover] at hcard
  omega

/-- Every run that splits no block ends with each page owned once. -/
theorem Owned.run_whole (h : c.Owned L) (ha : Along step Allowed es c)
    (hw : Along step Whole es c) :
    ∃ c' L', run step es c = some c' ∧ c'.Owned L' ∧ c'.pmm.maxPageNo = c.pmm.maxPageNo := by
  have hI : ∀ e d d', (∃ L, Owned d L ∧ d.pmm.maxPageNo = c.pmm.maxPageNo) →
      (Allowed e d ∧ Whole e d) → step e d = some d' →
      ∃ L, Owned d' L ∧ d'.pmm.maxPageNo = c.pmm.maxPageNo := by
    rintro e d d' ⟨L, hL, hm⟩ ⟨hae, hwe⟩ he
    obtain ⟨d'', L', he', hL', hm'⟩ := hL.step_eq hae hwe
    obtain rfl := Option.some.inj (he.symm.trans he')
    exact ⟨L', hL', hm'.trans hm⟩
  have hdefined : ∀ e d, (∃ L, Owned d L ∧ d.pmm.maxPageNo = c.pmm.maxPageNo) →
      (Allowed e d ∧ Whole e d) → ∃ d', step e d = some d' := by
    rintro e d ⟨L, hL, -⟩ ⟨hae, hwe⟩
    obtain ⟨d', -, he, -⟩ := hL.step_eq hae hwe
    exact ⟨d', he⟩
  obtain ⟨c', hc'⟩ := run_isSome hI hdefined ⟨L, h, rfl⟩ (ha.and hw)
  obtain ⟨L', hL', hm'⟩ := invariant hI ⟨L, h, rfl⟩ (ha.and hw) hc'
  exact ⟨c', L', hc', hL', hm'⟩

/-- **The report of free pages is right**: from `pmm_page_init` on, with a page array that ends
below the text buffer, in a run that splits no block and does not merge up to class `_erro`, the
free blocks and the live descriptors account for all pages, and `pmm_show_page_count` writes on
the cleared screen the line `Partner:`, the number of blocks of each class and the number of single
pages, one line for each. -/
theorem report_shown (s : Pmm) (hs : s.singleLink = none) (hge : 2048 ≤ s.maxPageNo.toNat)
    (hmax : s.maxPageNo.toNat ≤ 62784) :
    ∃ t, s.pageInit = some t ∧
      ∀ es, Along step Allowed es ⟨t, []⟩ → Along step Whole es ⟨t, []⟩ →
        ∃ c, run step es ⟨t, []⟩ = some c ∧
          c.pmm.lists.frames + (c.live.map fun d => 2 ^ d.size.toNat).sum = s.maxPageNo.toNat ∧
          ∀ st : PrintState, ∃ st',
            c.pmm.showPageCount { st with console := st.console.clearScreen } = .ok st' ∧
              st'.console.HasLines (reportLines c.pmm.lists) := by
  obtain ⟨t, L, ht, hsound, hm, hcov⟩ := Pmm.pageInit_sound s hs hge (by omega)
  have h₀ : Owned ⟨t, []⟩ L := by
    refine ⟨hsound, ?_, fun d hd => absurd hd List.not_mem_nil⟩
    rw [← hm] at hcov
    simpa [liveBlocks] using hcov
  refine ⟨t, ht, fun es ha hw => ?_⟩
  obtain ⟨c, L', hrun, hown, hmc⟩ := h₀.run_whole ha hw
  have hsum := hown.all_pages
  have hholds := hown.sound.holds
  rw [hmc, hm] at hsum
  have hlt : L'.frames < listBound := by
    have hbound : 2 ^ 20 < listBound := by decide
    omega
  refine ⟨c, hrun, ?_, fun st => ?_⟩
  · rw [hholds.lists_eq, hsum]
  · rw [hholds.lists_eq]
    exact (hholds.showPageCount_prints hlt).hasLines (length_reportLines hlt) (by
      simp [reportLines]) st

theorem report_shown_cycle : ∃ t c st', smallPmm.pageInit = some t ∧
    run step [.allocPages 1024, .allocOnePage] ⟨t, []⟩ = some c ∧
      c.pmm.lists.frames + (c.live.map fun d => 2 ^ d.size.toNat).sum = 2048 ∧
      c.pmm.showPageCount ⟨Vector.replicate 32 0, Vector.replicate 11 0,
        (Console.start fun _ => 7).clearScreen⟩ = .ok st' ∧
      st'.console.HasLines (reportLines c.pmm.lists) := by
  obtain ⟨t, ht, h⟩ := report_shown smallPmm rfl (by decide) (by decide)
  have hside : (smallPmm.pageInit.all fun t => decide
      (Along step (fun e c => Allowed e c ∧ Whole e c) [.allocPages 1024, .allocOnePage]
        ⟨t, []⟩)) = true := by
    decide +kernel
  rw [ht] at hside
  have hside := of_decide_eq_true hside
  obtain ⟨c, hc, hsum, hreport⟩ := h _ (hside.mono fun _ _ h => h.1) (hside.mono fun _ _ h => h.2)
  obtain ⟨st', hrun, hlines⟩ := hreport
    ⟨Vector.replicate 32 0, Vector.replicate 11 0, Console.start fun _ => 7⟩
  exact ⟨t, c, st', ht, hc, hsum, hrun, hlines⟩

end Client
end BHOS
