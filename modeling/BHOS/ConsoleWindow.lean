import Mathlib.Algebra.Order.Group.Nat
import BHOS.Lib.CharArray
import BHOS.Console

/-! # What the console shows (`vga_basic.c`)

The reference is a terminal that never scrolls: it has a row of 80 columns for every number, and
its cursor only moves on.  The console shows 25 rows of it, which end with the row of the cursor
once that has left the first 25.  It scrolls as soon as the cursor leaves the last row, so also in
the middle of a tab or of a newline. -/

namespace BHOS

open CharArray

/-- A cell that was never written. -/
def unwritten : Cell := ⟨0, 0x0F⟩

/-- A terminal with unboundedly many rows. -/
structure Terminal where
  screen : ℕ → ℕ → Cell
  row : ℕ
  col : ℕ

namespace Terminal

variable (t : Terminal)

/-- The terminal before the first output. -/
def blank : Terminal := ⟨fun _ _ => unwritten, 0, 0⟩

/-- Writing one cell. -/
def put (v : Cell) : Terminal where
  screen i j := if i = t.row ∧ j = t.col then v else t.screen i j
  row := if t.col = 79 then t.row + 1 else t.row
  col := if t.col = 79 then 0 else t.col + 1

/-- Writing a cell several times. -/
def putMany (n : ℕ) (v : Cell) : Terminal := (fun t => put t v)^[n] t

/-- The attribute of two colours. -/
def attr (back fore : VgaColor) : UInt8 :=
  UInt8.ofNat (16 * (back.toNat % 16) + fore.toNat % 16)

/-- A character: a tab is 4 blank cells, a newline blank cells up to the end of the row. -/
def putc (input : UInt8) (back fore : VgaColor) : Terminal :=
  if input = 9 then t.putMany 4 ⟨0, attr back fore⟩
  else if input = 10 then t.putMany (80 - t.col) ⟨0, attr back fore⟩
  else t.put ⟨input, attr back fore⟩

/-- A string. -/
def puts (s : List UInt8) (back fore : VgaColor) : Terminal :=
  s.foldl (fun t input => t.putc input back fore) t

/-- The first row of the window. -/
def top : ℕ := max 24 t.row - 24

end Terminal

/-- The calls that write. -/
inductive Output
  | kputcColor (input : UInt8) (back fore : VgaColor)
  | kputsColor (inputStr : List UInt8) (back fore : VgaColor)

/-- A call on the console. -/
def Output.onConsole : Output → Console → Console
  | kputcColor input back fore, c => c.kputcColor input back fore
  | kputsColor inputStr back fore, c => c.kputsColor inputStr back fore

/-- The same call on the terminal. -/
def Output.onTerminal : Output → Terminal → Terminal
  | kputcColor input back fore, t => t.putc input back fore
  | kputsColor inputStr back fore, t => t.puts (text inputStr) back fore

namespace Console

/-- The console shows the window of the terminal, with the same cursor.  Nothing is written below
the cursor yet. -/
structure Mirrors (c : Console) (t : Terminal) : Prop where
  cells : ∀ i < 25, ∀ j < 80, c.cell (i * 80 + j) = t.screen (t.top + i) j
  x : c.cursorX.toNat = t.col
  y : t.top + c.cursorY.toNat = t.row
  col_lt : t.col < 80
  fresh : ∀ i, 24 < i → t.row < i → ∀ j, t.screen i j = unwritten

/-- The display controller has the cursor too. -/
structure Shows (c : Console) (t : Terminal) : Prop extends Mirrors c t where
  location : c.register14.toNat * 256 + c.register15.toNat = c.cursorY.toNat * 80 + c.cursorX.toNat

/-- The cell at the cursor of the terminal is written on the console, and its cursor is yet to
move. -/
structure Written (c : Console) (t : Terminal) (v : Cell) : Prop where
  cells : ∀ i < 25, ∀ j < 80, c.cell (i * 80 + j) = (t.put v).screen (t.top + i) j
  x : c.cursorX.toNat = t.col
  y : t.top + c.cursorY.toNat = t.row
  col_lt : t.col < 80
  fresh : ∀ i, 24 < i → t.row < i → ∀ j, (t.put v).screen i j = unwritten

variable {c : Console} {t : Terminal} {v : Cell}

/-! ### One cell -/

theorem cell_setCell (k : ℕ) (v : Cell) (k' : ℕ) :
    (c.setCell k v).cell k' = if k' = k then v else c.cell k' := by
  unfold cell setCell poke
  dsimp only
  by_cases h : k' = k
  · subst h
    rw [if_pos rfl, Function.update_self, Function.update_of_ne (by omega), Function.update_self]
  · rw [if_neg h, Function.update_of_ne (by omega), Function.update_of_ne (by omega),
      Function.update_of_ne (by omega), Function.update_of_ne (by omega)]

theorem attrByte_eq (back fore : VgaColor) : attrByte back fore = Terminal.attr back fore := by
  unfold attrByte Terminal.attr
  apply UInt8.toNat_inj.mp
  have hfore : fore.toNat &&& (15 : UInt32).toNat = fore.toNat % 16 :=
    Nat.and_two_pow_sub_one_eq_mod fore.toNat 4
  have hback : (back <<< 4).toNat = 2 ^ 4 * (back.toNat % 2 ^ 28) := by
    rw [UInt32.toNat_shiftLeft, Nat.shiftLeft_eq, UInt32.toNat_ofNat]
    simp only [Nat.reduceMod, Nat.reducePow]
    omega
  rw [UInt32.toNat_toUInt8, UInt32.toNat_or, UInt32.toNat_and, UInt8.toNat_ofNat', hback, hfore,
    ← Nat.two_pow_add_eq_or_of_lt (i := 4) (Nat.mod_lt _ (by decide))]
  omega

theorem moveCursor_location : (c.moveCursor).register14.toNat * 256 +
    (c.moveCursor).register15.toNat = c.cursorY.toNat * 80 + c.cursorX.toNat := by
  have hx := c.cursorX.toNat_lt
  have hy := c.cursorY.toNat_lt
  unfold moveCursor
  simp only [UInt16.toNat_toUInt8, UInt16.toNat_shiftRight, UInt16.toNat_add, UInt16.toNat_mul,
    UInt8.toNat_toUInt16, UInt16.reduceToNat, Nat.shiftRight_eq_div_pow, Nat.reduceMod,
    Nat.reducePow]
  omega

/-! ### Scrolling -/

theorem cell_copyRow (n j i k : ℕ) (hj : 1 ≤ j) : (copyRow n j i c).cell k =
    if (j - 1) * 80 + i ≤ k ∧ k < (j - 1) * 80 + i + n then c.cell (k + 80) else c.cell k := by
  induction n generalizing i c with
  | zero => rw [copyRow, if_neg (by omega)]
  | succ n ih =>
      rw [copyRow, ih, cell_setCell, cell_setCell]
      by_cases hk : k = (j - 1) * 80 + i
      · have e : j * 80 + i = k + 80 := by omega
        rw [if_neg (by omega), if_pos hk, if_pos (by omega), e]
      · split_ifs <;> first | rfl | omega

theorem cell_copyRows (n j k : ℕ) (hj : 1 ≤ j) : (copyRows n j c).cell k =
    if (j - 1) * 80 ≤ k ∧ k < (j - 1) * 80 + n * 80 then c.cell (k + 80) else c.cell k := by
  induction n generalizing j c with
  | zero => rw [copyRows, if_neg (by omega)]
  | succ n ih =>
      rw [copyRows, ih (j + 1) (by omega), cell_copyRow 80 j 0 _ hj, cell_copyRow 80 j 0 _ hj]
      split_ifs <;> first | rfl | omega

theorem cell_blankRow (n i k : ℕ) : (blankRow n i c).cell k =
    if 24 * 80 + i ≤ k ∧ k < 24 * 80 + i + n then unwritten else c.cell k := by
  induction n generalizing i c with
  | zero => rw [blankRow, if_neg (by omega)]
  | succ n ih =>
      rw [blankRow, ih, cell_setCell]
      split_ifs <;> first | rfl | omega

theorem cell_cursorUp (c : Console) (k : ℕ) :
    (if c.cursorY ≠ 0 then (c.setY (c.cursorY - 1)).moveCursor else c).cell k = c.cell k := by
  split_ifs <;> rfl

/-- Every row moves up, and the last one is blank. -/
theorem cell_screenUprollOnce {k : ℕ} (hk : k < 25 * 80) : c.screenUprollOnce.cell k =
    if k < 24 * 80 then c.cell (k + 80) else unwritten := by
  have h : c.screenUprollOnce.cell k = (blankRow 80 0 (copyRows 24 1 c)).cell k := by
    unfold screenUprollOnce
    exact cell_cursorUp _ k
  rw [h, cell_blankRow, cell_copyRows 24 1 k (by decide)]
  by_cases hlt : k < 24 * 80
  · rw [if_neg (by omega), if_pos (by omega), if_pos hlt]
  · rw [if_pos (by omega), if_neg hlt]

/-! ### Writing -/

theorem Mirrors.setCell (h : c.Mirrors t) (v : Cell) :
    (c.setCell (c.cursorY.toNat * 80 + c.cursorX.toNat) v).Written t v := by
  have hx := h.x
  have hy := h.y
  have hcol := h.col_lt
  refine ⟨fun i hi j hj => ?_, hx, hy, hcol, fun i hi hrow j => ?_⟩
  · rw [cell_setCell, h.cells i hi j hj]
    unfold Terminal.put
    dsimp only
    split_ifs <;> first | rfl | omega
  · unfold Terminal.put
    dsimp only
    rw [if_neg (by omega), h.fresh i hi hrow]

theorem Mirrors.moveCursor (h : c.Mirrors t) : c.moveCursor.Shows t :=
  ⟨⟨h.cells, h.x, h.y, h.col_lt, h.fresh⟩, moveCursor_location⟩

theorem put_of_eq (h : t.col = 79) : (t.put v).row = t.row + 1 ∧ (t.put v).col = 0 := by
  unfold Terminal.put
  exact ⟨if_pos h, if_pos h⟩

theorem put_of_ne (h : t.col ≠ 79) : (t.put v).row = t.row ∧ (t.put v).col = t.col + 1 := by
  unfold Terminal.put
  exact ⟨if_neg h, if_neg h⟩

/-- The cursor goes from the last cell of the screen to the row that scrolling makes free. -/
theorem Written.scroll (h : c.Written t v) (hX : c.cursorX = 79) (hY : c.cursorY = 24) :
    ((c.screenUprollOnce.setX 0).setY 24).Mirrors (t.put v) := by
  have hx := h.x
  have hy := h.y
  rw [hX] at hx
  rw [hY] at hy
  obtain ⟨hrow, hcol⟩ := put_of_eq (v := v) hx.symm
  have htop : (t.put v).top = t.top + 1 := by
    unfold Terminal.top at hy ⊢
    rw [hrow]
    simp only [UInt8.reduceToNat] at hy
    omega
  have hscroll := fun k hk => cell_screenUprollOnce (c := c) (k := k) hk
  generalize c.screenUprollOnce = c' at hscroll
  simp only [UInt8.reduceToNat] at hy
  refine ⟨fun i hi j hj => ?_, hcol.symm, ?_, by omega, fun i hi hlt => h.fresh i hi (by omega)⟩
  · show c'.cell (i * 80 + j) = _
    rw [hscroll _ (by omega), htop]
    by_cases hi24 : i < 24
    · have e : i * 80 + j + 80 = (i + 1) * 80 + j := by omega
      have e' : t.top + (i + 1) = t.top + 1 + i := by omega
      rw [if_pos (by omega), e, h.cells (i + 1) (by omega) j hj, e']
    · rw [if_neg (by omega), h.fresh _ (by omega) (by omega)]
  · show (t.put v).top + 24 = (t.put v).row
    omega

/-- The cursor goes to the next row of the screen. -/
theorem Written.nextRow (h : c.Written t v) (hX : c.cursorX = 79) (hY : c.cursorY ≠ 24) :
    ((c.setX 0).setY (c.cursorY + 1)).Mirrors (t.put v) := by
  have hx := h.x
  have hy := h.y
  have hY' : c.cursorY.toNat ≠ 24 := fun e => hY (UInt8.toNat_inj.mp e)
  rw [hX] at hx
  obtain ⟨hrow, hcol⟩ := put_of_eq (v := v) hx.symm
  unfold Terminal.top at hy
  have htop : (t.put v).top = t.top := by
    unfold Terminal.top
    omega
  refine ⟨?_, hcol.symm, ?_, by omega, fun i hi hlt => h.fresh i hi (by omega)⟩
  · rw [htop]
    exact h.cells
  · show (t.put v).top + (c.cursorY + 1).toNat = (t.put v).row
    rw [htop, hrow, UInt8.toNat_add]
    unfold Terminal.top
    simp only [UInt8.reduceToNat]
    omega

/-- The cursor goes to the next column. -/
theorem Written.nextCol (h : c.Written t v) (hX : c.cursorX ≠ 79) :
    (c.setX (c.cursorX + 1)).Mirrors (t.put v) := by
  have hx := h.x
  have hlt := h.col_lt
  have hX' : c.cursorX.toNat ≠ 79 := fun e => hX (UInt8.toNat_inj.mp e)
  obtain ⟨hrow, hcol⟩ := put_of_ne (v := v) (hx ▸ hX')
  have htop : (t.put v).top = t.top := by
    unfold Terminal.top
    rw [hrow]
  refine ⟨?_, ?_, ?_, by omega, fun i hi hlt => h.fresh i hi (by omega)⟩
  · rw [htop]
    exact h.cells
  · show (c.cursorX + 1).toNat = (t.put v).col
    rw [hcol, UInt8.toNat_add]
    simp only [UInt8.reduceToNat]
    omega
  · rw [htop, hrow]
    exact h.y

/-- Writing one cell, in the last column and in the last row too. -/
theorem Mirrors.vgaPutc (h : c.Mirrors t) (input : UInt8) (back fore : VgaColor) :
    (c.vgaPutc input back fore).Shows (t.put ⟨input, Terminal.attr back fore⟩) := by
  have hw := h.setCell ⟨input, Terminal.attr back fore⟩
  unfold Console.setCell at hw
  unfold Console.vgaPutc
  dsimp only at hw ⊢
  rw [attrByte_eq]
  generalize (c.poke _ input).poke _ (Terminal.attr back fore) = c at hw
  apply Mirrors.moveCursor
  split_ifs with hX hY
  · exact hw.scroll hX hY
  · exact hw.nextRow hX hY
  · exact hw.nextCol hX

theorem Mirrors.putBlanks (h : c.Mirrors t) (n : ℕ) (back fore : VgaColor) :
    (c.putBlanks n back fore).Mirrors (t.putMany n ⟨0, Terminal.attr back fore⟩) := by
  unfold Console.putBlanks Terminal.putMany
  induction n generalizing c t with
  | zero => exact h
  | succ n ih =>
      rw [Function.iterate_succ_apply, Function.iterate_succ_apply]
      exact ih (h.vgaPutc 0 back fore).toMirrors

/-- After at least one cell the display controller has the cursor. -/
theorem Mirrors.putBlanks_succ (h : c.Mirrors t) {n : ℕ} (hn : n ≠ 0) (back fore : VgaColor) :
    (c.putBlanks n back fore).Shows (t.putMany n ⟨0, Terminal.attr back fore⟩) := by
  obtain ⟨n, rfl⟩ := Nat.exists_eq_succ_of_ne_zero hn
  have hp := (h.putBlanks n back fore).vgaPutc 0 back fore
  unfold Console.putBlanks Terminal.putMany at hp ⊢
  rwa [Function.iterate_succ_apply', Function.iterate_succ_apply']

theorem Shows.kputcColor (h : c.Shows t) (input : UInt8) (back fore : VgaColor) :
    (c.kputcColor input back fore).Shows (t.putc input back fore) := by
  have hx := h.x
  have hlt := h.col_lt
  unfold Console.kputcColor Terminal.putc
  split_ifs
  · exact h.putBlanks_succ (by decide) back fore
  · have hfill : c.fillCount.toNat = 80 - t.col := by
      rw [fillCount_eq (UInt8.le_iff_toNat_le.mpr (by rw [hx]; exact Nat.le_of_lt_succ hlt)),
        UInt8.toNat_sub]
      simp only [UInt8.reduceToNat]
      omega
    have hlog : Mirrors { c with log := .fill c.fillCount :: c.log } t :=
      ⟨h.cells, h.x, h.y, h.col_lt, h.fresh⟩
    dsimp only
    rw [hfill]
    exact hlog.putBlanks_succ (Nat.sub_ne_zero_of_lt hlt) back fore
  · exact h.vgaPutc input back fore

theorem Shows.kputsColor (h : c.Shows t) (inputStr : List UInt8) (back fore : VgaColor) :
    (c.kputsColor inputStr back fore).Shows (t.puts (text inputStr) back fore) := by
  unfold Terminal.puts
  induction inputStr generalizing c t with
  | nil => exact h
  | cons probe inputStr ih =>
      rw [Console.kputsColor, text_cons]
      split_ifs
      · exact ih (h.kputcColor probe back fore)
      · exact h

/-! ### From `clear_screen` on -/

/-- Writing the same cell several times from the first one on. -/
theorem screen_putMany (hrow : t.row = 0) (hcol : t.col = 0) (n : ℕ) (v : Cell) :
    (t.putMany n v).row * 80 + (t.putMany n v).col = n ∧ (t.putMany n v).col < 80 ∧
      ∀ i, ∀ j < 80, (t.putMany n v).screen i j = if i * 80 + j < n then v else t.screen i j := by
  unfold Terminal.putMany
  induction n with
  | zero =>
      refine ⟨by simp [hrow, hcol], by simp [hcol], fun i j _ => ?_⟩
      exact (if_neg (Nat.not_lt_zero _)).symm
  | succ n ih =>
      obtain ⟨hn, hlt, hscreen⟩ := ih
      rw [Function.iterate_succ_apply']
      generalize (fun t => Terminal.put t v)^[n] t = t' at hn hlt hscreen
      unfold Terminal.put
      dsimp only
      refine ⟨by split_ifs <;> omega, by split_ifs <;> omega, fun i j hj => ?_⟩
      rw [hscreen i j hj]
      split_ifs <;> first | rfl | omega

theorem putBlanks_mul (c : Console) (m n : ℕ) (back fore : VgaColor) :
    (fun c => Console.putBlanks c m back fore)^[n] c = c.putBlanks (m * n) back fore := by
  unfold Console.putBlanks
  rw [Function.iterate_mul]

/-- Any screen mirrors a terminal once the cursor is at its start. -/
theorem exists_mirrors (c : Console) :
    ∃ t : Terminal, t.row = 0 ∧ t.col = 0 ∧ ((c.setX 0).setY 0).Mirrors t := by
  refine ⟨⟨fun i j => if i < 25 then c.cell (i * 80 + j) else unwritten, 0, 0⟩, rfl, rfl,
    fun i hi j _ => ?_, rfl, rfl, Nat.succ_pos 79, fun i hi _ _ => if_neg (by omega)⟩
  show c.cell (i * 80 + j) = if 0 + i < 25 then c.cell ((0 + i) * 80 + j) else unwritten
  rw [Nat.zero_add, if_pos hi]

/-- The loops of `clear_screen` write 2000 blank cells, and the last one scrolls. -/
theorem cell_clearLoops (c : Console) : ∀ i < 25, ∀ j < 80,
    (((c.setX 0).setY 0).putBlanks (80 * 25) black white).cell (i * 80 + j) = unwritten := by
  intro i hi j hj
  obtain ⟨t, hrow, hcol, hm⟩ := exists_mirrors c
  have hp := hm.putBlanks (80 * 25) black white
  obtain ⟨hn, hlt, hscreen⟩ := screen_putMany hrow hcol (80 * 25) ⟨0, Terminal.attr black white⟩
  have htop : (t.putMany (80 * 25) ⟨0, Terminal.attr black white⟩).top = 1 := by
    unfold Terminal.top
    omega
  rw [hp.cells i hi j hj, hscreen _ j hj, htop]
  by_cases hi24 : i < 24
  · rw [if_pos (by omega)]
    decide
  · rw [if_neg (by omega), hm.fresh _ (by omega) (by omega)]

/-- A blank screen with the cursor at its start shows a terminal without output. -/
theorem shows_blank (h : ∀ i < 25, ∀ j < 80, c.cell (i * 80 + j) = unwritten) :
    ((c.setX 0).setY 0).moveCursor.Shows Terminal.blank :=
  Mirrors.moveCursor ⟨h, rfl, rfl, Nat.succ_pos 79, fun _ _ _ _ => rfl⟩

/-- Whatever was on the screen, `clear_screen` blanks it. -/
theorem shows_clearScreen (c : Console) : c.clearScreen.Shows Terminal.blank := by
  unfold clearScreen
  dsimp only
  rw [putBlanks_mul]
  exact shows_blank (cell_clearLoops c)

theorem Shows.output (h : c.Shows t) (op : Output) : (op.onConsole c).Shows (op.onTerminal t) := by
  cases op with
  | kputcColor input back fore => exact h.kputcColor input back fore
  | kputsColor inputStr back fore => exact h.kputsColor inputStr back fore

/-- **The console shows the last 25 rows of the output**: whatever the screen held before
`clear_screen` and whatever is written after it, the cells and the cursor are those of the terminal
in the window that ends with row 24 or with the row of the cursor. -/
theorem shows_run (c : Console) (ops : List Output) :
    (ops.foldl (fun c op => op.onConsole c) c.clearScreen).Shows
      (ops.foldl (fun t op => op.onTerminal t) Terminal.blank) := by
  suffices h : ∀ (c : Console) t, c.Shows t → (ops.foldl (fun c op => op.onConsole c) c).Shows
      (ops.foldl (fun t op => op.onTerminal t) t) from h _ _ (shows_clearScreen c)
  induction ops with
  | nil => exact fun c t h => h
  | cons op ops ih => exact fun c t h => ih _ _ (h.output op)

end Console
end BHOS
