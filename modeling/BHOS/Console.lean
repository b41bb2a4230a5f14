import Mathlib.Logic.Function.Basic
import Mathlib.Logic.Function.Iterate
import Mathlib.Order.Basic

/-! # The text console (`vga_basic.c`)

The screen is 25 rows of 80 cells in the video memory, a cell being a character byte and an
attribute byte behind it.  A 16-bit access of the source is an access to one cell; its low byte is
the character.  The memory is a function from byte offsets, so that a write behind the screen
would be possible, and the state keeps a log of what has to stay in range: the offsets written,
the values of the cursor after each assignment, and the lengths of the line fills. -/

namespace BHOS

/-- `vga_color_t`. -/
abbrev VgaColor := UInt32

/-- `black`. -/
def black : VgaColor := 0

/-- `white`. -/
def white : VgaColor := 15

/-- A character with its attribute. -/
structure Cell where
  char : UInt8
  attr : UInt8
deriving DecidableEq, Repr

/-- What the console does that could go out of range. -/
inductive ConsoleEvent
  | poke (offset : ℕ)
  | cursor (x y : UInt8)
  | fill (count : UInt8)
deriving DecidableEq, Repr

/-- The static variables of `vga_basic.c`, the video memory, the registers 14 and 15 of the display
controller, and the log. -/
structure Console where
  cursorX : UInt8
  cursorY : UInt8
  videoMemory : ℕ → UInt8
  register14 : UInt8
  register15 : UInt8
  log : List ConsoleEvent

/-- `tab_length`. -/
def tabLength : ℕ := 4

/-- The attribute byte that `vga_putc` computes. -/
def attrByte (back fore : VgaColor) : UInt8 := ((back <<< 4) ||| (fore &&& 0x0F)).toUInt8

namespace Console

variable (c : Console)

/-- Writing the byte of the video memory at an offset. -/
def poke (offset : ℕ) (v : UInt8) : Console :=
  { c with videoMemory := Function.update c.videoMemory offset v
           log := .poke offset :: c.log }

/-- `cursor_x = x`. -/
def setX (x : UInt8) : Console := { c with cursorX := x, log := .cursor x c.cursorY :: c.log }

/-- `cursor_y = y`. -/
def setY (y : UInt8) : Console := { c with cursorY := y, log := .cursor c.cursorX y :: c.log }

/-- The cell at an index of the video memory. -/
def cell (k : ℕ) : Cell := ⟨c.videoMemory (2 * k), c.videoMemory (2 * k + 1)⟩

/-- A 16-bit write to the video memory. -/
def setCell (k : ℕ) (v : Cell) : Console := (c.poke (2 * k) v.char).poke (2 * k + 1) v.attr

/-- `move_cursor`. -/
def moveCursor : Console :=
  let cursorLocation : UInt16 := c.cursorY.toUInt16 * 80 + c.cursorX.toUInt16
  { c with register14 := (cursorLocation >>> 8).toUInt8
           register15 := cursorLocation.toUInt8 }

/-- `move_cursor_by_XY`. -/
def moveCursorByXY (x y : UInt8) : Console :=
  if x > 79 ∨ y > 24 then c
  else ((c.setX x).setY y).moveCursor

/-- The inner loop of `screen_uproll_once` that copies row `j`, with `n` cells left from `i` on. -/
def copyRow : ℕ → ℕ → ℕ → Console → Console
  | 0, _, _, c => c
  | n + 1, j, i, c => copyRow n j (i + 1) (c.setCell ((j - 1) * 80 + i) (c.cell (j * 80 + i)))

/-- The loop over the rows, with `n` left from `j` on. -/
def copyRows : ℕ → ℕ → Console → Console
  | 0, _, c => c
  | n + 1, j, c => copyRows n (j + 1) (copyRow 80 j 0 c)

/-- The loop that blanks the last row, with `n` cells left from `i` on. -/
def blankRow : ℕ → ℕ → Console → Console
  | 0, _, c => c
  | n + 1, i, c => blankRow n (i + 1) (c.setCell (24 * 80 + i) ⟨0, 0x0F⟩)

/-- `screen_uproll_once`. -/
def screenUprollOnce : Console :=
  let c := blankRow 80 0 (copyRows 24 1 c)
  if c.cursorY ≠ 0 then (c.setY (c.cursorY - 1)).moveCursor else c

/-- `vga_putc`. -/
def vgaPutc (input : UInt8) (back fore : VgaColor) : Console :=
  let cursorLocation := c.cursorY.toNat * 80 + c.cursorX.toNat
  let c := c.poke (2 * cursorLocation) input
  let c := c.poke (2 * cursorLocation + 1) (attrByte back fore)
  let c :=
    if c.cursorX = 79 then
      if c.cursorY = 24 then (c.screenUprollOnce.setX 0).setY 24
      else (c.setX 0).setY (c.cursorY + 1)
    else c.setX (c.cursorX + 1)
  c.moveCursor

/-- The number of cells that a newline fills. -/
def fillCount : UInt8 :=
  let tempNum := 80 - c.cursorX
  if tempNum = 0 then 80 else tempNum

/-- `vga_putc('\0', …)`, `n` times. -/
def putBlanks (n : ℕ) (back fore : VgaColor) : Console := (fun c => vgaPutc c 0 back fore)^[n] c

/-- `kputc_color`. -/
def kputcColor (input : UInt8) (back fore : VgaColor) : Console :=
  if input = 9 then c.putBlanks tabLength back fore
  else if input = 10 then
    let tempNum := c.fillCount
    { c with log := .fill tempNum :: c.log }.putBlanks tempNum.toNat back fore
  else c.vgaPutc input back fore

/-- `kputs_color` of the string at a pointer. -/
def kputsColor : List UInt8 → VgaColor → VgaColor → Console → Console
  | [], _, _, c => c
  | probe :: inputStr, back, fore, c =>
      if probe ≠ 0 then kputsColor inputStr back fore (c.kputcColor probe back fore) else c

/-- `kputs`. -/
def kputs (inputStr : List UInt8) : Console := kputsColor inputStr black white c

/-- `clear_screen`. -/
def clearScreen : Console :=
  let c := (c.setX 0).setY 0
  let c := (fun c => putBlanks c 80 black white)^[25] c
  ((c.setX 0).setY 0).moveCursor

/-- The console before its first use, over any video memory. -/
def start (videoMemory : ℕ → UInt8) : Console := ⟨0, 0, videoMemory, 0, 0, []⟩

end Console

/-- The operations of the console. -/
inductive ConsoleOp
  | vgaPutc (input : UInt8) (back fore : VgaColor)
  | kputcColor (input : UInt8) (back fore : VgaColor)
  | kputsColor (inputStr : List UInt8) (back fore : VgaColor)
  | clearScreen
  | screenUprollOnce
  | moveCursorByXY (x y : UInt8)

/-- The effect of an operation. -/
def ConsoleOp.apply : ConsoleOp → Console → Console
  | vgaPutc input back fore, c => c.vgaPutc input back fore
  | kputcColor input back fore, c => c.kputcColor input back fore
  | kputsColor inputStr back fore, c => c.kputsColor inputStr back fore
  | clearScreen, c => c.clearScreen
  | screenUprollOnce, c => c.screenUprollOnce
  | moveCursorByXY x y, c => c.moveCursorByXY x y

namespace Console

/-! ### The cursor and the video memory stay in range -/

/-- An offset inside the screen, a cursor on the screen, a fill of one row at most. -/
def EventOk : ConsoleEvent → Prop
  | .poke offset => offset < 80 * 25 * 2
  | .cursor x y => x ≤ 79 ∧ y ≤ 24
  | .fill count => 1 ≤ count ∧ count ≤ 80

/-- The cursor is on the screen, the next newline would fill between 1 and 80 cells, and so it was
for everything in the log. -/
structure Safe (c : Console) : Prop where
  x_le : c.cursorX ≤ 79
  y_le : c.cursorY ≤ 24
  fill : 1 ≤ c.fillCount ∧ c.fillCount ≤ 80
  log : ∀ e ∈ c.log, EventOk e

variable {c : Console}

theorem fillCount_eq (h : c.cursorX ≤ 79) : c.fillCount = 80 - c.cursorX := by
  have hx := UInt8.le_iff_toNat_le.mp h
  unfold fillCount
  dsimp only
  rw [if_neg]
  intro e
  have hz := congrArg UInt8.toNat e
  simp only [UInt8.toNat_sub, UInt8.reduceToNat] at hx hz
  omega

theorem fillCount_range (h : c.cursorX ≤ 79) : 1 ≤ c.fillCount ∧ c.fillCount ≤ 80 := by
  have hx := UInt8.le_iff_toNat_le.mp h
  rw [fillCount_eq h, UInt8.le_iff_toNat_le, UInt8.le_iff_toNat_le]
  simp only [UInt8.toNat_sub, UInt8.reduceToNat] at hx ⊢
  omega

theorem Safe.poke (h : c.Safe) {i : ℕ} (hi : i < 80 * 25 * 2) (v : UInt8) :
    (c.poke i v).Safe :=
  ⟨h.x_le, h.y_le, h.fill, List.forall_mem_cons.mpr ⟨hi, h.log⟩⟩

theorem Safe.setX (h : c.Safe) {x : UInt8} (hx : x ≤ 79) : (c.setX x).Safe :=
  ⟨hx, h.y_le, fillCount_range hx, List.forall_mem_cons.mpr ⟨⟨hx, h.y_le⟩, h.log⟩⟩

theorem Safe.setY (h : c.Safe) {y : UInt8} (hy : y ≤ 24) : (c.setY y).Safe :=
  ⟨h.x_le, hy, h.fill, List.forall_mem_cons.mpr ⟨⟨h.x_le, hy⟩, h.log⟩⟩

theorem Safe.moveCursor (h : c.Safe) : c.moveCursor.Safe := ⟨h.x_le, h.y_le, h.fill, h.log⟩

theorem Safe.setCell (h : c.Safe) {k : ℕ} (hk : k < 80 * 25) (v : Cell) : (c.setCell k v).Safe :=
  (h.poke (by omega) v.char).poke (by omega) v.attr

theorem Safe.copyRow (h : c.Safe) {n j i : ℕ} (hj : j ≤ 25) (hi : i + n ≤ 80) :
    (copyRow n j i c).Safe := by
  induction n generalizing i c with
  | zero => exact h
  | succ n ih =>
      rw [Console.copyRow]
      exact ih (h.setCell (by omega) _) (by omega)

theorem Safe.copyRows (h : c.Safe) {n j : ℕ} (hj : j + n ≤ 25) : (copyRows n j c).Safe := by
  induction n generalizing j c with
  | zero => exact h
  | succ n ih =>
      rw [Console.copyRows]
      exact ih (h.copyRow (by omega) (by omega)) (by omega)

theorem Safe.blankRow (h : c.Safe) {n i : ℕ} (hi : i + n ≤ 80) : (blankRow n i c).Safe := by
  induction n generalizing i c with
  | zero => exact h
  | succ n ih =>
      rw [Console.blankRow]
      exact ih (h.setCell (by omega) _) (by omega)

theorem Safe.screenUprollOnce (h : c.Safe) : c.screenUprollOnce.Safe := by
  have hs := (h.copyRows (n := 24) (j := 1) (by decide)).blankRow (n := 80) (i := 0) (by decide)
  unfold Console.screenUprollOnce
  dsimp only
  generalize Console.blankRow 80 0 (Console.copyRows 24 1 c) = c at hs
  by_cases hy : c.cursorY ≠ 0
  · rw [if_pos hy]
    refine (hs.setY ?_).moveCursor
    have hle := UInt8.le_iff_toNat_le.mp hs.y_le
    have hne : c.cursorY.toNat ≠ 0 := fun e => hy (UInt8.toNat_inj.mp e)
    rw [UInt8.le_iff_toNat_le]
    simp only [UInt8.toNat_sub, UInt8.reduceToNat] at hle ⊢
    omega
  · rw [if_neg hy]
    exact hs

theorem Safe.location_lt (h : c.Safe) : c.cursorY.toNat * 80 + c.cursorX.toNat < 80 * 25 := by
  have hx := UInt8.le_iff_toNat_le.mp h.x_le
  have hy := UInt8.le_iff_toNat_le.mp h.y_le
  simp only [UInt8.reduceToNat] at hx hy
  omega

theorem Safe.vgaPutc (h : c.Safe) (input : UInt8) (back fore : VgaColor) :
    (c.vgaPutc input back fore).Safe := by
  have hloc := h.location_lt
  have hs := (h.poke (i := 2 * (c.cursorY.toNat * 80 + c.cursorX.toNat)) (by omega) input).poke
    (i := 2 * (c.cursorY.toNat * 80 + c.cursorX.toNat) + 1) (by omega) (attrByte back fore)
  unfold Console.vgaPutc
  dsimp only
  generalize (c.poke _ input).poke _ (attrByte back fore) = c at hs
  have hx := UInt8.le_iff_toNat_le.mp hs.x_le
  have hy := UInt8.le_iff_toNat_le.mp hs.y_le
  simp only [UInt8.reduceToNat] at hx hy
  apply Safe.moveCursor
  split_ifs with h79 h24
  · exact (hs.screenUprollOnce.setX (by decide)).setY (by decide)
  · refine (hs.setX (by decide)).setY ?_
    have hne : c.cursorY.toNat ≠ 24 := fun e => h24 (UInt8.toNat_inj.mp e)
    rw [UInt8.le_iff_toNat_le]
    simp only [UInt8.toNat_add, UInt8.reduceToNat]
    omega
  · refine hs.setX ?_
    have hne : c.cursorX.toNat ≠ 79 := fun e => h79 (UInt8.toNat_inj.mp e)
    rw [UInt8.le_iff_toNat_le]
    simp only [UInt8.toNat_add, UInt8.reduceToNat]
    omega

theorem Safe.putBlanks (h : c.Safe) (n : ℕ) (back fore : VgaColor) :
    (c.putBlanks n back fore).Safe := by
  unfold Console.putBlanks
  induction n generalizing c with
  | zero => exact h
  | succ n ih =>
      rw [Function.iterate_succ_apply]
      exact ih (h.vgaPutc 0 back fore)

theorem Safe.kputcColor (h : c.Safe) (input : UInt8) (back fore : VgaColor) :
    (c.kputcColor input back fore).Safe := by
  unfold Console.kputcColor
  split_ifs
  · exact h.putBlanks tabLength back fore
  · apply Safe.putBlanks
    exact ⟨h.x_le, h.y_le, h.fill, List.forall_mem_cons.mpr ⟨h.fill, h.log⟩⟩
  · exact h.vgaPutc input back fore

theorem Safe.kputsColor (h : c.Safe) (inputStr : List UInt8) (back fore : VgaColor) :
    (c.kputsColor inputStr back fore).Safe := by
  induction inputStr generalizing c with
  | nil => exact h
  | cons probe inputStr ih =>
      rw [Console.kputsColor]
      split_ifs
      · exact ih (h.kputcColor probe back fore)
      · exact h

theorem Safe.clearScreen (h : c.Safe) : c.clearScreen.Safe := by
  have hrows : ∀ n c, Safe c → ((fun c => Console.putBlanks c 80 black white)^[n] c).Safe := by
    intro n
    induction n with
    | zero => exact fun c hc => hc
    | succ n ih =>
        intro c hc
        rw [Function.iterate_succ_apply]
        exact ih _ (hc.putBlanks 80 black white)
  unfold Console.clearScreen
  have hs := hrows 25 _ ((h.setX (x := 0) (by decide)).setY (y := 0) (by decide))
  exact ((hs.setX (by decide)).setY (by decide)).moveCursor

theorem Safe.moveCursorByXY (h : c.Safe) (x y : UInt8) : (c.moveCursorByXY x y).Safe := by
  unfold Console.moveCursorByXY
  split_ifs with hxy
  · exact h
  · obtain ⟨hx, hy⟩ := not_or.mp hxy
    exact ((h.setX (UInt8.not_lt.mp hx)).setY (UInt8.not_lt.mp hy)).moveCursor

theorem safe_start (videoMemory : ℕ → UInt8) : (start videoMemory).Safe :=
  have hx : (0 : UInt8) ≤ 79 := by decide
  ⟨hx, by show (0 : UInt8) ≤ 24; decide, fillCount_range hx, fun _ he => absurd he List.not_mem_nil⟩

theorem Safe.apply (h : c.Safe) (op : ConsoleOp) : (op.apply c).Safe := by
  cases op with
  | vgaPutc input back fore => exact h.vgaPutc input back fore
  | kputcColor input back fore => exact h.kputcColor input back fore
  | kputsColor inputStr back fore => exact h.kputsColor inputStr back fore
  | clearScreen => exact h.clearScreen
  | screenUprollOnce => exact h.screenUprollOnce
  | moveCursorByXY x y => exact h.moveCursorByXY x y

/-- **The console stays in range**: whatever operations are called, the cursor is on the screen
after every assignment, every newline fills between 1 and 80 cells, and every write to the video
memory is inside the screen. -/
theorem safe_run (videoMemory : ℕ → UInt8) (ops : List ConsoleOp) :
    (ops.foldl (fun c op => op.apply c) (start videoMemory)).Safe := by
  suffices h : ∀ c : Console, c.Safe → (ops.foldl (fun c op => op.apply c) c).Safe from
    h _ (safe_start videoMemory)
  induction ops with
  | nil => exact fun c hc => hc
  | cons op ops ih => exact fun c hc => ih _ (hc.apply op)

end Console
end BHOS
