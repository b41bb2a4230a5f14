import Mathlib.Data.List.GetD
import BHOS.Printk

/-! # The kernel log on the screen (`kern_log.c`, `printk.c`, `vga_basic.c`)

A terminal that was blank is the list of cells that were written on it, laid out in rows of 80
(`Typed`).  A message of the kernel log is one such list: its tag, its source and its text, then
blank cells to the end of the row, so that the next message starts in the first column.  A message
whose characters fill a row exactly is followed by a blank row.

From `vga_init` on the screen holds the last 25 rows of the messages, whatever it held before, and
the cursor is behind the last of them (`log_shown`). -/

namespace BHOS

open CharArray

/-! ### A terminal as a list of cells -/

namespace Terminal

variable {t : Terminal} {l : List Cell} {s : List UInt8}

/-- The cells `l` are written on a blank terminal, and the cursor is behind them. -/
structure Typed (t : Terminal) (l : List Cell) : Prop where
  row : t.row = l.length / 80
  col : t.col = l.length % 80
  cells : ∀ i, ∀ j < 80, t.screen i j = l.getD (i * 80 + j) unwritten

theorem typed_blank : blank.Typed [] := ⟨rfl, rfl, fun _ _ _ => rfl⟩

theorem Typed.put (h : t.Typed l) (v : Cell) : (t.put v).Typed (l ++ [v]) := by
  have hrow := h.row
  have hcol := h.col
  refine ⟨?_, ?_, ?_⟩
  · show (if t.col = 79 then t.row + 1 else t.row) = _
    rw [List.length_append, List.length_singleton]
    split_ifs <;> omega
  · show (if t.col = 79 then 0 else t.col + 1) = _
    rw [List.length_append, List.length_singleton]
    split_ifs <;> omega
  · intro i j hj
    show (if i = t.row ∧ j = t.col then v else t.screen i j) = _
    by_cases hhere : i * 80 + j = l.length
    · rw [if_pos (by omega), hhere, List.getD_append_right _ _ _ _ le_rfl, Nat.sub_self]
      rfl
    · rw [if_neg (by omega), h.cells i j hj]
      by_cases hlt : i * 80 + j < l.length
      · rw [List.getD_append _ _ _ _ hlt]
      · rw [List.getD_eq_default _ _ (by omega), List.getD_eq_default]
        rw [List.length_append, List.length_singleton]
        omega

theorem Typed.putMany (h : t.Typed l) (n : ℕ) (v : Cell) :
    (t.putMany n v).Typed (l ++ List.replicate n v) := by
  unfold Terminal.putMany
  induction n generalizing t l with
  | zero => rwa [List.replicate_zero, List.append_nil]
  | succ n ih =>
      rw [Function.iterate_succ_apply, List.replicate_succ, List.append_cons]
      exact ih (h.put v)

/-- The cells of a string without tab and newline. -/
def cellsOf (s : List UInt8) (back fore : VgaColor) : List Cell := s.map (⟨·, attr back fore⟩)

/-- The string has neither tab nor newline. -/
def Plain (s : List UInt8) : Prop := 9 ∉ s ∧ 10 ∉ s

instance (s : List UInt8) : Decidable (Plain s) := inferInstanceAs (Decidable (_ ∧ _))

theorem plain_append {s₁ s₂ : List UInt8} : Plain (s₁ ++ s₂) ↔ Plain s₁ ∧ Plain s₂ := by
  simp only [Plain, List.mem_append]
  tauto

theorem puts_append (t : Terminal) (s₁ s₂ : List UInt8) (back fore : VgaColor) :
    t.puts (s₁ ++ s₂) back fore = (t.puts s₁ back fore).puts s₂ back fore := List.foldl_append

theorem Typed.puts (h : t.Typed l) (hs : Plain s) (back fore : VgaColor) :
    (t.puts s back fore).Typed (l ++ cellsOf s back fore) := by
  unfold Terminal.puts cellsOf
  induction s generalizing t l with
  | nil => rwa [List.map_nil, List.append_nil]
  | cons c s ih =>
      obtain ⟨htab, hnewline⟩ := hs
      have h9 : c ≠ 9 := fun e => htab (e ▸ List.mem_cons_self)
      have h10 : c ≠ 10 := fun e => hnewline (e ▸ List.mem_cons_self)
      rw [List.foldl_cons, List.map_cons, List.append_cons]
      refine ih ?_ ⟨fun hc => htab (List.mem_cons_of_mem c hc),
        fun hc => hnewline (List.mem_cons_of_mem c hc)⟩
      rw [putc, if_neg h9, if_neg h10]
      exact h.put _

/-- A newline fills the row, and a whole row when the cursor is in the first column. -/
theorem Typed.newline (h : t.Typed l) (back fore : VgaColor) :
    (t.putc 10 back fore).Typed
      (l ++ List.replicate (80 - l.length % 80) ⟨0, attr back fore⟩) := by
  rw [putc, if_neg (by decide), if_pos rfl, h.col]
  exact h.putMany _ _

end Terminal

/-- A format string without directives is left as it is. -/
theorem expand_append {va : ℕ → VArg} {pre : List UInt8} (h : 37 ∉ pre) (fmt : List UInt8) (n : ℕ) :
    expand va (pre ++ fmt) n = pre ++ expand va fmt n := by
  induction pre with
  | nil => rfl
  | cons c pre ih =>
      obtain ⟨hc, hpre⟩ := not_or.mp (fun hn => h (List.mem_cons.mpr hn))
      rw [List.cons_append, expand_literal (literal_of_ne (Ne.symm hc)), ih hpre, List.cons_append]

/-- A line of text is written in the rows from the first column on. -/
theorem printkColor_line {st : PrintState} {t : Terminal} {l : List Cell} {line : List UInt8}
    {va : ℕ → VArg} (inputStr : CStr) (back fore : VgaColor) (hst : st.console.Shows t)
    (ht : t.Typed l) (hl : l.length % 80 = 0) (hfits : StaysWithin inputStr.chars va)
    (hline : Terminal.Plain line) (htext : expand va inputStr.chars 0 = line ++ [10]) :
    ∃ st' t', printkColor inputStr.cells back fore va st = .ok st' ∧ st'.console.Shows t' ∧
      t'.Typed (l ++ (Terminal.cellsOf line back fore ++
        List.replicate (80 - line.length % 80) ⟨0, Terminal.attr back fore⟩)) := by
  obtain ⟨st', hrun, hshows⟩ := printkColor_shows inputStr back fore va st hst hfits
  rw [htext, Terminal.puts_append] at hshows
  refine ⟨st', _, hrun, hshows, ?_⟩
  have hlast := (ht.puts hline back fore).newline back fore
  rw [Terminal.cellsOf, List.length_append, List.length_map, Nat.add_mod, hl, Nat.zero_add,
    Nat.mod_mod, List.append_assoc] at hlast
  exact hlast

/-! ### The messages -/

/-- The functions of `kern_log.c` that return. -/
inductive LogLevel
  | info
  | error
  | warning
deriving DecidableEq, Repr

namespace LogLevel

/-- The function. -/
def kern : LogLevel → VArg → VArg → PrintState → Except Fault PrintState
  | info => infoKern
  | error => errorKern
  | warning => warningKern

/-- What its format string begins with. -/
def tag : LogLevel → List UInt8
  | info => ascii ['[', 'I', 'N', 'F', 'O', ']', '[']
  | error => ascii ['[', 'E', 'R', 'R', 'O', 'R', ']', '[']
  | warning => ascii ['[', 'W', 'A', 'R', 'N', 'I', 'N', 'G', ']', '[']

/-- Its colour, on a black background. -/
def fore : LogLevel → VgaColor
  | info => white
  | error => red
  | warning => yellow

/-- What its format string ends with. -/
def format : List UInt8 := ascii ['%', 's', ']', '%', 's', '\n']

theorem kern_eq (k : LogLevel) (src text : VArg) (st : PrintState) :
    k.kern src text st =
      printkColor (k.tag ++ format ++ [0]) black k.fore (twoArgs src text) st := by
  cases k <;> rfl

theorem no_percent (k : LogLevel) : 37 ∉ k.tag := by
  cases k <;> decide

theorem no_nul (k : LogLevel) : 0 ∉ k.tag ++ format := by
  cases k <;> decide

theorem plain_tag (k : LogLevel) : Terminal.Plain k.tag := by
  cases k <;> decide

theorem length_tag (k : LogLevel) : k.tag.length ≤ 10 := by
  cases k <;> decide

end LogLevel

/-- A call with the strings that it is passed. -/
structure LogCall where
  level : LogLevel
  src : VArg
  text : VArg

namespace LogCall

variable {c : LogCall} {cs : List LogCall} {st : PrintState} {t : Terminal} {l : List Cell}

/-- The call. -/
def run (c : LogCall) (st : PrintState) : Except Fault PrintState := c.level.kern c.src c.text st

/-- One call after the other. -/
def runAll : List LogCall → PrintState → Except Fault PrintState
  | [], st => .ok st
  | c :: cs, st => do runAll cs (← c.run st)

/-- The strings are short enough for the arrays of `printk`, and have neither tab nor newline. -/
structure Fits (c : LogCall) : Prop where
  src : c.src.str.chars.length ≤ 95 - c.level.tag.length
  both : c.src.str.chars.length + c.text.str.chars.length ≤ 97 - c.level.tag.length
  plainSrc : Terminal.Plain c.src.str.chars
  plainText : Terminal.Plain c.text.str.chars

/-- The characters before the newline. -/
def line (c : LogCall) : List UInt8 :=
  c.level.tag ++ (c.src.str.chars ++ (ascii [']'] ++ c.text.str.chars))

/-- The number of rows of a message. -/
def rows (c : LogCall) : ℕ := c.line.length / 80 + 1

/-- The cells of a message. -/
def cells (c : LogCall) : List Cell :=
  Terminal.cellsOf c.line black c.level.fore ++
    List.replicate (80 - c.line.length % 80) ⟨0, Terminal.attr black c.level.fore⟩

theorem length_cells (c : LogCall) : c.cells.length = c.rows * 80 := by
  rw [cells, rows, Terminal.cellsOf, List.length_append, List.length_map, List.length_replicate]
  omega

/-- The rows of a list of messages. -/
theorem length_flatMap_cells (cs : List LogCall) :
    (cs.flatMap cells).length = (cs.map rows).sum * 80 := by
  induction cs with
  | nil => rfl
  | cons c cs ih =>
      rw [List.flatMap_cons, List.length_append, length_cells, ih, List.map_cons, List.sum_cons,
        add_mul]

theorem Fits.plain_line (h : c.Fits) : Terminal.Plain c.line := by
  simp only [line, Terminal.plain_append]
  exact ⟨c.level.plain_tag, h.plainSrc, by decide, h.plainText⟩

/-- What `printk` makes of the format string. -/
theorem expand_eq (c : LogCall) :
    expand (twoArgs c.src c.text) (c.level.tag ++ LogLevel.format) 0 = c.line ++ [10] := by
  rw [expand_append c.level.no_percent, line]
  simp only [List.append_assoc]
  rfl

/-- A message begins in the first column and ends behind its last row. -/
theorem run_shows (h : c.Fits) (hst : st.console.Shows t) (ht : t.Typed l) (hl : l.length % 80 = 0) :
    ∃ st' t', c.run st = .ok st' ∧ st'.console.Shows t' ∧ t'.Typed (l ++ c.cells) := by
  have hlen := c.level.length_tag
  have hfits : StaysWithin (c.level.tag ++ LogLevel.format) (twoArgs c.src c.text) :=
    (staysWithin_log c.level.tag c.level.no_percent (by omega) c.src c.text).mpr ⟨h.src, h.both⟩
  rw [run, LogLevel.kern_eq]
  exact printkColor_line ⟨_, c.level.no_nul⟩ black c.level.fore hst ht hl hfits h.plain_line c.expand_eq

theorem runAll_shows (h : ∀ c ∈ cs, c.Fits) (hst : st.console.Shows t) (ht : t.Typed l)
    (hl : l.length % 80 = 0) :
    ∃ st' t', runAll cs st = .ok st' ∧ st'.console.Shows t' ∧ t'.Typed (l ++ cs.flatMap cells) := by
  induction cs generalizing st t l with
  | nil => exact ⟨st, t, rfl, hst, by rwa [List.flatMap_nil, List.append_nil]⟩
  | cons c cs ih =>
      obtain ⟨st₁, t₁, hrun, hshows, htyped⟩ := run_shows (h c List.mem_cons_self) hst ht hl
      obtain ⟨st₂, t₂, hall, hrest⟩ := ih (fun d hd => h d (List.mem_cons_of_mem c hd)) hshows
        htyped (by rw [List.length_append, length_cells]; omega)
      refine ⟨st₂, t₂, ?_, by rwa [List.flatMap_cons, ← List.append_assoc]⟩
      rw [runAll, hrun, ok_bind, hall]

/-! ### The screen -/

/-- The first of the rows that are on the screen. -/
def firstRow (cs : List LogCall) : ℕ := max 24 (cs.map rows).sum - 24

/-- The screen holds the last 25 rows of the messages, and the cursor, in the display controller
too, is at the start of the row behind them. -/
structure Displays (c : Console) (cs : List LogCall) : Prop where
  cells : ∀ i < 25, ∀ j < 80, c.cell (i * 80 + j) =
    (cs.flatMap LogCall.cells).getD ((firstRow cs + i) * 80 + j) unwritten
  cursorX : c.cursorX = 0
  cursorY : firstRow cs + c.cursorY.toNat = (cs.map rows).sum
  location : c.register14.toNat * 256 + c.register15.toNat = c.cursorY.toNat * 80

theorem displays_of_typed {con : Console} (hs : con.Shows t) (ht : t.Typed (cs.flatMap cells)) :
    Displays con cs := by
  have hrow := ht.row
  have hcol := ht.col
  rw [length_flatMap_cells] at hrow hcol
  have htop : t.top = firstRow cs := by
    rw [Terminal.top, firstRow, hrow, Nat.mul_div_cancel _ (by decide)]
  have hx : con.cursorX.toNat = 0 := by
    rw [hs.x, hcol, Nat.mul_mod_left]
  refine ⟨fun i hi j hj => ?_, UInt8.toNat_inj.mp hx, ?_, ?_⟩
  · rw [hs.cells i hi j hj, ht.cells _ j hj, htop]
  · rw [← htop, hs.y, hrow, Nat.mul_div_cancel _ (by decide)]
  · rw [hs.location, hx, Nat.add_zero]

/-- A message that begins on the screen is there whole, from the first column on. -/
theorem Displays.message {con : Console} {pre post : List LogCall}
    (h : Displays con (pre ++ c :: post)) (hfirst : firstRow (pre ++ c :: post) ≤ (pre.map rows).sum)
    {k : ℕ} (hk : k < c.line.length) :
    con.cell (((pre.map rows).sum - firstRow (pre ++ c :: post)) * 80 + k) =
      ⟨c.line[k], Terminal.attr black c.level.fore⟩ := by
  have hsum : ((pre ++ c :: post).map rows).sum =
      (pre.map rows).sum + (c.rows + (post.map rows).sum) := by
    rw [List.map_append, List.sum_append, List.map_cons, List.sum_cons]
  have hrows : c.rows = c.line.length / 80 + 1 := rfl
  have hwindow : ((pre ++ c :: post).map rows).sum ≤ firstRow (pre ++ c :: post) + 24 := by
    rw [firstRow]
    omega
  have hcell := h.cells ((pre.map rows).sum - firstRow (pre ++ c :: post) + k / 80) (by omega)
    (k % 80) (Nat.mod_lt k (by decide))
  have hat : ((pre.map rows).sum - firstRow (pre ++ c :: post) + k / 80) * 80 + k % 80 =
      ((pre.map rows).sum - firstRow (pre ++ c :: post)) * 80 + k := by omega
  have hfrom : (firstRow (pre ++ c :: post) +
      ((pre.map rows).sum - firstRow (pre ++ c :: post) + k / 80)) * 80 + k % 80 =
        (pre.flatMap LogCall.cells).length + k := by
    rw [length_flatMap_cells]
    omega
  rw [hat, hfrom, List.flatMap_append, List.flatMap_cons,
    List.getD_append_right _ _ _ _ (Nat.le_add_right _ _), Nat.add_sub_cancel_left] at hcell
  rw [hcell, LogCall.cells, Terminal.cellsOf, List.append_assoc,
    List.getD_append _ _ _ _ (by rwa [List.length_map]),
    List.getD_eq_getElem _ _ (by rwa [List.length_map]), List.getElem_map]

/-- **The kernel log is on the screen.**  From `vga_init` on, whatever the screen held before,
messages that fit into the arrays of `printk` and have no tab or newline in their strings stand one
below the other, each in the colour of its level and from the first column of a row on; when they
need more than 24 rows the screen holds the last of them. -/
theorem log_shown (st : PrintState) (cs : List LogCall) (h : ∀ c ∈ cs, c.Fits) :
    ∃ st', runAll cs { st with console := st.console.clearScreen } = .ok st' ∧
      Displays st'.console cs ∧
      ∀ pre c post, cs = pre ++ c :: post → firstRow cs ≤ (pre.map rows).sum →
        ∀ k (hk : k < c.line.length),
          st'.console.cell (((pre.map rows).sum - firstRow cs) * 80 + k) =
            ⟨c.line[k], Terminal.attr black c.level.fore⟩ := by
  have hblank : PrintState.console { st with console := st.console.clearScreen } =
      st.console.clearScreen := rfl
  obtain ⟨st', t, hrun, hshows, htyped⟩ := runAll_shows h
    (hblank ▸ Console.shows_clearScreen st.console) Terminal.typed_blank rfl
  have hd := displays_of_typed hshows htyped
  refine ⟨st', hrun, hd, ?_⟩
  rintro pre c post rfl hfirst k hk
  exact hd.message hfirst hk

/-- A source and a text for each level. -/
def sampleStrings : LogLevel → List UInt8 × List UInt8
  | .info => (ascii ['p', 'm', 'm'], ascii ['2', '0', '4', '8', ' ', 'p', 'a', 'g', 'e', 's'])
  | .error => (ascii ['v', 'm', 'm'], ascii ['n', 'o', ' ', 'f', 'r', 'a', 'm', 'e'])
  | .warning => (ascii ['t', 'h', 'r', 'e', 'a', 'd', 's'], ascii ['b', 'l', 'o', 'c', 'k', 'e', 'd'])

theorem nul_notMem_sampleStrings (level : LogLevel) :
    0 ∉ (sampleStrings level).1 ∧ 0 ∉ (sampleStrings level).2 := by
  cases level <;> decide

/-- A message of each level. -/
def sampleMessage (level : LogLevel) : LogCall :=
  ⟨level, ⟨0, ⟨(sampleStrings level).1, (nul_notMem_sampleStrings level).1⟩⟩,
    ⟨0, ⟨(sampleStrings level).2, (nul_notMem_sampleStrings level).2⟩⟩⟩

/-- Messages of all levels, one below the other. -/
def sampleMessages : List LogCall := [.info, .error, .warning].map sampleMessage

theorem log_shown_levels : ∃ st',
    runAll sampleMessages
      ⟨Vector.replicate 32 0, Vector.replicate 11 0, (Console.start fun _ => 7).clearScreen⟩ =
        .ok st' ∧ Displays st'.console sampleMessages := by
  have hfits : ∀ k, (sampleMessage k).Fits := by
    intro k
    cases k <;> exact ⟨by decide, by decide, by decide, by decide⟩
  obtain ⟨st', hrun, hd, -⟩ := log_shown
    ⟨Vector.replicate 32 0, Vector.replicate 11 0, Console.start fun _ => 7⟩ sampleMessages (by
      intro c hc
      obtain ⟨k, -, rfl⟩ := List.mem_map.mp hc
      exact hfits k)
  exact ⟨st', hrun, hd⟩

end LogCall
end BHOS
