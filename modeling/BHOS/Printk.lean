import BHOS.Numerals
import BHOS.ConsoleWindow

/-! # Formatted output (`printk.c`, `kern_log.c`)

`printk` copies its format string to an array of 100 bytes and expands the directives in place,
from left to right.  `insert_str` saves the text behind a directive, writes the inserted text over
the directive and appends the saved text again.  No length is checked.  The lock around a call and
the `va_list` are left out: `va` has the argument of every number, and an argument can be read as a
word or as a pointer to a string, which does not change during the call.

The reference is `expand` on the format string, and `stages` are the texts before the first
expansion and after each of them. -/

namespace BHOS

open CharArray

/-- `red`. -/
def red : VgaColor := 4

/-- `yellow`. -/
def yellow : VgaColor := 14

/-- A variadic argument: its word, and the string at the word as an address. -/
structure VArg where
  word : UInt32
  str : CStr

/-- The static arrays of `string.c` and the console. -/
structure PrintState where
  m : Vector UInt8 32
  staticHexstr : Vector UInt8 11
  console : Console

/-- The local variables of `printk`, with the number of arguments that `va_arg` has yielded, and the
static arrays. -/
structure Formatting where
  outputStr : Vector UInt8 100
  offset : ℤ
  ptr : ℕ
  m : Vector UInt8 32
  staticHexstr : Vector UInt8 11

/-- `insert_str`. -/
def insertStr (insertedStr : Vector UInt8 100) (insertingStr : List UInt8) (offset : ℕ) :
    Except Fault (Vector UInt8 100) := do
  let m ← strcpy (Vector.replicate 100 0) 0 (insertedStr.toList.drop (offset + 2))
  let len ← strlen insertingStr
  let insertedStr ← memcpy insertedStr offset insertingStr len
  let insertedStr ← write insertedStr (offset + len) 0
  strcat insertedStr m.toList

namespace Formatting

/-- Inserting a string at the directive and setting the offset to its last character. -/
def splice (f : Formatting) (str : List UInt8) (offset : ℕ) : Except Fault Formatting := do
  let outputStr ← insertStr f.outputStr str offset
  let len ← strlen str
  .ok { f with outputStr := outputStr, offset := f.offset + len - 1, ptr := f.ptr + 1 }

/-- The branches for the character behind a `'%'`. -/
def directive (va : ℕ → VArg) (offset : ℕ) (f : Formatting) : Except Fault Formatting := do
  let c ← read f.outputStr.toList (offset + 1)
  -- 's', 'd', 'c', 'H' and 'h'
  if c = 115 then f.splice (va f.ptr).str.cells offset
  else if c = 100 then do
    let m ← uintTostring (va f.ptr).word f.m
    { f with m := m }.splice m.toList offset
  else if c = 99 then .ok f
  else if c = 72 then do
    let (hexstrptr, staticHexstr) ← num2hexstr (va f.ptr).word true f.staticHexstr
    { f with staticHexstr := staticHexstr }.splice hexstrptr offset
  else if c = 104 then do
    let (hexstrptr, staticHexstr) ← num2hexstr (va f.ptr).word false f.staticHexstr
    { f with staticHexstr := staticHexstr }.splice hexstrptr offset
  else .ok f

/-- The body of the loop for the character `c` at an offset. -/
def body (va : ℕ → VArg) (offset : ℕ) (c : UInt8) (f : Formatting) : Except Fault Formatting :=
  if c = 37 then f.directive va offset else .ok f

/-- The loop over the characters, with at most the given number of tests of its condition. -/
def loop (va : ℕ → VArg) : ℕ → Formatting → Except Fault Formatting
  | 0, _ => .error .loop
  | k + 1, f => do
      let offset ← index f.offset
      let c ← read f.outputStr.toList offset
      if c ≠ 0 then do
        let f ← f.body va offset c
        loop va k { f with offset := f.offset + 1 }
      else .ok f

end Formatting

/-- What `printk` and `printk_color` do before they write the text to the console; their two bodies
are the same up to there. -/
def format (inputStr : List UInt8) (va : ℕ → VArg) (st : PrintState) : Except Fault Formatting := do
  let outputStr ← strcpy (Vector.replicate 100 0) 0 inputStr
  Formatting.loop va 100 ⟨outputStr, 0, 0, st.m, st.staticHexstr⟩

/-- `printk`. -/
def printk (inputStr : List UInt8) (va : ℕ → VArg) (st : PrintState) : Except Fault PrintState := do
  let f ← format inputStr va st
  .ok ⟨f.m, f.staticHexstr, st.console.kputs f.outputStr.toList⟩

/-- `printk_color`. -/
def printkColor (inputStr : List UInt8) (back fore : VgaColor) (va : ℕ → VArg) (st : PrintState) :
    Except Fault PrintState := do
  let f ← format inputStr va st
  .ok ⟨f.m, f.staticHexstr, st.console.kputsColor f.outputStr.toList back fore⟩

/-- Two arguments. -/
def twoArgs (src text : VArg) : ℕ → VArg
  | 0 => src
  | _ => text

/-- `info_kern`. -/
def infoKern (src text : VArg) (st : PrintState) : Except Fault PrintState :=
  printk (ascii ['[', 'I', 'N', 'F', 'O', ']', '[', '%', 's', ']', '%', 's', '\n'] ++ [0])
    (twoArgs src text) st

/-- `error_kern`. -/
def errorKern (src text : VArg) (st : PrintState) : Except Fault PrintState :=
  printkColor
    (ascii ['[', 'E', 'R', 'R', 'O', 'R', ']', '[', '%', 's', ']', '%', 's', '\n'] ++ [0])
    black red (twoArgs src text) st

/-- `warning_kern`. -/
def warningKern (src text : VArg) (st : PrintState) : Except Fault PrintState :=
  printkColor
    (ascii ['[', 'W', 'A', 'R', 'N', 'I', 'N', 'G', ']', '[', '%', 's', ']', '%', 's', '\n'] ++ [0])
    black yellow (twoArgs src text) st

/-- `stop_kern` up to its endless loop. -/
def stopKern (src text : VArg) (st : PrintState) : Except Fault PrintState :=
  printkColor (ascii ['[', 'S', 'T', 'O', 'P', ']', '[', '%', 's', ']', '%', 's', '\n'] ++ [0])
    white black (twoArgs src text) st

/-! ### The reference -/

/-- What a character behind a `'%'` stands for. -/
def expansion (c : UInt8) (arg : VArg) : Option (List UInt8) :=
  if c = 115 then some arg.str.chars
  else if c = 100 then some (decimal arg.word.toNat)
  else if c = 104 then some (hex8 arg.word.toNat)
  else if c = 72 then some (ascii ['0', 'x'] ++ hex8 arg.word.toNat)
  else none

/-- What the first two characters of a format string stand for. -/
def expansion₂ (c d : UInt8) (arg : VArg) : Option (List UInt8) :=
  if c = 37 then expansion d arg else none

/-- The expansion of a format string, from argument `n` on. -/
def expand (va : ℕ → VArg) : List UInt8 → ℕ → List UInt8
  | [], _ => []
  | [c], _ => [c]
  | c :: d :: fmt, n =>
      match expansion₂ c d (va n) with
      | some s => s ++ expand va fmt (n + 1)
      | none => c :: expand va (d :: fmt) n

/-- The text before the first expansion and after each of them. -/
def stages (va : ℕ → VArg) : List UInt8 → ℕ → List (List UInt8)
  | [], _ => [[]]
  | [c], _ => [[c]]
  | c :: d :: fmt, n =>
      match expansion₂ c d (va n) with
      | some s => (c :: d :: fmt) :: (stages va fmt (n + 1)).map (s ++ ·)
      | none => (stages va (d :: fmt) n).map (c :: ·)

/-- Every text has at most 99 characters. -/
def StaysWithin (fmt : List UInt8) (va : ℕ → VArg) : Prop := ∀ t ∈ stages va fmt 0, t.length ≤ 99

variable {va : ℕ → VArg} {fmt s : List UInt8} {c d : UInt8} {n : ℕ}

theorem expand_directive (h : expansion d (va n) = some s) :
    expand va (37 :: d :: fmt) n = s ++ expand va fmt (n + 1) := by
  rw [expand]
  unfold expansion₂
  rw [if_pos rfl, h]

theorem stages_directive (h : expansion d (va n) = some s) :
    stages va (37 :: d :: fmt) n = (37 :: d :: fmt) :: (stages va fmt (n + 1)).map (s ++ ·) := by
  rw [stages]
  unfold expansion₂
  rw [if_pos rfl, h]

/-- A character that is left as it is. -/
def Literal (va : ℕ → VArg) (c : UInt8) (fmt : List UInt8) (n : ℕ) : Prop :=
  ∀ d ∈ fmt.head?, expansion₂ c d (va n) = none

theorem literal_of_ne (h : c ≠ 37) : Literal va c fmt n := fun _ _ => if_neg h

theorem exists_of_not_literal (h : ¬ Literal va c fmt n) :
    ∃ d rest s, c = 37 ∧ fmt = d :: rest ∧ expansion d (va n) = some s := by
  cases fmt with
  | nil => exact absurd (fun _ hd => absurd hd (by simp)) h
  | cons d rest =>
      by_cases hc : c = 37
      · cases hs : expansion d (va n) with
        | some s => exact ⟨d, rest, s, hc, rfl, hs⟩
        | none =>
            refine absurd ?_ h
            intro d' hd'
            obtain rfl := Option.some.inj hd'
            unfold expansion₂
            rw [if_pos hc, hs]
      · exact absurd (literal_of_ne hc) h

theorem expand_literal (h : Literal va c fmt n) :
    expand va (c :: fmt) n = c :: expand va fmt n := by
  cases fmt with
  | nil => rfl
  | cons d fmt => rw [expand, h d rfl]

theorem stages_literal (h : Literal va c fmt n) :
    stages va (c :: fmt) n = (stages va fmt n).map (c :: ·) := by
  cases fmt with
  | nil => rfl
  | cons d fmt => rw [stages, h d rfl]

/-- The format string itself is the text before the first expansion. -/
theorem self_mem_stages (va : ℕ → VArg) (fmt : List UInt8) (n : ℕ) : fmt ∈ stages va fmt n := by
  induction fmt with
  | nil => exact List.mem_singleton_self []
  | cons c fmt ih =>
      cases fmt with
      | nil => exact List.mem_singleton_self [c]
      | cons d fmt =>
          rw [stages]
          cases expansion₂ c d (va n) with
          | some s => exact List.mem_cons_self
          | none => exact List.mem_map_of_mem ih

/-! ### One expansion -/

/-- The loop ends with a text when every text on the way fits, and otherwise writes behind the
array. -/
def Ends (r : Except Fault Formatting) (fits : Prop) (t : List UInt8) : Prop :=
  (fits → ∃ f', r = .ok f' ∧ Spells f'.outputStr.toList t) ∧ (¬ fits → r = .error (.write 100))

section insertStr
variable {insertedStr : Vector UInt8 100} {pre rest str : List UInt8} {a b : UInt8}

/-- The text behind the directive is saved, and the string is stored with a NUL. -/
theorem insertStr_eq (hd : Spells insertedStr.toList (pre ++ [a, b] ++ rest)) (h : Spells str s) :
    ∃ m : Vector UInt8 100, Spells m.toList rest ∧ insertStr insertedStr str pre.length =
      writeAll insertedStr pre.length (s ++ [0]) >>= fun b => strcat b m.toList := by
  have hlen := hd.length_lt
  rw [Vector.length_toList, List.length_append] at hlen
  have hrest := hd.drop
  rw [List.length_append] at hrest
  obtain ⟨m, hm, hsm⟩ := strcpy_spells (Vector.replicate 100 0) (d := 0) (t := []) hrest
    List.not_mem_nil rfl (by omega)
  refine ⟨m, hsm, ?_⟩
  unfold insertStr
  rw [show insertedStr.toList.drop (pre.length + 2) =
    insertedStr.toList.drop (pre.length + [a, b].length) from rfl, hm, ok_bind, strlen_eq h, ok_bind,
    memcpy_eq_writeAll h, ← bind_assoc, writeAll_append]
  simp only [writeAll_singleton]

theorem take_of_spells (hd : Spells insertedStr.toList (pre ++ [a, b] ++ rest)) :
    0 ∉ pre ∧ insertedStr.toList.take pre.length = pre := by
  obtain ⟨hn, junk, e⟩ := hd
  refine ⟨fun hp => hn (List.mem_append_left _ (List.mem_append_left _ hp)), ?_⟩
  rw [e, List.append_assoc, List.append_assoc, List.take_left]

/-- `insert_str` replaces the directive by the string. -/
theorem insertStr_ok (hd : Spells insertedStr.toList (pre ++ [a, b] ++ rest)) (h : Spells str s)
    (hlen : (pre ++ s ++ rest).length ≤ 99) :
    ∃ b, insertStr insertedStr str pre.length = .ok b ∧ Spells b.toList (pre ++ s ++ rest) := by
  obtain ⟨hpre, htake⟩ := take_of_spells hd
  obtain ⟨m, hm, e⟩ := insertStr_eq hd h
  simp only [List.length_append] at hlen
  obtain ⟨b₁, hb₁, hs₁⟩ := spells_writeAll insertedStr hpre h.1 htake (by omega)
  obtain ⟨b₂, hb₂, hs₂⟩ := spells_writeAll b₁ hs₁.1 hm.1 hs₁.take_length
    (by rw [List.length_append]; omega)
  refine ⟨b₂, ?_, hs₂⟩
  rw [e, hb₁, ok_bind, strcat_eq_writeAll hs₁ hm, hb₂]

/-- A text that is too long is written up to the end of the array. -/
theorem insertStr_error (hd : Spells insertedStr.toList (pre ++ [a, b] ++ rest)) (h : Spells str s)
    (hlen : 99 < (pre ++ s ++ rest).length) :
    insertStr insertedStr str pre.length = .error (.write 100) := by
  obtain ⟨hpre, htake⟩ := take_of_spells hd
  obtain ⟨m, hm, e⟩ := insertStr_eq hd h
  have hpos := hd.length_lt
  simp only [List.length_append, Vector.length_toList] at hlen hpos
  rw [e]
  by_cases hs : pre.length + s.length < 100
  · obtain ⟨b₁, hb₁, hs₁⟩ := spells_writeAll insertedStr hpre h.1 htake hs
    rw [hb₁, ok_bind, strcat_eq_writeAll hs₁ hm]
    apply writeAll_eq_error
    · rw [List.length_append]
      omega
    · simp only [List.length_append, List.length_singleton]
      omega
  · rw [writeAll_eq_error insertedStr (by omega)
      (by rw [List.length_append, List.length_singleton]; omega), error_bind]
    rfl

end insertStr

namespace Formatting

/-- The array spells a text whose first part is expanded, and the offset is behind that part. -/
structure At (f : Formatting) (pre rest : List UInt8) : Prop where
  spells : Spells f.outputStr.toList (pre ++ rest)
  offset : f.offset = pre.length

variable {f : Formatting} {pre rest : List UInt8}

theorem splice_ok {str : List UInt8} (hf : f.At pre (37 :: d :: rest)) (h : Spells str s)
    (hlen : (pre ++ s ++ rest).length ≤ 99) : ∃ f', f.splice str pre.length = .ok f' ∧
      Formatting.At { f' with offset := f'.offset + 1 } (pre ++ s) rest ∧ f'.ptr = f.ptr + 1 := by
  have hd : Spells f.outputStr.toList (pre ++ [37, d] ++ rest) := by
    rw [List.append_assoc]
    exact hf.spells
  obtain ⟨b, hb, hs⟩ := insertStr_ok hd h hlen
  refine ⟨⟨b, f.offset + s.length - 1, f.ptr + 1, f.m, f.staticHexstr⟩, ?_, ⟨hs, ?_⟩, rfl⟩
  · unfold splice
    rw [hb, ok_bind, strlen_eq h, ok_bind]
  · show f.offset + s.length - 1 + 1 = ((pre ++ s).length : ℤ)
    rw [hf.offset, List.length_append]
    omega

theorem splice_error {str : List UInt8} (hf : f.At pre (37 :: d :: rest)) (h : Spells str s)
    (hlen : 99 < (pre ++ s ++ rest).length) :
    f.splice str pre.length = .error (.write 100) := by
  have hd : Spells f.outputStr.toList (pre ++ [37, d] ++ rest) := by
    rw [List.append_assoc]
    exact hf.spells
  unfold splice
  rw [insertStr_error hd h hlen, error_bind]

/-- A directive inserts what its character stands for. -/
theorem body_splice (hf : f.At pre (37 :: d :: rest)) (h : expansion d (va f.ptr) = some s) :
    ∃ (f' : Formatting) (str : List UInt8), f.body va pre.length 37 = f'.splice str pre.length ∧
      f'.At pre (37 :: d :: rest) ∧ f'.ptr = f.ptr ∧ Spells str s := by
  have hread : read f.outputStr.toList (pre.length + 1) = .ok d := by
    apply read_eq_ok
    have hs := hf.spells
    rw [List.append_cons] at hs
    have hget := hs.getElem?
    rwa [List.length_append] at hget
  unfold body directive
  rw [if_pos rfl, hread, ok_bind]
  unfold expansion at h
  by_cases hs : d = 115
  · rw [if_pos hs] at h ⊢
    obtain rfl := Option.some.inj h
    exact ⟨f, _, rfl, hf, rfl, (va f.ptr).str.spells⟩
  · rw [if_neg hs] at h ⊢
    by_cases hd : d = 100
    · rw [if_pos hd] at h ⊢
      obtain rfl := Option.some.inj h
      obtain ⟨m, hm, hspells⟩ := uintTostring_eq (va f.ptr).word f.m
      rw [hm, ok_bind]
      exact ⟨_, _, rfl, ⟨hf.spells, hf.offset⟩, rfl, hspells⟩
    · rw [if_neg hd] at h ⊢
      by_cases hh : d = 104
      · subst hh
        rw [if_pos rfl] at h
        obtain rfl := Option.some.inj h
        obtain ⟨cells, hex, hrun, hspells⟩ := num2hexstr_eq (va f.ptr).word false f.staticHexstr
        rw [if_neg (by decide), if_neg (by decide), if_pos rfl, hrun, ok_bind]
        exact ⟨_, _, rfl, ⟨hf.spells, hf.offset⟩, rfl, hspells⟩
      · rw [if_neg hh] at h
        by_cases hH : d = 72
        · subst hH
          rw [if_pos rfl] at h
          obtain rfl := Option.some.inj h
          obtain ⟨cells, hex, hrun, hspells⟩ := num2hexstr_eq (va f.ptr).word true f.staticHexstr
          rw [if_neg (by decide), if_pos rfl, hrun, ok_bind]
          exact ⟨_, _, rfl, ⟨hf.spells, hf.offset⟩, rfl, hspells⟩
        · rw [if_neg hH] at h
          exact absurd h (by simp)

/-- A `'%'` before anything else, or at the end, is left as it is. -/
theorem directive_literal (hf : f.At pre (37 :: rest)) (h : Literal va 37 rest f.ptr) :
    f.directive va pre.length = .ok f := by
  have hnone : ∀ c, read f.outputStr.toList (pre.length + 1) = .ok c → expansion c (va f.ptr) = none →
      f.directive va pre.length = .ok f := by
    intro c hread hc
    unfold expansion at hc
    unfold directive
    rw [hread, ok_bind]
    split_ifs at hc ⊢ <;> rfl
  have hs := hf.spells
  rw [List.append_cons] at hs
  cases rest with
  | nil =>
      refine hnone 0 (read_eq_ok ?_) rfl
      rw [List.append_nil] at hs
      have hget := hs.getElem?_length
      rwa [List.length_append] at hget
  | cons d rest =>
      refine hnone d (read_eq_ok ?_) ?_
      · have hget := hs.getElem?
        rwa [List.length_append] at hget
      · have hd := h d rfl
        unfold expansion₂ at hd
        rwa [if_pos rfl] at hd

theorem body_literal (hf : f.At pre (c :: rest)) (h : Literal va c rest f.ptr) :
    f.body va pre.length c = .ok f := by
  unfold body
  split_ifs with h37
  · subst h37
    exact directive_literal hf h
  · rfl

theorem At.advance (hf : f.At pre (c :: rest)) :
    Formatting.At { f with offset := f.offset + 1 } (pre ++ [c]) rest := by
  refine ⟨?_, ?_⟩
  · rw [← List.append_cons]
    exact hf.spells
  · show f.offset + 1 = ((pre ++ [c]).length : ℤ)
    rw [hf.offset, List.length_append, List.length_singleton]
    omega

/-- Every text on the way through the rest of the format string fits. -/
def RestFits (va : ℕ → VArg) (pre rest : List UInt8) (n : ℕ) : Prop :=
  ∀ t ∈ stages va rest n, (pre ++ t).length ≤ 99

theorem restFits_literal (h : Literal va c rest n) :
    RestFits va pre (c :: rest) n ↔ RestFits va (pre ++ [c]) rest n := by
  unfold RestFits
  rw [stages_literal h, List.forall_mem_map]
  simp only [List.append_assoc, List.singleton_append]

theorem restFits_directive (h : expansion d (va n) = some s)
    (hlen : (pre ++ 37 :: d :: rest).length ≤ 99) :
    RestFits va pre (37 :: d :: rest) n ↔ RestFits va (pre ++ s) rest (n + 1) := by
  unfold RestFits
  rw [stages_directive h, List.forall_mem_cons, List.forall_mem_map]
  simp only [List.append_assoc]
  exact and_iff_right hlen

theorem loop_ends (k : ℕ) (hf : f.At pre rest) (hk : rest.length < k) :
    Ends (loop va k f) (RestFits va pre rest f.ptr) (pre ++ expand va rest f.ptr) := by
  induction k generalizing f pre rest with
  | zero => omega
  | succ k ih =>
      have hlen := hf.spells.length_lt
      rw [Vector.length_toList] at hlen
      rw [loop, index_eq_ok hf.offset, ok_bind]
      cases rest with
      | nil =>
          have hs := hf.spells
          rw [List.append_nil] at hs
          rw [read_eq_ok hs.getElem?_length, ok_bind, if_neg (by decide)]
          refine ⟨fun _ => ⟨f, rfl, hf.spells⟩, fun h => absurd ?_ h⟩
          intro t ht
          rw [List.mem_singleton.mp ht]
          exact Nat.le_of_lt_succ hlen
      | cons c rest =>
          have hc : c ≠ 0 := fun e => hf.spells.1 (e ▸ List.mem_append_right pre List.mem_cons_self)
          rw [read_eq_ok hf.spells.getElem?, ok_bind, if_pos hc]
          by_cases hlit : Literal va c rest f.ptr
          · rw [body_literal hf hlit, ok_bind, restFits_literal hlit, expand_literal hlit,
              List.append_cons pre c (expand va rest f.ptr)]
            exact ih hf.advance (Nat.lt_of_succ_lt_succ hk)
          · obtain ⟨d, fmt, s, rfl, rfl, hs⟩ := exists_of_not_literal hlit
            obtain ⟨f', str, hbody, hf', hptr, hstr⟩ := body_splice hf hs
            rw [hbody, restFits_directive hs (Nat.le_of_lt_succ hlen), expand_directive hs,
              ← List.append_assoc]
            by_cases hfits : (pre ++ s ++ fmt).length ≤ 99
            · obtain ⟨f'', hsplice, hAt, hptr'⟩ := splice_ok hf' hstr hfits
              rw [hsplice, ok_bind, ← hptr, ← hptr']
              rw [List.length_cons, List.length_cons] at hk
              exact ih hAt (by omega)
            · rw [splice_error hf' hstr (Nat.lt_of_not_le hfits), error_bind]
              exact ⟨fun h => absurd (h fmt (self_mem_stages va fmt _)) hfits, fun _ => rfl⟩

end Formatting

/-! ### Whole calls -/

theorem format_ends (inputStr : CStr) (va : ℕ → VArg) (st : PrintState) :
    Ends (format inputStr.cells va st) (StaysWithin inputStr.chars va)
      (expand va inputStr.chars 0) := by
  unfold format
  by_cases hlen : inputStr.chars.length < 100
  · obtain ⟨b, hb, hs⟩ := strcpy_spells (Vector.replicate 100 0) (d := 0) (t := [])
      inputStr.spells List.not_mem_nil rfl (by omega)
    rw [hb, ok_bind]
    have hat : Formatting.At ⟨b, 0, 0, st.m, st.staticHexstr⟩ [] inputStr.chars := ⟨hs, rfl⟩
    exact Formatting.loop_ends 100 hat hlen
  · rw [strcpy_eq_writeAll inputStr.spells, writeAll_eq_error _ (by omega)
      (by rw [List.length_append, List.length_singleton]; omega), error_bind]
    exact ⟨fun h => absurd (Nat.lt_succ_of_le (h _ (self_mem_stages va _ 0))) hlen, fun _ => rfl⟩

/-- **`printk` and `printk_color` expand their format string** when no text on the way has more than
99 characters: what they hand to `kputs` and to `kputs_color` spells the expansion. -/
theorem printk_expands (inputStr : CStr) (va : ℕ → VArg) (st : PrintState) (back fore : VgaColor)
    (h : StaysWithin inputStr.chars va) :
    ∃ f : Formatting, Spells f.outputStr.toList (expand va inputStr.chars 0) ∧
      printk inputStr.cells va st =
        .ok ⟨f.m, f.staticHexstr, st.console.kputs f.outputStr.toList⟩ ∧
      printkColor inputStr.cells back fore va st =
        .ok ⟨f.m, f.staticHexstr, st.console.kputsColor f.outputStr.toList back fore⟩ := by
  obtain ⟨f, hf, hs⟩ := (format_ends inputStr va st).1 h
  refine ⟨f, hs, ?_, ?_⟩
  · unfold printk
    rw [hf, ok_bind]
  · unfold printkColor
    rw [hf, ok_bind]

/-- An inserted `'%'` and the one behind it are not expanded. -/
theorem printk_expands_percent : ∃ f : Formatting,
    Spells f.outputStr.toList (ascii ['%', 'd', '%', '4', '2', '%']) ∧
      printk (ascii ['%', 's', '%', '%', 'd', '%'] ++ [0])
        (fun _ => ⟨42, ⟨ascii ['%', 'd'], by decide⟩⟩)
        ⟨Vector.replicate 32 0, Vector.replicate 11 0, Console.start fun _ => 0⟩ =
        .ok ⟨f.m, f.staticHexstr, (Console.start fun _ => 0).kputs f.outputStr.toList⟩ ∧
      printkColor (ascii ['%', 's', '%', '%', 'd', '%'] ++ [0]) black red
        (fun _ => ⟨42, ⟨ascii ['%', 'd'], by decide⟩⟩)
        ⟨Vector.replicate 32 0, Vector.replicate 11 0, Console.start fun _ => 0⟩ =
        .ok ⟨f.m, f.staticHexstr,
          (Console.start fun _ => 0).kputsColor f.outputStr.toList black red⟩ :=
  printk_expands ⟨ascii ['%', 's', '%', '%', 'd', '%'], by decide⟩
    (fun _ => ⟨42, ⟨ascii ['%', 'd'], by decide⟩⟩)
    ⟨Vector.replicate 32 0, Vector.replicate 11 0, Console.start fun _ => 0⟩ black red (by
      unfold StaysWithin
      decide)

/-- `printk` is `printk_color` with white on black. -/
theorem printk_eq (inputStr : List UInt8) (va : ℕ → VArg) (st : PrintState) :
    printk inputStr va st = printkColor inputStr black white va st := rfl

/-- On the screen the expansion follows what was shown before the call. -/
theorem printkColor_shows (inputStr : CStr) (back fore : VgaColor) (va : ℕ → VArg)
    (st : PrintState) {t : Terminal} (ht : st.console.Shows t)
    (h : StaysWithin inputStr.chars va) :
    ∃ st', printkColor inputStr.cells back fore va st = .ok st' ∧
      st'.console.Shows (t.puts (expand va inputStr.chars 0) back fore) := by
  obtain ⟨f, hf, hs⟩ := (format_ends inputStr va st).1 h
  refine ⟨_, by rw [printkColor, hf, ok_bind], ?_⟩
  rw [← hs.text_eq]
  exact ht.kputsColor f.outputStr.toList back fore

theorem printk_shows (inputStr : CStr) (va : ℕ → VArg) (st : PrintState) {t : Terminal}
    (ht : st.console.Shows t) (h : StaysWithin inputStr.chars va) :
    ∃ st', printk inputStr.cells va st = .ok st' ∧
      st'.console.Shows (t.puts (expand va inputStr.chars 0) black white) := by
  rw [printk_eq]
  exact printkColor_shows inputStr black white va st ht h

/-! ### Staying inside the arrays -/

/-- No index is written that is outside its array. -/
def NoOverrun {α : Type} (r : Except Fault α) : Prop := ∀ i, r ≠ .error (.write i)

theorem Ends.noOverrun {r : Except Fault Formatting} {fits : Prop} (h : Ends r fits s) :
    NoOverrun r ↔ fits := by
  constructor
  · intro hr
    by_contra hfits
    exact hr 100 (h.2 hfits)
  · intro hfits i e
    obtain ⟨f, hf, -⟩ := h.1 hfits
    rw [hf] at e
    cases e

theorem noOverrun_bind {α : Type} (r : Except Fault Formatting) (g : Formatting → α) :
    NoOverrun (r >>= fun f => .ok (g f)) ↔ NoOverrun r := by
  unfold NoOverrun
  cases r with
  | error e => simp
  | ok f => simp

theorem printkColor_noOverrun (inputStr : CStr) (back fore : VgaColor) (va : ℕ → VArg)
    (st : PrintState) :
    NoOverrun (printkColor inputStr.cells back fore va st) ↔ StaysWithin inputStr.chars va :=
  (noOverrun_bind _ _).trans (format_ends inputStr va st).noOverrun

theorem printk_noOverrun (inputStr : CStr) (va : ℕ → VArg) (st : PrintState) :
    NoOverrun (printk inputStr.cells va st) ↔ StaysWithin inputStr.chars va := by
  rw [printk_eq]
  exact printkColor_noOverrun inputStr black white va st

theorem stages_append {pre : List UInt8} (h : 37 ∉ pre) (fmt : List UInt8) (n : ℕ) :
    stages va (pre ++ fmt) n = (stages va fmt n).map (pre ++ ·) := by
  induction pre with
  | nil => simp
  | cons c pre ih =>
      obtain ⟨hc, hpre⟩ := not_or.mp (fun hn => h (List.mem_cons.mpr hn))
      rw [List.cons_append, stages_literal (literal_of_ne (Ne.symm hc)), ih hpre, List.map_map]
      rfl

/-- The messages of `kern_log.c`: `"%s]%s\n"` behind a tag. -/
theorem staysWithin_log (tag : List UInt8) (h : 37 ∉ tag) (htag : tag.length ≤ 93)
    (src text : VArg) :
    StaysWithin (tag ++ ascii ['%', 's', ']', '%', 's', '\n']) (twoArgs src text) ↔
      src.str.chars.length ≤ 95 - tag.length ∧
        src.str.chars.length + text.str.chars.length ≤ 97 - tag.length := by
  have hstages : stages (twoArgs src text) (ascii ['%', 's', ']', '%', 's', '\n']) 0 =
      [ascii ['%', 's', ']', '%', 's', '\n'],
        src.str.chars ++ ascii [']', '%', 's', '\n'],
        src.str.chars ++ (ascii [']'] ++ (text.str.chars ++ ascii ['\n']))] := rfl
  unfold StaysWithin
  rw [stages_append h, hstages]
  have hlen : ∀ l : List Char, (ascii l).length = l.length := fun l => List.length_map _
  simp only [List.map_cons, List.map_nil, List.forall_mem_cons, List.length_append, hlen,
    List.length_cons, List.length_nil]
  constructor
  · rintro ⟨h₁, h₂, h₃, -⟩
    omega
  · rintro ⟨h₁, h₂⟩
    exact ⟨by omega, by omega, by omega, fun t ht => absurd ht List.not_mem_nil⟩

theorem infoKern_noOverrun (src text : VArg) (st : PrintState) :
    NoOverrun (infoKern src text st) ↔ src.str.chars.length ≤ 88 ∧
      src.str.chars.length + text.str.chars.length ≤ 90 :=
  (printk_noOverrun ⟨_, by decide⟩ _ st).trans
    (staysWithin_log (ascii ['[', 'I', 'N', 'F', 'O', ']', '[']) (by decide) (by decide) src text)

theorem errorKern_noOverrun (src text : VArg) (st : PrintState) :
    NoOverrun (errorKern src text st) ↔ src.str.chars.length ≤ 87 ∧
      src.str.chars.length + text.str.chars.length ≤ 89 :=
  (printkColor_noOverrun ⟨_, by decide⟩ _ _ _ st).trans
    (staysWithin_log (ascii ['[', 'E', 'R', 'R', 'O', 'R', ']', '[']) (by decide) (by decide) src
      text)

theorem warningKern_noOverrun (src text : VArg) (st : PrintState) :
    NoOverrun (warningKern src text st) ↔ src.str.chars.length ≤ 85 ∧
      src.str.chars.length + text.str.chars.length ≤ 87 :=
  (printkColor_noOverrun ⟨_, by decide⟩ _ _ _ st).trans
    (staysWithin_log (ascii ['[', 'W', 'A', 'R', 'N', 'I', 'N', 'G', ']', '[']) (by decide)
      (by decide) src text)

theorem stopKern_noOverrun (src text : VArg) (st : PrintState) :
    NoOverrun (stopKern src text st) ↔ src.str.chars.length ≤ 88 ∧
      src.str.chars.length + text.str.chars.length ≤ 90 :=
  (printkColor_noOverrun ⟨_, by decide⟩ _ _ _ st).trans
    (staysWithin_log (ascii ['[', 'S', 'T', 'O', 'P', ']', '[']) (by decide) (by decide) src text)

/-- **`printk` stays inside its arrays** exactly when no text on the way has more than 99
characters; the messages of `kern_log.c` give a bound on their two strings. -/
theorem noOverrun_iff (st : PrintState) :
    (∀ (inputStr : CStr) va,
      NoOverrun (printk inputStr.cells va st) ↔ StaysWithin inputStr.chars va) ∧
    (∀ (inputStr : CStr) back fore va,
      NoOverrun (printkColor inputStr.cells back fore va st) ↔ StaysWithin inputStr.chars va) ∧
    ∀ src text : VArg,
      (NoOverrun (infoKern src text st) ↔ src.str.chars.length ≤ 88 ∧
        src.str.chars.length + text.str.chars.length ≤ 90) ∧
      (NoOverrun (errorKern src text st) ↔ src.str.chars.length ≤ 87 ∧
        src.str.chars.length + text.str.chars.length ≤ 89) ∧
      (NoOverrun (warningKern src text st) ↔ src.str.chars.length ≤ 85 ∧
        src.str.chars.length + text.str.chars.length ≤ 87) ∧
      (NoOverrun (stopKern src text st) ↔ src.str.chars.length ≤ 88 ∧
        src.str.chars.length + text.str.chars.length ≤ 90) :=
  ⟨fun inputStr va => printk_noOverrun inputStr va st,
    fun inputStr back fore va => printkColor_noOverrun inputStr back fore va st,
    fun src text => ⟨infoKern_noOverrun src text st, errorKern_noOverrun src text st,
      warningKern_noOverrun src text st, stopKern_noOverrun src text st⟩⟩

/-- `INFO("", "AA…A")` with 91 characters writes behind the array. -/
theorem not_noOverrun_longText : ¬ NoOverrun (infoKern ⟨0, ⟨[], List.not_mem_nil⟩⟩
    ⟨0, ⟨List.replicate 91 65, by decide⟩⟩
    ⟨Vector.replicate 32 0, Vector.replicate 11 0, Console.start fun _ => 0⟩) := by
  intro h
  have hlen := ((infoKern_noOverrun _ _ _).mp h).2
  simp only [List.length_nil, List.length_replicate] at hlen
  omega

end BHOS
