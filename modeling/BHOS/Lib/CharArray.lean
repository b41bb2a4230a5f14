import Mathlib.Data.Int.Notation
import Mathlib.Data.List.Basic
import Mathlib.Data.List.TakeDrop

/-! # Strings in arrays of characters

A `char` array is a vector of bytes, and code that writes to one is a function into
`Except Fault`, with the index of a write outside the array as its fault.  A pointer that is only
read through is the list of the bytes from there to the end of its array.

A list of bytes `Spells` a string when it starts with the characters of the string and the
terminating NUL.  Consecutive writes are one `writeAll`; it succeeds exactly when it ends inside the
array (`writeAll_eq_ok`, `writeAll_eq_error`), and what the array spells afterwards follows from the
position of the NUL. -/

namespace CharArray

/-- Why a piece of code has no result: it writes at an index outside an array, it reads outside an
array, or a loop has not ended within its bound. -/
inductive Fault
  | write (i : ℤ)
  | read
  | loop
deriving DecidableEq, Repr

variable {α β : Type} {n : ℕ}

@[simp] theorem ok_bind (a : α) (f : α → Except Fault β) : (Except.ok a >>= f) = f a := rfl

@[simp] theorem error_bind (e : Fault) (f : α → Except Fault β) :
    ((Except.error e : Except Fault α) >>= f) = Except.error e := rfl

/-- No loop runs on in a sequence of steps if none runs on in the steps. -/
theorem bind_ne_loop {r : Except Fault α} {f : α → Except Fault β} (hr : r ≠ .error .loop)
    (hf : ∀ a, f a ≠ .error .loop) : (r >>= f) ≠ .error .loop := by
  cases r with
  | error e =>
      intro h
      rw [error_bind, Except.error.injEq] at h
      exact hr (congrArg _ h)
  | ok a => exact hf a

/-! ### Strings -/

/-- The bytes start with the string and a NUL behind it. -/
def Spells (cells s : List UInt8) : Prop := 0 ∉ s ∧ ∃ junk, cells = s ++ 0 :: junk

/-- The string at a pointer. -/
def text (cells : List UInt8) : List UInt8 := cells.takeWhile (· ≠ 0)

theorem spells_nil (junk : List UInt8) : Spells (0 :: junk) [] := ⟨List.not_mem_nil, junk, rfl⟩

theorem spells_append_nul {s : List UInt8} (hs : 0 ∉ s) (junk : List UInt8) :
    Spells (s ++ 0 :: junk) s := ⟨hs, junk, rfl⟩

theorem Spells.cons {c : UInt8} {cells s : List UInt8} (hc : c ≠ 0) (h : Spells cells s) :
    Spells (c :: cells) (c :: s) := by
  obtain ⟨hs, junk, rfl⟩ := h
  exact ⟨fun hn => (List.mem_cons.mp hn).elim (fun e => hc e.symm) hs, junk, rfl⟩

/-- Induction over the characters of a string, with the pointer moving on to its NUL. -/
@[elab_as_elim] theorem Spells.induction {motive : ∀ cells s, Spells cells s → Prop}
    (nul : ∀ junk, motive (0 :: junk) [] (spells_nil junk))
    (char : ∀ c cells s (hc : c ≠ 0) (h : Spells cells s), motive cells s h →
      motive (c :: cells) (c :: s) (h.cons hc))
    {cells s : List UInt8} (h : Spells cells s) : motive cells s h := by
  obtain ⟨hs, junk, rfl⟩ := h
  induction s with
  | nil => exact nul junk
  | cons c s ih =>
      obtain ⟨hc, hs⟩ := not_or.mp (fun hn => hs (List.mem_cons.mpr hn))
      exact char c _ s (Ne.symm hc) (spells_append_nul hs junk) (ih hs)

theorem text_cons (c : UInt8) (cells : List UInt8) :
    text (c :: cells) = if c ≠ 0 then c :: text cells else [] := by
  unfold text
  by_cases hc : c = 0
  · rw [List.takeWhile_cons_of_neg (by simpa using hc), if_neg (not_not_intro hc)]
  · rw [List.takeWhile_cons_of_pos (by simpa using hc), if_pos hc]

theorem Spells.text_eq {cells s : List UInt8} (h : Spells cells s) : text cells = s := by
  induction h using Spells.induction with
  | nul junk => rfl
  | char c cells s hc h ih => rw [text_cons, if_pos hc, ih]

theorem Spells.length_lt {cells s : List UInt8} (h : Spells cells s) :
    s.length < cells.length := by
  obtain ⟨-, junk, rfl⟩ := h
  rw [List.length_append, List.length_cons]
  omega

/-- A pointer into a string is at the rest of the string. -/
theorem Spells.drop {cells s t : List UInt8} (h : Spells cells (s ++ t)) :
    Spells (cells.drop s.length) t := by
  obtain ⟨hs, junk, rfl⟩ := h
  refine ⟨fun ht => hs (List.mem_append_right s ht), junk, ?_⟩
  rw [List.append_assoc, List.drop_left]

theorem Spells.take_length {cells s : List UInt8} (h : Spells cells s) :
    cells.take s.length = s := by
  obtain ⟨-, junk, rfl⟩ := h
  exact List.take_left

theorem Spells.getElem? {cells s t : List UInt8} {c : UInt8} (h : Spells cells (s ++ c :: t)) :
    cells[s.length]? = some c := by
  obtain ⟨-, junk, rfl⟩ := h
  simp

/-- Behind the last character of a string is its NUL. -/
theorem Spells.getElem?_length {cells s : List UInt8} (h : Spells cells s) :
    cells[s.length]? = some 0 := by
  obtain ⟨-, junk, rfl⟩ := h
  simp

/-! ### Reading and writing -/

/-- The index of an array that an `int` offset points to. -/
def index (i : ℤ) : Except Fault ℕ := if 0 ≤ i then .ok i.toNat else .error (.write i)

/-- `a[i]`. -/
def read (a : List UInt8) (i : ℕ) : Except Fault UInt8 :=
  match a[i]? with
  | some c => .ok c
  | none => .error .read

/-- `a[i] = c`. -/
def write (a : Vector UInt8 n) (i : ℕ) (c : UInt8) : Except Fault (Vector UInt8 n) :=
  if h : i < n then .ok (a.set i c h) else .error (.write i)

/-- `a[i] = c₀; a[i+1] = c₁; …`. -/
def writeAll (a : Vector UInt8 n) (i : ℕ) : List UInt8 → Except Fault (Vector UInt8 n)
  | [] => .ok a
  | c :: s => do
      let a ← write a i c
      writeAll a (i + 1) s

theorem index_eq_ok {i : ℤ} {k : ℕ} (h : i = k) : index i = .ok k := by
  subst h
  rw [index, if_pos (Int.natCast_nonneg k), Int.toNat_natCast]

theorem read_eq_ok {a : List UInt8} {i : ℕ} {c : UInt8} (h : a[i]? = some c) :
    read a i = .ok c := by
  unfold read
  rw [h]

theorem write_eq_ok (a : Vector UInt8 n) {i : ℕ} (h : i < n) (c : UInt8) :
    write a i c = .ok (a.set i c h) := dif_pos h

theorem write_eq_error (a : Vector UInt8 n) {i : ℕ} (h : n ≤ i) (c : UInt8) :
    write a i c = .error (.write i) := dif_neg (by omega)

theorem read_ne_loop (a : List UInt8) (i : ℕ) : read a i ≠ .error .loop := by
  unfold read
  split <;> simp

theorem write_ne_loop (a : Vector UInt8 n) (i : ℕ) (c : UInt8) : write a i c ≠ .error .loop := by
  unfold write
  split_ifs <;> simp

theorem writeAll_singleton (a : Vector UInt8 n) (i : ℕ) (c : UInt8) :
    writeAll a i [c] = write a i c := by
  rw [writeAll]
  cases write a i c <;> rfl

theorem writeAll_append (a : Vector UInt8 n) (i : ℕ) (s t : List UInt8) :
    writeAll a i (s ++ t) = writeAll a i s >>= fun a => writeAll a (i + s.length) t := by
  induction s generalizing a i with
  | nil => rfl
  | cons c s ih =>
      rw [List.cons_append, writeAll, writeAll, List.length_cons]
      by_cases hi : i < n
      · rw [write_eq_ok a hi, ok_bind, ok_bind, ih]
        have e : i + 1 + s.length = i + (s.length + 1) := by omega
        rw [e]
      · rw [write_eq_error a (by omega), error_bind, error_bind, error_bind]

/-- Consecutive writes inside the array replace a part of it. -/
theorem writeAll_eq_ok (a : Vector UInt8 n) {i : ℕ} {s : List UInt8} (h : i + s.length ≤ n) :
    ∃ b, writeAll a i s = .ok b ∧
      b.toList = a.toList.take i ++ s ++ a.toList.drop (i + s.length) := by
  induction s generalizing a i with
  | nil => exact ⟨a, rfl, by simp⟩
  | cons c s ih =>
      rw [List.length_cons] at h
      obtain ⟨b, hb, hcells⟩ := ih (a.set i c (by omega)) (i := i + 1) (by omega)
      refine ⟨b, ?_, ?_⟩
      · rw [writeAll, write_eq_ok a (by omega), ok_bind, hb]
      · have hlen : i < a.toList.length := by
          rw [Vector.length_toList]
          omega
        have htake : (a.toList.set i c).take (i + 1) = a.toList.take i ++ [c] := by
          rw [List.take_succ_eq_append_getElem (by simpa using hlen), List.getElem_set_self,
            List.take_set_of_le (Nat.le_refl i)]
        have e : i + 1 + s.length = i + (s.length + 1) := by omega
        rw [hcells, Vector.toList_set, htake, List.drop_set_of_lt (by omega), List.length_cons, e]
        simp only [List.append_assoc, List.cons_append, List.nil_append]

/-- Consecutive writes that go on behind the array stop at its end. -/
theorem writeAll_eq_error (a : Vector UInt8 n) {i : ℕ} {s : List UInt8} (hi : i ≤ n)
    (h : n < i + s.length) : writeAll a i s = .error (.write n) := by
  induction s generalizing a i with
  | nil =>
      rw [List.length_nil] at h
      omega
  | cons c s ih =>
      rw [List.length_cons] at h
      rw [writeAll]
      by_cases hlt : i < n
      · rw [write_eq_ok a hlt, ok_bind]
        exact ih _ (by omega) (by omega)
      · obtain rfl : i = n := by omega
        rw [write_eq_error a (Nat.le_refl i), error_bind]

end CharArray
