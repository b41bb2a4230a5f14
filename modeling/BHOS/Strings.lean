import Mathlib.Algebra.Order.Ring.Int
import Mathlib.Data.List.Lex
import BHOS.Lib.CharArray

/-! # Strings (`string.c`)

A pointer that is read through is the list of the bytes from there to the end of its array, so
`*p` is the head of the list and `p++` its tail; a pointer that is written through is an array and
an index.  Every function ends on strings that lie inside their arrays, and its specification says
what the array spells then. -/

namespace BHOS

open CharArray

/-- The characters of a NUL-terminated string. -/
structure CStr where
  chars : List UInt8
  nul_notMem : 0 ∉ chars

/-- The bytes from the first character to the NUL. -/
def CStr.cells (s : CStr) : List UInt8 := s.chars ++ [0]

theorem nul_notMem_nil : 0 ∉ ([] : List UInt8) := List.not_mem_nil

theorem CStr.spells (s : CStr) : Spells s.cells s.chars := spells_append_nul s.nul_notMem []

/-- The bytes of a string of ASCII characters. -/
def ascii (s : List Char) : List UInt8 := s.map fun c => UInt8.ofNat c.toNat

variable {n : ℕ}

/-! ### Copying -/

/-- `strlen`. -/
def strlen : List UInt8 → Except Fault ℕ
  | [] => .error .read
  | c :: src =>
      if c ≠ 0 then do
        let i ← strlen src
        .ok (i + 1)
      else .ok 0

/-- `strcpy` to index `d` of an array. -/
def strcpy (dest : Vector UInt8 n) (d : ℕ) : List UInt8 → Except Fault (Vector UInt8 n)
  | [] => .error .read
  | c :: src =>
      if c ≠ 0 then do
        let dest ← write dest d c
        strcpy dest (d + 1) src
      else write dest d 0

/-- `memcpy` to index `d` of an array. -/
def memcpy (dest : Vector UInt8 n) (d : ℕ) : List UInt8 → ℕ → Except Fault (Vector UInt8 n)
  | _, 0 => .ok dest
  | [], _ + 1 => .error .read
  | c :: src, len + 1 => do
      let dest ← write dest d c
      memcpy dest (d + 1) src len

/-- `strcat`; its first loop is that of `strlen`. -/
def strcat (dest : Vector UInt8 n) (src : List UInt8) : Except Fault (Vector UInt8 n) := do
  let pointer ← strlen dest.toList
  strcpy dest pointer src

variable {src s t : List UInt8} {dest : Vector UInt8 n} {d : ℕ}

theorem strlen_eq (h : Spells src s) : strlen src = .ok s.length := by
  induction h using Spells.induction with
  | nul junk => rfl
  | char c src s hc h ih =>
      rw [strlen, if_pos hc, ih]
      rfl

theorem strlen_ne_loop (src : List UInt8) : strlen src ≠ .error .loop := by
  induction src with
  | nil => simp [strlen]
  | cons c src ih =>
      rw [strlen]
      split_ifs
      · exact bind_ne_loop ih fun i => by simp
      · simp

theorem strcpy_ne_loop (dest : Vector UInt8 n) (d : ℕ) (src : List UInt8) :
    strcpy dest d src ≠ .error .loop := by
  induction src generalizing dest d with
  | nil => simp [strcpy]
  | cons c src ih =>
      rw [strcpy]
      split_ifs
      · exact bind_ne_loop (write_ne_loop dest d c) fun dest => ih dest (d + 1)
      · exact write_ne_loop dest d 0

theorem strcpy_eq_writeAll (h : Spells src s) :
    strcpy dest d src = writeAll dest d (s ++ [0]) := by
  induction h using Spells.induction generalizing dest d with
  | nul junk => rw [List.nil_append, strcpy, if_neg (by decide), writeAll_singleton]
  | char c src s hc h ih =>
      rw [List.cons_append, strcpy, if_pos hc, writeAll]
      congr 1
      funext a
      exact ih

theorem memcpy_eq_writeAll (h : Spells src s) :
    memcpy dest d src s.length = writeAll dest d s := by
  induction h using Spells.induction generalizing dest d with
  | nul junk => rw [List.length_nil, memcpy, writeAll]
  | char c src s hc h ih =>
      rw [List.length_cons, memcpy, writeAll]
      congr 1
      funext a
      exact ih

theorem strcat_eq_writeAll (hd : Spells dest.toList t) (h : Spells src s) :
    strcat dest src = writeAll dest t.length (s ++ [0]) := by
  unfold strcat
  rw [strlen_eq hd, ok_bind, strcpy_eq_writeAll h]

/-- A string that is stored with its NUL behind the characters `t` continues them. -/
theorem spells_writeAll (dest : Vector UInt8 n) (ht : 0 ∉ t) (hs : 0 ∉ s)
    (hd : dest.toList.take d = t) (hlen : d + s.length < n) :
    ∃ b, writeAll dest d (s ++ [0]) = .ok b ∧ Spells b.toList (t ++ s) := by
  obtain ⟨b, hb, hcells⟩ := writeAll_eq_ok dest (i := d) (s := s ++ [0])
    (by rw [List.length_append, List.length_singleton]; omega)
  refine ⟨b, hb, fun hn => (List.mem_append.mp hn).elim ht hs,
    dest.toList.drop (d + (s ++ [0]).length), ?_⟩
  rw [hcells, hd]
  simp only [List.append_assoc, List.cons_append, List.nil_append]

theorem strcpy_spells (dest : Vector UInt8 n) (h : Spells src s) (ht : 0 ∉ t)
    (hd : dest.toList.take d = t) (hlen : d + s.length < n) :
    ∃ b, strcpy dest d src = .ok b ∧ Spells b.toList (t ++ s) := by
  rw [strcpy_eq_writeAll h]
  exact spells_writeAll dest ht h.1 hd hlen

/-! ### Comparing -/

/-- `(int)*str`: a `char` is signed. -/
def charInt (c : UInt8) : ℤ := c.toInt8.toInt

/-- `strcmp`.  The test before the answer -1 is the one before the answer 1 once more. -/
def strcmp : List UInt8 → List UInt8 → Except Fault ℤ
  | c₁ :: str1, c₂ :: str2 =>
      if c₁ = 0 ∧ c₂ = 0 then .ok 0
      else if charInt c₁ > charInt c₂ then .ok 1
      else if charInt c₁ > charInt c₂ then .ok (-1)
      else strcmp str1 str2
  | _, _ => .error .read

/-- The values that are compared: those of the characters and of the NUL. -/
def CStr.values (s : CStr) : List ℤ := s.cells.map charInt

theorem charInt_inj {c₁ c₂ : UInt8} (h : charInt c₁ = charInt c₂) : c₁ = c₂ := by
  have h' := congrArg Int8.toUInt8 (Int8.toInt_inj.mp h)
  rwa [UInt8.toUInt8_toInt8, UInt8.toUInt8_toInt8] at h'

theorem CStr.values_inj {a b : CStr} (h : a.values = b.values) : a = b := by
  obtain ⟨a, ha⟩ := a
  obtain ⟨b, hb⟩ := b
  have hcells := List.map_injective_iff.mpr (fun _ _ => charInt_inj) h
  obtain rfl : a = b := List.append_cancel_right hcells
  rfl

/-- `strcmp` on the string `a` and the string `b` ends, whatever lies behind their NULs and also
when nothing does, and its answer is the order of the strings. -/
def Compares (a b : CStr) : Prop :=
  ∃ r, (∀ junk₁ junk₂, strcmp (a.cells ++ junk₁) (b.cells ++ junk₂) = .ok r) ∧
    (r = 0 ↔ a = b) ∧ (r = 1 ↔ b.values < a.values) ∧ (r = -1 ↔ a.values < b.values)

/-- Exchanging the strings changes the sign of the answer. -/
def Antisymmetric (a b : CStr) : Prop :=
  ∃ r, strcmp a.cells b.cells = .ok r ∧ strcmp b.cells a.cells = .ok (-r)

/-- The answer is never -1. -/
theorem strcmp_cases {x y : List UInt8} {r : ℤ} (h : strcmp x y = .ok r) : r = 0 ∨ r = 1 := by
  induction x generalizing y with
  | nil => cases h
  | cons c₁ x ih =>
      cases y with
      | nil => cases h
      | cons c₂ y =>
          rw [strcmp] at h
          split_ifs at h with hnul hgt
          · exact Or.inl (Except.ok.inj h).symm
          · exact Or.inr (Except.ok.inj h).symm
          · exact ih h

theorem strcmp_self (s junk₁ junk₂ : List UInt8) :
    strcmp (s ++ 0 :: junk₁) (s ++ 0 :: junk₂) = .ok 0 := by
  induction s with
  | nil => rfl
  | cons c s ih =>
      rw [List.cons_append, List.cons_append, strcmp]
      by_cases hc : c = 0
      · rw [if_pos ⟨hc, hc⟩]
      · rw [if_neg fun h => hc h.1, if_neg (lt_irrefl _), if_neg (lt_irrefl _), ih]

/-- At the first difference the greater string is found. -/
theorem strcmp_of_lt (hs : 0 ∉ s) (ht : 0 ∉ t) (junk₁ junk₂ : List UInt8)
    (h : (t ++ [0]).map charInt < (s ++ [0]).map charInt) :
    strcmp (s ++ 0 :: junk₁) (t ++ 0 :: junk₂) = .ok 1 := by
  induction s generalizing t with
  | nil =>
      cases t with
      | nil => exact absurd h (lt_irrefl _)
      | cons c t =>
          have hc : c ≠ 0 := fun e => ht (e ▸ List.mem_cons_self)
          have hlt : charInt c < charInt 0 := by
            rcases List.cons_lt_cons_iff.mp h with hlt | ⟨e, -⟩
            · exact hlt
            · exact absurd (charInt_inj e) hc
          rw [List.nil_append, List.cons_append, strcmp, if_neg fun h => hc h.2, if_pos hlt]
  | cons c s ih =>
      have hc : c ≠ 0 := fun e => hs (e ▸ List.mem_cons_self)
      cases t with
      | nil =>
          have hlt : charInt 0 < charInt c := by
            rcases List.cons_lt_cons_iff.mp h with hlt | ⟨e, -⟩
            · exact hlt
            · exact absurd (charInt_inj e).symm hc
          rw [List.nil_append, List.cons_append, strcmp, if_neg fun h => hc h.1, if_pos hlt]
      | cons c' t =>
          rw [List.cons_append, List.cons_append, strcmp, if_neg fun h => hc h.1]
          rcases List.cons_lt_cons_iff.mp h with hlt | ⟨e, hlt⟩
          · rw [if_pos hlt]
          · have hnot : ¬ charInt c > charInt c' := by
              rw [e]
              exact lt_irrefl _
            rw [if_neg hnot, if_neg hnot]
            exact ih (fun hn => hs (List.mem_cons_of_mem c hn))
              (fun hn => ht (List.mem_cons_of_mem c' hn)) hlt

theorem strcmp_greater {a b : CStr} (h : b.values < a.values) (junk₁ junk₂ : List UInt8) :
    strcmp (a.cells ++ junk₁) (b.cells ++ junk₂) = .ok 1 := by
  unfold CStr.cells
  rw [List.append_assoc, List.append_assoc]
  exact strcmp_of_lt a.nul_notMem b.nul_notMem junk₁ junk₂ h

theorem strcmp_equal (a : CStr) (junk₁ junk₂ : List UInt8) :
    strcmp (a.cells ++ junk₁) (a.cells ++ junk₂) = .ok 0 := by
  unfold CStr.cells
  rw [List.append_assoc, List.append_assoc]
  exact strcmp_self a.chars junk₁ junk₂

theorem Compares.not_lt {a b : CStr} (h : Compares a b) : ¬ a.values < b.values := by
  intro hlt
  obtain ⟨r, hrun, -, -, hneg⟩ := h
  rcases strcmp_cases (hrun [] []) with rfl | rfl
  · exact absurd (hneg.mpr hlt) (by decide)
  · exact absurd (hneg.mpr hlt) (by decide)

/-- **`strcmp` compares two strings** exactly when the first is not the smaller one, and exchanging
two strings changes the sign of its answer exactly when they are equal. -/
theorem compares_iff (a b : CStr) :
    (Compares a b ↔ ¬ a.values < b.values) ∧ (Antisymmetric a b ↔ a = b) := by
  have hgreater : ∀ a b : CStr, b.values < a.values → ¬ Antisymmetric b a := by
    rintro a b hlt ⟨r, hba, hab⟩
    have hrun := strcmp_greater hlt [] []
    rw [List.append_nil, List.append_nil, hab] at hrun
    have hr : -r = 1 := Except.ok.inj hrun
    rcases strcmp_cases hba with rfl | rfl
    · exact absurd hr (by decide)
    · exact absurd hr (by decide)
  have hequal := strcmp_equal a [] []
  rw [List.append_nil] at hequal
  rcases lt_trichotomy a.values b.values with hlt | heq | hgt
  · have hne : a ≠ b := fun e => lt_irrefl _ (e ▸ hlt)
    exact ⟨iff_of_false (fun h => h.not_lt hlt) (not_not_intro hlt),
      iff_of_false (hgreater b a hlt) hne⟩
  · obtain rfl := CStr.values_inj heq
    refine ⟨iff_of_true ⟨0, strcmp_equal a, ?_⟩ (lt_irrefl _), iff_of_true ⟨0, hequal, hequal⟩ rfl⟩
    simp
  · have hne : a ≠ b := fun e => lt_irrefl _ (e ▸ hgt)
    refine ⟨iff_of_true ⟨1, strcmp_greater hgt, ?_⟩ (lt_asymm hgt), iff_of_false ?_ hne⟩
    · simp [hne, hgt, lt_asymm hgt]
    · rintro ⟨r, hab, hba⟩
      exact hgreater a b hgt ⟨-r, hba, by rwa [neg_neg]⟩

/-- On `"a"` and `"b"` the first difference is passed over, and then both strings end. -/
theorem not_compares_ab : ¬ Compares ⟨ascii ['a'], by decide⟩ ⟨ascii ['b'], by decide⟩ :=
  fun h => h.not_lt (by decide)

end BHOS
