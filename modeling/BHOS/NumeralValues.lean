import BHOS.Numerals

/-! # Reading numbers back (`string.c`)

`value` reads the characters of a numeral as a number.  What `num2hexstr` and `uintTostring` return
has the value of their argument, and numerals of the same form with the same value are the same
(`hex8_value`, `Canonical.eq_decimal`), so nothing else could have been returned.

For `strrevers` the two indices are followed through the loop: `reversTests` are their values at
the tests of its condition.  The `int` variables are integers here.  None of them leaves the range
from -1 to the length of the string, so an `int` holds them for every string in an array of less
than 2 GiB. -/

namespace BHOS

open CharArray

/-! ### Values -/

/-- The hexadecimal digits; the decimal ones are the first ten. -/
def hexDigits : List UInt8 :=
  ascii ['0', '1', '2', '3', '4', '5', '6', '7', '8', '9', 'A', 'B', 'C', 'D', 'E', 'F']

/-- The digit of a character. -/
def digitValue (c : UInt8) : ℕ := if c ≤ 57 then c.toNat - 48 else c.toNat - 55

/-- The number that a numeral in base `b` stands for. -/
def value (b : ℕ) (s : List UInt8) : ℕ := Nat.ofDigits b (s.map digitValue).reverse

theorem digitValue_digitChar : ∀ d < 16, digitValue (digitChar d) = d := by decide

theorem mem_hexDigits {c : UInt8} : c ∈ hexDigits ↔ ∃ d < 16, digitChar d = c := by
  have e : hexDigits = (List.range 16).map digitChar := by decide
  rw [e, List.mem_map]
  simp only [List.mem_range]

theorem mem_i2stable {c : UInt8} : c ∈ i2stable ↔ ∃ d < 10, digitChar d = c := by
  have e : i2stable = (List.range 10).map digitChar := by decide
  rw [e, List.mem_map]
  simp only [List.mem_range]

theorem mem_hexDigits_of_mem_i2stable {c : UInt8} (h : c ∈ i2stable) : c ∈ hexDigits := by
  obtain ⟨d, hd, e⟩ := mem_i2stable.mp h
  exact mem_hexDigits.mpr ⟨d, hd.trans (by decide), e⟩

theorem digitValue_lt {c : UInt8} (h : c ∈ hexDigits) : digitValue c < 16 := by
  obtain ⟨d, hd, rfl⟩ := mem_hexDigits.mp h
  rwa [digitValue_digitChar d hd]

theorem digitValue_lt_ten {c : UInt8} (h : c ∈ i2stable) : digitValue c < 10 := by
  obtain ⟨d, hd, rfl⟩ := mem_i2stable.mp h
  rwa [digitValue_digitChar d (hd.trans (by decide))]

theorem digitChar_digitValue {c : UInt8} (h : c ∈ hexDigits) : digitChar (digitValue c) = c := by
  obtain ⟨d, hd, rfl⟩ := mem_hexDigits.mp h
  rw [digitValue_digitChar d hd]

/-- The first character of a numeral counts most. -/
theorem value_cons (b : ℕ) (c : UInt8) (s : List UInt8) :
    value b (c :: s) = digitValue c * b ^ s.length + value b s := by
  unfold value
  rw [List.map_cons, Nat.ofDigits_reverse_cons, List.length_map]
  ring

theorem value_numeral {b : ℕ} (hb : 1 < b) (hb' : b ≤ 16) (k : ℕ) : value b (numeral b k) = k := by
  have hdigits : (Nat.digits b k).map (digitValue ∘ digitChar) = Nat.digits b k := by
    conv_rhs => rw [← List.map_id (Nat.digits b k)]
    apply List.map_congr_left
    intro d hd
    exact digitValue_digitChar d ((Nat.digits_lt_base hb hd).trans_le hb')
  unfold value numeral
  rw [List.map_reverse, List.reverse_reverse, List.map_map, hdigits, Nat.ofDigits_digits]

/-- Zeros in front do not count. -/
theorem value_replicate_append (b n : ℕ) (s : List UInt8) :
    value b (List.replicate n 48 ++ s) = value b s := by
  induction n with
  | zero => rfl
  | succ n ih =>
      have h0 : digitValue 48 = 0 := by decide
      rw [List.replicate_succ, List.cons_append, value_cons, ih, h0, Nat.zero_mul, Nat.zero_add]

theorem map_digitChar {s : List UInt8} (hs : ∀ c ∈ s, c ∈ hexDigits) :
    (s.map digitValue).map digitChar = s := by
  rw [List.map_map]
  conv_rhs => rw [← List.map_id s]
  exact List.map_congr_left fun c hc => digitChar_digitValue (hs c hc)

theorem map_digitValue_inj {s t : List UInt8} (hs : ∀ c ∈ s, c ∈ hexDigits)
    (ht : ∀ c ∈ t, c ∈ hexDigits) (h : s.map digitValue = t.map digitValue) : s = t := by
  rw [← map_digitChar hs, ← map_digitChar ht, h]

/-! ### Hexadecimal -/

theorem mem_hexDigits_of_mem_hex8 {k : ℕ} : ∀ c ∈ hex8 k, c ∈ hexDigits := by
  intro c hc
  rw [hex8_eq] at hc
  rcases List.mem_append.mp hc with hc | hc
  · exact mem_hexDigits.mpr ⟨0, by decide, (List.mem_replicate.mp hc).2.symm⟩
  · exact mem_hexDigits.mpr (mem_numeral (by decide) hc)

theorem value_hex8 (k : ℕ) : value 16 (hex8 k) = k := by
  rw [hex8_eq, value_replicate_append, value_numeral (by decide) (by decide)]

/-- Eight digits are the rendering of their value. -/
theorem hex8_value {s : List UInt8} (hs : ∀ c ∈ s, c ∈ hexDigits) (hlen : s.length = 8) :
    hex8 (value 16 s) = s := by
  have hdigit : ∀ t : List UInt8, (∀ c ∈ t, c ∈ hexDigits) →
      ∀ d ∈ (t.map digitValue).reverse, d < 16 := by
    intro t ht d hd
    obtain ⟨c, hc, rfl⟩ := List.mem_map.mp (List.mem_reverse.mp hd)
    exact digitValue_lt (ht c hc)
  have hlt : value 16 s < 16 ^ 8 := by
    have h := Nat.ofDigits_lt_base_pow_length (by decide) (hdigit s hs)
    rwa [List.length_reverse, List.length_map, hlen] at h
  have hnum : (numeral 16 (value 16 s)).length ≤ 8 := numeral_length_le (by decide) hlt
  have hlen' : (hex8 (value 16 s)).length = s.length := by
    rw [hex8_eq, List.length_append, List.length_replicate, hlen]
    omega
  apply map_digitValue_inj mem_hexDigits_of_mem_hex8 hs
  apply List.reverse_injective
  apply Nat.ofDigits_inj_of_len_eq (b := 16) (by decide)
  · rw [List.length_reverse, List.length_reverse, List.length_map, List.length_map, hlen']
  · exact hdigit _ mem_hexDigits_of_mem_hex8
  · exact hdigit s hs
  · exact value_hex8 (value 16 s)

/-- For every base from 2 on the recursion of `func` ends, in an array of any length: the number
has lost one binary digit at least in every call. -/
theorem func_ends {k : ℕ} (calls : ℕ) (s : Vector UInt8 k) (n i : UInt32) (hi : 2 ≤ i.toNat)
    (hn : n.toNat < 2 ^ calls) : func (calls + 1) s n i ≠ .error .loop := by
  induction calls generalizing n with
  | zero =>
      have hn0 : n = 0 := UInt32.toNat_inj.mp (by simpa using hn)
      rw [func, if_pos hn0]
      exact strcpy_ne_loop s 0 [0]
  | succ calls ih =>
      rw [func]
      by_cases hn0 : n = 0
      · rw [if_pos hn0]
        exact strcpy_ne_loop s 0 [0]
      · have hdiv : (n / i).toNat < 2 ^ calls := by
          rw [UInt32.toNat_div, Nat.div_lt_iff_lt_mul (by omega)]
          calc n.toNat < 2 ^ calls * 2 := by rwa [← pow_succ]
            _ ≤ 2 ^ calls * i.toNat := Nat.mul_le_mul_left _ hi
        rw [if_neg hn0]
        refine bind_ne_loop (ih (n / i) hdiv) fun s => ?_
        refine bind_ne_loop (strlen_ne_loop s.toList) fun len => ?_
        refine bind_ne_loop (read_ne_loop _ _) fun c => ?_
        exact bind_ne_loop (write_ne_loop s len c) fun s => write_ne_loop s (len + 1) 0

/-- **Hexadecimal numbers**: `num2hexstr` returns eight digits with the value of the number taken as
unsigned, behind `0x` if that is wanted, whatever `static_hexstr` held before; it writes inside its
arrays only, and the recursion of `func` ends. -/
theorem num2hexstr_renders (number : Int32) (need0x : Bool) :
    ∃ digits : List UInt8, digits.length = 8 ∧ (∀ c ∈ digits, c ∈ hexDigits) ∧
      value 16 digits = number.toUInt32.toNat ∧
      (∀ staticHexstr : Vector UInt8 11, ∃ cells b,
        num2hexstr number.toUInt32 need0x staticHexstr = .ok (cells, b) ∧
          Spells cells ((if need0x then ascii ['0', 'x'] else []) ++ digits)) ∧
      ∀ {k : ℕ} (s : Vector UInt8 k), func 33 s number.toUInt32 16 ≠ .error .loop :=
  ⟨hex8 number.toUInt32.toNat, hex8_length _, mem_hexDigits_of_mem_hex8, value_hex8 _,
    num2hexstr_eq number.toUInt32 need0x,
    fun s => func_ends 32 s _ 16 (by decide) (UInt32.toNat_lt _)⟩

/-! ### Decimal -/

/-- Decimal digits with no zero in front, unless the numeral is `0`. -/
structure Canonical (s : List UInt8) : Prop where
  digits : ∀ c ∈ s, c ∈ i2stable
  nonempty : s ≠ []
  lead : s.head? = some 48 → s = [48]

theorem numeral_head {b k : ℕ} (hb : 1 < b) (hb' : b ≤ 16) : (numeral b k).head? ≠ some 48 := by
  intro h
  unfold numeral at h
  rw [List.head?_reverse, List.getLast?_map, Option.map_eq_some_iff] at h
  obtain ⟨d, hd, e⟩ := h
  have hne : Nat.digits b k ≠ [] := by
    intro hnil
    rw [hnil] at hd
    cases hd
  have hlast := Nat.getLast_digit_ne_zero b (Nat.digits_ne_nil_iff_ne_zero.mp hne)
  rw [List.getLast?_eq_some_getLast hne, Option.some.injEq] at hd
  have hlt := (Nat.digits_lt_base hb (hd ▸ List.getLast_mem hne)).trans_le hb'
  have h0 : digitValue 48 = 0 := by decide
  rw [hd, ← digitValue_digitChar d hlt, e, h0] at hlast
  exact hlast rfl

theorem canonical_decimal (k : ℕ) : Canonical (decimal k) := by
  unfold decimal
  by_cases hk : k = 0
  · rw [if_pos hk]
    refine ⟨?_, by decide, fun _ => rfl⟩
    intro c hc
    exact mem_i2stable.mpr ⟨0, by decide, (List.mem_singleton.mp hc).symm⟩
  · rw [if_neg hk]
    refine ⟨?_, ?_, fun h => absurd h (numeral_head (by decide) (by decide))⟩
    · intro c hc
      exact mem_i2stable.mpr (mem_numeral (by decide) hc)
    · intro hnil
      unfold numeral at hnil
      rw [List.reverse_eq_nil_iff, List.map_eq_nil_iff] at hnil
      exact Nat.digits_ne_nil_iff_ne_zero.mpr hk hnil

theorem value_decimal (k : ℕ) : value 10 (decimal k) = k := by
  unfold decimal
  by_cases hk : k = 0
  · rw [if_pos hk, hk]
    decide
  · rw [if_neg hk, value_numeral (by decide) (by decide)]

/-- A numeral in this form is the rendering of its value. -/
theorem Canonical.eq_decimal {s : List UInt8} (h : Canonical s) : decimal (value 10 s) = s := by
  by_cases hlead : s.head? = some 48
  · rw [h.lead hlead]
    decide
  have hdigits : Nat.digits 10 (value 10 s) = (s.map digitValue).reverse := by
    apply Nat.digits_ofDigits 10 (by decide)
    · intro d hd
      obtain ⟨c, hc, rfl⟩ := List.mem_map.mp (List.mem_reverse.mp hd)
      exact digitValue_lt_ten (h.digits c hc)
    · obtain ⟨c, s, rfl⟩ := List.exists_cons_of_ne_nil h.nonempty
      intro hne e
      have hc := mem_hexDigits_of_mem_i2stable (h.digits c List.mem_cons_self)
      have h0 : digitValue c = 0 := by simpa using e
      have h48 : c = 48 := by
        rw [← digitChar_digitValue hc, h0]
        rfl
      exact hlead (congrArg some h48)
  have hne : value 10 s ≠ 0 := by
    intro e
    rw [e, Nat.digits_zero] at hdigits
    exact h.nonempty (by simpa using hdigits.symm)
  unfold decimal numeral
  rw [if_neg hne, hdigits, List.map_reverse, List.reverse_reverse]
  exact map_digitChar fun c hc => mem_hexDigits_of_mem_i2stable (h.digits c hc)

/-! ### Reversing -/

/-- The two indices at the tests of the condition of the loop of `strrevers`. -/
def reversTests : ℕ → ℤ → ℤ → List (ℤ × ℤ)
  | 0, _, _ => []
  | k + 1, ptrH, ptrT =>
      (ptrH, ptrT) :: if ptrH < ptrT then reversTests k (ptrH + 1) (ptrT - 1) else []

/-- The indices of a loop over `len` characters from `start` on: in its rounds they stand at two
different characters, and at its last test they have met. -/
structure Meets (start : ℤ) (len : ℕ) (rounds : List (ℤ × ℤ)) (last : ℤ × ℤ) : Prop where
  inside : ∀ p ∈ rounds, start ≤ p.1 ∧ p.1 < p.2 ∧ p.2 < start + len
  met : last.1 = last.2 ∨ last.1 = last.2 + 1
  last_inside : start ≤ last.1 ∧ last.2 < start + len

/-- The loop swaps characters at the indices of its tests but the last. -/
theorem reversLoop_meets {n : ℕ} (k : ℕ) (start : ℤ) (len : ℕ) (hk : len < k) :
    ∃ rounds last, reversTests k start (start + len - 1) = rounds ++ [last] ∧
      Meets start len rounds last ∧ ∀ str : Vector UInt8 n,
        reversLoop k str start (start + len - 1) =
          rounds.foldlM (fun str p => swapChars str p.1 p.2) str := by
  induction k generalizing start len with
  | zero => omega
  | succ k ih =>
      rw [reversTests]
      by_cases hlt : start < start + len - 1
      · -- two characters are taken off
        obtain ⟨rounds, last, htests, hm, hloop⟩ := ih (start + 1) (len - 2) (by omega)
        have e : start + 1 + ((len - 2 : ℕ) : ℤ) - 1 = start + len - 1 - 1 := by omega
        rw [e] at htests hloop
        refine ⟨(start, start + len - 1) :: rounds, last, ?_, ⟨?_, hm.met, ?_⟩, fun str => ?_⟩
        · rw [if_pos hlt, htests, List.cons_append]
        · intro p hp
          rcases List.mem_cons.mp hp with rfl | hp
          · exact ⟨le_rfl, hlt, by omega⟩
          · have h := hm.inside p hp
            omega
        · have h := hm.last_inside
          omega
        · rw [reversLoop_succ, if_pos hlt, List.foldlM_cons]
          congr 1
          funext str
          exact hloop str
      · refine ⟨[], (start, start + len - 1), ?_, ⟨nofun, ?_, ?_⟩, fun str => ?_⟩
        · rw [if_neg hlt, List.nil_append]
        · omega
        · omega
        · rw [reversLoop_succ, if_neg hlt]
          rfl

theorem strrevers_meets {n : ℕ} {str : Vector UInt8 n} {s : List UInt8}
    (h : Spells str.toList s) :
    ∃ rounds last, reversTests (n + 1) 0 (s.length - 1) = rounds ++ [last] ∧
      Meets 0 s.length rounds last ∧
      strrevers str = rounds.foldlM (fun str p => swapChars str p.1 p.2) str := by
  have hlt := h.length_lt
  rw [Vector.length_toList] at hlt
  obtain ⟨rounds, last, htests, hm, hloop⟩ := reversLoop_meets (n := n) (n + 1) 0 s.length
    (by omega)
  rw [zero_add] at htests hloop
  refine ⟨rounds, last, htests, hm, ?_⟩
  unfold strrevers
  rw [strlen_eq h, ok_bind]
  exact hloop str

/-- **Decimal numbers**: `uintTostring` returns the one numeral in canonical form that has the value
of its number, whatever its array held before; `strrevers` reverses every string in place, and its
indices meet inside the string. -/
theorem uintTostring_renders (num : UInt32) {n : ℕ} {str : Vector UInt8 n} {s : List UInt8}
    (h : Spells str.toList s) :
    (∃ digits, Canonical digits ∧ value 10 digits = num.toNat ∧
      (∀ t, Canonical t → value 10 t = num.toNat → t = digits) ∧
      ∀ m : Vector UInt8 32, ∃ b, uintTostring num m = .ok b ∧ Spells b.toList digits) ∧
    (∃ b, strrevers str = .ok b ∧ b.toList = s.reverse ++ str.toList.drop s.length) ∧
    ∃ rounds last, reversTests (n + 1) 0 (s.length - 1) = rounds ++ [last] ∧
      Meets 0 s.length rounds last ∧
      strrevers str = rounds.foldlM (fun str p => swapChars str p.1 p.2) str := by
  refine ⟨⟨decimal num.toNat, canonical_decimal _, value_decimal _, ?_, uintTostring_eq num⟩,
    strrevers_eq str h, strrevers_meets h⟩
  intro t ht hv
  rw [← hv, ht.eq_decimal]

/-- The largest number, and the string `abc`. -/
theorem uintTostring_renders_abc :
    (∃ digits, Canonical digits ∧ value 10 digits = 4294967295) ∧
      ∃ b, strrevers #v[97, 98, 99, 0] = .ok b ∧ b.toList = [99, 98, 97, 0] := by
  have habc : Spells (#v[97, 98, 99, 0] : Vector UInt8 4).toList [97, 98, 99] :=
    spells_append_nul (by decide) []
  obtain ⟨⟨digits, hd, hv, -, -⟩, hrev, -⟩ := uintTostring_renders 4294967295 habc
  exact ⟨⟨digits, hd, hv⟩, hrev⟩

end BHOS
