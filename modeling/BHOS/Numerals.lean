import Mathlib.Data.Nat.Digits.Lemmas
import BHOS.Strings

/-! # Numbers as strings (`string.c`)

`num2hexstr` renders a number with eight hexadecimal digits, `uintTostring` in decimal.  Both work
in a static array of their own, which they return; what an earlier call left in it does not
matter.  The first gets its digits from a recursion (`func`), the second from a loop that writes
the last digit first and then reverses the string in place (`strrevers`). -/

namespace BHOS

open CharArray

/-! ### Numerals -/

/-- The character of a digit. -/
def digitChar (d : ℕ) : UInt8 := UInt8.ofNat (if d < 10 then 48 + d else 55 + d)

/-- The digits of a number in base `b`, the first one not 0; none for the number 0. -/
def numeral (b k : ℕ) : List UInt8 := ((Nat.digits b k).map digitChar).reverse

/-- The decimal numeral. -/
def decimal (k : ℕ) : List UInt8 := if k = 0 then ascii ['0'] else numeral 10 k

/-- The hexadecimal numeral filled up with zeros to eight digits. -/
def hex8 (k : ℕ) : List UInt8 := List.leftpad 8 48 (numeral 16 k)

theorem numeral_zero (b : ℕ) : numeral b 0 = [] := by simp [numeral]

theorem numeral_step {b k : ℕ} (hb : 1 < b) (hk : k ≠ 0) :
    numeral b k = numeral b (k / b) ++ [digitChar (k % b)] := by
  unfold numeral
  rw [Nat.digits_def' hb (Nat.pos_of_ne_zero hk), List.map_cons, List.reverse_cons]

theorem numeral_length_le {b k l : ℕ} (hb : 1 < b) (hk : k < b ^ l) :
    (numeral b k).length ≤ l := by
  unfold numeral
  rw [List.length_reverse, List.length_map]
  exact (Nat.digits_length_le_iff hb k).mpr hk

theorem digitChar_ne_zero : ∀ d < 16, digitChar d ≠ 0 := by decide

theorem mem_numeral {b k : ℕ} {c : UInt8} (hb : 1 < b) (h : c ∈ numeral b k) :
    ∃ d < b, digitChar d = c := by
  obtain ⟨d, hd, e⟩ := List.mem_map.mp (List.mem_reverse.mp h)
  exact ⟨d, Nat.digits_lt_base hb hd, e⟩

theorem zero_notMem_numeral {b k : ℕ} (hb : 1 < b) (hb' : b ≤ 16) : 0 ∉ numeral b k := by
  intro h
  obtain ⟨d, hd, e⟩ := mem_numeral hb h
  exact digitChar_ne_zero d (hd.trans_le hb') e

theorem decimal_of_lt {k : ℕ} (h : k < 10) : decimal k = [digitChar k] := by
  unfold decimal
  by_cases hk : k = 0
  · subst hk
    rfl
  · rw [if_neg hk, numeral_step (by decide) hk, Nat.div_eq_of_lt h, numeral_zero,
      Nat.mod_eq_of_lt h, List.nil_append]

theorem decimal_of_ge {k : ℕ} (h : 10 ≤ k) :
    decimal k = decimal (k / 10) ++ [digitChar (k % 10)] := by
  unfold decimal
  rw [if_neg (by omega), if_neg (by omega), numeral_step (by decide) (by omega)]

theorem zero_notMem_decimal (k : ℕ) : 0 ∉ decimal k := by
  unfold decimal
  split_ifs
  · decide
  · exact zero_notMem_numeral (by decide) (by decide)

theorem decimal_length_le (num : UInt32) : (decimal num.toNat).length ≤ 10 := by
  have hlt := num.toNat_lt
  unfold decimal
  split_ifs
  · decide
  · exact numeral_length_le (by decide) (by omega)

theorem hexLength_le (number : UInt32) : (numeral 16 number.toNat).length ≤ 8 := by
  have hlt := number.toNat_lt
  exact numeral_length_le (by decide) (by omega)

theorem hex8_eq (k : ℕ) :
    hex8 k = List.replicate (8 - (numeral 16 k).length) 48 ++ numeral 16 k := rfl

theorem zero_notMem_hex8 (k : ℕ) : 0 ∉ hex8 k := by
  rw [hex8_eq, List.mem_append, not_or]
  refine ⟨fun h => absurd (List.mem_replicate.mp h).2 (by decide), ?_⟩
  exact zero_notMem_numeral (by decide) (by decide)

theorem hex8_length (number : UInt32) : (hex8 number.toNat).length = 8 := by
  have hlen := hexLength_le number
  rw [hex8_eq, List.length_append, List.length_replicate]
  omega

/-! ### Hexadecimal -/

/-- The table `bit` of `func`, with its NUL. -/
def bit : List UInt8 :=
  ascii ['0', '1', '2', '3', '4', '5', '6', '7', '8', '9', 'A', 'B', 'C', 'D', 'E', 'F'] ++ [0]

/-- `func`, with at most the given number of nested calls.  The division and the remainder of the
`int` by the unsigned base are unsigned.  The returned value is not used. -/
def func {k : ℕ} : ℕ → Vector UInt8 k → UInt32 → UInt32 → Except Fault (Vector UInt8 k)
  | 0, _, _, _ => .error .loop
  | calls + 1, s, n, i =>
      if n = 0 then strcpy s 0 [0]
      else do
        let s ← func calls s (n / i) i
        let len ← strlen s.toList
        let c ← read bit (n % i).toNat
        let s ← write s len c
        write s (len + 1) 0

/-- `num2hexstr`: the string it returns and what it leaves in `static_hexstr`. -/
def num2hexstr (number : UInt32) (need0x : Bool) (staticHexstr : Vector UInt8 11) :
    Except Fault (List UInt8 × Vector UInt8 11) :=
  if number ≠ 0 then do
    let staticHexstr ← write staticHexstr 0 48
    let staticHexstr ← write staticHexstr 1 120
    let tempArry ← func 33 (Vector.replicate 9 0) number 16
    let tempArry2 ← strcpy (Vector.replicate 9 0) 0 tempArry.toList
    let len ← strlen tempArry.toList
    let offset ← index (8 - len)
    let tempArry ← strcpy tempArry offset tempArry2.toList
    -- the loop that fills up with zeros
    let tempArry ← writeAll tempArry 0 (List.replicate offset 48)
    let staticHexstr ← strcpy staticHexstr (if need0x then 2 else 0) tempArry.toList
    .ok (staticHexstr.toList, staticHexstr)
  else
    .ok (ascii (if need0x then ['0', 'x', '0', '0', '0', '0', '0', '0', '0', '0']
      else ['0', '0', '0', '0', '0', '0', '0', '0']) ++ [0], staticHexstr)

theorem read_bit : ∀ d < 16, read bit d = .ok (digitChar d) := by decide

/-- `func` writes the digits of its number. -/
theorem func_eq {k : ℕ} (calls : ℕ) (s : Vector UInt8 k) (n : UInt32)
    (hcalls : (numeral 16 n.toNat).length < calls) (hk : (numeral 16 n.toNat).length < k) :
    ∃ b, func calls s n 16 = .ok b ∧ Spells b.toList (numeral 16 n.toNat) := by
  induction calls generalizing n with
  | zero => omega
  | succ calls ih =>
      rw [func]
      by_cases hn : n = 0
      · subst hn
        rw [if_pos rfl, UInt32.toNat_zero, numeral_zero]
        exact strcpy_spells s (t := []) (spells_nil []) List.not_mem_nil rfl
          (by simpa [numeral_zero] using hk)
      · have hn' : n.toNat ≠ 0 := fun e => hn (UInt32.toNat_inj.mp e)
        have hstep := numeral_step (b := 16) (by decide) hn'
        rw [hstep] at hcalls hk ⊢
        simp only [List.length_append, List.length_singleton] at hcalls hk
        have hdiv : (n / 16).toNat = n.toNat / 16 := UInt32.toNat_div n 16
        have hmod : (n % 16).toNat = n.toNat % 16 := UInt32.toNat_mod n 16
        have hlt := Nat.mod_lt n.toNat (by decide : 16 > 0)
        obtain ⟨b, hb, hs⟩ := ih (n / 16) (by rw [hdiv]; omega) (by rw [hdiv]; omega)
        rw [hdiv] at hs
        rw [if_neg hn, hb, ok_bind, strlen_eq hs, ok_bind, hmod, read_bit _ hlt, ok_bind]
        -- the digit and the NUL behind it are one `writeAll`
        have hc : 0 ∉ [digitChar (n.toNat % 16)] :=
          fun h => digitChar_ne_zero _ hlt (List.mem_singleton.mp h).symm
        obtain ⟨b', hb', hs'⟩ := spells_writeAll b hs.1 hc hs.take_length
          (by rw [List.length_singleton]; omega)
        refine ⟨b', ?_, hs'⟩
        rw [← hb', List.singleton_append, writeAll]
        simp only [writeAll_singleton]

/-- The digits are moved to the end of the array and zeros are written in front of them. -/
theorem padded_eq (a : Vector UInt8 9) (number : UInt32) :
    ∃ b c, writeAll a (8 - (numeral 16 number.toNat).length) (numeral 16 number.toNat ++ [0]) =
        .ok b ∧
      writeAll b 0 (List.replicate (8 - (numeral 16 number.toNat).length) 48) = .ok c ∧
      Spells c.toList (hex8 number.toNat) := by
  have hD := hexLength_le number
  have hex := hex8_eq number.toNat
  generalize hoffset : 8 - (numeral 16 number.toNat).length = offset at hex ⊢
  have hlen : offset + (numeral 16 number.toNat ++ [0]).length = 9 := by
    rw [List.length_append, List.length_singleton]
    omega
  obtain ⟨b, hb, hcb⟩ := writeAll_eq_ok a (i := offset) hlen.le
  obtain ⟨c, hc, hcc⟩ := writeAll_eq_ok b (i := 0) (s := List.replicate offset 48)
    (by rw [List.length_replicate]; omega)
  refine ⟨b, c, hb, hc, zero_notMem_hex8 _, a.toList.drop 9, ?_⟩
  have htake : (a.toList.take offset).length = offset := by
    rw [List.length_take, Vector.length_toList]
    omega
  rw [hcc, hcb, hlen, hex, List.take_zero, List.nil_append, Nat.zero_add, List.length_replicate,
    List.append_assoc (a.toList.take offset), List.drop_left' htake]
  simp only [List.append_assoc, List.cons_append, List.nil_append]

/-- `num2hexstr` renders its number with eight digits. -/
theorem num2hexstr_eq (number : UInt32) (need0x : Bool) (staticHexstr : Vector UInt8 11) :
    ∃ cells b, num2hexstr number need0x staticHexstr = .ok (cells, b) ∧
      Spells cells ((if need0x then ascii ['0', 'x'] else []) ++ hex8 number.toNat) := by
  unfold num2hexstr
  by_cases hz : number = 0
  · subst hz
    refine ⟨_, staticHexstr, if_neg (not_not_intro rfl), ?_⟩
    cases need0x <;> exact spells_append_nul (by decide) []
  · have hD := hexLength_le number
    obtain ⟨a₁, h₁, hs₁⟩ := func_eq 33 (Vector.replicate 9 0) number (by omega) (by omega)
    obtain ⟨a₂, h₂, hs₂⟩ := strcpy_spells (Vector.replicate 9 0) (d := 0) (t := []) hs₁
      List.not_mem_nil rfl (by omega)
    rw [List.nil_append] at hs₂
    have hoff : (8 - ((numeral 16 number.toNat).length : ℤ)) =
        ((8 - (numeral 16 number.toNat).length : ℕ) : ℤ) := by omega
    obtain ⟨a₃, a₄, h₃, h₄, hs₄⟩ := padded_eq a₁ number
    -- `0x` stays where it is written unless the digits are copied over it
    obtain ⟨b₁, hb₁, hcb₁⟩ := writeAll_eq_ok staticHexstr (i := 0) (s := [48, 120]) (by decide)
    have hwrites : (write staticHexstr 0 48 >>= fun a => write a 1 120) = .ok b₁ := by
      rw [← hb₁, writeAll]
      simp only [writeAll_singleton]
    have hx : b₁.toList.take 2 = [48, 120] := by
      rw [hcb₁, List.take_zero, List.nil_append]
      rfl
    have hlen := hex8_length number
    obtain ⟨b₂, hb₂, hs⟩ : ∃ b₂, strcpy b₁ (if need0x then 2 else 0) a₄.toList = .ok b₂ ∧
        Spells b₂.toList ((if need0x then ascii ['0', 'x'] else []) ++ hex8 number.toNat) := by
      cases need0x with
      | true => exact strcpy_spells b₁ hs₄ (by decide) hx (by rw [hlen]; decide)
      | false => exact strcpy_spells b₁ hs₄ List.not_mem_nil rfl (by rw [hlen]; decide)
    refine ⟨b₂.toList, b₂, ?_, hs⟩
    rw [if_pos hz, ← bind_assoc, hwrites, ok_bind, h₁, ok_bind, h₂, ok_bind, strlen_eq hs₁, ok_bind,
      hoff, index_eq_ok rfl, ok_bind, strcpy_eq_writeAll hs₂, h₃, ok_bind, h₄, ok_bind, hb₂,
      ok_bind]

/-! ### Decimal -/

/-- The table `i2stable`. -/
def i2stable : List UInt8 := ascii ['0', '1', '2', '3', '4', '5', '6', '7', '8', '9']

/-- The loop of `uintTostring` with the assignments behind it. -/
def digitLoop : ℕ → Vector UInt8 32 → ℕ → UInt32 → Except Fault (Vector UInt8 32)
  | 0, _, _, _ => .error .loop
  | k + 1, m, strPtr, num =>
      if num ≥ 10 then do
        let num_ := num / 10
        let index := num - num_ * 10
        let c ← read i2stable index.toNat
        let m ← write m strPtr c
        digitLoop k m (strPtr + 1) num_
      else do
        let c ← read i2stable num.toNat
        let m ← write m strPtr c
        write m (strPtr + 1) 0

/-- The loop of `strrevers`. -/
def reversLoop {n : ℕ} : ℕ → Vector UInt8 n → ℤ → ℤ → Except Fault (Vector UInt8 n)
  | 0, _, _, _ => .error .loop
  | k + 1, str, ptrH, ptrT =>
      if ptrH < ptrT then do
        let t ← index ptrT
        let h ← index ptrH
        let temp ← read str.toList t
        let c ← read str.toList h
        let str ← write str t c
        let str ← write str h temp
        reversLoop k str (ptrH + 1) (ptrT - 1)
      else .ok str

/-- `strrevers`. -/
def strrevers {n : ℕ} (str : Vector UInt8 n) : Except Fault (Vector UInt8 n) := do
  let lenth ← strlen str.toList
  reversLoop (n + 1) str 0 (lenth - 1)

/-- `uintTostring`: the array it returns. -/
def uintTostring (num : UInt32) (m : Vector UInt8 32) : Except Fault (Vector UInt8 32) := do
  let m ← digitLoop 33 m 0 num
  strrevers m

theorem read_i2stable : ∀ d < 10, read i2stable d = .ok (digitChar d) := by decide

/-- The loop stores the numeral backwards. -/
theorem digitLoop_eq_writeAll (k : ℕ) (m : Vector UInt8 32) (strPtr : ℕ) (num : UInt32)
    (hk : (decimal num.toNat).length ≤ k) :
    digitLoop k m strPtr num = writeAll m strPtr ((decimal num.toNat).reverse ++ [0]) := by
  induction k generalizing m strPtr num with
  | zero =>
      by_cases hnum : num.toNat < 10
      · rw [decimal_of_lt hnum, List.length_singleton] at hk
        omega
      · rw [decimal_of_ge (by omega), List.length_append, List.length_singleton] at hk
        omega
  | succ k ih =>
      rw [digitLoop]
      by_cases hnum : num ≥ 10
      · have hnum' : 10 ≤ num.toNat := UInt32.le_iff_toNat_le.mp hnum
        have hdiv : (num / 10).toNat = num.toNat / 10 := UInt32.toNat_div num 10
        have hindex : (num - num / 10 * 10).toNat = num.toNat % 10 := by
          have hlt := num.toNat_lt
          simp only [UInt32.toNat_sub, UInt32.toNat_mul, hdiv, UInt32.reduceToNat]
          omega
        have hstep := decimal_of_ge hnum'
        rw [hstep, List.length_append, List.length_singleton] at hk
        rw [if_pos hnum]
        dsimp only
        rw [hindex, read_i2stable _ (Nat.mod_lt _ (by decide)), ok_bind, hstep,
          List.reverse_append, List.reverse_singleton, List.singleton_append, List.cons_append,
          writeAll]
        congr 1
        funext a
        rw [ih a (strPtr + 1) (num / 10) (by rw [hdiv]; omega), hdiv]
      · have hnum' : num.toNat < 10 := UInt32.lt_iff_toNat_lt.mp (UInt32.not_le.mp hnum)
        rw [if_neg hnum, read_i2stable _ hnum', ok_bind, decimal_of_lt hnum',
          List.reverse_singleton, List.singleton_append, writeAll]
        simp only [writeAll_singleton]

/-- One round of the loop of `strrevers`. -/
def swapChars {n : ℕ} (str : Vector UInt8 n) (ptrH ptrT : ℤ) : Except Fault (Vector UInt8 n) := do
  let t ← index ptrT
  let h ← index ptrH
  let temp ← read str.toList t
  let c ← read str.toList h
  let str ← write str t c
  write str h temp

theorem reversLoop_succ {n : ℕ} (k : ℕ) (str : Vector UInt8 n) (ptrH ptrT : ℤ) :
    reversLoop (k + 1) str ptrH ptrT =
      if ptrH < ptrT then
        swapChars str ptrH ptrT >>= fun str => reversLoop k str (ptrH + 1) (ptrT - 1)
      else .ok str := by
  rw [reversLoop]
  simp only [swapChars, bind_assoc]

/-- Two characters change places, and the part between them stays. -/
theorem swapChars_eq {n : ℕ} (str : Vector UInt8 n) (pre mid post : List UInt8) (x y : UInt8)
    (hstr : str.toList = (pre ++ x :: mid) ++ y :: post) :
    ∃ b, swapChars str pre.length (pre ++ x :: mid).length = .ok b ∧
      b.toList = (pre ++ [y]) ++ mid ++ (x :: post) := by
  have hlen : str.toList.length = n := Vector.length_toList
  rw [hstr] at hlen
  simp only [List.length_append, List.length_cons] at hlen
  have hy : read str.toList (pre ++ x :: mid).length = .ok y := by
    apply read_eq_ok
    rw [hstr]
    simp
  have hx : read str.toList pre.length = .ok x := by
    apply read_eq_ok
    rw [hstr]
    simp
  unfold swapChars
  rw [index_eq_ok rfl, ok_bind, index_eq_ok rfl, ok_bind, hy, ok_bind, hx, ok_bind,
    write_eq_ok _ (by simp only [List.length_append, List.length_cons]; omega), ok_bind,
    write_eq_ok _ (by omega)]
  refine ⟨_, rfl, ?_⟩
  rw [Vector.toList_set, Vector.toList_set, hstr]
  simp

/-- The two indices move over the middle part of the array and reverse it. -/
theorem reversLoop_eq {n : ℕ} (k : ℕ) (str : Vector UInt8 n) (pre mid post : List UInt8)
    (hstr : str.toList = pre ++ mid ++ post) (hk : mid.length < k) :
    ∃ b, reversLoop k str pre.length (pre.length + mid.length - 1) = .ok b ∧
      b.toList = pre ++ mid.reverse ++ post := by
  induction k generalizing str pre mid post with
  | zero => omega
  | succ k ih =>
      rw [reversLoop_succ]
      cases mid with
      | nil =>
          rw [List.length_nil, if_neg (by omega)]
          exact ⟨str, rfl, hstr⟩
      | cons x mid =>
          rcases mid.eq_nil_or_concat' with rfl | ⟨mid, y, rfl⟩
          · rw [List.length_singleton, if_neg (by omega)]
            exact ⟨str, rfl, hstr⟩
          · simp only [List.length_cons, List.length_append, List.length_nil] at hk ⊢
            have ht : (pre.length + ((mid.length + (0 + 1) + 1 : ℕ) : ℤ) - 1) =
                ((pre ++ x :: mid).length : ℤ) := by
              simp only [List.length_append, List.length_cons]
              omega
            obtain ⟨str', hswap, hstr'⟩ := swapChars_eq str pre mid post x y (by rw [hstr]; simp)
            rw [ht, if_pos (by simp only [List.length_append, List.length_cons]; omega), hswap,
              ok_bind]
            -- the ends are swapped: go on with the part between them
            obtain ⟨b, hb, hcells⟩ := ih str' (pre ++ [y]) mid (x :: post) hstr' (by omega)
            refine ⟨b, ?_, ?_⟩
            · rw [← hb]
              congr 1 <;> simp only [List.length_append, List.length_cons, List.length_nil] <;>
                omega
            · rw [hcells]
              simp

/-- `strrevers` reverses the string in an array and leaves what lies behind it. -/
theorem strrevers_eq {n : ℕ} (str : Vector UInt8 n) {s : List UInt8} (h : Spells str.toList s) :
    ∃ b, strrevers str = .ok b ∧ b.toList = s.reverse ++ str.toList.drop s.length := by
  have hlt := h.length_lt
  rw [Vector.length_toList] at hlt
  have hsplit : str.toList = [] ++ s ++ str.toList.drop s.length := by
    rw [List.nil_append]
    conv_lhs => rw [← List.take_append_drop s.length str.toList, h.take_length]
  obtain ⟨b, hb, hcells⟩ := reversLoop_eq (n + 1) str [] s _ hsplit (by omega)
  refine ⟨b, ?_, hcells⟩
  unfold strrevers
  rw [strlen_eq h, ok_bind, ← hb]
  simp

/-- `uintTostring` returns the decimal numeral, whatever its array held before. -/
theorem uintTostring_eq (num : UInt32) (m : Vector UInt8 32) :
    ∃ b, uintTostring num m = .ok b ∧ Spells b.toList (decimal num.toNat) := by
  have hlen := decimal_length_le num
  have hnul := zero_notMem_decimal num.toNat
  have hrev : 0 ∉ (decimal num.toNat).reverse := fun h => hnul (List.mem_reverse.mp h)
  obtain ⟨a, ha, hs⟩ := spells_writeAll m (d := 0) (t := []) List.not_mem_nil hrev rfl
    (by rw [List.length_reverse]; omega)
  rw [List.nil_append] at hs
  obtain ⟨b, hb, hcells⟩ := strrevers_eq a hs
  refine ⟨b, ?_, hnul, ?_⟩
  · unfold uintTostring
    rw [digitLoop_eq_writeAll 33 m 0 num (by omega), ha, ok_bind, hb]
  · obtain ⟨-, junk, hjunk⟩ := hs
    refine ⟨junk, ?_⟩
    rw [hcells, hjunk, List.reverse_reverse, List.drop_left]

end BHOS
