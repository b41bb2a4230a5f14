import BHOS.Lib.Bytes
import BHOS.PmmInit
import BHOS.PageNumbers
import BHOS.PmmReport

/-! # The page descriptors on the screen (`pmm.c`, `vga_basic.c`)

`page_array` begins at `0xC0000100`, so that `page_array[62784]` begins at `0xC00B8000`, where the
text buffer of the screen begins.  `pmm_page_init` fills the descriptors and the lists of blocks,
prints one line and chains the single pages.  Here the fields of the descriptors from the 62784th on
are the bytes of the text buffer as far as it reaches, which is into descriptor 63117; what the
console writes there is what the allocator reads back.

With up to 62784 pages the lists share out all page numbers.  With more the single pages begin at
page 62464 up to 63488 pages, and the line can overwrite the numbers of those that lie in the text
buffer. -/

namespace BHOS

open Blocks Linked

/-! ### Output behind the cursor -/

namespace Terminal

/-- The cursor of `t'` is `k` cells behind that of `t`, and what is before the cursor of `t` is the
same. -/
structure Behind (k : ℕ) (t t' : Terminal) : Prop where
  col_lt : t'.col < 80
  pos : t'.row * 80 + t'.col = t.row * 80 + t.col + k
  kept : ∀ i, ∀ j < 80, i * 80 + j < t.row * 80 + t.col → t'.screen i j = t.screen i j

variable {t t' t'' : Terminal} {k k' : ℕ} {s : List UInt8}

theorem behind_zero (h : t.col < 80) : Behind 0 t t := ⟨h, rfl, fun _ _ _ _ => rfl⟩

theorem Behind.trans (h : Behind k t t') (h' : Behind k' t' t'') : Behind (k + k') t t'' := by
  have hpos := h.pos
  have hpos' := h'.pos
  refine ⟨h'.col_lt, by omega, fun i j hj hlt => ?_⟩
  rw [h'.kept i j hj (by omega), h.kept i j hj hlt]

theorem behind_put (h : t.col < 80) (v : Cell) : Behind 1 t (t.put v) := by
  have hkept : ∀ i, ∀ j < 80, i * 80 + j < t.row * 80 + t.col →
      (t.put v).screen i j = t.screen i j := fun i j hj hlt => if_neg (by omega)
  by_cases hcol : t.col = 79
  · obtain ⟨hrow', hcol'⟩ := Console.put_of_eq (v := v) hcol
    exact ⟨by omega, by rw [hrow', hcol']; omega, hkept⟩
  · obtain ⟨hrow', hcol'⟩ := Console.put_of_ne (v := v) hcol
    exact ⟨by omega, by rw [hrow', hcol']; omega, hkept⟩

theorem behind_putMany (h : t.col < 80) (n : ℕ) (v : Cell) : Behind n t (t.putMany n v) := by
  induction n with
  | zero => exact behind_zero h
  | succ n ih =>
      unfold putMany at ih ⊢
      rw [Function.iterate_succ_apply']
      exact ih.trans (behind_put ih.col_lt v)

theorem behind_puts (h : t.col < 80) (hs : Plain s) (back fore : VgaColor) :
    Behind s.length t (t.puts s back fore) := by
  unfold puts
  induction s generalizing t with
  | nil => exact behind_zero h
  | cons input s ih =>
      obtain ⟨htab, hnew⟩ := hs
      obtain ⟨htab₁, htab₂⟩ := not_or.mp fun e => htab (List.mem_cons.mpr e)
      obtain ⟨hnew₁, hnew₂⟩ := not_or.mp fun e => hnew (List.mem_cons.mpr e)
      have e : t.putc input back fore = t.put ⟨input, attr back fore⟩ := by
        rw [putc, if_neg (Ne.symm htab₁), if_neg (Ne.symm hnew₁)]
      have hput := behind_put h ⟨input, attr back fore⟩
      rw [List.foldl_cons, e, List.length_cons, Nat.add_comm]
      exact hput.trans (ih hput.col_lt ⟨htab₂, hnew₂⟩)

/-- A console at its start shows a terminal with the cursor at the start. -/
theorem shows_start (video : ℕ → UInt8) :
    ∃ t : Terminal, t.row = 0 ∧ t.col = 0 ∧ (Console.start video).Shows t := by
  refine ⟨⟨fun i j => if i < 25 then (Console.start video).cell (i * 80 + j) else unwritten, 0, 0⟩,
    rfl, rfl, ⟨fun i hi j _ => ?_, rfl, rfl, Nat.succ_pos 79, fun i hi _ _ => if_neg (by omega)⟩,
    by simp [Console.start]⟩
  show (Console.start video).cell (i * 80 + j) =
    if 0 + i < 25 then (Console.start video).cell ((0 + i) * 80 + j) else unwritten
  rw [Nat.zero_add, if_pos hi]

/-- A newline fills its row. -/
theorem behind_newline (h : t.col < 80) (back fore : VgaColor) :
    Behind (80 - t.col) t (t.puts [10] back fore) := by
  have e : t.puts [10] back fore = t.putMany (80 - t.col) ⟨0, attr back fore⟩ := by
    have hnine : (10 : UInt8) ≠ 9 := by decide
    show t.putc 10 back fore = _
    unfold putc
    rw [if_neg hnine, if_pos (Eq.refl (10 : UInt8))]
  rw [e]
  exact behind_putMany h _ _

end Terminal

/-! ### Descriptors as bytes -/

/-- The bytes of the text buffer. -/
def textBytes : ℕ := 80 * 25 * 2

/-- The first descriptor that begins in the text buffer. -/
def textFirst : ℕ := 62784

/-- The dword at an offset. -/
def wordAt (video : ℕ → UInt8) (a : ℕ) : UInt32 :=
  UInt32.ofNat ((video a).toNat + 256 * (video (a + 1)).toNat + 256 ^ 2 * (video (a + 2)).toNat +
    256 ^ 3 * (video (a + 3)).toNat)

/-- The address in a `next` field. -/
def pointerTo : Option UInt32 → UInt32
  | none => 0
  | some p => Pmm.descriptorAddr p

/-- The descriptor at an address; one that is not at a descriptor is taken to be behind them all. -/
def pointedTo (addr : UInt32) : Option UInt32 :=
  if addr = 0 then none
  else if (addr - Pmm.descriptorAddr 0) % 12 = 0 then some ((addr - Pmm.descriptorAddr 0) / 12)
  else some 0xFFFFFFFF

/-- A byte of `pm_page_t`; the three bytes behind `state` are never written. -/
def PmPage.byte (d : PmPage) (former : UInt8) (k : ℕ) : UInt8 :=
  if k < 4 then Bytes.byte d.pageNo k
  else if k < 8 then Bytes.byte (pointerTo d.next) (k - 4)
  else if k = 8 then d.state
  else former

namespace Pmm

variable (s : Pmm)

/-- The text buffer with the descriptors in it. -/
def onScreen (video : ℕ → UInt8) : ℕ → UInt8 := fun a =>
  if a < textBytes ∧ textFirst + a / 12 < s.maxPageNo.toNat then
    (s.pageArray (UInt32.ofNat (textFirst + a / 12))).byte (video a) (a % 12)
  else video a

/-- The console with the descriptors in its text buffer. -/
def onConsole (c : Console) : Console := { c with videoMemory := s.onScreen c.videoMemory }

/-- The descriptors as they stand in the text buffer. -/
def fromScreen (video : ℕ → UInt8) : Pmm :=
  { s with
    pageArray := fun p =>
      let a := 12 * (p.toNat - textFirst)
      let d := s.pageArray p
      if textFirst ≤ p.toNat ∧ p < s.maxPageNo then
        { pageNo := if a + 4 ≤ textBytes then wordAt video a else d.pageNo
          next := if a + 8 ≤ textBytes then pointedTo (wordAt video (a + 4)) else d.next
          state := if a + 9 ≤ textBytes then video (a + 8) else d.state }
      else d }

/-- The text of the message, up to the number. -/
def singlePageText : List UInt8 :=
  ascii ['[', 'I', 'N', 'F', 'O', ']', '[', 'P', 'M', 'M', ']', 's', 'i', 'n', 'g', 'l', 'e', '_',
    'p', 'a', 'g', 'e', '_', 'c', 'o', 'u', 'n', 't', ':']

/-- `pmm_page_init` with the console that it prints to. -/
def pageInitOnScreen (st : PrintState) : Option (Pmm × PrintState) := do
  let (tempPageNo, s) ← s.loadBlocks
  let st ← (printk (singlePageText ++ [37, 100] ++ [10] ++ [0])
    (numberArgs (s.maxPageNo - tempPageNo))
    { st with console := s.onConsole st.console }).toOption
  let s ← singleLoop listBound tempPageNo none (s.fromScreen st.console.videoMemory)
  some (s, { st with console := s.onConsole st.console })

/-- The page number in a descriptor. -/
def number (p : UInt32) : UInt32 := (s.pageArray p).pageNo

end Pmm

/-- The lists with other numbers for the pages. -/
def Lists.map (f : UInt32 → UInt32) (L : Lists) : Lists :=
  ⟨fun k => (L.buddy k).map f, L.single.map f⟩

namespace Pmm

variable {s t u : Pmm} {L : Lists} {p q a f : UInt32} {n : ℕ} {st st' : PrintState}

/-- The buddy lists and the single page buffer are null-terminated, and the page numbers in their
descriptors share out the pages below `n`. -/
structure SharesOut (t : Pmm) (L : Lists) (n : ℕ) : Prop where
  buddy : ∀ k, IsList t.next (t.multiLink k) (L.buddy k)
  single : IsList t.next t.singleLink L.single
  covered : cover (L.map t.number).blocks = Multiset.range n
  aligned : ∀ k, ∀ p ∈ L.buddy k, 2 ^ k.val ∣ (t.number p).toNat
  below : ∀ k, ∀ p ∈ L.buddy k,
    (t.number p).toNat + 2 ^ k.val ≤ t.singelPageFirstNo.toNat
  above : ∀ p ∈ L.single, t.singelPageFirstNo ≤ t.number p
  few : L.single.length ≤ 1024

/-- Where every descriptor has the number of its page, the lists share out the numbers. -/
theorem Partitions.sharesOut (h : Partitions t L t.maxPageNo.toNat) :
    SharesOut t L t.maxPageNo.toNat := by
  have hbuddy : ∀ k, ∀ p ∈ L.buddy k, t.number p = p := by
    intro k p hp
    have hle : p.toNat + 2 ^ k.val ≤ t.maxPageNo.toNat :=
      le_of_cover h.covered (Lists.mem_blocks_of_buddy hp)
    have hpos := Nat.two_pow_pos k.val
    exact h.numbered p (UInt32.lt_iff_toNat_lt.mpr (by omega))
  have hsingle : ∀ p ∈ L.single, t.number p = p := by
    intro p hp
    exact h.numbered p (UInt32.lt_iff_toNat_lt.mpr (le_of_cover h.covered
      (Lists.mem_blocks_of_single hp)))
  have hmap : L.map t.number = L := by
    unfold Lists.map
    have hb : (fun k => (L.buddy k).map t.number) = L.buddy :=
      funext fun k => (List.map_congr_left (hbuddy k)).trans (List.map_id' _)
    rw [hb, List.map_congr_left hsingle, List.map_id']
  refine ⟨h.buddy, h.single, by rw [hmap]; exact h.covered, ?_, ?_, ?_, h.few⟩
  · intro k p hp
    rw [hbuddy k p hp]
    exact h.aligned k p hp
  · intro k p hp
    rw [hbuddy k p hp]
    exact h.below k p hp
  · intro p hp
    rw [hsingle p hp]
    exact h.above p hp

/-! ### No descriptor on the screen -/

theorem onConsole_of_le (h : s.maxPageNo.toNat ≤ textFirst) (c : Console) : s.onConsole c = c := by
  have e : s.onScreen c.videoMemory = c.videoMemory :=
    funext fun a => if_neg fun h' => absurd h'.2 (by omega)
  unfold onConsole
  rw [e]

theorem fromScreen_of_le (h : s.maxPageNo.toNat ≤ textFirst) (video : ℕ → UInt8) :
    s.fromScreen video = s := by
  have e : (s.fromScreen video).pageArray = s.pageArray := by
    funext p
    refine if_neg fun h' => ?_
    have hlt := UInt32.lt_iff_toNat_lt.mp h'.2
    omega
  show { s with pageArray := (s.fromScreen video).pageArray } = s
  rw [e]

/-- The message is printed on any console. -/
theorem message_prints (word : UInt32) (st : PrintState) :
    ∃ st', printk (singlePageText ++ [37, 100] ++ [10] ++ [0]) (numberArgs word) st = .ok st' ∧
      ∀ t : Terminal, st.console.Shows t → st'.console.Shows
        (t.puts (singlePageText ++ decimal word.toNat ++ [10]) black white) := by
  have hpre : 37 ∉ singlePageText := by decide
  have hpost : (37 : UInt8) ∉ [10] := by decide
  have hnul : 0 ∉ singlePageText ++ [37, 100] ++ [10] := by decide
  obtain ⟨f, hs, hrun, -⟩ := printk_expands ⟨_, hnul⟩ (numberArgs word) st black white
    (staysWithin_number hpre hpost (by decide) word)
  refine ⟨_, hrun, fun t ht => ?_⟩
  rw [← expand_number hpre hpost word, ← hs.text_eq]
  exact ht.kputsColor f.outputStr.toList black white

/-! ### The chain of the single pages -/

/-- The loop only links: each page is followed by the next one. -/
theorem singleLoop_links (h : singleLoop n p (some a) s = some t) (hsl : s.singleLink ≠ none)
    (hp : p.toNat = a.toNat + 1) :
    t.singleLink = s.singleLink ∧ (∀ q, t.number q = s.number q) ∧
      (∀ q < a, t.next q = s.next q) ∧
      ∀ q, a ≤ q → q.toNat + 1 < s.maxPageNo.toNat → t.next q = some (q + 1) := by
  induction n generalizing s p a with
  | zero => cases h
  | succ n ih =>
      rw [singleLoop] at h
      by_cases hlt : p < s.maxPageNo
      · rw [if_pos hlt] at h
        have hlt' := UInt32.lt_iff_toNat_lt.mp hlt
        have hmax := s.maxPageNo.toNat_lt
        have hpa : a + 1 = p := by
          apply UInt32.toNat_inj.mp
          simp only [UInt32.toNat_add, UInt32.reduceToNat]
          omega
        have hadd : (p + 1).toNat = p.toNat + 1 := by
          simp only [UInt32.toNat_add, UInt32.reduceToNat]
          omega
        obtain ⟨header, hd⟩ := Option.ne_none_iff_exists'.mp hsl
        rw [hd] at h
        have h' : singleLoop n (p + 1) (some p) (s.setNext a (some p)) = some t := h
        obtain ⟨hl, hno, hbefore, hafter⟩ := ih h' hsl hadd
        have hap : a < p := UInt32.lt_iff_toNat_lt.mpr (by omega)
        refine ⟨hl, fun q => (hno q).trans (pageNo_setNext _), fun q hq => ?_, fun q hq hqn => ?_⟩
        · rw [hbefore q (UInt32.lt_trans hq hap), next_setNext,
            Function.update_of_ne (UInt32.ne_of_lt hq)]
        · by_cases hqa : q = a
          · subst hqa
            rw [hbefore q hap, next_setNext, Function.update_self, hpa]
          · refine hafter q ?_ hqn
            have hle := UInt32.le_iff_toNat_le.mp hq
            have hne : q.toNat ≠ a.toNat := fun e => hqa (UInt32.toNat_inj.mp e)
            exact UInt32.le_iff_toNat_le.mpr (by omega)
      · rw [if_neg hlt] at h
        obtain rfl := Option.some.inj h
        refine ⟨rfl, fun _ => rfl, fun _ _ => rfl, fun q hq hqn => ?_⟩
        have hge := UInt32.le_iff_toNat_le.mp (UInt32.not_lt.mp hlt)
        have hle := UInt32.le_iff_toNat_le.mp hq
        omega

/-- The buffer has every page from its first one on. -/
theorem singleLoop_mem (h : singleLoop (n + 1) f none s = some t) (hsl : s.singleLink = none)
    (hl : IsList t.next t.singleLink L.single) (hf : f.toNat + 1 < 2 ^ 32) :
    (∀ q, t.number q = s.number q) ∧
      ∀ q, f ≤ q → q < s.maxPageNo → q ∈ L.single := by
  rw [singleLoop] at h
  by_cases hlt : f < s.maxPageNo
  · rw [if_pos hlt, hsl] at h
    have h' : singleLoop n (f + 1) (some f) { s with singleLink := some f } = some t := h
    have hadd : (f + 1).toNat = f.toNat + 1 := by
      simp only [UInt32.toNat_add, UInt32.reduceToNat]
      omega
    obtain ⟨hhead, hno, -, hnext⟩ := singleLoop_links h' (Option.some_ne_none f) hadd
    refine ⟨hno, fun q hfq hq => ?_⟩
    -- from each page of the buffer to the next one
    have hwalk : ∀ k, f.toNat + k < s.maxPageNo.toNat →
        UInt32.ofNat (f.toNat + k) ∈ L.single := by
      intro k
      induction k with
      | zero =>
          intro _
          rw [hhead] at hl
          cases hsingle : L.single with
          | nil =>
              rw [hsingle] at hl
              cases hl
          | cons a l =>
              rw [hsingle] at hl
              rw [Nat.add_zero, UInt32.ofNat_toNat, Option.some.inj hl.1]
              exact List.mem_cons_self
      | succ k ih =>
          intro hk
          have hmax := s.maxPageNo.toNat_lt
          have hk' : f.toNat + k < s.maxPageNo.toNat := by omega
          have hq : (UInt32.ofNat (f.toNat + k)).toNat = f.toNat + k :=
            UInt32.toNat_ofNat_of_lt' (lt_trans hk' hmax)
          have hstep := hnext (UInt32.ofNat (f.toNat + k))
            (UInt32.le_iff_toNat_le.mpr (by rw [hq]; omega)) (by rw [hq]; exact hk)
          rcases IsSeg.next_mem hl (ih hk') hstep with hmem | hnone
          · have e : UInt32.ofNat (f.toNat + k) + 1 = UInt32.ofNat (f.toNat + (k + 1)) := by
              apply UInt32.toNat_inj.mp
              simp only [UInt32.toNat_add, UInt32.toNat_ofNat', UInt32.reduceToNat]
              omega
            rwa [e] at hmem
          · cases hnone
    have hle := UInt32.le_iff_toNat_le.mp hfq
    have hlt' := UInt32.lt_iff_toNat_lt.mp hq
    have hmem := hwalk (q.toNat - f.toNat) (by omega)
    rwa [Nat.add_sub_cancel' hle, UInt32.ofNat_toNat] at hmem
  · rw [if_neg hlt] at h
    obtain rfl := Option.some.inj h
    refine ⟨fun _ => rfl, fun q hfq hq => ?_⟩
    exact absurd (UInt32.lt_of_le_of_lt hfq hq) hlt

/-! ### Descriptors on the screen -/

theorem number_fromScreen {video : ℕ → UInt8} (hp : textFirst ≤ p.toNat) (hlt : p < s.maxPageNo)
    (ha : 12 * (p.toNat - textFirst) + 4 ≤ textBytes) :
    (s.fromScreen video).number p = wordAt video (12 * (p.toNat - textFirst)) := by
  unfold number fromScreen
  dsimp only
  rw [if_pos ⟨hp, hlt⟩]
  dsimp only
  rw [if_pos ha]

/-- The message overwrites the number of the first descriptor in the text buffer, when the cursor is
at the start of the screen. -/
theorem message_overwrites (word : UInt32) (video : ℕ → UInt8) {m : Vector UInt8 32}
    {hexstr : Vector UInt8 11}
    (h : printk (singlePageText ++ [37, 100] ++ [10] ++ [0]) (numberArgs word)
      ⟨m, hexstr, Console.start video⟩ = .ok st') :
    wordAt st'.console.videoMemory 0 = 0x0F490F5B := by
  obtain ⟨t, hrow, hcol, ht⟩ := Terminal.shows_start video
  obtain ⟨st₁, hrun, hshows⟩ := message_prints word ⟨m, hexstr, Console.start video⟩
  obtain rfl : st₁ = st' := Except.ok.inj (hrun.symm.trans h)
  have hs := hshows t ht
  have htext : singlePageText = [91, 73] ++ singlePageText.drop 2 := rfl
  have hlen : singlePageText.length = 29 := rfl
  have hplain : Terminal.Plain (singlePageText.drop 2 ++ decimal word.toNat) :=
    Terminal.plain_append.mpr ⟨by decide, plain_decimal _⟩
  have hdigits := decimal_length_le word
  -- the first two cells, the rest of the line and its end
  rw [htext, List.append_assoc, List.append_assoc, Terminal.puts_append, ← List.append_assoc,
    Terminal.puts_append] at hs
  have h₂ := Terminal.behind_puts (t := t) (by omega) (by decide : Terminal.Plain [91, 73]) black
    white
  have hrest := Terminal.behind_puts h₂.col_lt hplain black white
  have hend := Terminal.behind_newline hrest.col_lt black white
  have hall := hrest.trans hend
  have hcell₀ : (t.puts [91, 73] black white).screen 0 0 = ⟨91, 0x0F⟩ := by
    show (if 0 = (t.put _).row ∧ 0 = (t.put _).col then _ else if 0 = t.row ∧ 0 = t.col then _
      else _) = _
    rw [if_neg, if_pos ⟨hrow.symm, hcol.symm⟩]
    · rfl
    · obtain ⟨-, hcol'⟩ := Console.put_of_ne (t := t) (v := ⟨91, Terminal.attr black white⟩)
        (by omega)
      rw [hcol']
      omega
  have hcell₁ : (t.puts [91, 73] black white).screen 0 1 = ⟨73, 0x0F⟩ := by
    obtain ⟨hrow', hcol'⟩ := Console.put_of_ne (t := t) (v := ⟨91, Terminal.attr black white⟩)
      (by omega)
    show (if 0 = (t.put _).row ∧ 1 = (t.put _).col then _ else _) = _
    rw [if_pos ⟨by rw [hrow', hrow], by rw [hcol', hcol]⟩]
    rfl
  have hpos₂ := h₂.pos
  have hrestPos := hrest.pos
  have hpos := hall.pos
  have hcolRest := hrest.col_lt
  rw [List.length_append, List.length_drop, hlen] at hrestPos hpos
  have hl₂ : ([91, 73] : List UInt8).length = 2 := rfl
  rw [hl₂] at hpos₂
  generalize ((t.puts [91, 73] black white).puts _ black white).puts [10] black white = t' at *
  have htop : t'.top = 0 := by
    unfold Terminal.top
    omega
  have hkept₀ := hs.cells 0 (by decide) 0 (by decide)
  have hkept₁ := hs.cells 0 (by decide) 1 (by decide)
  rw [htop, Nat.add_zero] at hkept₀ hkept₁
  rw [hall.kept 0 0 (by decide) (by omega), hcell₀] at hkept₀
  rw [hall.kept 0 1 (by decide) (by omega), hcell₁] at hkept₁
  have h0 : st₁.console.videoMemory 0 = 91 := congrArg Cell.char hkept₀
  have h1 : st₁.console.videoMemory 1 = 0x0F := congrArg Cell.attr hkept₀
  have h2 : st₁.console.videoMemory 2 = 73 := congrArg Cell.char hkept₁
  have h3 : st₁.console.videoMemory 3 = 0x0F := congrArg Cell.attr hkept₁
  unfold wordAt
  rw [h0, h1, h2, h3]
  rfl

/-- From 62785 to 63488 pages the first single page is 62464, so that the single pages reach into
the text buffer, and the message can take the number from the first one there. -/
theorem not_sharesOut (s : Pmm) (hs : s.singleLink = none) (hlt : textFirst < s.maxPageNo.toNat)
    (hle : s.maxPageNo.toNat ≤ 63488)
    (h : s.pageInitOnScreen ⟨Vector.replicate 32 0, Vector.replicate 11 0,
      Console.start fun _ => 0⟩ = some (t, st')) :
    ¬ SharesOut t L s.maxPageNo.toNat := by
  intro hshares
  unfold textFirst at hlt
  obtain ⟨f, s₂, L₂, h₂, hfill₂, hsingle, hf, -, hm, -⟩ := loadBlocks_eq s hs (by omega) (by omega)
  have hf' : f.toNat = 62464 := by
    rw [hf, singelFirst]
    omega
  obtain ⟨st₁, hrun, -⟩ := message_prints (s₂.maxPageNo - f) ⟨Vector.replicate 32 0,
    Vector.replicate 11 0, s₂.onConsole (Console.start fun _ => 0)⟩
  unfold pageInitOnScreen at h
  rw [h₂] at h
  simp only [Option.bind_eq_bind, Option.bind_some] at h
  rw [hrun] at h
  simp only [Except.toOption, Option.bind_some] at h
  obtain ⟨u, hu, h⟩ := Option.bind_eq_some_iff.mp h
  obtain ⟨rfl, -⟩ := Prod.mk.inj (Option.some.inj h)
  have hword := message_overwrites _ _ hrun
  have hsl : (s₂.fromScreen st₁.console.videoMemory).singleLink = none :=
    hfill₂.holds.single.eq_nil_iff.mp hsingle
  obtain ⟨hno, hmem⟩ := singleLoop_mem hu hsl hshares.single (by rw [hf']; decide)
  have hmax : (62784 : UInt32) < s₂.maxPageNo := by
    rw [hm, UInt32.lt_iff_toNat_lt]
    exact hlt
  have hin := hmem 62784 (UInt32.le_iff_toNat_le.mpr (by rw [hf']; decide)) hmax
  have hnumber : u.number 62784 = 0x0F490F5B := by
    rw [hno]
    have hoffset : 12 * ((62784 : UInt32).toNat - textFirst) = 0 := by decide
    rw [number_fromScreen (by decide) hmax (by decide), hoffset, hword]
  have hlist : u.number 62784 ∈ (L.map u.number).single := List.mem_map.mpr ⟨_, hin, rfl⟩
  have hcov := le_of_cover hshares.covered (Lists.mem_blocks_of_single hlist)
  rw [hnumber] at hcov
  have hbig : (0x0F490F5B : UInt32).toNat + 2 ^ 0 ≤ s.maxPageNo.toNat := hcov
  simp only [UInt32.reduceToNat] at hbig
  omega

/-- Without a descriptor on the screen the message changes nothing. -/
theorem pageInitOnScreen_eq (s : Pmm) (st : PrintState) (hs : s.singleLink = none)
    (hge : 2048 ≤ s.maxPageNo.toNat) (hle : s.maxPageNo.toNat ≤ textFirst) :
    ∃ t st', s.pageInit = some t ∧ s.pageInitOnScreen st = some (t, st') := by
  unfold textFirst at hle
  obtain ⟨f, s₂, L₂, h₂, -, -, -, -, hm, -⟩ := loadBlocks_eq s hs (by omega) (by omega)
  obtain ⟨t, L, ht, -⟩ := pageInit_eq s hs (by omega) (by omega)
  have hloop : singleLoop listBound f none s₂ = some t := by
    rw [pageInit_eq_loadBlocks, h₂] at ht
    exact ht
  have hle₂ : s₂.maxPageNo.toNat ≤ textFirst := by
    rw [hm]
    exact hle
  obtain ⟨st₁, hrun, -⟩ := message_prints (s₂.maxPageNo - f) st
  refine ⟨t, { st₁ with console := t.onConsole st₁.console }, ht, ?_⟩
  unfold pageInitOnScreen
  rw [h₂]
  simp only [Option.bind_eq_bind, Option.bind_some, onConsole_of_le hle₂, fromScreen_of_le hle₂]
  rw [hrun]
  simp only [Except.toOption, Option.bind_some, hloop]

/-- **`pmm_page_init` shares out the memory** over every console that it prints to when it manages
at most 62784 pages; from there up to 63488 pages there is a console over which it does not. -/
theorem sharesOut_of_clear (s : Pmm) (hs : s.singleLink = none) (hge : 2048 ≤ s.maxPageNo.toNat) :
    (s.maxPageNo.toNat ≤ textFirst → ∀ st, ∃ t st' L, s.pageInitOnScreen st = some (t, st') ∧
      t.maxPageNo = s.maxPageNo ∧ SharesOut t L s.maxPageNo.toNat) ∧
    (textFirst < s.maxPageNo.toNat → s.maxPageNo.toNat ≤ 63488 → ¬ ∀ st, ∃ t st' L,
      s.pageInitOnScreen st = some (t, st') ∧ SharesOut t L s.maxPageNo.toNat) := by
  constructor
  · intro hle st
    obtain ⟨t, st', ht, hscreen⟩ := pageInitOnScreen_eq s st hs hge hle
    obtain ⟨t', L, ht', hm, hparts⟩ := pageInit_partitions s hs hge
      (hle.trans (by unfold textFirst; omega))
    obtain rfl := Option.some.inj (ht'.symm.trans ht)
    rw [← hm] at hparts ⊢
    exact ⟨t', st', L, hscreen, rfl, hparts.sharesOut⟩
  · intro hlt hle h
    obtain ⟨t, st', L, hrun, hshares⟩ := h ⟨Vector.replicate 32 0, Vector.replicate 11 0,
      Console.start fun _ => 0⟩
    exact not_sharesOut s hs hlt hle hrun hshares

/-- The smallest memory, and one that reaches into the text buffer. -/
theorem sharesOut_smallest :
    (∀ st, ∃ t st' L, ({ zero with maxPageNo := 2048 } : Pmm).pageInitOnScreen st = some (t, st') ∧
      t.maxPageNo = 2048 ∧ SharesOut t L 2048) ∧
    ¬ ∀ st, ∃ t st' L, ({ zero with maxPageNo := 63200 } : Pmm).pageInitOnScreen st =
      some (t, st') ∧ SharesOut t L 63200 :=
  ⟨(sharesOut_of_clear { zero with maxPageNo := 2048 } rfl (by decide)).1 (by decide),
    (sharesOut_of_clear { zero with maxPageNo := 63200 } rfl (by decide)).2 (by decide)
      (by decide)⟩

/-- With 63200 pages the message on a console at its start takes the number from a single page. -/
theorem not_sharesOut_largeMemory : ¬ ∃ t st' L,
    ({ zero with maxPageNo := 63200 } : Pmm).pageInitOnScreen ⟨Vector.replicate 32 0,
      Vector.replicate 11 0, Console.start fun _ => 0⟩ = some (t, st') ∧ SharesOut t L 63200 := by
  rintro ⟨t, st', L, hrun, hshares⟩
  exact not_sharesOut { zero with maxPageNo := 63200 } rfl (by decide) (by decide) hrun hshares

end Pmm
end BHOS
