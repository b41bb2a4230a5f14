import Mathlib.Data.List.Basic
import Mathlib.Data.List.Nodup
import Mathlib.Logic.Function.Basic

/-! # Linked lists through a `next` function

A heap of list cells is a function `next : α → Option α` from a cell to its successor, `none`
standing for the null pointer.  `IsSeg next h l t` says that following `next` from the pointer
`h` visits exactly the cells of `l` and arrives at the pointer `t`; a null-terminated list is
the case `t = none` (`IsList`) and a ring the case `h = t` (`IsRing`).

`seek next stop n p` is the loop `for (; !stop(p); p = p->next);` started at the cell `p` and
given up after `n` tests; running off the end of a list is `none`.  `fold` is the loop over all
cells.  The theorems say where the loop stops on a list whose cells are known (`seek_seg`), and what
one pointer assignment (`Function.update`) does to a segment. -/

namespace Linked

variable {α : Type*}

/-! ### Segments, lists and rings -/

/-- Following `next` from `h` visits the cells of the list and arrives at `t`. -/
def IsSeg (next : α → Option α) : Option α → List α → Option α → Prop
  | h, [], t => h = t
  | h, a :: l, t => h = some a ∧ IsSeg next (next a) l t

/-- A null-terminated list. -/
def IsList (next : α → Option α) (h : Option α) (l : List α) : Prop := IsSeg next h l none

variable {next : α → Option α} {h t : Option α} {a b c : α} {l l₁ l₂ : List α}

@[simp] theorem isSeg_nil : IsSeg next h [] t ↔ h = t := Iff.rfl

@[simp] theorem isSeg_cons : IsSeg next h (a :: l) t ↔ h = some a ∧ IsSeg next (next a) l t :=
  Iff.rfl

theorem isSeg_append : IsSeg next h (l₁ ++ l₂) t ↔ ∃ m, IsSeg next h l₁ m ∧ IsSeg next m l₂ t := by
  induction l₁ generalizing h with
  | nil => simp
  | cons a l ih => simp [ih, and_assoc]

theorem isSeg_concat : IsSeg next h (l ++ [a]) t ↔ IsSeg next h l (some a) ∧ next a = t := by
  rw [isSeg_append]
  constructor
  · rintro ⟨m, h₁, rfl, h₂⟩
    exact ⟨h₁, h₂⟩
  · rintro ⟨h₁, h₂⟩
    exact ⟨some a, h₁, rfl, h₂⟩

/-- A segment only depends on the successors of its own cells. -/
theorem IsSeg.congr {next' : α → Option α} (hn : ∀ a ∈ l, next' a = next a)
    (hs : IsSeg next h l t) : IsSeg next' h l t := by
  induction l generalizing h with
  | nil => exact hs
  | cons a l ih =>
      obtain ⟨rfl, hs⟩ := hs
      refine ⟨rfl, ?_⟩
      rw [hn a List.mem_cons_self]
      exact ih (fun b hb => hn b (List.mem_cons_of_mem a hb)) hs

/-- The cells of a null-terminated list are determined by its head. -/
theorem IsList.unique (h₁ : IsList next h l₁) (h₂ : IsList next h l₂) : l₁ = l₂ := by
  induction l₁ generalizing h l₂ with
  | nil =>
      cases h₂' : l₂ with
      | nil => rfl
      | cons a l =>
          subst h₂'
          have e : h = none := h₁
          rw [e] at h₂
          exact absurd h₂.1 (by simp)
  | cons a l ih =>
      obtain ⟨rfl, h₁⟩ := h₁
      cases l₂ with
      | nil => exact absurd h₂ (by simp [IsList])
      | cons b l₂ =>
          obtain ⟨e, h₂⟩ := h₂
          obtain rfl := Option.some.inj e
          rw [ih h₁ h₂]

/-- A null-terminated list never visits a cell twice. -/
theorem IsList.nodup (hl : IsList next h l) : l.Nodup := by
  induction l generalizing h with
  | nil => exact List.nodup_nil
  | cons a l ih =>
      obtain ⟨rfl, hl⟩ := hl
      refine List.nodup_cons.mpr ⟨?_, ih hl⟩
      intro ha
      obtain ⟨l₁, l₂, rfl⟩ := List.append_of_mem ha
      obtain ⟨m, -, hm⟩ := isSeg_append.mp hl
      have h₁ : IsList next (some a) (a :: (l₁ ++ a :: l₂)) := ⟨rfl, hl⟩
      have h₂ : IsList next (some a) (a :: l₂) := ⟨rfl, hm.2⟩
      have e := h₁.unique h₂
      have hlen := congrArg List.length e
      simp only [List.length_cons, List.length_append] at hlen
      omega

theorem IsList.eq_nil_iff (hl : IsList next h l) : l = [] ↔ h = none := by
  cases l with
  | nil => exact ⟨fun _ => hl, fun _ => rfl⟩
  | cons a l => simp [hl.1]

theorem IsList.head? (hl : IsList next h l) : h = l.head? := by
  cases l with
  | nil => exact hl
  | cons a l => exact hl.1

theorem IsList.exists_head (hl : IsList next h l) (hne : l ≠ []) : ∃ a, h = some a :=
  Option.ne_none_iff_exists'.mp fun e => hne (hl.eq_nil_iff.mpr e)

/-- Every cell of a segment but the last is followed by another cell of the segment. -/
theorem IsSeg.next_mem_tail (hs : IsSeg next h (l ++ [a]) t) (hb : b ∈ l) :
    ∃ c ∈ (l ++ [a]).tail, next b = some c := by
  induction l generalizing h with
  | nil => cases hb
  | cons d l ih =>
      obtain ⟨rfl, hs⟩ := hs
      rcases List.mem_cons.mp hb with rfl | hb
      · cases l with
        | nil => exact ⟨a, by simp, hs.1⟩
        | cons e l => exact ⟨e, by simp, hs.1⟩
      · obtain ⟨c, hc, hn⟩ := ih hs hb
        exact ⟨c, List.mem_of_mem_tail hc, hn⟩

/-- The successor of a cell of a segment is a cell of the segment or the end. -/
theorem IsSeg.next_mem (hs : IsSeg next h l t) (hb : b ∈ l) (hn : next b = some c) :
    c ∈ l ∨ t = some c := by
  induction l generalizing h with
  | nil => cases hb
  | cons a l ih =>
      obtain ⟨rfl, hs⟩ := hs
      rcases List.mem_cons.mp hb with rfl | hb
      · rw [hn] at hs
        cases l with
        | nil => exact Or.inr hs.symm
        | cons d l =>
            obtain rfl := Option.some.inj hs.1
            exact Or.inl (by simp)
      · exact (ih hs hb).imp_left (List.mem_cons_of_mem a)

/-- The successor of a cell inside a list. -/
theorem IsList.next_of_split (hl : IsList next h (l₁ ++ a :: l₂)) : next a = l₂.head? := by
  obtain ⟨m, -, hm⟩ := isSeg_append.mp hl
  exact IsList.head? hm.2

/-- The first of two or more cells has a successor. -/
theorem IsList.next_head_ne_none (hl : IsList next (some a) (l ++ [b, c])) : next a ≠ none := by
  intro e
  cases l with
  | nil =>
      obtain ⟨hb, hc, -⟩ := hl
      obtain rfl := Option.some.inj hb
      rw [e] at hc
      cases hc
  | cons d l =>
      obtain ⟨hd, hl⟩ := hl
      obtain rfl := Option.some.inj hd
      rw [e] at hl
      cases l <;> cases hl.1

/-- The cells visited from a pointer, at most `n` of them. -/
def toList (next : α → Option α) : ℕ → Option α → List α
  | 0, _ => []
  | _ + 1, none => []
  | n + 1, some a => a :: toList next n (next a)

theorem IsList.toList_eq {n : ℕ} (hl : IsList next h l) (hn : l.length ≤ n) :
    toList next n h = l := by
  induction l generalizing h n with
  | nil =>
      have e : h = none := hl
      subst e
      cases n <;> rfl
  | cons a l ih =>
      obtain ⟨n, rfl⟩ : ∃ m, n = m + 1 := ⟨n - 1, by simp at hn; omega⟩
      obtain ⟨rfl, hl⟩ := hl
      rw [toList, ih hl (by simpa using hn)]

/-! ### Assigning one successor -/

section update

variable [DecidableEq α]

/-- Assigning the successor of a cell outside a segment leaves the segment alone. -/
theorem IsSeg.update_of_notMem (ha : a ∉ l) (v : Option α) (hs : IsSeg next h l t) :
    IsSeg (Function.update next a v) h l t := by
  apply hs.congr
  intro b hb
  have hne : b ≠ a := fun e => ha (e ▸ hb)
  rw [Function.update_of_ne hne]

theorem IsList.update_of_notMem (ha : a ∉ l) (v : Option α) (hl : IsList next h l) :
    IsList (Function.update next a v) h l := IsSeg.update_of_notMem ha v hl

/-- Redirecting the last cell of a segment. -/
theorem IsSeg.update_last (hnd : (l ++ [a]).Nodup) (v : Option α)
    (hs : IsSeg next h (l ++ [a]) t) : IsSeg (Function.update next a v) h (l ++ [a]) v := by
  rw [isSeg_concat] at hs ⊢
  have ha : a ∉ l := by
    intro h
    rw [List.nodup_append] at hnd
    exact hnd.2.2 a h a (by simp) rfl
  exact ⟨hs.1.update_of_notMem ha v, Function.update_self a v next⟩

/-- `last->next = b` appends the null-ended cell `b` to a list. -/
theorem IsList.append_cell (hl : IsList next h (l ++ [a])) (hb : b ∉ l ++ [a])
    (hb' : next b = none) : IsList (Function.update next a (some b)) h (l ++ [a] ++ [b]) := by
  have hba : b ≠ a := fun e => hb (by simp [e])
  refine isSeg_concat.mpr ⟨IsSeg.update_last hl.nodup (some b) hl, ?_⟩
  rw [Function.update_of_ne hba, hb']

/-- `a->next = NULL` cuts a list behind `a`. -/
theorem IsList.cut (hl : IsList next h (l₁ ++ a :: l₂)) :
    IsList (Function.update next a none) h (l₁ ++ [a]) := by
  have hnd : (l₁ ++ [a]).Nodup := by
    have hnd := hl.nodup
    rw [List.append_cons] at hnd
    exact (List.nodup_append.mp hnd).1
  rw [List.append_cons] at hl
  obtain ⟨m, h₁, -⟩ := isSeg_append.mp hl
  exact h₁.update_last hnd none

/-- `a->next = a->next->next` takes the cell behind `a` out of a list. -/
theorem IsList.unlink (hl : IsList next h (l₁ ++ a :: b :: l₂)) :
    IsList (Function.update next a (next b)) h (l₁ ++ a :: l₂) := by
  have hnd := hl.nodup
  have ha : a ∉ l₂ := fun h => by simp [List.nodup_append, h] at hnd
  obtain ⟨m, h₁, rfl, -, h₂⟩ := isSeg_append.mp hl
  have ha' : a ∉ l₁ := by
    intro h
    rw [List.nodup_append] at hnd
    exact hnd.2.2 a h a (by simp) rfl
  refine isSeg_append.mpr ⟨some a, h₁.update_of_notMem ha' _, rfl, ?_⟩
  rw [Function.update_self]
  exact h₂.update_of_notMem ha _

end update

/-! ### The search loop -/

/-- The loop `for (; !stop(p); p = p->next);`: the cell where it stops, `none` when it runs off
the list or has not stopped after `n` tests. -/
def seek (next : α → Option α) (stop : α → Bool) : ℕ → α → Option α
  | 0, _ => none
  | n + 1, p => if stop p then some p else (next p).bind (seek next stop n)

variable {stop : α → Bool}

/-- A cell that is followed by itself holds the loop. -/
theorem seek_self {p : α} (hp : next p = some p) (hs : stop p = false) (n : ℕ) :
    seek next stop n p = none := by
  induction n with
  | zero => rfl
  | succ n ih => simp [seek, hs, hp, ih]

/-- The loop passes the cells where the test fails and stops at the first where it holds. -/
theorem seek_seg {p : α} {n : ℕ} (hs : IsSeg next (some p) l (some a))
    (hl : ∀ b ∈ l, stop b = false) (ha : stop a = true) (hn : l.length < n) :
    seek next stop n p = some a := by
  induction l generalizing p n with
  | nil =>
      obtain ⟨n, rfl⟩ : ∃ m, n = m + 1 := ⟨n - 1, by omega⟩
      obtain rfl := Option.some.inj (isSeg_nil.mp hs)
      simp [seek, ha]
  | cons b l ih =>
      obtain ⟨n, rfl⟩ : ∃ m, n = m + 1 := ⟨n - 1, by omega⟩
      obtain ⟨e, hs⟩ := hs
      obtain rfl := Option.some.inj e
      simp only [seek, hl p List.mem_cons_self]
      cases hp : next p with
      | none =>
          rw [hp] at hs
          cases l with
          | nil => exact absurd hs (by simp)
          | cons c l => exact absurd hs.1 (by simp)
      | some q =>
          rw [hp] at hs
          exact ih hs (fun c hc => hl c (List.mem_cons_of_mem p hc)) (by simpa using hn)

/-- On a list split at the stopping cell. -/
theorem IsList.seek_eq {p : α} {n : ℕ} (hs : IsList next (some p) (l₁ ++ a :: l₂))
    (hl : ∀ b ∈ l₁, stop b = false) (ha : stop a = true) (hn : l₁.length < n) :
    seek next stop n p = some a := by
  obtain ⟨m, h₁, rfl, -⟩ := isSeg_append.mp hs
  exact seek_seg h₁ hl ha hn

/-- `for (; p->next != NULL; p = p->next);` stops at the last cell. -/
theorem IsList.seek_last {p : α} {n : ℕ} (hs : IsList next (some p) (l ++ [a]))
    (hn : l.length < n) : seek next (fun p => (next p).isNone) n p = some a := by
  refine hs.seek_eq ?_ ?_ hn
  · intro b hb
    obtain ⟨c, -, hc⟩ := IsSeg.next_mem_tail hs hb
    simp [hc]
  · simp [hs.next_of_split]

/-- `for (; p->next->next != NULL; p = p->next);` stops at the last cell but one. -/
theorem IsList.seek_before_last {p : α} {n : ℕ} (hs : IsList next (some p) (l ++ [a, b]))
    (hn : l.length < n) :
    seek next (fun p => ((next p).bind next).isNone) n p = some a := by
  have hlast : next b = none := by
    rw [List.append_cons] at hs
    simpa using hs.next_of_split
  refine hs.seek_eq ?_ ?_ hn
  · intro c hc
    obtain ⟨l₁, l₂, rfl⟩ := List.append_of_mem hc
    rw [List.append_assoc, List.cons_append] at hs
    rw [hs.next_of_split]
    cases l₂ with
    | nil =>
        rw [List.nil_append, List.append_cons] at hs
        simp [hs.next_of_split]
    | cons d l₂ =>
        rw [List.cons_append, List.append_cons] at hs
        simp only [List.cons_append, List.head?_cons, Option.bind_some, hs.next_of_split]
        cases l₂ <;> rfl
  · simp [hs.next_of_split, hlast]

/-! ### The loop over a whole list -/

/-- The loop `for (; p != NULL; p = p->next) b = f(b, p);`, given up after `n` tests. -/
def fold {β : Type*} (next : α → Option α) (f : β → α → β) : ℕ → Option α → β → Option β
  | 0, _, _ => none
  | _ + 1, none, b => some b
  | n + 1, some p, b => fold next f n (next p) (f b p)

/-- The loop passes all cells of a list. -/
theorem IsList.fold_eq {β : Type*} {f : β → α → β} {n : ℕ} (hl : IsList next h l)
    (hn : l.length < n) (b : β) : fold next f n h b = some (l.foldl f b) := by
  induction l generalizing h n b with
  | nil =>
      obtain ⟨n, rfl⟩ : ∃ m, n = m + 1 := ⟨n - 1, by omega⟩
      have e : h = none := hl
      rw [e]
      rfl
  | cons a l ih =>
      obtain ⟨n, rfl⟩ : ∃ m, n = m + 1 := ⟨n - 1, by omega⟩
      obtain ⟨rfl, hl⟩ := hl
      exact ih hl (Nat.lt_of_succ_lt_succ hn) (f b a)

end Linked
