import Mathlib.Logic.Function.Iterate
import Mathlib.Logic.Relation
import BHOS.Lib.Chain

/-! # Rings of linked cells

A ring is a segment that leads back to its first cell: from the cell `a` the pointers visit the
cells of `l`, each once, and arrive at `a` again (`IsRing next a l`).  The operations are those of
a scheduler's ring: entering it at another cell (`rotate`), linking a new cell behind the first
(`insert`), taking the first cell out through its predecessor (`remove`), and the two search
loops, for the predecessor of the first cell (`seek_pred`) and for the first cell behind it that
passes a test (`seek_next`, `seek_none`). -/

namespace Linked

variable {α : Type*}

/-- From `a` the pointers visit the cells of `l`, each once, and arrive at `a` again. -/
structure IsRing (next : α → Option α) (a : α) (l : List α) : Prop where
  seg : IsSeg next (next a) l (some a)
  nodup : (a :: l).Nodup

/-- The cell `b` is reached from the cell `a`. -/
def Reaches (next : α → Option α) : α → α → Prop :=
  Relation.ReflTransGen fun a b => next a = some b

/-- The cells of a segment are reached from its first. -/
theorem IsSeg.reaches {next : α → Option α} {a b : α} {l : List α} {t : Option α}
    (hs : IsSeg next (some a) l t) (hb : b ∈ l) : Reaches next a b := by
  induction l generalizing a with
  | nil => cases hb
  | cons c l ih =>
      obtain ⟨e, hs⟩ := hs
      obtain rfl := Option.some.inj e
      rcases List.mem_cons.mp hb with rfl | hb
      · exact Relation.ReflTransGen.refl
      · cases hn : next a with
        | none =>
            rw [hn] at hs
            cases l with
            | nil => cases hb
            | cons d l => exact absurd hs.1 (by simp)
        | some d =>
            rw [hn] at hs
            exact Relation.ReflTransGen.head hn (ih hs hb)

/-- Following the pointers `n` times from the first cell of a segment leads to its cell `n`. -/
theorem IsSeg.iterate {next : α → Option α} {f : α → α} (hf : ∀ b, next b = some (f b)) {a : α}
    {l : List α} {t : Option α} (hs : IsSeg next (some a) l t) {n : ℕ} (hn : n < l.length) :
    f^[n] a = l[n] := by
  induction l generalizing a n with
  | nil => exact absurd hn (Nat.not_lt_zero n)
  | cons c l ih =>
      obtain ⟨e, hs⟩ := hs
      obtain rfl := Option.some.inj e
      cases n with
      | zero => rfl
      | succ n =>
          rw [hf] at hs
          exact ih hs (Nat.lt_of_succ_lt_succ hn)

namespace IsRing

variable {next : α → Option α} {a b c : α} {l l₁ l₂ : List α}

theorem notMem (h : IsRing next a l) : a ∉ l := (List.nodup_cons.mp h.nodup).1

theorem cons_seg (h : IsRing next a l) : IsSeg next (some a) (a :: l) (some a) := ⟨rfl, h.seg⟩

theorem next_eq (h : IsRing next a (b :: l)) : next a = some b := h.seg.1

theorem next_nil (h : IsRing next a []) : next a = some a := h.seg

/-- Exactly the cells of the ring are reached. -/
theorem reaches_iff (h : IsRing next a l) : Reaches next a b ↔ b ∈ a :: l := by
  refine ⟨?_, h.cons_seg.reaches⟩
  intro hr
  induction hr with
  | refl => exact List.mem_cons_self
  | tail _ hn ih =>
      rcases h.cons_seg.next_mem ih hn with hc | hc
      · exact hc
      · obtain rfl := Option.some.inj hc
        exact List.mem_cons_self

/-- A ring only depends on the successors of its own cells. -/
theorem congr {next' : α → Option α} (hn : ∀ c ∈ a :: l, next' c = next c)
    (h : IsRing next a l) : IsRing next' a l := by
  refine ⟨?_, h.nodup⟩
  rw [hn a List.mem_cons_self]
  exact h.seg.congr fun c hc => hn c (List.mem_cons_of_mem a hc)

/-- Entering the ring at another cell. -/
theorem rotate (h : IsRing next a (l₁ ++ b :: l₂)) : IsRing next b (l₂ ++ a :: l₁) := by
  obtain ⟨m, h₁, hb, h₂⟩ := isSeg_append.mp h.seg
  subst hb
  refine ⟨isSeg_append.mpr ⟨some a, h₂, rfl, h₁⟩, ?_⟩
  have hp : List.Perm ((b :: l₂) ++ (a :: l₁)) ((a :: l₁) ++ (b :: l₂)) := List.perm_append_comm
  exact hp.nodup_iff.mpr h.nodup

/-- Some cell is followed by the first. -/
theorem exists_pred (h : IsRing next a l) :
    ∃ m c, a :: l = m ++ [c] ∧ IsSeg next (some a) m (some c) ∧ next c = some a := by
  obtain ⟨m, c, e⟩ : ∃ m c, a :: l = m ++ [c] :=
    (List.eq_nil_or_concat' (a :: l)).resolve_left (List.cons_ne_nil a l)
  have hs := h.cons_seg
  rw [e, isSeg_concat] at hs
  exact ⟨m, c, e, hs⟩

/-- Only one cell is followed by the first. -/
theorem next_ne_of_init {m : List α} (h : IsRing next a l) (e : a :: l = m ++ [c])
    (hb : b ∈ m) : next b ≠ some a := by
  have hs := h.cons_seg
  rw [e] at hs
  obtain ⟨d, hd, hn⟩ := hs.next_mem_tail hb
  rw [hn, ne_eq, Option.some.injEq]
  rintro rfl
  rw [← e] at hd
  exact h.notMem hd

/-- A cell other than the first that is reached in `n` steps has fewer than `n` cells before it. -/
theorem place_of_iterate (h : IsRing next a l) {f : α → α} (hf : ∀ b, next b = some (f b)) {n : ℕ}
    (hb : f^[n] a = b) (hne : b ≠ a) : ∃ l₁ l₂, l = l₁ ++ b :: l₂ ∧ l₁.length < n := by
  have hreach : Reaches next a b := by
    rw [← hb]
    clear hb
    induction n with
    | zero => exact Relation.ReflTransGen.refl
    | succ n ih =>
        rw [Function.iterate_succ_apply']
        exact ih.tail (hf _)
  obtain ⟨l₁, l₂, rfl⟩ := List.append_of_mem
    ((List.mem_cons.mp (h.reaches_iff.mp hreach)).resolve_left hne)
  refine ⟨l₁, l₂, rfl, ?_⟩
  by_contra hlen
  have hs := h.cons_seg
  rw [← List.cons_append] at hs
  obtain ⟨m, hs, -, -⟩ := isSeg_append.mp hs
  have hn : n < (a :: l₁).length := by
    rw [List.length_cons]
    omega
  have hmem : b ∈ a :: l₁ := by
    rw [← hb, IsSeg.iterate hf hs hn]
    exact List.getElem_mem hn
  have hnd := h.nodup
  rw [← List.cons_append] at hnd
  exact (List.nodup_append.mp hnd).2.2 b hmem b List.mem_cons_self rfl

section update

variable [DecidableEq α]

/-- Linking a new cell behind the first. -/
theorem insert (h : IsRing next a l) (hb : b ∉ a :: l) :
    IsRing (Function.update (Function.update next a (some b)) b (next a)) a (b :: l) := by
  have hba : b ≠ a := fun e => hb (e ▸ List.mem_cons_self)
  have hbl : b ∉ l := fun hl => hb (List.mem_cons_of_mem a hl)
  refine ⟨?_, ?_⟩
  · rw [Function.update_of_ne hba.symm, Function.update_self]
    refine ⟨rfl, ?_⟩
    rw [Function.update_self]
    exact (h.seg.update_of_notMem h.notMem _).update_of_notMem hbl _
  · have hp : List.Perm (a :: b :: l) (b :: a :: l) := List.Perm.swap b a l
    exact hp.nodup_iff.mpr (List.nodup_cons.mpr ⟨hb, h.nodup⟩)

/-- Taking the first cell out: its predecessor is linked to its successor. -/
theorem remove (h : IsRing next a (b :: l)) (hc : c ∈ b :: l) (hn : next c = some a) :
    IsRing (Function.update next c (next a)) b l := by
  obtain ⟨m, d, e, -, hd⟩ := h.exists_pred
  obtain rfl : c = d := by
    have hcm : c ∈ m ++ [d] := e ▸ List.mem_cons_of_mem a hc
    rcases List.mem_append.mp hcm with hcm | hcm
    · exact absurd hn (h.next_ne_of_init e hcm)
    · exact List.mem_singleton.mp hcm
  obtain ⟨m', hm⟩ : ∃ m', b :: l = m' ++ [c] := by
    cases m with
    | nil => simp at e
    | cons d m => exact ⟨m, (List.cons.inj e).2⟩
  have hnd := (List.nodup_cons.mp h.nodup).2
  have hs : IsSeg (Function.update next c (next a)) (next a) (b :: l) (next a) := by
    rw [hm]
    exact IsSeg.update_last (hm ▸ hnd) _ (hm ▸ h.seg)
  rw [h.next_eq] at hs ⊢
  exact ⟨hs.2, hnd⟩

end update

/-! ### The search loops -/

variable {stop : α → Bool} {n : ℕ}

/-- The loop that looks for the predecessor of the first cell finds it. -/
theorem seek_pred (h : IsRing next a l) (hn : l.length < n) (ht : ∀ p, stop p = true ↔ next p = some a) :
    ∃ c ∈ a :: l, next c = some a ∧ seek next stop n a = some c := by
  obtain ⟨m, c, e, hs, hc⟩ := h.exists_pred
  have hlen := congrArg List.length e
  simp only [List.length_cons, List.length_append, List.length_nil] at hlen
  refine ⟨c, by simp [e], hc, seek_seg hs (fun b hb => ?_) ((ht c).mpr hc) (by omega)⟩
  exact Bool.eq_false_iff.mpr fun hb' => h.next_ne_of_init e hb ((ht b).mp hb')

/-- The loop that starts behind the first cell stops at the first cell that passes the test. -/
theorem seek_next {p : α} (h : IsRing next a (l₁ ++ b :: l₂)) (hp : next a = some p)
    (hl : ∀ c ∈ l₁, stop c = false) (hb : stop b = true) (hn : l₁.length < n) :
    seek next stop n p = some b := by
  obtain ⟨m, h₁, rfl, -⟩ := isSeg_append.mp h.seg
  rw [hp] at h₁
  exact seek_seg h₁ hl hb hn

/-- It comes back to the first cell when no other passes the test. -/
theorem seek_none {p : α} (h : IsRing next a l) (hp : next a = some p)
    (hl : ∀ c ∈ l, stop c = false) (ha : stop a = true) (hn : l.length < n) :
    seek next stop n p = some a := by
  have hs := h.seg
  rw [hp] at hs
  exact seek_seg hs hl ha hn

end IsRing
end Linked
