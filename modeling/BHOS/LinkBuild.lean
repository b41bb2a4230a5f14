import BHOS.Link

/-! # Building a list

A list is initialised once and then nodes that are not in it are added at either end.  The
abstract list is a sequence.  `link_add_head` sets the `next` pointer of its node, `link_add_tail`
relies on it to be `NULL`, and neither initialisation sets `head`: a run refines the sequence
exactly when these fields happen to be `NULL` beforehand. -/

namespace BHOS

open Linked Transition

/-- The insertions. -/
inductive LinkOp
  | addHead (node : UInt32)
  | addTail (node : UInt32)
deriving DecidableEq

namespace LinkOp

/-- The node that is inserted. -/
def node : LinkOp → UInt32
  | addHead n => n
  | addTail n => n

/-- The insertion into a sequence. -/
def apply : LinkOp → List UInt32 → List UInt32
  | addHead n, l => n :: l
  | addTail n, l => l ++ [n]

/-- The insertions into a sequence, one after the other. -/
def sequence (ops : List LinkOp) (l : List UInt32) : List UInt32 :=
  ops.foldl (fun l op => op.apply l) l

theorem mem_apply {op : LinkOp} {l : List UInt32} {m : UInt32} :
    m ∈ op.apply l ↔ m = op.node ∨ m ∈ l := by
  cases op with
  | addHead n => exact List.mem_cons
  | addTail n => simp [apply, node, or_comm]

end LinkOp

namespace Links

variable {σ : Type} (lk : LinkLock σ)

/-- One insertion. -/
def insert : LinkOp → Links σ → Option (Links σ)
  | .addHead n, s => s.linkAddHead lk n
  | .addTail n, s => s.linkAddTail lk n

/-- `link_init_lock` or `link_init_without_lock`. -/
def linkInit (withLock : Bool) (s : Links σ) : Links σ :=
  if withLock then s.linkInitLock lk else s.linkInitWithoutLock

variable {lk} {U : σ → Prop} {s t : Links σ} {l : List UInt32} {n : UInt32} {op : LinkOp}
  {ops : List LinkOp}

/-! ### One insertion -/

theorem linkAddHead_eq (hlk : Open lk U) (hl : s.Holds l) (hs : s.Ready U) (hn : n ∉ l) :
    ∃ t, s.linkAddHead lk n = some t ∧ t.Ready U ∧ t.Holds (n :: l) ∧
      ∀ m, m ≠ n → t.nodeNext m = s.nodeNext m := by
  obtain ⟨x, hx, hready⟩ := locked_eq hlk hs (keepsLock_push n)
  refine ⟨_, hx, hready, ?_, ?_⟩
  · rw [holds_lock, Holds, head_setNext, nodeNext_setNext]
    refine ⟨rfl, ?_⟩
    rw [Function.update_self]
    exact IsList.update_of_notMem hn _ hl
  · intro m hm
    change ((s.setHead (some n)).setNext n s.head).nodeNext m = s.nodeNext m
    rw [nodeNext_setNext, Function.update_of_ne hm]
    rfl

/-- `link_add_tail` appends its node, with whatever hangs behind it. -/
theorem linkAddTail_eq (hlk : Open lk U) (hl : s.Holds l) (hs : s.Ready U) (hn : n ∉ l) :
    ∃ t, s.linkAddTail lk n = some t ∧ t.Ready U ∧
      (t.Holds (l ++ [n]) ↔ s.nodeNext n = none) ∧ ∀ m ∉ l, t.nodeNext m = s.nodeNext m := by
  rcases List.eq_nil_or_concat l with rfl | ⟨l, a, rfl⟩
  · have hhead : s.head = none := hl
    obtain ⟨x, hx, hready⟩ := locked_eq hlk hs (keepsLock_setHead (some n))
    refine ⟨_, ?_, hready, ?_, fun _ _ => rfl⟩
    · simp only [linkAddTail, hhead]
      exact hx
    · exact ⟨fun h => h.2, fun h => ⟨rfl, h⟩⟩
  · rw [List.concat_eq_append] at hl hn ⊢
    obtain ⟨p, hhead⟩ := IsList.exists_head hl (by simp)
    have hlen := hl.length_le
    have hl' : IsList s.nodeNext (some p) (l ++ [a]) := hhead ▸ hl
    rw [List.length_append] at hlen
    have hseek := hl'.seek_last (n := listBound) hlen
    obtain ⟨x, hx, hready⟩ := locked_eq hlk hs (keepsLock_setNext a (some n))
    have hna : n ≠ a := fun e => hn (by simp [e])
    have hnext : ∀ m ∉ l ++ [a], (s.setNext a (some n)).nodeNext m = s.nodeNext m := by
      intro m hm
      have hma : m ≠ a := fun e => hm (by simp [e])
      rw [nodeNext_setNext, Function.update_of_ne hma]
    refine ⟨_, ?_, hready, ?_, hnext⟩
    · simp only [linkAddTail, hhead, hseek, Option.bind_eq_bind, Option.bind_some]
      exact hx
    · rw [holds_lock]
      constructor
      · intro h
        have hend := (isSeg_concat.mp h).2
        rwa [hnext n hn] at hend
      · intro h
        rw [Holds, head_setNext, nodeNext_setNext]
        exact IsList.append_cell hl hn h

/-- One insertion of a node that is not in the list. -/
theorem insert_eq (hlk : Open lk U) (hl : s.Holds l) (hs : s.Ready U) (hn : op.node ∉ l) :
    ∃ t, insert lk op s = some t ∧ t.Ready U ∧
      (t.Holds (op.apply l) ↔ ∀ n, op = .addTail n → s.nodeNext n = none) ∧
      ∀ m, m ≠ op.node → m ∉ l → t.nodeNext m = s.nodeNext m := by
  cases op with
  | addHead n =>
      obtain ⟨t, ht, hready, hholds, hnext⟩ := linkAddHead_eq hlk hl hs hn
      exact ⟨t, ht, hready, iff_of_true hholds (by simp), fun m hm _ => hnext m hm⟩
  | addTail n =>
      obtain ⟨t, ht, hready, hholds, hnext⟩ := linkAddTail_eq hlk hl hs hn
      refine ⟨t, ht, hready, hholds.trans ?_, fun m _ hm => hnext m hm⟩
      simp [LinkOp.node]

/-! ### Sequences of insertions -/

/-- After every part of the run the list is what the insertions make of the sequence `l`. -/
def Refines (lk : LinkLock σ) (s : Links σ) (l : List UInt32) (ops : List LinkOp) : Prop :=
  ∀ es, es <+: ops → ∃ t, run (insert lk) es s = some t ∧ t.Holds (LinkOp.sequence es l)

theorem refines_nil : Refines lk s l [] ↔ s.Holds l := by
  unfold Refines
  simp [LinkOp.sequence]

theorem refines_cons (hstep : insert lk op s = some t) :
    Refines lk s l (op :: ops) ↔ s.Holds l ∧ Refines lk t (op.apply l) ops := by
  constructor
  · intro h
    refine ⟨?_, ?_⟩
    · obtain ⟨u, hu, hl⟩ := h [] List.nil_prefix
      obtain rfl := Option.some.inj hu
      exact hl
    · intro es hes
      obtain ⟨u, hu, hl⟩ := h (op :: es) (List.cons_prefix_cons.mpr ⟨rfl, hes⟩)
      rw [run_cons_of_step hstep] at hu
      exact ⟨u, hu, hl⟩
  · rintro ⟨hl, h⟩ es hes
    cases es with
    | nil => exact ⟨s, rfl, hl⟩
    | cons e es =>
        obtain ⟨rfl, hes'⟩ := List.cons_prefix_cons.mp hes
        obtain ⟨u, hu, hl⟩ := h es hes'
        exact ⟨u, by rw [run_cons_of_step hstep, hu], hl⟩

theorem refines_iff (hlk : Open lk U) (hl : s.Holds l) (hs : s.Ready U)
    (hnd : (ops.map LinkOp.node).Nodup) (hnew : ∀ op ∈ ops, op.node ∉ l) :
    Refines lk s l ops ↔ ∀ n, .addTail n ∈ ops → s.nodeNext n = none := by
  induction ops generalizing s l with
  | nil => simp [refines_nil, hl]
  | cons op ops ih =>
      obtain ⟨t, ht, hready, hholds, hnext⟩ := insert_eq hlk hl hs (hnew op (by simp))
      obtain ⟨hop, hnd⟩ := List.nodup_cons.mp hnd
      rw [refines_cons ht]
      have hkeep : ∀ n, .addTail n ∈ ops → t.nodeNext n = s.nodeNext n := by
        intro n hn
        apply hnext
        · rintro rfl
          exact hop (List.mem_map.mpr ⟨_, hn, rfl⟩)
        · exact hnew _ (List.mem_cons_of_mem op hn)
      by_cases hh : t.Holds (op.apply l)
      · have hnew' : ∀ e ∈ ops, e.node ∉ op.apply l := by
          intro e he hmem
          rcases LinkOp.mem_apply.mp hmem with h | h
          · exact hop (List.mem_map.mpr ⟨e, he, h⟩)
          · exact hnew e (List.mem_cons_of_mem op he) h
        rw [ih hh hready hnd hnew', and_iff_right hl]
        constructor
        · intro h n hn
          rcases List.mem_cons.mp hn with hn | hn
          · exact hholds.mp hh n hn.symm
          · rw [← hkeep n hn]
            exact h n hn
        · intro h n hn
          rw [hkeep n hn]
          exact h n (List.mem_cons_of_mem op hn)
      · apply iff_of_false
        · rintro ⟨-, h⟩
          obtain ⟨u, hu, hu'⟩ := h [] List.nil_prefix
          obtain rfl := Option.some.inj hu
          exact hh hu'
        · intro h
          apply hh
          rw [hholds]
          intro n hn
          exact h n (hn ▸ List.mem_cons_self)

/-- **A list refines the sequence exactly when** `head` was `NULL` before its initialisation and
`next` was `NULL` in every node that is added at the tail. -/
theorem refines_iff_null (hlk : Open lk U) (s : Links σ) (withLock : Bool)
    (hU : withLock = true → U (lk.init s.lock)) (ops : List LinkOp)
    (hnd : (ops.map LinkOp.node).Nodup) :
    Refines lk (linkInit lk withLock s) [] ops ↔
      s.head = none ∧ ∀ n, .addTail n ∈ ops → s.nodeNext n = none := by
  obtain ⟨u, hu⟩ : ∃ u, u = linkInit lk withLock s := ⟨_, rfl⟩
  have hhead : u.head = s.head := by
    subst hu
    cases withLock <;> rfl
  have hnext : u.nodeNext = s.nodeNext := by
    subst hu
    cases withLock <;> rfl
  have hready : u.Ready U := by
    subst hu
    cases withLock with
    | false =>
        intro h
        cases h
    | true => exact fun _ => hU rfl
  rw [← hu]
  by_cases hn : s.head = none
  · have hl : u.Holds [] := hhead.trans hn
    rw [refines_iff hlk hl hready hnd (by simp), hnext, and_iff_right hn]
  · apply iff_of_false
    · intro h
      obtain ⟨t, ht, hl⟩ := h [] List.nil_prefix
      obtain rfl := Option.some.inj ht
      exact hn (hhead.symm.trans hl)
    · exact fun h => hn h.1

/-- Nodes in zeroed memory, and one whose `next` pointer is left from another list. -/
def staleNode : Links Sync :=
  sample (fun n => if n = 0x2000 then ⟨some 0x3000, 0⟩ else ⟨none, 0⟩) none

theorem refines_iff_null_staleNode :
    Refines (Sync.linkLock 0x500 0x600) (linkInit (Sync.linkLock 0x500 0x600) true staleNode) []
      [.addTail 0x1000, .addHead 0x2000, .addTail 0x4000] := by
  refine (refines_iff_null (Sync.linkLock_open 0x500 0x600) staleNode true
    (fun _ => Sync.unlocked_init (by decide) 0x500 0x600) _ (by decide)).mpr ⟨rfl, ?_⟩
  intro n hn
  obtain rfl | rfl : n = 0x1000 ∨ n = 0x4000 := by simpa using hn
  · rfl
  · rfl

/-- Added at the tail, the node brings its old successor along. -/
theorem not_refines_staleNode :
    ¬ Refines (Sync.linkLock 0x500 0x600) (linkInit (Sync.linkLock 0x500 0x600) true staleNode) []
      [.addTail 0x1000, .addTail 0x2000] := by
  intro h
  have hready : (linkInit (Sync.linkLock 0x500 0x600) true staleNode).Ready (Sync.Unlocked 0x500) :=
    fun _ => Sync.unlocked_init (by decide) 0x500 0x600
  have hl : (linkInit (Sync.linkLock 0x500 0x600) true staleNode).Holds [] := rfl
  have hnull := (refines_iff (Sync.linkLock_open 0x500 0x600) hl hready (by decide)
    (by simp)).mp h 0x2000 (by simp)
  cases hnull

end Links
end BHOS
