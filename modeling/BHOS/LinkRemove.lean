import BHOS.Link

/-! # Removing a node from a list

The two removal functions look at the node behind the probe and call `_remove_next_node` on the
probe, which sets its `next` to `NULL`.  So they never look at the head, and they cut the list
behind the probe instead of taking one node out (`linkRemove_cases`).  They do what a removal
should do exactly when the head is not looked for and the first hit is the last node.

`link_find_node_by_data` starts at the head, and it returns its argument. -/

namespace BHOS

open Linked

namespace Links

variable {σ : Type} {lk : LinkLock σ} {U : σ → Prop} {s t : Links σ} {hit : UInt32 → Bool}
  {l pre l₂ : List UInt32} {a n p : UInt32} {k : ℕ}

/-! ### What the loops do -/

/-- The removal loop stops at the end of the list or in front of the first hit behind `a`. -/
theorem removeFrom_cases (hs : IsList s.nodeNext (some a) (a :: l)) (hk : l.length < k) :
    (∀ n ∈ l, hit n = false) ∧ s.removeFrom lk hit k a = some (false, s) ∨
      ∃ l₁ p n l₂, a :: l = l₁ ++ p :: n :: l₂ ∧ (∀ m ∈ (l₁ ++ [p]).tail, hit m = false) ∧
        hit n = true ∧ s.removeFrom lk hit k a = s.removeNextNode lk p := by
  induction l generalizing a k with
  | nil =>
      obtain ⟨k, rfl⟩ : ∃ m, k = m + 1 := ⟨k - 1, by omega⟩
      have hnext : s.nodeNext a = none := hs.2
      refine Or.inl ⟨by simp, ?_⟩
      simp only [removeFrom, hnext]
  | cons b l ih =>
      obtain ⟨k, rfl⟩ : ∃ m, k = m + 1 := ⟨k - 1, by omega⟩
      obtain ⟨-, hs⟩ := hs
      have hnext : s.nodeNext a = some b := hs.1
      cases hb : hit b with
      | true =>
          refine Or.inr ⟨[], a, b, l, rfl, by simp, hb, ?_⟩
          simp only [removeFrom, hnext, hb, if_true]
      | false =>
          have hstep : s.removeFrom lk hit (k + 1) a = s.removeFrom lk hit k b := by
            simp only [removeFrom, hnext, hb, Bool.false_eq_true, if_false]
          rw [hnext] at hs
          rw [hstep]
          apply (ih hs (by simpa using hk)).imp
          · rintro ⟨hno, hrem⟩
            exact ⟨List.forall_mem_cons.mpr ⟨hb, hno⟩, hrem⟩
          · rintro ⟨l₁, p, n, l₂, hl, hno, hn, hrem⟩
            refine ⟨a :: l₁, p, n, l₂, by rw [hl]; rfl, ?_, hn, hrem⟩
            have hpre : l₁ ++ [p] = b :: (l₁ ++ [p]).tail := by
              cases l₁ with
              | nil => rw [(List.cons.inj hl).1]; rfl
              | cons c l₁ => rw [(List.cons.inj hl).1]; rfl
            rw [List.cons_append, List.tail_cons, hpre]
            exact List.forall_mem_cons.mpr ⟨hb, hno⟩

/-- **What the removal functions do.**  Without a hit behind the head nothing; else they cut the
list in front of the first one. -/
theorem linkRemove_cases (hlk : Open lk U) (hl : s.Holds l) (hs : s.Ready U) (hit : UInt32 → Bool) :
    (∀ n ∈ l.tail, hit n = false) ∧ s.linkRemove lk hit = some (false, s) ∨
      ∃ pre n l₂ t, l = pre ++ n :: l₂ ∧ pre ≠ [] ∧ (∀ m ∈ pre.tail, hit m = false) ∧
        hit n = true ∧ s.linkRemove lk hit = some (true, t) ∧ t.Holds pre ∧ t.Ready U ∧
        ∀ m, (t.node m).data = (s.node m).data := by
  cases l with
  | nil =>
      have hhead : s.head = none := hl
      exact Or.inl ⟨by simp, by simp only [linkRemove, hhead]⟩
  | cons a l =>
      have hhead : s.head = some a := hl.1
      have hlen := hl.length_le
      have hrem : s.linkRemove lk hit = s.removeFrom lk hit listBound a := by
        simp only [linkRemove, hhead]
      have hl' : IsList s.nodeNext (some a) (a :: l) := hhead ▸ hl
      rw [hrem]
      apply (removeFrom_cases hl' hlen).imp id
      rintro ⟨l₁, p, n, l₂, he, hno, hn, hcall⟩
      rw [he] at hl
      have hnext : s.nodeNext p ≠ none := by
        have h := IsList.next_of_split hl
        rw [h]
        simp
      obtain ⟨x, hx, hready⟩ := locked_eq hlk hs (keepsLock_setNext p none)
      refine ⟨l₁ ++ [p], n, l₂, { s.setNext p none with lock := x }, by rw [he]; simp, by simp, hno,
        hn, ?_, ?_, hready, fun m => data_setNext s p m none⟩
      · rw [hcall, removeNextNode, if_neg hnext, hx]
        rfl
      · rw [holds_lock, Holds, head_setNext, nodeNext_setNext]
        exact IsList.cut hl

/-- The search returns its argument when a node carries it. -/
theorem findFrom_eq {d : UInt32} {h : Option UInt32} (hl : IsList s.nodeNext h l)
    (hk : l.length < k) :
    s.findFrom d k h = some (if l.any (s.carries d) then asNodePtr d else none) := by
  induction l generalizing h k with
  | nil =>
      obtain ⟨k, rfl⟩ : ∃ m, k = m + 1 := ⟨k - 1, by omega⟩
      have hh : h = none := hl
      subst hh
      rfl
  | cons a l ih =>
      obtain ⟨k, rfl⟩ : ∃ m, k = m + 1 := ⟨k - 1, by omega⟩
      obtain ⟨rfl, hl⟩ := hl
      rw [findFrom, List.any_cons]
      by_cases ha : (s.node a).data = d
      · rw [if_pos ha]
        simp [carries, ha]
      · rw [if_neg ha, ih hl (by simpa using hk)]
        simp [carries, ha]

theorem linkFindNodeByData_eq (hl : s.Holds l) (d : UInt32) :
    s.linkFindNodeByData d = some (if l.any (s.carries d) then asNodePtr d else none) := by
  unfold linkFindNodeByData
  by_cases hhead : s.head = none
  · have hnil : l = [] := (IsList.eq_nil_iff hl).mpr hhead
    rw [if_pos hhead, hnil]
    rfl
  · rw [if_neg hhead]
    exact findFrom_eq hl (Nat.lt_succ_of_le hl.length_le)

/-! ### Removal takes out one node -/

/-- `r` and `t` are what a removal of the first hit in the list `l` of `s` gives. -/
structure RemovesFirst (hit : UInt32 → Bool) (l : List UInt32) (r : Bool) (s t : Links σ) :
    Prop where
  found : r = true ↔ ∃ n ∈ l, hit n = true
  removed : r = true → t.Holds (l.eraseP hit)
  kept : r = false → t.Holds l
  data : ∀ n, (t.node n).data = (s.node n).data

/-- The head is no hit, and neither is any other node but the last. -/
def OnlyLast (hit : UInt32 → Bool) (l : List UInt32) : Prop :=
  (∀ n ∈ l.head?, hit n = false) ∧ ∀ n ∈ l.dropLast, hit n = false

/-- Erasing the hit `n` leaves what was in front of it exactly when it was the first hit and the
last node. -/
theorem eraseP_eq_iff (hnd : (pre ++ n :: l₂).Nodup) (hn : hit n = true) :
    (pre ++ n :: l₂).eraseP hit = pre ↔ (∀ m ∈ pre, hit m = false) ∧ l₂ = [] := by
  by_cases hpre : ∃ m ∈ pre, hit m = true
  · obtain ⟨m, hm, hhit⟩ := hpre
    constructor
    · intro h
      rw [List.eraseP_append_left hhit _ hm] at h
      have hmem : n ∈ pre := by
        rw [← h]
        simp
      rw [List.nodup_append] at hnd
      exact absurd rfl (hnd.2.2 n hmem n (by simp))
    · intro h
      rw [h.1 m hm] at hhit
      cases hhit
  · have hno : ∀ m ∈ pre, hit m = false := by
      intro m hm
      rw [← Bool.not_eq_true]
      exact fun hhit => hpre ⟨m, hm, hhit⟩
    rw [List.eraseP_append_right _ (fun m hm => by simp [hno m hm]),
      List.eraseP_cons_of_pos hn]
    rw [List.append_right_eq_self]
    exact ⟨fun h => ⟨hno, h⟩, fun h => h.2⟩

theorem onlyLast_iff (hne : pre ≠ []) (hn : hit n = true) :
    OnlyLast hit (pre ++ n :: l₂) ↔ (∀ m ∈ pre, hit m = false) ∧ l₂ = [] := by
  obtain ⟨a, pre, rfl⟩ := List.exists_cons_of_ne_nil hne
  have hdrop : (a :: pre ++ n :: l₂).dropLast = a :: pre ++ (n :: l₂).dropLast :=
    List.dropLast_append_of_ne_nil (by simp)
  unfold OnlyLast
  rw [hdrop]
  constructor
  · rintro ⟨-, h⟩
    refine ⟨fun m hm => h m (List.mem_append_left _ hm), ?_⟩
    cases l₂ with
    | nil => rfl
    | cons b l₂ =>
        have hmiss := h n (by simp)
        rw [hn] at hmiss
        cases hmiss
  · rintro ⟨h, rfl⟩
    refine ⟨?_, ?_⟩
    · intro m hm
      obtain rfl : a = m := by simpa using hm
      exact h a (by simp)
    · intro m hm
      exact h m (by simpa using hm)

/-- What a removal does with one node, for any test of the nodes. -/
theorem linkRemove_iff (hlk : Open lk U) (hl : s.Holds l) (hs : s.Ready U) (hit : UInt32 → Bool) :
    ∃ r t, s.linkRemove lk hit = some (r, t) ∧ (RemovesFirst hit l r s t ↔ OnlyLast hit l) := by
  rcases linkRemove_cases hlk hl hs hit with
    ⟨hno, hrem⟩ | ⟨pre, n, l₂, t, rfl, hne, -, hn, hrem, ht, -, hdata⟩
  · refine ⟨false, s, hrem, ?_⟩
    constructor
    · intro h
      have hmiss : ∀ n ∈ l, hit n = false := by
        intro n hn
        rw [← Bool.not_eq_true]
        intro hhit
        have := h.found.mpr ⟨n, hn, hhit⟩
        cases this
      refine ⟨?_, ?_⟩
      · intro n hn
        exact hmiss n (List.mem_of_mem_head? hn)
      · intro n hn
        exact hmiss n ((List.dropLast_sublist l).subset hn)
    · intro h
      refine ⟨?_, by simp, fun _ => hl, fun _ => rfl⟩
      simp only [Bool.false_eq_true, false_iff, not_exists, not_and, Bool.not_eq_true]
      intro n hn
      cases l with
      | nil => cases hn
      | cons a l =>
          rcases List.mem_cons.mp hn with rfl | hn
          · exact h.1 n rfl
          · exact hno n hn
  · refine ⟨true, t, hrem, ?_⟩
    rw [onlyLast_iff hne hn, ← eraseP_eq_iff hl.nodup hn]
    constructor
    · intro h
      exact (h.removed rfl).unique ht
    · intro h
      refine ⟨⟨fun _ => ⟨n, by simp, hn⟩, fun _ => rfl⟩, fun _ => h.symm ▸ ht, by simp, hdata⟩

/-- **Removal takes out one node exactly when that node is the last.**  `link_remove_by_data`
(`link_remove_by_node`) returns, and it takes out the first node that carries the datum (the
given node) and nothing else exactly when the head is not such a node and no node but the last
is. -/
theorem removesFirst_iff_onlyLast (hlk : Open lk U) (hl : s.Holds l) (hs : s.Ready U) :
    (∀ d, ∃ r t, s.linkRemoveByData lk d = some (r, t) ∧
        (RemovesFirst (s.carries d) l r s t ↔ OnlyLast (s.carries d) l)) ∧
      ∀ x, ∃ r t, s.linkRemoveByNode lk x = some (r, t) ∧
        (RemovesFirst (fun n => n == x) l r s t ↔ OnlyLast (fun n => n == x) l) :=
  ⟨fun _ => linkRemove_iff hlk hl hs _, fun _ => linkRemove_iff hlk hl hs _⟩

/-- Three nodes that carry 5, 7 and 9. -/
def threeNodes : Links Sync :=
  sample (fun n => if n = 0x1000 then ⟨some 0x2000, 5⟩ else
    if n = 0x2000 then ⟨some 0x3000, 7⟩ else ⟨none, 9⟩) (some 0x1000)

theorem holds_threeNodes : threeNodes.Holds [0x1000, 0x2000, 0x3000] := ⟨rfl, rfl, rfl, rfl⟩

/-- The last node is taken out. -/
theorem removesFirst_iff_onlyLast_threeNodes :
    ∃ r t, threeNodes.linkRemoveByData (Sync.linkLock 0x500 0x600) 9 = some (r, t) ∧
      RemovesFirst (threeNodes.carries 9) [0x1000, 0x2000, 0x3000] r threeNodes t := by
  obtain ⟨r, t, h, hiff⟩ := (removesFirst_iff_onlyLast (Sync.linkLock_open 0x500 0x600)
    holds_threeNodes (sample_ready _ _)).1 9
  refine ⟨r, t, h, hiff.mpr ⟨?_, ?_⟩⟩
  · intro n hn
    obtain rfl : 0x1000 = n := by simpa using hn
    decide
  · intro n hn
    obtain rfl | rfl : n = 0x1000 ∨ n = 0x2000 := by simpa using hn
    · decide
    · decide

/-- Removing the node in the middle loses the last node. -/
theorem not_removesFirst_threeNodes :
    ∃ r t, threeNodes.linkRemoveByData (Sync.linkLock 0x500 0x600) 7 = some (r, t) ∧
      ¬ RemovesFirst (threeNodes.carries 7) [0x1000, 0x2000, 0x3000] r threeNodes t := by
  obtain ⟨r, t, h, hiff⟩ := linkRemove_iff (Sync.linkLock_open 0x500 0x600) holds_threeNodes
    (sample_ready _ _) (threeNodes.carries 7)
  refine ⟨r, t, h, ?_⟩
  intro hrem
  have hmiss := (hiff.mp hrem).2 0x2000 (by simp)
  exact absurd hmiss (by decide)

/-! ### Search and removal -/

/-- The loop `while (link_remove_by_data(link, data));`, with at most so many rounds. -/
def removeUntilFalse (lk : LinkLock σ) (data : UInt32) : ℕ → Links σ → Option (Links σ)
  | 0, _ => none
  | k + 1, s => do
      let (r, s) ← s.linkRemoveByData lk data
      if r then removeUntilFalse lk data k s else some s

/-- The search result `f`, the removal result `r` with the state `t` behind it and the state `u`
after the last removal agree about the datum. -/
structure Agrees (data : UInt32) (l : List UInt32) (s : Links σ) (f : Option UInt32) (r : Bool)
    (t u : Links σ) : Prop where
  reports : f ≠ none ↔ r = true
  first : ∀ n, f = some n → l.find? (s.carries data) = some n ∧
    ∃ l', t.Holds l' ∧ l.find? (fun m => decide (m ∉ l')) = some n
  cleared : u.linkFindNodeByData data = some none

/-- What makes search and removal agree: of the datum `NULL`, only the head may be a carrier; of
another datum the first carrier is not the head and lies at the address that the datum gives. -/
def SelfNamed (data : UInt32) (l : List UInt32) (s : Links σ) : Prop :=
  if data = 0 then ∀ n ∈ l.tail, s.carries data n = false
  else ∀ n, l.find? (s.carries data) = some n → l.head? ≠ some n ∧ n = data

/-- The first node that is missing from the part in front of it. -/
theorem find?_notMem (hnd : (pre ++ n :: l₂).Nodup) :
    (pre ++ n :: l₂).find? (fun m => decide (m ∉ pre)) = some n := by
  rw [List.find?_append, List.find?_eq_none.mpr (by simp)]
  have hn : n ∉ pre := by
    intro hmem
    rw [List.nodup_append] at hnd
    exact hnd.2.2 n hmem n (by simp) rfl
  simp [hn]

theorem find?_hit (hn : hit n = true) (hno : ∀ m ∈ pre, hit m = false) :
    (pre ++ n :: l₂).find? hit = some n := by
  rw [List.find?_append, List.find?_eq_none.mpr (fun m hm => by simp [hno m hm])]
  simp [hn]

theorem asNodePtr_of_ne {d : UInt32} (hd : d ≠ 0) : asNodePtr d = some d := if_neg hd

/-- Without a carrier behind the head a removal does nothing. -/
theorem agrees_of_kept {d : UInt32} (hl : s.Holds l) (hno : ∀ n ∈ l.tail, s.carries d n = false) :
    Agrees d l s (if l.any (s.carries d) then asNodePtr d else none) false s s ↔
      SelfNamed d l s := by
  have hfind := linkFindNodeByData_eq hl d
  by_cases hd : d = 0
  · subst hd
    have hnull : (if l.any (s.carries 0) then asNodePtr 0 else none) = none := by
      split_ifs <;> rfl
    rw [hnull] at hfind ⊢
    unfold SelfNamed
    rw [if_pos rfl]
    exact iff_of_true ⟨by simp, by simp, hfind⟩ hno
  · cases hany : l.any (s.carries d) with
    | false =>
        have hmiss : l.find? (s.carries d) = none := by
          rw [List.find?_eq_none]
          simpa [List.any_eq_false] using hany
        rw [hany] at hfind
        unfold SelfNamed
        rw [if_neg hd, hmiss]
        exact iff_of_true ⟨by simp, by simp, hfind⟩ (by simp)
    | true =>
        obtain ⟨m, hm, hhit⟩ := List.any_eq_true.mp hany
        cases l with
        | nil => cases hm
        | cons a l =>
            rcases List.mem_cons.mp hm with rfl | hm
            · apply iff_of_false
              · intro h
                have hrep := h.reports
                simp [asNodePtr_of_ne hd] at hrep
              · unfold SelfNamed
                rw [if_neg hd, List.find?_cons_of_pos hhit]
                intro h
                exact (h m rfl).1 rfl
            · rw [hno m hm] at hhit
              cases hhit

/-- When the list is cut in front of a carrier `n`. -/
theorem agrees_of_cut {d : UInt32} (hl : s.Holds (pre ++ n :: l₂)) (hne : pre ≠ [])
    (hno : ∀ m ∈ pre.tail, s.carries d m = false) (hn : s.carries d n = true) (ht : t.Holds pre)
    (hdata : ∀ m, (t.node m).data = (s.node m).data) :
    Agrees d (pre ++ n :: l₂) s (asNodePtr d) true t t ↔ SelfNamed d (pre ++ n :: l₂) s := by
  obtain ⟨a, pre, rfl⟩ := List.exists_cons_of_ne_nil hne
  have hcarr : t.carries d = s.carries d := by
    funext m
    simp only [carries, hdata]
  by_cases hd : d = 0
  · subst hd
    apply iff_of_false
    · intro h
      have hrep := h.reports
      simp [asNodePtr] at hrep
    · unfold SelfNamed
      rw [if_pos rfl]
      intro h
      have hmiss := h n (by simp)
      rw [hn] at hmiss
      cases hmiss
  · unfold SelfNamed
    rw [if_neg hd]
    cases ha : s.carries d a with
    | true =>
        apply iff_of_false
        · intro h
          have hclear := h.cleared
          rw [linkFindNodeByData_eq ht, hcarr, List.any_cons, ha] at hclear
          simp [asNodePtr_of_ne hd] at hclear
        · intro h
          exact (h a (by simp [ha])).1 rfl
    | false =>
        have hpre : ∀ m ∈ a :: pre, s.carries d m = false := List.forall_mem_cons.mpr ⟨ha, hno⟩
        rw [find?_hit hn hpre]
        constructor
        · intro h m hm
          obtain ⟨h₁, h₂, ht', h₃⟩ := h.first d (asNodePtr_of_ne hd)
          rw [find?_hit hn hpre] at h₁
          obtain rfl := Option.some.inj hm
          refine ⟨?_, Option.some.inj h₁⟩
          intro e
          obtain rfl : a = n := by simpa using e
          rw [hn] at ha
          cases ha
        · intro h
          obtain ⟨-, rfl⟩ := h n rfl
          refine ⟨by simp [asNodePtr_of_ne hd], ?_, ?_⟩
          · intro m hm
            rw [asNodePtr_of_ne hd] at hm
            obtain rfl := Option.some.inj hm
            exact ⟨find?_hit hn hpre, _, ht, find?_notMem hl.nodup⟩
          · rw [linkFindNodeByData_eq ht, hcarr]
            have hany : (a :: pre).any (s.carries n) = false := by
              rw [List.any_eq_false]
              intro m hm
              rw [hpre m hm]
              simp
            rw [hany]
            rfl

/-- **Search and removal agree exactly when** no node but the head carries `NULL`, or the first
node that carries another datum is not the head and has the datum for its address. -/
theorem agrees_iff_selfNamed (hlk : Open lk U) (hl : s.Holds l) (hs : s.Ready U) (d : UInt32) :
    ∃ f r t k u, s.linkFindNodeByData d = some f ∧ s.linkRemoveByData lk d = some (r, t) ∧
      removeUntilFalse lk d k s = some u ∧ (Agrees d l s f r t u ↔ SelfNamed d l s) := by
  have hfind := linkFindNodeByData_eq hl d
  rcases linkRemove_cases hlk hl hs (s.carries d) with
    ⟨hno, hrem⟩ | ⟨pre, n, l₂, t, rfl, hne, hno, hn, hrem, ht, hready, hdata⟩
  · refine ⟨_, false, s, 1, s, hfind, hrem, ?_, agrees_of_kept hl hno⟩
    simp only [removeUntilFalse, linkRemoveByData, hrem, Option.bind_eq_bind, Option.bind_some]
    rfl
  · have hany : (pre ++ n :: l₂).any (s.carries d) = true :=
      List.any_eq_true.mpr ⟨n, by simp, hn⟩
    have hcarr : t.carries d = s.carries d := by
      funext m
      simp only [carries, hdata]
    -- the second removal finds nothing in front of the cut
    have hrem' : t.linkRemoveByData lk d = some (false, t) := by
      rw [linkRemoveByData, hcarr]
      rcases linkRemove_cases hlk ht hready (s.carries d) with
        ⟨-, h⟩ | ⟨pre', m, l₃, v, rfl, hne', -, hm, -⟩
      · exact h
      · obtain ⟨b, pre', rfl⟩ := List.exists_cons_of_ne_nil hne'
        have hmiss := hno m (by simp)
        rw [hm] at hmiss
        cases hmiss
    rw [hany, if_pos rfl] at hfind
    refine ⟨_, true, t, 2, t, hfind, hrem, ?_, agrees_of_cut hl hne hno hn ht hdata⟩
    have hrem'' : s.linkRemoveByData lk d = some (true, t) := hrem
    simp only [removeUntilFalse, hrem'', hrem', Option.bind_eq_bind, Option.bind_some]
    rfl

/-- Two nodes; the second carries its own address. -/
def twoNodes : Links Sync :=
  sample (fun n => if n = 0x1000 then ⟨some 0x2000, 5⟩ else ⟨none, n⟩) (some 0x1000)

theorem agrees_iff_selfNamed_twoNodes :
    ∃ f r t k u, twoNodes.linkFindNodeByData 0x2000 = some f ∧
      twoNodes.linkRemoveByData (Sync.linkLock 0x500 0x600) 0x2000 = some (r, t) ∧
      removeUntilFalse (Sync.linkLock 0x500 0x600) 0x2000 k twoNodes = some u ∧
      Agrees 0x2000 [0x1000, 0x2000] twoNodes f r t u := by
  obtain ⟨f, r, t, k, u, hf, hr, hu, hiff⟩ := agrees_iff_selfNamed (s := twoNodes)
    (l := [0x1000, 0x2000]) (Sync.linkLock_open 0x500 0x600) ⟨rfl, rfl, rfl⟩ (sample_ready _ _)
    0x2000
  refine ⟨f, r, t, k, u, hf, hr, hu, hiff.mpr ?_⟩
  unfold SelfNamed
  rw [if_neg (by decide)]
  intro n hn
  obtain rfl : 0x2000 = n := Option.some.inj hn
  exact ⟨by decide, rfl⟩

/-- The datum of the head is found but never removed. -/
theorem not_agrees_threeNodes :
    ∃ f r t k u, threeNodes.linkFindNodeByData 5 = some f ∧
      threeNodes.linkRemoveByData (Sync.linkLock 0x500 0x600) 5 = some (r, t) ∧
      removeUntilFalse (Sync.linkLock 0x500 0x600) 5 k threeNodes = some u ∧
      ¬ Agrees 5 [0x1000, 0x2000, 0x3000] threeNodes f r t u := by
  have hno : ∀ n ∈ [0x2000, 0x3000], threeNodes.carries 5 n = false := by
    intro n hn
    rcases List.mem_pair.mp hn with rfl | rfl
    · rfl
    · rfl
  have hrem : threeNodes.linkRemoveByData (Sync.linkLock 0x500 0x600) 5 =
      some (false, threeNodes) := by
    rcases linkRemove_cases (Sync.linkLock_open 0x500 0x600) holds_threeNodes
      (sample_ready _ _) (threeNodes.carries 5) with ⟨-, h⟩ | ⟨pre, n, l₂, t, he, hne, -, hn, -⟩
    · exact h
    · obtain ⟨a, pre, rfl⟩ := List.exists_cons_of_ne_nil hne
      have hmiss := hno n (by rw [(List.cons.inj he).2]; simp)
      rw [hn] at hmiss
      cases hmiss
  refine ⟨_, false, threeNodes, 1, threeNodes, linkFindNodeByData_eq holds_threeNodes 5, hrem, ?_, ?_⟩
  · simp only [removeUntilFalse, hrem, Option.bind_eq_bind, Option.bind_some]
    rfl
  · rw [agrees_of_kept holds_threeNodes hno]
    unfold SelfNamed
    rw [if_neg (by decide)]
    intro h
    exact (h 0x1000 rfl).1 rfl

end Links
end BHOS
