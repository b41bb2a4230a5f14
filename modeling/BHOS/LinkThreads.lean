import BHOS.LinkBuild

/-! # Insertions by several threads

Each thread runs one call of `link_add_head` or `link_add_tail`.  What a thread does between
`_lock_acquire` and `_lock_release` is one step, and so is every access to `head` or to a `next`
pointer in front of that; threads take turns in any order.  `link_add_tail` looks for the tail
before it takes the lock.  When another insertion falls between the look and the write, the write
overwrites it (`Unchanged` says that this does not happen), and what is lost stays lost. -/

namespace BHOS

open Linked Transition

/-- Where a thread is in its call. -/
inductive AddPc
  | start
  | probe
  | test (probe : UInt32)
  | advance (probe : UInt32)
  | atHead
  | atTail (probe : UInt32)
  | done
deriving DecidableEq

/-- The node a thread holds on to. -/
def AddPc.at? : AddPc → Option UInt32
  | .test p | .advance p | .atTail p => some p
  | _ => none

/-- A list, and the threads that insert into it. -/
structure LinkThreads (ι σ : Type) where
  links : Links σ
  pc : ι → AddPc

namespace Links

variable {σ : Type} (lk : LinkLock σ)

/-- The next step of a call: `start` is the test of `head` or the locked part of `link_add_head`,
`probe` reads `head`, `test` and `advance` read `probe->next` in the test and in the step of the
loop, `atHead` and `atTail` are the locked parts of `link_add_tail`. -/
def goOn (op : LinkOp) : AddPc → Links σ → Option (AddPc × Links σ)
  | .start, s =>
      match op with
      | .addHead n => (s.linkAddHead lk n).map fun s => (.done, s)
      | .addTail _ => some (if s.head = none then .atHead else .probe, s)
  | .probe, s => s.head.map fun p => (.test p, s)
  | .test p, s => some (if s.nodeNext p = none then .atTail p else .advance p, s)
  | .advance p, s => (s.nodeNext p).map fun q => (.test q, s)
  | .atHead, s => (s.locked lk fun s => s.setHead (some op.node)).map fun s => (.done, s)
  | .atTail p, s => (s.locked lk fun s => s.setNext p (some op.node)).map fun s => (.done, s)
  | .done, _ => none

end Links

namespace LinkThreads

variable {ι σ : Type} [DecidableEq ι] (lk : LinkLock σ) (op : ι → LinkOp)

/-- One step of thread `i`. -/
def step (i : ι) (x : LinkThreads ι σ) : Option (LinkThreads ι σ) :=
  (x.links.goOn lk (op i) (x.pc i)).map fun r => ⟨r.2, Function.update x.pc i r.1⟩

/-- What thread `i` saw before it took the lock still holds when it takes the lock. -/
def Unchanged (i : ι) (x : LinkThreads ι σ) : Prop :=
  match x.pc i with
  | .atHead => x.links.head = none
  | .atTail p => x.links.nodeNext p = none
  | _ => True

variable {lk op} {x y z : LinkThreads ι σ} {i j : ι} {s t : Links σ} {pc : ι → AddPc}
  {U : σ → Prop} {l l₀ : List UInt32} {p q m : UInt32}

theorem step_eq {r : AddPc} (h : x.links.goOn lk (op i) (x.pc i) = some (r, t)) :
    step lk op i x = some ⟨t, Function.update x.pc i r⟩ := by rw [step, h]; rfl

/-! ### A thread that runs alone -/

theorem run_test {n : ℕ} (pc : ι → AddPc) (hpc : pc i = .test p)
    (hseek : seek s.nodeNext (fun p => (s.nodeNext p).isNone) n p = some q) :
    ∃ k, run (step lk op) (List.replicate k i) ⟨s, pc⟩ =
      some ⟨s, Function.update pc i (.atTail q)⟩ := by
  induction n generalizing p pc with
  | zero => cases hseek
  | succ n ih =>
      rw [seek] at hseek
      cases hnext : s.nodeNext p with
      | none =>
          rw [hnext] at hseek
          obtain rfl := Option.some.inj hseek
          refine ⟨1, ?_⟩
          have hstep : step lk op i ⟨s, pc⟩ = some ⟨s, Function.update pc i (.atTail p)⟩ :=
            step_eq (by simp only [hpc, Links.goOn, hnext, if_true])
          rw [List.replicate_one, run_cons_of_step hstep, run_nil]
      | some b =>
          rw [hnext] at hseek
          have h₁ : step lk op i ⟨s, pc⟩ = some ⟨s, Function.update pc i (.advance p)⟩ :=
            step_eq (by simp [hpc, Links.goOn, hnext])
          have h₂ : step lk op i ⟨s, Function.update pc i (.advance p)⟩ =
              some ⟨s, Function.update pc i (.test b)⟩ := by
            rw [step_eq (t := s) (r := .test b) (by simp [Links.goOn, hnext])]
            simp
          obtain ⟨k, hk⟩ := ih (Function.update pc i (.test b)) (by simp) hseek
          refine ⟨k + 2, ?_⟩
          rw [List.replicate_succ, List.replicate_succ, run_cons_of_step h₁, run_cons_of_step h₂, hk]
          simp

/-- The steps of a thread that runs alone are the function it calls. -/
theorem run_insert (pc : ι → AddPc) (hpc : pc i = .start) (h : Links.insert lk (op i) s = some t) :
    ∃ k, run (step lk op) (List.replicate k i) ⟨s, pc⟩ =
      some ⟨t, Function.update pc i .done⟩ := by
  cases hop : op i with
  | addHead n =>
      rw [hop] at h
      refine ⟨1, ?_⟩
      have hstep : step lk op i ⟨s, pc⟩ = some ⟨t, Function.update pc i .done⟩ := by
        apply step_eq
        have h' : s.linkAddHead lk n = some t := h
        simp only [hpc, hop, Links.goOn, h', Option.map_some]
      rw [List.replicate_one, run_cons_of_step hstep, run_nil]
  | addTail n =>
      rw [hop] at h
      have h' : s.linkAddTail lk n = some t := h
      unfold Links.linkAddTail at h'
      cases hhead : s.head with
      | none =>
          rw [hhead] at h'
          have h₁ : step lk op i ⟨s, pc⟩ = some ⟨s, Function.update pc i .atHead⟩ :=
            step_eq (by simp only [hpc, hop, Links.goOn, hhead, if_true])
          have h₂ : step lk op i ⟨s, Function.update pc i .atHead⟩ =
              some ⟨t, Function.update pc i .done⟩ := by
            rw [step_eq (t := t) (r := .done) (by simp [Links.goOn, hop, LinkOp.node, h'])]
            simp
          refine ⟨2, ?_⟩
          rw [List.replicate_succ, List.replicate_one, run_cons_of_step h₁, run_cons_of_step h₂,
            run_nil]
      | some b =>
          rw [hhead] at h'
          obtain ⟨q, hseek, hlocked⟩ := Option.bind_eq_some_iff.mp h'
          have h₁ : step lk op i ⟨s, pc⟩ = some ⟨s, Function.update pc i .probe⟩ :=
            step_eq (by simp [hpc, hop, Links.goOn, hhead])
          have h₂ : step lk op i ⟨s, Function.update pc i .probe⟩ =
              some ⟨s, Function.update pc i (.test b)⟩ := by
            rw [step_eq (t := s) (r := .test b) (by simp [Links.goOn, hhead])]
            simp
          obtain ⟨k, hk⟩ := run_test (Function.update pc i (.test b)) (Function.update_self i _ _)
            hseek
          have h₃ : step lk op i ⟨s, Function.update (Function.update pc i (.test b)) i (.atTail q)⟩ =
              some ⟨t, Function.update pc i .done⟩ := by
            rw [step_eq (t := t) (r := .done) (by simp [Links.goOn, hop, LinkOp.node, hlocked])]
            simp
          refine ⟨k + 1 + 2, ?_⟩
          rw [List.replicate_succ, List.replicate_succ, run_cons_of_step h₁, run_cons_of_step h₂,
            List.replicate_succ', run_append, hk, Option.bind_some, run_cons_of_step h₃, run_nil]

/-! ### What holds in every run -/

/-- The nodes that were in the list at first, and those whose insertion is over. -/
def Inserted (op : ι → LinkOp) (l₀ : List UInt32) (x : LinkThreads ι σ) (m : UInt32) : Prop :=
  m ∈ l₀ ∨ ∃ i, x.pc i = .done ∧ (op i).node = m

/-- The list is well formed whatever has been lost, and the threads only see inserted nodes. -/
structure Inv (op : ι → LinkOp) (l₀ : List UInt32) (U : σ → Prop) (x : LinkThreads ι σ)
    (l : List UInt32) : Prop where
  ready : x.links.Ready U
  holds : x.links.Holds l
  inserted : ∀ m ∈ l, Inserted op l₀ x m
  next : ∀ m, Inserted op l₀ x m → ∀ q, x.links.nodeNext m = some q → Inserted op l₀ x q
  fresh : ∀ i, x.pc i ≠ .done →
    ¬ Inserted op l₀ x (op i).node ∧ x.links.nodeNext (op i).node = none
  probe : ∀ i p, (x.pc i).at? = some p → Inserted op l₀ x p
  looked : ∀ i, x.pc i = .probe → x.links.head ≠ none
  seen : ∀ i p, x.pc i = .advance p → x.links.nodeNext p ≠ none

/-- Nothing has been lost. -/
def Complete (op : ι → LinkOp) (l₀ : List UInt32) (x : LinkThreads ι σ) (l : List UInt32) : Prop :=
  ∀ m, Inserted op l₀ x m → m ∈ l

omit [DecidableEq ι] in
theorem Inv.head_inserted (h : Inv op l₀ U x l) (hp : x.links.head = some p) :
    p ∈ l ∧ Inserted op l₀ x p := by
  have hl := IsList.head? h.holds
  rw [hp] at hl
  have hmem := List.mem_of_mem_head? hl.symm
  exact ⟨hmem, h.inserted p hmem⟩

/-- A step in front of the lock changes nothing but the position of the thread. -/
theorem Inv.of_look (h : Inv op l₀ U x l) {r : AddPc} (hi : x.pc i ≠ .done) (hr : r ≠ .done)
    (hat : ∀ p, r.at? = some p → Inserted op l₀ x p) (hprobe : r = .probe → x.links.head ≠ none)
    (hseen : ∀ p, r = .advance p → x.links.nodeNext p ≠ none) :
    Inv op l₀ U ⟨x.links, Function.update x.pc i r⟩ l ∧
      ∀ m, Inserted op l₀ ⟨x.links, Function.update x.pc i r⟩ m ↔ Inserted op l₀ x m := by
  have hdone : ∀ j, Function.update x.pc i r j = .done ↔ x.pc j = .done := by
    intro j
    by_cases hj : j = i
    · subst hj
      simp [hi, hr]
    · rw [Function.update_of_ne hj]
  have hins : ∀ m, Inserted op l₀ ⟨x.links, Function.update x.pc i r⟩ m ↔ Inserted op l₀ x m := by
    intro m
    unfold Inserted
    simp only [hdone]
  refine ⟨⟨h.ready, h.holds, ?_, ?_, ?_, ?_, ?_, ?_⟩, hins⟩
  · intro m hm
    rw [hins]
    exact h.inserted m hm
  · intro m hm q hq
    rw [hins] at hm ⊢
    exact h.next m hm q hq
  · intro j hj
    rw [hins]
    exact h.fresh j ((hdone j).not.mp hj)
  · intro j p (hp : (Function.update x.pc i r j).at? = some p)
    rw [hins]
    by_cases hj : j = i
    · subst hj
      rw [Function.update_self] at hp
      exact hat p hp
    · rw [Function.update_of_ne hj] at hp
      exact h.probe j p hp
  · intro j (hp : Function.update x.pc i r j = .probe)
    by_cases hj : j = i
    · subst hj
      rw [Function.update_self] at hp
      exact hprobe hp
    · rw [Function.update_of_ne hj] at hp
      exact h.looked j hp
  · intro j p (hp : Function.update x.pc i r j = .advance p)
    by_cases hj : j = i
    · subst hj
      rw [Function.update_self] at hp
      exact hseen p hp
    · rw [Function.update_of_ne hj] at hp
      exact h.seen j p hp

/-- When thread `i` is done its node counts as inserted. -/
theorem inserted_done {links : Links σ} :
    Inserted op l₀ ⟨links, Function.update x.pc i .done⟩ m ↔
      Inserted op l₀ x m ∨ m = (op i).node := by
  have hdone : ∀ j, Function.update x.pc i .done j = .done ↔ x.pc j = .done ∨ j = i := by
    intro j
    by_cases hj : j = i
    · subst hj
      simp
    · rw [Function.update_of_ne hj, or_iff_left hj]
  unfold Inserted
  simp only [hdone]
  constructor
  · rintro (hm | ⟨j, hj | rfl, rfl⟩)
    · exact Or.inl (Or.inl hm)
    · exact Or.inl (Or.inr ⟨j, hj, rfl⟩)
    · exact Or.inr rfl
  · rintro ((hm | ⟨j, hj, rfl⟩) | rfl)
    · exact Or.inl hm
    · exact Or.inr ⟨j, Or.inl hj, rfl⟩
    · exact Or.inr ⟨i, Or.inr rfl, rfl⟩

/-- A thread that is not done when thread `i` has just finished is another one, where it was. -/
theorem of_update_done {pc : ι → AddPc} {r : AddPc} (hr : r ≠ .done)
    (h : Function.update pc i .done j = r) : j ≠ i ∧ pc j = r := by
  have hji : j ≠ i := by
    rintro rfl
    rw [Function.update_self] at h
    exact hr h.symm
  rw [Function.update_of_ne hji] at h
  exact ⟨hji, h⟩

/-- A locked part inserts the node of thread `i`: some cell, or the head, now points to it. -/
theorem Inv.of_insert (h : Inv op l₀ U x l) (hinj : Function.Injective fun i => (op i).node)
    {l' : List UInt32} (hi : x.pc i ≠ .done) (hready : t.Ready U) (hholds : t.Holds l')
    (hl' : ∀ m ∈ l', m ∈ l ∨ m = (op i).node) (hhead : t.head ≠ none ∨ t.head = x.links.head)
    (hnext : ∀ m, m ≠ (op i).node → t.nodeNext m = x.links.nodeNext m ∨
      Inserted op l₀ x m ∧ t.nodeNext m = some (op i).node)
    (hown : t.nodeNext (op i).node = none ∨ t.nodeNext (op i).node = x.links.head) :
    Inv op l₀ U ⟨t, Function.update x.pc i .done⟩ l' := by
  have hins : ∀ m, Inserted op l₀ ⟨t, Function.update x.pc i .done⟩ m ↔
      Inserted op l₀ x m ∨ m = (op i).node := fun _ => inserted_done
  refine ⟨hready, hholds, ?_, ?_, ?_, ?_, ?_, ?_⟩
  · intro m hm
    rw [hins]
    exact (hl' m hm).imp_left (h.inserted m)
  · intro m hm q hq
    rw [hins] at hm ⊢
    by_cases hmi : m = (op i).node
    · subst hmi
      rcases hown with hown | hown
      · rw [hown] at hq
        cases hq
      · rw [hown] at hq
        exact Or.inl (h.head_inserted hq).2
    · rcases hnext m hmi with hn | ⟨-, hn⟩
      · rw [hn] at hq
        exact Or.inl (h.next m (hm.resolve_right hmi) q hq)
      · rw [hn] at hq
        exact Or.inr (Option.some.inj hq).symm
  · intro j hj
    obtain ⟨hji, hj'⟩ := of_update_done hj rfl
    have hne : (op j).node ≠ (op i).node := fun e => hji (hinj e)
    obtain ⟨hnot, hnone⟩ := h.fresh j (hj' ▸ hj)
    rw [hins]
    refine ⟨fun hm => hm.elim hnot hne, ?_⟩
    rcases hnext _ hne with hn | ⟨hm, -⟩
    · exact hn.trans hnone
    · exact absurd hm hnot
  · intro j p (hp : (Function.update x.pc i .done j).at? = some p)
    rw [hins]
    by_cases hji : j = i
    · subst hji
      rw [Function.update_self] at hp
      cases hp
    · rw [Function.update_of_ne hji] at hp
      exact Or.inl (h.probe j p hp)
  · intro j (hp : Function.update x.pc i .done j = .probe)
    obtain ⟨-, hp⟩ := of_update_done (by simp) hp
    rcases hhead with hhead | hhead
    · exact hhead
    · exact hhead ▸ h.looked j hp
  · intro j p (hp : Function.update x.pc i .done j = .advance p)
    obtain ⟨-, hp⟩ := of_update_done (by simp) hp
    have hpi : p ≠ (op i).node := by
      rintro rfl
      exact (h.fresh i hi).1 (h.probe j _ (by rw [hp]; rfl))
    rcases hnext p hpi with hn | ⟨-, hn⟩
    · rw [hn]
      exact h.seen j p hp
    · rw [hn]
      simp

/-! ### One step -/

/-- After a step of thread `i` the list is still well formed, nothing lost is back, and a complete
list stays complete exactly when what the thread saw is unchanged. -/
def Advances (op : ι → LinkOp) (l₀ : List UInt32) (U : σ → Prop) (i : ι) (x : LinkThreads ι σ)
    (l : List UInt32) (y : LinkThreads ι σ) : Prop :=
  ∃ l', Inv op l₀ U y l' ∧ (∀ m, Inserted op l₀ x m → Inserted op l₀ y m) ∧
    (∀ m ∈ l', m ∈ l ∨ m = (op i).node) ∧
    (Complete op l₀ x l → (Complete op l₀ y l' ↔ Unchanged i x))

theorem Inv.advances_look (h : Inv op l₀ U x l) {r : AddPc} (hi : x.pc i ≠ .done)
    (hr : r ≠ .done) (hun : Unchanged i x) (hat : ∀ p, r.at? = some p → Inserted op l₀ x p)
    (hprobe : r = .probe → x.links.head ≠ none)
    (hseen : ∀ p, r = .advance p → x.links.nodeNext p ≠ none) :
    Advances op l₀ U i x l ⟨x.links, Function.update x.pc i r⟩ := by
  obtain ⟨hinv, hins⟩ := h.of_look hi hr hat hprobe hseen
  refine ⟨l, hinv, fun m => (hins m).mpr, fun m hm => Or.inl hm, ?_⟩
  intro hc
  apply iff_of_true _ hun
  intro m hm
  exact hc m ((hins m).mp hm)

theorem Inv.advances_addHead (h : Inv op l₀ U x l) (hlk : Links.Open lk U)
    (hinj : Function.Injective fun i => (op i).node) (hpc : x.pc i = .start)
    (ht : x.links.linkAddHead lk (op i).node = some t) :
    Advances op l₀ U i x l ⟨t, Function.update x.pc i .done⟩ := by
  have hi : x.pc i ≠ .done := by simp [hpc]
  have hn : (op i).node ∉ l := fun hmem => (h.fresh i hi).1 (h.inserted _ hmem)
  obtain ⟨u, hu, hready, hholds, hnext⟩ := Links.linkAddHead_eq hlk h.holds h.ready hn
  obtain rfl := Option.some.inj (hu.symm.trans ht)
  have hown : u.nodeNext (op i).node = x.links.head :=
    (IsList.head? hholds.2).trans (IsList.head? h.holds).symm
  have hinv := h.of_insert hinj hi hready hholds (fun m hm => (List.mem_cons.mp hm).symm)
    (Or.inl (by rw [hholds.1]; simp)) (fun m hm => Or.inl (hnext m hm)) (Or.inr hown)
  refine ⟨_, hinv, fun m hm => inserted_done.mpr (Or.inl hm),
    fun m hm => (List.mem_cons.mp hm).symm, ?_⟩
  intro hc
  refine iff_of_true ?_ (by simp [Unchanged, hpc])
  intro m hm
  exact List.mem_cons.mpr ((inserted_done.mp hm).symm.imp_right (hc m))

theorem Inv.advances_atHead (h : Inv op l₀ U x l) (hlk : Links.Open lk U)
    (hinj : Function.Injective fun i => (op i).node) (hpc : x.pc i = .atHead)
    (ht : (x.links.locked lk fun s => s.setHead (some (op i).node)) = some t) :
    Advances op l₀ U i x l ⟨t, Function.update x.pc i .done⟩ := by
  have hi : x.pc i ≠ .done := by simp [hpc]
  obtain ⟨hnot, hnone⟩ := h.fresh i hi
  obtain ⟨a, ha, hready⟩ := Links.locked_eq hlk h.ready (Links.keepsLock_setHead (some (op i).node))
  obtain rfl := Option.some.inj (ha.symm.trans ht)
  have hholds : ({ x.links.setHead (some (op i).node) with lock := a } : Links σ).Holds
      [(op i).node] := ⟨rfl, hnone⟩
  have hinv := h.of_insert hinj hi hready hholds
    (fun m hm => Or.inr (List.mem_singleton.mp hm)) (Or.inl (by simp)) (fun m hm => Or.inl rfl)
    (Or.inl hnone)
  refine ⟨_, hinv, fun m hm => inserted_done.mpr (Or.inl hm),
    fun m hm => Or.inr (List.mem_singleton.mp hm), ?_⟩
  intro hc
  unfold Unchanged
  rw [hpc]
  constructor
  · intro hc'
    by_contra hhead
    obtain ⟨a, ha⟩ := Option.ne_none_iff_exists'.mp hhead
    have hins := (h.head_inserted ha).2
    have hmem := List.mem_singleton.mp (hc' a (inserted_done.mpr (Or.inl hins)))
    exact hnot (hmem ▸ hins)
  · intro hhead m hm
    have hnil : l = [] := (IsList.eq_nil_iff h.holds).mpr hhead
    subst hnil
    rcases inserted_done.mp hm with hm | rfl
    · cases hc m hm
    · exact List.mem_singleton.mpr rfl

/-- The write `probe->next = node` at a probe in the list: what was behind the probe is cut off. -/
theorem holds_setNext {n : UInt32} {l₁ l₂ : List UInt32} (hl : s.Holds (l₁ ++ p :: l₂))
    (hn : n ∉ l₁ ++ p :: l₂) (hnone : s.nodeNext n = none) :
    (s.setNext p (some n)).Holds (l₁ ++ [p] ++ [n]) := by
  have hnp : n ≠ p := fun e => hn (by simp [e])
  have hcut : IsList (Function.update s.nodeNext p none) s.head (l₁ ++ [p]) := IsList.cut hl
  have happ := hcut.append_cell (b := n) (fun hmem => hn (by simp at hmem ⊢; tauto))
    (by rw [Function.update_of_ne hnp, hnone])
  rw [Function.update_idem] at happ
  rw [Links.Holds, Links.head_setNext, Links.nodeNext_setNext]
  exact happ

/-- When the node goes behind a probe in a complete list, nothing is lost exactly when the probe was
the last node. -/
theorem Inv.complete_cut {l₁ l₂ : List UInt32} (h : Inv op l₀ U x (l₁ ++ p :: l₂))
    (hnot : ¬ Inserted op l₀ x (op i).node) (hc : Complete op l₀ x (l₁ ++ p :: l₂)) :
    Complete op l₀ ⟨t, Function.update x.pc i .done⟩ (l₁ ++ [p] ++ [(op i).node]) ↔
      x.links.nodeNext p = none := by
  have hbehind : x.links.nodeNext p = l₂.head? := IsList.next_of_split h.holds
  cases l₂ with
  | nil =>
      apply iff_of_true _ hbehind
      intro m hm
      rw [List.mem_append, List.mem_singleton]
      exact (inserted_done.mp hm).imp_left (hc m)
  | cons q l₂ =>
      apply iff_of_false
      · intro hc'
        -- the node behind the probe is cut off
        have hq := h.inserted q (by simp)
        have hmem := hc' q (inserted_done.mpr (Or.inl hq))
        have hnd := h.holds.nodup
        rw [List.append_cons, List.nodup_append] at hnd
        rcases List.mem_append.mp hmem with hmem | hmem
        · exact hnd.2.2 q hmem q (by simp) rfl
        · exact hnot (List.mem_singleton.mp hmem ▸ hq)
      · rw [hbehind]
        simp

theorem Inv.advances_atTail (h : Inv op l₀ U x l) (hlk : Links.Open lk U)
    (hinj : Function.Injective fun i => (op i).node) (hpc : x.pc i = .atTail p)
    (ht : (x.links.locked lk fun s => s.setNext p (some (op i).node)) = some t) :
    Advances op l₀ U i x l ⟨t, Function.update x.pc i .done⟩ := by
  have hi : x.pc i ≠ .done := by simp [hpc]
  obtain ⟨hnot, hnone⟩ := h.fresh i hi
  have hp : Inserted op l₀ x p := h.probe i p (by rw [hpc]; rfl)
  have hnl : (op i).node ∉ l := fun hmem => hnot (h.inserted _ hmem)
  have hnp : (op i).node ≠ p := by
    rintro e
    exact hnot (e ▸ hp)
  obtain ⟨a, ha, hready⟩ := Links.locked_eq hlk h.ready (Links.keepsLock_setNext p (some (op i).node))
  obtain rfl := Option.some.inj (ha.symm.trans ht)
  obtain ⟨u, hu⟩ : ∃ u, u = ({ x.links.setNext p (some (op i).node) with lock := a } : Links σ) :=
    ⟨_, rfl⟩
  have hnext : u.nodeNext = Function.update x.links.nodeNext p (some (op i).node) := by
    rw [hu]
    exact Links.nodeNext_setNext x.links p _
  have hnext' : ∀ m, m ≠ (op i).node → u.nodeNext m = x.links.nodeNext m ∨
      Inserted op l₀ x m ∧ u.nodeNext m = some (op i).node := by
    intro m _
    by_cases hm : m = p
    · subst hm
      exact Or.inr ⟨hp, by rw [hnext, Function.update_self]⟩
    · exact Or.inl (by rw [hnext, Function.update_of_ne hm])
  have hown : u.nodeNext (op i).node = none := by
    rw [hnext, Function.update_of_ne hnp, hnone]
  have hhead : u.head = x.links.head := by rw [hu]; rfl
  rw [← hu] at hready ⊢
  by_cases hpl : p ∈ l
  · obtain ⟨l₁, l₂, rfl⟩ := List.append_of_mem hpl
    have hholds : u.Holds (l₁ ++ [p] ++ [(op i).node]) := by
      rw [hu]
      exact holds_setNext h.holds hnl hnone
    have hsub : ∀ m ∈ l₁ ++ [p] ++ [(op i).node], m ∈ l₁ ++ p :: l₂ ∨ m = (op i).node := by
      intro m hm
      simp only [List.mem_append, List.mem_cons] at hm ⊢
      tauto
    have hinv := h.of_insert hinj hi hready hholds hsub (Or.inr hhead) hnext' (Or.inl hown)
    refine ⟨_, hinv, fun m hm => inserted_done.mpr (Or.inl hm), hsub, ?_⟩
    intro hc
    unfold Unchanged
    rw [hpc]
    exact h.complete_cut hnot hc
  · have hholds : u.Holds l := by
      rw [Links.Holds, hhead, hnext]
      exact IsList.update_of_notMem hpl _ h.holds
    have hinv := h.of_insert hinj hi hready hholds (fun m hm => Or.inl hm) (Or.inr hhead) hnext'
      (Or.inl hown)
    refine ⟨_, hinv, fun m hm => inserted_done.mpr (Or.inl hm), fun m hm => Or.inl hm, ?_⟩
    exact fun hc => absurd (hc p hp) hpl

/-- Every step advances. -/
theorem Inv.advances (h : Inv op l₀ U x l) (hlk : Links.Open lk U)
    (hinj : Function.Injective fun i => (op i).node) (hstep : step lk op i x = some y) :
    Advances op l₀ U i x l y := by
  obtain ⟨⟨r, t⟩, hr, rfl⟩ := Option.map_eq_some_iff.mp hstep
  cases hpc : x.pc i with
  | start =>
      cases hop : op i with
      | addHead n =>
          rw [hpc, hop] at hr
          obtain ⟨u, hu, e⟩ := Option.map_eq_some_iff.mp hr
          obtain ⟨rfl, rfl⟩ := Prod.mk.inj e
          exact h.advances_addHead hlk hinj hpc (by rw [hop]; exact hu)
      | addTail n =>
          rw [hpc, hop] at hr
          obtain ⟨rfl, rfl⟩ := Prod.mk.inj (Option.some.inj hr)
          apply h.advances_look (by simp [hpc]) (by split_ifs <;> simp) (by simp [Unchanged, hpc])
          · intro p hp
            split_ifs at hp <;> cases hp
          · intro hp
            split_ifs at hp with hhead
            exact hhead
          · intro p hp
            split_ifs at hp
  | probe =>
      rw [hpc] at hr
      obtain ⟨p, hp, e⟩ := Option.map_eq_some_iff.mp hr
      obtain ⟨rfl, rfl⟩ := Prod.mk.inj e
      apply h.advances_look (by simp [hpc]) (by simp) (by simp [Unchanged, hpc])
      · intro q hq
        obtain rfl := Option.some.inj hq
        exact (h.head_inserted hp).2
      · simp
      · simp
  | test p =>
      have hins := h.probe i p (by rw [hpc]; rfl)
      rw [hpc] at hr
      obtain ⟨rfl, rfl⟩ := Prod.mk.inj (Option.some.inj hr)
      apply h.advances_look (by simp [hpc]) (by split_ifs <;> simp) (by simp [Unchanged, hpc])
      · intro q hq
        split_ifs at hq <;> exact Option.some.inj hq ▸ hins
      · intro hq
        split_ifs at hq
      · intro q hq
        split_ifs at hq with hnext
        obtain rfl := AddPc.advance.inj hq
        exact hnext
  | advance p =>
      have hins := h.probe i p (by rw [hpc]; rfl)
      rw [hpc] at hr
      obtain ⟨q, hq, e⟩ := Option.map_eq_some_iff.mp hr
      obtain ⟨rfl, rfl⟩ := Prod.mk.inj e
      apply h.advances_look (by simp [hpc]) (by simp) (by simp [Unchanged, hpc])
      · intro m hm
        obtain rfl := Option.some.inj hm
        exact h.next p hins q hq
      · simp
      · simp
  | atHead =>
      rw [hpc] at hr
      obtain ⟨u, hu, e⟩ := Option.map_eq_some_iff.mp hr
      obtain ⟨rfl, rfl⟩ := Prod.mk.inj e
      exact h.advances_atHead hlk hinj hpc hu
  | atTail p =>
      rw [hpc] at hr
      obtain ⟨u, hu, e⟩ := Option.map_eq_some_iff.mp hr
      obtain ⟨rfl, rfl⟩ := Prod.mk.inj e
      exact h.advances_atTail hlk hinj hpc hu
  | done =>
      rw [hpc] at hr
      cases hr

/-- A thread that is not done can go on. -/
theorem Inv.exists_step (h : Inv op l₀ U x l) (hlk : Links.Open lk U) (hi : x.pc i ≠ .done) :
    ∃ y, step lk op i x = some y := by
  suffices hgo : ∃ r, x.links.goOn lk (op i) (x.pc i) = some r by
    obtain ⟨r, hr⟩ := hgo
    exact ⟨_, step_eq hr⟩
  cases hpc : x.pc i with
  | start =>
      cases hop : op i with
      | addHead n =>
          obtain ⟨a, ha, -⟩ := Links.locked_eq hlk h.ready (Links.keepsLock_push n)
          exact ⟨_, congrArg (Option.map _) ha⟩
      | addTail n => exact ⟨_, rfl⟩
  | probe =>
      obtain ⟨p, hp⟩ := Option.ne_none_iff_exists'.mp (h.looked i hpc)
      exact ⟨_, congrArg (Option.map _) hp⟩
  | test p => exact ⟨_, rfl⟩
  | advance p =>
      obtain ⟨q, hq⟩ := Option.ne_none_iff_exists'.mp (h.seen i p hpc)
      exact ⟨_, congrArg (Option.map _) hq⟩
  | atHead =>
      obtain ⟨a, ha, -⟩ := Links.locked_eq hlk h.ready (Links.keepsLock_setHead (some (op i).node))
      exact ⟨_, congrArg (Option.map _) ha⟩
  | atTail p =>
      obtain ⟨a, ha, -⟩ := Links.locked_eq hlk h.ready (Links.keepsLock_setNext p (some (op i).node))
      exact ⟨_, congrArg (Option.map _) ha⟩
  | done => exact absurd hpc hi

theorem ne_done_of_step (hstep : step lk op i x = some y) : x.pc i ≠ .done := by
  intro hpc
  rw [step, hpc] at hstep
  cases hstep

/-- What is lost stays lost. -/
theorem Advances.lost (h : Inv op l₀ U x l) (hstep : step lk op i x = some y)
    (hy : Advances op l₀ U i x l y) :
    ∃ l', Inv op l₀ U y l' ∧ (Complete op l₀ x l → (Complete op l₀ y l' ↔ Unchanged i x)) ∧
      (¬ Complete op l₀ x l → ¬ Complete op l₀ y l') := by
  obtain ⟨l', hinv, hins, hsub, hiff⟩ := hy
  refine ⟨l', hinv, hiff, ?_⟩
  intro hx hy
  apply hx
  intro m hm
  rcases hsub m (hy m (hins m hm)) with hml | rfl
  · exact hml
  · exact absurd hm (h.fresh i (ne_done_of_step hstep)).1

/-! ### Runs -/

/-- The threads before their calls. -/
def begin (s : Links σ) : LinkThreads ι σ := ⟨s, fun _ => .start⟩

omit [DecidableEq ι] in
theorem inserted_begin : Inserted op l₀ (begin s) m ↔ m ∈ l₀ := by
  unfold Inserted
  simp [begin]

omit [DecidableEq ι] in
theorem inv_begin (hl : s.Holds l₀) (hs : s.Ready U)
    (hnew : ∀ i, (op i).node ∉ l₀ ∧ s.nodeNext (op i).node = none) :
    Inv op l₀ U (begin s) l₀ := by
  refine ⟨hs, hl, fun m hm => Or.inl hm, ?_, ?_, by simp [begin, AddPc.at?], by simp [begin],
    by simp [begin]⟩
  · intro m hm q hq
    rw [inserted_begin] at hm ⊢
    exact (IsSeg.next_mem hl hm hq).resolve_right (by simp)
  · intro i _
    rw [inserted_begin]
    exact hnew i

theorem Inv.run_complete (h : Inv op l₀ U x l) (hlk : Links.Open lk U)
    (hinj : Function.Injective fun i => (op i).node) {sched : List ι}
    (hrun : run (step lk op) sched x = some z) :
    ∃ l', Inv op l₀ U z l' ∧
      (Complete op l₀ x l → (Complete op l₀ z l' ↔ Along (step lk op) Unchanged sched x)) ∧
      (¬ Complete op l₀ x l → ¬ Complete op l₀ z l') := by
  induction sched generalizing x l with
  | nil =>
      obtain rfl := Option.some.inj hrun
      exact ⟨l, h, fun hc => iff_of_true hc trivial, id⟩
  | cons i sched ih =>
      obtain ⟨y, hstep, hrun⟩ := Option.bind_eq_some_iff.mp hrun
      obtain ⟨l₁, hy, hiff, hlost⟩ := Advances.lost h hstep (h.advances hlk hinj hstep)
      obtain ⟨l₂, hz, hiff', hlost'⟩ := ih hy hrun
      refine ⟨l₂, hz, ?_, fun hx => hlost' (hlost hx)⟩
      intro hx
      rw [along_cons_of_step hstep]
      by_cases hun : Unchanged i x
      · rw [and_iff_right hun]
        exact hiff' ((hiff hx).mpr hun)
      · exact iff_of_false (hlost' fun hc => hun ((hiff hx).mp hc)) fun hc => hun hc.1

/-- In every run of the threads, a thread that is not done can go on. -/
theorem exists_step_of_run (hlk : Links.Open lk U) (hl : s.Holds l₀) (hs : s.Ready U)
    (hinj : Function.Injective fun i => (op i).node)
    (hnew : ∀ i, (op i).node ∉ l₀ ∧ s.nodeNext (op i).node = none) {sched : List ι}
    (hrun : run (step lk op) sched (begin s) = some x) (hi : x.pc i ≠ .done) :
    ∃ y, step lk op i x = some y := by
  obtain ⟨l, hx, -⟩ := (inv_begin hl hs hnew).run_complete hlk hinj hrun
  exact hx.exists_step hlk hi

/-- **No insertion is lost exactly when** every thread that takes the lock in `link_add_tail`
finds the list as it saw it before: when all are done, the list has the old nodes and the added
ones, each once, if and only if the run has met this condition. -/
theorem keepsAll_iff_unchanged (hlk : Links.Open lk U) (hl : s.Holds l₀) (hs : s.Ready U)
    (hinj : Function.Injective fun i => (op i).node)
    (hnew : ∀ i, (op i).node ∉ l₀ ∧ s.nodeNext (op i).node = none) (sched : List ι)
    (hrun : run (step lk op) sched (begin s) = some z) (hdone : ∀ i, z.pc i = .done) :
    (∃ l, z.links.Holds l ∧ l.Nodup ∧ ∀ m, m ∈ l ↔ m ∈ l₀ ∨ ∃ i, (op i).node = m) ↔
      Along (step lk op) Unchanged sched (begin s) := by
  have hstart : Complete op l₀ (begin s) l₀ := fun m hm => inserted_begin.mp hm
  have hins : ∀ m, Inserted op l₀ z m ↔ m ∈ l₀ ∨ ∃ i, (op i).node = m := by
    intro m
    unfold Inserted
    simp only [hdone, true_and]
  obtain ⟨l, hz, hiff, -⟩ := (inv_begin hl hs hnew).run_complete hlk hinj hrun
  rw [← hiff hstart]
  constructor
  · rintro ⟨l', hl', -, hmem⟩ m hm
    rw [hz.holds.unique hl', hmem, ← hins]
    exact hm
  · intro hc
    refine ⟨l, hz.holds, hz.holds.nodup, ?_⟩
    intro m
    rw [← hins]
    exact ⟨hz.inserted m, hc m⟩

/-- An empty list with a lock. -/
def emptyList : Links Sync := .sample (fun _ => ⟨none, 0⟩) none

/-- Two threads that append a node each. -/
def appendTwo (i : Bool) : LinkOp := .addTail (if i then 0x2000 else 0x1000)

theorem appendTwo_new (i : Bool) :
    (appendTwo i).node ∉ ([] : List UInt32) ∧ emptyList.nodeNext (appendTwo i).node = none :=
  ⟨List.not_mem_nil, rfl⟩

theorem appendTwo_inj : Function.Injective fun i => (appendTwo i).node := by
  intro i j h
  cases i <;> cases j <;> first | rfl | exact absurd h (by decide)

/-- One thread after the other. -/
theorem keepsAll_iff_unchanged_inTurn :
    ∃ sched z, run (step (Sync.linkLock 0x500 0x600) appendTwo) sched (begin emptyList) = some z ∧
      (∀ i, z.pc i = .done) ∧
      Along (step (Sync.linkLock 0x500 0x600) appendTwo) Unchanged sched (begin emptyList) := by
  have hlk := Sync.linkLock_open 0x500 0x600
  have hl : emptyList.Holds [] := rfl
  have hready := Links.sample_ready (fun _ => ⟨none, 0⟩) none
  obtain ⟨t, ht, hready', hholds, hnext⟩ :=
    Links.linkAddTail_eq (n := 0x1000) hlk hl hready (by simp)
  obtain ⟨u, hu, -, hholds', -⟩ :=
    Links.linkAddTail_eq (n := 0x2000) hlk (hholds.mpr rfl) hready' (by decide)
  have hend : u.Holds [0x1000, 0x2000] := hholds'.mpr ((hnext 0x2000 (by simp)).trans rfl)
  have hfirst : Links.insert (Sync.linkLock 0x500 0x600) (appendTwo false) emptyList = some t := ht
  have hsecond : Links.insert (Sync.linkLock 0x500 0x600) (appendTwo true) t = some u := hu
  obtain ⟨k, hk⟩ := run_insert (fun _ => .start) rfl hfirst
  obtain ⟨j, hj⟩ := run_insert (Function.update (fun _ => .start) false .done) rfl hsecond
  have hrun : run (step (Sync.linkLock 0x500 0x600) appendTwo)
      (List.replicate k false ++ List.replicate j true) (begin emptyList) =
      some ⟨u, Function.update (Function.update (fun _ => .start) false .done) true .done⟩ := by
    rw [run_append, begin, hk, Option.bind_some, hj]
  have hdone : ∀ i : Bool, Function.update (Function.update (fun _ => AddPc.start) false .done) true
      .done i = .done := by decide
  refine ⟨_, _, hrun, hdone, ?_⟩
  apply (keepsAll_iff_unchanged hlk hl hready appendTwo_inj appendTwo_new _ hrun hdone).mp
  refine ⟨_, hend, hend.nodup, ?_⟩
  intro m
  simp [appendTwo, LinkOp.node, eq_comm, or_comm]

/-- The locked write of the branch for the empty list. -/
theorem exists_step_atHead (hlk : Links.Open lk U) (hs : s.Ready U) (op : ι → LinkOp)
    (pc : ι → AddPc) (i : ι) (hpc : pc i = .atHead) :
    ∃ t, step lk op i ⟨s, pc⟩ = some ⟨t, Function.update pc i .done⟩ ∧ t.Ready U ∧
      t.head = some (op i).node ∧ t.nodeNext = s.nodeNext := by
  obtain ⟨a, ha, hready⟩ := Links.locked_eq hlk hs (Links.keepsLock_setHead (some (op i).node))
  refine ⟨_, step_eq ?_, hready, rfl, rfl⟩
  simp only [hpc, Links.goOn]
  exact congrArg (Option.map _) ha

/-- Both threads see the empty list; the second write overwrites the first. -/
theorem not_keepsAll_appendTwo :
    ∃ z, run (step (Sync.linkLock 0x500 0x600) appendTwo) [false, true, false, true]
        (begin emptyList) = some z ∧ (∀ i, z.pc i = .done) ∧
      ¬ ∃ l, z.links.Holds l ∧ l.Nodup ∧ ∀ m, m ∈ l ↔ m ∈ [] ∨ ∃ i, (appendTwo i).node = m := by
  have hlk := Sync.linkLock_open 0x500 0x600
  have hready := Links.sample_ready (fun _ => ⟨none, 0⟩) none
  have h₁ : step (Sync.linkLock 0x500 0x600) appendTwo false (begin emptyList) =
      some ⟨emptyList, Function.update (fun _ => .start) false .atHead⟩ := rfl
  have h₂ : step (Sync.linkLock 0x500 0x600) appendTwo true
      ⟨emptyList, Function.update (fun _ => .start) false .atHead⟩ =
      some ⟨emptyList, Function.update (Function.update (fun _ => .start) false .atHead) true
        .atHead⟩ := rfl
  obtain ⟨t, h₃, ht, -, hnext⟩ := exists_step_atHead hlk hready appendTwo
    (Function.update (Function.update (fun _ => .start) false .atHead) true .atHead)
    false rfl
  obtain ⟨u, h₄, -, hhead, hnext'⟩ := exists_step_atHead hlk ht appendTwo
    (Function.update (Function.update (Function.update (fun _ => .start) false .atHead) true
      .atHead) false .done) true rfl
  refine ⟨⟨u, _⟩, (run_cons_of_step h₁).trans ((run_cons_of_step h₂).trans
    ((run_cons_of_step h₃).trans ((run_cons_of_step h₄).trans rfl))), ?_, ?_⟩
  · intro i
    cases i <;> rfl
  · rintro ⟨l, hl, -, hmem⟩
    have hend : u.Holds [0x2000] := by
      refine ⟨hhead, ?_⟩
      rw [hnext', hnext]
      rfl
    have hfirst := (hmem 0x1000).mpr (Or.inr ⟨false, rfl⟩)
    rw [hl.unique hend] at hfirst
    exact absurd hfirst (by decide)

end LinkThreads
end BHOS
