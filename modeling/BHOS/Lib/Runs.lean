import Mathlib.Data.List.Basic
import Mathlib.Algebra.GroupWithZero.Nat

/-! # Runs of a partial step function

A machine is a partial function `step : ε → σ → Option σ`: the event `e` takes the state `s` to
`step e s`, and `none` says that the step is undefined or never returns.  `run step es s` is the
state after the events `es`.  `Along step Q es s` says that every step of that run satisfies the
condition `Q` on its event and the state it starts from; it is how the side conditions of a run
(what a caller may do, which branch a step must avoid) are stated.

The rules are the usual ones: an invariant kept by each allowed step holds after a whole run
(`invariant`), a run whose steps are all defined is defined (`run_isSome`), when at every
step a property of the step is equivalent to a condition on it, a run has the property
throughout exactly when its steps meet the condition (`along_iff`), a run that keeps to its
budget is defined (`run_of_budget`), and one that spends more than it reaches its goal
(`reaches_of_budget`). -/

namespace Transition

variable {σ ε : Type*} (step : ε → σ → Option σ)

/-- The state after a list of events. -/
def run : List ε → σ → Option σ
  | [], s => some s
  | e :: es, s => (step e s).bind (run es)

/-- Every step of the run satisfies `Q`. -/
def Along (Q : ε → σ → Prop) : List ε → σ → Prop
  | [], _ => True
  | e :: es, s => Q e s ∧ ∀ t, step e s = some t → Along Q es t

variable {step} {Q R : ε → σ → Prop} {I : σ → Prop} {es es' : List ε} {s t u : σ}

@[simp] theorem run_nil : run step [] s = some s := rfl

@[simp] theorem run_cons (e : ε) : run step (e :: es) s = (step e s).bind (run step es) := rfl

theorem run_cons_of_step {e : ε} (h : step e s = some t) :
    run step (e :: es) s = run step es t := by rw [run_cons, h]; rfl

theorem run_append : run step (es ++ es') s = (run step es s).bind (run step es') := by
  induction es generalizing s with
  | nil => rfl
  | cons e es ih =>
      simp only [List.cons_append, run_cons]
      cases step e s with
      | none => rfl
      | some t => exact ih

@[simp] theorem along_nil : Along step Q [] s := trivial

theorem along_cons_of_step {e : ε} (h : step e s = some t) :
    Along step Q (e :: es) s ↔ Q e s ∧ Along step Q es t := by
  simp only [Along, h, Option.some.injEq, forall_eq']

theorem along_append (h : run step es s = some t) :
    Along step Q (es ++ es') s ↔ Along step Q es s ∧ Along step Q es' t := by
  induction es generalizing s with
  | nil =>
      obtain rfl := Option.some.inj h
      simp only [List.nil_append, along_nil, true_and]
  | cons e es ih =>
      obtain ⟨u, hu, h⟩ := Option.bind_eq_some_iff.mp h
      rw [List.cons_append, along_cons_of_step hu, along_cons_of_step hu, ih h, and_assoc]

instance [∀ e s, Decidable (Q e s)] : ∀ es s, Decidable (Along step Q es s)
  | [], _ => isTrue trivial
  | e :: es, s =>
      match h : step e s with
      | none => decidable_of_iff (Q e s) (by simp [Along, h])
      | some t =>
          have := instDecidableAlong es t
          decidable_of_iff (Q e s ∧ Along step Q es t) (along_cons_of_step h).symm

theorem along_of_forall (h : ∀ e ∈ es, ∀ s, Q e s) : Along step Q es s := by
  induction es generalizing s with
  | nil => trivial
  | cons e es ih =>
      exact ⟨h e List.mem_cons_self s, fun t _ => ih fun e' he => h e' (List.mem_cons_of_mem e he)⟩

/-- The steps of a run are defined. -/
theorem along_of_run (h : run step es s = some t) :
    Along step (fun e s => ∃ u, step e s = some u) es s := by
  induction es generalizing s with
  | nil => trivial
  | cons e es ih =>
      obtain ⟨u, hu, h⟩ := Option.bind_eq_some_iff.mp h
      exact (along_cons_of_step hu).mpr ⟨⟨u, hu⟩, ih h⟩

theorem Along.mono (hQR : ∀ e s, Q e s → R e s) (h : Along step Q es s) : Along step R es s := by
  induction es generalizing s with
  | nil => trivial
  | cons e es ih => exact ⟨hQR e s h.1, fun t ht => ih (h.2 t ht)⟩

theorem Along.and (h₁ : Along step Q es s) (h₂ : Along step R es s) :
    Along step (fun e s => Q e s ∧ R e s) es s := by
  induction es generalizing s with
  | nil => trivial
  | cons e es ih => exact ⟨⟨h₁.1, h₂.1⟩, fun t ht => ih (h₁.2 t ht) (h₂.2 t ht)⟩

/-- A machine that runs along with another one meets its side conditions. -/
theorem Along.comap {τ : Type*} {step' : ε → τ → Option τ} {f : τ → σ}
    (hf : ∀ e x y, step' e x = some y → step e (f x) = some (f y)) {x : τ}
    (h : Along step Q es (f x)) : Along step' (fun e x => Q e (f x)) es x := by
  induction es generalizing x with
  | nil => trivial
  | cons e es ih => exact ⟨h.1, fun y hy => ih (h.2 (f y) (hf e x y hy))⟩

/-- An invariant that every allowed step keeps holds after every allowed run. -/
theorem invariant (hI : ∀ e s t, I s → Q e s → step e s = some t → I t) (hs : I s)
    (hQ : Along step Q es s) (hr : run step es s = some t) : I t := by
  induction es generalizing s with
  | nil =>
      obtain rfl := Option.some.inj hr
      exact hs
  | cons e es ih =>
      obtain ⟨u, hu, hr⟩ := Option.bind_eq_some_iff.mp hr
      exact ih (hI e s u hs hQ.1 hu) (hQ.2 u hu) hr

/-- What an invariant and the side conditions give at one step holds along the whole run. -/
theorem Along.of_invariant (hI : ∀ e s t, I s → Q e s → step e s = some t → I t)
    (hR : ∀ e s, I s → Q e s → R e s) (hs : I s) (hQ : Along step Q es s) :
    Along step R es s := by
  induction es generalizing s with
  | nil => trivial
  | cons e es ih =>
      exact ⟨hR e s hs hQ.1, fun t ht => ih (hI e s t hs hQ.1 ht) (hQ.2 t ht)⟩

/-- When every allowed step is defined, so is every allowed run. -/
theorem run_isSome (hI : ∀ e s t, I s → Q e s → step e s = some t → I t)
    (hd : ∀ e s, I s → Q e s → ∃ t, step e s = some t) (hs : I s) (hQ : Along step Q es s) :
    ∃ t, run step es s = some t := by
  induction es generalizing s with
  | nil => exact ⟨s, rfl⟩
  | cons e es ih =>
      obtain ⟨u, hu⟩ := hd e s hs hQ.1
      rw [run_cons_of_step hu]
      exact ih (hI e s u hs hQ.1 hu) (hQ.2 u hu)

/-- A property of steps that is equivalent, under an invariant, to a condition which in turn
keeps the invariant: a run has the property throughout exactly when it meets the condition
throughout. -/
theorem along_iff {P C : ε → σ → Prop}
    (hI : ∀ e s t, I s → Q e s → C e s → step e s = some t → I t)
    (hPC : ∀ e s, I s → Q e s → (P e s ↔ C e s)) (hs : I s) (hQ : Along step Q es s) :
    Along step P es s ↔ Along step C es s := by
  induction es generalizing s with
  | nil => exact Iff.rfl
  | cons e es ih =>
      constructor
      · rintro ⟨hP, hPs⟩
        have hC := (hPC e s hs hQ.1).mp hP
        exact ⟨hC, fun t ht => (ih (hI e s t hs hQ.1 hC ht) (hQ.2 t ht)).mp (hPs t ht)⟩
      · rintro ⟨hC, hCs⟩
        exact ⟨(hPC e s hs hQ.1).mpr hC, fun t ht =>
          (ih (hI e s t hs hQ.1 hC ht) (hQ.2 t ht)).mpr (hCs t ht)⟩

/-- A run that spends no more than its budget is defined, and each of its steps has the property
that the budget buys. -/
theorem run_of_budget {P : ε → σ → Prop} {B : σ → ℕ → Prop} {spend : ε → ℕ}
    (hB : ∀ e s n, B s (n + spend e) → Q e s → P e s ∧ ∃ t, step e s = some t ∧ B t n)
    {n : ℕ} (hs : B s (n + (es.map spend).sum)) (hQ : Along step Q es s) :
    Along step P es s ∧ ∃ t, run step es s = some t ∧ B t n := by
  induction es generalizing s with
  | nil => exact ⟨trivial, s, rfl, hs⟩
  | cons e es ih =>
      rw [List.map_cons, List.sum_cons, Nat.add_left_comm, Nat.add_comm (spend e)] at hs
      obtain ⟨hP, t, ht, hBt⟩ := hB e s _ hs hQ.1
      obtain ⟨hPs, u, hu, hBu⟩ := ih hBt (hQ.2 t ht)
      exact ⟨(along_cons_of_step ht).mpr ⟨hP, hPs⟩, u, by rw [run_cons_of_step ht, hu], hBu⟩

/-- **Progress within a budget.**  When every step either reaches the goal or pays what it spends
from a budget that it may also top up, a run that spends more than it started with and gained
reaches the goal on the way. -/
theorem reaches_of_budget {G : σ → Prop} {B : σ → ℕ → Prop} {spend gain : ε → ℕ}
    (hB : ∀ e s t n, B s n → Q e s → step e s = some t →
      G t ∨ ∃ m, B t m ∧ m + spend e ≤ n + gain e)
    {n : ℕ} (hs : B s n) (hQ : Along step Q es s) (hr : run step es s = some t)
    (hn : n + (es.map gain).sum < (es.map spend).sum) :
    ∃ pre post u, es = pre ++ post ∧ run step pre s = some u ∧ G u := by
  induction es generalizing s n with
  | nil => exact absurd hn (Nat.not_lt_zero _)
  | cons e es ih =>
      obtain ⟨u, hu, hr⟩ := Option.bind_eq_some_iff.mp hr
      rcases hB e s u n hs hQ.1 hu with hG | ⟨m, hm, hle⟩
      · exact ⟨[e], es, u, rfl, by rw [run_cons_of_step hu, run_nil], hG⟩
      · simp only [List.map_cons, List.sum_cons] at hn
        obtain ⟨pre, post, v, rfl, hv, hG⟩ := ih hm (hQ.2 u hu) hr (by omega)
        exact ⟨e :: pre, post, v, rfl, by rw [run_cons_of_step hu, hv], hG⟩

end Transition
