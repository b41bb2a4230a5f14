import Mathlib.Data.List.Basic
import Mathlib.Logic.Function.Basic
import BHOS.Lib.Runs

/-! # Operations under one lock

Threads execute operations on a shared state, each of them in many steps, and a thread is inside
from the step that gives it the lock to the last step of its operation.  `Code` is the code of the
operations.  The threads that want to go in may be any number, and the thread inside may be
interrupted after every step.

What comes out is sequential (`serial_run`): the shared state is the one after the operations that
have ended, one executed as a whole after the other, followed by what the thread inside has done
alone.  No operation is lost or executed twice, and each thread's operations are executed in its
order (`Ordered`). -/

namespace Monitor

open Transition

/-- The code of operations `ι` with the places `κ` on a state `σ`: where it begins, and one step,
after which it goes on at a place or has ended. -/
structure Code (ι κ σ : Type*) where
  start : ι → κ
  work : ι → κ → σ → Option (Option κ × σ)

variable {τ ι κ σ : Type*} {C : Code ι κ σ}

/-! ### One operation after the other -/

/-- The place and the state that an operation reaches alone. -/
inductive Code.Alone (C : Code ι κ σ) (i : ι) (s₀ : σ) : κ → σ → Prop
  | start : Alone C i s₀ (C.start i) s₀
  | work {k k' : κ} {s s' : σ} (before : Alone C i s₀ k s)
      (step : C.work i k s = some (some k', s')) : Alone C i s₀ k' s'

/-- An operation as a whole. -/
def Code.Whole (C : Code ι κ σ) (i : ι) (s t : σ) : Prop :=
  ∃ k u, C.Alone i s k u ∧ C.work i k u = some (none, t)

/-- Whole operations one after the other. -/
inductive Code.Sequence (C : Code ι κ σ) (s : σ) : List ι → σ → Prop
  | nil : Sequence C s [] s
  | snoc {is : List ι} {i : ι} {t u : σ} (before : Sequence C s is t) (last : C.Whole i t u) :
      Sequence C s (is ++ [i]) u

/-! ### The monitor -/

/-- The shared state, the thread inside, the operation that each thread is in, and the operations
that were begun and that have ended. -/
structure State (τ ι κ σ : Type*) where
  shared : σ
  inside : Option τ
  job : τ → Option (ι × κ)
  begun : List (τ × ι)
  ended : List (τ × ι)

/-- A thread begins an operation, goes in, or executes a step. -/
inductive Event (τ ι : Type*)
  | begin (x : τ) (i : ι)
  | enter (x : τ)
  | work (x : τ)

variable [DecidableEq τ]

/-- The state after a thread has begun an operation. -/
def State.began (C : Code ι κ σ) (s : State τ ι κ σ) (x : τ) (i : ι) : State τ ι κ σ :=
  { s with
    job := Function.update s.job x (some (i, C.start i))
    begun := s.begun ++ [(x, i)] }

/-- The state after a thread has gone in. -/
def State.entered (s : State τ ι κ σ) (x : τ) : State τ ι κ σ := { s with inside := some x }

/-- The state after a step of the thread inside. -/
def State.worked (s : State τ ι κ σ) (x : τ) (i : ι) : Option κ × σ → State τ ι κ σ
  | (some k, t) => { s with
      shared := t
      job := Function.update s.job x (some (i, k)) }
  | (none, t) => { s with
      shared := t
      inside := none
      job := Function.update s.job x none
      ended := s.ended ++ [(x, i)] }

/-- One event. -/
def step (C : Code ι κ σ) : Event τ ι → State τ ι κ σ → Option (State τ ι κ σ)
  | .begin x i, s => if (s.job x).isNone then some (s.began C x i) else none
  | .enter x, s => if s.inside = none ∧ (s.job x).isSome then some (s.entered x) else none
  | .work x, s =>
      if s.inside = some x then
        (s.job x).bind fun j => (C.work j.1 j.2 s.shared).map (s.worked x j.1)
      else none

/-- The state before the first operation. -/
def start (s : σ) : State τ ι κ σ := ⟨s, none, fun _ => none, [], []⟩

variable {s t : State τ ι κ σ} {e : Event τ ι} {s₀ : σ}

theorem step_begin {x : τ} (h : s.job x = none) (i : ι) :
    step C (.begin x i) s = some (s.began C x i) :=
  if_pos (Option.isNone_iff_eq_none.mpr h)

theorem step_enter {x : τ} (hin : s.inside = none) (hjob : s.job x ≠ none) :
    step C (.enter x) s = some (s.entered x) :=
  if_pos ⟨hin, Option.isSome_iff_ne_none.mpr hjob⟩

theorem step_work {x : τ} {i : ι} {k : κ} {r : Option κ × σ} (hin : s.inside = some x)
    (hjob : s.job x = some (i, k)) (hr : C.work i k s.shared = some r) :
    step C (.work x) s = some (s.worked x i r) := by
  rw [step, if_pos hin, hjob, Option.bind_some, hr, Option.map_some]

/-- Each thread has ended the operations that it has begun, in its order, but for the one that it
is in. -/
def Ordered (s : State τ ι κ σ) : Prop :=
  ∀ x, s.begun.filter (·.1 = x) =
    s.ended.filter (·.1 = x) ++ ((s.job x).map fun j => (x, j.1)).toList

/-- Whole operations have led from `s₀` to the state that the thread inside has found, and the
others wait at the beginning. -/
structure Serial (C : Code ι κ σ) (s₀ : σ) (s : State τ ι κ σ) : Prop where
  free : s.inside = none → C.Sequence s₀ (s.ended.map Prod.snd) s.shared
  held : ∀ x, s.inside = some x → ∃ i k u, s.job x = some (i, k) ∧
    C.Sequence s₀ (s.ended.map Prod.snd) u ∧ C.Alone i u k s.shared
  waits : ∀ x i k, s.inside ≠ some x → s.job x = some (i, k) → k = C.start i
  ordered : Ordered s

theorem serial_start (s₀ : σ) : Serial C s₀ (start s₀ : State τ ι κ σ) :=
  ⟨fun _ => .nil, fun _ h => (nomatch h), fun _ _ _ _ h => (nomatch h), fun _ => rfl⟩

theorem filter_snoc_self (l : List (τ × ι)) (x : τ) (i : ι) :
    (l ++ [(x, i)]).filter (·.1 = x) = l.filter (·.1 = x) ++ [(x, i)] := by
  simp [List.filter_append]

theorem filter_snoc_of_ne (l : List (τ × ι)) {x y : τ} (i : ι) (h : y ≠ x) :
    (l ++ [(x, i)]).filter (·.1 = y) = l.filter (·.1 = y) := by
  simp [List.filter_append, Ne.symm h]

theorem Serial.begin (h : Serial C s₀ s) {x : τ} {i : ι} (ht : step C (.begin x i) s = some t) :
    Serial C s₀ t := by
  rw [step] at ht
  split_ifs at ht with hjob
  obtain rfl := Option.some.inj ht
  rw [Option.isNone_iff_eq_none] at hjob
  have hx : s.inside ≠ some x := by
    intro e
    obtain ⟨i, k, u, hj, -⟩ := h.held x e
    rw [hjob] at hj
    cases hj
  refine ⟨h.free, fun y hy => ?_, fun y j k hy hj => ?_, fun y => ?_⟩
  · have hne : y ≠ x := fun e => hx (e ▸ hy)
    dsimp only [State.began]
    rw [Function.update_of_ne hne]
    exact h.held y hy
  · dsimp only [State.began] at hj
    by_cases hyx : y = x
    · subst hyx
      rw [Function.update_self] at hj
      obtain ⟨rfl, rfl⟩ := Prod.mk.inj (Option.some.inj hj)
      rfl
    · rw [Function.update_of_ne hyx] at hj
      exact h.waits y j k hy hj
  · have hold := h.ordered y
    dsimp only [State.began]
    by_cases hyx : y = x
    · subst hyx
      rw [hjob, Option.map_none, Option.toList_none, List.append_nil] at hold
      rw [filter_snoc_self, Function.update_self, hold]
      rfl
    · rw [filter_snoc_of_ne _ _ hyx, Function.update_of_ne hyx]
      exact hold

theorem Serial.enter (h : Serial C s₀ s) {x : τ} (ht : step C (.enter x) s = some t) :
    Serial C s₀ t := by
  rw [step] at ht
  split_ifs at ht with hcond
  obtain rfl := Option.some.inj ht
  obtain ⟨hfree, hjob⟩ := hcond
  obtain ⟨⟨i, k⟩, hj⟩ := Option.isSome_iff_exists.mp hjob
  have hk := h.waits x i k (by rw [hfree]; exact nofun) hj
  refine ⟨fun e => (nomatch e), fun y hy => ?_, fun y j k' hy hj' => ?_, h.ordered⟩
  · obtain rfl := Option.some.inj hy
    exact ⟨i, k, s.shared, hj, h.free hfree, hk ▸ .start⟩
  · exact h.waits y j k' (by rw [hfree]; exact nofun) hj'

theorem Serial.work (h : Serial C s₀ s) {x : τ} (ht : step C (.work x) s = some t) :
    Serial C s₀ t := by
  rw [step] at ht
  split_ifs at ht with hx
  obtain ⟨⟨i, k⟩, hj, ht⟩ := Option.bind_eq_some_iff.mp ht
  obtain ⟨⟨next, u⟩, hwork, rfl⟩ := Option.map_eq_some_iff.mp ht
  obtain ⟨i', k', v, hj', hseq, halone⟩ := h.held x hx
  obtain ⟨rfl, rfl⟩ := Prod.mk.inj (Option.some.inj (hj'.symm.trans hj))
  cases next with
  | some k' =>
      refine ⟨fun e => ?_, fun y hy => ?_, fun y j k'' hy hjy => ?_, fun y => ?_⟩
      · rw [show s.inside = none from e] at hx
        cases hx
      · obtain rfl := Option.some.inj (hx.symm.trans hy)
        exact ⟨i', k', v, Function.update_self _ _ _, hseq, .work halone hwork⟩
      · have hyx : y ≠ x := fun e => hy (e ▸ hx)
        dsimp only [State.worked] at hjy
        rw [Function.update_of_ne hyx] at hjy
        exact h.waits y j k'' hy hjy
      · have hold := h.ordered y
        dsimp only [State.worked]
        by_cases hyx : y = x
        · subst hyx
          rw [hj] at hold
          rw [Function.update_self]
          exact hold
        · rw [Function.update_of_ne hyx]
          exact hold
  | none =>
      refine ⟨fun _ => ?_, fun y hy => (nomatch hy), fun y j k'' _ hjy => ?_, fun y => ?_⟩
      · dsimp only [State.worked]
        rw [List.map_append]
        exact hseq.snoc ⟨_, _, halone, hwork⟩
      · dsimp only [State.worked] at hjy
        have hyx : y ≠ x := by
          rintro rfl
          rw [Function.update_self] at hjy
          cases hjy
        rw [Function.update_of_ne hyx] at hjy
        exact h.waits y j k'' (fun e => hyx (Option.some.inj (e.symm.trans hx))) hjy
      · have hold := h.ordered y
        dsimp only [State.worked]
        by_cases hyx : y = x
        · subst hyx
          rw [hj] at hold
          rw [filter_snoc_self, Function.update_self, hold, Option.map_none, Option.toList_none,
            List.append_nil]
          rfl
        · rw [filter_snoc_of_ne _ _ hyx, Function.update_of_ne hyx]
          exact hold

/-- **A monitor is sequential** after every run. -/
theorem serial_run {es : List (Event τ ι)} (h : Serial C s₀ s) (ht : run (step C) es s = some t) :
    Serial C s₀ t := by
  refine invariant (Q := fun _ _ => True) (fun e s t hs _ ht => ?_) h
    (along_of_forall fun _ _ _ => trivial) ht
  cases e with
  | begin x i => exact hs.begin ht
  | enter x => exact hs.enter ht
  | work x => exact hs.work ht

end Monitor
