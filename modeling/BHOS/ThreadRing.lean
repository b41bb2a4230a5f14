import Mathlib.Data.Finset.Card
import BHOS.Lib.Runs
import BHOS.RoundRobin

/-! # The ring of the threads

The threads that were created and have not exited are kept next to the machine.  In every run the
`next` pointers lead from `cur_tcb` through exactly these threads, each once, and back; so the
search loops of `schedule` and `remove_thread` end, and a thread that has exited is not made
current again. -/

namespace BHOS

open Linked Transition

/-- A machine, the threads that were created and have not exited, and those that have. -/
structure Census where
  sys : Threads
  alive : Finset UInt32
  exited : Finset UInt32

namespace Census

/-- One step and its entry; a thread with number 0 does not exit. -/
def step (op : ThreadOp) (g : Census) : Option Census :=
  (Threads.step op g.sys).map fun t =>
    match op with
    | .createThread _ addr _ _ _ _ => ⟨t, insert addr g.alive, g.exited⟩
    | .exit =>
        if (g.sys.tcb g.sys.curTcb).tid = 0 then ⟨t, g.alive, g.exited⟩
        else ⟨t, g.alive.erase g.sys.curTcb, insert g.sys.curTcb g.exited⟩
    | _ => ⟨t, g.alive, g.exited⟩

/-- New threads get a number other than 0 and a page that was no control block before. -/
def Fresh (op : ThreadOp) (g : Census) : Prop :=
  match op with
  | .createThread tid addr _ _ _ _ => tid ≠ 0 ∧ addr ≠ 0 ∧ addr ∉ g.alive ∧ addr ∉ g.exited
  | _ => True

/-- The threads of the round robin are those that are alive; all but the main thread have a number
other than 0. -/
structure Counts (main : UInt32) (g : Census) (A : Sched UInt32) : Prop where
  rep : Threads.Represents main g.sys A
  alive : ∀ x, x ∈ g.alive ↔ x ∈ A.threads
  numbered : ∀ x ∈ A.threads, x ≠ main → (g.sys.tcb x).tid ≠ 0
  apart : ∀ x ∈ g.exited, x ∉ g.alive

variable {main : UInt32} {g g' : Census} {op : ThreadOp} {A B : Sched UInt32}

/-- Steps after which the same threads are alive. -/
theorem Counts.of_keeps (h : Counts main g A) {t : Threads} (hrep : Threads.Represents main t B)
    (hk : Threads.Keeps g.sys t) (hmem : ∀ x, x ∈ B.threads ↔ x ∈ A.threads) :
    Counts main ⟨t, g.alive, g.exited⟩ B := by
  refine ⟨hrep, fun x => (h.alive x).trans (hmem x).symm, ?_, h.apart⟩
  intro x hx hne
  simp only [hk.tid x]
  exact h.numbered x ((hmem x).mp hx) hne

/-- **One step keeps the ring.** -/
theorem Counts.step (h : Counts main g A) (hf : Fresh op g) (ht : step op g = some g') :
    ∃ B, Counts main g' B := by
  obtain ⟨t, hstep, rfl⟩ := Option.map_eq_some_iff.mp ht
  have hrep := h.rep
  cases op with
  | createThread tid addr pageCounte isKernThread userVmmPool pdtVaddr =>
      obtain ⟨htid, h0, halive, hexited⟩ := hf
      rw [h.alive] at halive
      obtain ⟨u, hu, hB, hnew, hcore, -⟩ := hrep.createThread_spec tid pageCounte pdtVaddr
        isKernThread userVmmPool halive h0
      obtain rfl := Option.some.inj hstep
      rw [hu]
      refine ⟨_, hB, ?_, ?_, ?_⟩
      · intro x
        rw [Sched.mem_createThread, Finset.mem_insert, h.alive]
      · intro x hx hne
        by_cases hxa : x = addr
        · subst hxa
          simp only [hnew]
          exact htid
        · have hc := congrArg Prod.fst (hcore x hxa)
          simp only [Tcb.core] at hc
          simp only [hc]
          exact h.numbered x ((Sched.mem_createThread.mp hx).resolve_left hxa) hne
      · intro x hx hx'
        rcases Finset.mem_insert.mp hx' with rfl | hx'
        · exact hexited hx
        · exact h.apart x hx hx'
  | schedule =>
      obtain ⟨⟨switch, u⟩, hu, rfl⟩ := Option.map_eq_some_iff.mp hstep
      obtain ⟨-, hB, hk, -⟩ := hrep.schedule_spec hu
      exact ⟨_, h.of_keeps hB hk fun x => Sched.mem_schedule⟩
  | threadBlock =>
      obtain ⟨⟨switch, condition, u⟩, hu, rfl⟩ := Option.map_eq_some_iff.mp hstep
      obtain ⟨-, hB, hk, -⟩ := hrep.threadBlock_spec hu
      exact ⟨_, h.of_keeps hB hk fun x => Sched.mem_schedule⟩
  | endBlock condition =>
      obtain rfl := Option.some.inj hstep
      obtain ⟨c, hc⟩ := g.sys.stiCondition_eq condition
      rw [hc]
      exact ⟨A, h.of_keeps (hrep.with_cpu c) ((Threads.Keeps.refl _).with_cpu c) fun x => Iff.rfl⟩
  | threadWakeup targetThread =>
      obtain rfl := Option.some.inj hstep
      obtain ⟨hB, hk, -⟩ := hrep.threadWakeup_spec targetThread
      exact ⟨_, h.of_keeps hB hk fun x => Iff.rfl⟩
  | exit =>
      obtain ⟨u, hu, hB, hk, -⟩ := hrep.exit_spec
      obtain rfl := Option.some.inj (hstep.symm.trans hu)
      by_cases h0 : (g.sys.tcb g.sys.curTcb).tid = 0
      · rw [decide_eq_true h0] at hB
        simp only [if_pos h0]
        exact ⟨_, h.of_keeps hB hk fun x => Sched.mem_exit_true⟩
      · rw [decide_eq_false h0] at hB
        simp only [if_neg h0]
        have hrest : A.rest ≠ [] := hrep.rest_ne_nil h0
        have hmem : ∀ x, x ∈ (A.exit false).threads ↔ x ∈ A.threads ∧ x ≠ A.cur := fun x =>
          Sched.mem_exit_false hrep.ring.nodup hrest
        refine ⟨_, hB, ?_, ?_, ?_⟩
        · intro x
          rw [hmem, Finset.mem_erase, h.alive, hrep.cur]
          exact and_comm
        · intro x hx hne
          simp only [hk.tid x]
          exact h.numbered x ((hmem x).mp hx).1 hne
        · intro x hx
          rw [Finset.mem_erase]
          rintro ⟨hne, hx'⟩
          rcases Finset.mem_insert.mp hx with rfl | hx
          · exact hne rfl
          · exact h.apart x hx hx'

/-- The threads that are alive, counted. -/
theorem Counts.card_alive (h : Counts main g A) : g.alive.card = A.rest.length + 1 := by
  have he : g.alive = A.threads.toFinset := by
    ext x
    rw [h.alive, List.mem_toFinset]
  have hnd : A.threads.Nodup := h.rep.ring.nodup
  rw [he, List.toFinset_card_of_nodup hnd]
  rfl

/-- The search of `schedule` ends within as many tests as threads are alive. -/
theorem Counts.schedule_search (h : Counts main g A) {n : ℕ} (hn : g.alive.card ≤ n) :
    ∃ p, seek g.sys.next g.sys.probeStops n (g.sys.tcb g.sys.curTcb).next = some p := by
  have hrep := h.rep
  rw [h.card_alive] at hn
  rw [hrep.cur]
  rcases A.ready_cases with hno | ⟨l₁, b, l₂, e, hno, hb⟩
  · exact ⟨_, hrep.ring.seek_none rfl (fun c hc => hrep.round.probeStops_eq_false hc (hno c hc))
      (by simp [Threads.probeStops, hrep.cur]) (by omega)⟩
  · have hring : IsRing g.sys.next A.cur (l₁ ++ b :: l₂) := e ▸ hrep.ring
    have hst : (g.sys.tcb b).taskStatus = .ready := (congrFun hrep.status b).trans hb
    rw [e, List.length_append] at hn
    exact ⟨_, hring.seek_next rfl
      (fun c hc => hrep.round.probeStops_eq_false (e ▸ List.mem_append_left _ hc) (hno c hc))
      (by simp [Threads.probeStops, hst]) (by omega)⟩

/-- The search of `remove_thread` ends within as many tests as threads are alive. -/
theorem Counts.remove_search (h : Counts main g A) {n : ℕ} (hn : g.alive.card ≤ n) :
    ∃ p, seek g.sys.next (fun t => (g.sys.tcb t).next = g.sys.curTcb) n g.sys.curTcb = some p := by
  rw [h.card_alive] at hn
  obtain ⟨c, -, -, hseek⟩ := h.rep.ring.seek_pred (n := n) (by omega)
    (show ∀ p, decide ((g.sys.tcb p).next = g.sys.curTcb) = true ↔ _ from
      fun p => by simp [Threads.next, h.rep.cur])
  rw [h.rep.cur] at hseek ⊢
  exact ⟨c, hseek⟩

/-- **The ring of the threads**: in every state that a run reaches, the `next` pointers lead from
`cur_tcb` through exactly the threads that are alive, each once, and back; the search loops of
`schedule` and `remove_thread` end; and `cur_tcb` has not exited. -/
theorem ring_of_alive (s : Threads) (main : UInt32) (h0 : main ≠ 0) (ops : List ThreadOp)
    (hf : Along step Fresh ops ⟨s.threadsInit main, {main}, ∅⟩) (g : Census)
    (hg : run step ops ⟨s.threadsInit main, {main}, ∅⟩ = some g) :
    (∃ l, IsRing g.sys.next g.sys.curTcb l ∧ ∀ x, x ∈ g.alive ↔ x ∈ g.sys.curTcb :: l) ∧
    main ∈ g.alive ∧
    (∀ n, g.alive.card ≤ n →
      (∃ p, seek g.sys.next g.sys.probeStops n (g.sys.tcb g.sys.curTcb).next = some p) ∧
      ∃ p, seek g.sys.next (fun t => (g.sys.tcb t).next = g.sys.curTcb) n g.sys.curTcb = some p) ∧
    g.sys.curTcb ∉ g.exited := by
  have hrep := Threads.represents_threadsInit s h0
  have hinit : ∃ A, Counts main ⟨s.threadsInit main, {main}, ∅⟩ A := by
    refine ⟨_, hrep, ?_, ?_, fun x hx => absurd hx (Finset.notMem_empty x)⟩
    · intro x
      rw [Finset.mem_singleton, Sched.threads, List.mem_singleton]
    · intro x hx hne
      exact absurd (List.mem_singleton.mp hx) hne
  obtain ⟨A, hA⟩ := invariant (I := fun g => ∃ A, Counts main g A)
    (fun op g g' hex hf ht => hex.elim fun A hA => hA.step hf ht) hinit hf hg
  have hcur : g.sys.curTcb ∈ g.alive := by
    rw [hA.alive, hA.rep.cur]
    exact List.mem_cons_self
  refine ⟨⟨A.rest, ?_, ?_⟩, (hA.alive main).mpr hA.rep.hasMain,
    fun n hn => ⟨hA.schedule_search hn, hA.remove_search hn⟩, fun hex => hA.apart _ hex hcur⟩
  · rw [hA.rep.cur]
    exact hA.rep.ring
  · intro x
    rw [hA.alive, hA.rep.cur]
    rfl

instance (op : ThreadOp) (g : Census) : Decidable (Fresh op g) :=
  match op with
  | .createThread tid addr _ _ _ _ =>
      inferInstanceAs (Decidable (tid ≠ 0 ∧ addr ≠ 0 ∧ addr ∉ g.alive ∧ addr ∉ g.exited))
  | .schedule | .threadBlock | .endBlock _ | .threadWakeup _ | .exit => isTrue trivial

/-- The main thread creates two threads; the second exits, and then the main thread does. -/
def comeAndGo : List ThreadOp :=
  [.createThread 1 0xC0400000 1 true ⟨0, 0, 0⟩ 0, .createThread 2 0xC0500000 1 true ⟨0, 0, 0⟩ 0,
    .schedule, .exit, .schedule, .exit]

theorem ring_of_alive_sample : ∃ g,
    run step comeAndGo ⟨Threads.zero.threadsInit 0xC0110000, {0xC0110000}, ∅⟩ = some g ∧
    g.sys.curTcb ∉ g.exited ∧ 0xC0500000 ∈ g.exited := by
  have hrun : ((run step comeAndGo ⟨Threads.zero.threadsInit 0xC0110000, {0xC0110000}, ∅⟩).map
      fun g => decide (0xC0500000 ∈ g.exited)) = some true := by
    decide +kernel
  obtain ⟨g, hg, hex⟩ := Option.map_eq_some_iff.mp hrun
  obtain ⟨-, -, -, hcur⟩ := ring_of_alive Threads.zero 0xC0110000 (by decide) comeAndGo
    (by decide +kernel) g hg
  exact ⟨g, hg, hcur, of_decide_eq_true hex⟩

end Census
end BHOS
