import Mathlib.Data.Finset.Card
import BHOS.WaitQueues

/-! # The units of a semaphore

The history of a semaphore is counted next to the machine: the calls of `sem_P` and `sem_V` that
have ended, and the threads whose node `sem_V` has taken off the queue and that have not yet tested
the loop condition of `sem_P` again.  The value of the semaphore is its initial value and the
calls of `sem_V` less the calls of `sem_P`; while a thread waits, every unit has a thread that was
woken up for it. -/

namespace BHOS

open Linked Transition Threads

/-- A machine and the history of one semaphore. -/
structure Counted where
  sys : Sync
  pDone : ℕ
  vDone : ℕ
  woken : Finset UInt32

/-- What is left of a call of `sem_P` on this semaphore. -/
def Frame.onSem (a : UInt32) : Frame → Bool
  | .semP b _ _ => b = a
  | _ => false

/-- The step executes `sem_P` on this semaphore. -/
def SyncOp.runsSemP (a : UInt32) : SyncOp → Sync → Bool
  | .semP b _, _ => b = a
  | .resume, s => (s.frames s.cur).any (Frame.onSem a)
  | _, _ => false

/-- The step is a call of `sem_V` on this semaphore. -/
def SyncOp.isSemV (a : UInt32) : SyncOp → Bool
  | .semV b => b = a
  | _ => false

namespace Counted

/-- The threads that are woken up and have not tested the loop condition after the step. -/
def wokenAfter (a : UInt32) (op : SyncOp) (g : Counted) : Finset UInt32 :=
  match op with
  | .resume => g.woken.erase g.sys.cur
  | .semV b =>
      if b = a then
        match (g.sys.sem a).head with
        | none => g.woken
        | some n => insert (g.sys.node n).thread g.woken
      else g.woken
  | _ => g.woken

/-- One step and its entry in the history of semaphore `a`. -/
def step (a : UInt32) (op : SyncOp) (g : Counted) : Option Counted :=
  (Sync.step op g.sys).map fun t =>
    { sys := t
      pDone := if op.runsSemP a g.sys && (t.frames g.sys.cur).isEmpty then g.pDone + 1 else g.pDone
      vDone := if op.isSemV a then g.vDone + 1 else g.vDone
      woken := g.wokenAfter a op }

/-- No thread exits, and the units that were ever there can be counted in 32 bits. -/
def Allowed (a v₀ : UInt32) (op : SyncOp) (g : Counted) : Prop :=
  Sync.QueueAllowed op g.sys ∧ op ≠ .exit ∧
    (op.isSemV a = true → v₀.toNat + (g.vDone + 1) < 2 ^ 32)

/-- The calls that have ended account for the value, and the threads that were woken up are those
that wait with a node outside the queue. -/
structure Accounted (main a v₀ : UInt32) (g : Counted) (A : Sched UInt32)
    (q : UInt32 → List UInt32) : Prop where
  queued : Sync.Queued main g.sys A q
  sum : (g.sys.sem a).val.toNat + g.pDone = v₀.toNat + g.vDone
  mem_woken : ∀ x, x ∈ g.woken ↔ ∃ n, g.sys.Waiting x a n ∧ n ∉ q a
  served : q a ≠ [] → (g.sys.sem a).val.toNat ≤ g.woken.card

variable {main a b n v₀ : UInt32} {op : SyncOp} {g g' : Counted} {A : Sched UInt32}
  {q : UInt32 → List UInt32}

theorem runsSemP_iff (h : Sync.Queued main g.sys A q) :
    op.runsSemP a g.sys = true ↔ Sync.InSemP op g.sys a := by
  unfold Sync.InSemP
  cases op with
  | semP b n => simp [SyncOp.runsSemP]
  | resume =>
      rcases h.shape g.sys.cur with he | ⟨b, n, hw⟩
      · have hno : ∀ n, ¬ g.sys.Waiting g.sys.cur a n := by
          rintro n ⟨c, c', hw⟩
          rw [he] at hw
          cases hw
        simp [SyncOp.runsSemP, he, hno]
      · have hiff : (∃ n, g.sys.Waiting g.sys.cur a n) ↔ b = a :=
          ⟨fun ⟨m, hm⟩ => (hw.unique hm).1, fun e => ⟨n, e ▸ hw⟩⟩
        obtain ⟨c, c', hfr⟩ := hw
        simp [SyncOp.runsSemP, hfr, hiff, Frame.onSem]
  | _ => simp [SyncOp.runsSemP]

theorem isSemV_iff : op.isSemV a = true ↔ op = .semV a := by
  cases op <;> simp [SyncOp.isSemV]

/-- The running thread was woken up exactly when it waits on this semaphore. -/
theorem Accounted.cur_mem_woken (h : Accounted main a v₀ g A q) :
    g.sys.cur ∈ g.woken ↔ ∃ n, g.sys.Waiting g.sys.cur a n := by
  rw [h.mem_woken]
  exact exists_congr fun n => and_iff_left_of_imp fun hw => h.queued.not_mem_of_cur hw a

/-- A step that executes `sem_P` takes the running thread out of those woken up. -/
theorem Accounted.wokenAfter_of_inSemP (h : Accounted main a v₀ g A q)
    (hen : Sync.Enabled op g.sys) (hop : Sync.InSemP op g.sys b) :
    g.wokenAfter a op = g.woken.erase g.sys.cur := by
  rcases hop with ⟨n, rfl⟩ | ⟨rfl, -⟩
  · refine (Finset.erase_eq_of_notMem ?_).symm
    intro hmem
    obtain ⟨m, c, c', hw⟩ := h.cur_mem_woken.mp hmem
    rw [hen.idle nofun] at hw
    cases hw
  · rfl

/-- Executing `sem_P` on another semaphore leaves those woken up alone. -/
theorem Accounted.erase_eq (h : Accounted main a v₀ g A q) (hen : Sync.Enabled op g.sys)
    (hop : Sync.InSemP op g.sys b) (hb : b ≠ a) : g.woken.erase g.sys.cur = g.woken := by
  apply Finset.erase_eq_of_notMem
  intro hmem
  obtain ⟨m, hw⟩ := h.cur_mem_woken.mp hmem
  rcases hop with ⟨n, rfl⟩ | ⟨-, n, hw'⟩
  · obtain ⟨c, c', hw⟩ := hw
    rw [hen.idle nofun] at hw
    cases hw
  · exact hb (hw'.unique hw).1

theorem inSemP_unique (hen : Sync.Enabled op g.sys) (h₁ : Sync.InSemP op g.sys a)
    (h₂ : Sync.InSemP op g.sys b) : a = b := by
  rcases h₁ with ⟨n, rfl⟩ | ⟨rfl, n, hw⟩
  · rcases h₂ with ⟨m, e⟩ | ⟨e, -⟩
    · injection e
    · cases e
  · rcases h₂ with ⟨m, e⟩ | ⟨-, m, hw'⟩
    · cases e
    · exact (hw.unique hw').1

/-! ### One step -/

section cases

variable {t : Sync} {B : Sched UInt32} {fs : List Frame}

/-- The running thread ends a call of `sem_P` on semaphore `b`. -/
theorem Accounted.of_takes (h : Accounted main a v₀ g A q) (hen : Sync.Enabled op g.sys)
    (hB : Sync.Queued main t B q) (hop : Sync.InSemP op g.sys b) (available : (g.sys.sem b).val ≠ 0)
    (val : (t.sem b).val = (g.sys.sem b).val - 1) (sem : ∀ d ≠ b, (t.sem d).val = (g.sys.sem d).val)
    (frames : t.frames = Function.update g.sys.frames g.sys.cur []) :
    Accounted main a v₀
      ⟨t, if b = a then g.pDone + 1 else g.pDone, g.vDone, g.woken.erase g.sys.cur⟩ B q := by
  have hwait : ∀ x m, t.Waiting x a m ↔ x ≠ g.sys.cur ∧ g.sys.Waiting x a m := fun x m =>
    Sync.waiting_idle frames
  have hchar : ∀ x, x ∈ g.woken.erase g.sys.cur ↔ ∃ n, t.Waiting x a n ∧ n ∉ q a := by
    intro x
    rw [Finset.mem_erase, h.mem_woken]
    simp only [hwait]
    exact ⟨fun ⟨hx, n, hw, hn⟩ => ⟨n, ⟨hx, hw⟩, hn⟩, fun ⟨n, ⟨hx, hw⟩, hn⟩ => ⟨hx, n, hw, hn⟩⟩
  have hsum := h.sum
  by_cases hb : b = a
  · subst hb
    have hpos : 0 < (g.sys.sem b).val.toNat :=
      Nat.pos_of_ne_zero fun e => available (UInt32.toNat_inj.mp e)
    have hval : ((g.sys.sem b).val - 1).toNat = (g.sys.sem b).val.toNat - 1 :=
      UInt32.toNat_sub_of_le _ _ (UInt32.le_iff_toNat_le.mpr hpos)
    refine ⟨hB, ?_, hchar, ?_⟩
    · simp only [if_true, val, hval]
      omega
    · intro hne
      have hcard := Finset.pred_card_le_card_erase (s := g.woken) (a := g.sys.cur)
      have hserved := h.served hne
      simp only [val, hval]
      omega
  · refine ⟨hB, ?_, hchar, ?_⟩
    · simp only [if_neg hb, sem a (Ne.symm hb)]
      exact hsum
    · intro hne
      simp only [sem a (Ne.symm hb), h.erase_eq hen hop hb]
      exact h.served hne

/-- The running thread adds its node to the queue of semaphore `b`. -/
theorem Accounted.of_waits (h : Accounted main a v₀ g A q) (hen : Sync.Enabled op g.sys)
    (hB : Sync.Queued main t B (Function.update q b (q b ++ [n]))) (hop : Sync.InSemP op g.sys b)
    (empty : (g.sys.sem b).val = 0) (sem : ∀ d, (t.sem d).val = (g.sys.sem d).val)
    (own : ∀ x d, g.sys.Waiting x d n → x = g.sys.cur)
    (left : ∃ c c', fs = [.threadBlock c, .semP b n c'])
    (frames : t.frames = Function.update g.sys.frames g.sys.cur fs) :
    Accounted main a v₀ ⟨t, g.pDone, g.vDone, g.woken.erase g.sys.cur⟩ B
      (Function.update q b (q b ++ [n])) := by
  have hself : t.Waiting g.sys.cur b n := by
    obtain ⟨c, c', hfs⟩ := left
    exact ⟨c, c', by rw [frames, Function.update_self, hfs]⟩
  have hwait : ∀ x m, x ≠ g.sys.cur → (t.Waiting x a m ↔ g.sys.Waiting x a m) := fun x m hx =>
    Sync.waiting_congr (by rw [frames, Function.update_of_ne hx])
  have hstay : ∀ m, m ≠ n → (m ∈ Function.update q b (q b ++ [n]) a ↔ m ∈ q a) := fun m hm =>
    Sync.mem_append_queue.trans (or_iff_left fun e => hm e.2)
  refine ⟨hB, ?_, ?_, ?_⟩
  · simp only [sem]
    exact h.sum
  · intro x
    rw [Finset.mem_erase, h.mem_woken]
    constructor
    · rintro ⟨hx, m, hw, hm⟩
      have hmn : m ≠ n := fun e => hx (own x a (e ▸ hw))
      exact ⟨m, (hwait x m hx).mpr hw, fun hm' => hm ((hstay m hmn).mp hm')⟩
    · rintro ⟨m, hw, hm⟩
      have hx : x ≠ g.sys.cur := by
        rintro rfl
        obtain ⟨rfl, rfl⟩ := hself.unique hw
        simp at hm
      have hw' := (hwait x m hx).mp hw
      have hmn : m ≠ n := fun e => hx (own x a (e ▸ hw'))
      exact ⟨hx, m, hw', fun hm' => hm ((hstay m hmn).mpr hm')⟩
  · intro hne
    by_cases hb : b = a
    · subst hb
      simp only [sem, empty]
      exact Nat.zero_le _
    · rw [Function.update_of_ne (Ne.symm hb)] at hne
      simp only [sem, h.erase_eq hen hop hb]
      exact h.served hne

/-- A unit is posted to the semaphore. -/
theorem Accounted.of_posts_self (h : Accounted main a v₀ g A q)
    (hB : Sync.Queued main t B (Function.update q a (q a).tail))
    (room : v₀.toNat + (g.vDone + 1) < 2 ^ 32) (val : (t.sem a).val = (g.sys.sem a).val + 1)
    (frames : t.frames = g.sys.frames) :
    Accounted main a v₀ ⟨t, g.pDone, g.vDone + 1, g.wokenAfter a (.semV a)⟩ B
      (Function.update q a (q a).tail) := by
  have hwait : ∀ x m, t.Waiting x a m ↔ g.sys.Waiting x a m := fun x m =>
    Sync.waiting_congr (congrFun frames x)
  have hsum := h.sum
  have hval : ((g.sys.sem a).val + 1).toNat = (g.sys.sem a).val.toNat + 1 := by
    simp only [UInt32.toNat_add, UInt32.reduceToNat]
    omega
  have hunits : (t.sem a).val.toNat + g.pDone = v₀.toNat + (g.vDone + 1) := by
    rw [val, hval]
    omega
  have hlist := h.queued.queue a
  cases hqa : q a with
  | nil =>
      have hnone : (g.sys.sem a).head = none := hlist.eq_nil_iff.mp hqa
      rw [hqa] at hB
      refine ⟨hB, hunits, ?_, ?_⟩
      · intro x
        simp only [wokenAfter, if_true, hnone, h.mem_woken, hwait, hqa, List.tail_nil,
          Function.update_self]
      · intro hne
        simp at hne
  | cons n l =>
      rw [hqa] at hlist hB
      have hnl : n ∉ l := (List.nodup_cons.mp hlist.nodup).1
      have hn : n ∈ q a := hqa ▸ List.mem_cons_self
      obtain ⟨hw, -⟩ := h.queued.queued a n hn
      have hnew : (g.sys.node n).thread ∉ g.woken := by
        rw [h.mem_woken]
        rintro ⟨m, hw', hm⟩
        exact hm ((hw.unique hw').2 ▸ hn)
      have hwoken : g.wokenAfter a (.semV a) = insert (g.sys.node n).thread g.woken := by
        simp only [wokenAfter, if_true, hlist.1]
      refine ⟨hB, hunits, ?_, ?_⟩
      · intro x
        simp only [hwoken, Finset.mem_insert, h.mem_woken, Function.update_self, hqa,
          List.tail_cons, hwait, List.mem_cons, not_or]
        constructor
        · rintro (rfl | ⟨m, hw', hm⟩)
          · exact ⟨n, hw, hnl⟩
          · exact ⟨m, hw', hm.2⟩
        · rintro ⟨m, hw', hm⟩
          by_cases hmn : m = n
          · subst hmn
            exact Or.inl (h.queued.own _ _ _ hw').symm
          · exact Or.inr ⟨m, hw', hmn, hm⟩
      · intro _
        have hserved := h.served (by simp [hqa])
        simp only [hwoken, Finset.card_insert_of_notMem hnew, val, hval]
        omega

/-- A unit is posted to semaphore `b`. -/
theorem Accounted.of_posts (h : Accounted main a v₀ g A q)
    (hB : Sync.Queued main t B (Function.update q b (q b).tail))
    (room : b = a → v₀.toNat + (g.vDone + 1) < 2 ^ 32)
    (val : (t.sem b).val = (g.sys.sem b).val + 1) (sem : ∀ d ≠ b, (t.sem d).val = (g.sys.sem d).val)
    (frames : t.frames = g.sys.frames) :
    Accounted main a v₀
      ⟨t, g.pDone, if b = a then g.vDone + 1 else g.vDone, g.wokenAfter a (.semV b)⟩ B
      (Function.update q b (q b).tail) := by
  by_cases hb : b = a
  · subst hb
    rw [if_pos rfl]
    exact h.of_posts_self hB (room rfl) val frames
  · have hw : g.wokenAfter a (.semV b) = g.woken := if_neg hb
    refine ⟨hB, ?_, ?_, ?_⟩
    · simp only [if_neg hb, sem a (Ne.symm hb)]
      exact h.sum
    · intro x
      simp only [hw, h.mem_woken, Function.update_of_ne (Ne.symm hb), Sync.Waiting, frames]
    · intro hne
      rw [Function.update_of_ne (Ne.symm hb)] at hne
      simp only [hw, sem a (Ne.symm hb)]
      exact h.served hne

end cases

/-- **One step keeps the account**, and a call of `sem_P` ends only with a unit. -/
theorem Accounted.step (h : Accounted main a v₀ g A q) (ha : Allowed a v₀ op g)
    (ht : step a op g = some g') :
    (∃ B q', Accounted main a v₀ g' B q') ∧
      (g'.pDone ≠ g.pDone →
        (g.sys.sem a).val ≠ 0 ∧ (g'.sys.sem a).val = (g.sys.sem a).val - 1) := by
  obtain ⟨hq, hexit, hroom⟩ := ha
  have hen := hq.1
  obtain ⟨t, hstep, rfl⟩ := Option.map_eq_some_iff.mp ht
  obtain ⟨B, q', hB, hmoves⟩ := h.queued.step_moves hq (fun e => absurd e hexit) hstep
  have hnotV : ∀ {b}, Sync.InSemP op g.sys b → op.isSemV a = false := by
    rintro b (⟨n, rfl⟩ | ⟨rfl, -⟩) <;> rfl
  have hruns : ∀ {b}, Sync.InSemP op g.sys b → op.runsSemP a g.sys = decide (b = a) := by
    intro b hb
    rw [Bool.eq_iff_iff, decide_eq_true_iff, runsSemP_iff h.queued]
    exact ⟨fun ha => inSemP_unique hen hb ha, fun e => e ▸ hb⟩
  cases hmoves with
  | other kind idle sem frames =>
      have hP : op.runsSemP a g.sys = false :=
        Bool.eq_false_iff.mpr fun e => (kind a).2 ((runsSemP_iff h.queued).mp e)
      have hV : op.isSemV a = false := Bool.eq_false_iff.mpr fun e => (kind a).1 (isSemV_iff.mp e)
      have hw : g.wokenAfter a op = g.woken := by
        cases op with
        | resume => exact absurd idle (hen.mp rfl)
        | semV b => exact absurd rfl (kind b).1
        | _ => rfl
      simp only [hP, hV, hw, Bool.false_and, Bool.false_eq_true, if_false]
      refine ⟨⟨B, q, hB, ?_, ?_, ?_⟩, fun hne => absurd rfl hne⟩
      · rw [sem]
        exact h.sum
      · intro x
        simp only [h.mem_woken, Sync.Waiting, frames]
      · intro hne
        rw [sem]
        exact h.served hne
  | takes b kind available val sem frames =>
      have hend : (t.frames g.sys.cur).isEmpty = true := by
        rw [frames, Function.update_self]
        rfl
      simp only [hnotV kind, hruns kind, h.wokenAfter_of_inSemP hen kind, hend, Bool.and_true,
        decide_eq_true_eq, Bool.false_eq_true, if_false]
      refine ⟨⟨B, q, h.of_takes hen hB kind available val sem frames⟩, ?_⟩
      intro hne
      by_cases hb : b = a
      · subst hb
        exact ⟨available, val⟩
      · rw [if_neg hb] at hne
        exact absurd rfl hne
  | waits b n fs kind empty sem fresh own left frames =>
      have hend : (t.frames g.sys.cur).isEmpty = false := by
        obtain ⟨c, c', hfs⟩ := left
        rw [frames, Function.update_self, hfs]
        rfl
      simp only [hnotV kind, h.wokenAfter_of_inSemP hen kind, hend, Bool.and_false,
        Bool.false_eq_true, if_false]
      exact ⟨⟨B, _, h.of_waits hen hB kind empty sem own left frames⟩, fun hne => absurd rfl hne⟩
  | posts b kind idle val sem frames =>
      subst kind
      have hP : (SyncOp.semV b).runsSemP a g.sys = false := rfl
      have hV : (SyncOp.semV b).isSemV a = decide (b = a) := rfl
      simp only [hP, hV, Bool.false_and, decide_eq_true_eq, Bool.false_eq_true, if_false]
      refine ⟨⟨B, _, h.of_posts hB ?_ val sem frames⟩, fun hne => absurd rfl hne⟩
      intro e
      exact hroom (e ▸ isSemV_iff.mpr rfl)

/-! ### Runs -/

/-- The history at the start. -/
def start (s : Sync) : Counted := ⟨s, 0, 0, ∅⟩

theorem accounted_start (s : Sync) (h0 : main ≠ 0) (val : UInt32 → UInt32) (a : UInt32) :
    ∃ A q, Accounted main a (val a) (start (s.start main val)) A q := by
  have hq := Sync.queued_start s h0 val
  refine ⟨_, _, hq, rfl, ?_, fun hne => absurd rfl hne⟩
  intro x
  have hno : ∀ n, ¬ (s.start main val).Waiting x a n := by
    rintro n ⟨c, c', hw⟩
    cases hw
  simp [start, hno]

/-- **The value of a semaphore** is its initial value and the calls of `sem_V` less the calls of
`sem_P`, `sem_P` takes a unit only when there is one, and while a thread waits every unit has a
thread that was woken up and has not tested the loop condition again. -/
theorem accounted (s : Sync) (main : UInt32) (h0 : main ≠ 0) (val : UInt32 → UInt32) (a : UInt32)
    (ops : List SyncOp)
    (ha : Along (step a) (Allowed a (val a)) ops (start (s.start main val))) :
    Along (step a) (fun op g => ∀ t, step a op g = some t → t.pDone ≠ g.pDone →
        (g.sys.sem a).val ≠ 0 ∧ (t.sys.sem a).val = (g.sys.sem a).val - 1) ops
      (start (s.start main val)) ∧
    ∀ g, run (step a) ops (start (s.start main val)) = some g →
      (g.sys.sem a).val.toNat + g.pDone = (val a).toNat + g.vDone ∧
      ((g.sys.sem a).head ≠ none → (g.sys.sem a).val.toNat ≤ g.woken.card) := by
  have hI : ∀ op g g', (∃ A q, Accounted main a (val a) g A q) → Allowed a (val a) op g →
      step a op g = some g' → ∃ A q, Accounted main a (val a) g' A q :=
    fun op g g' ⟨A, q, hg⟩ ha ht => (hg.step ha ht).1
  have hinit := accounted_start s h0 val a
  refine ⟨Along.of_invariant hI (fun op g ⟨A, q, hg⟩ ha t ht => (hg.step ha ht).2) hinit ha, ?_⟩
  intro g hg
  obtain ⟨A, q, hA⟩ := invariant hI hinit ha hg
  refine ⟨hA.sum, fun hne => hA.served fun hnil => hne ?_⟩
  exact (hA.queued.queue a).eq_nil_iff.mp hnil

/-- The main thread waits, a unit is posted, and the main thread takes it. -/
def waitAndPost : List SyncOp :=
  [.semP 0xC0200000 0xC010FFF0, .semV 0xC0200000, .schedule, .schedule, .resume]

theorem accounted_sample : ∃ g,
    run (step 0xC0200000) (Sync.threeThreads ++ waitAndPost)
      (start (Sync.zero.start 0xC0110000 fun _ => 0)) = some g ∧
    (g.sys.sem 0xC0200000).val.toNat + g.pDone = (0 : UInt32).toNat + g.vDone ∧
    g.pDone = 1 ∧ g.vDone = 1 := by
  obtain ⟨u, A, q, hu, hA⟩ := Sync.queued_threeThreads
  have hops : Along Sync.step (fun op s => Sync.Enabled op s ∧ Sync.Unused op s) waitAndPost u := by
    obtain rfl := Option.some.inj hu
    decide +kernel
  have hallowed : Along Sync.step Sync.QueueAllowed (Sync.threeThreads ++ waitAndPost)
      (Sync.zero.start 0xC0110000 fun _ => 0) :=
    (along_append hu).mpr ⟨Sync.allowed_threeThreads,
      hA.allowed_of_unused hops (by simp [waitAndPost])⟩
  have hcomap : Along (step 0xC0200000) (fun op g => Sync.QueueAllowed op g.sys)
      (Sync.threeThreads ++ waitAndPost) (start (Sync.zero.start 0xC0110000 fun _ => 0)) :=
    hallowed.comap (f := Counted.sys) fun op g g' hg => by
      obtain ⟨t, ht, rfl⟩ := Option.map_eq_some_iff.mp hg
      exact ht
  have hexit : Along (step 0xC0200000) (fun op _ => op ≠ .exit)
      (Sync.threeThreads ++ waitAndPost) (start (Sync.zero.start 0xC0110000 fun _ => 0)) :=
    along_of_forall fun op hop _ e => by
      subst e
      simp [Sync.threeThreads, waitAndPost] at hop
  have hroom : Along (step 0xC0200000)
      (fun op g => op.isSemV 0xC0200000 = true → (0 : UInt32).toNat + (g.vDone + 1) < 2 ^ 32)
      (Sync.threeThreads ++ waitAndPost) (start (Sync.zero.start 0xC0110000 fun _ => 0)) := by
    decide +kernel
  have hrun : ((run (step 0xC0200000) (Sync.threeThreads ++ waitAndPost)
      (start (Sync.zero.start 0xC0110000 fun _ => 0))).map fun g => (g.pDone, g.vDone)) =
      some (1, 1) := by
    decide +kernel
  obtain ⟨g, hg, hcount⟩ := Option.map_eq_some_iff.mp hrun
  obtain ⟨hP, hV⟩ := Prod.mk.inj hcount
  have ha := (hcomap.and (hexit.and hroom)).mono fun op g h => (⟨h.1, h.2.1, h.2.2⟩ :
    Allowed 0xC0200000 0 op g)
  obtain ⟨-, h⟩ := accounted Sync.zero 0xC0110000 (by decide) (fun _ => 0) 0xC0200000 _ ha
  exact ⟨g, hg, (h g hg).1, hP, hV⟩

end Counted
end BHOS
