import BHOS.Lib.Pic
import BHOS.Lib.X86Gate
import BHOS.Lib.Runs
import BHOS.ContextSwitch
import BHOS.InterruptEntry

/-! # Hardware interrupts (`interrupt.c`, `_8259A.c`, `interrupt_asm.s`, `threads_asm.s`)

`idt_init` programs the two controllers so that line `n` has the vector `32 + n`, writes a gate
for each of the 48 vectors and registers the handlers.  The controllers are in the mode without
automatic end of interrupt: they have to be told, or they go on to block the lines behind the one
in service.  That is done behind each handler and in `switch_to`, which may leave a handler for a
thread that is in none.

The runs are those of all threads with the devices.  A thread is in the middle of interrupts and
of switches (`frames`); `flag` is the interrupt flag.  `not_paused` says that the controllers are
never left with a line in service that blocks another one. -/

namespace BHOS

open Pic

/-! ### The controllers -/

/-- `_8259A_init`: the ports and the values that are written to them. -/
def init8259A : List (UInt8 × UInt8) :=
  [(0x20, 0x11), (0x21, 0x20), (0x21, 0x04), (0x21, 0x01),
    (0xA0, 0x11), (0xA1, 0x28), (0xA1, 0x02), (0xA1, 0x01)]

/-- What `pre_handle` and `switch_to` write at the end of an interrupt. -/
def eoiWrites : List (UInt8 × UInt8) := [(0xA0, 0x20), (0x20, 0x20)]

/-- The bases of the vectors. -/
def mainBase : UInt8 := 0x20

/-- That of the slave. -/
def otherBase : UInt8 := 0x28

theorem init8259A_spec (p : Pair) : ∃ p', p.outs init8259A = some p' ∧
    p'.Ready mainBase otherBase ∧ p'.Idle ∧ ∀ l, p'.pending l = false := by
  obtain ⟨m, hm, hmr, hmi, hmp⟩ := Chip.initialise p.master 0x20 0x04 (by decide)
  obtain ⟨o, ho, hor, hoi, hop⟩ := Chip.initialise p.slave 0x28 0x02 (by decide)
  refine ⟨⟨((m.writeData 0x20).writeData 0x04).writeData 0x01,
    ((o.writeData 0x28).writeData 0x02).writeData 0x01⟩, ?_, ⟨hmr, hor⟩, ⟨hmi, hoi⟩, ?_⟩
  · simp [init8259A, Pair.outs, Pair.out, hm, ho]
  · intro l
    cases l with
    | master i h => exact hmp i
    | slave i => exact hop i

/-- The code behind a handler writes them. -/
theorem ports_intExit (c : X86.Cpu) :
    (X86.run intExit c).ports = eoiWrites.reverse ++ c.ports := by
  show (0x20, (X86.withLow8 _ 0x20).toUInt8) :: (0xA0, (X86.withLow8 _ 0x20).toUInt8) ::
    c.ports = _
  rw [X86.withLow8_toUInt8]
  rfl

/-- So does `switch_to`. -/
theorem ports_switchTo {c : X86.Cpu} {now next ret : UInt32} (h : AtSwitch c now next ret) :
    (X86.performAll switchToCode c).ports = eoiWrites.reverse ++ c.ports := by
  rw [run_switchToCode h]
  rfl

theorem vector_eq (l : Line) : Pair.vector mainBase otherBase l = 32 + l.number := by
  cases l with
  | master i h => rfl
  | slave i =>
      show 40 + (i : ℕ) = 32 + (8 + i)
      omega

/-! ### The machine -/

/-- What a thread is in the middle of: an interrupt, with the flag of the interrupted code, or the
end of `switch_to` behind `popf`. -/
inductive IrqFrame
  | handler (flag : Bool)
  | switched
deriving DecidableEq

/-- The controllers and the interrupt flag, in the processor and in the contexts. -/
structure Irqs (ι : Type*) where
  pics : Pair
  flag : Bool
  cur : ι
  frames : ι → List IrqFrame
  saved : ι → Bool

/-- What happens: a device raises a line, the processor takes an interrupt of the controllers or
another one (an exception), a handler ends, the running thread switches, ends a switch, clears or
sets the flag, or creates a thread. -/
inductive IrqEvent (ι : Type*)
  | raise (l : Line)
  | irq
  | fault
  | intExit
  | switchTo (j : ι)
  | switchEnd
  | cli
  | sti
  | create (j : ι)

variable {ι : Type*} [DecidableEq ι]

namespace Irqs

/-- The running thread is in the middle of something more. -/
def enter (s : Irqs ι) (f : IrqFrame) : Irqs ι :=
  { s with frames := Function.update s.frames s.cur (f :: s.frames s.cur) }

/-- It is not any more. -/
def leave (s : Irqs ι) : Irqs ι :=
  { s with frames := Function.update s.frames s.cur (s.frames s.cur).tail }

/-- The writes at the end of an interrupt. -/
def signal (s : Irqs ι) : Option (Irqs ι) :=
  (s.pics.outs eoiWrites).map fun p => { s with pics := p }

/-- An interrupt starts, which leaves the controllers in the given state. -/
def start (s : Irqs ι) (p : Pair) : Irqs ι :=
  { (s.enter (.handler s.flag)) with pics := p, flag := false }

/-- The processor takes the interrupt that the controllers request. -/
def takeIrq (s : Irqs ι) : Option (Line × ℕ × Irqs ι) :=
  if s.flag then s.pics.interrupt.map fun r => (r.1, r.2.1, s.start r.2.2) else none

/-- The code behind a handler. -/
def intExit (s : Irqs ι) : Option (Irqs ι) :=
  match s.frames s.cur with
  | .handler f :: _ => s.signal.map fun t => { t.leave with flag := f }
  | _ => none

/-- `switch_to` from `popf` on. -/
def switchEnd (s : Irqs ι) : Option (Irqs ι) :=
  match s.frames s.cur with
  | .switched :: _ => s.signal.map leave
  | _ => none

/-- One step. -/
def step : IrqEvent ι → Irqs ι → Option (Irqs ι)
  | .raise l, s => some { s with pics := s.pics.raise l }
  | .irq, s => s.takeIrq.map fun r => r.2.2
  | .fault, s => some (s.start s.pics)
  | .intExit, s => s.intExit
  | .switchTo j, s =>
      let saved := Function.update s.saved s.cur s.flag
      some ({ s with saved := saved, flag := saved j, cur := j }.enter .switched)
  | .switchEnd, s => s.switchEnd
  | .cli, s => some { s with flag := false }
  | .sti, s => some { s with flag := true }
  | .create j, s => some { s with
      saved := Function.update s.saved j true
      frames := Function.update s.frames j [] }

/-- The running thread is at the end of `switch_to`. -/
def AtEnd (s : Irqs ι) : Prop := (s.frames s.cur).head? = some .switched

instance (s : Irqs ι) : Decidable s.AtEnd := inferInstanceAs (Decidable (_ = _))

/-- In service is at most the line of the timer. -/
def OnlyTimer (s : Irqs ι) : Prop :=
  s.pics.slave.Idle ∧ ∀ i, s.pics.master.isr i = true → i.val = 0

instance (s : Irqs ι) : Decidable s.OnlyTimer := by
  unfold OnlyTimer Chip.Idle
  infer_instance

/-- What the code of the kernel does: no handler sets the flag, the end of `switch_to` does nothing
but to end, and no handler but that of the timer switches threads. -/
def Allowed : IrqEvent ι → Irqs ι → Prop
  | .sti, s => s.frames s.cur = []
  | .cli, s => ¬ s.AtEnd
  | .fault, s => ¬ s.AtEnd
  | .switchTo _, s => ¬ s.AtEnd ∧ s.OnlyTimer
  | .create j, s => ¬ s.AtEnd ∧ j ≠ s.cur
  | _, _ => True

instance : ∀ (e : IrqEvent ι) (s : Irqs ι), Decidable (Allowed e s)
  | .sti, _ => inferInstanceAs (Decidable (_ = _))
  | .cli, _ => inferInstanceAs (Decidable (¬ _))
  | .fault, _ => inferInstanceAs (Decidable (¬ _))
  | .switchTo _, _ => inferInstanceAs (Decidable (_ ∧ _))
  | .create _, _ => inferInstanceAs (Decidable (_ ∧ _))
  | .raise _, _ => isTrue trivial
  | .irq, _ => isTrue trivial
  | .intExit, _ => isTrue trivial
  | .switchEnd, _ => isTrue trivial

/-- The running thread is in a handler. -/
def InHandler (s : Irqs ι) : Prop := ∃ f, (s.frames s.cur).head? = some (.handler f)

/-- Something is in service only in a handler with the flag cleared, or at the end of a switch
away from the handler of the timer. -/
structure Inv (s : Irqs ι) : Prop where
  ready : s.pics.Ready mainBase otherBase
  single : s.pics.Single
  served : s.pics.Idle ∨ (s.InHandler ∧ s.flag = false) ∨ (s.AtEnd ∧ s.OnlyTimer)

variable {s t : Irqs ι}

/-- With nothing in service the first pending line is taken. -/
theorem takeIrq_of_idle (hr : s.pics.Ready mainBase otherBase) (hi : s.pics.Idle)
    (hflag : s.flag = true) {l : Line} (hl : s.pics.pending l = true) :
    ∃ l' t, s.takeIrq = some (l', 32 + l'.number, t) ∧ s.pics.pending l' = true ∧
      (∀ k, s.pics.pending k = true → Pair.rank l' ≤ Pair.rank k) ∧
      Pair.Acknowledged s.pics t.pics mainBase otherBase l' := by
  obtain ⟨l', p', hint, hp, hrank, hack⟩ := Pair.interrupt_of_idle hr hi hl
  rw [vector_eq] at hint
  refine ⟨l', s.start p', ?_, hp, hrank, hack⟩
  unfold takeIrq
  rw [if_pos hflag, hint]
  rfl

theorem takeIrq_eq_some {l : Line} {v : ℕ} : s.takeIrq = some (l, v, t) ↔
    s.flag = true ∧ ∃ p, s.pics.interrupt = some (l, v, p) ∧ s.start p = t := by
  unfold takeIrq
  by_cases hf : s.flag = true
  · rw [if_pos hf, Option.map_eq_some_iff]
    constructor
    · rintro ⟨⟨l', v', p⟩, hp, h⟩
      obtain ⟨rfl, rfl, rfl⟩ : l' = l ∧ v' = v ∧ s.start p = t := by simpa using h
      exact ⟨hf, p, hp, rfl⟩
    · rintro ⟨-, p, hp, rfl⟩
      exact ⟨_, hp, rfl⟩
  · rw [if_neg hf]
    simp [hf]

/-- A line is taken only while nothing is in service. -/
theorem Inv.of_takeIrq (hI : s.Inv) {l : Line} {v : ℕ} (h : s.takeIrq = some (l, v, t)) :
    s.pics.Idle ∧ s.flag = true := by
  obtain ⟨hflag, p, hp, -⟩ := takeIrq_eq_some.mp h
  refine ⟨?_, hflag⟩
  rcases hI.served with hidle | ⟨-, hf⟩ | ⟨-, hslave, hmaster⟩
  · exact hidle
  · rw [hf] at hflag
    exact absurd hflag (by decide)
  · refine ⟨fun i => ?_, hslave⟩
    by_contra hne
    rw [Bool.not_eq_false] at hne
    have h0 : i = 0 := Fin.ext (hmaster i hne)
    rw [h0] at hne
    rw [Pair.interrupt_of_first hne] at hp
    exact absurd hp (by simp)

/-- What a line that is taken was, and what it leaves. -/
theorem Inv.takeIrq_spec (hI : s.Inv) {l : Line} {v : ℕ} (h : s.takeIrq = some (l, v, t)) :
    v = 32 + l.number ∧ s.pics.pending l = true ∧
      Pair.Acknowledged s.pics t.pics mainBase otherBase l ∧ t.InHandler ∧ t.flag = false := by
  obtain ⟨hidle, hflag⟩ := hI.of_takeIrq h
  obtain ⟨-, p, hp, rfl⟩ := takeIrq_eq_some.mp h
  have hsome : ∃ k, s.pics.pending k = true := by
    by_contra hno
    have hnone := Pair.interrupt_eq_none hI.ready hidle fun k => by
      by_contra hk
      rw [Bool.not_eq_false] at hk
      exact hno ⟨k, hk⟩
    rw [hnone] at hp
    exact absurd hp (by simp)
  obtain ⟨k, hk⟩ := hsome
  obtain ⟨l', p', hint, hpending, -, hack⟩ := Pair.interrupt_of_idle hI.ready hidle hk
  rw [vector_eq, hp] at hint
  obtain ⟨rfl, rfl, rfl⟩ : l = l' ∧ v = 32 + l'.number ∧ p = p' := by simpa using hint
  exact ⟨rfl, hpending, hack, ⟨s.flag, by simp [start, enter]⟩, rfl⟩

omit [DecidableEq ι] in
theorem signal_eq (s : Irqs ι) : s.signal =
    some { s with pics := ⟨s.pics.master.endOfInterrupt, s.pics.slave.endOfInterrupt⟩ } := by
  unfold signal eoiWrites
  rw [Pair.outs_eoi]
  rfl

omit [DecidableEq ι] in
/-- Both ends of interrupts leave nothing in service. -/
theorem Inv.of_signal (hI : s.Inv) (h : t.pics =
    ⟨s.pics.master.endOfInterrupt, s.pics.slave.endOfInterrupt⟩) : t.Inv ∧ t.pics.Idle := by
  have hidle : t.pics.Idle := by
    rw [h]
    exact hI.single.endOfInterrupt
  refine ⟨⟨?_, hidle.single, Or.inl hidle⟩, hidle⟩
  rw [h]
  exact hI.ready.endOfInterrupt

theorem pics_intExit (h : s.intExit = some t) :
    t.pics = ⟨s.pics.master.endOfInterrupt, s.pics.slave.endOfInterrupt⟩ := by
  unfold intExit at h
  rw [signal_eq] at h
  split at h
  · obtain rfl := Option.some.inj h
    rfl
  · exact absurd h (by simp)

theorem pics_switchEnd (h : s.switchEnd = some t) :
    t.pics = ⟨s.pics.master.endOfInterrupt, s.pics.slave.endOfInterrupt⟩ := by
  unfold switchEnd at h
  rw [signal_eq] at h
  split at h
  · obtain rfl := Option.some.inj h
    rfl
  · exact absurd h (by simp)

omit [DecidableEq ι] in
/-- Events that do not touch what is in service. -/
theorem Inv.congr (hI : s.Inv) (hr : t.pics.Ready mainBase otherBase)
    (hm : t.pics.master.isr = s.pics.master.isr) (hs : t.pics.slave.isr = s.pics.slave.isr)
    (hserved : ¬ s.pics.Idle → (t.InHandler ∧ t.flag = false) ∨ (t.AtEnd ∧ t.OnlyTimer)) :
    t.Inv := by
  refine ⟨hr, ⟨fun i j => ?_, fun i j => ?_⟩, ?_⟩
  · rw [hm]
    exact hI.single.master i j
  · rw [hs]
    exact hI.single.slave i j
  · by_cases hidle : s.pics.Idle
    · refine Or.inl ⟨fun i => ?_, fun i => ?_⟩
      · rw [hm]
        exact hidle.master i
      · rw [hs]
        exact hidle.slave i
    · exact Or.inr (hserved hidle)

theorem Inv.step {e : IrqEvent ι} (hI : s.Inv) (ha : Allowed e s) (h : Irqs.step e s = some t) :
    t.Inv := by
  have hserved : ¬ s.pics.Idle → (s.InHandler ∧ s.flag = false) ∨ (s.AtEnd ∧ s.OnlyTimer) :=
    fun hne => hI.served.resolve_left hne
  cases e with
  | raise l =>
      obtain rfl := Option.some.inj h
      obtain ⟨hm, hs⟩ := Pair.isr_raise (p := s.pics) l
      refine hI.congr (hI.ready.raise l) hm hs fun hne => ?_
      unfold OnlyTimer Chip.Idle at *
      dsimp only
      rw [hm, hs]
      exact hserved hne
  | irq =>
      obtain ⟨⟨l, v, t'⟩, ht, rfl⟩ := Option.map_eq_some_iff.mp h
      obtain ⟨-, -, hack, hhandler, hflag⟩ := hI.takeIrq_spec ht
      exact ⟨hack.ready, hack.single, Or.inr (Or.inl ⟨hhandler, hflag⟩)⟩
  | fault =>
      obtain rfl := Option.some.inj h
      refine ⟨hI.ready, hI.single, Or.inr (Or.inl ⟨⟨s.flag, ?_⟩, rfl⟩)⟩
      simp [start, enter]
  | intExit => exact (hI.of_signal (pics_intExit h)).1
  | switchTo j =>
      obtain rfl := Option.some.inj h
      obtain ⟨hend, htimer⟩ := ha
      refine hI.congr hI.ready rfl rfl fun _ => Or.inr ⟨?_, htimer⟩
      simp [AtEnd, enter]
  | switchEnd => exact (hI.of_signal (pics_switchEnd h)).1
  | cli =>
      obtain rfl := Option.some.inj h
      refine hI.congr hI.ready rfl rfl fun hne => ?_
      rcases hserved hne with ⟨hh, -⟩ | ⟨he, -⟩
      · exact Or.inl ⟨hh, rfl⟩
      · exact absurd he ha
  | sti =>
      obtain rfl := Option.some.inj h
      have hframes : s.frames s.cur = [] := ha
      refine hI.congr hI.ready rfl rfl fun hne => ?_
      rcases hserved hne with ⟨⟨f, hf⟩, -⟩ | ⟨he, -⟩
      · rw [hframes] at hf
        exact absurd hf (by simp)
      · unfold AtEnd at he
        rw [hframes] at he
        exact absurd he (by simp)
  | create j =>
      obtain rfl := Option.some.inj h
      obtain ⟨-, hj⟩ := ha
      refine hI.congr hI.ready rfl rfl fun hne => ?_
      unfold InHandler AtEnd at *
      dsimp only
      rw [Function.update_of_ne hj.symm]
      exact hserved hne

/-! ### Runs -/

/-- The machine once the controllers are initialised, with one thread that is in no interrupt. -/
structure Booted (s : Irqs ι) : Prop where
  pics : ∃ p, Pair.outs p init8259A = some s.pics
  frames : s.frames s.cur = []

omit [DecidableEq ι] in
theorem Booted.inv (h : s.Booted) : s.Inv := by
  obtain ⟨p, hp⟩ := h.pics
  obtain ⟨p', hp', hr, hi, -⟩ := init8259A_spec p
  rw [hp'] at hp
  obtain rfl := Option.some.inj hp
  exact ⟨hr, hi.single, Or.inl hi⟩

/-- **The controllers are never paused**: in every run, while interrupts are on, of all the lines
that are raised the first one is taken at once, with the vector 32 + its number; only the end of a
switch away from the timer comes before that, and behind it nothing is in service. -/
theorem not_paused {es : List (IrqEvent ι)} (hb : s.Booted)
    (ha : Transition.Along step Allowed es s) (hr : Transition.run step es s = some t)
    (hflag : t.flag = true) :
    (¬ t.AtEnd → ∀ l, t.pics.pending l = true → ∃ l' u, t.takeIrq = some (l', 32 + l'.number, u) ∧
      t.pics.pending l' = true ∧ (∀ k, t.pics.pending k = true → Pair.rank l' ≤ Pair.rank k) ∧
      ∀ k, u.pics.pending k = true ↔ t.pics.pending k = true ∧ k ≠ l') ∧
    (t.AtEnd → ∃ u, t.switchEnd = some u ∧ u.pics.Idle ∧ u.flag = true) := by
  have hI : t.Inv := Transition.invariant (fun _ _ _ hI ha h => hI.step ha h) hb.inv ha hr
  constructor
  · intro hend l hl
    have hidle : t.pics.Idle := by
      rcases hI.served with hidle | ⟨-, hf⟩ | ⟨he, -⟩
      · exact hidle
      · rw [hf] at hflag
        exact absurd hflag (by decide)
      · exact absurd he hend
    obtain ⟨l', u, hu, hp, hrank, hack⟩ := takeIrq_of_idle hI.ready hidle hflag hl
    exact ⟨l', u, hu, hp, hrank, hack.pending⟩
  · intro hend
    have hdefined : ∃ u, t.switchEnd = some u ∧ u.flag = t.flag := by
      unfold Irqs.switchEnd
      rw [signal_eq]
      unfold AtEnd at hend
      cases hf : t.frames t.cur with
      | nil => exact absurd hend (by simp [hf])
      | cons f fs =>
          rw [hf] at hend
          obtain rfl : f = .switched := by simpa using hend
          exact ⟨_, rfl, rfl⟩
    obtain ⟨u, hu, huf⟩ := hdefined
    exact ⟨u, hu, (hI.of_signal (pics_switchEnd hu)).2, huf.trans hflag⟩

/-- Controllers that have been initialised. -/
def initialised : Pair where
  master := ⟨.mask, 0x11, 0x20, 0x04, 0x01, fun _ => false, fun _ => false, fun _ => false⟩
  slave := ⟨.mask, 0x11, 0x28, 0x02, 0x01, fun _ => false, fun _ => false, fun _ => false⟩

/-- Two threads after `idt_init`. -/
def bootedIrqs : Irqs Bool where
  pics := initialised
  flag := false
  cur := false
  frames _ := []
  saved _ := false

theorem booted_bootedIrqs : bootedIrqs.Booted := ⟨⟨initialised, rfl⟩, rfl⟩

/-- The line of the timer. -/
def timerLine : Line := .ofMaster 0 (by decide)

/-- The line of the keyboard. -/
def keyboardLine : Line := .ofMaster 1 (by decide)

/-- The timer interrupts a thread that has set the flag, and its handler switches to a new thread;
then the keyboard interrupts that one. -/
def timerEvents : List (IrqEvent Bool) :=
  [.create true, .sti, .raise timerLine, .irq, .switchTo true, .switchEnd,
    .raise keyboardLine]

theorem along_timerEvents : Transition.Along step Allowed timerEvents bootedIrqs := by
  decide +kernel

/-- The machine after these events. -/
def timerIrqs : Irqs Bool := (Transition.run step timerEvents bootedIrqs).getD bootedIrqs

theorem run_timerEvents : Transition.run step timerEvents bootedIrqs = some timerIrqs := rfl

/-- The keyboard is not blocked by the timer whose handler the thread has left. -/
theorem not_paused_keyboard : ∃ l' u, timerIrqs.takeIrq = some (l', 32 + l'.number, u) ∧
    timerIrqs.pics.pending l' = true ∧
    (∀ k, timerIrqs.pics.pending k = true → Pair.rank l' ≤ Pair.rank k) ∧
    ∀ k, u.pics.pending k = true ↔ timerIrqs.pics.pending k = true ∧ k ≠ l' :=
  (not_paused booted_bootedIrqs along_timerEvents run_timerEvents (by decide +kernel)).1
    (by decide +kernel) keyboardLine (by decide +kernel)

end Irqs

/-! ### The tables of `interrupt.c` -/

open X86

/-- `kern_cs`. -/
def kernCs : UInt16 := 0x08

/-- `default_inf`. -/
def defaultInf : UInt8 := 0x8E

/-- `interrupt_discripter_t`. -/
structure IntDisc where
  offsetLow : UInt16
  selector : UInt16
  defaultBit8 : UInt8
  inf : UInt8
  offsetHigh : UInt16

/-- The bytes of the packed structure. -/
def IntDisc.bytes (d : IntDisc) : List UInt8 :=
  [d.offsetLow.toUInt8, (d.offsetLow >>> 8).toUInt8, d.selector.toUInt8,
    (d.selector >>> 8).toUInt8, d.defaultBit8, d.inf, d.offsetHigh.toUInt8,
    (d.offsetHigh >>> 8).toUInt8]

/-- The functions that are registered. -/
inductive IntServerFunc
  | defaultServerFunc
  | timerServerFunc
  | pageFaultFunc
  | interruptHandlerKeyboard
deriving DecidableEq

/-- `idt_entries` and `int_server_func_list`. -/
structure IntTables where
  idtEntries : ℕ → IntDisc
  intServerFuncList : ℕ → Option IntServerFunc

namespace IntTables

/-- `set_int_disc`. -/
def setIntDisc (s : IntTables) (intNo : ℕ) (offset : UInt32) (selector : UInt16) (inf : UInt8) :
    IntTables :=
  let d : IntDisc :=
    { offsetLow := offset.toUInt16
      offsetHigh := (offset >>> 16).toUInt16
      selector := selector
      inf := inf
      defaultBit8 := 0 }
  { s with idtEntries := Function.update s.idtEntries intNo d }

/-- `register_interrupt`. -/
def registerInterrupt (s : IntTables) (intNo : ℕ) (targetFunc : IntServerFunc) : IntTables :=
  { s with intServerFuncList := Function.update s.intServerFuncList intNo (some targetFunc) }

/-- `idt_init` behind `_8259A_init`; `isr` gives the addresses of the entries. -/
def idtInit (isr : ℕ → UInt32) (s : IntTables) : IntTables :=
  let s := (List.range 48).foldl (fun s n => s.setIntDisc n (isr n) kernCs defaultInf) s
  let s := (List.range 32).foldl (fun s n => s.registerInterrupt n .defaultServerFunc) s
  let s := (List.range' 33 15).foldl (fun s n => s.registerInterrupt n .defaultServerFunc) s
  let s := s.registerInterrupt 14 .pageFaultFunc
  s.registerInterrupt 32 .timerServerFunc

/-- `keyboard_init`. -/
def keyboardInit (s : IntTables) : IntTables := s.registerInterrupt 33 .interruptHandlerKeyboard

/-- `int_func_route`: the function that is called. -/
def intFuncRoute (s : IntTables) (intNo : ℕ) : Option IntServerFunc := s.intServerFuncList intNo

/-- The gate of a vector. -/
def gate (s : IntTables) (n : ℕ) : GateDescriptor := .decode (s.idtEntries n).bytes

theorem gate_setIntDisc (s : IntTables) (n : ℕ) (offset : UInt32) :
    (s.setIntDisc n offset kernCs defaultInf).gate n = interruptGate offset kernCs := by
  have hlow : offset.toUInt16.toNat = offset.toNat % 2 ^ 16 := UInt32.toNat_toUInt16 _
  have hhigh : (offset >>> 16).toUInt16.toNat = offset.toNat / 2 ^ 16 := by
    have hlt := offset.toNat_lt
    rw [UInt32.toNat_toUInt16, UInt32.toNat_shiftRight, Nat.shiftRight_eq_div_pow]
    show offset.toNat / 2 ^ 16 % 2 ^ 16 = _
    omega
  unfold gate setIntDisc IntDisc.bytes
  dsimp only
  rw [Function.update_self, decode_gate, hlow, hhigh]
  unfold interruptGate
  congr 1
  · omega
  all_goals
    dsimp only
    decide

/-- What the loops write. -/
theorem foldl_setIntDisc (isr : ℕ → UInt32) (l : List ℕ) (s : IntTables) (n : ℕ) :
    (l.foldl (fun s n => s.setIntDisc n (isr n) kernCs defaultInf) s).idtEntries n =
      if n ∈ l then (s.setIntDisc n (isr n) kernCs defaultInf).idtEntries n
      else s.idtEntries n := by
  induction l generalizing s with
  | nil => rfl
  | cons a l ih =>
      rw [List.foldl_cons, ih]
      by_cases ha : n = a
      · subst ha
        simp [setIntDisc]
      · by_cases hl : n ∈ l <;> simp [setIntDisc, ha, hl]

theorem foldl_registerInterrupt (f : IntServerFunc) (l : List ℕ) (s : IntTables) :
    l.foldl (fun s n => s.registerInterrupt n f) s = { s with
      intServerFuncList := fun n => if n ∈ l then some f else s.intServerFuncList n } := by
  induction l generalizing s with
  | nil => rfl
  | cons a l ih =>
      rw [List.foldl_cons, ih]
      unfold registerInterrupt
      congr 1
      funext n
      by_cases ha : n = a
      · subst ha
        simp
      · by_cases hl : n ∈ l <;> simp [ha, hl]

/-- The function for a vector. -/
def registered (n : ℕ) : IntServerFunc :=
  if n = 14 then .pageFaultFunc
  else if n = 32 then .timerServerFunc
  else if n = 33 then .interruptHandlerKeyboard
  else .defaultServerFunc

/-- After `idt_init` and `keyboard_init` the 48 vectors have gates and functions. -/
theorem idtInit_spec (isr : ℕ → UInt32) (s : IntTables) {n : ℕ} (hn : n < 48) :
    (s.idtInit isr).keyboardInit.gate n = interruptGate (isr n) kernCs ∧
      (s.idtInit isr).keyboardInit.intFuncRoute n = some (registered n) := by
  constructor
  · rw [← gate_setIntDisc s n (isr n)]
    unfold gate
    have he : (s.idtInit isr).keyboardInit.idtEntries n =
        ((List.range 48).foldl (fun s n => s.setIntDisc n (isr n) kernCs defaultInf) s).idtEntries
          n := by
      unfold idtInit keyboardInit
      dsimp only
      rw [foldl_registerInterrupt, foldl_registerInterrupt]
      rfl
    rw [he, foldl_setIntDisc, if_pos (List.mem_range.mpr hn)]
  · unfold idtInit keyboardInit intFuncRoute registered
    dsimp only
    rw [foldl_registerInterrupt, foldl_registerInterrupt]
    unfold registerInterrupt
    simp only [Function.update_apply, List.mem_range, List.mem_range'_1]
    split_ifs <;> first | rfl | omega

end IntTables

namespace Irqs

variable {ι : Type*} [DecidableEq ι] {s t u : Irqs ι}

/-- The function for a line. -/
def lineFunc (l : Line) : IntServerFunc :=
  if l.number = 0 then .timerServerFunc
  else if l.number = 1 then .interruptHandlerKeyboard
  else .defaultServerFunc

theorem number_lt (l : Line) : l.number < 16 := by
  cases l with
  | master i h => exact lt_trans i.isLt (by decide)
  | slave i =>
      show 8 + (i : ℕ) < 16
      omega

/-- **From the line to the handler**: in every run an interrupt that is taken is that of a line,
its gate leads to the entry with its number, the entry calls `int_func_route` with that number, and
the function of the line is called. -/
theorem irq_dispatched {es : List (IrqEvent ι)} {l : Line} {v : ℕ} (hb : s.Booted)
    (ha : Transition.Along step Allowed es s) (hr : Transition.run step es s = some t)
    (ht : t.takeIrq = some (l, v, u)) (isr : ℕ → UInt32) (tables : IntTables) (esp0 e : UInt32)
    (c : Cpu) :
    (tables.idtInit isr).keyboardInit.gate v = interruptGate (isr (32 + l.number)) kernCs ∧
    (atCall v (intGate (isr v) esp0) e c).mem ((atCall v (intGate (isr v) esp0) e c).reg .esp) =
      UInt32.ofNat (32 + l.number) ∧
    (tables.idtInit isr).keyboardInit.intFuncRoute v = some (lineFunc l) := by
  have hI : t.Inv := Transition.invariant (fun _ _ _ hI ha h => hI.step ha h) hb.inv ha hr
  obtain ⟨rfl, -⟩ := hI.takeIrq_spec ht
  have hn : 32 + l.number < 48 := by
    have hlt := number_lt l
    omega
  obtain ⟨hgate, hfunc⟩ := tables.idtInit_spec isr hn
  refine ⟨hgate, (atCall_spec hn _ e c).1.1, ?_⟩
  rw [hfunc]
  unfold IntTables.registered lineFunc
  congr 1
  split_ifs <;> first | rfl | omega

/-- Tables with nothing in them. -/
def emptyTables : IntTables := ⟨fun _ => ⟨0, 0, 0, 0, 0⟩, fun _ => none⟩

/-- The keyboard interrupts the new thread, and its handler is called. -/
theorem irq_dispatched_keyboard :
    (emptyTables.idtInit UInt32.ofNat).keyboardInit.gate 33 = interruptGate 33 kernCs ∧
    (atCall 33 (intGate 33 0) 0 leavingKernel).mem
      ((atCall 33 (intGate 33 0) 0 leavingKernel).reg .esp) = 33 ∧
    (emptyTables.idtInit UInt32.ofNat).keyboardInit.intFuncRoute 33 =
      some .interruptHandlerKeyboard := by
  have htaken : timerIrqs.takeIrq = some (keyboardLine, 33, timerIrqs.start
      { timerIrqs.pics with master := timerIrqs.pics.master.acknowledge 1 }) := rfl
  exact irq_dispatched booted_bootedIrqs along_timerEvents run_timerEvents htaken UInt32.ofNat
    emptyTables 0 0 leavingKernel

end Irqs

end BHOS
