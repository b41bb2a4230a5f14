import Mathlib.Data.Fin.Tuple.Basic
import Mathlib.Data.UInt

/-! # Two cascaded 8259A interrupt controllers

The controllers of a PC: the output of the slave is the request line 2 of the master.  A controller
is programmed by the words ICW1 to ICW4, keeps the requests that were raised (`irr`) and those in
service (`isr`), and in the fully nested mode requests an interrupt for the first line that is
raised, not masked, and not behind a line in service.  Of the operation command words there is the
non-specific end of interrupt; other ones are undefined (`none`).

`Chip.request_eq` says what is requested while nothing is in service, and
`Chip.endOfInterrupt_isr` that one end of interrupt is enough for one line in service. -/

namespace Pic

/-- What the data port takes next. -/
inductive Expects
  | icw2
  | icw3
  | icw4
  | mask
deriving DecidableEq

/-- A controller. -/
structure Chip where
  expects : Expects
  icw1 : UInt8
  base : UInt8
  icw3 : UInt8
  icw4 : UInt8
  imr : Fin 8 → Bool
  irr : Fin 8 → Bool
  isr : Fin 8 → Bool

/-- The bits of a byte. -/
def bits (v : UInt8) : Fin 8 → Bool := fun i => v.toNat.testBit i

namespace Chip

variable (c : Chip)

/-- The non-specific end of interrupt: the first line in service is so no more. -/
def endOfInterrupt : Chip :=
  match Fin.find? c.isr with
  | none => c
  | some i => { c with isr := Function.update c.isr i false }

/-- Writing the control port. -/
def writeControl (v : UInt8) : Option Chip :=
  if bits v 4 then
    some { c with
      expects := .icw2
      icw1 := v
      icw4 := 0
      imr := fun _ => false
      irr := fun _ => false
      isr := fun _ => false }
  else if v = 0x20 then some c.endOfInterrupt
  else none

/-- The last initialisation word comes only if ICW1 asks for it. -/
def afterIcw3 : Expects := if bits c.icw1 0 then .icw4 else .mask

/-- Writing the data port. -/
def writeData (v : UInt8) : Chip :=
  match c.expects with
  | .icw2 =>
      { c with base := v &&& 0xF8, expects := if bits c.icw1 1 then c.afterIcw3 else .icw3 }
  | .icw3 => { c with icw3 := v, expects := c.afterIcw3 }
  | .icw4 => { c with icw4 := v, expects := .mask }
  | .mask => { c with imr := bits v }

/-- The line for which the controller requests an interrupt. -/
def request : Option (Fin 8) :=
  Fin.find? fun i => c.irr i && !c.imr i && decide (∀ j ≤ i, c.isr j = false)

/-- The processor acknowledges the request of a line; in the automatic mode it does not come into
service. -/
def acknowledge (i : Fin 8) : Chip :=
  { c with
    irr := Function.update c.irr i false
    isr := if bits c.icw4 1 then c.isr else Function.update c.isr i true }

/-- A line is raised. -/
def raise (i : Fin 8) : Chip := { c with irr := Function.update c.irr i true }

/-- The controller is initialised, without automatic end of interrupt, and masks nothing. -/
structure Ready (base icw3 : UInt8) : Prop where
  expects : c.expects = .mask
  base : c.base = base
  icw3 : c.icw3 = icw3
  icw4 : c.icw4 = 0x01
  imr : ∀ i, c.imr i = false

/-- No line is in service. -/
def Idle : Prop := ∀ i, c.isr i = false

/-- At most one line is in service. -/
def Single : Prop := ∀ i j, c.isr i = true → c.isr j = true → i = j

end Chip

/-- The lines of the two controllers that devices are at. -/
inductive Line
  | master (i : Fin 8) (h : i ≠ 2)
  | slave (i : Fin 8)
deriving DecidableEq

/-- The number of a line. -/
def Line.number : Line → ℕ
  | .master i _ => i
  | .slave i => 8 + i

/-- The line of the master with a number. -/
def Line.ofMaster (n : ℕ) (h : n < 8 ∧ n ≠ 2) : Line :=
  .master ⟨n, h.1⟩ fun e => h.2 (congrArg Fin.val e)

/-- The two controllers. -/
structure Pair where
  master : Chip
  slave : Chip

namespace Pair

variable (p : Pair)

/-- Writing a port. -/
def out (port v : UInt8) : Option Pair :=
  match port with
  | 0x20 => (p.master.writeControl v).map fun c => { p with master := c }
  | 0x21 => some { p with master := p.master.writeData v }
  | 0xA0 => (p.slave.writeControl v).map fun c => { p with slave := c }
  | 0xA1 => some { p with slave := p.slave.writeData v }
  | _ => some p

/-- Writing ports, the first one first. -/
def outs (ws : List (UInt8 × UInt8)) : Option Pair := ws.foldlM (fun p w => p.out w.1 w.2) p

/-- The master with the request of the slave. -/
def cascaded : Chip :=
  { p.master with irr := Function.update p.master.irr 2 p.slave.request.isSome }

/-- The interrupt that is requested of the processor: its line, its vector and the controllers once
it is acknowledged.  A slave that is not the one the master takes it for gives no vector. -/
def interrupt : Option (Line × ℕ × Pair) := do
  let i ← p.cascaded.request
  if h : i = 2 then
    let k ← p.slave.request
    if bits p.master.icw3 2 ∧ p.slave.icw3 &&& 0x07 = 2 then
      some (.slave k, p.slave.base.toNat + k,
        ⟨{ p.master with isr := (p.cascaded.acknowledge 2).isr }, p.slave.acknowledge k⟩)
    else none
  else some (.master i h, p.master.base.toNat + i, { p with master := p.master.acknowledge i })

/-- A line is raised. -/
def raise : Line → Pair
  | .master i _ => { p with master := p.master.raise i }
  | .slave i => { p with slave := p.slave.raise i }

/-- A line is raised and not yet acknowledged. -/
def pending : Line → Bool
  | .master i _ => p.master.irr i
  | .slave i => p.slave.irr i

end Pair

/-! ### One controller -/

namespace Chip

variable {c : Chip} {base icw3 : UInt8} {i : Fin 8}

/-- Nothing is requested while the first line is in service. -/
theorem request_of_first (h : c.isr 0 = true) : c.request = none := by
  unfold request
  rw [Fin.find?_eq_none_iff]
  intro i
  have hno : ¬ ∀ j ≤ i, c.isr j = false := fun hall => by
    have h0 := hall 0 (Fin.zero_le i)
    rw [h] at h0
    exact absurd h0 (by decide)
  rw [decide_eq_false hno, Bool.and_false]

/-- With nothing in service and nothing masked the first line that is raised is requested. -/
theorem request_eq (hr : c.Ready base icw3) (hi : c.Idle) : c.request = Fin.find? c.irr := by
  unfold request
  congr 1
  funext i
  rw [hr.imr i, decide_eq_true fun j _ => hi j, Bool.not_false, Bool.and_true, Bool.and_true]

theorem idle_of_single (h : c.Single) (hi : c.isr i = true) :
    ∀ j, Function.update c.isr i false j = false := by
  intro j
  by_cases hj : j = i
  · rw [hj, Function.update_self]
  · rw [Function.update_of_ne hj]
    by_contra hne
    rw [Bool.not_eq_false] at hne
    exact hj (h j i hne hi)

/-- One end of interrupt is enough for one line in service. -/
theorem endOfInterrupt_isr (h : c.Single) : c.endOfInterrupt.Idle := by
  unfold endOfInterrupt
  cases hf : Fin.find? c.isr with
  | none =>
      intro i
      exact Fin.find?_eq_none_iff.mp hf i
  | some i => exact idle_of_single h (Fin.eq_true_of_find?_eq_some hf)

/-- It changes nothing else. -/
theorem endOfInterrupt_eq (c : Chip) : ∃ isr, c.endOfInterrupt = { c with isr := isr } := by
  unfold endOfInterrupt
  cases Fin.find? c.isr with
  | none => exact ⟨c.isr, rfl⟩
  | some i => exact ⟨_, rfl⟩

theorem Ready.endOfInterrupt (h : c.Ready base icw3) : c.endOfInterrupt.Ready base icw3 := by
  obtain ⟨isr, he⟩ := c.endOfInterrupt_eq
  rw [he]
  exact ⟨h.expects, h.base, h.icw3, h.icw4, h.imr⟩

theorem writeControl_eoi (c : Chip) : c.writeControl 0x20 = some c.endOfInterrupt := by
  unfold writeControl
  rw [if_neg (by decide), if_pos rfl]

theorem Ready.raise (h : c.Ready base icw3) (i : Fin 8) : (c.raise i).Ready base icw3 :=
  ⟨h.expects, h.base, h.icw3, h.icw4, h.imr⟩

theorem Ready.acknowledge (h : c.Ready base icw3) (i : Fin 8) :
    (c.acknowledge i).Ready base icw3 :=
  ⟨h.expects, h.base, h.icw3, h.icw4, h.imr⟩

/-- The acknowledged line is the only one in service. -/
theorem acknowledge_isr (h : c.Ready base icw3) (hi : c.Idle) (j : Fin 8) :
    (c.acknowledge i).isr j = true ↔ j = i := by
  have haeoi : bits c.icw4 1 = false := by
    rw [h.icw4]
    decide
  unfold Chip.acknowledge
  dsimp only
  rw [haeoi, if_neg (by decide), Function.update_apply]
  by_cases hj : j = i
  · simp [hj]
  · simp [hj, hi j]

theorem Idle.single (h : c.Idle) : c.Single := fun i _ hi => by
  rw [h i] at hi
  exact absurd hi (by decide)

/-- The initialisation of a controller in four words, whatever its state was. -/
theorem initialise (c : Chip) (base icw3 : UInt8) (hbase : base &&& 0xF8 = base) :
    ∃ c₁, c.writeControl 0x11 = some c₁ ∧
      (((c₁.writeData base).writeData icw3).writeData 0x01).Ready base icw3 ∧
      (((c₁.writeData base).writeData icw3).writeData 0x01).Idle ∧
      ∀ i, (((c₁.writeData base).writeData icw3).writeData 0x01).irr i = false := by
  have h₀ : bits 0x11 0 = true := by decide
  have h₁ : bits 0x11 1 = false := by decide
  have h₄ : bits 0x11 4 = true := by decide
  refine ⟨_, if_pos h₄, ⟨?_, ?_, ?_, ?_, ?_⟩, ?_, ?_⟩ <;>
    simp [writeData, afterIcw3, h₀, h₁, hbase, Idle]

end Chip

/-! ### The pair -/

namespace Pair

variable {p : Pair} {b b' : UInt8}

/-- Both controllers are initialised, with the slave at line 2. -/
structure Ready (p : Pair) (b b' : UInt8) : Prop where
  master : p.master.Ready b 0x04
  slave : p.slave.Ready b' 0x02

/-- Nothing is in service. -/
structure Idle (p : Pair) : Prop where
  master : p.master.Idle
  slave : p.slave.Idle

/-- At most one line of each controller is in service. -/
structure Single (p : Pair) : Prop where
  master : p.master.Single
  slave : p.slave.Single

theorem Idle.single (h : p.Idle) : p.Single := ⟨h.master.single, h.slave.single⟩

/-- The place of a line in the order of priority. -/
def rank : Line → ℕ
  | .master i _ => if i < 2 then i else i + 8
  | .slave i => 2 + i

theorem rank_master {i : Fin 8} (h : i ≠ 2) :
    rank (.master i h) = if i < 2 then (i : ℕ) else i + 8 := rfl

theorem rank_slave (i : Fin 8) : rank (.slave i) = 2 + i := rfl

/-- The vector of a line. -/
def vector (b b' : UInt8) : Line → ℕ
  | .master i _ => b.toNat + i
  | .slave i => b'.toNat + i

/-- The end of interrupt to both, the slave first. -/
theorem outs_eoi (p : Pair) : p.outs [(0xA0, 0x20), (0x20, 0x20)] =
    some ⟨p.master.endOfInterrupt, p.slave.endOfInterrupt⟩ := by
  simp [outs, out, Chip.writeControl_eoi]

theorem Ready.raise (h : p.Ready b b') (l : Line) : (p.raise l).Ready b b' := by
  cases l with
  | master i _ => exact ⟨h.master.raise i, h.slave⟩
  | slave i => exact ⟨h.master, h.slave.raise i⟩

theorem Ready.cascaded (h : p.Ready b b') : p.cascaded.Ready b 0x04 :=
  ⟨h.master.expects, h.master.base, h.master.icw3, h.master.icw4, h.master.imr⟩

/-- What has become of the controllers after the acknowledgement of a line. -/
structure Acknowledged (p p' : Pair) (b b' : UInt8) (l : Line) : Prop where
  ready : p'.Ready b b'
  single : p'.Single
  pending : ∀ k, p'.pending k = true ↔ p.pending k = true ∧ k ≠ l

theorem acknowledged_slave (hr : p.Ready b b') (hi : p.Idle) (k : Fin 8) :
    Acknowledged p ⟨{ p.master with isr := (p.cascaded.acknowledge 2).isr },
      p.slave.acknowledge k⟩ b b' (.slave k) := by
  have hm := Chip.acknowledge_isr (i := 2) hr.cascaded hi.master
  have hs := Chip.acknowledge_isr (i := k) hr.slave hi.slave
  refine ⟨⟨⟨hr.master.expects, hr.master.base, hr.master.icw3, hr.master.icw4, hr.master.imr⟩,
    hr.slave.acknowledge k⟩, ⟨fun i j h h' => ?_, fun i j h h' => ?_⟩, fun l => ?_⟩
  · rw [(hm i).mp h, (hm j).mp h']
  · rw [(hs i).mp h, (hs j).mp h']
  · cases l with
    | master j h => simp [pending]
    | slave j => by_cases hj : j = k <;> simp [pending, Chip.acknowledge, hj]

theorem acknowledged_master (hr : p.Ready b b') (hi : p.Idle) (i : Fin 8) (h2 : i ≠ 2) :
    Acknowledged p { p with master := p.master.acknowledge i } b b' (.master i h2) := by
  have hm := Chip.acknowledge_isr (i := i) hr.master hi.master
  refine ⟨⟨hr.master.acknowledge i, hr.slave⟩, ⟨fun j k h h' => ?_, hi.slave.single⟩, fun l => ?_⟩
  · rw [(hm j).mp h, (hm k).mp h']
  · cases l with
    | master j h => by_cases hj : j = i <;> simp [pending, Chip.acknowledge, hj]
    | slave j => simp [pending]

theorem interrupt_slave (hr : p.Ready b b') (hi : p.Idle) {k : Fin 8}
    (h : Fin.find? p.cascaded.irr = some 2) (hk : Fin.find? p.slave.irr = some k) :
    p.interrupt = some (.slave k, b'.toNat + k,
      ⟨{ p.master with isr := (p.cascaded.acknowledge 2).isr }, p.slave.acknowledge k⟩) := by
  have hcascade : bits p.master.icw3 2 ∧ p.slave.icw3 &&& 0x07 = 2 := by
    rw [hr.master.icw3, hr.slave.icw3]
    decide
  unfold interrupt
  rw [Chip.request_eq hr.cascaded hi.master, Chip.request_eq hr.slave hi.slave, h, hk,
    hr.slave.base]
  exact if_pos hcascade

theorem interrupt_master (hr : p.Ready b b') (hi : p.Idle) {i : Fin 8} (h2 : i ≠ 2)
    (h : Fin.find? p.cascaded.irr = some i) :
    p.interrupt =
      some (.master i h2, b.toNat + i, { p with master := p.master.acknowledge i }) := by
  unfold interrupt
  rw [Chip.request_eq hr.cascaded hi.master, h, hr.master.base]
  exact dif_neg h2

theorem isr_raise (l : Line) : (p.raise l).master.isr = p.master.isr ∧
    (p.raise l).slave.isr = p.slave.isr := by
  cases l <;> exact ⟨rfl, rfl⟩

/-- With nothing in service the interrupt of the first pending line is requested; it comes into
service, and the other ones stay pending. -/
theorem interrupt_of_idle (hr : p.Ready b b') (hi : p.Idle) {l : Line} (hl : p.pending l = true) :
    ∃ l' p', p.interrupt = some (l', vector b b' l', p') ∧ p.pending l' = true ∧
      (∀ k, p.pending k = true → rank l' ≤ rank k) ∧ Acknowledged p p' b b' l' := by
  have h2 : p.cascaded.irr 2 = (Fin.find? p.slave.irr).isSome := by
    rw [← Chip.request_eq hr.slave hi.slave]
    show Function.update p.master.irr 2 p.slave.request.isSome 2 = _
    rw [Function.update_self]
  have hne : ∀ i : Fin 8, i ≠ 2 → p.cascaded.irr i = p.master.irr i := by
    intro i h
    show Function.update p.master.irr 2 p.slave.request.isSome i = _
    rw [Function.update_of_ne h]
  -- a request of the slave is one at line 2
  have hslave : ∀ k : Fin 8, p.slave.irr k = true → p.cascaded.irr 2 = true := by
    intro k hk
    rw [h2, Fin.isSome_find?_iff]
    exact ⟨k, hk⟩
  cases hm : Fin.find? p.cascaded.irr with
  | none =>
      rw [Fin.find?_eq_none_iff] at hm
      cases l with
      | master i h =>
          have hirr : p.cascaded.irr i = true := (hne i h).trans hl
          rw [hm i] at hirr
          exact absurd hirr (by decide)
      | slave k =>
          have hirr := hslave k hl
          rw [hm 2] at hirr
          exact absurd hirr (by decide)
  | some i =>
      obtain ⟨hirr, hbefore⟩ := Fin.find?_eq_some_iff.mp hm
      have hfirst : ∀ j : Fin 8, p.cascaded.irr j = true → i ≤ j := by
        intro j hp
        by_contra hlt
        rw [hbefore j (not_le.mp hlt)] at hp
        exact absurd hp (by decide)
      have hmaster : ∀ j : Fin 8, j ≠ 2 → p.master.irr j = true → i ≤ j := fun j hj hp =>
        hfirst j ((hne j hj).trans hp)
      by_cases hi2 : i = 2
      · subst hi2
        rw [h2] at hirr
        obtain ⟨k, hk⟩ := Option.isSome_iff_exists.mp hirr
        obtain ⟨hkirr, hkbefore⟩ := Fin.find?_eq_some_iff.mp hk
        refine ⟨.slave k, _, interrupt_slave hr hi hm hk, hkirr, fun l' hl' => ?_,
          acknowledged_slave hr hi k⟩
        cases l' with
        | master j hj =>
            have h2j := hmaster j hj hl'
            rw [rank_slave, rank_master, if_neg (not_lt.mpr h2j)]
            omega
        | slave j =>
            rw [rank_slave, rank_slave]
            by_contra hlt
            have hjk : j < k := by
              rw [Fin.lt_def]
              omega
            have hj : p.slave.irr j = true := hl'
            rw [hkbefore j hjk] at hj
            exact absurd hj (by decide)
      · refine ⟨.master i hi2, _, interrupt_master hr hi hi2 hm, (hne i hi2).symm.trans hirr,
          fun l' hl' => ?_, acknowledged_master hr hi i hi2⟩
        cases l' with
        | master j hj =>
            have hij := hmaster j hj hl'
            rw [rank_master, rank_master]
            by_cases hj2 : j < 2
            · rw [if_pos hj2, if_pos (lt_of_le_of_lt hij hj2)]
              exact hij
            · rw [if_neg hj2]
              split_ifs <;> omega
        | slave j =>
            have hij := hfirst 2 (hslave j hl')
            rw [rank_slave, rank_master, if_pos (lt_of_le_of_ne hij hi2)]
            omega

/-- Nothing is requested for nothing. -/
theorem interrupt_eq_none (hr : p.Ready b b') (hi : p.Idle) (h : ∀ l, p.pending l = false) :
    p.interrupt = none := by
  have hslave : Fin.find? p.slave.irr = none := Fin.find?_eq_none_iff.mpr fun k => h (.slave k)
  have hmaster : Fin.find? p.cascaded.irr = none := by
    rw [Fin.find?_eq_none_iff]
    intro i
    show Function.update p.master.irr 2 p.slave.request.isSome i = false
    by_cases h2 : i = 2
    · rw [h2, Function.update_self, Chip.request_eq hr.slave hi.slave, hslave]
      rfl
    · rw [Function.update_of_ne h2]
      exact h (.master i h2)
  unfold interrupt
  rw [Chip.request_eq hr.cascaded hi.master, hmaster]
  rfl

/-- Nothing is requested while line 0 of the master is in service. -/
theorem interrupt_of_first (h : p.master.isr 0 = true) : p.interrupt = none := by
  have hc : p.cascaded.request = none := Chip.request_of_first h
  unfold interrupt
  rw [hc]
  rfl

theorem Ready.endOfInterrupt (h : p.Ready b b') :
    Ready ⟨p.master.endOfInterrupt, p.slave.endOfInterrupt⟩ b b' :=
  ⟨h.master.endOfInterrupt, h.slave.endOfInterrupt⟩

theorem Single.endOfInterrupt (h : p.Single) :
    Idle ⟨p.master.endOfInterrupt, p.slave.endOfInterrupt⟩ :=
  ⟨Chip.endOfInterrupt_isr h.master, Chip.endOfInterrupt_isr h.slave⟩

end Pair

end Pic
