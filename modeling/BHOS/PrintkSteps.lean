import BHOS.Lib.Monitor
import BHOS.Printk

/-! # A call of `printk` in steps (`printk.c`)

What a thread does that has `printk_lock`: it copies the format string, expands the directives one
character after the other, and hands the text to the console character by character.  The timer may
interrupt it between any two of these steps (`work`).

Executed alone to its end, a call does what `printk_color` does (`Whole.eq`); until then it has
written a first part of its text (`alone_shows`). -/

namespace BHOS

open CharArray

/-- A call of `printk_color`, or of `printk`, whose colours are fixed. -/
structure PrintCall where
  inputStr : CStr
  back : VgaColor
  fore : VgaColor
  va : ℕ → VArg

/-- Where a thread is that has the lock: before the copy of the format string, in the loop, with
the number of tests that are left and its local variables, or in `kputs_color`, with what is left
of the text. -/
inductive PrintPc
  | copying
  | expanding (tests : ℕ) (outputStr : Vector UInt8 100) (offset : ℤ) (ptr : ℕ)
  | writing (probe : List UInt8)

namespace PrintCall

variable {c : PrintCall} {st st' st₀ : PrintState} {pc pc' : PrintPc} {t : Terminal}

/-- One step of a call: the copy of the format string, one round of the loop over the characters,
or one character of the text. -/
def work (c : PrintCall) : PrintPc → PrintState → Except Fault (Option PrintPc × PrintState)
  | .copying, st => do
      let outputStr ← strcpy (Vector.replicate 100 0) 0 c.inputStr.cells
      .ok (some (.expanding 100 outputStr 0 0), st)
  | .expanding 0 _ _ _, _ => .error .loop
  | .expanding (k + 1) outputStr offset ptr, st => do
      let i ← index offset
      let char ← read outputStr.toList i
      if char ≠ 0 then do
        let f ← Formatting.body c.va i char ⟨outputStr, offset, ptr, st.m, st.staticHexstr⟩
        .ok (some (.expanding k f.outputStr (f.offset + 1) f.ptr),
          { st with m := f.m, staticHexstr := f.staticHexstr })
      else .ok (some (.writing outputStr.toList), st)
  | .writing [], st => .ok (none, st)
  | .writing (probe :: rest), st =>
      if probe ≠ 0 then
        .ok (some (.writing rest), { st with
          console := st.console.kputcColor probe c.back c.fore })
      else .ok (none, st)

/-- The code of the calls. -/
def code : Monitor.Code PrintCall PrintPc PrintState where
  start _ := .copying
  work c pc st := (c.work pc st).toOption

/-- The text that a call writes. -/
def text (c : PrintCall) : List UInt8 := expand c.va c.inputStr.chars 0

/-- The call on a terminal. -/
def onTerminal (t : Terminal) (c : PrintCall) : Terminal := t.puts c.text c.back c.fore

/-- The text and its stages fit into the array of `printk`. -/
def Fits (c : PrintCall) : Prop := StaysWithin c.inputStr.chars c.va

/-- What a call has done alone, from a state on, when it is at a place. -/
def Stage (c : PrintCall) (st₀ : PrintState) : PrintPc → PrintState → Prop
  | .copying, st => st = st₀
  | .expanding k outputStr offset ptr, st => st.console = st₀.console ∧
      Formatting.loop c.va k ⟨outputStr, offset, ptr, st.m, st.staticHexstr⟩ =
        format c.inputStr.cells c.va st₀
  | .writing probe, st => ∃ f p, format c.inputStr.cells c.va st₀ = .ok f ∧
      p ++ probe = f.outputStr.toList ∧ 0 ∉ p ∧
        st = ⟨f.m, f.staticHexstr, st₀.console.kputsColor p c.back c.fore⟩

theorem kputsColor_append (con : Console) {p : List UInt8} (hp : 0 ∉ p) (s : List UInt8)
    (back fore : VgaColor) : con.kputsColor (p ++ s) back fore =
      (con.kputsColor p back fore).kputsColor s back fore := by
  induction p generalizing con with
  | nil => rfl
  | cons a p ih =>
      obtain ⟨ha, hp⟩ := not_or.mp fun h => hp (List.mem_cons.mpr h)
      rw [List.cons_append, Console.kputsColor, Console.kputsColor, if_pos (Ne.symm ha),
        if_pos (Ne.symm ha), ih _ hp]

/-- What one step can do. -/
inductive Worked (c : PrintCall) : PrintPc → PrintState → Option PrintPc × PrintState → Prop
  | copied {st : PrintState} (outputStr : Vector UInt8 100)
      (copy : strcpy (Vector.replicate 100 0) 0 c.inputStr.cells = .ok outputStr) :
      Worked c .copying st (some (.expanding 100 outputStr 0 0), st)
  | expanded {k : ℕ} {outputStr : Vector UInt8 100} {offset : ℤ} {ptr : ℕ} {st : PrintState} (i : ℕ)
      (char : UInt8) (f : Formatting) (at_offset : index offset = .ok i)
      (char_eq : read outputStr.toList i = .ok char) (char_ne : char ≠ 0)
      (body : Formatting.body c.va i char ⟨outputStr, offset, ptr, st.m, st.staticHexstr⟩ = .ok f) :
      Worked c (.expanding (k + 1) outputStr offset ptr) st
        (some (.expanding k f.outputStr (f.offset + 1) f.ptr),
          { st with m := f.m, staticHexstr := f.staticHexstr })
  | ended {k : ℕ} {outputStr : Vector UInt8 100} {offset : ℤ} {ptr : ℕ} {st : PrintState} (i : ℕ)
      (at_offset : index offset = .ok i) (char_eq : read outputStr.toList i = .ok 0) :
      Worked c (.expanding (k + 1) outputStr offset ptr) st
        (some (.writing outputStr.toList), st)
  | wrote {st : PrintState} (probe : UInt8) (rest : List UInt8) (probe_ne : probe ≠ 0) :
      Worked c (.writing (probe :: rest)) st
        (some (.writing rest), { st with console := st.console.kputcColor probe c.back c.fore })
  | nul {st : PrintState} (rest : List UInt8) : Worked c (.writing (0 :: rest)) st (none, st)
  | behind {st : PrintState} : Worked c (.writing []) st (none, st)

theorem worked_of_work {r : Option PrintPc × PrintState} (hw : c.work pc st = .ok r) :
    c.Worked pc st r := by
  cases pc with
  | copying =>
      rw [work] at hw
      cases hcopy : strcpy (Vector.replicate 100 0) 0 c.inputStr.cells with
      | error e =>
          rw [hcopy, error_bind] at hw
          cases hw
      | ok outputStr =>
          rw [hcopy, ok_bind] at hw
          cases hw
          exact .copied outputStr hcopy
  | expanding k outputStr offset ptr =>
      cases k with
      | zero => cases hw
      | succ k =>
          rw [work] at hw
          cases hi : index offset with
          | error e =>
              rw [hi, error_bind] at hw
              cases hw
          | ok i =>
              rw [hi, ok_bind] at hw
              cases hread : read outputStr.toList i with
              | error e =>
                  rw [hread, error_bind] at hw
                  cases hw
              | ok char =>
                  rw [hread, ok_bind] at hw
                  split_ifs at hw with hchar
                  · cases hbody : Formatting.body c.va i char
                        ⟨outputStr, offset, ptr, st.m, st.staticHexstr⟩ with
                    | error e =>
                        rw [hbody, error_bind] at hw
                        cases hw
                    | ok f =>
                        rw [hbody, ok_bind] at hw
                        cases hw
                        exact .expanded i char f hi hread hchar hbody
                  · cases hw
                    exact .ended i hi (not_not.mp hchar ▸ hread)
  | writing probe =>
      cases probe with
      | nil =>
          cases hw
          exact .behind
      | cons probe rest =>
          rw [work] at hw
          split_ifs at hw with hprobe
          · cases hw
            exact .wrote probe rest hprobe
          · cases hw
            obtain rfl := not_not.mp hprobe
            exact .nul rest

/-- A step goes on to the next stage. -/
theorem Stage.step (h : c.Stage st₀ pc st) (hw : c.work pc st = .ok (some pc', st')) :
    c.Stage st₀ pc' st' := by
  cases worked_of_work hw with
  | copied outputStr hcopy =>
      obtain rfl := h
      refine ⟨rfl, ?_⟩
      rw [format, hcopy, ok_bind]
  | expanded i char f hi hread hchar hbody =>
      obtain ⟨hcon, hloop⟩ := h
      refine ⟨hcon, ?_⟩
      rw [← hloop, Formatting.loop]
      dsimp only
      rw [hi, ok_bind, hread, ok_bind, if_pos hchar, hbody, ok_bind]
  | @ended k outputStr offset ptr _ i hi hread =>
      obtain ⟨hcon, hloop⟩ := h
      refine ⟨⟨outputStr, offset, ptr, st.m, st.staticHexstr⟩, [], ?_, rfl, List.not_mem_nil, by
        rw [← hcon]
        rfl⟩
      rw [← hloop, Formatting.loop]
      dsimp only
      rw [hi, ok_bind, hread, ok_bind, if_neg (not_not.mpr rfl)]
  | wrote probe rest hprobe =>
      obtain ⟨f, p, hf, htext, hp, rfl⟩ := h
      refine ⟨f, p ++ [probe], hf, by rw [← htext, List.append_assoc, List.singleton_append], ?_, ?_⟩
      · rw [List.mem_append, List.mem_singleton]
        exact not_or.mpr ⟨hp, Ne.symm hprobe⟩
      · rw [kputsColor_append _ hp, Console.kputsColor, if_pos hprobe]
        rfl

/-- The last step has done what the whole call does. -/
theorem Stage.ends (h : c.Stage st₀ pc st) (hw : c.work pc st = .ok (none, st')) :
    printkColor c.inputStr.cells c.back c.fore c.va st₀ = .ok st' := by
  cases worked_of_work hw with
  | nul rest =>
      obtain ⟨f, p, hf, htext, hp, rfl⟩ := h
      rw [printkColor, hf, ok_bind, ← htext, kputsColor_append _ hp, Console.kputsColor,
        if_neg (not_not.mpr rfl)]
  | behind =>
      obtain ⟨f, p, hf, htext, hp, rfl⟩ := h
      rw [printkColor, hf, ok_bind, ← htext, kputsColor_append _ hp, Console.kputsColor]

/-- A text that fits is written without a fault. -/
theorem Stage.defined (h : c.Stage st₀ pc st) (hfits : c.Fits) : ∃ r, c.work pc st = .ok r := by
  obtain ⟨f, hf, -⟩ := (format_ends c.inputStr c.va st₀).1 hfits
  cases pc with
  | copying =>
      rw [format] at hf
      cases hcopy : strcpy (Vector.replicate 100 0) 0 c.inputStr.cells with
      | error e =>
          rw [hcopy, error_bind] at hf
          cases hf
      | ok outputStr => exact ⟨_, by rw [work, hcopy, ok_bind]⟩
  | expanding k outputStr offset ptr =>
      obtain ⟨-, hloop⟩ := h
      rw [hf] at hloop
      cases k with
      | zero => cases hloop
      | succ k =>
          rw [Formatting.loop] at hloop
          dsimp only at hloop
          rw [work]
          cases hi : index offset with
          | error e =>
              rw [hi, error_bind] at hloop
              cases hloop
          | ok i =>
              rw [hi, ok_bind] at hloop
              rw [ok_bind]
              cases hread : read outputStr.toList i with
              | error e =>
                  rw [hread, error_bind] at hloop
                  cases hloop
              | ok char =>
                  rw [hread, ok_bind] at hloop
                  rw [ok_bind]
                  split_ifs at hloop ⊢ with hchar
                  · cases hbody : Formatting.body c.va i char
                        ⟨outputStr, offset, ptr, st.m, st.staticHexstr⟩ with
                    | error e =>
                        rw [hbody, error_bind] at hloop
                        cases hloop
                    | ok g => exact ⟨_, by rw [ok_bind]⟩
                  · exact ⟨_, rfl⟩
  | writing probe =>
      cases probe with
      | nil => exact ⟨_, rfl⟩
      | cons probe rest =>
          rw [work]
          split_ifs
          · exact ⟨_, rfl⟩
          · exact ⟨_, rfl⟩

theorem code_work {r : Option PrintPc × PrintState} :
    code.work c pc st = some r ↔ c.work pc st = .ok r := by
  show (c.work pc st).toOption = some r ↔ c.work pc st = .ok r
  generalize c.work pc st = result
  cases result with
  | error e => exact ⟨fun h => (nomatch h), fun h => (nomatch h)⟩
  | ok r' =>
      show some r' = some r ↔ _
      rw [Option.some.injEq, Except.ok.injEq]

theorem stage_of_alone (h : code.Alone c st₀ pc st) : c.Stage st₀ pc st := by
  induction h with
  | start => exact rfl
  | work before hw ih => exact ih.step (code_work.mp hw)

theorem Whole.eq (h : code.Whole c st₀ st) :
    printkColor c.inputStr.cells c.back c.fore c.va st₀ = .ok st := by
  obtain ⟨pc, u, halone, hw⟩ := h
  exact (stage_of_alone halone).ends (code_work.mp hw)

theorem text_append {p : List UInt8} (hp : 0 ∉ p) (s : List UInt8) :
    CharArray.text (p ++ s) = p ++ CharArray.text s :=
  List.takeWhile_append_of_pos fun _ ha => decide_eq_true fun e => hp (e ▸ ha)

/-- Whole calls write their texts one after the other. -/
theorem sequence_shows {cs : List PrintCall} (h : code.Sequence st₀ cs st)
    (hfits : ∀ c ∈ cs, c.Fits) (ht : st₀.console.Shows t) :
    st.console.Shows (cs.foldl onTerminal t) := by
  induction h with
  | nil => exact ht
  | snoc before last ih =>
      rename_i is i u v
      obtain ⟨st', hrun, hshows⟩ := printkColor_shows i.inputStr i.back i.fore i.va u
        (ih fun c hc => hfits c (List.mem_append_left _ hc)) (hfits i (by simp))
      obtain rfl := Except.ok.inj (hrun.symm.trans (Whole.eq last))
      rw [List.foldl_append]
      exact hshows

/-- In the middle of a call a first part of its text is written. -/
theorem alone_shows (h : code.Alone c st₀ pc st) (hfits : c.Fits) (ht : st₀.console.Shows t) :
    ∃ p, p <+: c.text ∧ st.console.Shows (t.puts p c.back c.fore) := by
  have hstage := stage_of_alone h
  cases pc with
  | copying =>
      obtain rfl := hstage
      exact ⟨[], List.nil_prefix, ht⟩
  | expanding k outputStr offset ptr =>
      refine ⟨[], List.nil_prefix, ?_⟩
      rw [hstage.1]
      exact ht
  | writing probe =>
      obtain ⟨f, p, hf, htext, hp, rfl⟩ := hstage
      obtain ⟨f', hf', hspells⟩ := (format_ends c.inputStr c.va st₀).1 hfits
      obtain rfl := Except.ok.inj (hf.symm.trans hf')
      have hpre : c.text = p ++ CharArray.text probe := by
        rw [text, ← hspells.text_eq, ← htext, text_append hp]
      have hself : CharArray.text p = p := by
        rw [← List.append_nil p, text_append hp, List.append_nil]
        exact List.append_nil p
      refine ⟨p, ⟨_, hpre.symm⟩, ?_⟩
      have hshows := ht.kputsColor p c.back c.fore
      rwa [hself] at hshows

end PrintCall

end BHOS
