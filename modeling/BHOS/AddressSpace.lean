import BHOS.Scheduler
import BHOS.VmmSteps

/-! # The address space of the running thread

A user task has a page directory of its own, which lies in the kernel half of the address space
and shares the kernel half with the kernel's directory (`UserPdt`, the directory that
`create_user_task_pdt` builds).  `schedule` loads the address space of the thread it switches to
with `active_task`.  `exit` does not: it leaves the directory of the exiting thread loaded, which
is wrong exactly when the next thread of the ring is a user task. -/

namespace BHOS

open Linked Transition

/-- The addresses above the user half that a directory does not use to map itself. -/
def KernHalf (v : UInt32) : Prop := 768 ≤ v.toNat / 2 ^ 22 ∧ v.toNat / 2 ^ 22 < 1023

/-- The directory maps itself, and the kernel half as the directory `kern` does. -/
structure SharesKernel (m : PhysMem) (kern dir : UInt32) : Prop where
  selfMapped : SelfMapped m dir
  shared : ∀ v, KernHalf v → m (dirEntry dir v) = m (dirEntry kern v)

/-- The directory of a user task, in the kernel page `v`. -/
structure UserPdt (m : PhysMem) (kern v dir : UInt32) : Prop where
  kernHalf : KernHalf v
  aligned : v.toNat % 4096 = 0
  present : Present (m (dirEntry kern v))
  paddr : frame (m (tableEntry (m (dirEntry kern v)) v)) = dir
  own : dir ≠ kern
  shares : SharesKernel m kern dir

variable {m : PhysMem} {kern v dir c : UInt32}

theorem SharesKernel.refl (h : SelfMapped m kern) : SharesKernel m kern kern :=
  ⟨h, fun _ _ => rfl⟩

/-- Every directory that shares the kernel half translates the address of a user directory. -/
theorem UserPdt.vmmV2p_eq (h : UserPdt m kern v dir) (hc : SharesKernel m kern c) :
    vmmV2p m c v = some dir := by
  have e := hc.shared v h.kernHalf
  have h0 : (0x00000FFF &&& v) = 0 := by
    rw [UInt32.and_comm, Words.and_offset_of_aligned h.aligned]
  rw [hc.selfMapped.vmmV2p_eq (by rw [e]; exact h.present), e, h.paddr, h0]
  simp

theorem UserPdt.ne_error (h : UserPdt m kern v dir) : dir ≠ v2pError := by
  intro e
  have hd := congrArg UInt32.toNat (h.paddr.trans e)
  have herr : v2pError.toNat = 0xFFFFFFFF := rfl
  rw [frame_toNat, herr] at hd
  omega

namespace Threads

variable {s t : Threads} {A : Sched UInt32} {main : UInt32} {op : ThreadOp}

/-- The address space of the current thread is loaded. -/
def SpaceLoaded (s : Threads) : Prop :=
  ((s.tcb s.curTcb).isKernThread = true → s.cr3 = s.kernDirTablePaddr) ∧
    ((s.tcb s.curTcb).isKernThread = false →
      vmmV2p s.mem s.cr3 (s.tcb s.curTcb).pdtVaddr = some s.cr3 ∧
        s.esp0 = s.curTcb + (s.tcb s.curTcb).pageCounte * pageSize)

/-- New threads get fresh control blocks, and user tasks a directory that shares the kernel half;
only kernel threads exit. -/
def SpaceAllowed : ThreadOp → Threads → Prop
  | .createThread _ addr _ isKernThread _ pdtVaddr, s => addr ≠ 0 ∧ ¬ s.InRing addr ∧
      (isKernThread = false → ∃ dir, UserPdt s.mem s.kernDirTablePaddr pdtVaddr dir)
  | .exit, s => (s.tcb s.curTcb).isKernThread = true
  | _, _ => True

/-- The operation ends with the address space of the current thread loaded. -/
def KeepsSpace (op : ThreadOp) (s : Threads) : Prop := ∃ t, step op s = some t ∧ t.SpaceLoaded

/-- A thread that exits is followed by a kernel thread. -/
def ExitsToKernel (op : ThreadOp) (s : Threads) : Prop :=
  op = .exit → (s.tcb (s.tcb s.curTcb).next).isKernThread = true

/-- The control blocks represent a round robin, the directories of the user tasks share the
kernel half, and the address space of the current thread is loaded. -/
structure Spaces (main : UInt32) (s : Threads) (A : Sched UInt32) : Prop where
  rep : Represents main s A
  tasks : ∀ a ∈ A.threads, (s.tcb a).isKernThread = false →
    ∃ dir, UserPdt s.mem s.kernDirTablePaddr (s.tcb a).pdtVaddr dir
  kern : SelfMapped s.mem s.kernDirTablePaddr
  shares : SharesKernel s.mem s.kernDirTablePaddr s.cr3
  loaded : s.SpaceLoaded

/-- What was loaded is the address space of the thread. -/
theorem Spaces.of_loads (h : Spaces main s A) {B : Sched UInt32} (hB : Represents main t B)
    (hmem : ∀ a ∈ B.threads, a ∈ A.threads) (hk : Keeps s t) (hl : Loads s t.curTcb t) :
    Spaces main t B := by
  have hcur : t.curTcb ∈ A.threads := hmem _ (hB.cur ▸ List.mem_cons_self)
  have htasks : ∀ a ∈ B.threads, (t.tcb a).isKernThread = false →
      ∃ dir, UserPdt t.mem t.kernDirTablePaddr (t.tcb a).pdtVaddr dir := by
    intro a ha hu
    rw [hk.mem, hk.kernDir, hk.pdtVaddr]
    exact h.tasks a (hmem a ha) (by rw [← hk.isKernThread, hu])
  have hself : SelfMapped t.mem t.kernDirTablePaddr := by
    rw [hk.mem, hk.kernDir]
    exact h.kern
  rcases hl with ⟨hk', hcr3, -⟩ | ⟨hu, p, hp, -, hcr3, hesp0⟩
  · have e : t.cr3 = t.kernDirTablePaddr := by rw [hcr3, hk.kernDir]
    refine ⟨hB, htasks, hself, ?_, fun _ => e, ?_⟩
    · rw [e]
      exact SharesKernel.refl hself
    · intro hu
      rw [hk.isKernThread, hk'] at hu
      cases hu
  · obtain ⟨dir, hdir⟩ := h.tasks _ hcur hu
    obtain rfl := Option.some.inj ((hdir.vmmV2p_eq h.shares).symm.trans hp)
    refine ⟨hB, htasks, hself, ?_, ?_, fun _ => ⟨?_, ?_⟩⟩
    · rw [hk.mem, hk.kernDir, hcr3]
      exact hdir.shares
    · intro hk'
      rw [hk.isKernThread, hu] at hk'
      cases hk'
    · rw [hk.mem, hk.pdtVaddr, hcr3]
      exact hdir.vmmV2p_eq hdir.shares
    · rw [hesp0, hk.pageCounte]

/-- The same current thread with the same address space. -/
theorem Spaces.of_same (h : Spaces main s A) {B : Sched UInt32} (hB : Represents main t B)
    (hmem : ∀ a ∈ B.threads, a ∈ A.threads) (hk : Keeps s t) (hcur : t.curTcb = s.curTcb)
    (hcr3 : t.cr3 = s.cr3) (hesp0 : t.esp0 = s.esp0) : Spaces main t B := by
  refine ⟨hB, ?_, ?_, ?_, ?_⟩
  · intro a ha hu
    rw [hk.mem, hk.kernDir, hk.pdtVaddr]
    exact h.tasks a (hmem a ha) (by rw [← hk.isKernThread, hu])
  · rw [hk.mem, hk.kernDir]
    exact h.kern
  · rw [hk.mem, hk.kernDir, hcr3]
    exact h.shares
  · simp only [SpaceLoaded, hk.isKernThread, hk.pdtVaddr, hk.pageCounte, hcur, hcr3, hesp0, hk.mem, hk.kernDir]
    exact h.loaded

/-- The address space of every other thread can be loaded. -/
theorem Spaces.loadable (h : Spaces main s A) : ∀ b ∈ A.rest, (s.tcb b).isKernThread = true ∨
    ∃ p, vmmV2p s.mem s.cr3 (s.tcb b).pdtVaddr = some p ∧ p ≠ v2pError := by
  intro b hb
  cases hk : (s.tcb b).isKernThread with
  | true => exact Or.inl rfl
  | false =>
      obtain ⟨dir, hdir⟩ := h.tasks b (List.mem_cons_of_mem _ hb) hk
      exact Or.inr ⟨dir, hdir.vmmV2p_eq h.shares, hdir.ne_error⟩

/-- `schedule` ends with the address space of the current thread loaded. -/
theorem Spaces.schedule (h : Spaces main s A) :
    ∃ r, s.schedule = some r ∧ Spaces main r.2 A.schedule.2 := by
  obtain ⟨⟨switch, t⟩, ht⟩ := h.rep.round.schedule_defined h.loadable
  obtain ⟨-, hrep, hk, hstay, hload⟩ := h.rep.schedule_spec ht
  refine ⟨_, ht, ?_⟩
  by_cases hsw : switch = .switched
  · exact h.of_loads hrep (fun a => Sched.mem_schedule.mp) hk (hload hsw)
  · obtain ⟨hcur, hcr3, hesp0⟩ := hstay hsw
    exact h.of_same hrep (fun a => Sched.mem_schedule.mp) hk hcur hcr3 hesp0

theorem Spaces.with_cpu (h : Spaces main s A) (c : Context) : Spaces main { s with cpu := c } A :=
  ⟨h.rep.with_cpu c, h.tasks, h.kern, h.shares, h.loaded⟩

theorem Spaces.threadBlock (h : Spaces main s A) :
    ∃ r, s.threadBlock = some r ∧ ∃ B, Spaces main r.2.2 B := by
  obtain ⟨hrep, hk, hcur, hcr3, hesp0⟩ := h.rep.blocking
  obtain ⟨⟨switch, t⟩, ht, hspaces⟩ :=
    (h.of_same hrep (fun _ ha => ha) hk hcur hcr3 hesp0).schedule
  rw [threadBlock_eq, ht]
  refine ⟨_, rfl, (A.setStatus A.cur .blocked).schedule.2, ?_⟩
  by_cases hsw : switch = .switched
  · simp only [if_pos hsw]
    exact hspaces
  · obtain ⟨c, hc⟩ := t.stiCondition_eq s.getIntFlag
    simp only [if_neg hsw, hc]
    exact hspaces.with_cpu c

theorem Spaces.createThread (h : Spaces main s A) {tid addr pageCounte pdtVaddr : UInt32}
    {isKernThread : Bool} {userVmmPool : Bitmap} (h0 : addr ≠ 0)
    (hfresh : addr ∉ A.threads) (hpdt : isKernThread = false →
      ∃ dir, UserPdt s.mem s.kernDirTablePaddr pdtVaddr dir) :
    Spaces main (s.createThread tid addr pageCounte isKernThread userVmmPool pdtVaddr)
      (A.createThread addr) := by
  obtain ⟨t, ht, hrep, hnew, hcore, hmem, hkern, hcr3, hesp0⟩ := h.rep.createThread_spec
    tid pageCounte pdtVaddr isKernThread userVmmPool hfresh h0
  rw [ht]
  have hcur : t.curTcb = s.curTcb := hrep.cur.trans h.rep.cur.symm
  have hne : s.curTcb ≠ addr := fun e => hfresh (by
    rw [← e, h.rep.cur]
    exact List.mem_cons_self)
  refine ⟨hrep, ?_, ?_, ?_, ?_⟩
  · intro a ha hu
    rw [hmem, hkern]
    by_cases hadr : a = addr
    · subst hadr
      rw [hnew, newTcb] at hu ⊢
      simp only at hu ⊢
      rw [hu, if_neg Bool.false_ne_true]
      exact hpdt hu
    · have hk : (t.tcb a).isKernThread = (s.tcb a).isKernThread :=
        congrArg (fun c => c.2.2.2.1) (hcore a hadr)
      have hp : (t.tcb a).pdtVaddr = (s.tcb a).pdtVaddr :=
        congrArg (fun c => c.2.2.2.2.2.1) (hcore a hadr)
      have hold : a ∈ A.threads := (Sched.mem_createThread.mp ha).resolve_left hadr
      rw [hp]
      exact h.tasks a hold (hk.symm.trans hu)
  · rw [hmem, hkern]
    exact h.kern
  · rw [hmem, hkern, hcr3]
    exact h.shares
  · have hk : (t.tcb s.curTcb).isKernThread = (s.tcb s.curTcb).isKernThread :=
      congrArg (fun c => c.2.2.2.1) (hcore _ hne)
    have hp : (t.tcb s.curTcb).pdtVaddr = (s.tcb s.curTcb).pdtVaddr :=
      congrArg (fun c => c.2.2.2.2.2.1) (hcore _ hne)
    have hg : (t.tcb s.curTcb).pageCounte = (s.tcb s.curTcb).pageCounte :=
      congrArg (fun c => c.2.1) (hcore _ hne)
    simp only [SpaceLoaded, hcur, hk, hp, hg, hcr3, hesp0, hmem, hkern]
    exact h.loaded

/-- Every operation but `exit` keeps the address space of the current thread loaded. -/
theorem Spaces.step (h : Spaces main s A) (ha : SpaceAllowed op s) (hop : op ≠ .exit) :
    ∃ t, step op s = some t ∧ ∃ B, Spaces main t B := by
  cases op with
  | createThread tid addr pageCounte isKernThread userVmmPool pdtVaddr =>
      obtain ⟨h0, hfresh, hpdt⟩ := ha
      rw [h.rep.inRing_iff] at hfresh
      exact ⟨_, rfl, _, h.createThread h0 hfresh hpdt⟩
  | schedule =>
      obtain ⟨r, hr, hs⟩ := h.schedule
      exact ⟨r.2, by rw [Threads.step, hr]; rfl, _, hs⟩
  | threadBlock =>
      obtain ⟨r, hr, hs⟩ := h.threadBlock
      exact ⟨r.2.2, by rw [Threads.step, hr]; rfl, hs⟩
  | endBlock condition =>
      obtain ⟨c, hc⟩ := s.stiCondition_eq condition
      exact ⟨_, rfl, A, hc ▸ h.with_cpu c⟩
  | threadWakeup targetThread =>
      obtain ⟨hrep, hk, hcur, hcr3, hesp0⟩ := h.rep.threadWakeup_spec targetThread
      exact ⟨_, rfl, _, h.of_same hrep (fun _ ha => ha) hk hcur hcr3 hesp0⟩
  | exit => exact absurd rfl hop

/-- After `exit` by a kernel thread the kernel directory is loaded. -/
theorem Spaces.exit (h : Spaces main s A) (ha : (s.tcb s.curTcb).isKernThread = true) :
    ∃ t, s.exit = some t ∧
      ((s.tcb (s.tcb s.curTcb).next).isKernThread = true → ∃ B, Spaces main t B) ∧
      (t.SpaceLoaded → (s.tcb (s.tcb s.curTcb).next).isKernThread = true) := by
  obtain ⟨t, ht, hrep, hk, hcur, hcr3, hesp0⟩ := h.rep.exit_spec
  have hkern := h.loaded.1 ha
  refine ⟨t, ht, fun hnext => ⟨_, h.of_loads hrep (fun a => Sched.mem_of_exit) hk ?_⟩, ?_⟩
  · rw [hcur]
    exact Or.inl ⟨hnext, hcr3.trans hkern, hesp0⟩
  · intro hload
    rw [← hcur, ← hk.isKernThread]
    by_contra hu
    rw [Bool.not_eq_true] at hu
    have hmem : t.curTcb ∈ A.threads := by
      rw [hrep.cur]
      exact Sched.mem_of_exit List.mem_cons_self
    obtain ⟨dir, hdir⟩ := h.tasks _ hmem (by rw [← hk.isKernThread, hu])
    have hpaddr := (hload.2 hu).1
    rw [hk.pdtVaddr, hk.mem, hcr3, hdir.vmmV2p_eq h.shares, hkern, Option.some.injEq] at hpaddr
    exact hdir.own hpaddr

theorem spaces_threadsInit {s₀ : Threads} (h0 : main ≠ 0)
    (hself : SelfMapped s₀.mem s₀.kernDirTablePaddr) (hcr3 : s₀.cr3 = s₀.kernDirTablePaddr) :
    Spaces main (s₀.threadsInit main) ⟨main, [], Function.update s₀.status main .running⟩ := by
  have hmain : ((s₀.threadsInit main).tcb main).isKernThread = true := by simp [threadsInit]
  refine ⟨represents_threadsInit s₀ h0, ?_, hself, ?_, fun _ => hcr3, ?_⟩
  · intro a hmem hu
    obtain rfl := List.mem_singleton.mp hmem
    rw [hmain] at hu
    cases hu
  · have e : (s₀.threadsInit main).cr3 = (s₀.threadsInit main).kernDirTablePaddr := hcr3
    rw [e]
    exact SharesKernel.refl hself
  · intro hu
    exact absurd (hmain.symm.trans hu) (by simp)

/-- **The address space follows the running thread** exactly in the runs in which every kernel
thread that exits is followed by a kernel thread. -/
theorem keepsSpace_iff_exitsToKernel (s₀ : Threads) (main : UInt32) (h0 : main ≠ 0)
    (hself : SelfMapped s₀.mem s₀.kernDirTablePaddr) (hcr3 : s₀.cr3 = s₀.kernDirTablePaddr)
    (ops : List ThreadOp) (ha : Along step SpaceAllowed ops (s₀.threadsInit main)) :
    (Along step KeepsSpace ops (s₀.threadsInit main) ↔
      Along step ExitsToKernel ops (s₀.threadsInit main)) ∧
    (Along step ExitsToKernel ops (s₀.threadsInit main) →
      ∃ t, run step ops (s₀.threadsInit main) = some t ∧ t.SpaceLoaded) := by
  have hinit : ∃ A, Spaces main (s₀.threadsInit main) A := ⟨_, spaces_threadsInit h0 hself hcr3⟩
  have hstep : ∀ op s, (∃ A, Spaces main s A) → SpaceAllowed op s → ExitsToKernel op s →
      ∃ t, step op s = some t ∧ ∃ B, Spaces main t B := fun op s ⟨A, hs⟩ ha hex => by
    by_cases hop : op = .exit
    · subst hop
      obtain ⟨t, ht, hspaces, -⟩ := hs.exit ha
      exact ⟨t, ht, hspaces (hex rfl)⟩
    · exact hs.step ha hop
  have hI : ∀ op s t, (∃ A, Spaces main s A) → SpaceAllowed op s → ExitsToKernel op s →
      step op s = some t → ∃ B, Spaces main t B := by
    intro op s t hs ha hex ht
    obtain ⟨t', ht', hB⟩ := hstep op s hs ha hex
    exact Option.some.inj (ht'.symm.trans ht) ▸ hB
  refine ⟨along_iff hI (fun op s hs ha => ⟨?_, ?_⟩) hinit ha, ?_⟩
  · rintro ⟨t, ht, hload⟩ rfl
    obtain ⟨A, hA⟩ := hs
    obtain ⟨t', ht', -, hnext⟩ := hA.exit ha
    obtain rfl := Option.some.inj (ht.symm.trans ht')
    exact hnext hload
  · intro hex
    obtain ⟨t, ht, B, hB⟩ := hstep op s hs ha hex
    exact ⟨t, ht, hB.loaded⟩
  · intro hex
    have hI' : ∀ op s t, (∃ A, Spaces main s A) → (SpaceAllowed op s ∧ ExitsToKernel op s) →
        step op s = some t → ∃ B, Spaces main t B := fun op s t hs hq ht => hI op s t hs hq.1 hq.2 ht
    obtain ⟨t, ht⟩ := run_isSome hI' (fun op s hs hq => by
      obtain ⟨t, ht, -⟩ := hstep op s hs hq.1 hq.2
      exact ⟨t, ht⟩) hinit (ha.and hex)
    obtain ⟨B, hB⟩ := invariant hI' hinit (ha.and hex) ht
    exact ⟨t, ht, hB.loaded⟩

/-- The page tables after boot, with a user directory in the page at `0xC0300000`: the user half
is clear, the kernel half copied, and the last entry maps the directory itself. -/
def userMem : PhysMem := fun a =>
  if 0x300000 ≤ a.toNat ∧ a.toNat < 0x301000 then
    if a.toNat < 0x300C00 then 0
    else if a.toNat < 0x300FFC then setPage 0x101000 (fun _ => 0) (a - 0x300000 + 0x101000)
    else 0x300103
  else setPage 0x101000 (fun _ => 0) a

theorem userMem_of_outside {a : UInt32} (h : ¬ (0x300000 ≤ a.toNat ∧ a.toNat < 0x301000)) :
    userMem a = setPage 0x101000 (fun _ => 0) a := by rw [userMem, if_neg h]

theorem userMem_tables : KernTables userMem 0x101000 := by
  obtain ⟨h, -⟩ := setPage_tables 0x101000 (fun _ => 0) (by decide) (by decide)
  have hout : ∀ i ≤ 255, userMem (0x101000 + UInt32.ofNat i * 4 + 0xc00) =
      setPage 0x101000 (fun _ => 0) (0x101000 + UInt32.ofNat i * 4 + 0xc00) := by
    intro i hi
    apply userMem_of_outside
    rw [pdeAddr_toNat (by decide) hi]
    simp only [UInt32.reduceToNat]
    omega
  refine ⟨h.aligned, h.room, ?_, ?_⟩
  · intro i hi
    rw [hout i (by omega)]
    exact h.pde i hi
  · rw [hout 255 le_rfl]
    exact h.self

theorem userPdt_userMem : UserPdt userMem 0x101000 0xC0300000 0x300000 := by
  have htab := userMem_tables
  have hpage : Vmm.kernPage? 0xC0300000 = some 768 :=
    Vmm.kernPage_eq_some.mpr ⟨by decide, by decide⟩
  obtain ⟨hpres, hentry⟩ := htab.tableEntry_eq hpage (by decide)
  have hslot : (slot 0x101000 768).toNat = 0x101000 + 4096 + 4 * 768 := htab.slot_toNat 768
  have hframe : frame (userMem (slot 0x101000 768)) = 0x300000 := by
    rw [userMem_of_outside (by rw [hslot]; decide), ← UInt32.toNat_inj, frame_toNat]
    have hpte := (setPage_tables 0x101000 (fun _ => 0) (by decide) (by decide)).2 768 (by decide)
    have e : 0x101000 + 4096 + UInt32.ofNat 768 * 4 = slot 0x101000 768 := by decide
    rw [← e, hpte]
    rfl
  have hself : userMem (dirEntry 0x300000 0xFFFFF000) = 0x300103 := by
    have e : dirEntry 0x300000 0xFFFFF000 = 0x300FFC := by decide
    rw [e]
    decide
  refine ⟨⟨by decide, by decide⟩, by decide, hpres, hentry ▸ hframe, by decide, ⟨?_, ?_⟩,
    fun w hw => ?_⟩
  · rw [hself]
    decide
  · rw [hself]
    decide
  · have hd : (dirEntry 0x300000 w).toNat = 0x300000 + w.toNat / 2 ^ 22 * 4 := dirEntry_toNat _ w
    have hk : (dirEntry 0x101000 w).toNat = 0x101000 + w.toNat / 2 ^ 22 * 4 := dirEntry_toNat _ w
    obtain ⟨hlo, hhi⟩ := hw
    have e : dirEntry 0x300000 w - 0x300000 + 0x101000 = dirEntry 0x101000 w := by
      rw [← UInt32.toNat_inj, hk]
      simp only [UInt32.toNat_add, UInt32.toNat_sub, hd, UInt32.reduceToNat]
      omega
    rw [userMem_of_outside (a := dirEntry 0x101000 w) (by omega), userMem, if_pos (by omega), if_neg (by omega),
      if_pos (by omega), e]

/-- The main thread creates a kernel thread and a user task. -/
def taskNextToThread : List ThreadOp :=
  [.createThread 2 0xC0401000 1 false ⟨0xC0410000, 0x18000, 0⟩ 0xC0300000,
    .createThread 1 0xC0400000 1 true ⟨0, 0, 0⟩ 0]

/-- The machine whose page tables are `userMem`. -/
def userMachine : Threads := { zero with mem := userMem }

theorem spaceAllowed_taskNextToThread :
    Along step SpaceAllowed taskNextToThread (userMachine.threadsInit 0xC0110000) := by
  have hinit := represents_threadsInit userMachine (show (0xC0110000 : UInt32) ≠ 0 by decide)
  obtain ⟨t, ht, hrep, -⟩ := hinit.createThread_spec 2 1 0xC0300000 false
    ⟨0xC0410000, 0x18000, 0⟩ (by decide) (show (0xC0401000 : UInt32) ≠ 0 by decide)
  refine (along_cons_of_step (t := t) (congrArg some ht)).mpr ⟨⟨by decide, ?_, fun _ => ?_⟩,
    ⟨by decide, ?_, nofun⟩, fun _ _ => trivial⟩
  · rw [hinit.inRing_iff]
    decide
  · exact ⟨0x300000, userPdt_userMem⟩
  · rw [hrep.inRing_iff]
    decide

theorem keepsSpace_iff_exitsToKernel_sample : ∃ t,
    run step (taskNextToThread ++ [.schedule, .schedule]) (userMachine.threadsInit 0xC0110000) =
      some t ∧ t.SpaceLoaded := by
  obtain ⟨u, hu⟩ : ∃ u, run step taskNextToThread (userMachine.threadsInit 0xC0110000) = some u :=
    ⟨_, rfl⟩
  have ha : Along step SpaceAllowed (taskNextToThread ++ [.schedule, .schedule])
      (userMachine.threadsInit 0xC0110000) :=
    (along_append hu).mpr ⟨spaceAllowed_taskNextToThread, trivial, fun _ _ =>
      ⟨trivial, fun _ _ => trivial⟩⟩
  obtain ⟨-, h⟩ := keepsSpace_iff_exitsToKernel userMachine 0xC0110000 (by decide)
    userMem_tables.selfMapped rfl _ ha
  refine h (along_of_forall ?_)
  intro op hop s
  rintro rfl
  simp [taskNextToThread] at hop

/-- The kernel thread exits, and the user task behind it runs with the kernel directory. -/
theorem not_keepsSpace_sample :
    Along step SpaceAllowed (taskNextToThread ++ [.schedule, .exit])
        (userMachine.threadsInit 0xC0110000) ∧
      ¬ Along step KeepsSpace (taskNextToThread ++ [.schedule, .exit])
        (userMachine.threadsInit 0xC0110000) := by
  obtain ⟨u, hu⟩ : ∃ u, run step taskNextToThread (userMachine.threadsInit 0xC0110000) = some u :=
    ⟨_, rfl⟩
  have hsched : (step .schedule u).map (fun t => ((t.tcb t.curTcb).isKernThread,
      (t.tcb (t.tcb t.curTcb).next).isKernThread)) = some (true, false) := by
    obtain rfl := Option.some.inj hu
    decide +kernel
  obtain ⟨t, ht, h⟩ := Option.map_eq_some_iff.mp hsched
  obtain ⟨hcur, hnext⟩ := Prod.mk.inj h
  have hrun : run step (taskNextToThread ++ [.schedule]) (userMachine.threadsInit 0xC0110000) =
      some t := by
    rw [run_append, hu, Option.bind_some, run_cons, ht]
    rfl
  have hspaces : ∃ A, Spaces 0xC0110000 t A := by
    have hquiet : Along step (fun op s => SpaceAllowed op s ∧ op ≠ .exit)
        (taskNextToThread ++ [.schedule]) (userMachine.threadsInit 0xC0110000) := by
      refine Along.and ((along_append hu).mpr ⟨spaceAllowed_taskNextToThread, trivial, fun _ _ =>
        trivial⟩) (along_of_forall ?_)
      intro op hop s
      rintro rfl
      simp [taskNextToThread] at hop
    refine invariant (I := fun s => ∃ A, Spaces 0xC0110000 s A) (fun op s t ⟨A, hs⟩ hq ht => ?_)
      ⟨_, spaces_threadsInit (by decide) userMem_tables.selfMapped rfl⟩ hquiet hrun
    obtain ⟨t', ht', hB⟩ := hs.step hq.1 hq.2
    exact Option.some.inj (ht'.symm.trans ht) ▸ hB
  refine ⟨(along_append hu).mpr ⟨spaceAllowed_taskNextToThread,
    (along_cons_of_step ht).mpr ⟨trivial, hcur, fun _ _ => trivial⟩⟩, ?_⟩
  intro hk
  obtain ⟨A, hA⟩ := hspaces
  obtain ⟨v, hv, hload⟩ := ((along_cons_of_step ht).mp ((along_append hu).mp hk).2).2.1
  obtain ⟨v', hv', -, hkern⟩ := hA.exit hcur
  obtain rfl := Option.some.inj (hv.symm.trans hv')
  rw [hkern hload] at hnext
  cases hnext

end Threads
end BHOS
