import Lestra.Sched.Lifecycle
import Lestra.Sched.Table
import Mathlib.Logic.Relation

/-!
# Steps of the process table

One operation type for everything that changes the table, and for each operation
what it can do to it:

* `Spawned` — `proc_create` and `proc_fork` fill one free slot
* `Settled` — all but creation, exit and `setuid` reschedule and collect zombies
* `Buried` — what `proc_exit` does before it schedules
-/

namespace Lestra

/-- The operations on processes, with what they get from the rest of the kernel. -/
inductive ProcOp where
  | create (name : List UInt8) (elf : ElfLoad) (kstack : Nat)
  | fork (kstack : Nat) (regs : CpuState)
  | exit (status : Int)
  | block
  | unblock (task : Fin maxProcs)
  | unblockPid (pid : Int)
  | kill (pid sig : Int)
  | sleep (now ms : BitVec 64)
  | sleepResume (now : BitVec 64)
  | wakeups (now : BitVec 64)
  | tick (now : BitVec 64)
  | schedule
  | wait (pid : Int)
  | waitBlocking (pid : Int)
  | waitpid (pid status : BitVec 64) (options : BitVec 32)
  | setuid (uid : BitVec 32)

namespace Kernel

/-- An operation of the scheduler alone. -/
def onSched (k : Kernel) (f : Sched → Sched) : Kernel := { k with sched := f k.sched }

def step (k : Kernel) : ProcOp → Kernel
  | .create name elf kstack => (procCreate k name elf kstack).1
  | .fork kstack regs => (procFork k kstack regs).1
  | .exit status => procExit k status
  | .block => k.onSched taskBlock
  | .unblock task => k.onSched fun s => taskUnblock s task
  | .unblockPid pid => k.onSched fun s => taskUnblockPid s pid
  | .kill pid sig => k.onSched fun s => (signalKill s pid sig).1
  | .sleep now ms => k.onSched fun s => taskSleep s now ms
  | .sleepResume now => k.onSched fun s => Lestra.sleepResume s now
  | .wakeups now => k.onSched fun s => schedCheckWakeups s now
  | .tick now => k.onSched fun s => schedTick s now
  | .schedule => k.onSched Lestra.schedule
  | .wait pid => (procWait k pid).1
  | .waitBlocking pid => (procWaitBlocking k pid).1
  | .waitpid pid status options => (sysWaitpid k pid status options).1
  | .setuid uid => (sysSetuid k uid).1

end Kernel

-- ---------------------------------------------------------------------------
-- Creation
-- ---------------------------------------------------------------------------

/-- Slot `c` was free and holds the new process; nothing else changed. -/
structure Spawned (s s' : Sched) (c : Fin maxProcs) : Prop where
  free : (s.procs c).state = .free
  same : ∀ i, i ≠ c → s'.procs i = s.procs i
  pid : (s'.procs c).pid = s.nextPid
  nextPid : s'.nextPid = s.nextPid + 1
  current : s'.current = s.current
  enabled : s'.schedulerEnabled = s.schedulerEnabled
  parentPid : s.current ≠ some c → (s'.procs c).parentPid = procGetpid s
  uid : (s'.procs c).uid = 0
  gid : (s'.procs c).gid = 0

theorem findFreeProc_some {s : Sched} {c : Fin maxProcs} (h : findFreeProc s = some c) :
    (s.procs c).state = .free := by
  simpa using List.find?_some h

theorem findFreeProc_exists {s : Sched} {i : Fin maxProcs} (hi : (s.procs i).state = .free) :
    ∃ c, findFreeProc s = some c := by
  cases hf : findFreeProc s with
  | some c => exact ⟨c, rfl⟩
  | none =>
    have := List.find?_eq_none.mp hf i (List.mem_finRange i)
    simp [hi] at this

/-- Filling the free slot `c` with a process that the initialisation has seen. -/
theorem spawned_modify {s : Sched} {c : Fin maxProcs} {p : Process}
    (hfree : (s.procs c).state = .free) (hpid : p.pid = s.nextPid)
    (hparent : s.current ≠ some c → p.parentPid = procGetpid s) (huid : p.uid = 0)
    (hgid : p.gid = 0) (q : Process) :
    Spawned s (((s.modify c fun _ => q).bumpPid).modify c fun _ => p) c := by
  have hcur : (((s.modify c fun _ => q).bumpPid).modify c fun _ => p).procs c = p :=
    Sched.modify_same _
  refine ⟨hfree, ?_, ?_, rfl, rfl, rfl, ?_, ?_, ?_⟩
  · intro i hi
    rw [Sched.modify_ne _ hi]
    show (s.modify c fun _ => q).procs i = s.procs i
    exact Sched.modify_ne _ hi
  all_goals rw [hcur]
  exacts [hpid, hparent, huid, hgid]

/-- The pid of the current process is not touched by filling another slot. -/
theorem procGetpid_modify {s : Sched} {c : Fin maxProcs} (hc : s.current ≠ some c)
    (f : Process → Process) : procGetpid (s.modify c f) = procGetpid s := by
  unfold procGetpid
  rw [Sched.modify_current]
  cases hcur : s.current with
  | none => rfl
  | some cur =>
    have hne : cur ≠ c := fun h => hc (hcur.trans (congrArg some h))
    exact congrArg Process.pid (Sched.modify_ne f hne)

/-- `proc_fork` fails, leaving the table alone or one more free slot with a used
pid, or fills a free slot with a runnable child. -/
theorem procFork_cases (k : Kernel) (kstack : Nat) (regs : CpuState) :
    (procFork k kstack regs = (k, -1)) ∨
    ∃ c, Spawned k.sched (procFork k kstack regs).1.sched c ∧
      (((procFork k kstack regs).2 = -1 ∧
          ((procFork k kstack regs).1.sched.procs c).state = .free) ∨
        ((procFork k kstack regs).2 = k.sched.nextPid ∧
          ((procFork k kstack regs).1.sched.procs c).state = .runnable)) := by
  unfold procFork
  cases hcur : k.sched.current with
  | none => exact .inl rfl
  | some cur =>
    cases hfind : findFreeProc k.sched with
    | none => exact .inl rfl
    | some c =>
      have hfree := findFreeProc_some hfind
      have hparent : some cur ≠ some c →
          ((k.sched.modify c fun _ => procInitPerProcessState zeroProcess).procs cur).pid =
            procGetpid k.sched := by
        intro hne
        have hne : cur ≠ c := fun h => hne (congrArg some h)
        rw [Sched.modify_ne _ hne, procGetpid, hcur]
      refine .inr ⟨c, ?_⟩
      dsimp only
      split
      · refine ⟨spawned_modify hfree rfl ?_ ?_ ?_ _, .inl ⟨rfl, by simp⟩⟩
        · rwa [hcur]
        · simp [inheritState, procInitPerProcessState]
        · simp [inheritState, procInitPerProcessState]
      · split
        · refine ⟨spawned_modify hfree rfl ?_ ?_ ?_ _, .inl ⟨rfl, by simp⟩⟩
          · rwa [hcur]
          · simp [inheritState, procInitPerProcessState]
          · simp [inheritState, procInitPerProcessState]
        · refine ⟨spawned_modify hfree rfl ?_ ?_ ?_ _, .inr ⟨rfl, by simp [inheritState]⟩⟩
          · rwa [hcur]
          · simp [inheritState, procInitPerProcessState]
          · simp [inheritState, procInitPerProcessState]

/-- With a free slot, a frame for the PML4 and a kernel stack the fork succeeds. -/
theorem procFork_created {k : Kernel} {cur c : Fin maxProcs} {kstack : Nat} {regs : CpuState}
    (hcur : k.sched.current = some cur) (hfind : findFreeProc k.sched = some c) (hne : cur ≠ c)
    (hpml4 : (createUserAddressSpace k.machine k.bootPml4).2 ≠ 0) (hstack : kstack ≠ 0) :
    (procFork k kstack regs).2 = k.sched.nextPid ∧
      Spawned k.sched (procFork k kstack regs).1.sched c ∧
      ((procFork k kstack regs).1.sched.procs c).state = .runnable := by
  unfold procFork
  rw [hcur, hfind]
  dsimp only
  rw [if_neg hpml4, if_neg hstack]
  refine ⟨rfl, spawned_modify (findFreeProc_some hfind) rfl (fun _ => ?_) ?_ ?_ _, by
    simp [inheritState]⟩
  · simp [inheritState, hne, procGetpid, hcur]
  · simp [inheritState, procInitPerProcessState]
  · simp [inheritState, procInitPerProcessState]

/-- The same for `proc_create`. -/
theorem procCreate_cases (k : Kernel) (name : List UInt8) (elf : ElfLoad) (kstack : Nat) :
    (procCreate k name elf kstack = (k, -1)) ∨
    ∃ c, Spawned k.sched (procCreate k name elf kstack).1.sched c ∧
      (((procCreate k name elf kstack).2 = -1 ∧
          ((procCreate k name elf kstack).1.sched.procs c).state = .free) ∨
        ((procCreate k name elf kstack).2 = k.sched.nextPid ∧
          ((procCreate k name elf kstack).1.sched.procs c).state = .runnable)) := by
  unfold procCreate
  cases hfind : findFreeProc k.sched with
  | none => exact .inl rfl
  | some c =>
    have hfree := findFreeProc_some hfind
    have hparent : k.sched.current ≠ some c →
        procGetpid (k.sched.modify c fun _ => procInitPerProcessState zeroProcess) =
          procGetpid k.sched := fun hne => procGetpid_modify hne _
    refine .inr ⟨c, ?_⟩
    dsimp only
    split
    · refine ⟨spawned_modify hfree rfl hparent ?_ ?_ _, .inl ⟨rfl, by simp⟩⟩ <;>
        simp [procInitPerProcessState]
    · split
      · refine ⟨spawned_modify hfree rfl hparent ?_ ?_ _, .inl ⟨rfl, by simp⟩⟩ <;>
          simp [procInitPerProcessState]
      · refine ⟨spawned_modify hfree rfl hparent ?_ ?_ _, .inr ⟨rfl, by simp⟩⟩ <;>
          simp [procInitPerProcessState]

-- ---------------------------------------------------------------------------
-- Exit
-- ---------------------------------------------------------------------------

/-- The parent that `proc_exit` of the process with pid `pid` leaves to `p`. -/
def heirParent (pid : Int) (p : Process) : Int :=
  if p.Live ∧ p.parentPid = pid then 1 else p.parentPid

theorem reparent_eq (s : Sched) (pid : Int) :
    reparent s pid = { s with procs := fun i =>
      { s.procs i with parentPid := heirParent pid (s.procs i) } } := by
  refine Sched.forProcs_map (g := fun p => { p with parentPid := heirParent pid p }) ?_ s
  intro s i
  have hself : ∀ p : Process, p.parentPid = heirParent pid (s.procs i) → p = s.procs i →
      s = s.modify i fun p => { p with parentPid := heirParent pid p } := by
    intro p hp he
    subst he
    have : ({ s.procs i with parentPid := heirParent pid (s.procs i) } : Process) = s.procs i := by
      rw [← hp]
    simp [Sched.modify, this]
  by_cases hdead : (s.procs i).state = .free ∨ (s.procs i).state = .zombie
  · have hlive : ¬ (s.procs i).Live := fun h => hdead.elim h.1 h.2
    simp only [if_pos hdead]
    exact hself _ (by simp [heirParent, hlive]) rfl
  · have hlive : (s.procs i).Live := not_or.mp hdead
    simp only [if_neg hdead]
    by_cases hp : (s.procs i).parentPid = pid
    · simp [hp, Sched.modify, heirParent, hlive]
    · simp only [if_neg hp]
      exact hself _ (by simp [heirParent, hp]) rfl

/-- What `proc_exit` does to the table before it schedules. -/
structure Buried (s s' : Sched) (c : Fin maxProcs) : Prop where
  pid : ∀ i, (s'.procs i).pid = (s.procs i).pid
  uid : ∀ i, (s'.procs i).uid = (s.procs i).uid
  gid : ∀ i, (s'.procs i).gid = (s.procs i).gid
  parentPid : ∀ i, (s'.procs i).parentPid = heirParent (s.procs c).pid (s.procs i)
  zombie : (s'.procs c).state = .zombie
  state : ∀ i, i ≠ c → (s'.procs i).state = (s.procs i).state ∨
    (s.procs i).state = .blocked ∧ (s'.procs i).state = .runnable
  nextPid : s'.nextPid = s.nextPid
  current : s'.current = s.current
  enabled : s'.schedulerEnabled = s.schedulerEnabled
  parent : ∀ i, (s.procs c).state ≠ .free → (s.procs c).parentPid ≠ (s.procs c).pid →
    schedFindByPid s (s.procs c).parentPid = some i → (s.procs i).state = .blocked →
    i ≠ c → (s'.procs i).state = .runnable

theorem buryProcess_buried (s : Sched) (c : Fin maxProcs) (status : Int) :
    Buried s (buryProcess s c status) c := by
  unfold buryProcess wakeParent
  rw [reparent_eq]
  generalize hs₁ : ({ s with procs := fun i => { s.procs i with
    parentPid := heirParent (s.procs c).pid (s.procs i) } } : Sched) = s₁
  have hslot : ∀ i, s₁.procs i = { s.procs i with
      parentPid := heirParent (s.procs c).pid (s.procs i) } := by
    intro i
    rw [← hs₁]
  have hrest : s₁.nextPid = s.nextPid ∧ s₁.current = s.current ∧
      s₁.schedulerEnabled = s.schedulerEnabled := by
    rw [← hs₁]
    exact ⟨rfl, rfl, rfl⟩
  -- SIGCHLD to the parent
  obtain ⟨s₂, hs₂, hw⟩ : ∃ s₂, (if 0 < (s₁.procs c).parentPid then
      (signalKill s₁ (s₁.procs c).parentPid 17).1 else s₁) = s₂ ∧ Woken s₁ s₂ := by
    refine ⟨_, rfl, ?_⟩
    split
    · exact signalKill_woken s₁ _ 17
    · exact .refl s₁
  dsimp only
  rw [hs₂]
  -- the zombie, and the wake of the parent
  generalize hs₃ : (s₂.modify c fun p =>
    { p with needsKstackFree := true, state := .zombie, exitStatus := status }) = s₃
  have hw' := taskUnblockPid_woken s₃ (s₃.procs c).parentPid
  have hne : ∀ i, i ≠ c → s₃.procs i = s₂.procs i := by
    intro i hi
    rw [← hs₃]
    exact Sched.modify_ne _ hi
  have hself : s₃.procs c = { s₂.procs c with
      needsKstackFree := true, state := .zombie, exitStatus := status } := by
    rw [← hs₃]
    exact Sched.modify_same _
  have hid : ∀ i, (s₃.procs i).pid = (s.procs i).pid ∧ (s₃.procs i).uid = (s.procs i).uid ∧
      (s₃.procs i).gid = (s.procs i).gid ∧
      (s₃.procs i).parentPid = heirParent (s.procs c).pid (s.procs i) := by
    intro i
    have ha := hw.alike i
    have h₂ : (s₂.procs i).pid = (s.procs i).pid ∧ (s₂.procs i).uid = (s.procs i).uid ∧
        (s₂.procs i).gid = (s.procs i).gid ∧
        (s₂.procs i).parentPid = heirParent (s.procs c).pid (s.procs i) := by
      rw [ha.pid, ha.uid, ha.gid, ha.parentPid, hslot]
      exact ⟨rfl, rfl, rfl, rfl⟩
    by_cases hi : i = c
    · subst hi
      rw [hself]
      exact h₂
    · rw [hne i hi]
      exact h₂
  have hkeep : s₃.nextPid = s₂.nextPid ∧ s₃.current = s₂.current ∧
      s₃.schedulerEnabled = s₂.schedulerEnabled := by
    rw [← hs₃]
    exact ⟨rfl, rfl, rfl⟩
  have hstate₂ : ∀ i, (s₂.procs i).state = (s.procs i).state ∨
      (s.procs i).state = .blocked ∧ (s₂.procs i).state = .runnable := by
    intro i
    have h₂ := hw.state i
    rwa [hslot] at h₂
  refine ⟨fun i => ?_, fun i => ?_, fun i => ?_, fun i => ?_, ?_, fun i hi => ?_, ?_, ?_, ?_,
    fun i hcf hself' hfind hblocked hi => ?_⟩
  · rw [(hw'.alike i).pid, (hid i).1]
  · rw [(hw'.alike i).uid, (hid i).2.1]
  · rw [(hw'.alike i).gid, (hid i).2.2.1]
  · rw [(hw'.alike i).parentPid, (hid i).2.2.2]
  · rcases hw'.state c with he | ⟨hb, _⟩
    · rw [he, hself]
    · rw [hself] at hb
      cases hb
  · have h₃ := hw'.state i
    rw [hne i hi] at h₃
    have h₂ := hstate₂ i
    rcases h₂ with he | ⟨hb, hr⟩
    · rw [he] at h₃
      exact h₃
    · rcases h₃ with he' | ⟨hb', _⟩
      · exact .inr ⟨hb, he'.trans hr⟩
      · rw [hr] at hb'
        cases hb'
  · rw [hw'.nextPid, hkeep.1, hw.nextPid, hrest.1]
  · rw [hw'.current, hkeep.2.1, hw.current, hrest.2.1]
  · rw [hw'.enabled, hkeep.2.2, hw.enabled, hrest.2.2]
  · -- the search for the parent finds the same slot as before
    have hparent : (s₃.procs c).parentPid = (s.procs c).parentPid := by
      rw [(hid c).2.2.2, heirParent, if_neg (fun h => hself' h.2)]
    have hfind₃ : schedFindByPid s₃ (s₃.procs c).parentPid = some i := by
      rw [hparent, ← hfind]
      refine schedFindByPid_congr (fun j => ⟨?_, (hid j).1⟩) _
      by_cases hj : j = c
      · rw [hj, hself]
        exact iff_of_false (by simp) hcf
      · rw [hne j hj]
        rcases hstate₂ j with he | ⟨hb, hr⟩
        · rw [he]
        · rw [hb, hr]
          decide
    have hstate₃ := hstate₂ i
    rw [← hne i hi, hblocked] at hstate₃
    show ((taskUnblockPid s₃ (s₃.procs c).parentPid).procs i).state = .runnable
    rw [taskUnblockPid, hfind₃]
    dsimp only
    rcases hstate₃ with hb | ⟨_, hr⟩
    · simp [taskUnblock, hb]
    · simp [taskUnblock, hr]

theorem buryProcess_fds (s : Sched) (c : Fin maxProcs) (status : Int) (i : Fin maxProcs) :
    ((buryProcess s c status).procs i).fds = (s.procs i).fds := by
  unfold buryProcess wakeParent
  rw [reparent_eq]
  dsimp only
  rw [((taskUnblockPid_woken _ _).alike i).fds]
  have hmodify : ∀ s' : Sched, ((s'.modify c fun p => { p with
      needsKstackFree := true, state := .zombie, exitStatus := status }).procs i).fds =
      (s'.procs i).fds := fun s' => Sched.modify_field Process.fds (by intro p; rfl) i
  rw [hmodify]
  split
  · rw [((signalKill_woken _ _ 17).alike i).fds]
  · rfl

/-- `proc_exit` buries the current process and schedules; closing its files does
not show in the table. -/
theorem procExit_buried {k : Kernel} {c : Fin maxProcs} (hc : k.sched.current = some c)
    (status : Int) :
    ∃ s, Buried k.sched s c ∧ (procExit k status).sched = schedule s := by
  unfold procExit
  rw [hc]
  dsimp only
  generalize (fdTableCloseAll k.pipes (k.sched.procs c).fds).2 = fds
  have hb := buryProcess_buried (k.sched.modify c fun p => { p with fds := fds }) c status
  refine ⟨_, ?_, rfl⟩
  have hslot : ∀ i, ((k.sched.modify c fun p => { p with fds := fds }).procs i) =
      if i = c then { k.sched.procs c with fds := fds } else k.sched.procs i := by
    intro i
    by_cases hi : i = c
    · subst hi
      simp
    · simp [hi]
  refine ⟨fun i => ?_, fun i => ?_, fun i => ?_, fun i => ?_, hb.zombie, fun i hi => ?_,
    hb.nextPid, hb.current, hb.enabled, fun i hcf hself hfind hblocked hi => ?_⟩
  · rw [hb.pid, hslot]
    split
    case isTrue h => rw [h]
    case isFalse => rfl
  · rw [hb.uid, hslot]
    split
    case isTrue h => rw [h]
    case isFalse => rfl
  · rw [hb.gid, hslot]
    split
    case isTrue h => rw [h]
    case isFalse => rfl
  · rw [hb.parentPid, hslot c, if_pos rfl, hslot i]
    split
    case isTrue h => rw [h]; rfl
    case isFalse => rfl
  · have := hb.state i hi
    rwa [hslot, if_neg hi] at this
  · have hp := hb.parent i
    have hcongr : ∀ pid, schedFindByPid (k.sched.modify c fun p => { p with fds := fds }) pid =
        schedFindByPid k.sched pid := by
      refine schedFindByPid_congr fun j => ?_
      rw [hslot]
      split
      case isTrue h => rw [h]; exact ⟨Iff.rfl, rfl⟩
      case isFalse => exact ⟨Iff.rfl, rfl⟩
    rw [hcongr, hslot c, if_pos rfl, hslot i, if_neg hi] at hp
    exact hp hcf hself hfind hblocked hi

-- ---------------------------------------------------------------------------
-- Waiting
-- ---------------------------------------------------------------------------

/-- Slot `i`, a zombie child of the current process `c`, was freed. -/
structure Reaped (s s' : Sched) (c i : Fin maxProcs) : Prop where
  current : s.current = some c
  child : (s.procs i).parentPid = (s.procs c).pid
  zombie : (s.procs i).state = .zombie
  same : ∀ j, j ≠ i → s'.procs j = s.procs j
  freed : (s'.procs i).state = .free
  pid : (s'.procs i).pid = (s.procs i).pid
  current_eq : s'.current = s.current
  nextPid : s'.nextPid = s.nextPid
  enabled : s'.schedulerEnabled = s.schedulerEnabled

theorem collect_reaped {k : Kernel} {c i : Fin maxProcs} (hc : k.sched.current = some c)
    (hchild : (k.sched.procs i).parentPid = (k.sched.procs c).pid)
    (hz : (k.sched.procs i).state = .zombie) : Reaped k.sched (collect k i).1.sched c i := by
  refine ⟨hc, hchild, hz, ?_, ?_, ?_, rfl, rfl, rfl⟩
  · intro j hj
    simp [collect, procReap, hj]
  · simp [collect]
  · simp [collect, procReap]

/-- One thing that may happen to the table while a process waits. -/
inductive Quiet (s s' : Sched) : Prop where
  | resched (h : Rescheduled s s')
  | reap (c i : Fin maxProcs) (h : Reaped s s' c i)

/-- Rescheduling and reaping, in any order. -/
def Settled : Sched → Sched → Prop := Relation.ReflTransGen Quiet

theorem Settled.of_rescheduled {s s' : Sched} (h : Rescheduled s s') : Settled s s' :=
  .single (.resched h)

/-- A property that rescheduling and reaping keep is kept by every such operation. -/
theorem Settled.ind {P : Sched → Prop} {s s' : Sched} (h : Settled s s')
    (hresched : ∀ s s', Rescheduled s s' → P s → P s')
    (hreap : ∀ s s' c i, Reaped s s' c i → P s → P s') (hs : P s) : P s' := by
  induction h with
  | refl => exact hs
  | tail _ hq ih =>
    cases hq with
    | resched h => exact hresched _ _ h ih
    | reap c i h => exact hreap _ _ c i h ih

/-- `proc_wait` leaves the kernel alone or collects a zombie child with that pid. -/
theorem procWait_cases (k : Kernel) (pid : Int) :
    (∃ r, r ≤ 0 ∧ procWait k pid = (k, r, none)) ∨
    ∃ c i, k.sched.current = some c ∧ (k.sched.procs i).pid = pid ∧
      (k.sched.procs i).parentPid = (k.sched.procs c).pid ∧
      (k.sched.procs i).state = .zombie ∧ procWait k pid = collect k i := by
  unfold procWait
  cases hc : k.sched.current with
  | none => exact .inl ⟨-1, by decide, rfl⟩
  | some c =>
    dsimp only
    split
    · exact .inl ⟨-1, by decide, rfl⟩
    case h_2 i hf =>
      have hi := List.find?_some hf
      simp only [decide_eq_true_eq] at hi
      split
      case isTrue hz => exact .inr ⟨c, i, rfl, hi.1, hi.2, hz, rfl⟩
      case isFalse => exact .inl ⟨0, by decide, rfl⟩

theorem procWait_settled (k : Kernel) (pid : Int) :
    Settled k.sched (procWait k pid).1.sched := by
  rcases procWait_cases k pid with ⟨r, _, h⟩ | ⟨c, i, hc, _, hp, hz, h⟩
  · rw [h]
    exact .refl
  · rw [h]
    exact .single (.reap c i (collect_reaped hc hp hz))

theorem waitZombie_some {s : Sched} {c i : Fin maxProcs} {pid : Int}
    (h : waitZombie s c pid = some i) :
    (s.procs i).parentPid = (s.procs c).pid ∧ (0 < pid → (s.procs i).pid = pid) ∧
      (s.procs i).state = .zombie := by
  have := List.find?_some h
  simp only [waitMatches, Bool.and_eq_true, decide_eq_true_eq, Bool.decide_and] at this
  refine ⟨this.1.1, fun hp => ?_, this.2⟩
  by_contra hne
  exact this.1.2 ⟨hp, hne⟩

theorem waitBlock_rescheduled {s : Sched} {c : Fin maxProcs} (hc : s.current = some c)
    (pid : Int) : Rescheduled s (waitBlock s c pid) := by
  have hset : Rescheduled s (s.setState c .blocked) := .setState (by decide) (.inl hc)
  have htarget : Rescheduled s
      ((s.setState c .blocked).setWaitTarget c (if 0 < pid then pid else -1)) :=
    hset.trans (.of_eq rfl rfl rfl rfl)
  exact htarget.trans (schedule_rescheduled _)

theorem procWaitBlocking_settled (k : Kernel) (pid : Int) :
    Settled k.sched (procWaitBlocking k pid).1.sched := by
  unfold procWaitBlocking
  cases hc : k.sched.current with
  | none => exact .refl
  | some c =>
    dsimp only
    split
    case h_1 i hz =>
      obtain ⟨hp, _, hz⟩ := waitZombie_some hz
      exact .single (.reap c i (collect_reaped hc hp hz))
    case h_2 =>
      split
      · exact .refl
      · have hblock := waitBlock_rescheduled hc pid
        split
        · have hclear : Rescheduled k.sched ((waitBlock k.sched c pid).setWaitTarget c 0) :=
            hblock.trans (.of_eq rfl rfl rfl rfl)
          exact (Settled.of_rescheduled hclear).trans
            (procWait_settled { k with sched := (waitBlock k.sched c pid).setWaitTarget c 0 } pid)
        · exact .of_rescheduled hblock

theorem waitScan_settled (k : Kernel) (pids : List Int) :
    Settled k.sched (waitScan k pids).1.sched := by
  induction pids generalizing k with
  | nil => exact .refl
  | cons pid pids ih =>
    unfold waitScan
    dsimp only
    split
    · exact procWait_settled k pid
    · exact (procWait_settled k pid).trans (ih _)

/-- The scan of `sys_waitpid` finds nothing, or collects one zombie child. -/
theorem waitScan_cases (k : Kernel) {pids : List Int} (hpos : ∀ pid ∈ pids, 0 < pid) :
    (∃ r, r ≤ 0 ∧ waitScan k pids = (k, r, none)) ∨
    ∃ c i, k.sched.current = some c ∧ (k.sched.procs i).pid ∈ pids ∧
      (k.sched.procs i).parentPid = (k.sched.procs c).pid ∧
      (k.sched.procs i).state = .zombie ∧ waitScan k pids = collect k i := by
  induction pids with
  | nil => exact .inl ⟨errChild, by decide, rfl⟩
  | cons pid pids ih =>
    unfold waitScan
    rcases procWait_cases k pid with ⟨r, hr, he⟩ | ⟨c, i, hc, hpid, hp, hz, he⟩
    · rw [he]
      dsimp only
      rw [if_neg (by omega)]
      rcases ih fun p hp => hpos p (List.mem_cons_of_mem _ hp) with h | ⟨c, i, hc, hmem, h⟩
      · exact .inl h
      · exact .inr ⟨c, i, hc, List.mem_cons_of_mem _ hmem, h⟩
    · have hpos' : 0 < (collect k i).2.1 := by
        show 0 < (k.sched.procs i).pid
        rw [hpid]
        exact hpos pid List.mem_cons_self
      rw [he]
      dsimp only
      rw [if_pos hpos']
      exact .inr ⟨c, i, hc, hpid ▸ List.mem_cons_self, hp, hz, rfl⟩

/-- The pids that `sys_waitpid` scans. -/
theorem waitPids_mem {pid : Int} :
    pid ∈ (List.range' 1 (maxProcs - 1)).map Int.ofNat ↔ 1 ≤ pid ∧ pid < maxProcs := by
  rw [List.mem_map]
  constructor
  · rintro ⟨n, hn, rfl⟩
    rw [List.mem_range'_1] at hn
    have hm : (maxProcs : Int) = 32 := rfl
    have hm' : maxProcs - 1 = 31 := rfl
    rw [hm'] at hn
    simp only [Int.ofNat_eq_natCast]
    omega
  · rintro ⟨h₁, h₂⟩
    have hm : (maxProcs : Int) = 32 := rfl
    have hm' : maxProcs - 1 = 31 := rfl
    refine ⟨pid.toNat, ?_, ?_⟩
    · rw [List.mem_range'_1, hm']
      omega
    · simp only [Int.ofNat_eq_natCast]
      omega

theorem sysWaitpid_settled (k : Kernel) (pid status : BitVec 64) (options : BitVec 32) :
    Settled k.sched (sysWaitpid k pid status options).1.sched := by
  unfold sysWaitpid
  dsimp only
  split
  · exact .refl
  · split
    · have hwait := procWait_settled k (pid.setWidth 32).toInt
      split
      · exact hwait
      · split
        · exact hwait
        · split
          · exact hwait
          · exact hwait.trans (procWaitBlocking_settled _ _)
    · have hscan := waitScan_settled k ((List.range' 1 (maxProcs - 1)).map Int.ofNat)
      split
      · exact hscan
      · split
        · exact hscan
        · exact hscan.trans (procWaitBlocking_settled _ _)

/-- `sys_setuid` refuses, or root or the same user sets the uid. -/
theorem sysSetuid_cases (k : Kernel) (uid : BitVec 32) :
    (sysSetuid k uid).1 = k ∨ ∃ c, k.sched.current = some c ∧
      ((k.sched.procs c).uid = 0 ∨ uid.toInt = (k.sched.procs c).uid) ∧
      (sysSetuid k uid).1.sched = k.sched.modify c fun p => { p with uid := uid.toInt } := by
  unfold sysSetuid
  split
  · exact .inl rfl
  case h_2 c hc =>
    dsimp only
    split
    · exact .inl rfl
    case isFalse hperm =>
      refine .inr ⟨c, hc, ?_, rfl⟩
      by_contra hne
      exact hperm ⟨(not_or.mp hne).1, (not_or.mp hne).2⟩

/-- The operations that neither create nor bury a process nor change its user. -/
def ProcOp.settles : ProcOp → Bool
  | .create .. | .fork .. | .exit _ | .setuid _ => false
  | _ => true

theorem onSched_settled (k : Kernel) {f : Sched → Sched} (hf : ∀ s, Rescheduled s (f s)) :
    Settled k.sched (k.onSched f).sched := .of_rescheduled (hf k.sched)

theorem Kernel.step_settled (k : Kernel) {op : ProcOp} (h : op.settles) :
    Settled k.sched (k.step op).sched := by
  cases op with
  | create | fork | exit | setuid => simp [ProcOp.settles] at h
  | block => exact onSched_settled k taskBlock_rescheduled
  | unblock task => exact onSched_settled k (f := fun s => taskUnblock s task) fun s =>
      (taskUnblock_woken s task).rescheduled
  | unblockPid pid => exact onSched_settled k fun s => (taskUnblockPid_woken s pid).rescheduled
  | kill pid sig => exact onSched_settled k fun s => (signalKill_woken s pid sig).rescheduled
  | sleep now ms => exact onSched_settled k fun s => taskSleep_rescheduled s now ms
  | sleepResume now => exact onSched_settled k fun s => sleepResume_rescheduled s now
  | wakeups now => exact onSched_settled k fun s => (schedCheckWakeups_woken s now).rescheduled
  | tick now => exact onSched_settled k (f := fun s => schedTick s now) fun s =>
      schedTick_rescheduled s now
  | schedule => exact onSched_settled k schedule_rescheduled
  | wait pid => exact procWait_settled k pid
  | waitBlocking pid => exact procWaitBlocking_settled k pid
  | waitpid pid status options => exact sysWaitpid_settled k pid status options

end Lestra
