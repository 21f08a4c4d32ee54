import Lestra.Lib.Run
import Lestra.Sched.Pids

/-!
# Privilege along fork trees

* `Confined` — no process that gave up uid 0, and no descendant of one, has uid 0
* `no_privilege_regain` — this holds in every run in which only root forks
* `fork_regains_root` — a fork by an unprivileged process makes a root child
-/

namespace Lestra

/-- The kernel, and the pids of the processes that have had a non-zero uid or
descend by forks from one that had. -/
structure UserTrace where
  kernel : Kernel
  dropped : Int → Prop

/-- The pid of the child, if the operation is a fork that succeeds. -/
def forkedPid (k : Kernel) : ProcOp → Option Int
  | .fork kstack regs =>
    if 0 < (procFork k kstack regs).2 then some (procFork k kstack regs).2 else none
  | _ => none

/-- Some process with this pid has a non-zero uid. -/
def Unprivileged (s : Sched) (pid : Int) : Prop :=
  ∃ i, (s.procs i).state ≠ .free ∧ (s.procs i).pid = pid ∧ (s.procs i).uid ≠ 0

namespace UserTrace

def step (t : UserTrace) (op : ProcOp) : UserTrace where
  kernel := t.kernel.step op
  dropped pid := t.dropped pid ∨ Unprivileged (t.kernel.step op).sched pid ∨
    (forkedPid t.kernel op = some pid ∧ t.dropped (procGetpid t.kernel.sched))

def start (k : Kernel) : UserTrace := ⟨k, fun _ => False⟩

/-- Who dropped root, or descends from one who did, is not root. -/
def Confined (t : UserTrace) : Prop :=
  ∀ i, (t.kernel.sched.procs i).state ≠ .free → t.dropped (t.kernel.sched.procs i).pid →
    (t.kernel.sched.procs i).uid ≠ 0

end UserTrace

/-- A child that the operation forks has the uid and the gid of its parent. -/
def ForkInherits (k : Kernel) (op : ProcOp) : Prop :=
  ∀ pid, forkedPid k op = some pid → ∃ c i, k.sched.current = some c ∧
    ((k.step op).sched.procs i).state ≠ .free ∧ ((k.step op).sched.procs i).pid = pid ∧
    ((k.step op).sched.procs i).uid = (k.sched.procs c).uid ∧
    ((k.step op).sched.procs i).gid = (k.sched.procs c).gid

/-- A fork that finds a free slot is made by root. -/
def ForkByRoot (k : Kernel) : ProcOp → Prop
  | .fork _ _ => findFreeProc k.sched = none ∨
      ∀ c, k.sched.current = some c → (k.sched.procs c).uid = 0 ∧ (k.sched.procs c).gid = 0
  | _ => True

-- ---------------------------------------------------------------------------
-- One step
-- ---------------------------------------------------------------------------

/-- Every process in use was there before, with the same pid and user. -/
def SameUsers (s s' : Sched) : Prop :=
  ∀ i, (s'.procs i).state ≠ .free → (s.procs i).state ≠ .free ∧
    (s'.procs i).pid = (s.procs i).pid ∧ (s'.procs i).uid = (s.procs i).uid

theorem rescheduled_sameUsers {s s' : Sched} (h : TableOk s) (hr : Rescheduled s s') :
    SameUsers s s' := by
  intro i hi
  refine ⟨fun hf => hi (hr.stays i (h.current_ne hf) hf), (hr.alike i).pid, (hr.alike i).uid⟩

theorem settled_sameUsers {s s' : Sched} (h : TableOk s) (hs : Settled s s') :
    SameUsers s s' := by
  have hresched : ∀ t t', Rescheduled t t' → TableOk t ∧ SameUsers s t →
      TableOk t' ∧ SameUsers s t' := by
    rintro t t' hr ⟨ht, hu⟩
    refine ⟨ht.rescheduled hr, fun i hi => ?_⟩
    obtain ⟨h₁, h₂, h₃⟩ := rescheduled_sameUsers ht hr i hi
    obtain ⟨h₁', h₂', h₃'⟩ := hu i h₁
    exact ⟨h₁', h₂.trans h₂', h₃.trans h₃'⟩
  have hreap : ∀ t t' c i, Reaped t t' c i → TableOk t ∧ SameUsers s t →
      TableOk t' ∧ SameUsers s t' := by
    rintro t t' c i hr ⟨ht, hu⟩
    refine ⟨ht.reaped hr, fun j hj => ?_⟩
    have hji : j ≠ i := fun he => hj (he ▸ hr.freed)
    rw [hr.same j hji] at hj ⊢
    exact hu j hj
  exact (hs.ind hresched hreap ⟨h, fun i hi => ⟨hi, rfl, rfl⟩⟩).2

theorem exit_sameUsers {k : Kernel} (h : TableOk k.sched) (status : Int) :
    SameUsers k.sched (procExit k status).sched := by
  obtain ⟨c, hc, hcf⟩ := h.current
  obtain ⟨s, hb, he⟩ := procExit_buried hc status
  rw [he]
  intro i hi
  obtain ⟨h₁, h₂, h₃⟩ :=
    rescheduled_sameUsers (h.buried hc hb) (schedule_rescheduled s) i hi
  refine ⟨?_, h₂.trans (hb.pid i), h₃.trans (hb.uid i)⟩
  by_cases hic : i = c
  · rwa [hic]
  · intro hf
    rcases hb.state i hic with he' | ⟨hbl, _⟩
    · exact h₁ (he'.trans hf)
    · rw [hf] at hbl
      cases hbl

/-- What a run knows about the users. -/
structure UserTrace.Inv (t : UserTrace) : Prop where
  table : TableOk t.kernel.sched
  confined : t.Confined
  dropped_lt : ∀ pid, t.dropped pid → pid < t.kernel.sched.nextPid

namespace UserTrace

variable {t : UserTrace} {op : ProcOp}

/-- Processes that were dropped before stay without root. -/
theorem step_dropped (h : t.Inv) (i : Fin maxProcs)
    (hi : ((t.kernel.step op).sched.procs i).state ≠ .free)
    (hd : t.dropped ((t.kernel.step op).sched.procs i).pid) :
    ((t.kernel.step op).sched.procs i).uid ≠ 0 := by
  have hsame : SameUsers t.kernel.sched (t.kernel.step op).sched →
      ((t.kernel.step op).sched.procs i).uid ≠ 0 := by
    intro hu
    obtain ⟨h₁, h₂, h₃⟩ := hu i hi
    rw [h₃]
    exact h.confined i h₁ (h₂ ▸ hd)
  have hspawned : ∀ c, Spawned t.kernel.sched (t.kernel.step op).sched c →
      ((t.kernel.step op).sched.procs i).uid ≠ 0 := by
    intro c hs
    have hic : i ≠ c := by
      rintro rfl
      have := h.dropped_lt _ hd
      rw [hs.pid] at this
      omega
    rw [hs.same i hic] at hi hd ⊢
    exact h.confined i hi hd
  by_cases hq : op.settles
  · exact hsame (settled_sameUsers h.table (t.kernel.step_settled hq))
  · cases op with
    | create name elf kstack =>
      rcases procCreate_cases t.kernel name elf kstack with he | ⟨c, hs, _⟩
      · refine hsame ?_
        show SameUsers _ (procCreate t.kernel name elf kstack).1.sched
        rw [he]
        exact fun i hi => ⟨hi, rfl, rfl⟩
      · exact hspawned c hs
    | fork kstack regs =>
      rcases procFork_cases t.kernel kstack regs with he | ⟨c, hs, _⟩
      · refine hsame ?_
        show SameUsers _ (procFork t.kernel kstack regs).1.sched
        rw [he]
        exact fun i hi => ⟨hi, rfl, rfl⟩
      · exact hspawned c hs
    | exit status => exact hsame (exit_sameUsers h.table status)
    | setuid uid =>
      rcases sysSetuid_cases t.kernel uid with he | ⟨c, _, hperm, he⟩
      · refine hsame ?_
        show SameUsers _ (sysSetuid t.kernel uid).1.sched
        rw [he]
        exact fun i hi => ⟨hi, rfl, rfl⟩
      · change ((sysSetuid t.kernel uid).1.sched.procs i).state ≠ .free at hi
        change t.dropped ((sysSetuid t.kernel uid).1.sched.procs i).pid at hd
        show ((sysSetuid t.kernel uid).1.sched.procs i).uid ≠ 0
        rw [he] at hi hd ⊢
        by_cases hic : i = c
        · subst hic
          simp only [Sched.modify_same] at hi hd ⊢
          have hne := h.confined i hi hd
          rcases hperm with h0 | huid
          · exact absurd h0 hne
          · rwa [huid]
        · simp only [Sched.modify_ne _ hic] at hi hd ⊢
          exact h.confined i hi hd
    | _ => simp [ProcOp.settles] at hq

/-- A fork by root makes a root child: its parent never dropped root. -/
theorem fork_byRoot (h : t.Inv) (hok : ForkByRoot t.kernel op) {pid : Int}
    (hf : forkedPid t.kernel op = some pid) :
    ∃ c, t.kernel.sched.current = some c ∧ (t.kernel.sched.procs c).uid = 0 ∧
      (t.kernel.sched.procs c).gid = 0 ∧ ¬ t.dropped (procGetpid t.kernel.sched) := by
  obtain ⟨c, hc, hcf⟩ := h.table.current
  cases op with
  | fork kstack regs =>
    rcases hok with hfull | hroot
    · have : (procFork t.kernel kstack regs).2 = -1 := by
        unfold procFork
        rw [hc, hfull]
      simp [forkedPid, this] at hf
    · obtain ⟨h0, hg⟩ := hroot c hc
      refine ⟨c, hc, h0, hg, fun hd => ?_⟩
      rw [procGetpid, hc] at hd
      exact h.confined c hcf hd h0
  | _ => simp [forkedPid] at hf

theorem step_nextPid_le (h : t.Inv) :
    t.kernel.sched.nextPid ≤ (t.kernel.step op).sched.nextPid := by
  by_cases hq : op.settles
  · refine (t.kernel.step_settled hq).ind
      (P := fun s => t.kernel.sched.nextPid ≤ s.nextPid) ?_ ?_ (Int.le_refl _)
    · intro s s' hr hle
      rwa [hr.nextPid]
    · intro s s' c i hr hle
      rwa [hr.nextPid]
  · cases op with
    | create name elf kstack =>
      rcases procCreate_cases t.kernel name elf kstack with he | ⟨c, hs, _⟩
      · simp [Kernel.step, he]
      · have := hs.nextPid
        show _ ≤ (procCreate t.kernel name elf kstack).1.sched.nextPid
        omega
    | fork kstack regs =>
      rcases procFork_cases t.kernel kstack regs with he | ⟨c, hs, _⟩
      · simp [Kernel.step, he]
      · have := hs.nextPid
        show _ ≤ (procFork t.kernel kstack regs).1.sched.nextPid
        omega
    | exit status =>
      obtain ⟨c, hc, _⟩ := h.table.current
      obtain ⟨s, hb, he⟩ := procExit_buried hc status
      show _ ≤ (procExit t.kernel status).sched.nextPid
      rw [he, (schedule_rescheduled s).nextPid, hb.nextPid]
    | setuid uid =>
      rcases sysSetuid_cases t.kernel uid with he | ⟨c, _, _, he⟩
      · simp [Kernel.step, he]
      · simp [Kernel.step, he]
    | _ => simp [ProcOp.settles] at hq

theorem step_inv (h : t.Inv) (hok : ForkByRoot t.kernel op) : (t.step op).Inv := by
  have htable := Kernel.step_tableOk h.table op
  refine ⟨htable, ?_, ?_⟩
  · rintro i hi (hd | ⟨j, hj, hpid, huid⟩ | ⟨hf, hd⟩)
    · exact step_dropped h i hi hd
    · have hij : j = i := htable.pid_inj j i (htable.pid_pos j hj) hpid
      rwa [hij] at huid
    · obtain ⟨_, _, _, _, hnd⟩ := fork_byRoot h hok hf
      exact absurd hd hnd
  · rintro pid (hd | ⟨j, _, rfl, _⟩ | ⟨hf, hd⟩)
    · exact Int.lt_of_lt_of_le (h.dropped_lt pid hd) (step_nextPid_le h)
    · exact htable.pid_lt j
    · obtain ⟨_, _, _, _, hnd⟩ := fork_byRoot h hok hf
      exact absurd hd hnd

theorem step_forkInherits (h : t.Inv) (hok : ForkByRoot t.kernel op) :
    ForkInherits t.kernel op := by
  intro pid hf
  obtain ⟨c, hc, h0, hg, _⟩ := fork_byRoot h hok hf
  cases op with
  | fork kstack regs =>
    simp only [forkedPid, Option.ite_none_right_eq_some, Option.some.injEq] at hf
    obtain ⟨hpos, rfl⟩ := hf
    rcases procFork_cases t.kernel kstack regs with he | ⟨i, hs, ⟨he, _⟩ | ⟨he, hr⟩⟩
    · simp [he] at hpos
    · simp [he] at hpos
    · refine ⟨c, i, hc, ?_, ?_, ?_, ?_⟩
      · show ((procFork t.kernel kstack regs).1.sched.procs i).state ≠ .free
        rw [hr]
        decide
      · exact hs.pid.trans he.symm
      · exact hs.uid.trans h0.symm
      · exact hs.gid.trans hg.symm
  | _ => simp [forkedPid] at hf

end UserTrace

-- ---------------------------------------------------------------------------
-- Runs
-- ---------------------------------------------------------------------------

theorem UserTrace.start_inv {k : Kernel} (h : Started k) : (UserTrace.start k).Inv := by
  obtain ⟨c, hc⟩ := h.initAlone
  exact ⟨hc.tableOk, fun _ _ hd => hd.elim, fun _ hd => hd.elim⟩

/-- **No privilege regain.** As long as only root forks, whoever gave up root and
all descendants stay without it, and every child has the ids of its parent. -/
theorem no_privilege_regain {k : Kernel} (hk : Started k) (ops : List ProcOp)
    (hops : Run.Allowed UserTrace.step (fun t op => ForkByRoot t.kernel op)
      (UserTrace.start k) ops) :
    (Run.run UserTrace.step (UserTrace.start k) ops).Confined ∧
      ∀ op, ForkByRoot (Run.run UserTrace.step (UserTrace.start k) ops).kernel op →
        ForkInherits (Run.run UserTrace.step (UserTrace.start k) ops).kernel op := by
  have hinv := Run.inv_run (I := UserTrace.Inv) (fun _ _ h hok => UserTrace.step_inv h hok) ops _
    (UserTrace.start_inv hk) hops
  exact ⟨hinv.confined, fun op hok => UserTrace.step_forkInherits hinv hok⟩

/-- Init forks, and then drops root itself. -/
theorem no_privilege_regain_init :
    (Run.run UserTrace.step (UserTrace.start initKernel)
      [.fork 0x5000 default, .setuid 5#32, .schedule]).Confined := by
  obtain ⟨c, hc⟩ := initKernel_started.initAlone
  have hroot : ForkByRoot initKernel (.fork 0x5000 default) := by
    refine .inr fun c' hc' => ?_
    obtain rfl : c = c' := Option.some.inj (hc.current.symm.trans hc')
    exact ⟨hc.uid, hc.gid⟩
  have hops : Run.Allowed UserTrace.step (fun t op => ForkByRoot t.kernel op)
      (UserTrace.start initKernel) [.fork 0x5000 default, .setuid 5#32, .schedule] :=
    ⟨hroot, trivial, trivial, trivial⟩
  exact (no_privilege_regain initKernel_started _ hops).1

/-- A process that dropped root gets a child with uid 0. -/
theorem fork_regains_root :
    ¬ (Run.run UserTrace.step (UserTrace.start initKernel)
      [.setuid 5#32, .fork 0x5000 default]).Confined := by
  obtain ⟨c, hc⟩ := initKernel_started.initAlone
  obtain ⟨i, hi, hfree⟩ := hc.exists_free
  obtain ⟨k, hk⟩ : ∃ k, initKernel.step (.setuid 5#32) = k := ⟨_, rfl⟩
  have hsched : k.sched = initKernel.sched.modify c fun p => { p with uid := (5#32).toInt } := by
    rw [← hk]
    simp only [Kernel.step, sysSetuid, hc.current]
    rw [if_neg (fun h => h.1 hc.uid)]
  have hcur : k.sched.current = some c := by rw [hsched]; exact hc.current
  have hmachine : k.machine = bareMachine ∧ k.bootPml4 = 20 := by
    rw [← hk]
    exact ⟨rfl, rfl⟩
  obtain ⟨j, hpid, hs, he⟩ := procFork_small (i := i) hmachine hcur
    (by simp [hsched, hc.state]) (by simp [hsched, hi, hfree])
  rw [hsched] at hpid
  replace hpid : (procFork k 0x5000 default).2 = 2 := hpid.trans hc.nextPid
  -- init is unprivileged before it forks, so its child counts as such
  have hinit : Unprivileged k.sched (procGetpid k.sched) := by
    refine ⟨c, ?_, ?_, ?_⟩
    · simp [hsched, hc.state]
    · simp [procGetpid, hcur]
    · rw [hsched, Sched.modify_same]
      show (5#32).toInt ≠ 0
      decide
  intro hconf
  have hrun : Run.run UserTrace.step (UserTrace.start initKernel)
      [.setuid 5#32, .fork 0x5000 default] =
      UserTrace.step ⟨k, fun pid => False ∨ Unprivileged k.sched pid ∨
        (forkedPid initKernel (.setuid 5#32) = some pid ∧ False)⟩ (.fork 0x5000 default) := by
    rw [← hk]
    rfl
  rw [hrun] at hconf
  refine hconf j (by show ((procFork k 0x5000 default).1.sched.procs j).state ≠ .free; rw [he]; decide)
    (.inr (.inr ⟨?_, .inr (.inl hinit)⟩)) hs.uid
  show forkedPid k (.fork 0x5000 default) = some ((procFork k 0x5000 default).1.sched.procs j).pid
  rw [hs.pid, hsched]
  simp only [forkedPid, hpid]
  rw [if_pos (by decide)]
  exact congrArg some hc.nextPid.symm

end Lestra
