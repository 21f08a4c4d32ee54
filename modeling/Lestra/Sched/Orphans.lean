import Lestra.Lib.Run
import Lestra.Sched.Pids

/-!
# Orphans

* `NoOrphans` — every zombie has a live parent that can still reap it
* `FamilyOk` — init lives, and every other process has a live parent
* `no_orphans` — this holds in every run in which nobody exits before it has
  reaped its zombies
-/

namespace Lestra

/-- A process that is neither free nor a zombie has this pid. -/
def LivePid (s : Sched) (pid : Int) : Prop := ∃ j, (s.procs j).pid = pid ∧ (s.procs j).Live

instance (s : Sched) (pid : Int) : Decidable (LivePid s pid) :=
  inferInstanceAs (Decidable (∃ _, _ ∧ _))

/-- Every zombie has a live parent. -/
def NoOrphans (s : Sched) : Prop :=
  ∀ i, (s.procs i).state = .zombie → LivePid s (s.procs i).parentPid

/-- Init lives, and so do the parents of all processes in use but init. -/
structure FamilyOk (s : Sched) : Prop where
  table : TableOk s
  init : LivePid s 1
  parent : ∀ i, (s.procs i).state ≠ .free → (s.procs i).pid ≠ 1 →
    LivePid s (s.procs i).parentPid

theorem FamilyOk.noOrphans {s : Sched} (h : FamilyOk s) : NoOrphans s := by
  intro i hz
  refine h.parent i (by rw [hz]; decide) fun hpid => ?_
  obtain ⟨j, hj, hl⟩ := h.init
  have hij : j = i := h.table.pid_inj j i (by omega) (hj.trans hpid.symm)
  exact hl.2 (hij ▸ hz)

theorem InitAlone.familyOk {s : Sched} {c : Fin maxProcs} (h : InitAlone s c) : FamilyOk s := by
  refine ⟨h.tableOk, ⟨c, h.pid, by unfold Process.Live; rw [h.state]; decide⟩, fun i hi hpid => ?_⟩
  by_cases hic : i = c
  · rw [hic] at hpid
    exact absurd h.pid hpid
  · rw [h.others i hic] at hi
    exact absurd rfl hi

namespace FamilyOk

variable {s s' : Sched} {c i : Fin maxProcs}

theorem rescheduled (h : FamilyOk s) (hr : Rescheduled s s') : FamilyOk s' := by
  have hlive : ∀ pid, LivePid s pid → LivePid s' pid := by
    rintro pid ⟨j, hj, hl⟩
    exact ⟨j, (hr.alike j).pid.trans hj, hr.live j hl⟩
  refine ⟨h.table.rescheduled hr, hlive 1 h.init, fun i hi hpid => ?_⟩
  rw [(hr.alike i).pid] at hpid
  rw [(hr.alike i).parentPid]
  exact hlive _ (h.parent i (fun hf => hi (hr.stays i (h.table.current_ne hf) hf)) hpid)

theorem reaped (h : FamilyOk s) (hr : Reaped s s' c i) : FamilyOk s' := by
  have hlive : ∀ pid, LivePid s pid → LivePid s' pid := by
    rintro pid ⟨j, hj, hl⟩
    have hji : j ≠ i := by
      rintro rfl
      exact hl.2 hr.zombie
    exact ⟨j, by rw [hr.same j hji]; exact hj, by rw [hr.same j hji]; exact hl⟩
  refine ⟨h.table.reaped hr, hlive 1 h.init, fun j hj hpid => ?_⟩
  have hji : j ≠ i := by
    rintro rfl
    exact hj hr.freed
  rw [hr.same j hji] at hj hpid ⊢
  exact hlive _ (h.parent j hj hpid)

theorem settled (h : FamilyOk s) (hs : Settled s s') : FamilyOk s' :=
  hs.ind (fun _ _ hr h => h.rescheduled hr) (fun _ _ _ _ hr h => h.reaped hr) h

/-- A new process has a live parent, as its creator is not a zombie. -/
theorem spawned (h : FamilyOk s) (hs : Spawned s s' c)
    (halive : ∀ cur, s.current = some cur → (s.procs cur).state ≠ .zombie) : FamilyOk s' := by
  have hlive : ∀ pid, LivePid s pid → LivePid s' pid := by
    rintro pid ⟨j, hj, hl⟩
    have hjc : j ≠ c := by
      rintro rfl
      exact hl.1 hs.free
    exact ⟨j, by rw [hs.same j hjc]; exact hj, by rw [hs.same j hjc]; exact hl⟩
  refine ⟨h.table.spawned hs, hlive 1 h.init, fun i hi hpid => ?_⟩
  by_cases hic : i = c
  · obtain ⟨cur, hcur, hcf⟩ := h.table.current
    rw [hic, hs.parentPid (h.table.current_ne hs.free), procGetpid, hcur]
    exact hlive _ ⟨cur, rfl, hcf, halive cur hcur⟩
  · rw [hs.same i hic] at hi hpid ⊢
    exact hlive _ (h.parent i hi hpid)

/-- An exit leaves every process a live parent, unless it leaves a zombie behind. -/
theorem buried (h : FamilyOk s) (hc : s.current = some c) (hb : Buried s s' c)
    (hinit : (s.procs c).pid ≠ 1)
    (hzombie : ∀ i, (s.procs i).state = .zombie → (s.procs i).parentPid ≠ (s.procs c).pid) :
    FamilyOk s' := by
  have hstays : ∀ j, j ≠ c → (s.procs j).Live → (s'.procs j).Live := by
    intro j hj hl
    unfold Process.Live
    rcases hb.state j hj with he | ⟨_, hr⟩
    · rw [he]
      exact hl
    · rw [hr]
      decide
  have hlive : ∀ pid, pid ≠ (s.procs c).pid → LivePid s pid → LivePid s' pid := by
    rintro pid hpid ⟨j, hj, hl⟩
    have hjc : j ≠ c := by
      rintro rfl
      exact hpid hj.symm
    exact ⟨j, (hb.pid j).trans hj, hstays j hjc hl⟩
  have hinit' : LivePid s' 1 := hlive 1 (fun he => hinit he.symm) h.init
  refine ⟨h.table.buried hc hb, hinit', fun i hi hpid => ?_⟩
  rw [hb.pid] at hpid
  rw [hb.parentPid, heirParent]
  split
  · exact hinit'
  case isFalse hold =>
    have hif : (s.procs i).state ≠ .free := by
      intro hf
      by_cases hic : i = c
      · obtain ⟨c', hc', hcf⟩ := h.table.current
        obtain rfl : c' = c := Option.some.inj (hc'.symm.trans hc)
        exact hcf (hic ▸ hf)
      · rcases hb.state i hic with he | ⟨hbl, _⟩
        · exact hi (he.trans hf)
        · rw [hf] at hbl
          cases hbl
    refine hlive _ (fun hp => ?_) (h.parent i hif hpid)
    -- a child that keeps the exiting parent is not live, so it is a zombie
    by_cases hz : (s.procs i).state = .zombie
    · exact hzombie i hz hp
    · exact hold ⟨⟨hif, hz⟩, hp⟩

theorem setuid {uid : Int} (h : FamilyOk s) :
    FamilyOk (s.modify c fun p => { p with uid := uid }) := by
  have hslot : ∀ i, ((s.modify c fun p => { p with uid := uid }).procs i).pid = (s.procs i).pid ∧
      ((s.modify c fun p => { p with uid := uid }).procs i).parentPid = (s.procs i).parentPid ∧
      ((s.modify c fun p => { p with uid := uid }).procs i).state = (s.procs i).state :=
    fun i => ⟨Sched.modify_field Process.pid (by intro p; rfl) i,
      Sched.modify_field Process.parentPid (by intro p; rfl) i,
      Sched.modify_field Process.state (by intro p; rfl) i⟩
  have hlive : ∀ pid, LivePid s pid →
      LivePid (s.modify c fun p => { p with uid := uid }) pid := by
    rintro pid ⟨j, hj, hl⟩
    exact ⟨j, (hslot j).1.trans hj, by unfold Process.Live; rw [(hslot j).2.2]; exact hl⟩
  refine ⟨h.table.setuid, hlive 1 h.init, fun i hi hpid => ?_⟩
  rw [(hslot i).2.2] at hi
  rw [(hslot i).1] at hpid
  rw [(hslot i).2.1]
  exact hlive _ (h.parent i hi hpid)

end FamilyOk

-- ---------------------------------------------------------------------------
-- Runs
-- ---------------------------------------------------------------------------

/-- Nobody exits before it has reaped its zombies, init does not exit, and no
zombie that is still executing creates a process. -/
def BuriesCleanly (k : Kernel) : ProcOp → Prop
  | .exit _ => ∀ c, k.sched.current = some c → (k.sched.procs c).pid ≠ 1 ∧
      ∀ i, (k.sched.procs i).state = .zombie →
        (k.sched.procs i).parentPid ≠ (k.sched.procs c).pid
  | .create .. | .fork .. =>
      ∀ c, k.sched.current = some c → (k.sched.procs c).state ≠ .zombie
  | _ => True

theorem FamilyOk.step {k : Kernel} {op : ProcOp} (h : FamilyOk k.sched)
    (hok : BuriesCleanly k op) : FamilyOk (k.step op).sched := by
  by_cases hq : op.settles
  · exact h.settled (k.step_settled hq)
  · cases op with
    | create name elf kstack =>
      rcases procCreate_cases k name elf kstack with he | ⟨c, hs, _⟩
      · simpa [Kernel.step, he] using h
      · exact h.spawned hs hok
    | fork kstack regs =>
      rcases procFork_cases k kstack regs with he | ⟨c, hs, _⟩
      · simpa [Kernel.step, he] using h
      · exact h.spawned hs hok
    | exit status =>
      obtain ⟨c, hc, _⟩ := h.table.current
      obtain ⟨s, hb, he⟩ := procExit_buried hc status
      obtain ⟨hinit, hzombie⟩ := hok c hc
      show FamilyOk (procExit k status).sched
      rw [he]
      exact (h.buried hc hb hinit hzombie).rescheduled (schedule_rescheduled s)
    | setuid uid =>
      show FamilyOk (sysSetuid k uid).1.sched
      rcases sysSetuid_cases k uid with he | ⟨c, _, _, he⟩
      · rw [he]
        exact h
      · rw [he]
        exact h.setuid
    | _ => simp [ProcOp.settles] at hq

/-- **No orphaned zombies.** If every process reaps its zombies before it exits and
init stays, some live process can reap every zombie. -/
theorem no_orphans {k : Kernel} (hk : Started k) (ops : List ProcOp)
    (hops : Run.Allowed Kernel.step BuriesCleanly k ops) :
    NoOrphans (Run.run Kernel.step k ops).sched := by
  obtain ⟨c, hc⟩ := hk.initAlone
  exact (Run.inv_run (I := fun k => FamilyOk k.sched) (fun _ _ h hok => h.step hok) ops k
    hc.familyOk hops).noOrphans

/-- Init forks, its child runs and exits. -/
theorem no_orphans_child :
    NoOrphans (Run.run Kernel.step initKernel
      [.fork 0x5000 default, .schedule, .exit 0]).sched := by
  have hroot : ∀ c, initKernel.sched.current = some c →
      (initKernel.sched.procs c).state ≠ .zombie := by decide
  have hexit : ∀ c, ((initKernel.step (.fork 0x5000 default)).step .schedule).sched.current =
      some c →
      (((initKernel.step (.fork 0x5000 default)).step .schedule).sched.procs c).pid ≠ 1 ∧
      ∀ i, (((initKernel.step (.fork 0x5000 default)).step .schedule).sched.procs i).state =
          .zombie →
        (((initKernel.step (.fork 0x5000 default)).step .schedule).sched.procs i).parentPid ≠
          (((initKernel.step (.fork 0x5000 default)).step .schedule).sched.procs c).pid := by
    decide +kernel
  exact no_orphans initKernel_started _ ⟨hroot, trivial, hexit, trivial⟩

set_option maxRecDepth 20000 in
/-- A child of init forks, its child exits, and it exits without waiting. -/
theorem exit_orphans_zombie :
    ¬ NoOrphans (Run.run Kernel.step initKernel [.fork 0x5000 default, .schedule,
      .fork 0x6000 default, .schedule, .exit 0, .schedule, .exit 0]).sched := by
  unfold NoOrphans
  decide +kernel

end Lestra
