import Lestra.Lib.Run
import Lestra.Sched.Pids

/-!
# Who runs

* `RunningCurrent` — one slot is running, and it is the current one
* `schedule_parked` — a current process that is not running leaves only if
  another one is runnable
* `running_current` — the invariant holds in every run in which whoever gives up
  the CPU for good finds another process to run
-/

namespace Lestra

/-- Exactly one slot is `PROC_RUNNING`, the one that `current` points to. -/
def RunningCurrent (s : Sched) : Prop :=
  ∃ c, s.current = some c ∧ (s.procs c).state = .running ∧
    ∀ i, (s.procs i).state = .running → i = c

/-- `schedule` can switch. -/
def CanSwitch (s : Sched) : Prop :=
  s.schedulerEnabled = true ∧ ∃ i, (s.procs i).state = .runnable

/-- The current process `c` has given up the CPU. -/
structure Parked (s : Sched) (c : Fin maxProcs) : Prop where
  current : s.current = some c
  not_runnable : (s.procs c).state ≠ .runnable
  none_running : ∀ i, (s.procs i).state ≠ .running

-- ---------------------------------------------------------------------------
-- schedule
-- ---------------------------------------------------------------------------

theorem RunningCurrent.switchTo {s : Sched} {next : Fin maxProcs}
    (hone : ∀ i, (s.procs i).state = .running → s.current = some i) :
    RunningCurrent (switchTo s next) := by
  refine ⟨next, rfl, by simp [switchTo_state], fun i hi => ?_⟩
  by_contra hne
  rw [switchTo_state, if_neg hne] at hi
  by_cases hr : (s.procs i).state = .running
  · rw [if_pos ⟨hone i hr, hr⟩] at hi
    cases hi
  · rw [if_neg (fun h => hr h.2)] at hi
    exact hr hi

theorem RunningCurrent.schedule {s : Sched} (h : RunningCurrent s) :
    RunningCurrent (schedule s) := by
  rcases schedule_cases s with ⟨he, _⟩ | ⟨next, _, _, _, he⟩
  · rwa [he]
  · obtain ⟨c, hc, _, hone⟩ := h
    rw [he]
    exact RunningCurrent.switchTo fun i hi => by rw [hone i hi, hc]

/-- A parked process leaves, or nothing happens because no process can run. -/
theorem schedule_parked {s : Sched} {c : Fin maxProcs} (h : Parked s c) :
    (CanSwitch s ∧ RunningCurrent (schedule s) ∧ (schedule s).current ≠ some c) ∨
      (¬ CanSwitch s ∧ schedule s = s) := by
  rcases schedule_cases s with ⟨he, hwhy⟩ | ⟨next, hen, hne, hr, he⟩
  · refine .inr ⟨?_, he⟩
    rintro ⟨hen, i, hi⟩
    rcases hwhy hen with hno | ⟨c', hc', hr⟩
    · exact hno i hi
    · obtain rfl : c = c' := Option.some.inj (h.current.symm.trans hc')
      exact h.not_runnable hr
  · refine .inl ⟨⟨hen, next, hr⟩, ?_, ?_⟩
    · rw [he]
      exact RunningCurrent.switchTo fun i hi => absurd hi (h.none_running i)
    · rw [he, switchTo_current]
      rw [h.current] at hne
      exact fun heq => hne heq.symm

/-- Taking the CPU from the only running process parks it. -/
theorem RunningCurrent.park {s : Sched} {c : Fin maxProcs} {f : Process → Process}
    (h : RunningCurrent s) (hc : s.current = some c) (st : ProcState)
    (hf : (f (s.procs c)).state = st) (hst : st ≠ .runnable ∧ st ≠ .running) :
    Parked (s.modify c f) c := by
  obtain ⟨c', hc', _, hone⟩ := h
  obtain rfl : c' = c := Option.some.inj (hc'.symm.trans hc)
  refine ⟨hc, by rw [Sched.modify_same, hf]; exact hst.1, fun i hi => ?_⟩
  by_cases hic : i = c'
  · subst hic
    rw [Sched.modify_same, hf] at hi
    exact hst.2 hi
  · rw [Sched.modify_ne _ hic] at hi
    exact hic (hone i hi)

/-- Giving the CPU back. -/
theorem Parked.resume {s : Sched} {c : Fin maxProcs} {f : Process → Process} (h : Parked s c)
    (hf : (f (s.procs c)).state = .running) : RunningCurrent (s.modify c f) := by
  refine ⟨c, h.current, by rw [Sched.modify_same, hf], fun i hi => ?_⟩
  by_contra hic
  rw [Sched.modify_ne _ hic] at hi
  exact h.none_running i hi

theorem canSwitch_park {s : Sched} {c : Fin maxProcs} {f : Process → Process}
    (hc : (s.procs c).state ≠ .runnable) (h : CanSwitch s) : CanSwitch (s.modify c f) := by
  obtain ⟨hen, i, hi⟩ := h
  have hic : i ≠ c := by
    rintro rfl
    exact hc hi
  exact ⟨hen, i, by rwa [Sched.modify_ne _ hic]⟩

/-- Only the table and `current` matter. -/
theorem RunningCurrent.of_eq {s s' : Sched} (h : RunningCurrent s)
    (hstate : ∀ i, (s'.procs i).state = (s.procs i).state) (hc : s'.current = s.current) :
    RunningCurrent s' := by
  obtain ⟨c, hcur, hr, hone⟩ := h
  exact ⟨c, hc.trans hcur, (hstate c).trans hr, fun i hi => hone i ((hstate i).symm.trans hi)⟩

-- ---------------------------------------------------------------------------
-- The operations
-- ---------------------------------------------------------------------------

theorem RunningCurrent.woken {s s' : Sched} (h : RunningCurrent s) (hw : Woken s s') :
    RunningCurrent s' := by
  obtain ⟨c, hc, hr, hone⟩ := h
  refine ⟨c, hw.current.trans hc, ?_, fun i hi => ?_⟩
  · rcases hw.state c with he | ⟨hb, _⟩
    · rw [he, hr]
    · rw [hr] at hb
      cases hb
  · rcases hw.state i with he | ⟨_, hr'⟩
    · exact hone i (he ▸ hi)
    · rw [hr'] at hi
      cases hi

theorem RunningCurrent.taskBlock {s : Sched} (h : RunningCurrent s) :
    RunningCurrent (taskBlock s) := by
  unfold Lestra.taskBlock
  obtain ⟨c, hc, hr, hone⟩ := h
  rw [hc]
  have hpark : Parked (s.setState c .blocked) c :=
    RunningCurrent.park ⟨c, hc, hr, hone⟩ hc .blocked rfl (by decide)
  dsimp only
  rcases schedule_parked hpark with ⟨_, hrun, hcur⟩ | ⟨_, he⟩
  · rwa [if_neg hcur]
  · rw [he, if_pos hpark.current, if_pos (by simp)]
    exact hpark.resume rfl

theorem RunningCurrent.spawned {s s' : Sched} {c : Fin maxProcs} (h : RunningCurrent s)
    (hs : Spawned s s' c) (hst : (s'.procs c).state ≠ .running) : RunningCurrent s' := by
  obtain ⟨cur, hc, hr, hone⟩ := h
  have hne : cur ≠ c := by
    rintro rfl
    rw [hs.free] at hr
    cases hr
  refine ⟨cur, hs.current.trans hc, by rwa [hs.same cur hne], fun i hi => ?_⟩
  by_cases hic : i = c
  · rw [hic] at hi
    exact absurd hi hst
  · rw [hs.same i hic] at hi
    exact hone i hi

theorem RunningCurrent.reaped {s s' : Sched} {c i : Fin maxProcs} (h : RunningCurrent s)
    (hr : Reaped s s' c i) : RunningCurrent s' := by
  obtain ⟨cur, hc, hrun, hone⟩ := h
  have hne : cur ≠ i := by
    rintro rfl
    rw [hr.zombie] at hrun
    cases hrun
  refine ⟨cur, hr.current_eq.trans hc, by rwa [hr.same cur hne], fun j hj => ?_⟩
  by_cases hji : j = i
  · rw [hji, hr.freed] at hj
    cases hj
  · rw [hr.same j hji] at hj
    exact hone j hj

theorem RunningCurrent.setNapping {s : Sched} (h : RunningCurrent s) (c : Fin maxProcs)
    (d : Option (BitVec 64)) : RunningCurrent (s.setNapping c d) :=
  h.of_eq (fun _ => rfl) rfl

/-- The turn of `task_sleep` ends it, or another process runs. -/
theorem RunningCurrent.sleepTurn {s : Sched} {c : Fin maxProcs} {now deadline : BitVec 64}
    (h : RunningCurrent s) (hc : s.current = some c) (hen : s.schedulerEnabled = true)
    (hok : 0 ≤ (now - deadline).toInt ∨ ∃ i, (s.procs i).state = .runnable) :
    RunningCurrent (sleepTurn s c now deadline) := by
  obtain ⟨c', hc', hr, hone⟩ := h
  obtain rfl : c' = c := Option.some.inj (hc'.symm.trans hc)
  unfold Lestra.sleepTurn
  split
  case isTrue =>
    refine ⟨c', hc, by simp, fun i hi => ?_⟩
    by_contra hic
    rw [Sched.modify_ne _ hic] at hi
    exact hic (hone i hi)
  case isFalse hd =>
    have hswitch : CanSwitch (s.setState c' .blocked) :=
      canSwitch_park (by rw [hr]; decide) ⟨hen, hok.resolve_left hd⟩
    have hpark : Parked (s.setState c' .blocked) c' :=
      RunningCurrent.park ⟨c', hc, hr, hone⟩ hc .blocked rfl (by decide)
    rcases schedule_parked hpark with ⟨_, hrun, _⟩ | ⟨hno, _⟩
    · exact hrun.setNapping c' _
    · exact absurd hswitch hno

theorem RunningCurrent.procWait {k : Kernel} (h : RunningCurrent k.sched) (pid : Int) :
    RunningCurrent (procWait k pid).1.sched := by
  rcases procWait_cases k pid with ⟨r, _, he⟩ | ⟨c, i, hc, _, hp, hz, he⟩
  · rwa [he]
  · rw [he]
    exact h.reaped (collect_reaped hc hp hz)

/-- `proc_wait_blocking(pid)` returns at once, or another process can run. -/
def WaitOk (s : Sched) (pid : Int) : Prop :=
  ∀ c, s.current = some c →
    (waitZombie s c pid).isSome ∨ waitFound s c pid = false ∨
      ∃ i, (s.procs i).state = .runnable

theorem RunningCurrent.procWaitBlocking {k : Kernel} {pid : Int} (h : RunningCurrent k.sched)
    (hen : k.sched.schedulerEnabled = true) (hok : WaitOk k.sched pid) :
    RunningCurrent (procWaitBlocking k pid).1.sched := by
  unfold Lestra.procWaitBlocking
  cases hc : k.sched.current with
  | none => exact h
  | some c =>
    have hokc := hok c hc
    dsimp only
    cases hz : waitZombie k.sched c pid with
    | some i =>
      obtain ⟨hp, _, hzi⟩ := waitZombie_some hz
      exact h.reaped (collect_reaped hc hp hzi)
    | none =>
      dsimp only
      split
      case isTrue => exact h
      case isFalse hf =>
        have hswitch : CanSwitch k.sched := by
          rw [hz] at hokc
          exact ⟨hen, (hokc.resolve_left (by simp)).resolve_left (by simpa using hf)⟩
        obtain ⟨c', hc', hr, hone⟩ := h
        obtain rfl : c' = c := Option.some.inj (hc'.symm.trans hc)
        have hpark : Parked (k.sched.setState c' .blocked) c' :=
          RunningCurrent.park ⟨c', hc, hr, hone⟩ hc .blocked rfl (by decide)
        have hpark' : Parked ((k.sched.setState c' .blocked).setWaitTarget c'
            (if 0 < pid then pid else -1)) c' :=
          ⟨hpark.current, hpark.not_runnable, hpark.none_running⟩
        have hswitch' : CanSwitch ((k.sched.setState c' .blocked).setWaitTarget c'
            (if 0 < pid then pid else -1)) :=
          canSwitch_park (f := fun p => { p with state := .blocked }) (by rw [hr]; decide) hswitch
        rcases schedule_parked hpark' with ⟨_, hrun, hcur⟩ | ⟨hno, _⟩
        · rw [if_neg (show (waitBlock k.sched c' pid).current ≠ some c' from hcur)]
          exact hrun
        · exact absurd hswitch' hno

theorem RunningCurrent.sysWaitpid {k : Kernel} {pid status : BitVec 64} {options : BitVec 32}
    (h : RunningCurrent k.sched) (ht : TableOk k.sched)
    (hen : k.sched.schedulerEnabled = true)
    (hok : options &&& wnohang ≠ 0#32 ∨ WaitOk k.sched (pid.setWidth 32).toInt) :
    RunningCurrent (sysWaitpid k pid status options).1.sched := by
  have hcollect : ∀ c i, k.sched.current = some c →
      (k.sched.procs i).parentPid = (k.sched.procs c).pid → (k.sched.procs i).state = .zombie →
      0 < (collect k i).2.1 ∧ RunningCurrent (collect k i).1.sched := by
    intro c i hc hp hz
    exact ⟨ht.pid_pos i (by rw [hz]; decide), h.reaped (collect_reaped hc hp hz)⟩
  unfold Lestra.sysWaitpid
  dsimp only
  split
  · exact h
  · split
    · rcases procWait_cases k (pid.setWidth 32).toInt with ⟨r, hr, he⟩ | ⟨c, i, hc, _, hp, hz, he⟩
      · rw [he]
        dsimp only
        rw [if_neg (by omega)]
        split
        · exact h
        · split
          · exact h
          case isFalse hb => exact h.procWaitBlocking hen (hok.resolve_left fun hn => hb hn)
      · obtain ⟨hpos, hrun⟩ := hcollect c i hc hp hz
        rw [he, if_pos hpos]
        exact hrun
    · rcases waitScan_cases k (fun p hp => by have := waitPids_mem.mp hp; omega) with
        ⟨r, hr, he⟩ | ⟨c, i, hc, _, hp, hz, he⟩
      · rw [he]
        dsimp only
        rw [if_neg (by omega)]
        split
        · exact h
        case isFalse hb => exact h.procWaitBlocking hen (hok.resolve_left fun hn => hb hn)
      · obtain ⟨hpos, hrun⟩ := hcollect c i hc hp hz
        rw [he, if_pos hpos]
        exact hrun

/-- `proc_exit` finds another process to run, if only the parent that it wakes. -/
def ExitOk (s : Sched) : Prop :=
  ∀ c, s.current = some c → (∃ i, (s.procs i).state = .runnable) ∨
    ∃ i, schedFindByPid s (s.procs c).parentPid = some i ∧ (s.procs i).state = .blocked

theorem RunningCurrent.procExit {k : Kernel} (h : RunningCurrent k.sched)
    (ht : TableOk k.sched) (hen : k.sched.schedulerEnabled = true) (hok : ExitOk k.sched)
    (status : Int) : RunningCurrent (procExit k status).sched := by
  obtain ⟨c, hc, hr, hone⟩ := h
  obtain ⟨s, hb, he⟩ := procExit_buried hc status
  have hrunnable : ∃ i, (s.procs i).state = .runnable := by
    have hcf : (k.sched.procs c).state ≠ .free := by rw [hr]; decide
    rcases hok c hc with ⟨i, hi⟩ | ⟨i, hfind, hblocked⟩
    · have hic : i ≠ c := by
        rintro rfl
        rw [hr] at hi
        cases hi
      rcases hb.state i hic with he' | ⟨_, hr'⟩
      · exact ⟨i, he'.trans hi⟩
      · exact ⟨i, hr'⟩
    · have hic : i ≠ c := by
        rintro rfl
        rw [hr] at hblocked
        cases hblocked
      have hlt := ht.parent_lt c hcf
      exact ⟨i, hb.parent i hcf (by omega) hfind hblocked hic⟩
  have hpark : Parked s c := by
    refine ⟨hb.current.trans hc, by rw [hb.zombie]; decide, fun i hi => ?_⟩
    by_cases hic : i = c
    · rw [hic, hb.zombie] at hi
      cases hi
    · rcases hb.state i hic with he' | ⟨_, hr'⟩
      · exact hic (hone i (he' ▸ hi))
      · rw [hr'] at hi
        cases hi
  rw [he]
  rcases schedule_parked hpark with ⟨_, hrun, _⟩ | ⟨hno, _⟩
  · exact hrun
  · exact absurd ⟨hb.enabled.trans hen, hrunnable⟩ hno

-- ---------------------------------------------------------------------------
-- Runs
-- ---------------------------------------------------------------------------

/-- If the operation gives up the CPU, another process is runnable. -/
def LeavesCpu (k : Kernel) : ProcOp → Prop
  | .exit _ => ExitOk k.sched
  | .sleep now ms => ms = 0#64 ∨ 0 ≤ (now - (now + ms)).toInt ∨
      ∃ i, (k.sched.procs i).state = .runnable
  | .sleepResume now => ∀ c d, k.sched.current = some c → k.sched.napping c = some d →
      0 ≤ (now - d).toInt ∨ ∃ i, (k.sched.procs i).state = .runnable
  | .waitBlocking pid => WaitOk k.sched pid
  | .waitpid pid _ options =>
      options &&& wnohang ≠ 0#32 ∨ WaitOk k.sched (pid.setWidth 32).toInt
  | _ => True

structure RunningInv (k : Kernel) : Prop where
  table : TableOk k.sched
  enabled : k.sched.schedulerEnabled = true
  running : RunningCurrent k.sched

theorem RunningInv.step {k : Kernel} {op : ProcOp} (h : RunningInv k) (hok : LeavesCpu k op) :
    RunningInv (k.step op) := by
  obtain ⟨ht, hen, hrun⟩ := h
  refine ⟨Kernel.step_tableOk ht op, (Kernel.step_enabled ht op).trans hen, ?_⟩
  have hspawned : ∀ s' c, Spawned k.sched s' c → (s'.procs c).state = .free ∨
      (s'.procs c).state = .runnable → RunningCurrent s' := by
    rintro s' c hs (hst | hst)
    · exact hrun.spawned hs (by rw [hst]; decide)
    · exact hrun.spawned hs (by rw [hst]; decide)
  cases op with
  | create name elf kstack =>
    rcases procCreate_cases k name elf kstack with he | ⟨c, hs, hst⟩
    · simpa [Kernel.step, he] using hrun
    · exact hspawned _ c hs (hst.imp And.right And.right)
  | fork kstack regs =>
    rcases procFork_cases k kstack regs with he | ⟨c, hs, hst⟩
    · simpa [Kernel.step, he] using hrun
    · exact hspawned _ c hs (hst.imp And.right And.right)
  | exit status => exact hrun.procExit ht hen hok status
  | block => exact hrun.taskBlock
  | unblock task => exact hrun.woken (taskUnblock_woken k.sched task)
  | unblockPid pid => exact hrun.woken (taskUnblockPid_woken k.sched pid)
  | kill pid sig => exact hrun.woken (signalKill_woken k.sched pid sig)
  | wakeups now =>
    simp only [Kernel.step, Kernel.onSched]
    exact hrun.woken (schedCheckWakeups_woken k.sched now)
  | schedule => exact hrun.schedule
  | wait pid => exact hrun.procWait pid
  | waitBlocking pid => exact hrun.procWaitBlocking hen hok
  | waitpid pid status options => exact hrun.sysWaitpid ht hen hok
  | tick now =>
    simp only [Kernel.step, Kernel.onSched, schedTick, hen, if_true]
    exact (hrun.woken (schedCheckWakeups_woken k.sched now)).schedule
  | sleep now ms =>
    obtain ⟨c, hc, _⟩ := ht.current
    simp only [Kernel.step, Kernel.onSched, taskSleep, hc, hen, if_true]
    split
    · exact hrun.schedule
    case isFalse hms =>
      have hwake : RunningCurrent (k.sched.modify c fun p => { p with wakeTick := now + ms }) :=
        hrun.woken (.modify ⟨rfl, rfl, rfl, rfl, rfl, rfl⟩ (.inl rfl))
      have hkeep : ∀ i, ((k.sched.modify c fun p => { p with wakeTick := now + ms }).procs i).state =
          (k.sched.procs i).state := Sched.modify_field Process.state (by intro p; rfl)
      refine hwake.sleepTurn hc hen ?_
      rcases hok.resolve_left hms with hd | ⟨i, hi⟩
      · exact .inl hd
      · exact .inr ⟨i, (hkeep i).trans hi⟩
  | sleepResume now =>
    obtain ⟨c, hc, _⟩ := ht.current
    simp only [Kernel.step, Kernel.onSched, sleepResume, hc]
    cases hn : k.sched.napping c with
    | none => exact hrun
    | some d => exact hrun.sleepTurn hc hen (hok c d hc hn)
  | setuid uid =>
    show RunningCurrent (sysSetuid k uid).1.sched
    rcases sysSetuid_cases k uid with he | ⟨c, _, _, he⟩
    · rwa [he]
    · rw [he]
      exact hrun.of_eq (Sched.modify_field Process.state (by intro p; rfl)) rfl

theorem Started.runningInv {k : Kernel} (h : Started k) : RunningInv k := by
  obtain ⟨c, hc⟩ := h.initAlone
  refine ⟨hc.tableOk, hc.enabled, c, hc.current, hc.state, fun i hi => ?_⟩
  by_contra hne
  rw [hc.others i hne] at hi
  cases hi

/-- **One running process.** In every run in which whoever gives up the CPU for
good leaves it to another process, exactly the current slot is running. -/
theorem running_current {k : Kernel} (hk : Started k) (ops : List ProcOp)
    (hops : Run.Allowed Kernel.step LeavesCpu k ops) :
    RunningCurrent (Run.run Kernel.step k ops).sched :=
  (Run.inv_run (I := RunningInv) (fun _ _ h hok => h.step hok) ops k hk.runningInv hops).running

/-- Init forks and exits; its child runs. -/
theorem running_current_init :
    RunningCurrent (Run.run Kernel.step initKernel [.fork 0x5000 default, .exit 0]).sched := by
  obtain ⟨c, hc⟩ := initKernel_started.initAlone
  obtain ⟨i, _, hfree⟩ := hc.exists_free
  obtain ⟨j, _, _, hj⟩ := procFork_small initKernel_machine hc.current
    (by rw [hc.state]; decide) hfree
  exact running_current initKernel_started _ ⟨trivial, fun _ _ => .inl ⟨j, hj⟩, trivial⟩

/-- Alone, init goes on as a zombie. -/
theorem lone_exit_runs_zombie :
    ¬ RunningCurrent (Run.run Kernel.step initKernel [.exit 0]).sched := by
  obtain ⟨c, hc⟩ := initKernel_started.initAlone
  obtain ⟨s, hb, he⟩ := procExit_buried hc.current 0
  have hothers : ∀ i, i ≠ c → (s.procs i).state = .free := by
    intro i hi
    rcases hb.state i hi with he' | ⟨hbl, _⟩
    · rw [he', hc.others i hi]
      rfl
    · rw [hc.others i hi] at hbl
      cases hbl
  have hpark : Parked s c := by
    refine ⟨hb.current.trans hc.current, by rw [hb.zombie]; decide, fun i hi => ?_⟩
    by_cases hic : i = c
    · rw [hic, hb.zombie] at hi
      cases hi
    · rw [hothers i hic] at hi
      cases hi
  have hno : ¬ CanSwitch s := by
    rintro ⟨_, i, hi⟩
    by_cases hic : i = c
    · rw [hic, hb.zombie] at hi
      cases hi
    · rw [hothers i hic] at hi
      cases hi
  rintro ⟨c', _, hr, _⟩
  simp only [Run.run_cons, Run.run_nil, Kernel.step] at hr
  rw [he] at hr
  rcases schedule_parked hpark with ⟨hcan, _⟩ | ⟨_, hsame⟩
  · exact hno hcan
  · rw [hsame] at hr
    exact hpark.none_running c' hr

end Lestra
