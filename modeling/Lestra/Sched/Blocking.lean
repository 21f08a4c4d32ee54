import Lestra.Sched.Pids

/-!
# Blocking and waking

* `BlocksOnly` — what the scheduler functions can do to blocked processes
* `taskUnblockPid_awake` — a wakeup by pid reaches its process
* `signalKill_blocked` — a signal only wakes whom it is sent to
-/

namespace Lestra

-- ---------------------------------------------------------------------------
-- Blocked processes
-- ---------------------------------------------------------------------------

/-- The current process is not blocked. -/
def Awake (s : Sched) : Prop := ∀ c, s.current = some c → (s.procs c).state ≠ .blocked

/-- At most the process in slot `c` became blocked. -/
structure BlocksOnly (s s' : Sched) (c : Option (Fin maxProcs)) : Prop where
  resched : Rescheduled s s'
  blocked : ∀ i, c ≠ some i → (s'.procs i).state = .blocked → (s.procs i).state = .blocked
  awake : Awake s → Awake s'

theorem Woken.blocksOnly {s s' : Sched} (h : Woken s s') : BlocksOnly s s' none := by
  have hblocked : ∀ i, (s'.procs i).state = .blocked → (s.procs i).state = .blocked := by
    intro i hb
    rcases h.state i with he | ⟨hb', _⟩
    · exact he ▸ hb
    · exact hb'
  exact ⟨h.rescheduled, fun i _ => hblocked i, fun ha c hc hb => ha c (h.current ▸ hc) (hblocked c hb)⟩

/-- `schedule` neither blocks nor wakes. -/
theorem schedule_blocked (s : Sched) (i : Fin maxProcs) :
    ((schedule s).procs i).state = .blocked ↔ (s.procs i).state = .blocked :=
  schedule_state s i (by decide) (by decide)

/-- `task_block` only concerns its caller. -/
theorem taskBlock_blocked {s : Sched} {i : Fin maxProcs} (hi : s.current ≠ some i) :
    ((taskBlock s).procs i).state = .blocked ↔ (s.procs i).state = .blocked := by
  unfold taskBlock
  cases hc : s.current with
  | none => exact Iff.rfl
  | some c =>
    have hic : i ≠ c := fun he => hi (he ▸ hc)
    have hsched := schedule_blocked (s.setState c .blocked) i
    rw [Sched.setState_ne _ hic] at hsched
    dsimp only
    split
    · split
      · rw [Sched.setState_ne _ hic]
        exact hsched
      · exact hsched
    · exact hsched

/-- The caller stays blocked if another process can run. -/
theorem taskBlock_self {s : Sched} {c i : Fin maxProcs} (hc : s.current = some c)
    (he : s.schedulerEnabled = true) (hi : i ≠ c) (hr : (s.procs i).state = .runnable) :
    ((taskBlock s).procs c).state = .blocked := by
  have hri : ((s.setState c .blocked).procs i).state = .runnable := by
    rwa [Sched.setState_ne _ hi]
  unfold taskBlock
  rw [hc]
  dsimp only
  rcases schedule_cases (s.setState c .blocked) with ⟨_, hno⟩ | ⟨next, _, hne, _, hsw⟩
  · rcases hno he with hnone | ⟨c', hc', hr'⟩
    · exact absurd hri (hnone i)
    · obtain rfl : c = c' := Option.some.inj (hc.symm.trans hc')
      simp at hr'
  · have hcn : c ≠ next := fun h => hne (by rw [Sched.setState_current, hc, h])
    rw [hsw, switchTo_current, if_neg (fun h => hcn (Option.some.inj h).symm), switchTo_state,
      if_neg hcn]
    simp

/-- A switch makes a running process the current one. -/
theorem switchTo_awake (s : Sched) (next : Fin maxProcs) : Awake (switchTo s next) := by
  intro c hc
  obtain rfl : next = c := Option.some.inj hc
  rw [switchTo_state, if_pos rfl]
  decide

theorem schedule_blocksOnly (s : Sched) : BlocksOnly s (schedule s) none := by
  refine ⟨schedule_rescheduled s, fun i _ => (schedule_blocked s i).mp, fun ha => ?_⟩
  rcases schedule_cases s with ⟨he, _⟩ | ⟨next, _, _, _, he⟩
  · rwa [he]
  · exact he ▸ switchTo_awake s next

/-- `task_block` blocks at most its caller, and never leaves it the current process. -/
theorem taskBlock_blocksOnly (s : Sched) : BlocksOnly s (taskBlock s) s.current := by
  refine ⟨taskBlock_rescheduled s, fun i hi => (taskBlock_blocked hi).mp, fun ha => ?_⟩
  unfold taskBlock
  cases hc : s.current with
  | none => exact ha
  | some c =>
    dsimp only
    rcases schedule_cases (s.setState c .blocked) with ⟨he, _⟩ | ⟨next, _, hne, _, he⟩
    · rw [he, if_pos (by simpa using hc)]
      simp only [Sched.setState_same, if_true]
      intro i hi
      obtain rfl : c = i := Option.some.inj (hc.symm.trans hi)
      simp
    · rw [he, switchTo_current, if_neg (fun h => hne (hc.trans h.symm))]
      exact switchTo_awake _ next

theorem schedTick_blocksOnly (s : Sched) (now : BitVec 64) :
    BlocksOnly s (schedTick s now) none := by
  unfold schedTick
  split
  · have hw := (schedCheckWakeups_woken s now).blocksOnly
    have hs := schedule_blocksOnly (schedCheckWakeups s now)
    exact ⟨hw.resched.trans hs.resched, fun i hi hb => hw.blocked i hi (hs.blocked i hi hb),
      fun ha => hs.awake (hw.awake ha)⟩
  · exact ⟨.refl s, fun _ _ hb => hb, id⟩

/-- The search by pid finds the slot of a process in use. -/
theorem TableOk.findByPid {s : Sched} {i : Fin maxProcs} (h : TableOk s)
    (hi : (s.procs i).state ≠ .free) : schedFindByPid s (s.procs i).pid = some i := by
  cases hf : schedFindByPid s (s.procs i).pid with
  | none => exact absurd rfl (schedFindByPid_none hf i hi)
  | some j =>
    obtain ⟨_, hj⟩ := schedFindByPid_some hf
    rw [h.pid_inj i j (h.pid_pos i hi) hj.symm]

/-- A wakeup by pid reaches its process. -/
theorem taskUnblockPid_awake {s : Sched} {i : Fin maxProcs} (h : TableOk s)
    (hi : (s.procs i).state ≠ .free) :
    ((taskUnblockPid s (s.procs i).pid).procs i).state ≠ .blocked := by
  rw [taskUnblockPid, h.findByPid hi]
  dsimp only [taskUnblock]
  split
  · simp
  case isFalse hb => exact hb

-- ---------------------------------------------------------------------------
-- Signals
-- ---------------------------------------------------------------------------

/-- `signal_kill(pid, sig)` posts a signal to the process in slot `i`. -/
def Signals (s : Sched) (pid sig : Int) (i : Fin maxProcs) : Prop :=
  (0 < sig ∧ sig < maxSignals) ∧
    if 0 < pid then schedFindByPid s pid = some i
    else (s.procs i).state ≠ .free ∧ (s.procs i).state ≠ .zombie

instance (s : Sched) (pid sig : Int) (i : Fin maxProcs) : Decidable (Signals s pid sig i) :=
  inferInstanceAs (Decidable (_ ∧ _))

theorem postSignal_ne {s : Sched} {i j : Fin maxProcs} (sig : Nat) (h : j ≠ i) :
    (postSignal s i sig).procs j = s.procs j := by
  unfold postSignal
  dsimp only
  split
  · rw [Sched.setState_ne _ h, Sched.modify_ne _ h]
  · rw [Sched.modify_ne _ h]

/-- A process that gets no signal stays blocked. -/
theorem signalKill_blocked {s : Sched} {i : Fin maxProcs} {pid sig : Int}
    (hb : (s.procs i).state = .blocked) (hno : ¬ Signals s pid sig i) :
    (((signalKill s pid sig).1.procs i).state) = .blocked := by
  unfold signalKill
  split
  · exact hb
  case isFalse hrange =>
    split
    case isTrue hpid =>
      split
      · exact hb
      case h_2 j hf =>
        split
        · exact hb
        case isFalse hsig =>
          have hij : i ≠ j := by
            rintro rfl
            exact hno ⟨by omega, by rw [if_pos hpid]; exact hf⟩
          rw [postSignal_ne _ hij]
          exact hb
    case isFalse hpid =>
      by_cases hsig : sig = 0
      · have hsame : (s.forProcs fun s i =>
            if (s.procs i).state ≠ .free ∧ (s.procs i).state ≠ .zombie then
              if sig ≠ 0 then postSignal s i sig.toNat else s
            else s) = s := by
          refine Sched.forProcs_ind (P := fun s' => s' = s) (fun s' i h => ?_) rfl
          simp [hsig, h]
        rw [hsame]
        exact hb
      · refine absurd ⟨by omega, ?_⟩ hno
        rw [if_neg hpid, hb]
        decide

-- ---------------------------------------------------------------------------
-- Two processes
-- ---------------------------------------------------------------------------

/-- Init, the current process, and its child. -/
def forkedSched : Sched := (initKernel.step (.fork 0x5000 default)).sched

theorem forkedSched_tableOk : TableOk forkedSched := by
  obtain ⟨c, hc⟩ := initKernel_started.initAlone
  exact Kernel.step_tableOk hc.tableOk _

theorem forkedSched_awake : Awake forkedSched := by
  unfold Awake
  decide +kernel

end Lestra
