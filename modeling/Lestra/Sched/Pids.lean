import Lestra.Mm.Teardown
import Lestra.Sched.Steps

/-!
# Pids

* `Started`, `InitAlone` — the state in which the first process starts
* `TableOk` — every pid was handed out once, and the current slot is in use
* `Kernel.step_tableOk` — every operation keeps this
-/

namespace Lestra

-- ---------------------------------------------------------------------------
-- The first process
-- ---------------------------------------------------------------------------

/-- `k` is the state in which the first process starts: `sched_init`, then
`sched_start_first`. -/
def Started (k : Kernel) : Prop :=
  ∃ k₀ name elf kstack stack, k₀.sched = schedInit ∧
    schedStartFirst k₀ name elf kstack stack = some k

/-- The table with init alone. -/
structure InitAlone (s : Sched) (c : Fin maxProcs) : Prop where
  current : s.current = some c
  enabled : s.schedulerEnabled = true
  nextPid : s.nextPid = 2
  state : (s.procs c).state = .running
  pid : (s.procs c).pid = 1
  parentPid : (s.procs c).parentPid = 0
  uid : (s.procs c).uid = 0
  gid : (s.procs c).gid = 0
  others : ∀ i, i ≠ c → s.procs i = zeroProcess

theorem Started.initAlone {k : Kernel} (h : Started k) : ∃ c, InitAlone k.sched c := by
  obtain ⟨k₀, name, elf, kstack, stack, h₀, hs⟩ := h
  unfold schedStartFirst at hs
  rcases procCreate_cases k₀ name elf kstack with he | ⟨c, hsp, ⟨he, _⟩ | ⟨he, hr⟩⟩
  · simp [he] at hs
  · simp [he] at hs
  · generalize hk : procCreate k₀ name elf kstack = r at hs he hr hsp
    have hpid : r.2 = 1 := by rw [he, h₀]; rfl
    dsimp only at hs
    rw [if_neg (by omega)] at hs
    have hothers : ∀ i, i ≠ c → r.1.sched.procs i = zeroProcess := by
      intro i hi
      rw [hsp.same i hi, h₀]
      rfl
    have hfind : schedFindByPid r.1.sched r.2 = some c := by
      cases hf : schedFindByPid r.1.sched r.2 with
      | none =>
        have hne := schedFindByPid_none hf c (by rw [hr]; decide)
        rw [hsp.pid, he] at hne
        exact absurd rfl hne
      | some i =>
        have hi := (schedFindByPid_some hf).1
        by_cases hic : i = c
        · rw [hic]
        · rw [hothers i hic] at hi
          exact absurd rfl hi
    rw [hfind] at hs
    obtain rfl := Option.some.inj hs
    refine ⟨c, rfl, rfl, ?_, ?_, ?_, ?_, ?_, ?_, ?_⟩
    · show r.1.sched.nextPid = 2
      rw [hsp.nextPid, h₀]
      rfl
    · simp
    · simp [hsp.pid, h₀, schedInit]
    · simp [hsp.parentPid (by rw [h₀]; simp [schedInit]), h₀, procGetpid, schedInit]
    · simp [hsp.uid]
    · simp [hsp.gid]
    · intro i hi
      simpa [hi] using hothers i hi

/-- A kernel that has just loaded init. -/
def bootKernel : Kernel where
  machine := bareMachine
  bootPml4 := 20
  sched := schedInit
  pipes := pipeInit

def initImage : ElfLoad where
  machine := bareMachine
  image := some (0x400000#64, 20, 0x7FFFFFDFFFF0#64)

/-- The same when init starts. -/
def initKernel : Kernel :=
  (schedStartFirst bootKernel [105, 110, 105, 116] initImage 0x9000 0x8000).getD bootKernel

theorem initKernel_started : Started initKernel := by
  obtain ⟨k, hk⟩ : ∃ k, schedStartFirst bootKernel [105, 110, 105, 116] initImage 0x9000 0x8000 =
      some k := Option.isSome_iff_exists.mp (by decide)
  refine ⟨bootKernel, [105, 110, 105, 116], initImage, 0x9000, 0x8000, rfl, ?_⟩
  rw [initKernel, hk]
  rfl

theorem initKernel_machine : initKernel.machine = bareMachine ∧ initKernel.bootPml4 = 20 :=
  ⟨rfl, rfl⟩

/-- Beside init there is a free slot. -/
theorem InitAlone.exists_free {s : Sched} {c : Fin maxProcs} (h : InitAlone s c) :
    ∃ i, i ≠ c ∧ (s.procs i).state = .free := by
  obtain ⟨i, hi⟩ : ∃ i : Fin maxProcs, i ≠ c := by
    by_cases h0 : c = ⟨0, by decide⟩
    · exact ⟨⟨1, by decide⟩, by rw [h0]; decide⟩
    · exact ⟨⟨0, by decide⟩, fun he => h0 he.symm⟩
  exact ⟨i, hi, by rw [h.others i hi]; rfl⟩

/-- On the small machine a fork succeeds as long as there is a free slot. -/
theorem procFork_small {k : Kernel} {cur i : Fin maxProcs}
    (hm : k.machine = bareMachine ∧ k.bootPml4 = 20) (hcur : k.sched.current = some cur)
    (hrun : (k.sched.procs cur).state ≠ .free) (hfree : (k.sched.procs i).state = .free) :
    ∃ j, (procFork k 0x5000 default).2 = k.sched.nextPid ∧
      Spawned k.sched (procFork k 0x5000 default).1.sched j ∧
      ((procFork k 0x5000 default).1.sched.procs j).state = .runnable := by
  obtain ⟨j, hj⟩ := findFreeProc_exists hfree
  have hpml4 : (createUserAddressSpace k.machine k.bootPml4).2 ≠ 0 := by
    rw [hm.1, hm.2, createUserAddressSpace_frame bareMachine_grants]
    decide
  have hne : cur ≠ j := by
    rintro rfl
    exact hrun (findFreeProc_some hj)
  exact ⟨j, procFork_created hcur hj hne hpml4 (by decide)⟩

-- ---------------------------------------------------------------------------
-- Unique pids
-- ---------------------------------------------------------------------------

/-- Every pid was handed out once, to one slot; a parent is older than its children. -/
structure TableOk (s : Sched) : Prop where
  nextPid_pos : 0 < s.nextPid
  pid_lt : ∀ i, (s.procs i).pid < s.nextPid
  pid_pos : ∀ i, (s.procs i).state ≠ .free → 0 < (s.procs i).pid
  pid_inj : ∀ i j, 0 < (s.procs i).pid → (s.procs i).pid = (s.procs j).pid → i = j
  parent_lt : ∀ i, (s.procs i).state ≠ .free → (s.procs i).parentPid < (s.procs i).pid
  current : ∃ c, s.current = some c ∧ (s.procs c).state ≠ .free

theorem InitAlone.tableOk {s : Sched} {c : Fin maxProcs} (h : InitAlone s c) : TableOk s := by
  have hnext := h.nextPid
  have hpid := h.pid
  have hslot : ∀ i, i = c ∨ (s.procs i).pid = 0 ∧ (s.procs i).state = .free := by
    intro i
    by_cases hi : i = c
    · exact .inl hi
    · exact .inr (by rw [h.others i hi]; exact ⟨rfl, rfl⟩)
  refine ⟨by omega, fun i => ?_, fun i hi => ?_, fun i j hi hij => ?_, fun i hi => ?_,
    c, h.current, by rw [h.state]; decide⟩
  · rcases hslot i with rfl | ⟨h0, _⟩ <;> omega
  · rcases hslot i with rfl | ⟨_, hf⟩
    · omega
    · exact absurd hf hi
  · rcases hslot i with rfl | ⟨h0, _⟩
    · rcases hslot j with rfl | ⟨h0, _⟩
      · rfl
      · omega
    · omega
  · rcases hslot i with rfl | ⟨_, hf⟩
    · rw [h.parentPid]
      omega
    · exact absurd hf hi

namespace TableOk

variable {s s' : Sched}

theorem rescheduled (h : TableOk s) (hr : Rescheduled s s') : TableOk s' := by
  obtain ⟨c, hc, hcf⟩ := h.current
  have hnonfree : ∀ i, (s'.procs i).state ≠ .free → (s.procs i).state ≠ .free := by
    intro i hi hf
    by_cases hic : s.current = some i
    · obtain rfl : c = i := Option.some.inj (hc.symm.trans hic)
      exact hcf hf
    · exact hi (hr.stays i hic hf)
  refine ⟨?_, fun i => ?_, fun i hi => ?_, fun i j hi hij => ?_, fun i hi => ?_, ?_⟩
  · rw [hr.nextPid]
    exact h.nextPid_pos
  · rw [hr.nextPid, (hr.alike i).pid]
    exact h.pid_lt i
  · rw [(hr.alike i).pid]
    exact h.pid_pos i (hnonfree i hi)
  · rw [(hr.alike i).pid] at hi hij
    rw [(hr.alike j).pid] at hij
    exact h.pid_inj i j hi hij
  · rw [(hr.alike i).pid, (hr.alike i).parentPid]
    exact h.parent_lt i (hnonfree i hi)
  · rcases hr.current with he | ⟨i, hi, hl⟩
    · exact ⟨c, he.trans hc, fun hf => hcf (hr.free c hf)⟩
    · exact ⟨i, hi, hl.1⟩

theorem reaped {c i : Fin maxProcs} (h : TableOk s) (hr : Reaped s s' c i) : TableOk s' := by
  have hpid : ∀ j, (s'.procs j).pid = (s.procs j).pid := by
    intro j
    by_cases hj : j = i
    · rw [hj, hr.pid]
    · rw [hr.same j hj]
  have hslot : ∀ j, (s'.procs j).state ≠ .free → s'.procs j = s.procs j := by
    intro j hj
    by_cases hji : j = i
    · rw [hji] at hj
      exact absurd hr.freed hj
    · exact hr.same j hji
  -- the caller is older than its child, so it is another slot
  have hne : c ≠ i := by
    rintro rfl
    have := h.parent_lt c (by rw [hr.zombie]; decide)
    rw [hr.child] at this
    omega
  obtain ⟨c', hc', hcf⟩ := h.current
  obtain rfl : c' = c := Option.some.inj (hc'.symm.trans hr.current)
  refine ⟨?_, fun j => ?_, fun j hj => ?_, fun j l hj hjl => ?_, fun j hj => ?_,
    c', hr.current_eq.trans hc', by rwa [hr.same c' hne]⟩
  · rw [hr.nextPid]
    exact h.nextPid_pos
  · rw [hr.nextPid, hpid]
    exact h.pid_lt j
  · rw [hpid]
    exact h.pid_pos j (hslot j hj ▸ hj)
  · rw [hpid] at hj hjl
    rw [hpid] at hjl
    exact h.pid_inj j l hj hjl
  · have := hslot j hj
    rw [this] at hj ⊢
    exact h.parent_lt j hj

theorem settled (h : TableOk s) (hs : Settled s s') : TableOk s' :=
  hs.ind (fun _ _ hr h => h.rescheduled hr) (fun _ _ _ _ hr h => h.reaped hr) h

theorem current_ne {c : Fin maxProcs} (h : TableOk s) (hc : (s.procs c).state = .free) :
    s.current ≠ some c := by
  obtain ⟨c', hc', hcf⟩ := h.current
  rintro he
  obtain rfl : c' = c := Option.some.inj (hc'.symm.trans he)
  exact hcf hc

theorem procGetpid_pos (h : TableOk s) : 0 < procGetpid s ∧ procGetpid s < s.nextPid := by
  obtain ⟨c, hc, hcf⟩ := h.current
  unfold procGetpid
  rw [hc]
  exact ⟨h.pid_pos c hcf, h.pid_lt c⟩

theorem spawned {c : Fin maxProcs} (h : TableOk s) (hs : Spawned s s' c) : TableOk s' := by
  have hcur := h.current_ne hs.free
  have hget := h.procGetpid_pos
  have hnext := hs.nextPid
  have hpid := hs.pid
  refine ⟨by have := h.nextPid_pos; omega, fun i => ?_, fun i hi => ?_, fun i j hi hij => ?_,
    fun i hi => ?_, ?_⟩
  · by_cases hic : i = c
    · rw [hic]
      omega
    · rw [hs.same i hic]
      have := h.pid_lt i
      omega
  · by_cases hic : i = c
    · rw [hic, hpid]
      exact h.nextPid_pos
    · rw [hs.same i hic] at hi ⊢
      exact h.pid_pos i hi
  · by_cases hic : i = c <;> by_cases hjc : j = c
    · rw [hic, hjc]
    · have := h.pid_lt j
      rw [hic, hpid, hs.same j hjc] at hij
      omega
    · have := h.pid_lt i
      rw [hjc, hpid, hs.same i hic] at hij
      omega
    · rw [hs.same i hic] at hi hij
      rw [hs.same j hjc] at hij
      exact h.pid_inj i j hi hij
  · by_cases hic : i = c
    · rw [hic, hs.parentPid hcur, hpid]
      exact hget.2
    · rw [hs.same i hic] at hi ⊢
      exact h.parent_lt i hi
  · obtain ⟨c', hc', hcf⟩ := h.current
    have hne : c' ≠ c := fun he => hcur (he ▸ hc')
    exact ⟨c', hs.current.trans hc', by rwa [hs.same c' hne]⟩

theorem buried {c : Fin maxProcs} (h : TableOk s) (hc : s.current = some c)
    (hb : Buried s s' c) : TableOk s' := by
  obtain ⟨c', hc', hcf⟩ := h.current
  obtain rfl : c' = c := Option.some.inj (hc'.symm.trans hc)
  have hnonfree : ∀ i, (s'.procs i).state ≠ .free → (s.procs i).state ≠ .free := by
    intro i hi hf
    by_cases hic : i = c'
    · rw [hic] at hf
      exact hcf hf
    · rcases hb.state i hic with he | ⟨hbl, _⟩
      · exact hi (he.trans hf)
      · rw [hf] at hbl
        cases hbl
  refine ⟨?_, fun i => ?_, fun i hi => ?_, fun i j hi hij => ?_, fun i hi => ?_,
    c', hb.current.trans hc, by rw [hb.zombie]; decide⟩
  · rw [hb.nextPid]
    exact h.nextPid_pos
  · rw [hb.nextPid, hb.pid]
    exact h.pid_lt i
  · rw [hb.pid]
    exact h.pid_pos i (hnonfree i hi)
  · rw [hb.pid] at hi hij
    rw [hb.pid] at hij
    exact h.pid_inj i j hi hij
  · have hlt := h.parent_lt i (hnonfree i hi)
    have hpos := h.pid_pos c' hcf
    rw [hb.pid, hb.parentPid]
    unfold heirParent
    split
    case isTrue hp =>
      rw [hp.2] at hlt
      omega
    case isFalse => exact hlt

/-- Changing other fields does not touch pids or states. -/
theorem modify {c : Fin maxProcs} {f : Process → Process} (h : TableOk s)
    (hpid : ∀ p, (f p).pid = p.pid) (hparent : ∀ p, (f p).parentPid = p.parentPid)
    (hstate : ∀ p, (f p).state = p.state) : TableOk (s.modify c f) := by
  have hslot : ∀ i, ((s.modify c f).procs i).pid = (s.procs i).pid ∧
      ((s.modify c f).procs i).parentPid = (s.procs i).parentPid ∧
      ((s.modify c f).procs i).state = (s.procs i).state :=
    fun i => ⟨Sched.modify_field _ hpid i, Sched.modify_field _ hparent i,
      Sched.modify_field _ hstate i⟩
  refine ⟨h.nextPid_pos, fun i => ?_, fun i hi => ?_, fun i j hi hij => ?_, fun i hi => ?_, ?_⟩
  · rw [(hslot i).1]
    exact h.pid_lt i
  · rw [(hslot i).2.2] at hi
    rw [(hslot i).1]
    exact h.pid_pos i hi
  · rw [(hslot i).1] at hi hij
    rw [(hslot j).1] at hij
    exact h.pid_inj i j hi hij
  · rw [(hslot i).2.2] at hi
    rw [(hslot i).1, (hslot i).2.1]
    exact h.parent_lt i hi
  · obtain ⟨c', hc', hcf⟩ := h.current
    exact ⟨c', hc', by rwa [(hslot c').2.2]⟩

theorem setuid {c : Fin maxProcs} {uid : Int} (h : TableOk s) :
    TableOk (s.modify c fun p => { p with uid := uid }) :=
  h.modify (fun _ => rfl) (fun _ => rfl) (fun _ => rfl)

end TableOk

theorem Kernel.step_tableOk {k : Kernel} (h : TableOk k.sched) (op : ProcOp) :
    TableOk (k.step op).sched := by
  by_cases hq : op.settles
  · exact h.settled (k.step_settled hq)
  · cases op with
    | create name elf kstack =>
      rcases procCreate_cases k name elf kstack with he | ⟨c, hs, _⟩
      · simpa [Kernel.step, he] using h
      · exact h.spawned hs
    | fork kstack regs =>
      rcases procFork_cases k kstack regs with he | ⟨c, hs, _⟩
      · simpa [Kernel.step, he] using h
      · exact h.spawned hs
    | exit status =>
      obtain ⟨c, hc, _⟩ := h.current
      obtain ⟨s, hb, he⟩ := procExit_buried hc status
      show TableOk (procExit k status).sched
      rw [he]
      exact (h.buried hc hb).rescheduled (schedule_rescheduled s)
    | setuid uid =>
      show TableOk (sysSetuid k uid).1.sched
      rcases sysSetuid_cases k uid with he | ⟨c, _, _, he⟩
      · rw [he]
        exact h
      · rw [he]
        exact h.setuid
    | _ => simp [ProcOp.settles] at hq

/-- Nothing switches the scheduler off. -/
theorem Kernel.step_enabled {k : Kernel} (h : TableOk k.sched) (op : ProcOp) :
    (k.step op).sched.schedulerEnabled = k.sched.schedulerEnabled := by
  by_cases hq : op.settles
  · refine (k.step_settled hq).ind
      (P := fun s => s.schedulerEnabled = k.sched.schedulerEnabled) ?_ ?_ rfl
    · intro s s' hr he
      exact hr.enabled.trans he
    · intro s s' c i hr he
      exact hr.enabled.trans he
  · cases op with
    | create name elf kstack =>
      rcases procCreate_cases k name elf kstack with he | ⟨c, hs, _⟩
      · simp [Kernel.step, he]
      · exact hs.enabled
    | fork kstack regs =>
      rcases procFork_cases k kstack regs with he | ⟨c, hs, _⟩
      · simp [Kernel.step, he]
      · exact hs.enabled
    | exit status =>
      obtain ⟨c, hc, _⟩ := h.current
      obtain ⟨s, hb, he⟩ := procExit_buried hc status
      show (procExit k status).sched.schedulerEnabled = _
      rw [he, (schedule_rescheduled s).enabled, hb.enabled]
    | setuid uid =>
      show (sysSetuid k uid).1.sched.schedulerEnabled = _
      rcases sysSetuid_cases k uid with he | ⟨c, _, _, he⟩
      · rw [he]
      · rw [he]
        rfl
    | _ => simp [ProcOp.settles] at hq

end Lestra
