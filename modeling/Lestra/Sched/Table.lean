import Lestra.Sched.Schedule

/-!
# What scheduling does to the process table

* `pickNext_spec` — the search finds a runnable slot of the best priority
* `schedule_cases` — `schedule` does nothing or switches to a runnable slot
* `Rescheduled` — the table after any of the operations that only block, wake and
  switch: every process keeps its identity and every live process stays alive
-/

namespace Lestra

/-- Neither free nor a zombie. -/
def Process.Live (p : Process) : Prop := p.state ≠ .free ∧ p.state ≠ .zombie

instance (p : Process) : Decidable p.Live := inferInstanceAs (Decidable (_ ∧ _))

namespace Sched

variable {s : Sched} {i j : Fin maxProcs}

@[simp] theorem modify_same (f : Process → Process) :
    (s.modify i f).procs i = f (s.procs i) := Function.update_self ..

@[simp] theorem modify_ne (f : Process → Process) (h : j ≠ i) :
    (s.modify i f).procs j = s.procs j := Function.update_of_ne h ..

/-- What the update leaves alone stays in every slot. -/
theorem modify_field {β : Type} {f : Process → Process} (g : Process → β)
    (hg : ∀ p, g (f p) = g p) (j : Fin maxProcs) :
    g ((s.modify i f).procs j) = g (s.procs j) := by
  by_cases h : j = i
  · subst h
    rw [modify_same, hg]
  · rw [modify_ne _ h]

@[simp] theorem modify_current (f : Process → Process) :
    (s.modify i f).current = s.current := rfl

@[simp] theorem modify_nextPid (f : Process → Process) :
    (s.modify i f).nextPid = s.nextPid := rfl

@[simp] theorem modify_enabled (f : Process → Process) :
    (s.modify i f).schedulerEnabled = s.schedulerEnabled := rfl

@[simp] theorem setState_current (st : ProcState) : (s.setState i st).current = s.current := rfl

@[simp] theorem setState_nextPid (st : ProcState) : (s.setState i st).nextPid = s.nextPid := rfl

@[simp] theorem setState_enabled (st : ProcState) :
    (s.setState i st).schedulerEnabled = s.schedulerEnabled := rfl

@[simp] theorem setState_same (st : ProcState) :
    (s.setState i st).procs i = { s.procs i with state := st } := modify_same _

@[simp] theorem setState_ne (st : ProcState) (h : j ≠ i) :
    (s.setState i st).procs j = s.procs j := modify_ne _ h

theorem setState_state (st : ProcState) :
    ((s.setState i st).procs j).state = if j = i then st else (s.procs j).state := by
  by_cases h : j = i
  · subst h
    simp
  · simp [h]

/-- An invariant of the loop body is one of the loop over the table. -/
theorem forProcs_ind {P : Sched → Prop} {f : Sched → Fin maxProcs → Sched}
    (hf : ∀ s i, P s → P (f s i)) (hs : P s) : P (s.forProcs f) := by
  unfold forProcs
  generalize List.finRange maxProcs = is
  induction is generalizing s with
  | nil => exact hs
  | cons i is ih => exact ih (hf s i hs)

/-- A loop whose body changes the slot it looks at changes every slot once. -/
theorem forProcs_map {f : Sched → Fin maxProcs → Sched} {g : Process → Process}
    (hf : ∀ s i, f s i = s.modify i g) (s : Sched) :
    s.forProcs f = { s with procs := fun i => g (s.procs i) } := by
  have key : ∀ (is : List (Fin maxProcs)) (s : Sched), is.Nodup →
      is.foldl f s = { s with procs := fun i => if i ∈ is then g (s.procs i) else s.procs i } := by
    intro is
    induction is with
    | nil =>
      intro s _
      simp
    | cons i is ih =>
      intro s hnd
      obtain ⟨hi, hnd⟩ := List.nodup_cons.mp hnd
      rw [List.foldl_cons, ih _ hnd, hf]
      simp only [modify, Sched.mk.injEq, and_true]
      funext j
      by_cases hj : j = i
      · subst hj
        simp [hi]
      · simp [hj]
  rw [forProcs, key _ s (List.nodup_finRange maxProcs)]
  simp

end Sched

-- ---------------------------------------------------------------------------
-- Searching
-- ---------------------------------------------------------------------------

theorem schedFindByPid_some {s : Sched} {pid : Int} {i : Fin maxProcs}
    (h : schedFindByPid s pid = some i) : (s.procs i).state ≠ .free ∧ (s.procs i).pid = pid := by
  simpa using List.find?_some h

theorem schedFindByPid_none {s : Sched} {pid : Int} (h : schedFindByPid s pid = none)
    (i : Fin maxProcs) (hi : (s.procs i).state ≠ .free) : (s.procs i).pid ≠ pid := by
  have := List.find?_eq_none.mp h i (List.mem_finRange i)
  simp only [decide_eq_true_eq, not_and] at this
  exact this hi

theorem schedFindByPid_congr {s s' : Sched}
    (h : ∀ i, ((s'.procs i).state = .free ↔ (s.procs i).state = .free) ∧
      (s'.procs i).pid = (s.procs i).pid) (pid : Int) :
    schedFindByPid s' pid = schedFindByPid s pid := by
  unfold schedFindByPid
  congr 1
  funext i
  simp only [ne_eq, (h i).1, (h i).2]

theorem mem_scanOrder (current : Option (Fin maxProcs)) (i : Fin maxProcs) :
    i ∈ scanOrder current := by
  have key : ∀ start ≤ maxProcs, ∃ k < maxProcs, (start + k) % maxProcs = i.val := by
    intro start hstart
    have hi := i.isLt
    rcases Nat.lt_or_ge i.val start with h | h
    · refine ⟨maxProcs + i.val - start, by omega, ?_⟩
      rw [show start + (maxProcs + i.val - start) = i.val + maxProcs by omega,
        Nat.add_mod_right, Nat.mod_eq_of_lt hi]
    · refine ⟨i.val - start, by omega, ?_⟩
      rw [Nat.add_sub_cancel' h, Nat.mod_eq_of_lt hi]
  unfold scanOrder
  cases current with
  | none =>
    obtain ⟨k, hk, he⟩ := key 0 (Nat.zero_le _)
    exact List.mem_map.mpr ⟨k, List.mem_range.mpr hk, Fin.ext he⟩
  | some c =>
    obtain ⟨k, hk, he⟩ := key (c.val + 1) c.isLt
    exact List.mem_map.mpr ⟨k, List.mem_range.mpr hk, Fin.ext he⟩

/-- What the loop of `pick_next` knows after it has visited the slots of `is`. -/
structure Picked (procs : Fin maxProcs → Process) (seen : Fin maxProcs → Prop)
    (best : Option (Fin maxProcs)) : Prop where
  none : best = none → ∀ j, seen j → (procs j).state ≠ .runnable
  some : ∀ i, best = some i → (procs i).state = .runnable ∧
    ∀ j, seen j → (procs j).state = .runnable → (procs i).priority ≤ (procs j).priority

theorem pickBetter_picked {procs : Fin maxProcs → Process} {seen : Fin maxProcs → Prop}
    {best : Option (Fin maxProcs)} (h : Picked procs seen best) (idx : Fin maxProcs) :
    Picked procs (fun j => seen j ∨ j = idx) (pickBetter procs best idx) := by
  unfold pickBetter
  split
  case isTrue hidx =>
    refine ⟨?_, ?_⟩
    · rintro hb j (hj | rfl)
      exacts [h.none hb j hj, hidx]
    · intro i hi
      refine ⟨(h.some i hi).1, ?_⟩
      rintro j (hj | rfl) hr
      exacts [(h.some i hi).2 j hj hr, absurd hr hidx]
  case isFalse hidx =>
    have hidx : (procs idx).state = .runnable := not_not.mp hidx
    cases best with
    | none =>
      refine ⟨by simp, ?_⟩
      intro i hi
      obtain rfl : idx = i := by simpa using hi
      refine ⟨hidx, ?_⟩
      rintro j (hj | rfl) hr
      exacts [absurd hr (h.none rfl j hj), Int.le_refl _]
    | some b =>
      obtain ⟨hb, hle⟩ := h.some b rfl
      by_cases hlt : (procs idx).priority < (procs b).priority
      · simp only [if_pos hlt]
        refine ⟨by simp, ?_⟩
        intro i hi
        obtain rfl : idx = i := by simpa using hi
        refine ⟨hidx, ?_⟩
        rintro j (hj | rfl) hr
        · have := hle j hj hr
          omega
        · exact Int.le_refl _
      · simp only [if_neg hlt]
        refine ⟨by simp, ?_⟩
        intro i hi
        obtain rfl : b = i := by simpa using hi
        refine ⟨hb, ?_⟩
        rintro j (hj | rfl) hr
        · exact hle j hj hr
        · omega

theorem pickBetter_foldl {procs : Fin maxProcs → Process} {seen : Fin maxProcs → Prop}
    {best : Option (Fin maxProcs)} (h : Picked procs seen best) (is : List (Fin maxProcs)) :
    Picked procs (fun j => seen j ∨ j ∈ is) (is.foldl (pickBetter procs) best) := by
  induction is generalizing seen best with
  | nil => simpa using h
  | cons idx is ih =>
    have := ih (pickBetter_picked h idx)
    simpa only [List.foldl_cons, List.mem_cons, or_assoc] using this

/-- **The search of the scheduler.** It finds a runnable slot of the best
priority, and none only when no slot is runnable. -/
theorem pickNext_spec (s : Sched) : Picked s.procs (fun _ => True) (pickNext s) := by
  have h : Picked s.procs (fun _ => False) none := ⟨fun _ _ h => h.elim, by simp⟩
  simpa [pickNext, mem_scanOrder] using pickBetter_foldl h (scanOrder s.current)

/-- `schedule` leaves the state alone or switches to a runnable slot. -/
theorem schedule_cases (s : Sched) :
    (schedule s = s ∧ (s.schedulerEnabled = true →
      (∀ j, (s.procs j).state ≠ .runnable) ∨
        ∃ c, s.current = some c ∧ (s.procs c).state = .runnable)) ∨
    ∃ next, s.schedulerEnabled = true ∧ s.current ≠ some next ∧
      (s.procs next).state = .runnable ∧ schedule s = switchTo s next := by
  have hspec := pickNext_spec s
  unfold schedule
  by_cases he : s.schedulerEnabled = true
  · simp only [he, Bool.not_true, Bool.false_eq_true, if_false]
    cases hp : pickNext s with
    | none => exact .inl ⟨rfl, fun _ => .inl fun j => hspec.none hp j trivial⟩
    | some next =>
      have hr := (hspec.some next hp).1
      by_cases hc : s.current = some next
      · exact .inl ⟨if_pos hc, fun _ => .inr ⟨next, hc, hr⟩⟩
      · exact .inr ⟨next, trivial, hc, hr, if_neg hc⟩
  · exact .inl ⟨if_pos (by simpa using he), fun h => absurd h he⟩

/-- The states after a switch. -/
theorem switchTo_state (s : Sched) (next j : Fin maxProcs) :
    ((switchTo s next).procs j).state =
      if j = next then .running
      else if s.current = some j ∧ (s.procs j).state = .running then .runnable
      else (s.procs j).state := by
  unfold switchTo preempt
  rw [Sched.setState_state]
  refine if_congr Iff.rfl rfl ?_
  cases hc : s.current with
  | none => simp
  | some prev =>
    by_cases hj : j = prev
    · subst hj
      by_cases hr : (s.procs j).state = .running <;> simp [hr]
    · have hne : ¬ prev = j := fun h => hj h.symm
      by_cases hr : (s.procs prev).state = .running <;> simp [hr, hj, hne]

/-- `schedule` moves processes between runnable and running only. -/
theorem schedule_state (s : Sched) (i : Fin maxProcs) {st : ProcState} (hr : st ≠ .running)
    (hw : st ≠ .runnable) :
    ((schedule s).procs i).state = st ↔ (s.procs i).state = st := by
  rcases schedule_cases s with ⟨he, _⟩ | ⟨next, _, _, hnext, he⟩
  · rw [he]
  · rw [he, switchTo_state]
    split
    case isTrue hi =>
      rw [hi, hnext]
      exact iff_of_false hr.symm hw.symm
    case isFalse =>
      split
      case isTrue hrun =>
        rw [hrun.2]
        exact iff_of_false hw.symm hr.symm
      case isFalse => exact Iff.rfl

@[simp] theorem switchTo_current (s : Sched) (next : Fin maxProcs) :
    (switchTo s next).current = some next := rfl

-- ---------------------------------------------------------------------------
-- Identity of processes
-- ---------------------------------------------------------------------------

/-- `q` is the process `p`, in whatever state. -/
structure Process.Alike (p q : Process) : Prop where
  pid : q.pid = p.pid
  parentPid : q.parentPid = p.parentPid
  uid : q.uid = p.uid
  gid : q.gid = p.gid
  fds : q.fds = p.fds
  exitStatus : q.exitStatus = p.exitStatus

theorem Process.Alike.refl (p : Process) : p.Alike p := ⟨rfl, rfl, rfl, rfl, rfl, rfl⟩

theorem Process.Alike.trans {p q r : Process} (h : p.Alike q) (h' : q.Alike r) : p.Alike r :=
  ⟨h'.pid.trans h.pid, h'.parentPid.trans h.parentPid, h'.uid.trans h.uid, h'.gid.trans h.gid,
    h'.fds.trans h.fds, h'.exitStatus.trans h.exitStatus⟩

/-- The table after blocking, waking and switching. Only the current process may
come back from the dead: it can block without having been alive. -/
structure Rescheduled (s s' : Sched) : Prop where
  alike : ∀ i, (s.procs i).Alike (s'.procs i)
  nextPid : s'.nextPid = s.nextPid
  live : ∀ i, (s.procs i).Live → (s'.procs i).Live
  dead : ∀ i, s.current ≠ some i → (s'.procs i).Live → (s.procs i).Live
  free : ∀ i, (s'.procs i).state = .free → (s.procs i).state = .free
  stays : ∀ i, s.current ≠ some i → (s.procs i).state = .free → (s'.procs i).state = .free
  current : s'.current = s.current ∨ ∃ i, s'.current = some i ∧ (s'.procs i).Live
  enabled : s'.schedulerEnabled = s.schedulerEnabled

namespace Rescheduled

theorem refl (s : Sched) : Rescheduled s s where
  alike _ := .refl _
  nextPid := rfl
  live _ h := h
  dead _ _ h := h
  free _ h := h
  stays _ _ h := h
  current := .inl rfl
  enabled := rfl

theorem trans {s s' s'' : Sched} (h : Rescheduled s s') (h' : Rescheduled s' s'') :
    Rescheduled s s'' := by
  -- a slot that is not current before and current in between has become so by a switch
  have hcur : ∀ i, s.current ≠ some i → s'.current = some i → (s'.procs i).Live := by
    intro i hi hi'
    rcases h.current with he | ⟨j, hj, hl⟩
    · exact absurd (he ▸ hi') hi
    · obtain rfl : j = i := Option.some.inj (hj.symm.trans hi')
      exact hl
  refine ⟨fun i => (h.alike i).trans (h'.alike i), h'.nextPid.trans h.nextPid,
    fun i hi => h'.live i (h.live i hi), ?_, fun i hi => h.free i (h'.free i hi), ?_, ?_,
    h'.enabled.trans h.enabled⟩
  · intro i hi hl
    by_cases hi' : s'.current = some i
    · exact h.dead i hi (hcur i hi hi')
    · exact h.dead i hi (h'.dead i hi' hl)
  · intro i hi hf
    have hf' := h.stays i hi hf
    exact h'.stays i (fun hi' => (hcur i hi hi').1 hf') hf'
  · rcases h'.current with he | ⟨j, hj, hl⟩
    · rcases h.current with he' | ⟨j, hj, hl⟩
      · exact .inl (he.trans he')
      · exact .inr ⟨j, he.trans hj, h'.live j hl⟩
    · exact .inr ⟨j, hj, hl⟩

/-- Changing fields that are not part of the identity, and the state between
states of a live process. -/
theorem modify {s : Sched} {i : Fin maxProcs} {f : Process → Process}
    (ha : (s.procs i).Alike (f (s.procs i)))
    (hs : (f (s.procs i)).state = (s.procs i).state ∨
      (f (s.procs i)).Live ∧ (s.current = some i ∨ (s.procs i).Live)) :
    Rescheduled s (s.modify i f) := by
  refine ⟨fun j => ?_, rfl, fun j hj => ?_, fun j hc hj => ?_, fun j hj => ?_,
      fun j hc hj => ?_, .inl rfl, rfl⟩ <;>
    by_cases hji : j = i
  · subst hji
    simpa using ha
  · simpa [hji] using Process.Alike.refl _
  · subst hji
    rw [Sched.modify_same]
    rcases hs with hs | hs
    · unfold Process.Live
      rwa [hs]
    · exact hs.1
  · simpa [hji] using hj
  · subst hji
    rw [Sched.modify_same] at hj
    rcases hs with hs | ⟨_, hs | hs⟩
    · unfold Process.Live at hj
      rwa [hs] at hj
    · exact absurd hs hc
    · exact hs
  · simpa [hji] using hj
  · subst hji
    rw [Sched.modify_same] at hj
    rcases hs with hs | ⟨hl, _⟩
    · exact hs.symm.trans hj
    · exact absurd hj hl.1
  · simpa [hji] using hj
  · subst hji
    rw [Sched.modify_same]
    rcases hs with hs | ⟨_, hs | hs⟩
    · exact hs.trans hj
    · exact absurd hs hc
    · exact absurd hj hs.1
  · simpa [hji] using hj

theorem setState {s : Sched} {i : Fin maxProcs} {st : ProcState} (hst : st ≠ .free ∧ st ≠ .zombie)
    (h : s.current = some i ∨ (s.procs i).Live) : Rescheduled s (s.setState i st) :=
  modify ⟨rfl, rfl, rfl, rfl, rfl, rfl⟩ (.inr ⟨hst, h⟩)

/-- The bookkeeping beside the table does not matter. -/
theorem of_eq {s s' : Sched} (hp : s'.procs = s.procs) (hn : s'.nextPid = s.nextPid)
    (hc : s'.current = s.current) (he : s'.schedulerEnabled = s.schedulerEnabled) :
    Rescheduled s s' := by
  refine ⟨fun i => ?_, hn, fun i => ?_, fun i _ => ?_, fun i => ?_, fun i _ => ?_, .inl hc, he⟩ <;>
    rw [hp]
  · exact .refl _
  all_goals exact id

end Rescheduled

-- ---------------------------------------------------------------------------
-- Waking
-- ---------------------------------------------------------------------------

/-- Some blocked processes became runnable. -/
structure Woken (s s' : Sched) : Prop where
  alike : ∀ i, (s.procs i).Alike (s'.procs i)
  state : ∀ i, (s'.procs i).state = (s.procs i).state ∨
    (s.procs i).state = .blocked ∧ (s'.procs i).state = .runnable
  nextPid : s'.nextPid = s.nextPid
  current : s'.current = s.current
  enabled : s'.schedulerEnabled = s.schedulerEnabled

namespace Woken

theorem refl (s : Sched) : Woken s s := ⟨fun _ => .refl _, fun _ => .inl rfl, rfl, rfl, rfl⟩

theorem trans {s s' s'' : Sched} (h : Woken s s') (h' : Woken s' s'') : Woken s s'' := by
  refine ⟨fun i => (h.alike i).trans (h'.alike i), fun i => ?_, h'.nextPid.trans h.nextPid,
    h'.current.trans h.current, h'.enabled.trans h.enabled⟩
  rcases h.state i with he | ⟨hb, hr⟩
  · rcases h'.state i with he' | ⟨hb', hr'⟩
    · exact .inl (he'.trans he)
    · exact .inr ⟨he ▸ hb', hr'⟩
  · rcases h'.state i with he' | ⟨hb', _⟩
    · exact .inr ⟨hb, he'.trans hr⟩
    · rw [hr] at hb'
      cases hb'

/-- Changing fields that are not part of the identity. -/
theorem modify {s : Sched} {i : Fin maxProcs} {f : Process → Process}
    (ha : (s.procs i).Alike (f (s.procs i)))
    (hs : (f (s.procs i)).state = (s.procs i).state ∨
      (s.procs i).state = .blocked ∧ (f (s.procs i)).state = .runnable) :
    Woken s (s.modify i f) := by
  refine ⟨fun j => ?_, fun j => ?_, rfl, rfl, rfl⟩ <;> by_cases hj : j = i
  · subst hj
    simpa using ha
  · simpa [hj] using Process.Alike.refl _
  · subst hj
    simpa using hs
  · simp [hj]

theorem of_eq {s s' : Sched} (hp : s'.procs = s.procs) (hn : s'.nextPid = s.nextPid)
    (hc : s'.current = s.current) (he : s'.schedulerEnabled = s.schedulerEnabled) :
    Woken s s' := by
  refine ⟨fun i => ?_, fun i => ?_, hn, hc, he⟩ <;> rw [hp]
  · exact .refl _
  · exact .inl rfl

theorem live_iff {s s' : Sched} (h : Woken s s') (i : Fin maxProcs) :
    (s'.procs i).Live ↔ (s.procs i).Live := by
  unfold Process.Live
  rcases h.state i with he | ⟨hb, hr⟩
  · rw [he]
  · rw [hb, hr]
    decide

theorem free_iff {s s' : Sched} (h : Woken s s') (i : Fin maxProcs) :
    (s'.procs i).state = .free ↔ (s.procs i).state = .free := by
  rcases h.state i with he | ⟨hb, hr⟩
  · rw [he]
  · rw [hb, hr]
    decide

theorem rescheduled {s s' : Sched} (h : Woken s s') : Rescheduled s s' where
  alike := h.alike
  nextPid := h.nextPid
  live i := (h.live_iff i).mpr
  dead i _ := (h.live_iff i).mp
  free i := (h.free_iff i).mp
  stays i _ := (h.free_iff i).mpr
  current := .inl h.current
  enabled := h.enabled

end Woken

theorem taskUnblock_woken (s : Sched) (task : Fin maxProcs) : Woken s (taskUnblock s task) := by
  unfold taskUnblock
  split
  case isTrue h => exact .modify ⟨rfl, rfl, rfl, rfl, rfl, rfl⟩ (.inr ⟨h, rfl⟩)
  case isFalse => exact .refl s

theorem taskUnblockPid_woken (s : Sched) (pid : Int) : Woken s (taskUnblockPid s pid) := by
  unfold taskUnblockPid
  split
  · exact .refl s
  · exact taskUnblock_woken s _

theorem postSignal_woken (s : Sched) (i : Fin maxProcs) (sig : Nat) :
    Woken s (postSignal s i sig) := by
  have hpend : Woken s
      (s.modify i fun p => { p with signalPending := p.signalPending ||| sigBit sig }) :=
    .modify ⟨rfl, rfl, rfl, rfl, rfl, rfl⟩ (.inl rfl)
  unfold postSignal
  dsimp only
  split
  case isTrue h =>
    exact hpend.trans (.modify ⟨rfl, rfl, rfl, rfl, rfl, rfl⟩ (.inr ⟨h, rfl⟩))
  case isFalse => exact hpend

theorem signalKill_woken (s : Sched) (pid sig : Int) : Woken s (signalKill s pid sig).1 := by
  unfold signalKill
  split
  · exact .refl s
  · split
    · split
      · exact .refl s
      case h_2 i _ =>
        split
        · exact .refl s
        · exact postSignal_woken s i sig.toNat
    · dsimp only
      refine Sched.forProcs_ind (P := Woken s) ?_ (.refl s)
      intro s' i h
      split
      · split
        · exact h.trans (postSignal_woken s' i _)
        · exact h
      · exact h

theorem checkWakeup_woken (now : BitVec 64) (s : Sched) (i : Fin maxProcs) :
    Woken s (checkWakeup now s i) := by
  unfold checkWakeup
  split
  · exact .refl s
  case isFalse hb =>
    have hwake : Woken s (s.setState i .runnable) :=
      .modify ⟨rfl, rfl, rfl, rfl, rfl, rfl⟩ (.inr ⟨not_not.mp hb, rfl⟩)
    split
    · split
      · exact .refl s
      · split
        · exact hwake.trans (.of_eq rfl rfl rfl rfl)
        · exact .refl s
    · split
      · exact hwake
      · exact .refl s

theorem schedCheckWakeups_woken (s : Sched) (now : BitVec 64) :
    Woken s (schedCheckWakeups s now) :=
  Sched.forProcs_ind (P := Woken s) (fun _ i h => h.trans (checkWakeup_woken now _ i)) (.refl s)

-- ---------------------------------------------------------------------------
-- Blocking and switching
-- ---------------------------------------------------------------------------

theorem switchTo_rescheduled {s : Sched} {next : Fin maxProcs}
    (hr : (s.procs next).state = .runnable) : Rescheduled s (switchTo s next) := by
  have hpre : Rescheduled s (preempt s) := by
    unfold preempt
    split
    · exact .refl s
    · split
      case isTrue h => exact .setState (by decide) (.inr (by unfold Process.Live; rw [h]; decide))
      case isFalse => exact .refl s
  have hlive : ((preempt s).procs next).Live := hpre.live next (by unfold Process.Live; rw [hr]; decide)
  have hcur : Rescheduled (preempt s) { preempt s with current := some next } :=
    ⟨fun i => .refl _, rfl, fun _ h => h, fun _ _ h => h, fun _ h => h, fun _ _ h => h,
      .inr ⟨next, rfl, hlive⟩, rfl⟩
  exact hpre.trans (hcur.trans (.setState (by decide) (.inl rfl)))

theorem schedule_rescheduled (s : Sched) : Rescheduled s (schedule s) := by
  rcases schedule_cases s with ⟨h, _⟩ | ⟨next, _, _, hr, h⟩
  · rw [h]
    exact .refl s
  · rw [h]
    exact switchTo_rescheduled hr

theorem taskBlock_rescheduled (s : Sched) : Rescheduled s (taskBlock s) := by
  unfold taskBlock
  split
  · exact .refl s
  case h_2 c hc =>
    have hblock := (Rescheduled.setState (by decide) (.inl hc)).trans
      (schedule_rescheduled (s.setState c .blocked))
    dsimp only
    split
    case isFalse => exact hblock
    case isTrue hcur =>
      split
      · exact hblock.trans (.setState (by decide) (.inl hcur))
      · exact hblock

theorem sleepTurn_rescheduled {s : Sched} {c : Fin maxProcs} (hc : s.current = some c)
    (now deadline : BitVec 64) : Rescheduled s (sleepTurn s c now deadline) := by
  have hnap : ∀ (s : Sched) d, Rescheduled s (s.setNapping c d) := fun s d => .of_eq rfl rfl rfl rfl
  unfold sleepTurn
  split
  · exact (hnap s none).trans
      (.modify ⟨rfl, rfl, rfl, rfl, rfl, rfl⟩ (.inr ⟨by simp [Process.Live], .inl hc⟩))
  · exact ((Rescheduled.setState (by decide) (.inl hc)).trans (schedule_rescheduled _)).trans
      (hnap _ _)

theorem taskSleep_rescheduled (s : Sched) (now ms : BitVec 64) :
    Rescheduled s (taskSleep s now ms) := by
  unfold taskSleep
  split
  · exact .refl s
  case h_2 c hc =>
    split
    · split
      · exact schedule_rescheduled s
      · exact .refl s
    · have hwake : Rescheduled s (s.modify c fun p => { p with wakeTick := now + ms }) :=
        .modify ⟨rfl, rfl, rfl, rfl, rfl, rfl⟩ (.inl rfl)
      refine hwake.trans (sleepTurn_rescheduled ?_ now _)
      exact hc

theorem sleepResume_rescheduled (s : Sched) (now : BitVec 64) :
    Rescheduled s (sleepResume s now) := by
  unfold sleepResume
  split
  · exact .refl s
  case h_2 c hc =>
    split
    · exact .refl s
    · exact sleepTurn_rescheduled hc now _

theorem schedTick_rescheduled (s : Sched) (now : BitVec 64) :
    Rescheduled s (schedTick s now) := by
  unfold schedTick
  split
  · exact (schedCheckWakeups_woken s now).rescheduled.trans (schedule_rescheduled _)
  · exact .refl s

end Lestra
