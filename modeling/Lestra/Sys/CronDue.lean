import Mathlib.Data.List.Count
import Mathlib.Data.List.Induction
import Lestra.Sys.Cron

/-!
# Cron fires when due

A run of the daemon from `cron_init`. A slot is used by one task after the other: the lives
of a slot count the tasks it has held, so that a slot and a life name a task.

* `Due` — a tick of the run within the minute finds the task active and matching
* `Stamped` — the stamp of a task is its last due minute
* `cron_fires_when_due` — a due minute is executed once, at its first tick
-/

namespace Lestra

-- ---------------------------------------------------------------------------
-- Runs
-- ---------------------------------------------------------------------------

inductive CronOp where
  | add (schedule command : Option (List UInt8))
  | remove (id : ℤ)
  | tick (clock : Clock)

/-- An execution: the slot, the life of the slot, and the minute of the tick. -/
structure Execution where
  slot : Fin cronMaxTasks
  life : ℕ
  minute : Minute
  deriving DecidableEq

structure CronRun where
  cron : Cron
  lives : Fin cronMaxTasks → ℕ
  executed : List Execution

/-- The table after a call. -/
def CronOp.next (s : Cron) : CronOp → Cron
  | .add schedule command => (cronAdd s schedule command).1
  | .remove id => (cronRemove s id).1
  | .tick clock => (cronTick s clock).1

/-- What a call executes. -/
def CronOp.fired (r : CronRun) : CronOp → List Execution
  | .add _ _ => []
  | .remove _ => []
  | .tick clock =>
    ((cronTick r.cron clock).2.map Prod.fst).map fun i => ⟨i, r.lives i, clock.toMinute⟩

def CronRun.step (r : CronRun) (op : CronOp) : CronRun where
  cron := op.next r.cron
  lives i := r.lives i +
    if (r.cron.tasks i).active = false ∧ ((op.next r.cron).tasks i).active = true then 1 else 0
  executed := r.executed ++ op.fired r

def cronRun (ops : List CronOp) : CronRun := ops.foldl CronRun.step ⟨cronInit, fun _ => 0, []⟩

theorem cronRun_snoc (ops : List CronOp) (op : CronOp) :
    cronRun (ops ++ [op]) = (cronRun ops).step op := by
  rw [cronRun, List.foldl_append]
  rfl

def CronOp.clock? : CronOp → Option Clock
  | .tick clock => some clock
  | _ => none

/-- The clocks that the ticks of a run read. -/
def clocks (ops : List CronOp) : List Clock := ops.filterMap CronOp.clock?

/-- Successive ticks read valid times, none before the last. -/
structure ClockRuns (ops : List CronOp) : Prop where
  valid : ∀ clock ∈ clocks ops, clock.Valid
  ordered : (clocks ops).Pairwise Clock.Le

theorem clocks_snoc (ops : List CronOp) (op : CronOp) :
    clocks (ops ++ [op]) = clocks ops ++ op.clock?.toList := by
  rw [clocks, List.filterMap_append]
  cases op <;> rfl

theorem ClockRuns.left {pre post : List CronOp} (h : ClockRuns (pre ++ post)) :
    ClockRuns pre := by
  have hsplit : clocks (pre ++ post) = clocks pre ++ clocks post := List.filterMap_append
  have hordered := h.ordered
  rw [hsplit, List.pairwise_append] at hordered
  exact ⟨fun c hc => h.valid c (hsplit ▸ List.mem_append_left _ hc), hordered.1⟩

theorem ClockRuns.tick {ops : List CronOp} {clock : Clock}
    (h : ClockRuns (ops ++ [.tick clock])) :
    clock.Valid ∧ ∀ c ∈ clocks ops, c.toMinute ≤ clock.toMinute := by
  obtain ⟨hvalid, hordered⟩ := h
  rw [clocks_snoc] at hvalid hordered
  refine ⟨hvalid clock (by simp [CronOp.clock?]), fun c hc => ?_⟩
  rw [List.pairwise_append] at hordered
  exact (hordered.2.2 c hc clock (by simp [CronOp.clock?])).minute

theorem CronOp.next_initialized {s : Cron} (h : s.initialized = true) (op : CronOp) :
    (op.next s).initialized = true := by
  cases op with
  | add schedule command =>
    simp only [CronOp.next, cronAdd]
    split
    · exact h
    · split
      · split
        · exact h
        · split_ifs <;> exact h
      · exact h
  | remove id =>
    simp only [CronOp.next, cronRemove]
    split
    · exact h
    · split <;> exact h
  | tick clock =>
    simp only [CronOp.next, cronTick]
    split <;> exact h

theorem cronRun_initialized (ops : List CronOp) : (cronRun ops).cron.initialized = true := by
  induction ops using List.reverseRecOn with
  | nil => rfl
  | append_singleton ops op ih =>
    rw [cronRun_snoc]
    exact op.next_initialized ih

-- ---------------------------------------------------------------------------
-- Due minutes
-- ---------------------------------------------------------------------------

/-- In the state `r`, a tick at the clock's time finds the task of this life in the slot, and
its fields match. -/
structure DueAt (r : CronRun) (clock : Clock) (i : Fin cronMaxTasks) (n : ℕ) : Prop where
  active : (r.cron.tasks i).active = true
  life : r.lives i = n
  fields : Matches (r.cron.tasks i) clock.toMinute

/-- Some tick of the run within the minute finds the task active and matching. -/
def Due (ops : List CronOp) (i : Fin cronMaxTasks) (n : ℕ) (m : Minute) : Prop :=
  ∃ pre clock post, ops = pre ++ .tick clock :: post ∧ clock.toMinute = m ∧
    DueAt (cronRun pre) clock i n

theorem not_due_nil (i : Fin cronMaxTasks) (n : ℕ) (m : Minute) : ¬ Due [] i n m := by
  rintro ⟨pre, clock, post, h, -⟩
  cases pre <;> cases h

theorem due_snoc (ops : List CronOp) (op : CronOp) (i : Fin cronMaxTasks) (n : ℕ) (m : Minute) :
    Due (ops ++ [op]) i n m ↔ Due ops i n m ∨
      ∃ clock, op = .tick clock ∧ clock.toMinute = m ∧ DueAt (cronRun ops) clock i n := by
  constructor
  · rintro ⟨pre, clock, post, hops, hm, hdue⟩
    rcases List.eq_nil_or_concat post with rfl | ⟨post, op', rfl⟩
    · obtain ⟨rfl, hop⟩ := List.append_inj' hops rfl
      exact Or.inr ⟨clock, (List.cons.inj hop).1, hm, hdue⟩
    · rw [List.concat_eq_append, ← List.cons_append, ← List.append_assoc] at hops
      exact Or.inl ⟨pre, clock, post, (List.append_inj' hops rfl).1, hm, hdue⟩
  · rintro (⟨pre, clock, post, rfl, hm, hdue⟩ | ⟨clock, rfl, hm, hdue⟩)
    · exact ⟨pre, clock, post ++ [op], by simp, hm, hdue⟩
    · exact ⟨ops, clock, [], rfl, hm, hdue⟩

/-- A due minute is that of a clock that was read. -/
theorem Due.clock {ops : List CronOp} {i : Fin cronMaxTasks} {n : ℕ} {m : Minute}
    (h : Due ops i n m) : ∃ c ∈ clocks ops, c.toMinute = m := by
  obtain ⟨pre, clock, post, rfl, hm, -⟩ := h
  exact ⟨clock, by simp [clocks, CronOp.clock?], hm⟩

/-- No task of a life to come was due. -/
theorem Due.life_le {ops : List CronOp} {i : Fin cronMaxTasks} {n : ℕ} {m : Minute}
    (h : Due ops i n m) : n ≤ (cronRun ops).lives i := by
  induction ops using List.reverseRecOn with
  | nil => exact absurd h (not_due_nil i n m)
  | append_singleton ops op ih =>
    rw [cronRun_snoc]
    have hstep : (cronRun ops).lives i ≤ ((cronRun ops).step op).lives i := Nat.le_add_right _ _
    rcases (due_snoc ops op i n m).mp h with hold | ⟨clock, -, -, hdue⟩
    · exact le_trans (ih hold) hstep
    · exact hdue.life ▸ hstep

-- ---------------------------------------------------------------------------
-- The stamp
-- ---------------------------------------------------------------------------

/-- The stamp of an active task is its last due minute. -/
structure Stamped (ops : List CronOp) (i : Fin cronMaxTasks) : Prop where
  upper : ∀ m, Due ops i ((cronRun ops).lives i) m → m ≤ ((cronRun ops).cron.tasks i).last
  due : ((cronRun ops).cron.tasks i).last = Minute.zero ∨
    Due ops i ((cronRun ops).lives i) ((cronRun ops).cron.tasks i).last

/-- A run in which the stamp of each active task is its last due minute. -/
def AllStamped (ops : List CronOp) : Prop :=
  ∀ i, ((cronRun ops).cron.tasks i).active = true → Stamped ops i

theorem CronRun.lives_of_active {r : CronRun} {i : Fin cronMaxTasks}
    (h : (r.cron.tasks i).active = true) (op : CronOp) : (r.step op).lives i = r.lives i := by
  simp [CronRun.step, h]

theorem CronRun.lives_of_new {r : CronRun} {i : Fin cronMaxTasks} {op : CronOp}
    (h : (r.cron.tasks i).active = false) (h' : ((op.next r.cron).tasks i).active = true) :
    (r.step op).lives i = r.lives i + 1 := by
  simp [CronRun.step, h, h']

/-- A call that is no tick and leaves the slot's task leaves what is due of it. -/
theorem Stamped.same {ops : List CronOp} {op : CronOp} {i : Fin cronMaxTasks}
    (h : Stamped ops i) (hquiet : ∀ clock, op ≠ .tick clock)
    (hactive : ((cronRun ops).cron.tasks i).active = true)
    (hsame : (op.next (cronRun ops).cron).tasks i = (cronRun ops).cron.tasks i) :
    Stamped (ops ++ [op]) i := by
  have hlast : ((cronRun (ops ++ [op])).cron.tasks i).last =
      ((cronRun ops).cron.tasks i).last := by
    rw [cronRun_snoc, CronRun.step, hsame]
  have hlife : (cronRun (ops ++ [op])).lives i = (cronRun ops).lives i := by
    rw [cronRun_snoc, CronRun.lives_of_active hactive]
  have hdue : ∀ m, Due (ops ++ [op]) i ((cronRun ops).lives i) m ↔
      Due ops i ((cronRun ops).lives i) m := by
    intro m
    rw [due_snoc]
    exact or_iff_left fun ⟨clock, hop, _⟩ => hquiet clock hop
  constructor
  · intro m hm
    rw [hlife, hdue] at hm
    rw [hlast]
    exact h.upper m hm
  · rw [hlast, hlife, hdue]
    exact h.due

/-- Nothing is due of a task just added. -/
theorem Stamped.fresh {ops : List CronOp} {op : CronOp} {i : Fin cronMaxTasks}
    (hquiet : ∀ clock, op ≠ .tick clock)
    (hold : ((cronRun ops).cron.tasks i).active = false)
    (hnew : ((op.next (cronRun ops).cron).tasks i).active = true)
    (hlast : ((op.next (cronRun ops).cron).tasks i).last = Minute.zero) :
    Stamped (ops ++ [op]) i := by
  have hlife : (cronRun (ops ++ [op])).lives i = (cronRun ops).lives i + 1 := by
    rw [cronRun_snoc, CronRun.lives_of_new hold hnew]
  constructor
  · intro m hm
    rw [hlife] at hm
    rcases (due_snoc ops op i _ m).mp hm with hbefore | ⟨clock, hop, _⟩
    · have hle := hbefore.life_le
      omega
    · exact absurd hop (hquiet clock)
  · left
    rw [cronRun_snoc]
    exact hlast

/-- A matching task whose stamp is the minute of the tick has been due in this minute. -/
theorem Stamped.last_eq_iff {ops : List CronOp} {clock : Clock} {i : Fin cronMaxTasks}
    (h : Stamped ops i) (hclock : ClockRuns (ops ++ [.tick clock])) :
    ((cronRun ops).cron.tasks i).last = clock.toMinute ↔
      Due ops i ((cronRun ops).lives i) clock.toMinute := by
  obtain ⟨hvalid, hlater⟩ := hclock.tick
  have hpos : Minute.zero < clock.toMinute := Minute.zero_lt hvalid.date.year
  constructor
  · intro hlast
    rcases h.due with hzero | hdue
    · exact absurd (hlast ▸ hzero) hpos.ne'
    · rwa [hlast] at hdue
  · intro hdue
    have hle := h.upper _ hdue
    rcases h.due with hzero | hlast
    · exact absurd (hzero ▸ hle) (not_le_of_gt hpos)
    · obtain ⟨c, hc, hcm⟩ := hlast.clock
      exact le_antisymm (hcm ▸ hlater c hc) hle

/-- At a tick the stamp moves to the tick's minute if the task is due. -/
theorem Stamped.tick {ops : List CronOp} {clock : Clock} {i : Fin cronMaxTasks}
    (h : Stamped ops i) (hclock : ClockRuns (ops ++ [.tick clock]))
    (hactive : ((cronRun ops).cron.tasks i).active = true) :
    Stamped (ops ++ [.tick clock]) i := by
  obtain ⟨hvalid, hlater⟩ := hclock.tick
  have hlife : (cronRun (ops ++ [.tick clock])).lives i = (cronRun ops).lives i := by
    rw [cronRun_snoc, CronRun.lives_of_active hactive]
  have htask : (cronRun (ops ++ [.tick clock])).cron.tasks i =
      (cronCheckTask ((cronRun ops).cron.tasks i) clock.toMinute).1 := by
    rw [cronRun_snoc]
    change (cronTick _ _).1.tasks i = _
    rw [cronTick_tasks (cronRun_initialized ops), if_pos hactive]
  by_cases hfields : Matches ((cronRun ops).cron.tasks i) clock.toMinute
  · have hdueNow : Due (ops ++ [.tick clock]) i ((cronRun ops).lives i) clock.toMinute :=
      (due_snoc _ _ _ _ _).mpr (Or.inr ⟨clock, rfl, rfl, hactive, rfl, hfields⟩)
    have hlast : ((cronRun (ops ++ [.tick clock])).cron.tasks i).last = clock.toMinute := by
      rw [htask]
      by_cases hstamp : ((cronRun ops).cron.tasks i).last = clock.toMinute
      · rw [cronCheckTask_rests hvalid.date (Or.inr hstamp)]
        exact hstamp
      · rw [cronCheckTask_fires hvalid.date hfields hstamp]
    constructor
    · intro m hm
      obtain ⟨c, hc, rfl⟩ := hm.clock
      rw [hlast]
      rw [clocks_snoc] at hc
      rcases List.mem_append.mp hc with hold | hnew
      · exact hlater c hold
      · rw [List.mem_singleton.mp hnew]
    · right
      rw [hlast, hlife]
      exact hdueNow
  · have hsame : (cronRun (ops ++ [.tick clock])).cron.tasks i = (cronRun ops).cron.tasks i := by
      rw [htask, cronCheckTask_rests hvalid.date (Or.inl hfields)]
    have hdue : ∀ m, Due (ops ++ [.tick clock]) i ((cronRun ops).lives i) m ↔
        Due ops i ((cronRun ops).lives i) m := by
      intro m
      rw [due_snoc]
      refine or_iff_left ?_
      rintro ⟨c, hc, -, hdueAt⟩
      cases hc
      exact hfields hdueAt.fields
    constructor
    · intro m hm
      rw [hlife, hdue] at hm
      rw [hsame]
      exact h.upper m hm
    · rw [hsame, hlife, hdue]
      exact h.due

/-- A call that is no tick leaves a task, removes it, or puts a new one in a free slot. -/
theorem CronOp.next_slot {s : Cron} {op : CronOp} (hquiet : ∀ clock, op ≠ .tick clock)
    {i : Fin cronMaxTasks} (h : ((op.next s).tasks i).active = true) :
    (op.next s).tasks i = s.tasks i ∨
      (s.tasks i).active = false ∧ ((op.next s).tasks i).last = Minute.zero := by
  cases op with
  | add schedule command => exact cronAdd_tasks s schedule command i
  | remove id =>
    rcases cronRemove_tasks s id i with hsame | hgone
    · exact Or.inl hsame
    · exact absurd h (by simp [CronOp.next, hgone])
  | tick clock => exact absurd rfl (hquiet clock)

theorem AllStamped.snoc {ops : List CronOp} {op : CronOp} (h : AllStamped ops)
    (hclock : ClockRuns (ops ++ [op])) : AllStamped (ops ++ [op]) := by
  intro i hactive
  by_cases htick : ∃ clock, op = .tick clock
  · obtain ⟨clock, rfl⟩ := htick
    have hbefore : ((cronRun ops).cron.tasks i).active = true := by
      rw [cronRun_snoc] at hactive
      change ((cronTick _ _).1.tasks i).active = true at hactive
      by_contra hno
      rw [cronTick_tasks (cronRun_initialized ops), if_neg hno] at hactive
      exact hno hactive
    exact (h i hbefore).tick hclock hbefore
  · have hquiet : ∀ clock, op ≠ .tick clock := fun clock hop => htick ⟨clock, hop⟩
    rw [cronRun_snoc] at hactive
    rcases CronOp.next_slot hquiet hactive with hsame | ⟨hold, hlast⟩
    · have hbefore : ((cronRun ops).cron.tasks i).active = true := hsame ▸ hactive
      exact (h i hbefore).same hquiet hbefore hsame
    · exact Stamped.fresh hquiet hold hactive hlast

theorem allStamped {ops : List CronOp} (hclock : ClockRuns ops) : AllStamped ops := by
  induction ops using List.reverseRecOn with
  | nil =>
    intro i hactive
    cases hactive
  | append_singleton ops op ih => exact (ih hclock.left).snoc hclock

-- ---------------------------------------------------------------------------
-- Executions
-- ---------------------------------------------------------------------------

/-- A tick executes the tasks that match and were not due before in this minute. -/
theorem executes_iff {ops : List CronOp} {clock : Clock}
    (hclock : ClockRuns (ops ++ [.tick clock])) (i : Fin cronMaxTasks) (command : List UInt8) :
    (i, command) ∈ (cronTick (cronRun ops).cron clock).2 ↔
      DueAt (cronRun ops) clock i ((cronRun ops).lives i) ∧
        ¬ Due ops i ((cronRun ops).lives i) clock.toMinute ∧
        command = ((cronRun ops).cron.tasks i).command := by
  rw [mem_cronTick (cronRun_initialized ops) hclock.tick.1]
  constructor
  · rintro ⟨hactive, hfields, hlast, hcommand⟩
    have hstamped := allStamped hclock.left i hactive
    exact ⟨⟨hactive, rfl, hfields⟩, mt (hstamped.last_eq_iff hclock).mpr hlast, hcommand⟩
  · rintro ⟨⟨hactive, -, hfields⟩, hnew, hcommand⟩
    have hstamped := allStamped hclock.left i hactive
    exact ⟨hactive, hfields, mt (hstamped.last_eq_iff hclock).mp hnew, hcommand⟩

/-- The tick executes the task of this life, for the first time in its minute. -/
def Fires (ops : List CronOp) (op : CronOp) (e : Execution) : Prop :=
  (∃ clock, op = .tick clock ∧ clock.toMinute = e.minute ∧
    DueAt (cronRun ops) clock e.slot e.life) ∧ ¬ Due ops e.slot e.life e.minute

theorem mem_fired {ops : List CronOp} {op : CronOp} (hclock : ClockRuns (ops ++ [op]))
    (e : Execution) : e ∈ op.fired (cronRun ops) ↔ Fires ops op e := by
  by_cases htick : ∃ clock, op = .tick clock
  · obtain ⟨clock, rfl⟩ := htick
    simp only [CronOp.fired, List.mem_map]
    constructor
    · rintro ⟨i, ⟨⟨j, command⟩, hmem, rfl⟩, rfl⟩
      obtain ⟨hdue, hnew, -⟩ := (executes_iff hclock j command).mp hmem
      exact ⟨⟨clock, rfl, rfl, hdue⟩, hnew⟩
    · rintro ⟨⟨c, hc, hm, hdue⟩, hnew⟩
      obtain ⟨slot, life, minute⟩ := e
      cases hc
      obtain rfl : clock.toMinute = minute := hm
      obtain rfl : (cronRun ops).lives slot = life := hdue.life
      have hmem := (executes_iff hclock slot _).mpr ⟨hdue, hnew, rfl⟩
      exact ⟨slot, ⟨_, hmem, rfl⟩, rfl⟩
  · have hnone : op.fired (cronRun ops) = [] := by
      cases op with
      | add schedule command => rfl
      | remove id => rfl
      | tick clock => exact absurd ⟨clock, rfl⟩ htick
    rw [hnone]
    refine iff_of_false List.not_mem_nil ?_
    rintro ⟨⟨clock, hop, -⟩, -⟩
    exact htick ⟨clock, hop⟩

theorem fired_nodup (r : CronRun) (op : CronOp) : (op.fired r).Nodup := by
  cases op with
  | add schedule command => exact List.nodup_nil
  | remove id => exact List.nodup_nil
  | tick clock =>
    refine (cronTick_nodup r.cron clock).map ?_
    intro i j hij
    exact congrArg Execution.slot hij

/-- Each due minute of a task has been executed once, any other minute never. -/
theorem executed_count {ops : List CronOp} (hclock : ClockRuns ops) (e : Execution) :
    (Due ops e.slot e.life e.minute → (cronRun ops).executed.count e = 1) ∧
      (¬ Due ops e.slot e.life e.minute → (cronRun ops).executed.count e = 0) := by
  induction ops using List.reverseRecOn with
  | nil => exact ⟨fun h => absurd h (not_due_nil _ _ _), fun _ => rfl⟩
  | append_singleton ops op ih =>
    obtain ⟨honce, hnever⟩ := ih hclock.left
    have hcount : (cronRun (ops ++ [op])).executed.count e =
        (cronRun ops).executed.count e + (op.fired (cronRun ops)).count e := by
      rw [cronRun_snoc]
      exact List.count_append
    have hmem := mem_fired hclock e
    rw [hcount, due_snoc]
    by_cases hold : Due ops e.slot e.life e.minute
    · have hquiet : e ∉ op.fired (cronRun ops) := fun he => (hmem.mp he).2 hold
      rw [honce hold, List.count_eq_zero_of_not_mem hquiet]
      exact ⟨fun _ => rfl, fun h => absurd (Or.inl hold) h⟩
    · rw [hnever hold]
      constructor
      · rintro (h | hnow)
        · exact absurd h hold
        · rw [List.count_eq_one_of_mem (fired_nodup _ _) (hmem.mpr ⟨hnow, hold⟩)]
      · intro hno
        have hquiet : e ∉ op.fired (cronRun ops) := fun he => hno (Or.inr (hmem.mp he).1)
        rw [List.count_eq_zero_of_not_mem hquiet]

/-- **Cron fires exactly when due.** In every run whose clock shows valid times and never goes
back, a task is executed once for each minute in which a tick finds it active and matching,
and never for another minute; a tick executes the active tasks that match and were not due
before in its minute. -/
theorem cron_fires_when_due {ops : List CronOp} (hclock : ClockRuns ops)
    (i : Fin cronMaxTasks) :
    (∀ life minute,
      (Due ops i life minute → (cronRun ops).executed.count ⟨i, life, minute⟩ = 1) ∧
        (¬ Due ops i life minute → (cronRun ops).executed.count ⟨i, life, minute⟩ = 0)) ∧
      ∀ pre clock post, ops = pre ++ .tick clock :: post → ∀ command,
        (i, command) ∈ (cronTick (cronRun pre).cron clock).2 ↔
          DueAt (cronRun pre) clock i ((cronRun pre).lives i) ∧
            ¬ Due pre i ((cronRun pre).lives i) clock.toMinute ∧
            command = ((cronRun pre).cron.tasks i).command := by
  refine ⟨fun life minute => executed_count hclock ⟨i, life, minute⟩, ?_⟩
  rintro pre clock post rfl command
  rw [← List.singleton_append, ← List.append_assoc] at hclock
  exact executes_iff hclock.left i command

/-- The schedule `0 12 * * 1`, Mondays at noon. -/
def mondayNoon : List UInt8 :=
  [0x30, 0x20, 0x31, 0x32, 0x20, 0x2A, 0x20, 0x2A, 0x20, 0x31]

/-- Two ticks of the minute are one execution. -/
theorem cron_fires_once :
    (cronRun [.add (some mondayNoon) (some [0x6C, 0x73]), .tick ⟨⟨1, 1, 1, 12, 0⟩, 5⟩,
      .tick ⟨⟨1, 1, 1, 12, 0⟩, 6⟩]).executed.count
        ⟨⟨0, by decide⟩, 1, ⟨1, 1, 1, 12, 0⟩⟩ = 1 := by
  have hclock : ClockRuns [.add (some mondayNoon) (some [0x6C, 0x73]),
      .tick ⟨⟨1, 1, 1, 12, 0⟩, 5⟩, .tick ⟨⟨1, 1, 1, 12, 0⟩, 6⟩] := by
    constructor
    · intro c hc
      simp only [clocks, CronOp.clock?, List.filterMap_cons, List.filterMap_nil, List.mem_cons,
        List.not_mem_nil, or_false] at hc
      rcases hc with rfl | rfl
      · exact ⟨⟨by decide, by decide, by decide⟩, by decide, by decide, by decide⟩
      · exact ⟨⟨by decide, by decide, by decide⟩, by decide, by decide, by decide⟩
    · simp only [clocks, CronOp.clock?, List.filterMap_cons, List.filterMap_nil,
        List.pairwise_pair]
      exact Or.inr ⟨rfl, by decide⟩
  refine ((cron_fires_when_due hclock ⟨0, by decide⟩).1 1 ⟨1, 1, 1, 12, 0⟩).1 ?_
  refine ⟨[.add (some mondayNoon) (some [0x6C, 0x73])], ⟨⟨1, 1, 1, 12, 0⟩, 5⟩, _, rfl, rfl, ?_⟩
  exact ⟨by decide, by decide, by decide, by decide, by decide, by decide, by decide⟩

end Lestra
