import Mathlib.Data.Prod.Lex
import Mathlib.Data.List.Nodup
import Mathlib.Data.Fin.VecNotation
import Mathlib.Logic.Function.Basic
import Lestra.Lib.Gregorian

/-!
# The cron daemon

The task table of `kernel/sys/cron.c`: `cron_add`, `cron_remove` and `cron_tick`. A task is
run by `shell_execute_line`, which is an output here.

* `cronTick` — a tick, with the commands it executes
* `computeWeekday_valid` — the weekday of the code is the calendar's
-/

namespace Lestra

-- ---------------------------------------------------------------------------
-- The clock
-- ---------------------------------------------------------------------------

/-- A calendar minute. -/
structure Minute where
  year : ℕ
  month : ℕ
  day : ℕ
  hour : ℕ
  min : ℕ
  deriving DecidableEq, Repr

/-- The fields from the largest to the smallest. -/
def Minute.key (m : Minute) : ℕ ×ₗ ℕ ×ₗ ℕ ×ₗ ℕ ×ₗ ℕ :=
  toLex (m.year, toLex (m.month, toLex (m.day, toLex (m.hour, m.min))))

theorem Minute.key_injective : Function.Injective Minute.key := by
  rintro ⟨y, mo, d, h, mi⟩ ⟨y', mo', d', h', mi'⟩ hkey
  simp only [Minute.key, toLex_inj, Prod.mk.injEq] at hkey
  obtain ⟨rfl, rfl, rfl, rfl, rfl⟩ := hkey
  rfl

instance : LinearOrder Minute := LinearOrder.lift' Minute.key Minute.key_injective

/-- What `rtc_get_time` and `rtc_get_date` return. -/
structure Clock extends Minute where
  sec : ℕ
  deriving DecidableEq, Repr

structure Clock.Valid (c : Clock) : Prop where
  date : Gregorian.ValidDate c.year c.month c.day
  hour : c.hour < 24
  min : c.min < 60
  sec : c.sec < 60

/-- The later clock does not show an earlier time. -/
def Clock.Le (c c' : Clock) : Prop :=
  c.toMinute < c'.toMinute ∨ c.toMinute = c'.toMinute ∧ c.sec ≤ c'.sec

theorem Clock.Le.minute {c c' : Clock} (h : c.Le c') : c.toMinute ≤ c'.toMinute := by
  rcases h with hlt | ⟨heq, -⟩
  · exact le_of_lt hlt
  · exact le_of_eq heq

-- ---------------------------------------------------------------------------
-- Tasks
-- ---------------------------------------------------------------------------

def cronMaxTasks : ℕ := 16

def cronStrLen : ℕ := 128

/-- `CRON_WILDCARD`. -/
def cronWildcard : ℤ := -1

/-- A `cron_task_t`. The stamp `last_year`, ..., `last_min` is `last`; strings are kept
without their terminator. -/
structure CronTask where
  active : Bool
  id : ℤ
  minute : ℤ
  hour : ℤ
  day : ℤ
  month : ℤ
  weekday : ℤ
  schedule : List UInt8
  command : List UInt8
  last : Minute
  deriving DecidableEq, Repr

/-- The stamp that `memset` leaves. -/
def Minute.zero : Minute := ⟨0, 0, 0, 0, 0⟩

theorem Minute.zero_lt {m : Minute} (h : 1 ≤ m.year) : Minute.zero < m := by
  change Minute.zero.key < m.key
  exact Prod.Lex.toLex_lt_toLex.mpr (Or.inl h)

/-- A task after `memset`. -/
def CronTask.zero : CronTask := ⟨false, 0, 0, 0, 0, 0, 0, [], [], Minute.zero⟩

/-- The static variables of the file. -/
structure Cron where
  tasks : Fin cronMaxTasks → CronTask
  nextId : ℤ
  initialized : Bool

def cronInit : Cron := ⟨fun _ => CronTask.zero, 1, true⟩

-- ---------------------------------------------------------------------------
-- Parsing a schedule
-- ---------------------------------------------------------------------------

/-- A value stored in an `int`. -/
def toInt32 (v : ℤ) : ℤ := Int.bmod v (2 ^ 32)

/-- The loop over the digits; `none` at a byte that is no digit. -/
def parseDigits (v : ℤ) : List UInt8 → Option ℤ
  | [] => some v
  | c :: cs =>
    if c < 0x30 ∨ 0x39 < c then none else parseDigits (toInt32 (v * 10 + (c.toNat - 0x30 : ℤ))) cs

/-- -2 is the parse error. -/
def parseField (tok : List UInt8) (minVal maxVal : ℤ) : ℤ :=
  if tok = [0x2A] then cronWildcard
  else
    match parseDigits 0 tok with
    | none => -2
    | some v => if tok = [] then -2 else if v < minVal ∨ maxVal < v then -2 else v

/-- Space or tab. -/
def isBlank (c : UInt8) : Bool := c == 0x20 || c == 0x09

/-- At most `nf` tokens; what follows the last is not looked at. -/
def splitFields : ℕ → List UInt8 → List (List UInt8)
  | 0, _ => []
  | nf + 1, p =>
    match p.dropWhile isBlank with
    | [] => []
    | q => q.takeWhile (!isBlank ·) :: splitFields nf (q.dropWhile (!isBlank ·)).tail

/-- The task with the fields stored so far, and the result. -/
def parseSchedule (t : CronTask) (sched : List UInt8) : CronTask × ℤ :=
  if cronStrLen ≤ sched.length then (t, -1)
  else
    match splitFields 5 sched with
    | [f0, f1, f2, f3, f4] =>
      let v := parseField f0 0 59
      if v < -1 then (t, -1) else
      let t := { t with minute := v }
      let v := parseField f1 0 23
      if v < -1 then (t, -1) else
      let t := { t with hour := v }
      let v := parseField f2 1 31
      if v < -1 then (t, -1) else
      let t := { t with day := v }
      let v := parseField f3 1 12
      if v < -1 then (t, -1) else
      let t := { t with month := v }
      let v := parseField f4 0 6
      if v < -1 then (t, -1) else
      ({ t with weekday := v }, 0)
    | _ => (t, -1)

/-- Neither result of the parser touches the slot's other members. -/
theorem parseSchedule_frame (t : CronTask) (sched : List UInt8) :
    (parseSchedule t sched).1.active = t.active ∧ (parseSchedule t sched).1.last = t.last := by
  unfold parseSchedule
  split
  · exact ⟨rfl, rfl⟩
  · split
    · dsimp only
      split_ifs <;> exact ⟨rfl, rfl⟩
    · exact ⟨rfl, rfl⟩

-- ---------------------------------------------------------------------------
-- Adding and removing
-- ---------------------------------------------------------------------------

def freeSlot (s : Cron) : Option (Fin cronMaxTasks) :=
  (List.finRange cronMaxTasks).find? fun i => !(s.tasks i).active

/-- `none` is a null pointer. -/
def cronAdd (s : Cron) (schedule command : Option (List UInt8)) : Cron × ℤ :=
  if !s.initialized then (s, -1)
  else
    match schedule, command with
    | some schedule, some command =>
      match freeSlot s with
      | none => (s, -1)
      | some slot =>
        if cronStrLen ≤ schedule.length ∨ cronStrLen ≤ command.length then (s, -1)
        else
          let (t, r) := parseSchedule CronTask.zero schedule
          if r ≠ 0 then ({ s with tasks := Function.update s.tasks slot t }, -1)
          else
            let t := { t with
              schedule := schedule
              command := command
              id := s.nextId
              active := true }
            ({ s with
                tasks := Function.update s.tasks slot t
                nextId := toInt32 (s.nextId + 1) }, s.nextId)
    | _, _ => (s, -1)

def cronRemove (s : Cron) (id : ℤ) : Cron × ℤ :=
  if !s.initialized then (s, -1)
  else
    match (List.finRange cronMaxTasks).find? fun i =>
        (s.tasks i).active && decide ((s.tasks i).id = id) with
    | none => (s, -1)
    | some i => ({ s with tasks := Function.update s.tasks i CronTask.zero }, 0)

-- ---------------------------------------------------------------------------
-- The tick
-- ---------------------------------------------------------------------------

def computeWeekday (year month day : ℤ) : ℤ :=
  let m := if month < 3 then month + 12 else month
  let y := if month < 3 then year - 1 else year
  let k := y.tmod 100
  let j := y.tdiv 100
  let h := (day + (13 * (m + 1)).tdiv 5 + k + k.tdiv 4 + j.tdiv 4 + 5 * j).tmod 7
  (h + 6).tmod 7

/-- A task's field against the clock's. -/
def fieldMatches (field : ℤ) (now : ℤ) : Prop := field = cronWildcard ∨ field = now

instance (field now : ℤ) : Decidable (fieldMatches field now) :=
  inferInstanceAs (Decidable (_ ∨ _))

/-- The task afterwards, and whether its command is executed. -/
def cronCheckTask (t : CronTask) (now : Minute) : CronTask × Bool :=
  if ¬ fieldMatches t.minute now.min then (t, false)
  else if ¬ fieldMatches t.hour now.hour then (t, false)
  else if ¬ fieldMatches t.day now.day then (t, false)
  else if ¬ fieldMatches t.month now.month then (t, false)
  else
    let wd := computeWeekday now.year now.month now.day
    if ¬ fieldMatches t.weekday wd then (t, false)
    else if t.last = now then (t, false)
    else ({ t with last := now }, true)

/-- The table after the loop, and the slots and commands executed. Each turn touches its own
task. -/
def cronTick (s : Cron) (clock : Clock) : Cron × List (Fin cronMaxTasks × List UInt8) :=
  if !s.initialized then (s, [])
  else
    let now := clock.toMinute
    ({ s with tasks := fun i =>
        if (s.tasks i).active then (cronCheckTask (s.tasks i) now).1 else s.tasks i },
      (List.finRange cronMaxTasks).filterMap fun i =>
        if (s.tasks i).active ∧ (cronCheckTask (s.tasks i) now).2 then
          some (i, (s.tasks i).command)
        else none)

-- ---------------------------------------------------------------------------
-- What the functions do to a slot
-- ---------------------------------------------------------------------------

/-- A task is added to a slot that has none, without a stamp; the other slots stay. -/
theorem cronAdd_tasks (s : Cron) (schedule command : Option (List UInt8)) (i : Fin cronMaxTasks) :
    (cronAdd s schedule command).1.tasks i = s.tasks i ∨
      (s.tasks i).active = false ∧ ((cronAdd s schedule command).1.tasks i).last = Minute.zero := by
  unfold cronAdd
  split
  · exact Or.inl rfl
  · split
    · rename_i schedule command
      split
      · exact Or.inl rfl
      · rename_i slot hslot
        have hfree : (s.tasks slot).active = false := by
          simpa using List.find?_some hslot
        have hlast : (parseSchedule CronTask.zero schedule).1.last = Minute.zero :=
          (parseSchedule_frame CronTask.zero schedule).2
        by_cases hlong : cronStrLen ≤ schedule.length ∨ cronStrLen ≤ command.length
        · rw [if_pos hlong]
          exact Or.inl rfl
        · rw [if_neg hlong]
          dsimp only
          by_cases hi : i = slot
          · subst hi
            refine Or.inr ⟨hfree, ?_⟩
            split
            · simpa [Function.update_self] using hlast
            · simpa [Function.update_self] using hlast
          · refine Or.inl ?_
            split
            · simp [Function.update_of_ne hi]
            · simp [Function.update_of_ne hi]
    · exact Or.inl rfl

theorem cronRemove_tasks (s : Cron) (id : ℤ) (i : Fin cronMaxTasks) :
    (cronRemove s id).1.tasks i = s.tasks i ∨
      ((cronRemove s id).1.tasks i).active = false := by
  unfold cronRemove
  split
  · exact Or.inl rfl
  · split
    · exact Or.inl rfl
    · rename_i slot _
      by_cases hi : i = slot
      · subst hi
        exact Or.inr (by simp [Function.update_self, CronTask.zero])
      · exact Or.inl (by simp [Function.update_of_ne hi])

-- ---------------------------------------------------------------------------
-- Matching a task
-- ---------------------------------------------------------------------------

/-- The code's weekday is that of the calendar. -/
theorem computeWeekday_valid {y m d : ℕ} (h : Gregorian.ValidDate y m d) :
    computeWeekday y m d = Gregorian.weekday y m d := by
  have hz := Gregorian.zeller_weekday h
  have hyear := h.year
  rw [← hz]
  unfold computeWeekday
  by_cases h3 : m < 3
  · have hy : (y : ℤ) - 1 = ((y - 1 : ℕ) : ℤ) := by omega
    rw [if_pos h3, if_pos (by omega), if_pos (by omega), hy]
    simp only [Gregorian.zeller]
    norm_cast
  · rw [if_neg h3, if_neg (by omega), if_neg (by omega)]
    simp only [Gregorian.zeller]
    norm_cast

/-- The fields of the task match the minute, by the calendar's weekday. -/
structure Matches (t : CronTask) (now : Minute) : Prop where
  minute : fieldMatches t.minute now.min
  hour : fieldMatches t.hour now.hour
  day : fieldMatches t.day now.day
  month : fieldMatches t.month now.month
  weekday : fieldMatches t.weekday (Gregorian.weekday now.year now.month now.day)

theorem cronCheckTask_fires {t : CronTask} {now : Minute}
    (hdate : Gregorian.ValidDate now.year now.month now.day) (hm : Matches t now)
    (hlast : t.last ≠ now) : cronCheckTask t now = ({ t with last := now }, true) := by
  unfold cronCheckTask
  rw [if_neg (not_not.mpr hm.minute), if_neg (not_not.mpr hm.hour), if_neg (not_not.mpr hm.day),
    if_neg (not_not.mpr hm.month), computeWeekday_valid hdate]
  simp only [if_neg (not_not.mpr hm.weekday), if_neg hlast]

theorem cronCheckTask_rests {t : CronTask} {now : Minute}
    (hdate : Gregorian.ValidDate now.year now.month now.day)
    (h : ¬ Matches t now ∨ t.last = now) : cronCheckTask t now = (t, false) := by
  unfold cronCheckTask
  rw [computeWeekday_valid hdate]
  dsimp only
  split_ifs with h1 h2 h3 h4 h5 h6
  all_goals first | rfl | skip
  exact (h.elim (fun hm => hm ⟨h1, h2, h3, h4, h5⟩) h6).elim

-- ---------------------------------------------------------------------------
-- A tick, slot by slot
-- ---------------------------------------------------------------------------

theorem cronTick_tasks {s : Cron} (hinit : s.initialized = true) (clock : Clock)
    (i : Fin cronMaxTasks) :
    (cronTick s clock).1.tasks i =
      if (s.tasks i).active then (cronCheckTask (s.tasks i) clock.toMinute).1 else s.tasks i := by
  simp [cronTick, hinit]

theorem cronCheckTask_iff {t : CronTask} {now : Minute}
    (hdate : Gregorian.ValidDate now.year now.month now.day) :
    (cronCheckTask t now).2 = true ↔ Matches t now ∧ t.last ≠ now := by
  by_cases hm : Matches t now ∧ t.last ≠ now
  · rw [cronCheckTask_fires hdate hm.1 hm.2]
    exact iff_of_true rfl hm
  · rw [cronCheckTask_rests hdate (by tauto)]
    exact iff_of_false (by simp) hm

theorem mem_cronTick {s : Cron} (hinit : s.initialized = true) {clock : Clock} (hc : clock.Valid)
    (i : Fin cronMaxTasks) (command : List UInt8) :
    (i, command) ∈ (cronTick s clock).2 ↔
      (s.tasks i).active = true ∧ Matches (s.tasks i) clock.toMinute ∧
        (s.tasks i).last ≠ clock.toMinute ∧ command = (s.tasks i).command := by
  simp only [cronTick, hinit, Bool.not_true, Bool.false_eq_true, if_false, List.mem_filterMap,
    List.mem_finRange, true_and]
  constructor
  · rintro ⟨j, hj⟩
    split at hj
    · rename_i hfires
      obtain ⟨rfl, rfl⟩ := Prod.mk.inj (Option.some.inj hj)
      obtain ⟨hm, hl⟩ := (cronCheckTask_iff hc.date).mp hfires.2
      exact ⟨hfires.1, hm, hl, rfl⟩
    · cases hj
  · rintro ⟨ha, hm, hl, rfl⟩
    exact ⟨i, by rw [if_pos ⟨ha, (cronCheckTask_iff hc.date).mpr ⟨hm, hl⟩⟩]⟩

/-- A tick executes a slot's command at most once. -/
theorem cronTick_nodup (s : Cron) (clock : Clock) :
    ((cronTick s clock).2.map Prod.fst).Nodup := by
  unfold cronTick
  split
  · exact List.nodup_nil
  · dsimp only
    rw [List.map_filterMap]
    refine List.Nodup.filterMap (fun i j k hi hj => ?_) (List.nodup_finRange _)
    simp only [Option.mem_def, Option.map_eq_some_iff] at hi hj
    obtain ⟨a, ha, rfl⟩ := hi
    obtain ⟨b, hb, hab⟩ := hj
    split at ha
    · split at hb
      · cases ha
        cases hb
        exact hab.symm
      · cases hb
    · cases ha

end Lestra
