import Mathlib.Order.ConditionallyCompleteLattice.Basic
import Mathlib.Data.Int.ConditionallyCompleteOrder
import Mathlib.Data.List.MinMax
import Lestra.Sched.Table

/-!
# Priorities and rotation

* `pickNext_law` — `pick_next` returns the first of the best: the numerically least
  priority among the runnable slots and, among equals, the slot the rotation meets first
* `schedule_keeps_best_iff` — when `schedule` takes the CPU away from a running process
  in favour of a worse one: the running process is no candidate of the search
-/

namespace Lestra

-- ---------------------------------------------------------------------------
-- The rotation
-- ---------------------------------------------------------------------------

/-- The slot after the current one, where the search starts. -/
def scanStart (current : Option (Fin maxProcs)) : Nat :=
  match current with
  | none => 0
  | some c => c.val + 1

/-- How many slots the search visits before `i`: the distance from the start, around
the table. -/
def turnOf (current : Option (Fin maxProcs)) (i : Fin maxProcs) : Nat :=
  (i.val + (maxProcs - scanStart current)) % maxProcs

theorem scanStart_le (current : Option (Fin maxProcs)) : scanStart current ≤ maxProcs := by
  cases current with
  | none => exact Nat.zero_le _
  | some c => exact c.isLt

theorem turnOf_scan (current : Option (Fin maxProcs)) {k : Nat} (hk : k < maxProcs) :
    turnOf current ⟨(scanStart current + k) % maxProcs, Nat.mod_lt _ (by decide)⟩ = k := by
  have hstart := scanStart_le current
  rw [turnOf, Nat.mod_add_mod,
    show scanStart current + k + (maxProcs - scanStart current) = k + maxProcs by omega,
    Nat.add_mod_right, Nat.mod_eq_of_lt hk]

/-- The search goes by the distance. -/
theorem scanOrder_sorted (current : Option (Fin maxProcs)) :
    (scanOrder current).Pairwise fun i j => turnOf current i < turnOf current j := by
  have horder : scanOrder current = (List.range maxProcs).map fun k =>
      ⟨(scanStart current + k) % maxProcs, Nat.mod_lt _ (by decide)⟩ := by
    cases current <;> rfl
  rw [horder, List.pairwise_map]
  refine List.pairwise_lt_range.imp_of_mem fun ha hb hlt => ?_
  rw [turnOf_scan current (List.mem_range.mp ha), turnOf_scan current (List.mem_range.mp hb)]
  exact hlt

/-- In a list sorted by `f` the positions go by `f`. -/
theorem idxOf_le_of_sorted {α : Type} [DecidableEq α] {f : α → Nat} {l : List α} {a b : α}
    (hl : l.Pairwise fun x y => f x < f y) (ha : a ∈ l) (hb : b ∈ l) :
    l.idxOf a ≤ l.idxOf b ↔ f a ≤ f b := by
  have hlt : ∀ {x y : α}, x ∈ l → y ∈ l → l.idxOf x < l.idxOf y → f x < f y := by
    intro x y hx hy h
    have := List.pairwise_iff_getElem.mp hl _ _ (List.idxOf_lt_length_of_mem hx)
      (List.idxOf_lt_length_of_mem hy) h
    simpa using this
  rcases Nat.lt_trichotomy (l.idxOf a) (l.idxOf b) with h | h | h
  · exact iff_of_true h.le (hlt ha hb h).le
  · obtain rfl := (List.idxOf_inj ha).mp h
    simp
  · exact iff_of_false (by omega) (by have := hlt hb ha h; omega)

-- ---------------------------------------------------------------------------
-- The search
-- ---------------------------------------------------------------------------

/-- The loop of `pick_next` is the first minimum over the runnable slots it visits. -/
theorem pickNext_eq (s : Sched) :
    pickNext s = ((scanOrder s.current).filter fun i => (s.procs i).state = .runnable).argmin
      fun i => (s.procs i).priority := by
  rw [List.argmin, List.foldl_filter, pickNext]
  congr 1
  funext best idx
  unfold pickBetter List.argAux
  by_cases hr : (s.procs idx).state = .runnable
  · cases best <;> simp [hr]
  · simp [hr]

/-- What the comment of `pick_next` promises. -/
structure PickLaw (s : Sched) : Prop where
  none : pickNext s = none ↔ ∀ j, (s.procs j).state ≠ .runnable
  runnable : ∀ i, pickNext s = some i → (s.procs i).state = .runnable
  best : ∀ i, pickNext s = some i → ∀ j, (s.procs j).state = .runnable →
    (s.procs i).priority ≤ (s.procs j).priority
  rotates : ∀ i, pickNext s = some i → ∀ j, (s.procs j).state = .runnable →
    (s.procs j).priority = (s.procs i).priority → turnOf s.current i ≤ turnOf s.current j

theorem pickNext_law (s : Sched) : PickLaw s := by
  have hmem : ∀ i, i ∈ (scanOrder s.current).filter (fun i => (s.procs i).state = .runnable) ↔
      (s.procs i).state = .runnable := fun i => by simp [mem_scanOrder]
  have hsorted := (scanOrder_sorted s.current).filter fun i => (s.procs i).state = .runnable
  refine ⟨?_, fun i hi => ?_, fun i hi j hj => ?_, fun i hi j hj hle => ?_⟩
  · rw [pickNext_eq, List.argmin_eq_none, List.filter_eq_nil_iff]
    simp [mem_scanOrder]
  all_goals rw [pickNext_eq, List.argmin_eq_some_iff] at hi
  · exact (hmem i).mp hi.1
  · exact hi.2.1 j ((hmem j).mpr hj)
  · have hfirst := hi.2.2 j ((hmem j).mpr hj) hle.le
    exact (idxOf_le_of_sorted hsorted hi.1 ((hmem j).mpr hj)).mp hfirst

-- ---------------------------------------------------------------------------
-- The switch
-- ---------------------------------------------------------------------------

/-- `schedule` takes the CPU from a running process only for one at least as good. -/
def KeepsBest (s : Sched) : Prop :=
  ∀ prev next, s.current = some prev → (s.procs prev).state = .running →
    (schedule s).current = some next → next ≠ prev →
    (s.procs next).priority ≤ (s.procs prev).priority

/-- Something can run, and everything that can is worse than the process that runs. -/
def OnlyWorse (s : Sched) : Prop :=
  s.schedulerEnabled = true ∧ ∃ prev, s.current = some prev ∧ (s.procs prev).state = .running ∧
    (∃ j, (s.procs j).state = .runnable) ∧
    ∀ j, (s.procs j).state = .runnable → (s.procs prev).priority < (s.procs j).priority

/-- Where `schedule` goes from a running process. -/
theorem schedule_from_running {s : Sched} {prev : Fin maxProcs} (hc : s.current = some prev)
    (hrun : (s.procs prev).state = .running) :
    (schedule s).current =
      if s.schedulerEnabled then (pickNext s).or (some prev) else some prev := by
  unfold schedule
  by_cases he : s.schedulerEnabled = true
  · simp only [he, Bool.not_true, Bool.false_eq_true, if_false, if_true]
    cases hp : pickNext s with
    | none => simpa using hc
    | some next =>
      have hne : s.current ≠ some next := by
        rw [hc]
        rintro ⟨⟩
        exact absurd ((pickNext_law s).runnable prev hp) (by simp [hrun])
      simp [hne]
  · simpa [he] using hc

theorem keepsBest_iff (s : Sched) : KeepsBest s ↔ ¬ OnlyWorse s := by
  have hlaw := pickNext_law s
  constructor
  · rintro hk ⟨he, prev, hc, hrun, ⟨j, hj⟩, hworse⟩
    cases hp : pickNext s with
    | none => exact hlaw.none.mp hp j hj
    | some next =>
      have hnext := hlaw.runnable next hp
      have hne : next ≠ prev := by
        rintro rfl
        simp [hrun] at hnext
      have hle := hk prev next hc hrun (by simp [schedule_from_running hc hrun, he, hp]) hne
      have := hworse next hnext
      omega
  · intro hno prev next hc hrun hsched hne
    rw [schedule_from_running hc hrun] at hsched
    by_cases he : s.schedulerEnabled = true
    · rw [if_pos he] at hsched
      cases hp : pickNext s with
      | none => exact absurd (by simpa [hp] using hsched.symm) hne
      | some i =>
        obtain rfl : i = next := by simpa [hp] using hsched
        -- were the best candidate worse, every candidate would be
        by_contra hlt
        refine hno ⟨he, prev, hc, hrun, ⟨i, hlaw.runnable i hp⟩, fun j hj => ?_⟩
        have := hlaw.best i hp j hj
        omega
    · rw [if_neg he] at hsched
      exact absurd (Option.some.inj hsched).symm hne

/-- **Priority and rotation.** The search always finds the first of the best, and
`schedule` keeps a running process that is better than whatever else can run exactly
when there is no such situation: the process that runs is `RUNNING`, so it is no candidate
itself, and a worse process gets the CPU. -/
theorem schedule_keeps_best_iff (s : Sched) : PickLaw s ∧ KeepsBest s ↔ ¬ OnlyWorse s := by
  rw [keepsBest_iff]
  exact and_iff_right (pickNext_law s)

/-- Slot 0 runs with priority 0, and slot 1 waits for the CPU with priority 5. -/
def urgentRuns : Sched :=
  { schedInit with
    current := some ⟨0, by decide⟩
    schedulerEnabled := true
    procs := fun i =>
      if i.val = 0 then { zeroProcess with state := .running, priority := 0 }
      else if i.val = 1 then { zeroProcess with state := .runnable, priority := 5 }
      else zeroProcess }

theorem urgent_process_loses_cpu : ¬ ∀ s, PickLaw s ∧ KeepsBest s := by
  intro h
  refine (keepsBest_iff urgentRuns).mp (h urgentRuns).2
    ⟨rfl, ⟨0, by decide⟩, rfl, rfl, ⟨⟨1, by decide⟩, rfl⟩, fun j hj => ?_⟩
  by_cases h0 : j.val = 0
  · simp [urgentRuns, h0] at hj
  · by_cases h1 : j.val = 1
    · simp [urgentRuns, h1]
    · simp [urgentRuns, h0, h1, zeroProcess] at hj

end Lestra
