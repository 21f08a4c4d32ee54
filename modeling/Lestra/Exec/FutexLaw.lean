import Lestra.Exec.Futex
import Lestra.Lib.FirstFit
import Lestra.Lib.Run
import Lestra.Sched.Blocking
import Mathlib.Data.Fintype.Card

/-!
# The futex wake law

* `FutexOk` — the cells of the buckets and the waiting processes correspond
* `wakeLoop_spec` — the loop of `FUTEX_WAKE` wakes as many as it counts
* `futex_wake_law` — both hold in every run in which waiters find room and block, and
  no signal takes them out of the call
-/

namespace Lestra

namespace FutexSys

-- ---------------------------------------------------------------------------
-- Waiting processes
-- ---------------------------------------------------------------------------

/-- Process `i` is blocked in a wait on `uaddr`. -/
def Waiting (s : FutexSys) (i : Fin maxProcs) (uaddr : BitVec 64) : Prop :=
  (s.sched.procs i).state = .blocked ∧ s.waits i = some uaddr

instance (s : FutexSys) (i : Fin maxProcs) (uaddr : BitVec 64) : Decidable (s.Waiting i uaddr) :=
  inferInstanceAs (Decidable (_ ∧ _))

/-- The processes waiting on `uaddr`. -/
def waitersOn (s : FutexSys) (uaddr : BitVec 64) : Finset (Fin maxProcs) :=
  {i | s.Waiting i uaddr}

/-- Cell `j` of bucket `b` registers process `i` for `uaddr`. -/
def Registers (s : FutexSys) (b : Fin futexHashBuckets) (j : Fin bucketCells) (i : Fin maxProcs)
    (uaddr : BitVec 64) : Prop :=
  ∃ idx, s.buckets b j = some idx ∧ (s.waiters idx).inUse = true ∧
    (s.waiters idx).task = some i ∧ (s.waiters idx).uaddr = uaddr

/-- A waiting process is registered in the bucket of its address, in one cell and nowhere
else; any other process is registered nowhere. -/
structure Registered (s : FutexSys) : Prop where
  waiting : ∀ i u, s.Waiting i u → ∃ j, s.Registers (futexHash u) j i u ∧
    ∀ b' j' idx, s.buckets b' j' = some idx → (s.waiters idx).task = some i →
      b' = futexHash u ∧ j' = j
  others : ∀ i, (∀ u, ¬ s.Waiting i u) →
    (∀ b j idx, s.buckets b j = some idx → (s.waiters idx).task ≠ some i) ∧
    ∀ idx, (s.waiters idx).inUse = true → (s.waiters idx).task ≠ some i

/-- The invariant. -/
structure FutexOk (s : FutexSys) : Prop where
  awake : Awake s.sched
  current : ∃ c, s.sched.current = some c
  entry : ∀ b j idx, s.buckets b j = some idx → (s.waiters idx).inUse = true ∧
    b = futexHash (s.waiters idx).uaddr ∧
    ∃ i, (s.waiters idx).task = some i ∧ s.Waiting i (s.waiters idx).uaddr
  once : ∀ b j idx b' j' idx', s.buckets b j = some idx → s.buckets b' j' = some idx' →
    (s.waiters idx).task = (s.waiters idx').task → b = b' ∧ j = j'
  waiting : ∀ i u, s.Waiting i u → ∃ j idx, s.buckets (futexHash u) j = some idx ∧
    (s.waiters idx).task = some i
  used : ∀ idx, (s.waiters idx).inUse = true → ∃ b j, s.buckets b j = some idx

variable {s s' s'' : FutexSys} {b : Fin futexHashBuckets} {j : Fin bucketCells}
  {idx : Fin maxFutexWaiters} {i c : Fin maxProcs} {u : BitVec 64}

theorem Waiting.unique {v : BitVec 64} (h : s.Waiting i u) (h' : s.Waiting i v) : u = v :=
  Option.some.inj (h.2.symm.trans h'.2)

theorem mem_waitersOn : i ∈ s.waitersOn u ↔ s.Waiting i u := by
  simp [waitersOn]

theorem FutexOk.registered (h : FutexOk s) : s.Registered := by
  refine ⟨fun i u hw => ?_, fun i hw => ?_⟩
  · obtain ⟨j, idx, hcell, htask⟩ := h.waiting i u hw
    obtain ⟨huse, _, i', htask', hw'⟩ := h.entry _ j idx hcell
    obtain rfl : i = i' := Option.some.inj (htask.symm.trans htask')
    refine ⟨j, ⟨idx, hcell, huse, htask, hw'.unique hw⟩, fun b' j' idx' hcell' ht => ?_⟩
    obtain ⟨hb, hj⟩ := h.once _ _ _ _ _ _ hcell hcell' (htask.trans ht.symm)
    exact ⟨hb.symm, hj.symm⟩
  · have hcells : ∀ b j idx, s.buckets b j = some idx → (s.waiters idx).task ≠ some i := by
      intro b j idx hcell ht
      obtain ⟨_, _, i', htask, hwait⟩ := h.entry b j idx hcell
      obtain rfl : i = i' := Option.some.inj (ht.symm.trans htask)
      exact hw _ hwait
    refine ⟨hcells, fun idx huse => ?_⟩
    obtain ⟨b, j, hcell⟩ := h.used idx huse
    exact hcells b j idx hcell

/-- The current process waits nowhere. -/
theorem FutexOk.not_waiting (h : FutexOk s) (hc : s.sched.current = some c) (u : BitVec 64) :
    ¬ s.Waiting c u := fun hw => h.awake c hc hw.1

/-- A step that leaves the tables and the waiting processes alone. -/
theorem FutexOk.congr (h : FutexOk s) (hawake : Awake s'.sched)
    (hcur : ∃ c, s'.sched.current = some c) (hwaiters : s'.waiters = s.waiters)
    (hbuckets : s'.buckets = s.buckets) (hwait : ∀ i u, s'.Waiting i u ↔ s.Waiting i u) :
    FutexOk s' := by
  refine ⟨hawake, hcur, fun b j idx hcell => ?_, fun b j idx b' j' idx' hcell hcell' => ?_,
    fun i u hw => ?_, fun idx huse => ?_⟩
  · rw [hbuckets] at hcell
    rw [hwaiters]
    obtain ⟨huse, hb, i, htask, hw⟩ := h.entry b j idx hcell
    exact ⟨huse, hb, i, htask, (hwait i _).mpr hw⟩
  · rw [hbuckets] at hcell hcell'
    rw [hwaiters]
    exact h.once b j idx b' j' idx' hcell hcell'
  · rw [hbuckets, hwaiters]
    exact h.waiting i u ((hwait i u).mp hw)
  · rw [hwaiters] at huse
    rw [hbuckets]
    exact h.used idx huse

-- ---------------------------------------------------------------------------
-- Cells
-- ---------------------------------------------------------------------------

theorem setCell_same (cell : Option (Fin maxFutexWaiters)) :
    (s.setCell b j cell).buckets b j = cell := by simp [setCell]

theorem setCell_ne {b' : Fin futexHashBuckets} {j' : Fin bucketCells}
    (cell : Option (Fin maxFutexWaiters)) (h : ¬ (b' = b ∧ j' = j)) :
    (s.setCell b j cell).buckets b' j' = s.buckets b' j' := by
  by_cases hb : b' = b
  · subst hb
    have hj : j' ≠ j := fun he => h ⟨rfl, he⟩
    simp [setCell, hj]
  · simp [setCell, hb]

theorem findCell_some {cell : Option (Fin maxFutexWaiters)} (h : s.findCell b cell = some j) :
    s.buckets b j = cell := by
  simpa using FirstFit.mem_of_some h

theorem findCell_of_mem {cell : Option (Fin maxFutexWaiters)} (h : s.buckets b j = cell) :
    ∃ j', s.findCell b cell = some j' := by
  cases hf : s.findCell b cell with
  | some j' => exact ⟨j', rfl⟩
  | none =>
    have := FirstFit.eq_none_iff.mp hf j
    simp [h] at this

theorem bucketRemove_eq (h : s.findCell b (some idx) = some j) :
    s.bucketRemove b idx = s.setCell b j none := by
  rw [bucketRemove, h]

-- ---------------------------------------------------------------------------
-- Waking one
-- ---------------------------------------------------------------------------

/-- What the wakeup of process `i`, registered in cell `j` of bucket `b`, changes. -/
structure WokeOne (s s' : FutexSys) (b : Fin futexHashBuckets) (j : Fin bucketCells)
    (idx : Fin maxFutexWaiters) (i : Fin maxProcs) : Prop where
  sched : s'.sched = s.sched.setState i .runnable
  waits : s'.waits = s.waits
  waiter : (s'.waiters idx).inUse = false
  waiters : ∀ idx', idx' ≠ idx → s'.waiters idx' = s.waiters idx'
  cell : s'.buckets b j = none
  cells : ∀ b' j', ¬ (b' = b ∧ j' = j) → s'.buckets b' j' = s.buckets b' j'

theorem FutexOk.wakeWaiter (h : FutexOk s) (hcell : s.buckets b j = some idx)
    (htask : (s.waiters idx).task = some i) : WokeOne s (s.wakeWaiter b idx) b j idx i := by
  obtain ⟨_, _, i', htask', hwait⟩ := h.entry b j idx hcell
  obtain rfl : i = i' := Option.some.inj (htask.symm.trans htask')
  obtain ⟨j', hj'⟩ := findCell_of_mem hcell
  obtain ⟨_, rfl⟩ := h.once b j idx b j' idx hcell (findCell_some hj') rfl
  have hsched : taskUnblock s.sched i = s.sched.setState i .runnable := if_pos hwait.1
  have heq : s.wakeWaiter b idx = ({ s with sched := s.sched.setState i .runnable }.setWaiter idx
      { s.waiters idx with inUse := false }).setCell b j none := by
    refine Eq.trans ?_ (bucketRemove_eq hj')
    simp only [FutexSys.wakeWaiter, htask, hsched]
  rw [heq]
  exact ⟨rfl, rfl, by simp [setCell, setWaiter], fun idx' hne => by simp [setCell, setWaiter, hne],
    setCell_same none, fun b' j' hne => setCell_ne none hne⟩

namespace WokeOne

theorem waiting_iff {v : BitVec 64} {k : Fin maxProcs} (hw : WokeOne s s' b j idx i) :
    s'.Waiting k v ↔ s.Waiting k v ∧ k ≠ i := by
  unfold Waiting
  rw [hw.sched, hw.waits, Sched.setState_state]
  by_cases hk : k = i
  · simp [hk]
  · simp [hk]

theorem futexOk (hw : WokeOne s s' b j idx i) (h : FutexOk s)
    (hcell : s.buckets b j = some idx) (htask : (s.waiters idx).task = some i) : FutexOk s' := by
  -- another cell is of another waiter and of another process
  have hother : ∀ b' j' idx', s'.buckets b' j' = some idx' → s.buckets b' j' = some idx' ∧
      s'.waiters idx' = s.waiters idx' ∧ (s.waiters idx').task ≠ some i := by
    intro b' j' idx' hcell'
    have hne : ¬ (b' = b ∧ j' = j) := by
      rintro ⟨rfl, rfl⟩
      rw [hw.cell] at hcell'
      cases hcell'
    rw [hw.cells b' j' hne] at hcell'
    have htask' : (s.waiters idx').task ≠ some i := fun ht =>
      hne (h.once _ _ _ _ _ _ hcell' hcell (ht.trans htask.symm))
    have hidx : idx' ≠ idx := fun he => htask' (he ▸ htask)
    exact ⟨hcell', hw.waiters idx' hidx, htask'⟩
  have hstate : ∀ c, (s'.sched.procs c).state = .blocked → (s.sched.procs c).state = .blocked := by
    intro c hb
    rw [hw.sched, Sched.setState_state] at hb
    split at hb
    · cases hb
    · exact hb
  refine ⟨fun c hc hb => ?_, ?_, fun b' j' idx' hcell' => ?_,
    fun b₁ j₁ idx₁ b₂ j₂ idx₂ h₁ h₂ ht => ?_, fun k v hk => ?_, fun idx' huse => ?_⟩
  · rw [hw.sched] at hc
    exact h.awake c hc (hstate c hb)
  · rw [hw.sched]
    exact h.current
  · obtain ⟨hcell', he, hne⟩ := hother b' j' idx' hcell'
    obtain ⟨huse, hb, k, hk, hwait⟩ := h.entry b' j' idx' hcell'
    rw [he]
    exact ⟨huse, hb, k, hk, hw.waiting_iff.mpr ⟨hwait, fun hki => hne (hki ▸ hk)⟩⟩
  · obtain ⟨h₁, he₁, _⟩ := hother b₁ j₁ idx₁ h₁
    obtain ⟨h₂, he₂, _⟩ := hother b₂ j₂ idx₂ h₂
    rw [he₁, he₂] at ht
    exact h.once _ _ _ _ _ _ h₁ h₂ ht
  · obtain ⟨hk, hne⟩ := hw.waiting_iff.mp hk
    obtain ⟨j', idx', hcell', hk'⟩ := h.waiting k v hk
    have htask' : (s.waiters idx').task ≠ some i := by
      rw [hk']
      exact fun he => hne (Option.some.inj he)
    have hidx : idx' ≠ idx := fun he => htask' (he ▸ htask)
    have hcells : ¬ (futexHash v = b ∧ j' = j) := by
      rintro ⟨hb, rfl⟩
      rw [hb, hcell] at hcell'
      exact hidx (Option.some.inj hcell').symm
    exact ⟨j', idx', by rw [hw.cells _ _ hcells]; exact hcell', by rw [hw.waiters _ hidx]; exact hk'⟩
  · have hidx : idx' ≠ idx := by
      rintro rfl
      rw [hw.waiter] at huse
      cases huse
    rw [hw.waiters idx' hidx] at huse
    obtain ⟨b', j', hcell'⟩ := h.used idx' huse
    refine ⟨b', j', ?_⟩
    rw [hw.cells b' j']
    · exact hcell'
    · rintro ⟨rfl, rfl⟩
      rw [hcell] at hcell'
      exact hidx (Option.some.inj hcell').symm

end WokeOne

-- ---------------------------------------------------------------------------
-- Waking many
-- ---------------------------------------------------------------------------

/-- Of the processes that waited on `u`, `m` are runnable now, and nothing happened to any
other process. -/
structure Awakened (s s' : FutexSys) (u : BitVec 64) (m : Nat) : Prop where
  subset : s'.waitersOn u ⊆ s.waitersOn u
  card : (s.waitersOn u).card = (s'.waitersOn u).card + m
  woken : ∀ i ∈ s.waitersOn u, i ∉ s'.waitersOn u → (s'.sched.procs i).state = .runnable
  same : ∀ i, (i ∈ s.waitersOn u → i ∈ s'.waitersOn u) → s'.sched.procs i = s.sched.procs i

theorem Awakened.refl (s : FutexSys) (u : BitVec 64) : Awakened s s u 0 :=
  ⟨fun _ h => h, rfl, fun _ h hn => absurd h hn, fun _ _ => rfl⟩

theorem WokeOne.awakened (hw : WokeOne s s' b j idx i) (hwait : s.Waiting i u) :
    Awakened s s' u 1 := by
  have hset : s'.waitersOn u = (s.waitersOn u).erase i := by
    ext k
    rw [mem_waitersOn, hw.waiting_iff, Finset.mem_erase, mem_waitersOn, and_comm]
  have hmem : i ∈ s.waitersOn u := mem_waitersOn.mpr hwait
  refine ⟨by rw [hset]; exact Finset.erase_subset .., ?_, fun k hk hk' => ?_, fun k hk => ?_⟩
  · rw [hset, Finset.card_erase_add_one hmem]
  · have hki : k = i := by
      by_contra hne
      rw [hset] at hk'
      exact hk' (Finset.mem_erase.mpr ⟨hne, hk⟩)
    rw [hw.sched, hki, Sched.setState_same]
  · have hki : k ≠ i := by
      rintro rfl
      have := hk hmem
      rw [hset] at this
      exact Finset.notMem_erase k _ this
    rw [hw.sched, Sched.setState_ne _ hki]

theorem Awakened.trans {m n : Nat} (h : Awakened s s' u m) (h' : Awakened s' s'' u n) :
    Awakened s s'' u (n + m) := by
  refine ⟨h'.subset.trans h.subset, ?_, fun i hi hi' => ?_, fun i hi => ?_⟩
  · have := h.card
    have := h'.card
    omega
  · by_cases hmid : i ∈ s'.waitersOn u
    · exact h'.woken i hmid hi'
    · rw [h'.same i fun hm => absurd hm hmid]
      exact h.woken i hi hmid
  · rw [h'.same i fun hm => hi (h.subset hm), h.same i fun hm => h'.subset (hi hm)]

/-- The loop wakes as many waiters as it counts, at most `n`, and without a mask it stops
early only when nobody waits on the address any more. The induction is on the cells
left; those before are of no waiter on the address. -/
theorem wakeLoop_spec {n woken : Int} (mask : Option (BitVec 32)) (cells : List (Fin bucketCells))
    (h : FutexOk s) (hle : woken ≤ n)
    (hdone : mask = none → ∀ j, j ∉ cells → ∀ idx, s.buckets (futexHash u) j = some idx →
      (s.waiters idx).uaddr ≠ u) :
    ∃ m : Nat, (s.wakeLoop (futexHash u) u mask n cells woken).2 = woken + m ∧ woken + m ≤ n ∧
      FutexOk (s.wakeLoop (futexHash u) u mask n cells woken).1 ∧
      Awakened s (s.wakeLoop (futexHash u) u mask n cells woken).1 u m ∧
      (mask = none → woken + m = n ∨
        (s.wakeLoop (futexHash u) u mask n cells woken).1.waitersOn u = ∅) := by
  induction cells generalizing s woken with
  | nil =>
    refine ⟨0, by simp [wakeLoop], by simpa using hle, h, .refl s u, fun hmask => .inr ?_⟩
    refine Finset.eq_empty_of_forall_notMem fun i hi => ?_
    obtain ⟨j, idx, hcell, htask⟩ := h.waiting i u (mem_waitersOn.mp hi)
    obtain ⟨_, _, i', htask', hw⟩ := h.entry _ j idx hcell
    obtain rfl : i = i' := Option.some.inj (htask.symm.trans htask')
    exact hdone hmask j (by simp) idx hcell (hw.unique (mem_waitersOn.mp hi))
  | cons j cells ih =>
    unfold wakeLoop
    split
    case isTrue hstop =>
      exact ⟨0, by simp, by simpa using hle, h, .refl s u, fun _ => .inl (by simp; omega)⟩
    case isFalse hgo =>
      -- a cell that does not match is done
      have hskip : (∀ idx, s.buckets (futexHash u) j = some idx → mask = none →
          (s.waiters idx).uaddr ≠ u) → mask = none → ∀ j', j' ∉ cells → ∀ idx,
          s.buckets (futexHash u) j' = some idx → (s.waiters idx).uaddr ≠ u := by
        intro hj hmask j' hj' idx hcell
        by_cases he : j' = j
        · exact hj idx (he ▸ hcell) hmask
        · exact hdone hmask j' (by simp [he, hj']) idx hcell
      cases hcell : s.buckets (futexHash u) j with
      | none => exact ih h hle (hskip fun idx hidx => by rw [hcell] at hidx; cases hidx)
      | some idx =>
        obtain ⟨huse, _, i, htask, hwait⟩ := h.entry _ j idx hcell
        dsimp only
        split
        case isTrue hmatch =>
          have haddr : (s.waiters idx).uaddr = u := by
            simp only [wakes, Bool.and_eq_true, decide_eq_true_eq] at hmatch
            exact hmatch.1.2
          have hw := h.wakeWaiter hcell htask
          rw [haddr] at hwait
          have hone := hw.awakened hwait
          obtain ⟨m, hret, hmax, hok, hmany, hend⟩ := ih (hw.futexOk h hcell htask)
            (show woken + 1 ≤ n by omega) (fun hmask j' hj' idx' hcell' => by
              by_cases he : j' = j
              · rw [he, hw.cell] at hcell'
                cases hcell'
              · rw [hw.cells _ j' fun hh => he hh.2] at hcell'
                have hne : idx' ≠ idx := by
                  rintro rfl
                  exact he (h.once _ _ _ _ _ _ hcell' hcell rfl).2
                rw [hw.waiters idx' hne]
                exact hdone hmask j' (by simp [he, hj']) idx' hcell')
          refine ⟨m + 1, ?_, ?_, hok, hone.trans hmany, fun hmask => ?_⟩
          · rw [hret]
            push_cast
            omega
          · push_cast
            omega
          · rcases hend hmask with he | he
            · left
              push_cast
              omega
            · exact .inr he
        case isFalse hmatch =>
          refine ih h hle (hskip fun idx' hidx' hmask haddr => hmatch ?_)
          obtain rfl : idx = idx' := Option.some.inj (hcell.symm.trans hidx')
          simp [wakes, huse, haddr, hmask]

/-- What `FUTEX_WAKE(u, n)` promises. -/
structure WakeLaw (s s' : FutexSys) (u : BitVec 64) (n : Nat) (ret : Option Int) : Prop where
  ret : ret = some ((min n (s.waitersOn u).card : Nat) : Int)
  awakened : Awakened s s' u (min n (s.waitersOn u).card)

/-- A negative `(int)val` wakes nobody. -/
theorem wakeLoop_neg {mask : Option (BitVec 32)} {n : Int} (hn : n ≤ 0)
    (cells : List (Fin bucketCells)) : s.wakeLoop b u mask n cells 0 = (s, 0) := by
  cases cells with
  | nil => rfl
  | cons j cells =>
    unfold wakeLoop
    rw [if_pos (by omega)]

theorem FutexOk.wakeAll_ok (h : FutexOk s) (u : BitVec 64) (val : BitVec 32)
    (mask : Option (BitVec 32)) : FutexOk (s.wakeAll u val mask).1 := by
  by_cases hn : 0 ≤ val.toInt
  · obtain ⟨_, _, _, hok, _⟩ := wakeLoop_spec (u := u) mask
      (List.finRange bucketCells) h hn fun _ j hj => absurd (List.mem_finRange j) hj
    exact hok
  · unfold FutexSys.wakeAll
    rw [wakeLoop_neg (by omega)]
    exact h

theorem FutexOk.wakeAll_law {val : BitVec 32} (h : FutexOk s)
    (hn : val.toNat < 2 ^ 31 ∨ s.waitersOn u = ∅) :
    WakeLaw s (s.wakeAll u val none).1 u val.toNat (s.wakeAll u val none).2 := by
  by_cases hval : val.toNat < 2 ^ 31
  · have hint : val.toInt = val.toNat := BitVec.toInt_eq_toNat_of_lt (by omega)
    obtain ⟨m, hret, hmax, _, hwoken, hend⟩ := wakeLoop_spec (u := u) none
      (List.finRange bucketCells) h (show 0 ≤ val.toInt by omega)
      fun _ j hj => absurd (List.mem_finRange j) hj
    have hm : m = min val.toNat (s.waitersOn u).card := by
      have hcard := hwoken.card
      rcases hend rfl with he | he
      · omega
      · rw [he, Finset.card_empty] at hcard
        omega
    refine ⟨?_, hm ▸ hwoken⟩
    unfold FutexSys.wakeAll
    dsimp only
    rw [hret, ← hm, Int.zero_add]
  · have hempty := hn.resolve_left hval
    have hneg : val.toInt ≤ 0 := by
      have := BitVec.toInt_eq_toNat_cond val
      rw [if_neg (by omega)] at this
      have := val.isLt
      omega
    have hnone : s.wakeAll u val none = (s, some 0) := by
      unfold FutexSys.wakeAll
      rw [wakeLoop_neg hneg]
    rw [hnone]
    exact ⟨by simp [hempty], by simpa [hempty] using Awakened.refl s u⟩

-- ---------------------------------------------------------------------------
-- Waiting
-- ---------------------------------------------------------------------------

/-- A wait on `u` finds a cell and another process to run. -/
def CanWait (s : FutexSys) (u : BitVec 64) : Prop :=
  (∃ j, s.buckets (futexHash u) j = none) ∧ s.sched.schedulerEnabled = true ∧
    ∃ i, s.sched.current ≠ some i ∧ (s.sched.procs i).state = .runnable

/-- What a wait of process `c` on `u` changes. -/
structure Enqueued (s s' : FutexSys) (c : Fin maxProcs) (u : BitVec 64) (j : Fin bucketCells)
    (idx : Fin maxFutexWaiters) : Prop where
  unused : (s.waiters idx).inUse = false
  empty : s.buckets (futexHash u) j = none
  waiter : (s'.waiters idx).inUse = true ∧ (s'.waiters idx).uaddr = u ∧
    (s'.waiters idx).task = some c
  waiters : ∀ idx', idx' ≠ idx → s'.waiters idx' = s.waiters idx'
  cell : s'.buckets (futexHash u) j = some idx
  cells : ∀ b' j', ¬ (b' = futexHash u ∧ j' = j) → s'.buckets b' j' = s.buckets b' j'
  waiting : ∀ i v, s'.Waiting i v ↔ i = c ∧ v = u ∨ s.Waiting i v
  awake : Awake s'.sched
  current : ∃ c, s'.sched.current = some c

theorem FutexOk.enqueue {val bitset : BitVec 32} (h : FutexOk s) (hc : s.sched.current = some c)
    (hok : CanWait s u) :
    (s.wait u val bitset val).1 = s ∨
      ∃ j idx, Enqueued s (s.wait u val bitset val).1 c u j idx := by
  obtain ⟨⟨j₀, hj₀⟩, hen, k, hk, hr⟩ := hok
  have hkc : k ≠ c := fun he => hk (he ▸ hc)
  unfold FutexSys.wait
  rw [if_neg (by simp)]
  cases hslot : s.allocWaiter with
  | none => exact .inl rfl
  | some idx =>
    obtain ⟨j, hj⟩ := findCell_of_mem hj₀
    have hunused : (s.waiters idx).inUse = false := by
      simpa using FirstFit.mem_of_some hslot
    refine .inr ⟨j, idx, ?_⟩
    generalize hw : (⟨true, u, s.sched.current, val, bitset, procGetpid s.sched⟩ : FutexWaiter) = w
    have hadd : (s.setWaiter idx w).bucketAdd (futexHash u) idx =
        (s.setWaiter idx w).setCell (futexHash u) j (some idx) := by
      have hfind : (s.setWaiter idx w).findCell (futexHash u) none = some j := hj
      rw [bucketAdd, hfind]
    dsimp only
    rw [hadd]
    have hwaits : (((s.setWaiter idx w).setCell (futexHash u) j (some idx)).block u).waits =
        Function.update s.waits c (some u) := by
      have hcur : ((s.setWaiter idx w).setCell (futexHash u) j (some idx)).sched.current = some c := hc
      simp only [FutexSys.block, hcur]
      rfl
    have hblocks := taskBlock_blocksOnly s.sched
    refine ⟨hunused, findCell_some hj, ?_, fun idx' hne => ?_, setCell_same _,
      fun b' j' hne => setCell_ne _ hne, fun i v => ?_, hblocks.awake h.awake, ?_⟩
    · have hself : (((s.setWaiter idx w).setCell (futexHash u) j (some idx)).block u).waiters idx =
          w := Function.update_self ..
      rw [hself, ← hw]
      exact ⟨rfl, rfl, hc⟩
    · exact Function.update_of_ne hne ..
    · have hstate : ((((s.setWaiter idx w).setCell (futexHash u) j (some idx)).block
          u).sched.procs i).state = ((taskBlock s.sched).procs i).state := rfl
      unfold Waiting
      rw [hstate, hwaits]
      by_cases hi : i = c
      · subst hi
        have hnot : ¬ ((s.sched.procs i).state = .blocked ∧ s.waits i = some v) :=
          h.not_waiting hc v
        rw [taskBlock_self hc hen hkc hr, Function.update_self, or_iff_left hnot]
        constructor
        · rintro ⟨_, hv⟩
          exact ⟨rfl, (Option.some.inj hv).symm⟩
        · rintro ⟨_, rfl⟩
          exact ⟨rfl, rfl⟩
      · have hne : s.sched.current ≠ some i := fun he => hi (Option.some.inj (he.symm.trans hc))
        rw [taskBlock_blocked hne, Function.update_of_ne hi]
        simp [hi]
    · rcases hblocks.resched.current with he | ⟨c', hc', _⟩
      · exact ⟨c, he.trans hc⟩
      · exact ⟨c', hc'⟩

theorem Enqueued.futexOk (he : Enqueued s s' c u j idx) (h : FutexOk s)
    (hc : s.sched.current = some c) : FutexOk s' := by
  -- a cell is the new one, or an old one of another waiter and another process
  have hcases : ∀ b' j' idx', s'.buckets b' j' = some idx' →
      (b' = futexHash u ∧ j' = j ∧ idx' = idx) ∨
      (s.buckets b' j' = some idx' ∧ s'.waiters idx' = s.waiters idx' ∧
        (s'.waiters idx').task ≠ some c) := by
    intro b' j' idx' hcell
    by_cases hnew : b' = futexHash u ∧ j' = j
    · obtain ⟨rfl, rfl⟩ := hnew
      exact .inl ⟨rfl, rfl, (Option.some.inj (he.cell.symm.trans hcell)).symm⟩
    · rw [he.cells b' j' hnew] at hcell
      obtain ⟨huse, _, i, htask, hw⟩ := h.entry b' j' idx' hcell
      have hidx : idx' ≠ idx := by
        rintro rfl
        rw [he.unused] at huse
        cases huse
      refine .inr ⟨hcell, he.waiters idx' hidx, ?_⟩
      rw [he.waiters idx' hidx, htask]
      intro hic
      obtain rfl := Option.some.inj hic
      exact h.not_waiting hc _ hw
  obtain ⟨huse, haddr, htask⟩ := he.waiter
  refine ⟨he.awake, he.current, fun b' j' idx' hcell => ?_,
    fun b₁ j₁ idx₁ b₂ j₂ idx₂ h₁ h₂ ht => ?_, fun i v hw => ?_, fun idx' huse' => ?_⟩
  · rcases hcases b' j' idx' hcell with ⟨rfl, rfl, rfl⟩ | ⟨hold, hsame, _⟩
    · rw [haddr]
      exact ⟨huse, rfl, c, htask, (he.waiting c u).mpr (.inl ⟨rfl, rfl⟩)⟩
    · rw [hsame]
      obtain ⟨huse', hb, i, hi, hw⟩ := h.entry b' j' idx' hold
      exact ⟨huse', hb, i, hi, (he.waiting i _).mpr (.inr hw)⟩
  · rcases hcases b₁ j₁ idx₁ h₁ with ⟨rfl, rfl, rfl⟩ | ⟨hold₁, hsame₁, hne₁⟩ <;>
      rcases hcases b₂ j₂ idx₂ h₂ with ⟨rfl, rfl, rfl⟩ | ⟨hold₂, hsame₂, hne₂⟩
    · exact ⟨rfl, rfl⟩
    · exact absurd (ht.symm.trans htask) hne₂
    · exact absurd (ht.trans htask) hne₁
    · rw [hsame₁, hsame₂] at ht
      exact h.once _ _ _ _ _ _ hold₁ hold₂ ht
  · rcases (he.waiting i v).mp hw with ⟨rfl, rfl⟩ | hw
    · exact ⟨j, idx, he.cell, htask⟩
    · obtain ⟨j', idx', hcell, hi⟩ := h.waiting i v hw
      have hne : ¬ (futexHash v = futexHash u ∧ j' = j) := by
        rintro ⟨hb, rfl⟩
        rw [hb, he.empty] at hcell
        cases hcell
      have hidx : idx' ≠ idx := by
        rintro rfl
        have huse' := (h.entry _ _ _ hcell).1
        rw [he.unused] at huse'
        cases huse'
      exact ⟨j', idx', by rw [he.cells _ _ hne]; exact hcell, by rw [he.waiters _ hidx]; exact hi⟩
  · by_cases hidx : idx' = idx
    · exact ⟨futexHash u, j, by rw [hidx]; exact he.cell⟩
    · rw [he.waiters idx' hidx] at huse'
      obtain ⟨b', j', hcell⟩ := h.used idx' huse'
      have hne : ¬ (b' = futexHash u ∧ j' = j) := by
        rintro ⟨rfl, rfl⟩
        rw [he.empty] at hcell
        cases hcell
      exact ⟨b', j', by rw [he.cells b' j' hne]; exact hcell⟩

theorem FutexOk.wait {val bitset word : BitVec 32} (h : FutexOk s)
    (hok : word = val → CanWait s u) : FutexOk (s.wait u val bitset word).1 := by
  obtain ⟨c, hc⟩ := h.current
  by_cases hword : word = val
  · subst hword
    rcases h.enqueue hc (hok rfl) with he | ⟨j, idx, he⟩
    · rw [he]
      exact h
    · exact he.futexOk h hc
  · unfold FutexSys.wait
    rw [if_pos hword]
    exact h

end FutexSys

-- ---------------------------------------------------------------------------
-- Runs
-- ---------------------------------------------------------------------------

/-- The futex calls of the current process, signals, and what else blocks and switches
processes. `resume` is the current process returning from a wait, `block` its blocking
anywhere else. -/
inductive FutexOp where
  | call (uaddr : BitVec 64) (op val val3 word : BitVec 32)
  | resume
  | kill (pid sig : Int)
  | block
  | schedule

namespace FutexSys

variable {s : FutexSys} {u : BitVec 64}

def step (s : FutexSys) : FutexOp → FutexSys
  | .call uaddr op val val3 word => (s.futexDispatch uaddr op val val3 word).1
  | .resume =>
    match s.sched.current with
    | none => s
    | some c => (s.resume c).1
  | .kill pid sig => { s with sched := (signalKill s.sched pid sig).1 }
  | .block =>
    { s with
      sched := taskBlock s.sched
      waits := match s.sched.current with
        | none => s.waits
        | some c => Function.update s.waits c none }
  | .schedule => { s with sched := Lestra.schedule s.sched }

/-- Waits find room and block, wakes count with a positive `int` or find nobody, and no
signal goes to a waiting process. -/
def Undisturbed (s : FutexSys) : FutexOp → Prop
  | .call uaddr op val _ word => accessOk uaddr 4#64 = true →
      ((opClean op = futexWait ∨ opClean op = futexWaitBitset) → word = val → CanWait s uaddr) ∧
      (opClean op = futexWake → val.toNat < 2 ^ 31 ∨ s.waitersOn uaddr = ∅)
  | .kill pid sig => ∀ i, Signals s.sched pid sig i → ∀ u, ¬ s.Waiting i u
  | _ => True

theorem futexDispatch_wake {op val val3 word : BitVec 32} (hu : accessOk u 4#64 = true)
    (hop : opClean op = futexWake) :
    s.futexDispatch u op val val3 word = s.wakeAll u val none := by
  have hne : u ≠ 0#64 := by
    rintro rfl
    simp [accessOk] at hu
  unfold futexDispatch
  rw [if_neg hne, if_neg (by simpa using hu), hop]
  rfl

theorem FutexOk.futexDispatch {op val val3 word : BitVec 32} (h : FutexOk s)
    (hok : Undisturbed s (.call u op val val3 word)) :
    FutexOk (s.futexDispatch u op val val3 word).1 := by
  unfold FutexSys.futexDispatch
  split
  · exact h
  · split
    · exact h
    case isFalse hu =>
      have hwait := (hok (by simpa using hu)).1
      split
      case isTrue hop => exact h.wait (hwait (.inl hop))
      case isFalse =>
        split
        case isTrue hop => exact h.wait (hwait (.inr hop))
        case isFalse =>
          split
          · exact h.wakeAll_ok u val none
          · split
            · exact h.wakeAll_ok u val (some val3)
            · exact h

theorem FutexOk.step {op : FutexOp} (h : FutexOk s) (hok : Undisturbed s op) :
    FutexOk (s.step op) := by
  obtain ⟨c, hc⟩ := h.current
  cases op with
  | call uaddr op val val3 word => exact h.futexDispatch hok
  | resume =>
    unfold FutexSys.step
    rw [hc]
    refine h.congr h.awake h.current rfl rfl fun i u => ?_
    unfold Waiting
    by_cases hi : i = c
    · subst hi
      exact iff_of_false (fun hw => h.awake i hc hw.1) (fun hw => h.awake i hc hw.1)
    · simp [FutexSys.resume, hi]
  | kill pid sig =>
    have hw := signalKill_woken s.sched pid sig
    refine h.congr (hw.blocksOnly.awake h.awake) ⟨c, hw.current.trans hc⟩ rfl rfl fun i u => ?_
    constructor
    · rintro ⟨hb, hu⟩
      exact ⟨hw.blocksOnly.blocked i (by simp) hb, hu⟩
    · intro hwait
      exact ⟨signalKill_blocked hwait.1 fun hs => hok i hs u hwait, hwait.2⟩
  | block =>
    have hb := taskBlock_blocksOnly s.sched
    refine h.congr (hb.awake h.awake) ?_ rfl rfl fun i u => ?_
    · rcases hb.resched.current with he | ⟨c', hc', _⟩
      · exact ⟨c, he.trans hc⟩
      · exact ⟨c', hc'⟩
    · unfold Waiting FutexSys.step
      rw [hc]
      dsimp only
      by_cases hi : i = c
      · subst hi
        exact iff_of_false (by simp) fun hw => h.awake i hc hw.1
      · have hne : s.sched.current ≠ some i := fun he => hi (Option.some.inj (he.symm.trans hc))
        rw [taskBlock_blocked hne, Function.update_of_ne hi]
  | schedule =>
    have hb := schedule_blocksOnly s.sched
    refine h.congr (hb.awake h.awake) ?_ rfl rfl fun i u => ?_
    · rcases hb.resched.current with he | ⟨c', hc', _⟩
      · exact ⟨c, he.trans hc⟩
      · exact ⟨c', hc'⟩
    · exact and_congr_left' (schedule_blocked s.sched i)

theorem futexInit_ok {sched : Sched} (hawake : Awake sched) (hcur : ∃ c, sched.current = some c) :
    FutexOk (futexInit sched) := by
  refine ⟨hawake, hcur, fun _ _ _ h => ?_, fun _ _ _ _ _ _ h => ?_, fun _ _ h => ?_, fun _ h => ?_⟩
  · cases h
  · cases h
  · cases h.2
  · cases h

end FutexSys

theorem forkedSched_current : ∃ c, forkedSched.current = some c := by decide +kernel

end Lestra
