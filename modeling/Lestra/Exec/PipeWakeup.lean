import Lestra.Exec.PipeEnds
import Lestra.Lib.Run
import Lestra.Sched.Blocking

/-!
# Wakeups of pipe calls

* `NoLostWakeup` — a process that is blocked in a pipe call awaits something
* `WaitOk` — and it is the process that the pipe will wake
* `no_lost_wakeup` — this holds in every run in which one process at a time waits
  at an end of a pipe, and nobody closes the other end meanwhile
-/

namespace Lestra

-- ---------------------------------------------------------------------------
-- Waiting
-- ---------------------------------------------------------------------------

/-- Whether the call waits at the write end. -/
def PipeCall.writes : PipeCall → Bool
  | .read .. => false
  | .write .. => true

/-- `write_waiter` or `read_waiter`. -/
def Pipe.waiter (p : Pipe) (writes : Bool) : Int := if writes then p.writeWaiter else p.readWaiter

def Pipe.setWaiter (p : Pipe) (writes : Bool) (n : Int) : Pipe :=
  if writes then { p with writeWaiter := n } else { p with readWaiter := n }

/-- What a call at this end awaits has not happened: the pipe is full (empty) and its
other end is open. -/
def Pipe.Blocks (p : Pipe) : Bool → Prop
  | false => p.bytesAvailable = 0 ∧ p.writeOpen = true
  | true => pipeBufSize ≤ p.bytesAvailable ∧ p.readOpen = true

/-- A pipe blocks its calls at one end at most. -/
theorem Pipe.Blocks.unique {p : Pipe} {w w' : Bool} (h : p.Blocks w) (h' : p.Blocks w') :
    w = w' := by
  have hpos : 0 < pipeBufSize := by decide
  cases w <;> cases w'
  · rfl
  · have := h.1
    have := h'.1
    omega
  · have := h.1
    have := h'.1
    omega
  · rfl

namespace PipeSys

/-- Process `i` is blocked in `call`. -/
def BlockedIn (s : PipeSys) (i : Fin maxProcs) (call : PipeCall) : Prop :=
  (s.sched.procs i).state = .blocked ∧ s.calls i = some call

/-- Process `i` is blocked at an end of pipe `pi`. -/
def WaitsAt (s : PipeSys) (i : Fin maxProcs) (pi : Fin maxPipes) (writes : Bool) : Prop :=
  ∃ call, s.BlockedIn i call ∧ call.pipe = pi ∧ call.writes = writes

instance (s : PipeSys) (i : Fin maxProcs) (pi : Fin maxPipes) (writes : Bool) :
    Decidable (s.WaitsAt i pi writes) :=
  decidable_of_iff (∃ call ∈ s.calls i, (s.sched.procs i).state = .blocked ∧ call.pipe = pi ∧
      call.writes = writes) <| by
    constructor
    · rintro ⟨call, hcall, hb, hpi, hw⟩
      exact ⟨call, ⟨hb, hcall⟩, hpi, hw⟩
    · rintro ⟨call, ⟨hb, hcall⟩, hpi, hw⟩
      exact ⟨call, hcall, hb, hpi, hw⟩

/-- No process but `c` is blocked at this end. -/
def NoOther (s : PipeSys) (c : Fin maxProcs) (pi : Fin maxPipes) (writes : Bool) : Prop :=
  ∀ i, i ≠ c → ¬ s.WaitsAt i pi writes

/-- Every process that is blocked in a pipe call has reason to. -/
def NoLostWakeup (s : PipeSys) : Prop :=
  ∀ i call, s.BlockedIn i call → (s.table.pipes call.pipe).Blocks call.writes

/-- A process whose reason to wait is gone after the step can run. -/
def Wakes (s s' : PipeSys) : Prop :=
  ∀ i call, s.BlockedIn i call → ¬ (s'.table.pipes call.pipe).Blocks call.writes →
    (s'.sched.procs i).state = .runnable ∨ (s'.sched.procs i).state = .running

/-- And the pipe knows it as its waiter. -/
structure WaitOk (s : PipeSys) : Prop where
  table : TableOk s.sched
  awake : Awake s.sched
  waits : ∀ i pi w, s.WaitsAt i pi w → (s.table.pipes pi).Blocks w ∧
    (s.table.pipes pi).waiter w = (s.sched.procs i).pid

theorem WaitOk.noLostWakeup {s : PipeSys} (h : WaitOk s) : s.NoLostWakeup :=
  fun i call hb => (h.waits i call.pipe call.writes ⟨call, hb, rfl, rfl⟩).1

/-- The current process waits nowhere. -/
theorem WaitOk.current {s : PipeSys} {c : Fin maxProcs} (h : WaitOk s)
    (hc : s.sched.current = some c) (pi : Fin maxPipes) (w : Bool) : ¬ s.WaitsAt c pi w := by
  rintro ⟨call, ⟨hb, _⟩, _⟩
  exact h.awake c hc hb

theorem WaitOk.noOther {s : PipeSys} {c : Fin maxProcs} {pi : Fin maxPipes} {w : Bool}
    (h : WaitOk s) (hc : s.sched.current = some c) (hno : s.NoOther c pi w) (i : Fin maxProcs) :
    ¬ s.WaitsAt i pi w := by
  by_cases hi : i = c
  · rw [hi]
    exact h.current hc pi w
  · exact hno i hi

-- ---------------------------------------------------------------------------
-- Turns
-- ---------------------------------------------------------------------------

/-- What process `c` can do to the table and to the calls of the others. -/
structure Turn (c : Fin maxProcs) (s s' : PipeSys) : Prop where
  sched : BlocksOnly s.sched s'.sched (some c)
  calls : ∀ i, i ≠ c → s'.calls i = s.calls i

variable {s s' s'' : PipeSys} {c : Fin maxProcs} {pi : Fin maxPipes} {w : Bool} {p : Pipe}

theorem Turn.of_woken (hw : Woken s.sched s'.sched) (hcalls : ∀ i, i ≠ c → s'.calls i = s.calls i) :
    Turn c s s' :=
  ⟨⟨hw.blocksOnly.resched, fun i _ => hw.blocksOnly.blocked i (by simp), hw.blocksOnly.awake⟩, hcalls⟩

theorem Turn.trans (h : Turn c s s') (h' : Turn c s' s'') : Turn c s s'' where
  sched := ⟨h.sched.resched.trans h'.sched.resched,
    fun i hi hb => h.sched.blocked i hi (h'.sched.blocked i hi hb),
    fun ha => h'.sched.awake (h.sched.awake ha)⟩
  calls i hi := (h'.calls i hi).trans (h.calls i hi)

/-- Who waits after the turn, `c` apart, has waited before. -/
theorem Turn.waitsAt {i : Fin maxProcs} (h : Turn c s s') (hi : i ≠ c)
    (hw : s'.WaitsAt i pi w) : s.WaitsAt i pi w := by
  obtain ⟨call, ⟨hb, hcall⟩, hcp⟩ := hw
  have hne : some c ≠ some i := fun he => hi (Option.some.inj he).symm
  exact ⟨call, ⟨h.sched.blocked i hne hb, (h.calls i hi) ▸ hcall⟩, hcp⟩

theorem Turn.noOther (h : Turn c s s') (hno : s.NoOther c pi w) : s'.NoOther c pi w :=
  fun i hi hw => hno i hi (h.waitsAt hi hw)

/-- A turn keeps the invariant if it does so at the pipe that it is about. -/
theorem WaitOk.turn (h : WaitOk s) (ht : Turn c s s') (pi : Fin maxPipes)
    (hothers : ∀ qi, qi ≠ pi → s'.table.pipes qi = s.table.pipes qi)
    (hself : ∀ qi w, s'.WaitsAt c qi w → qi = pi)
    (hpi : ∀ i w, s'.WaitsAt i pi w → (s'.table.pipes pi).Blocks w ∧
      (s'.table.pipes pi).waiter w = (s.sched.procs i).pid) : WaitOk s' := by
  refine ⟨h.table.rescheduled ht.sched.resched, ht.sched.awake h.awake, fun i qi w hw => ?_⟩
  rw [(ht.sched.resched.alike i).pid]
  by_cases hq : qi = pi
  · subst hq
    exact hpi i w hw
  · have hi : i ≠ c := fun he => hq (hself qi w (he ▸ hw))
    rw [hothers qi hq]
    exact h.waits i qi w (ht.waitsAt hi hw)

-- ---------------------------------------------------------------------------
-- Ends of calls
-- ---------------------------------------------------------------------------

theorem finish_turn (s : PipeSys) (c : Fin maxProcs) (n : Int) (moved : List UInt8) :
    Turn c s (s.finish c n moved).1 :=
  .of_woken (.refl _) fun _ hi => Function.update_of_ne hi ..

theorem WaitOk.finish (h : WaitOk s) (c : Fin maxProcs) (n : Int) (moved : List UInt8) :
    WaitOk (s.finish c n moved).1 := by
  have hnot : ∀ pi w, ¬ (s.finish c n moved).1.WaitsAt c pi w := by
    rintro pi w ⟨call, ⟨_, hcall⟩, _⟩
    simp [PipeSys.finish] at hcall
  refine ⟨h.table, h.awake, fun i pi w hw => ?_⟩
  have hi : i ≠ c := fun he => hnot pi w (he ▸ hw)
  exact h.waits i pi w ((finish_turn s c n moved).waitsAt hi hw)

theorem block_turn (hc : s.sched.current = some c) (call : PipeCall) :
    Turn c s (s.block c call).1 where
  sched := by
    have hb := taskBlock_blocksOnly s.sched
    rwa [hc] at hb
  calls _ hi := Function.update_of_ne hi ..

theorem setPipe_turn (s : PipeSys) (c : Fin maxProcs) (pi : Fin maxPipes) (p : Pipe) :
    Turn c s (s.setPipe pi p) := .of_woken (.refl _) fun _ _ => rfl

/-- The current process blocks in `call`, alone at this end, and registers itself. -/
theorem WaitOk.block (h : WaitOk s) (hc : s.sched.current = some c) (call : PipeCall)
    (hblocks : (s.table.pipes call.pipe).Blocks call.writes) (hp : p.Blocks call.writes)
    (hwaiter : p.waiter call.writes = procGetpid s.sched)
    (hno : s.NoOther c call.pipe call.writes) :
    WaitOk ((s.setPipe call.pipe p).block c call).1 := by
  have hturn : Turn c s ((s.setPipe call.pipe p).block c call).1 :=
    (setPipe_turn s c call.pipe p).trans (block_turn (s := s.setPipe call.pipe p) hc call)
  have hpipe : ((s.setPipe call.pipe p).block c call).1.table.pipes call.pipe = p :=
    PipeTable.setPipe_same
  have hcall : ∀ qi w, ((s.setPipe call.pipe p).block c call).1.WaitsAt c qi w →
      qi = call.pipe ∧ w = call.writes := by
    rintro qi w ⟨call', ⟨_, hcall⟩, hpi, hw⟩
    have hsome : some call = some call' := by simpa [PipeSys.block] using hcall
    obtain rfl := Option.some.inj hsome
    exact ⟨hpi.symm, hw.symm⟩
  refine h.turn hturn call.pipe (fun qi hq => PipeTable.setPipe_ne hq)
    (fun qi w hw => (hcall qi w hw).1)
    fun i w hw => ?_
  rw [hpipe]
  by_cases hi : i = c
  · subst hi
    obtain rfl := (hcall _ w hw).2
    refine ⟨hp, hwaiter.trans ?_⟩
    rw [procGetpid, hc]
  · have hbefore := hturn.waitsAt hi hw
    have hside : w = call.writes := Pipe.Blocks.unique (h.waits i _ w hbefore).1 hblocks
    exact absurd (hside ▸ hbefore) (hno i hi)

-- ---------------------------------------------------------------------------
-- Moving data
-- ---------------------------------------------------------------------------

/-- The wakeup at one end, `wakeWriter` or `wakeReader`. -/
def wake (s : PipeSys) (pi : Fin maxPipes) (writes : Bool) : PipeSys :=
  let p := s.table.pipes pi
  if 0 < p.waiter writes then
    { s with sched := taskUnblockPid s.sched (p.waiter writes) }.setPipe pi (p.setWaiter writes 0)
  else s

theorem wakeReader_eq : s.wakeReader pi = s.wake pi false := rfl

theorem wakeWriter_eq : s.wakeWriter pi = s.wake pi true := rfl

theorem wake_woken (s : PipeSys) (pi : Fin maxPipes) (w : Bool) :
    Woken s.sched (s.wake pi w).sched := by
  unfold wake
  dsimp only
  split
  · exact taskUnblockPid_woken ..
  · exact .refl _

theorem wake_calls : (s.wake pi w).calls = s.calls := by
  unfold wake
  dsimp only
  split <;> rfl

theorem wake_pipes_ne {qi : Fin maxPipes} (hq : qi ≠ pi) :
    (s.wake pi w).table.pipes qi = s.table.pipes qi := by
  unfold wake
  dsimp only
  split
  · exact PipeTable.setPipe_ne hq
  · rfl

theorem wake_turn (s : PipeSys) (c : Fin maxProcs) (pi : Fin maxPipes) (w : Bool) :
    Turn c s (s.wake pi w) := .of_woken (wake_woken s pi w) fun i _ => by rw [wake_calls]

/-- The registered process does not wait on. -/
theorem wake_wakes {i : Fin maxProcs} (ht : TableOk s.sched)
    (hreg : (s.table.pipes pi).waiter w = (s.sched.procs i).pid)
    (hi : (s.sched.procs i).state ≠ .free) : ((s.wake pi w).sched.procs i).state ≠ .blocked := by
  have hpos : 0 < (s.table.pipes pi).waiter w := by
    rw [hreg]
    exact ht.pid_pos i hi
  unfold wake
  dsimp only
  rw [if_pos hpos, hreg]
  exact taskUnblockPid_awake ht hi

/-- Data moved, so nobody has reason to wait at end `w`, and the one who does is woken. -/
theorem WaitOk.moved (h : WaitOk s) (hc : s.sched.current = some c)
    (hp : p.waiter w = (s.table.pipes pi).waiter w)
    (hnot : ¬ (s.table.pipes pi).Blocks (!w)) :
    WaitOk ((s.setPipe pi p).wake pi w) ∧
      ∀ i w', ¬ ((s.setPipe pi p).wake pi w).WaitsAt i pi w' := by
  have hturn : ∀ c, Turn c s ((s.setPipe pi p).wake pi w) := fun c =>
    (setPipe_turn s c pi p).trans (wake_turn _ c pi w)
  have hself : ∀ qi w', ¬ ((s.setPipe pi p).wake pi w).WaitsAt c qi w' := by
    rintro qi w' ⟨call, ⟨hb, _⟩, _⟩
    have hb' := (wake_woken (s.setPipe pi p) pi w).blocksOnly.blocked c (by simp) hb
    exact h.awake c hc hb'
  have hnone : ∀ i w', ¬ ((s.setPipe pi p).wake pi w).WaitsAt i pi w' := by
    intro i w' hw'
    by_cases hi : i = c
    · exact hself pi w' (hi ▸ hw')
    have hbefore := (hturn c).waitsAt hi hw'
    obtain ⟨hblocks, hreg⟩ := h.waits i pi w' hbefore
    by_cases hside : w' = w
    · subst hside
      obtain ⟨_, ⟨hb, _⟩, _⟩ := hw'
      obtain ⟨_, ⟨hb₀, _⟩, _⟩ := hbefore
      have hwaiter : ((s.setPipe pi p).table.pipes pi).waiter w' = (s.sched.procs i).pid := by
        rw [← hreg, ← hp]
        exact congrArg (fun q => Pipe.waiter q w') PipeTable.setPipe_same
      have hused : (s.sched.procs i).state ≠ .free := by
        rw [hb₀]
        decide
      exact wake_wakes (s := s.setPipe pi p) h.table hwaiter hused hb
    · exact hnot (Bool.eq_not.mpr hside ▸ hblocks)
  refine ⟨h.turn (hturn c) pi (fun qi hq => ?_) (fun qi w' hw' => absurd hw' (hself qi w'))
    fun i w' hw' => absurd hw' (hnone i w'), hnone⟩
  rw [wake_pipes_ne hq]
  exact PipeTable.setPipe_ne hq

theorem popMany_waiter (p : Pipe) (n : Nat) (w : Bool) :
    (p.popMany n).1.waiter w = p.waiter w := by
  induction n generalizing p with
  | zero => rfl
  | succ n ih =>
    have hpop : p.pop.1.waiter w = p.waiter w := by cases w <;> rfl
    exact (ih p.pop.1).trans hpop

-- ---------------------------------------------------------------------------
-- The calls
-- ---------------------------------------------------------------------------

theorem readFrom_turn (hc : s.sched.current = some c) (pi : Fin maxPipes) (count : Nat) :
    Turn c s (s.readFrom c pi count).1 := by
  unfold readFrom
  dsimp only
  split
  · split
    · exact finish_turn ..
    · exact (setPipe_turn s c pi _).trans (block_turn (s := s.setPipe pi _) hc _)
  · rw [wakeWriter_eq]
    exact ((setPipe_turn s c pi _).trans (wake_turn _ c pi true)).trans (finish_turn ..)

theorem WaitOk.readFrom (h : WaitOk s) (hc : s.sched.current = some c)
    (hno : s.NoOther c pi false) (count : Nat) : WaitOk (s.readFrom c pi count).1 := by
  unfold PipeSys.readFrom
  dsimp only
  split
  case isTrue hempty =>
    split
    · exact h.finish c 0 []
    case isFalse hopen =>
      have hblocks : (s.table.pipes pi).Blocks false := ⟨hempty, by simpa using hopen⟩
      exact h.block hc (.read pi count) hblocks hblocks rfl hno
  case isFalse hsome =>
    rw [wakeWriter_eq]
    have hmoved := h.moved (w := true) hc (popMany_waiter (s.table.pipes pi)
      (min count (s.table.pipes pi).bytesAvailable) true) fun hb => hsome hb.1
    exact hmoved.1.finish ..

theorem writeFrom_turn (hc : s.sched.current = some c) (pi : Fin maxPipes) (bytes : List UInt8)
    (written : Nat) : Turn c s (s.writeFrom c pi bytes written).1 := by
  induction bytes generalizing s written with
  | nil => exact finish_turn ..
  | cons b bs ih =>
    unfold writeFrom
    dsimp only
    split
    · split
      · exact finish_turn ..
      · exact (setPipe_turn s c pi _).trans (block_turn (s := s.setPipe pi _) hc _)
    · rw [wakeReader_eq]
      have hcur : ((s.setPipe pi ((s.table.pipes pi).push b)).wake pi false).sched.current =
          some c := (wake_woken _ pi false).current.trans hc
      exact ((setPipe_turn s c pi _).trans (wake_turn _ c pi false)).trans (ih hcur _)

theorem WaitOk.writeFrom {bytes : List UInt8} (h : WaitOk s) (hc : s.sched.current = some c)
    (hno : bytes ≠ [] → s.NoOther c pi true) (written : Nat) :
    WaitOk (s.writeFrom c pi bytes written).1 := by
  induction bytes generalizing s written with
  | nil => exact h.finish ..
  | cons b bs ih =>
    unfold PipeSys.writeFrom
    dsimp only
    split
    case isTrue hfull =>
      split
      · exact h.finish ..
      case isFalse hopen =>
        have hblocks : (s.table.pipes pi).Blocks true := ⟨hfull, by simpa using hopen⟩
        exact h.block hc (.write pi (b :: bs) written) hblocks hblocks rfl
          (hno (List.cons_ne_nil b bs))
    case isFalse hroom =>
      rw [wakeReader_eq]
      have hmoved := h.moved (w := false) (p := (s.table.pipes pi).push b) hc rfl
        fun hb => hroom hb.1
      have hcur : ((s.setPipe pi ((s.table.pipes pi).push b)).wake pi false).sched.current =
          some c := (wake_woken _ pi false).current.trans hc
      exact ih hmoved.1 hcur (fun _ i _ => hmoved.2 i true) _

theorem pipeRead_turn (hc : s.sched.current = some c) (fd : Int) (count : Nat) :
    Turn c s (s.pipeRead c fd count).1 := by
  unfold pipeRead
  split
  · exact finish_turn ..
  · split
    · exact finish_turn ..
    · exact readFrom_turn hc _ count

theorem pipeWrite_turn (hc : s.sched.current = some c) (fd : Int) (bytes : List UInt8) :
    Turn c s (s.pipeWrite c fd bytes).1 := by
  unfold pipeWrite
  split
  · exact finish_turn ..
  · split
    · exact finish_turn ..
    · dsimp only
      split
      · exact finish_turn ..
      · exact writeFrom_turn hc _ bytes 0

theorem pipeResume_turn (hc : s.sched.current = some c) (call : PipeCall) :
    Turn c s (s.pipeResume c call).1 := by
  cases call with
  | read pi count =>
    exact (setPipe_turn s c pi _).trans (readFrom_turn (s := s.setPipe pi _) hc pi count)
  | write pi rest written =>
    exact (setPipe_turn s c pi _).trans (writeFrom_turn (s := s.setPipe pi _) hc pi rest written)

/-- A process that goes on takes itself off the pipe. -/
theorem WaitOk.clear (h : WaitOk s) (hc : s.sched.current = some c) (hno : s.NoOther c pi w) :
    WaitOk (s.setPipe pi ((s.table.pipes pi).setWaiter w 0)) := by
  have hpipe : (s.setPipe pi ((s.table.pipes pi).setWaiter w 0)).table.pipes pi =
      (s.table.pipes pi).setWaiter w 0 := PipeTable.setPipe_same
  refine h.turn (setPipe_turn s c pi _) pi (fun qi hq => PipeTable.setPipe_ne hq)
    (fun qi w' hw => absurd hw (h.current hc qi w')) fun i w' hw => ?_
  have hne : w' ≠ w := fun he => h.noOther hc hno i (he ▸ hw)
  have hkeep : ((s.table.pipes pi).setWaiter w 0).waiter w' = (s.table.pipes pi).waiter w' ∧
      (((s.table.pipes pi).setWaiter w 0).Blocks w' ↔ (s.table.pipes pi).Blocks w') := by
    cases w <;> cases w'
    · exact absurd rfl hne
    · exact ⟨rfl, Iff.rfl⟩
    · exact ⟨rfl, Iff.rfl⟩
    · exact absurd rfl hne
  rw [hpipe, hkeep.1, hkeep.2]
  exact h.waits i pi w' hw

theorem WaitOk.pipeResume {call : PipeCall} (h : WaitOk s) (hc : s.sched.current = some c)
    (hno : s.NoOther c call.pipe call.writes) : WaitOk (s.pipeResume c call).1 := by
  cases call with
  | read pi count =>
    exact WaitOk.readFrom (s := s.setPipe pi _) (h.clear hc hno) hc hno count
  | write pi rest written =>
    exact WaitOk.writeFrom (s := s.setPipe pi _) (h.clear hc hno) hc (fun _ => hno) written

/-- Closing one end does not concern those who wait at it. -/
theorem closeEnd_waiter (p : Pipe) (w : Bool) :
    (p.closeEnd w).waiter w = p.waiter w ∧ (p.Blocks w → (p.closeEnd w).Blocks w) := by
  cases w <;> cases hr : p.readOpen <;> cases hw : p.writeOpen <;>
    simp [Pipe.closeEnd, Pipe.waiter, Pipe.Blocks, hr, hw]

theorem WaitOk.pipeClose {fd : Int} (h : WaitOk s) (hc : s.sched.current = some c)
    (hno : ∀ f, pipeIsPipeFd s.table fd = some f →
      s.NoOther c (s.table.pipeFds f).pipeIdx (!(s.table.pipeFds f).isWriteEnd)) :
    WaitOk { s with table := (pipeClose s.table fd).1 } := by
  cases hf : pipeIsPipeFd s.table fd with
  | none =>
    have hsame : (Lestra.pipeClose s.table fd).1 = s.table := by
      unfold Lestra.pipeClose
      rw [hf]
    rw [hsame]
    exact h
  | some f =>
    rw [pipeClose_eq hf]
    refine h.turn (c := c) (.of_woken (.refl _) fun _ _ => rfl) (s.table.pipeFds f).pipeIdx
      (fun qi hq => PipeTable.setPipe_ne hq)
      (fun qi w' hw => absurd hw (h.current hc qi w')) fun i w' hw => ?_
    have hside : w' = (s.table.pipeFds f).isWriteEnd := by
      by_contra hne
      exact h.noOther hc (hno f hf) i (Bool.eq_not.mpr hne ▸ hw)
    subst hside
    dsimp only
    rw [PipeTable.setPipe_same]
    have hwaits := h.waits i _ _ hw
    have hkeep := closeEnd_waiter (s.table.pipes (s.table.pipeFds f).pipeIdx)
      (s.table.pipeFds f).isWriteEnd
    exact ⟨hkeep.2 hwaits.1, hkeep.1.trans hwaits.2⟩

/-- Nothing happens to the pipes, and `c` is left outside of pipe calls. -/
theorem WaitOk.resched (h : WaitOk s) (ht : Turn c s s') (htable : s'.table = s.table)
    (hself : ∀ pi w, ¬ s'.WaitsAt c pi w) : WaitOk s' := by
  refine ⟨h.table.rescheduled ht.sched.resched, ht.sched.awake h.awake, fun i pi w hw => ?_⟩
  have hi : i ≠ c := fun he => hself pi w (he ▸ hw)
  rw [htable, (ht.sched.resched.alike i).pid]
  exact h.waits i pi w (ht.waitsAt hi hw)

end PipeSys

-- ---------------------------------------------------------------------------
-- Runs
-- ---------------------------------------------------------------------------

/-- The calls of readers, writers and closers of pipes, by the current process, and
what else blocks, wakes and switches processes. `resume` is the current process going
on after `task_block`, `block` its blocking anywhere else. -/
inductive PipeOp where
  | read (fd : Int) (count : Nat)
  | write (fd : Int) (bytes : List UInt8)
  | resume
  | close (fd : Int)
  | block
  | schedule
  | tick (now : BitVec 64)
  | kill (pid sig : Int)

namespace PipeSys

variable {s : PipeSys} {c : Fin maxProcs}

def step (s : PipeSys) (op : PipeOp) : PipeSys :=
  match s.sched.current with
  | none => s
  | some c =>
    match op with
    | .read fd count => (s.pipeRead c fd count).1
    | .write fd bytes => (s.pipeWrite c fd bytes).1
    | .resume =>
      match s.calls c with
      | none => s
      | some call => (s.pipeResume c call).1
    | .close fd => { s with table := (Lestra.pipeClose s.table fd).1 }
    | .block => { s with sched := taskBlock s.sched, calls := Function.update s.calls c none }
    | .schedule => { s with sched := Lestra.schedule s.sched }
    | .tick now => { s with sched := schedTick s.sched now }
    | .kill pid sig => { s with sched := (signalKill s.sched pid sig).1 }

/-- A process waits, or goes on waiting, at an end of a pipe only when no other process
is blocked there, and closes an end only when none is blocked at the other. -/
def SingleWaiter (s : PipeSys) (op : PipeOp) : Prop :=
  ∀ c, s.sched.current = some c →
    match op with
    | .read fd _ => ∀ f, pipeIsPipeFd s.table fd = some f →
        s.NoOther c (s.table.pipeFds f).pipeIdx false
    | .write fd bytes => ∀ f, pipeIsPipeFd s.table fd = some f → bytes ≠ [] →
        s.NoOther c (s.table.pipeFds f).pipeIdx true
    | .resume => ∀ call, s.calls c = some call → s.NoOther c call.pipe call.writes
    | .close fd => ∀ f, pipeIsPipeFd s.table fd = some f →
        s.NoOther c (s.table.pipeFds f).pipeIdx (!(s.table.pipeFds f).isWriteEnd)
    | _ => True

theorem turn_of_blocksOnly {sched : Sched} (hb : BlocksOnly s.sched sched none)
    (c : Fin maxProcs) : Turn c s { s with sched } :=
  ⟨⟨hb.resched, fun i _ => hb.blocked i (by simp), hb.awake⟩, fun _ _ => rfl⟩

theorem step_turn (hc : s.sched.current = some c) (op : PipeOp) : Turn c s (s.step op) := by
  unfold step
  rw [hc]
  cases op with
  | read fd count => exact pipeRead_turn hc fd count
  | write fd bytes => exact pipeWrite_turn hc fd bytes
  | resume =>
    dsimp only
    split
    · exact .of_woken (.refl _) fun _ _ => rfl
    · exact pipeResume_turn hc _
  | close fd => exact .of_woken (.refl _) fun _ _ => rfl
  | block =>
    have hb := taskBlock_blocksOnly s.sched
    rw [hc] at hb
    exact ⟨hb, fun _ hi => Function.update_of_ne hi ..⟩
  | schedule => exact turn_of_blocksOnly (schedule_blocksOnly s.sched) c
  | tick now => exact turn_of_blocksOnly (schedTick_blocksOnly s.sched now) c
  | kill pid sig => exact turn_of_blocksOnly (signalKill_woken s.sched pid sig).blocksOnly c

theorem WaitOk.step {op : PipeOp} (h : WaitOk s) (hok : SingleWaiter s op) :
    WaitOk (s.step op) := by
  obtain ⟨c, hc, _⟩ := h.table.current
  have hturn := step_turn hc op
  have hok := hok c hc
  -- a scheduler step does not put the current process into a pipe call
  have hsched : ∀ sched, BlocksOnly s.sched sched none → WaitOk { s with sched } := by
    intro sched hb
    refine h.resched (turn_of_blocksOnly hb c) rfl ?_
    rintro pi w ⟨call, ⟨hblocked, _⟩, _⟩
    exact h.awake c hc (hb.blocked c (by simp) hblocked)
  unfold PipeSys.step at hturn ⊢
  rw [hc] at hturn ⊢
  cases op with
  | read fd count =>
    dsimp only
    unfold PipeSys.pipeRead
    cases hf : pipeIsPipeFd s.table fd with
    | none => exact h.finish ..
    | some f =>
      dsimp only
      split
      · exact h.finish ..
      · exact h.readFrom hc (hok f hf) count
  | write fd bytes =>
    dsimp only
    unfold PipeSys.pipeWrite
    cases hf : pipeIsPipeFd s.table fd with
    | none => exact h.finish ..
    | some f =>
      dsimp only
      split
      · exact h.finish ..
      · split
        · exact h.finish ..
        · exact h.writeFrom hc (hok f hf) 0
  | resume =>
    dsimp only
    cases hcall : s.calls c with
    | none => exact h
    | some call => exact h.pipeResume hc (hok call hcall)
  | close fd => exact h.pipeClose hc hok
  | block =>
    refine h.resched hturn rfl ?_
    rintro pi w ⟨call, ⟨_, hcall⟩, _⟩
    simp at hcall
  | schedule => exact hsched _ (schedule_blocksOnly s.sched)
  | tick now => exact hsched _ (schedTick_blocksOnly s.sched now)
  | kill pid sig => exact hsched _ (signalKill_woken s.sched pid sig).blocksOnly

/-- Who is no longer blocked after a step can run. -/
theorem WaitOk.wakes {op : PipeOp} (h : WaitOk s) (h' : WaitOk (s.step op)) :
    s.Wakes (s.step op) := by
  intro i call hblocked hgone
  obtain ⟨c, hc, _⟩ := h.table.current
  have hturn := step_turn hc op
  have hi : i ≠ c := by
    rintro rfl
    exact h.awake i hc hblocked.1
  have hstate : ((s.step op).sched.procs i).state ≠ .blocked := by
    intro hb
    exact hgone (h'.noLostWakeup i call ⟨hb, (hturn.calls i hi).trans hblocked.2⟩)
  have hlive := hturn.sched.resched.live i (by
    unfold Process.Live
    rw [hblocked.1]
    decide)
  cases hst : ((s.step op).sched.procs i).state with
  | runnable => exact .inl rfl
  | running => exact .inr rfl
  | blocked => exact absurd hst hstate
  | free => exact absurd hst hlive.1
  | zombie => exact absurd hst hlive.2

end PipeSys

/-- **No lost pipe wakeup**, in every run in which at most one process at a time waits
at an end of a pipe and no end is closed while a process is blocked at the other: a
blocked process has reason to wait, and the step that takes the reason away wakes it. -/
theorem no_lost_wakeup {s : PipeSys} (htable : TableOk s.sched) (hawake : Awake s.sched)
    (hcalls : ∀ i, s.calls i = none) (ops : List PipeOp)
    (hops : Run.Allowed PipeSys.step PipeSys.SingleWaiter s ops) :
    (Run.run PipeSys.step s ops).NoLostWakeup ∧
      ∀ op, (Run.run PipeSys.step s ops).SingleWaiter op →
        (Run.run PipeSys.step s ops).Wakes ((Run.run PipeSys.step s ops).step op) := by
  have hstart : s.WaitOk := by
    refine ⟨htable, hawake, ?_⟩
    rintro i pi w ⟨call, ⟨_, hcall⟩, _⟩
    rw [hcalls i] at hcall
    cases hcall
  have hrun := Run.inv_run (I := PipeSys.WaitOk) (fun _ _ h hok => h.step hok) ops s hstart hops
  exact ⟨hrun.noLostWakeup, fun op hok => hrun.wakes (hrun.step hok)⟩

/-- Init and its child, and a pipe between them. -/
def forkedPipe : PipeSys where
  sched := forkedSched
  table := (pipeCreate pipeInit).1
  calls := fun _ => none

/-- Init blocks in a read, and the write of its child wakes it. -/
theorem no_lost_wakeup_read :
    (Run.run PipeSys.step forkedPipe [.read 200 1, .write 201 [7]]).NoLostWakeup := by
  have hread : forkedPipe.SingleWaiter (.read 200 1) := by
    unfold PipeSys.SingleWaiter PipeSys.NoOther
    decide +kernel
  have hwrite : (forkedPipe.step (.read 200 1)).SingleWaiter (.write 201 [7]) := by
    unfold PipeSys.SingleWaiter PipeSys.NoOther
    decide +kernel
  exact (no_lost_wakeup forkedSched_tableOk forkedSched_awake (fun _ => rfl)
    [.read 200 1, .write 201 [7]] ⟨hread, hwrite, trivial⟩).1

/-- Init blocks in a read, and its child closes the write end. -/
theorem close_loses_wakeup :
    ¬ (Run.run PipeSys.step forkedPipe [.read 200 1, .close 201]).NoLostWakeup := by
  intro h
  have hblocks := h ⟨0, by decide⟩ (.read ⟨0, by decide⟩ 1)
    ⟨by decide +kernel, by decide +kernel⟩
  have hclosed : ((Run.run PipeSys.step forkedPipe [.read 200 1, .close 201]).table.pipes
      ⟨0, by decide⟩).writeOpen = false := by decide +kernel
  have hopen := hblocks.2
  rw [show (PipeCall.read (⟨0, by decide⟩ : Fin maxPipes) 1).pipe = ⟨0, by decide⟩ from rfl,
    hclosed] at hopen
  cases hopen

end Lestra
