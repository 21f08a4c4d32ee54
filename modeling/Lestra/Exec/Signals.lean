import Lestra.Sched.Lifecycle

/-!
# Signals

`kernel/exec/signals.c` beside `signal_kill`: the disposition, the mask, delivery and
`sigreturn`. What the user passes by pointer and whether `kmalloc` finds memory are
parameters. The trampoline on the user stack is not part of this state, only
whether the two writes there are accepted.
-/

namespace Lestra

def sigkill : Nat := 9
def sigchld : Nat := 17
def sigcont : Nat := 18
def sigstop : Nat := 19
def sigurg : Nat := 23

def errNoProcess : Int := -1

/-- `copy_to_user` and `copy_from_user` behind `access_ok`. -/
def bufferUserOk (addr size : BitVec 64) : Bool := accessOk addr size && copyUserOk addr

-- ---------------------------------------------------------------------------
-- Disposition and mask
-- ---------------------------------------------------------------------------

/-- `p->sigactions[signum].sa_handler` -/
def Process.handler (p : Process) (signum : Nat) : BitVec 64 :=
  (p.sigactions.getD signum ⟨0, 0, 0⟩).saHandler

/-- `signal_sigaction`, where `kernAct` is what lies at `act`. The last component is what
is stored at `oldact`, its restorer apart. -/
def signalSigaction (s : Sched) (signum : Int) (act oldact : BitVec 64)
    (kernAct : SigactionEntry) : Sched × Int × Option SigactionEntry :=
  if signum < 1 ∨ (maxSignals : Int) ≤ signum then (s, errInvalid, none)
  else if signum = sigkill ∨ signum = sigstop then (s, errInvalid, none)
  else
    match s.current with
    | none => (s, errNoProcess, none)
    | some c =>
      let old := (s.procs c).sigactions.getD signum.toNat ⟨0, 0, 0⟩
      if oldact ≠ 0#64 ∧ !bufferUserOk oldact 32#64 then (s, errBadAddress, none)
      else
        let stored := if oldact ≠ 0#64 then some old else none
        if act = 0#64 then (s, 0, stored)
        else if !bufferUserOk act 32#64 then (s, errBadAddress, stored)
        else
          (s.modify c fun p => { p with sigactions := p.sigactions.set signum.toNat kernAct }, 0,
            stored)

/-- `(1ULL << SIGKILL) | (1ULL << SIGSTOP)` -/
def unblockable : BitVec 64 := sigBit sigkill ||| sigBit sigstop

/-- The switch of `signal_sigprocmask`; `none` is its default. -/
def maskFor (how : Int) (blocked m : BitVec 64) : Option (BitVec 64) :=
  if how = 0 then some (blocked ||| m)
  else if how = 1 then some (blocked &&& ~~~m)
  else if how = 2 then some m
  else none

/-- `signal_sigprocmask`, where `m` is what lies at `set`. The last component is what is
stored at `oldset`. -/
def signalSigprocmask (s : Sched) (how : Int) (set oldset m : BitVec 64) :
    Sched × Int × Option (BitVec 64) :=
  match s.current with
  | none => (s, errNoProcess, none)
  | some c =>
    if oldset ≠ 0#64 ∧ !bufferUserOk oldset 8#64 then (s, errBadAddress, none)
    else
      let stored := if oldset ≠ 0#64 then some (s.procs c).signalBlocked else none
      if set = 0#64 then (s, 0, stored)
      else if !bufferUserOk set 8#64 then (s, errBadAddress, stored)
      else
        match maskFor how (s.procs c).signalBlocked m with
        | none => (s, errInvalid, stored)
        | some blocked =>
          (s.modify c fun p => { p with signalBlocked := blocked &&& ~~~unblockable }, 0, stored)

-- ---------------------------------------------------------------------------
-- Delivery
-- ---------------------------------------------------------------------------

/-- The signal that `signal_check_and_deliver` picks. -/
def firstSignal (deliverable : BitVec 64) : Nat :=
  ((List.range' 1 (maxSignals - 1)).find? fun i => deliverable &&& sigBit i ≠ 0#64).getD 1

/-- `tramp_addr`: below the red zone, aligned. -/
def trampAddr (rsp : BitVec 64) : BitVec 64 := (rsp - 128#64 - 16#64) &&& ~~~0xF#64

/-- `ret_addr_slot` -/
def retAddrSlot (rsp : BitVec 64) : BitVec 64 := trampAddr rsp - 8#64

/-- The user stack takes the trampoline and the return address. -/
def stackUserOk (rsp : BitVec 64) : Bool :=
  copyUserOk (trampAddr rsp) && wordUserOk (retAddrSlot rsp) 8#64

/-- The state in which the handler starts. -/
def handlerState (st : CpuState) (handler : BitVec 64) (signum : Nat) : CpuState :=
  { st with
    rip := handler
    rdi := BitVec.ofNat 64 signum
    rsp := retAddrSlot st.rsp
    rflags := st.rflags &&& ~~~(1#64 <<< 8) }

/-- The default action ignores these. -/
def ignoredByDefault (signum : Nat) : Bool :=
  signum = sigchld || signum = sigcont || signum = sigurg

/-- The end of `signal_check_and_deliver`: enter the handler, if `kmalloc` succeeds and the
user stack is usable. -/
def enterHandler (p : Process) (st : CpuState) (signum : Nat) (kmallocOk : Bool) : Process :=
  if !kmallocOk then { p with preSignalState := none }
  else if !stackUserOk st.rsp then { p with preSignalState := none }
  else
    { p with
      preSignalState := some st
      savedState := some (handlerState st (p.handler signum) signum)
      inSignalHandler := true }

/-- `signal_check_and_deliver` -/
def signalCheckAndDeliver (k : Kernel) (kmallocOk : Bool) : Kernel :=
  match k.sched.current with
  | none => k
  | some c =>
    let p := k.sched.procs c
    match p.savedState with
    | none => k
    | some st =>
      if p.inSignalHandler then k
      else if p.signalPending = 0#64 then k
      else
        let deliverable := p.signalPending &&& ~~~p.signalBlocked
        if deliverable = 0#64 then k
        else
          let signum := firstSignal deliverable
          let k := { k with sched := k.sched.modify c fun p =>
            { p with signalPending := p.signalPending &&& ~~~sigBit signum } }
          if p.handler signum = 0#64 then
            if ignoredByDefault signum then k else procExit k (128 + signum)
          else if p.handler signum = 1#64 then k
          else { k with sched := k.sched.modify c fun p => enterHandler p st signum kmallocOk }

/-- `signal_sigreturn` before it looks for more signals. -/
def restoreState (p : Process) : Process :=
  { p with savedState := p.preSignalState, inSignalHandler := false, preSignalState := none }

def signalSigreturn (k : Kernel) (kmallocOk : Bool) : Kernel × Int :=
  match k.sched.current with
  | none => (k, errInvalid)
  | some c =>
    let p := k.sched.procs c
    if !p.inSignalHandler ∨ p.preSignalState.isNone then (k, errInvalid)
    else
      (signalCheckAndDeliver { k with sched := k.sched.modify c restoreState } kmallocOk, 0)

end Lestra
