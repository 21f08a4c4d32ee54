import Lestra.Exec.Signals
import Lestra.Syscall.Memory

/-!
# Page faults

`page_fault_handler` of `kernel/mm/page_fault.c`. It tries four things in order:
copy-on-write, growth of the stack, a missing page of the stack, a missing page
of the heap. What none of them resolves is a `SIGSEGV` for a user fault and a
panic for a kernel fault.
-/

namespace Lestra

open Word64

/-- `PAGE_COW` -/
def pageCow : BitVec 64 := 0x200#64

def isCow (e : BitVec 64) : Bool := e &&& pageCow != 0#64

def userSpaceStart : BitVec 64 := 0x0000000000400000#64

def userSpaceEnd : BitVec 64 := 0x00007FFFFFFFFFFF#64

/-- `USER_STACK_TOP_DEFAULT` -/
def userStackTop : BitVec 64 := 0x00007FFFFFE00000#64

/-- `8UL * 1024 * 1024` -/
def stackGrowMax : BitVec 64 := 0x800000#64

def sigsegv : Nat := 11

/-- `error_code & 0x01` -/
def faultPresent (errorCode : BitVec 64) : Bool := errorCode &&& 1#64 != 0#64

/-- `error_code & 0x02` -/
def faultWrite (errorCode : BitVec 64) : Bool := errorCode &&& 2#64 != 0#64

/-- `error_code & 0x04` -/
def faultUser (errorCode : BitVec 64) : Bool := errorCode &&& 4#64 != 0#64

/-- How the handler ends: it returns, or `proc_exit` does not return to it, or it panics. -/
inductive FaultEnd where
  | resumes (k : Kernel)
  | exits (k : Kernel)
  | panics

-- ---------------------------------------------------------------------------
-- Copy-on-write
-- ---------------------------------------------------------------------------

/-- The leaf entry that the copy-on-write branch works on, if the fault is one for it. -/
def cowEntry (m : Machine) (p : Process) (faultAddr errorCode : BitVec 64) :
    Option (Nat × Fin 512) :=
  if faultPresent errorCode && faultWrite errorCode && p.pml4 != 0 then
    match getPteInPml4 m p.pml4 faultAddr with
    | none => none
    | some (pt, i) => if isCow (m.mem pt i) then some (pt, i) else none
  else none

/-- `*pte & 0x000FFFFFFFFFF000ULL` -/
def cowPhys (e : BitVec 64) : BitVec 64 := e &&& 0x000FFFFFFFFFF000#64

/-- The flags of the entry, bits 52 to 55 apart, writable and no longer marked. -/
def cowFlags (e : BitVec 64) : BitVec 64 :=
  (((e &&& 0xFFF#64) ||| (e &&& 0xFF00000000000000#64)) &&& ~~~pageCow) ||| pageWritable

/-- The branch itself: the sole owner keeps its page, others get a copy. No
value where there is no frame for it. -/
def resolveCow (m : Machine) (pml4 : Nat) (faultAddr : BitVec 64) (pte : Nat × Fin 512) :
    Option Machine :=
  let e := m.mem pte.1 pte.2
  if pmmRefcountGet m.pmm (cowPhys e).toNat ≤ 1 then
    some (m.setEntry pte.1 pte.2 (cowPhys e ||| cowFlags e))
  else
    let (m, newPhys) := m.allocPage
    if newPhys = 0 then none
    else
      let m := m.fillPage newPhys (m.mem ((cowPhys e).toNat / pageSize))
      let m := { m with pmm := (pmmRefcountDec m.pmm (cowPhys e).toNat).1 }
      let pageAddr := pageFloor faultAddr
      let pdpt := frameOf (m.mem pml4 (pml4Idx pageAddr))
      let pd := frameOf (m.mem pdpt (pdptIdx pageAddr))
      let pt := frameOf (m.mem pd (pdIdx pageAddr))
      some (m.setEntry pt (ptIdx pageAddr) (BitVec.ofNat 64 newPhys ||| cowFlags e ||| pagePresent))

-- ---------------------------------------------------------------------------
-- Fresh pages
-- ---------------------------------------------------------------------------

/-- A zeroed page at the page of `faultAddr`. The flag is false if there is no frame. -/
def mapFreshPage (m : Machine) (pml4 : Nat) (faultAddr : BitVec 64) : Machine × Bool :=
  let (m, phys) := m.allocPage
  if phys = 0 then (m, false)
  else
    let m := m.zeroPage phys
    (vmmMapPage m pml4 (pageFloor faultAddr) (BitVec.ofNat 64 phys) heapPageFlags, true)

/-- The fault comes from user mode and lies in user space. -/
def userSpaceFault (faultAddr errorCode : BitVec 64) : Bool :=
  faultUser errorCode && userSpaceStart ≤ faultAddr && faultAddr ≤ userSpaceEnd

/-- The address is in the window below the recorded bottom in which the stack grows. -/
def growsStack (p : Process) (faultAddr : BitVec 64) : Bool :=
  faultAddr < p.stackBottom && p.stackBottom - faultAddr ≤ stackGrowMax

/-- The address is in the nominal range of the stack and has no present leaf entry. -/
def missesStack (m : Machine) (p : Process) (faultAddr : BitVec 64) : Bool :=
  p.stackBottom ≤ faultAddr && faultAddr < userStackTop &&
    match getPteInPml4 m p.pml4 faultAddr with
    | none => true
    | some (pt, i) => !isPresent (m.mem pt i)

-- ---------------------------------------------------------------------------
-- The handler
-- ---------------------------------------------------------------------------

/-- A user fault that nothing resolves: `SIGSEGV`, and the end of a process without a handler. -/
def faultUnhandled (k : Kernel) (c : Fin maxProcs) : FaultEnd :=
  let k := { k with sched := (signalKill k.sched (k.sched.procs c).pid sigsegv).1 }
  if (k.sched.procs c).handler sigsegv = 0#64 then .exits (procExit k (128 + sigsegv))
  else .resumes k

def pageFaultHandler (k : Kernel) (faultAddr errorCode : BitVec 64) : FaultEnd :=
  match k.sched.current with
  | none => .panics
  | some c =>
    let p := k.sched.procs c
    match cowEntry k.machine p faultAddr errorCode with
    | some pte =>
      match resolveCow k.machine p.pml4 faultAddr pte with
      | none => .panics
      | some m => .resumes { k with machine := m }
    | none =>
      if userSpaceFault faultAddr errorCode && growsStack p faultAddr then
        let (m, ok) := mapFreshPage k.machine p.pml4 faultAddr
        if !ok then .panics
        else
          .resumes { k with
            machine := m
            sched := k.sched.modify c fun p => { p with stackBottom := pageFloor faultAddr } }
      else if userSpaceFault faultAddr errorCode && missesStack k.machine p faultAddr then
        let (m, ok) := mapFreshPage k.machine p.pml4 faultAddr
        if !ok then .panics else .resumes { k with machine := m }
      else if faultUser errorCode then
        if heapFaultServed k.machine p faultAddr then
          let (m, ok) := mapFreshPage k.machine p.pml4 faultAddr
          if ok then .resumes { k with machine := m } else faultUnhandled { k with machine := m } c
        else faultUnhandled k c
      else .panics

end Lestra
