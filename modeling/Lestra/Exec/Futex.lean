import Lestra.Sched.Schedule
import Lestra.Syscall.Uaccess

/-!
# Futexes

`kernel/exec/futex.c`: the waiters, the hash buckets and `futex_dispatch`. A call
that blocks leaves the address it waits on in `waits`, the part of the kernel stack
that matters here; all that is left of it is to return 0. The user's word is a
parameter.
-/

namespace Lestra

def futexWait : BitVec 32 := 0#32
def futexWake : BitVec 32 := 1#32
def futexWaitBitset : BitVec 32 := 9#32
def futexWakeBitset : BitVec 32 := 10#32
def futexPrivateFlag : BitVec 32 := 128#32
def futexClockRealtime : BitVec 32 := 256#32

def maxFutexWaiters : Nat := 256

def futexHashBuckets : Nat := 64

/-- The cells of a bucket. -/
def bucketCells : Nat := 8

def errAgain : Int := -11

def errNoMemory : Int := -12

def errNoSys : Int := -38

/-- `struct futex_waiter` -/
structure FutexWaiter where
  inUse : Bool
  uaddr : BitVec 64
  task : Option (Fin maxProcs)
  expectedVal : BitVec 32
  bitset : BitVec 32
  pid : Int

/-- The table of waiters and the buckets: a cell that holds `idx + 1` is `some idx`, one
that holds 0 is `none`. -/
structure FutexSys where
  sched : Sched
  waiters : Fin maxFutexWaiters → FutexWaiter
  buckets : Fin futexHashBuckets → Fin bucketCells → Option (Fin maxFutexWaiters)
  waits : Fin maxProcs → Option (BitVec 64)

/-- The tables at boot. -/
def futexInit (sched : Sched) : FutexSys where
  sched := sched
  waiters := fun _ => ⟨false, 0, none, 0, 0, 0⟩
  buckets := fun _ _ => none
  waits := fun _ => none

-- ---------------------------------------------------------------------------
-- Buckets
-- ---------------------------------------------------------------------------

/-- `futex_hash` -/
def futexHash (uaddr : BitVec 64) : Fin futexHashBuckets :=
  let v := uaddr >>> 12
  let v := v ^^^ v >>> 16
  let v := v ^^^ v >>> 8
  ⟨v.toNat % futexHashBuckets, Nat.mod_lt _ (by decide)⟩

namespace FutexSys

/-- `alloc_waiter` -/
def allocWaiter (s : FutexSys) : Option (Fin maxFutexWaiters) :=
  (List.finRange maxFutexWaiters).find? fun i => (s.waiters i).inUse = false

def setWaiter (s : FutexSys) (idx : Fin maxFutexWaiters) (w : FutexWaiter) : FutexSys :=
  { s with waiters := Function.update s.waiters idx w }

def setCell (s : FutexSys) (b : Fin futexHashBuckets) (j : Fin bucketCells)
    (cell : Option (Fin maxFutexWaiters)) : FutexSys :=
  { s with buckets := Function.update s.buckets b (Function.update (s.buckets b) j cell) }

/-- The first cell of the bucket with this content. -/
def findCell (s : FutexSys) (b : Fin futexHashBuckets) (cell : Option (Fin maxFutexWaiters)) :
    Option (Fin bucketCells) :=
  (List.finRange bucketCells).find? fun j => s.buckets b j = cell

/-- `bucket_add` -/
def bucketAdd (s : FutexSys) (b : Fin futexHashBuckets) (idx : Fin maxFutexWaiters) : FutexSys :=
  match s.findCell b none with
  | none => s
  | some j => s.setCell b j (some idx)

/-- `bucket_remove` -/
def bucketRemove (s : FutexSys) (b : Fin futexHashBuckets) (idx : Fin maxFutexWaiters) :
    FutexSys :=
  match s.findCell b (some idx) with
  | none => s
  | some j => s.setCell b j none

-- ---------------------------------------------------------------------------
-- futex_dispatch
-- ---------------------------------------------------------------------------

/-- `task_block()` and what is left of the call. -/
def block (s : FutexSys) (uaddr : BitVec 64) : FutexSys :=
  { s with
    sched := taskBlock s.sched
    waits := match s.sched.current with
      | none => s.waits
      | some c => Function.update s.waits c (some uaddr) }

/-- `FUTEX_WAIT` and `FUTEX_WAIT_BITSET`, where the user's word is `word`. No value when
the call blocks. -/
def wait (s : FutexSys) (uaddr : BitVec 64) (val bitset word : BitVec 32) :
    FutexSys × Option Int :=
  if word ≠ val then (s, some errAgain)
  else
    match s.allocWaiter with
    | none => (s, some errNoMemory)
    | some slot =>
      let w : FutexWaiter := ⟨true, uaddr, s.sched.current, val, bitset, procGetpid s.sched⟩
      (((s.setWaiter slot w).bucketAdd (futexHash uaddr) slot).block uaddr, none)

/-- Wake the waiter `idx` that was found in bucket `b`. -/
def wakeWaiter (s : FutexSys) (b : Fin futexHashBuckets) (idx : Fin maxFutexWaiters) : FutexSys :=
  let w := s.waiters idx
  let sched := match w.task with
    | none => s.sched
    | some task => taskUnblock s.sched task
  ({ s with sched }.setWaiter idx { w with inUse := false }).bucketRemove b idx

/-- Whether `FUTEX_WAKE` (no mask) or `FUTEX_WAKE_BITSET` wakes the waiter. -/
def wakes (w : FutexWaiter) (uaddr : BitVec 64) (mask : Option (BitVec 32)) : Bool :=
  w.inUse && w.uaddr = uaddr &&
    match mask with
    | none => true
    | some mask => w.bitset &&& mask ≠ 0#32

/-- The loop over the cells of the bucket, until `n` are woken. After a wakeup `i--` looks
at the same cell once more, which is of no waiter in use then. -/
def wakeLoop (s : FutexSys) (b : Fin futexHashBuckets) (uaddr : BitVec 64)
    (mask : Option (BitVec 32)) (n : Int) : List (Fin bucketCells) → Int → FutexSys × Int
  | [], woken => (s, woken)
  | i :: is, woken =>
    if ¬ woken < n then (s, woken)
    else
      match s.buckets b i with
      | none => s.wakeLoop b uaddr mask n is woken
      | some idx =>
        if wakes (s.waiters idx) uaddr mask then
          (s.wakeWaiter b idx).wakeLoop b uaddr mask n is (woken + 1)
        else s.wakeLoop b uaddr mask n is woken

/-- `FUTEX_WAKE` and `FUTEX_WAKE_BITSET` -/
def wakeAll (s : FutexSys) (uaddr : BitVec 64) (val : BitVec 32) (mask : Option (BitVec 32)) :
    FutexSys × Option Int :=
  let (s, woken) := s.wakeLoop (futexHash uaddr) uaddr mask val.toInt (List.finRange bucketCells) 0
  (s, some woken)

/-- `op_clean` -/
def opClean (op : BitVec 32) : BitVec 32 := op &&& ~~~futexPrivateFlag &&& ~~~futexClockRealtime

def futexDispatch (s : FutexSys) (uaddr : BitVec 64) (op val val3 word : BitVec 32) :
    FutexSys × Option Int :=
  if uaddr = 0#64 then (s, some errBadAddress)
  else if ¬ accessOk uaddr 4#64 then (s, some errBadAddress)
  else if opClean op = futexWait then s.wait uaddr val 0xFFFFFFFF#32 word
  else if opClean op = futexWaitBitset then
    s.wait uaddr val (if val3 ≠ 0#32 then val3 else 0xFFFFFFFF#32) word
  else if opClean op = futexWake then s.wakeAll uaddr val none
  else if opClean op = futexWakeBitset then s.wakeAll uaddr val (some val3)
  else (s, some errNoSys)

/-- The process in slot `c` goes on after `task_block` returned: the call returns 0. -/
def resume (s : FutexSys) (c : Fin maxProcs) : FutexSys × Option Int :=
  ({ s with waits := Function.update s.waits c none }, some 0)

end FutexSys

end Lestra
