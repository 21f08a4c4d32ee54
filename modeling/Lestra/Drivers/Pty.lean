import Mathlib.Data.Int.Notation
import Mathlib.Logic.Function.Iterate
import Lestra.Drivers.PtyRing

/-!
# Pseudo-terminals

One PTY pair of `kernel/drivers/char/pty.c` and the processes that work on it. A call that
blocks leaves the rest of its loop in `calls`; `ptyResume` is that rest. Between two blockings
a call is not interrupted. Of the process table only who is blocked matters here, and of the
descriptors only whether a side is still open; the window size is left out.
-/

namespace Lestra

-- ---------------------------------------------------------------------------
-- Modes and characters
-- ---------------------------------------------------------------------------

def ptyIcanon : UInt32 := 0x0001
def ptyEcho : UInt32 := 0x0002
def ptyIsig : UInt32 := 0x0004
def ptyOpost : UInt32 := 0x0008
def ptyOnlcr : UInt32 := 0x0010
def ptyIcrnl : UInt32 := 0x0020
def ptyInlcr : UInt32 := 0x0040
def ptyEchoe : UInt32 := 0x0080
def ptyEchok : UInt32 := 0x0100
def ptyEchoctl : UInt32 := 0x0200

/-- `PTY_DEFAULT_MODES` -/
def ptyDefaultModes : UInt32 :=
  ptyIcanon ||| ptyEcho ||| ptyIsig ||| ptyOpost ||| ptyOnlcr ||| ptyIcrnl ||| ptyEchoe |||
    ptyEchoctl

def ptyVintr : UInt8 := 0x03
def ptyVquit : UInt8 := 0x1C
def ptyVerase : UInt8 := 0x7F
def ptyVbs : UInt8 := 0x08
def ptyVwerase : UInt8 := 0x17
def ptyVkill : UInt8 := 0x15
def ptyVeof : UInt8 := 0x04
def ptyVsusp : UInt8 := 0x1A

/-- `'\n'` -/
def ptyNl : UInt8 := 0x0A

/-- `'\r'` -/
def ptyCr : UInt8 := 0x0D

def sigInt : ℕ := 2
def sigQuit : ℕ := 3
def sigTstp : ℕ := 20

def ptyEinval : ℤ := -2
def ptyEio : ℤ := -5

-- ---------------------------------------------------------------------------
-- State
-- ---------------------------------------------------------------------------

/-- The four fields for a blocked process. -/
inductive PtyWaiter where
  | masterRead
  | slaveRead
  | masterWrite
  | slaveWrite
  deriving DecidableEq, Repr

/-- `struct pty_pair`. `line` is the part of `line_buf` below `line_len`, and `waiter` holds the
pids, 0 for none. -/
structure PtyPair where
  inUse : Bool
  masterOpen : Bool
  slaveOpen : Bool
  termModes : UInt32
  slaveInput : ByteRing
  masterOutput : ByteRing
  line : List UInt8
  eofPending : Bool
  slavePgid : ℤ
  waiter : PtyWaiter → ℤ

/-- `pty->term_modes & mode` -/
def PtyPair.has (p : PtyPair) (mode : UInt32) : Bool := p.termModes &&& mode != 0

/-- A pair as `pty_create` makes it, with other modes. -/
def ptyCreate (modes : UInt32) : PtyPair :=
  ⟨true, true, true, modes, ByteRing.empty, ByteRing.empty, [], false, 0, fun _ => 0⟩

/-- What is left of a call that called `task_block`; a slave's read is in the loop of the mode
it was called in. -/
inductive PtyCall where
  | masterRead (count : ℕ)
  | slaveWrite (data : List UInt8) (totalConsumed : ℕ)
  | slaveRead (canonical : Bool) (count : ℕ)
  deriving DecidableEq, Repr

/-- The field in which the call leaves its pid. -/
def PtyCall.waiter : PtyCall → PtyWaiter
  | .masterRead _ => .masterRead
  | .slaveWrite _ _ => .slaveWrite
  | .slaveRead _ _ => .slaveRead

/-- The pair, the processes by their pids, and the signals sent to process groups. -/
structure PtySys where
  pty : PtyPair
  blocked : ℤ → Bool
  calls : ℤ → Option PtyCall
  signals : List (ℤ × ℕ)

/-- How a turn of a call ends: in a value, `none` when it blocks, with the bytes that it
moved. -/
structure PtyResult where
  ret : Option ℤ
  moved : List UInt8
  deriving DecidableEq, Repr

namespace PtySys

def setPty (s : PtySys) (p : PtyPair) : PtySys := { s with pty := p }

/-- `if (waiter > 0) { task_unblock_pid(waiter); waiter = 0; }` -/
def wake (s : PtySys) (w : PtyWaiter) : PtySys :=
  if 0 < s.pty.waiter w then
    { s with
      blocked := Function.update s.blocked (s.pty.waiter w) false
      pty := { s.pty with waiter := Function.update s.pty.waiter w 0 } }
  else s

/-- `ring_buf_write` to the master's output. -/
def output (s : PtySys) (bytes : List UInt8) : PtySys :=
  s.setPty { s.pty with masterOutput := (ringBufWrite s.pty.masterOutput bytes).1 }

/-- `ring_buf_write` to the slave's input. -/
def input (s : PtySys) (bytes : List UInt8) : PtySys :=
  s.setPty { s.pty with slaveInput := (ringBufWrite s.pty.slaveInput bytes).1 }

def setLine (s : PtySys) (line : List UInt8) : PtySys := s.setPty { s.pty with line := line }

def setEof (s : PtySys) (eof : Bool) : PtySys := s.setPty { s.pty with eofPending := eof }

end PtySys

-- ---------------------------------------------------------------------------
-- Echo
-- ---------------------------------------------------------------------------

def ptyEchoChar (s : PtySys) (ch : UInt8) : PtySys :=
  if !s.pty.has ptyEcho then s
  else if s.pty.has ptyEchoctl ∧ ch < 32 ∧ ch ≠ 0x08 ∧ ch ≠ 0x09 ∧ ch ≠ ptyNl ∧ ch ≠ ptyCr then
    (s.output [0x5E]).output [ch + 64]
  else if s.pty.has ptyEchoctl ∧ ch = 127 then (s.output [0x5E]).output [0x3F]
  else s.output [ch]

def ptyEchoSignal (s : PtySys) (ctrlCh : UInt8) : PtySys :=
  if !s.pty.has ptyEcho then s else s.output [0x5E, ctrlCh + 64, ptyCr, ptyNl]

def ptyEchoErase (s : PtySys) : PtySys :=
  if !s.pty.has ptyEcho then s
  else if !s.pty.has ptyEchoe then s.output [ptyVerase]
  else s.output [0x08, 0x20, 0x08]

-- ---------------------------------------------------------------------------
-- Input: master to slave
-- ---------------------------------------------------------------------------

/-- The group's processes are found in the process table. -/
def ptySendSignalGroup (s : PtySys) (signum : ℕ) : PtySys :=
  if s.pty.slavePgid ≤ 0 then s else { s with signals := s.signals ++ [(s.pty.slavePgid, signum)] }

/-- The three branches for signal characters. -/
def ptySignal (s : PtySys) (ch : UInt8) (signum : ℕ) : PtySys :=
  let s := ptyEchoSignal s ch
  let s := ptySendSignalGroup s signum
  ((s.setLine []).setEof false).wake .slaveRead

def ptyEof (s : PtySys) : PtySys :=
  if s.pty.line ≠ [] then ((s.input s.pty.line).setLine []).wake .slaveRead
  else (s.setEof true).wake .slaveRead

def ptyErase (s : PtySys) : PtySys :=
  if s.pty.line ≠ [] then ptyEchoErase (s.setLine s.pty.line.dropLast) else s

/-- `while (line_len > 0 && p(line_buf[line_len - 1]))`, at most `fuel` turns. -/
def ptyEraseWhile (p : UInt8 → Bool) : ℕ → PtySys → PtySys
  | 0, s => s
  | fuel + 1, s =>
    match s.pty.line.getLast? with
    | none => s
    | some c => if p c then ptyEraseWhile p fuel (ptyErase s) else s

def ptyWordErase (s : PtySys) : PtySys :=
  let s := ptyEraseWhile (· == 0x20) s.pty.line.length s
  ptyEraseWhile (· != 0x20) s.pty.line.length s

def ptyKill (s : PtySys) : PtySys :=
  let echoed :=
    if s.pty.has ptyEchok then s.output [ptyCr, ptyNl]
    else if s.pty.has ptyEcho then ptyEchoErase^[s.pty.line.length] s
    else s
  echoed.setLine []

/-- The mapping of CR and NL. -/
def ptyMapChar (p : PtyPair) (ch : UInt8) : UInt8 :=
  let ch := if p.has ptyIcrnl ∧ ch = ptyCr then ptyNl else ch
  if p.has ptyInlcr ∧ ch = ptyNl then ptyCr else ch

/-- The line is complete. -/
def ptyNewline (s : PtySys) : PtySys :=
  let line := if s.pty.line.length < ptyBufferSize - 1 then s.pty.line ++ [ptyNl] else s.pty.line
  let written := (ringBufWrite s.pty.slaveInput line).2
  let s := s.input line
  let s := if 0 < written then s.wake .slaveRead else s
  let s := if s.pty.has ptyEcho then (s.output [ptyCr, ptyNl]).wake .masterRead else s
  (s.setLine []).setEof false

def ptyLineChar (s : PtySys) (ch : UInt8) : PtySys :=
  let s :=
    if ptyBufferSize - 1 ≤ s.pty.line.length then
      ((s.input s.pty.line).wake .slaveRead).setLine []
    else s
  let s := ptyEchoChar (s.setLine (s.pty.line ++ [ch])) ch
  if s.pty.has ptyEcho then s.wake .masterRead else s

/-- Non-canonical mode. -/
def ptyRawChar (s : PtySys) (ch : UInt8) : PtySys :=
  let s := s.input [ch]
  let s := if s.pty.has ptyEcho then (ptyEchoChar s ch).wake .masterRead else s
  s.wake .slaveRead

def ptyInputProcess (s : PtySys) (ch : UInt8) : PtySys :=
  if s.pty.has ptyIsig ∧ ch = ptyVintr then ptySignal s ch sigInt
  else if s.pty.has ptyIsig ∧ ch = ptyVsusp then ptySignal s ch sigTstp
  else if s.pty.has ptyIsig ∧ ch = ptyVquit then ptySignal s ch sigQuit
  else if ch = ptyVeof ∧ s.pty.has ptyIcanon then ptyEof s
  else if (ch = ptyVerase ∨ ch = ptyVbs) ∧ s.pty.has ptyIcanon then ptyErase s
  else if ch = ptyVwerase ∧ s.pty.has ptyIcanon then ptyWordErase s
  else if ch = ptyVkill ∧ s.pty.has ptyIcanon then ptyKill s
  else
    let ch := ptyMapChar s.pty ch
    if s.pty.has ptyIcanon then if ch = ptyNl then ptyNewline s else ptyLineChar s ch
    else ptyRawChar s ch

-- ---------------------------------------------------------------------------
-- Output: slave to master
-- ---------------------------------------------------------------------------

/-- The loop for `ONLCR`, with the bytes consumed; the branch for `'\r'` is that for any other
byte. -/
def ptyOnlcrLoop : ByteRing → List UInt8 → ByteRing × ℕ
  | r, [] => (r, 0)
  | r, ch :: rest =>
    if ch = ptyNl then
      if ptyBufferSize - r.count < 2 then (r, 0)
      else
        let (r, n) := ptyOnlcrLoop (ringBufWrite r [ptyCr, ptyNl]).1 rest
        (r, n + 1)
    else if ptyBufferSize - r.count < 1 then (r, 0)
    else
      let (r, n) := ptyOnlcrLoop (ringBufWrite r [ch]).1 rest
      (r, n + 1)

/-- The master's output after processing `data`, and the bytes consumed. -/
def ptyOutputRing (p : PtyPair) (data : List UInt8) : ByteRing × ℕ :=
  if p.has ptyOpost ∧ p.has ptyOnlcr then ptyOnlcrLoop p.masterOutput data
  else ringBufWrite p.masterOutput data

def ptyOutputProcess (s : PtySys) (data : List UInt8) : PtySys × ℕ :=
  let consumed := (ptyOutputRing s.pty data).2
  let s := s.setPty { s.pty with masterOutput := (ptyOutputRing s.pty data).1 }
  (if 0 < consumed then s.wake .masterRead else s, consumed)

/-- No more is consumed than there is. -/
theorem ptyOnlcrLoop_le (r : ByteRing) (data : List UInt8) :
    (ptyOnlcrLoop r data).2 ≤ data.length := by
  induction data generalizing r with
  | nil => exact le_rfl
  | cons ch rest ih =>
    unfold ptyOnlcrLoop
    split
    · split
      · exact Nat.zero_le _
      · exact Nat.succ_le_succ (ih _)
    · split
      · exact Nat.zero_le _
      · exact Nat.succ_le_succ (ih _)

-- ---------------------------------------------------------------------------
-- Calls
-- ---------------------------------------------------------------------------

namespace PtySys

/-- `task_block()` in a call of process `pid`, which leaves its pid in the call's field. -/
def block (s : PtySys) (pid : ℤ) (call : PtyCall) (moved : List UInt8) : PtySys × PtyResult :=
  ({ s with
      pty := { s.pty with waiter := Function.update s.pty.waiter call.waiter pid }
      blocked := Function.update s.blocked pid true
      calls := Function.update s.calls pid (some call) }, ⟨none, moved⟩)

/-- The call of process `pid` returns `n`. -/
def finish (s : PtySys) (pid : ℤ) (n : ℤ) (moved : List UInt8) : PtySys × PtyResult :=
  ({ s with calls := Function.update s.calls pid none }, ⟨some n, moved⟩)

end PtySys

/-- `(int)n` -/
def intRet (n : ℕ) : ℤ := Int.bmod n (2 ^ 32)

/-- The loop of `pty_master_write`, with the bytes processed. -/
def ptyMasterWriteLoop : PtySys → List UInt8 → PtySys × ℕ
  | s, [] => (s, 0)
  | s, ch :: rest =>
    let s := ptyInputProcess s ch
    if !s.pty.has ptyIcanon ∧ ptyBufferSize - 1 ≤ s.pty.slaveInput.count then (s, 1)
    else
      let (s, processed) := ptyMasterWriteLoop s rest
      (s, processed + 1)

def ptyMasterWrite (s : PtySys) (pid : ℤ) (data : List UInt8) : PtySys × PtyResult :=
  if !s.pty.masterOpen then s.finish pid ptyEinval []
  else if !s.pty.inUse ∨ !s.pty.slaveOpen then s.finish pid ptyEio []
  else
    let (s, processed) := ptyMasterWriteLoop s data
    s.finish pid (intRet processed) (data.take processed)

/-- `pty_master_read` from the top of its waiting loop. -/
def masterReadFrom (s : PtySys) (pid : ℤ) (count : ℕ) : PtySys × PtyResult :=
  if s.pty.masterOutput.count = 0 then
    if !s.pty.slaveOpen then s.finish pid 0 [] else s.block pid (.masterRead count) []
  else
    let toRead := min count s.pty.masterOutput.count
    let (r, data) := ringBufRead s.pty.masterOutput toRead
    let s := s.setPty { s.pty with masterOutput := r }
    let s := if 0 < data.length then s.wake .slaveWrite else s
    s.finish pid data.length data

def ptyMasterRead (s : PtySys) (pid : ℤ) (count : ℕ) : PtySys × PtyResult :=
  if !s.pty.masterOpen then s.finish pid ptyEinval []
  else if !s.pty.inUse then s.finish pid ptyEio []
  else masterReadFrom s pid count

theorem ptyOutputProcess_le (s : PtySys) (data : List UInt8) :
    (ptyOutputProcess s data).2 ≤ data.length := by
  change (ptyOutputRing s.pty data).2 ≤ data.length
  unfold ptyOutputRing
  split
  · exact ptyOnlcrLoop_le _ _
  · unfold ringBufWrite
    dsimp only
    split
    · exact Nat.zero_le _
    · exact Nat.min_le_left _ _

/-- `pty_slave_write` from the top of its loop. -/
def slaveWriteFrom (s : PtySys) (pid : ℤ) (data : List UInt8) (totalConsumed : ℕ)
    (moved : List UInt8) : PtySys × PtyResult :=
  if _hmore : totalConsumed < data.length then
    let (s', consumed) := ptyOutputProcess s (data.drop totalConsumed)
    if _hnone : consumed = 0 then
      if !s'.pty.masterOpen then s'.finish pid ptyEio moved
      else s'.block pid (.slaveWrite data totalConsumed) moved
    else
      slaveWriteFrom s' pid data (totalConsumed + consumed)
        (moved ++ (data.drop totalConsumed).take consumed)
  else s.finish pid (intRet totalConsumed) moved
termination_by data.length - totalConsumed
decreasing_by omega

def ptySlaveWrite (s : PtySys) (pid : ℤ) (data : List UInt8) : PtySys × PtyResult :=
  if !s.pty.slaveOpen then s.finish pid ptyEinval []
  else if !s.pty.inUse ∨ !s.pty.masterOpen then s.finish pid ptyEio []
  else slaveWriteFrom s pid data 0 []

/-- The bytes that a canonical read delivers: a line, or all if there is no newline. -/
def toDeliver (r : ByteRing) : ℕ :=
  match ringBufFind r ptyNl with
  | some offset => offset + 1
  | none => r.count

/-- `pty_slave_read` behind its waiting loop: at most `n` bytes. -/
def slaveTake (s : PtySys) (pid : ℤ) (n : ℕ) : PtySys × PtyResult :=
  let (r, data) := ringBufRead s.pty.slaveInput n
  let s := s.setPty { s.pty with slaveInput := r }
  let s := if 0 < data.length then s.wake .masterWrite else s
  s.finish pid data.length data

/-- `pty_slave_read` from the top of the waiting loop it is in. -/
def slaveReadFrom (s : PtySys) (pid : ℤ) (canonical : Bool) (count : ℕ) : PtySys × PtyResult :=
  if canonical then
    if s.pty.slaveInput.count = 0 ∧ !s.pty.eofPending then
      if !s.pty.masterOpen then s.finish pid 0 [] else s.block pid (.slaveRead true count) []
    else if s.pty.eofPending ∧ s.pty.slaveInput.count = 0 then (s.setEof false).finish pid 0 []
    else slaveTake s pid (min (toDeliver s.pty.slaveInput) count)
  else if s.pty.slaveInput.count = 0 then
    if !s.pty.masterOpen then s.finish pid 0 [] else s.block pid (.slaveRead false count) []
  else slaveTake s pid (min count s.pty.slaveInput.count)

def ptySlaveRead (s : PtySys) (pid : ℤ) (count : ℕ) : PtySys × PtyResult :=
  if !s.pty.slaveOpen then s.finish pid ptyEinval []
  else if !s.pty.inUse then s.finish pid ptyEio []
  else slaveReadFrom s pid (s.pty.has ptyIcanon) count

/-- The call goes on behind `task_block()`, and clears its field. -/
def ptyResume (s : PtySys) (pid : ℤ) (call : PtyCall) : PtySys × PtyResult :=
  let s := s.setPty { s.pty with waiter := Function.update s.pty.waiter call.waiter 0 }
  match call with
  | .masterRead count => masterReadFrom s pid count
  | .slaveWrite data totalConsumed => slaveWriteFrom s pid data totalConsumed []
  | .slaveRead canonical count => slaveReadFrom s pid canonical count

-- ---------------------------------------------------------------------------
-- Closing and modes
-- ---------------------------------------------------------------------------

/-- `pty_close` of the master's or the slave's descriptor. -/
def ptyClose (s : PtySys) (isMaster : Bool) : PtySys :=
  if !(if isMaster then s.pty.masterOpen else s.pty.slaveOpen) ∨ !s.pty.inUse then s
  else
    let s :=
      if isMaster then
        ((s.setPty { s.pty with masterOpen := false }).wake .slaveRead).wake .slaveWrite
      else
        ((((s.setPty { s.pty with slaveOpen := false }).wake .masterRead).wake
          .masterWrite).setLine []).setEof false
    if !s.pty.masterOpen ∧ !s.pty.slaveOpen then
      s.setPty { s.pty with inUse := false, slavePgid := 0 }
    else s

def ptySetModes (s : PtySys) (modes : UInt32) : PtySys :=
  if !s.pty.masterOpen ∧ !s.pty.slaveOpen then s
  else
    let s :=
      if s.pty.has ptyIcanon ∧ modes &&& ptyIcanon = 0 then
        let s :=
          if s.pty.line ≠ [] then ((s.input s.pty.line).setLine []).wake .slaveRead else s
        s.setEof false
      else s
    s.setPty { s.pty with termModes := modes }

-- ---------------------------------------------------------------------------
-- Steps
-- ---------------------------------------------------------------------------

/-- A call of process `pid`, its going on after `task_block()`, anything else that unblocks it,
a change of the modes, or a close of one side. -/
inductive PtyOp where
  | masterWrite (pid : ℤ) (data : List UInt8)
  | masterRead (pid : ℤ) (count : ℕ)
  | slaveWrite (pid : ℤ) (data : List UInt8)
  | slaveRead (pid : ℤ) (count : ℕ)
  | resume (pid : ℤ)
  | wake (pid : ℤ)
  | setModes (modes : UInt32)
  | close (isMaster : Bool)

namespace PtySys

/-- Nothing happens. -/
def idle (s : PtySys) : PtySys × PtyResult := (s, ⟨none, []⟩)

/-- A process inside a call makes no other. -/
def step (s : PtySys) : PtyOp → PtySys × PtyResult
  | .masterWrite pid data => if (s.calls pid).isSome then s.idle else ptyMasterWrite s pid data
  | .masterRead pid count => if (s.calls pid).isSome then s.idle else ptyMasterRead s pid count
  | .slaveWrite pid data => if (s.calls pid).isSome then s.idle else ptySlaveWrite s pid data
  | .slaveRead pid count => if (s.calls pid).isSome then s.idle else ptySlaveRead s pid count
  | .resume pid =>
    match s.calls pid with
    | none => s.idle
    | some call => if s.blocked pid then s.idle else ptyResume s pid call
  | .wake pid => { s with blocked := Function.update s.blocked pid false }.idle
  | .setModes modes => (ptySetModes s modes).idle
  | .close isMaster => (ptyClose s isMaster).idle

/-- The call that a step works on, with its process: a new one, or one that goes on. -/
def callOf (s : PtySys) : PtyOp → Option (ℤ × PtyCall)
  | .masterRead pid count =>
    if (s.calls pid).isSome then none else some (pid, .masterRead count)
  | .slaveWrite pid data =>
    if (s.calls pid).isSome then none else some (pid, .slaveWrite data 0)
  | .slaveRead pid count =>
    if (s.calls pid).isSome then none else some (pid, .slaveRead (s.pty.has ptyIcanon) count)
  | .resume pid => if s.blocked pid then none else (s.calls pid).map fun call => (pid, call)
  | _ => none

/-- A pair just made, with these modes and this foreground group, and nobody working on it. -/
def start (modes : UInt32) (pgid : ℤ) : PtySys :=
  ⟨{ ptyCreate modes with slavePgid := pgid }, fun _ => false, fun _ => none, []⟩

-- ---------------------------------------------------------------------------
-- What a wakeup leaves alone
-- ---------------------------------------------------------------------------

section Wake

variable (s : PtySys) (w : PtyWaiter)

@[simp] theorem wake_inUse : (s.wake w).pty.inUse = s.pty.inUse := by
  unfold wake; split <;> rfl

@[simp] theorem wake_masterOpen : (s.wake w).pty.masterOpen = s.pty.masterOpen := by
  unfold wake; split <;> rfl

@[simp] theorem wake_slaveOpen : (s.wake w).pty.slaveOpen = s.pty.slaveOpen := by
  unfold wake; split <;> rfl

@[simp] theorem wake_termModes : (s.wake w).pty.termModes = s.pty.termModes := by
  unfold wake; split <;> rfl

@[simp] theorem wake_slaveInput : (s.wake w).pty.slaveInput = s.pty.slaveInput := by
  unfold wake; split <;> rfl

@[simp] theorem wake_masterOutput : (s.wake w).pty.masterOutput = s.pty.masterOutput := by
  unfold wake; split <;> rfl

@[simp] theorem wake_line : (s.wake w).pty.line = s.pty.line := by
  unfold wake; split <;> rfl

@[simp] theorem wake_eofPending : (s.wake w).pty.eofPending = s.pty.eofPending := by
  unfold wake; split <;> rfl

@[simp] theorem wake_calls : (s.wake w).calls = s.calls := by
  unfold wake; split <;> rfl

end Wake

end PtySys

end Lestra
