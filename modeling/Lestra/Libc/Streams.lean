import Lestra.Lib.ByteBuf
import Lestra.Lib.Halting
import Lestra.Libc.Stdio
import Mathlib.Logic.Function.Basic

/-!
# The streams of the C library

The `FILE` layer of `libc/src/stdio.c`: `fopen`, `fclose`, `fflush`, `fread`, `fwrite`, `fgetc`,
`fputc`, `fputs`, `puts` and the calls of the `printf` family that write to a stream. One buffer
serves for both directions. The kernel behind the system calls, and the allocator, are a parameter.
A program stops where it writes behind the buffer or uses a stream that is closed.
-/

namespace Lestra

open Halting

-- ---------------------------------------------------------------------------
-- The kernel and the stream
-- ---------------------------------------------------------------------------

/-- The system calls that the library makes, on a state `ω` of the kernel. -/
structure SysIo (ω : Type) where
  /-- How many bytes are taken, or an error below 0. -/
  write : ℤ → List UInt8 → ω → ℤ × ω
  write_le : ∀ fd data w, (write fd data w).1 ≤ data.length
  /-- The bytes, or an error. -/
  read : ℤ → ℕ → ω → Except ℤ (List UInt8) × ω
  read_le : ∀ fd n w bytes, (read fd n w).1 = .ok bytes → bytes.length ≤ n
  sysOpen : List UInt8 → ℤ → ω → ℤ × ω
  close : ℤ → ω → ℤ × ω
  malloc : ℕ → ω → Bool × ω

/-- `BUFSIZ_STD` -/
def bufsizStd : ℕ := 512

/-- `struct FILE`, with its flags; there is no buffer when it could not be allocated. -/
structure CFile where
  fd : ℤ
  readable : Bool
  writable : Bool
  dirty : Bool
  eof : Bool
  err : Bool
  buf : Option (List UInt8)
  bufPos : ℕ
  bufLen : ℕ
  pos_le : bufPos ≤ bufsizStd
  len_le : bufLen ≤ bufsizStd

namespace CFile

/-- What a stream for output has not yet written. -/
def pending (f : CFile) : List UInt8 := ByteBuf.load (f.buf.getD []) 0 f.bufPos

/-- What a stream for input has not yet given out. -/
def unread (f : CFile) : List UInt8 :=
  ByteBuf.load (f.buf.getD []) f.bufPos (f.bufLen - f.bufPos)

def fresh (fd : ℤ) (readable writable : Bool) (buf : Option (List UInt8)) : CFile :=
  ⟨fd, readable, writable, false, false, false, buf, 0, 0, Nat.zero_le _, Nat.zero_le _⟩

def emptied (f : CFile) : CFile := { f with bufPos := 0, dirty := false, pos_le := Nat.zero_le _ }

def appended (f : CFile) (buf chunk : List UInt8) (h : f.bufPos + chunk.length ≤ bufsizStd) :
    CFile :=
  { f with
    buf := some (ByteBuf.store buf f.bufPos chunk)
    bufPos := f.bufPos + chunk.length
    dirty := true
    pos_le := h }

def filled (f : CFile) (buf bytes : List UInt8) (h : bytes.length ≤ bufsizStd) : CFile :=
  { f with
    buf := some (ByteBuf.store buf 0 bytes)
    bufPos := 0
    bufLen := bytes.length
    pos_le := Nat.zero_le _
    len_le := h }

/-- `n` bytes are taken out of the buffer, or all that there are. -/
def advanced (f : CFile) (n : ℕ) : CFile :=
  { f with
    bufPos := f.bufPos + min n (f.bufLen - f.bufPos)
    pos_le := by
      have := f.pos_le
      have := f.len_le
      omega }

end CFile

/-- What happens on a stream: the caller's side and the kernel's. -/
inductive StreamEvent where
  /-- Bytes that a call has accepted. -/
  | put (bytes : List UInt8)
  /-- Bytes that the kernel has taken. -/
  | wrote (bytes : List UInt8)
  /-- The kernel took no more. -/
  | refused
  /-- Bytes that the kernel gave. -/
  | read (bytes : List UInt8)
  /-- Bytes that a call has returned. -/
  | got (bytes : List UInt8)
deriving DecidableEq

structure CStream (ω : Type) where
  file : CFile
  log : List StreamEvent
  errno : ℤ
  host : ω

abbrev StdIo (ω : Type) (α : Type) : Type := Prog (CStream ω) α

variable {ω : Type} (io : SysIo ω)

def setFile (f : CFile → CFile) : StdIo ω Unit := change fun s => { s with file := f s.file }

def noteEvents (es : List StreamEvent) : StdIo ω Unit :=
  change fun s => { s with log := s.log ++ es }

def ebadf : ℤ := 9

/-- The call does not fit the mode of the stream. -/
def wrongMode : StdIo ω Unit :=
  change fun s => { s with errno := ebadf, file := { s.file with err := true } }

-- ---------------------------------------------------------------------------
-- Output
-- ---------------------------------------------------------------------------

/-- The loops over `SYS_WRITE`: how many bytes were taken, and the result that ended the loop before
all of them were. -/
def writeAll (fd : ℤ) (data : List UInt8) (w : ω) : ℕ × Option ℤ × ω :=
  if data.length = 0 then (0, none, w)
  else
    let (r, w) := io.write fd data w
    if r ≤ 0 then (0, some r, w)
    else
      let (n, e, w) := writeAll fd (data.drop r.toNat) w
      (r.toNat + n, e, w)
termination_by data.length
decreasing_by
  rw [List.length_drop]
  omega

/-- What is noted of such a loop. -/
def writeEvents (data : List UInt8) (n : ℕ) (e : Option ℤ) : List StreamEvent :=
  .wrote (data.take n) :: if e.isSome then [.refused] else []

/-- A result below 0 is an error. -/
def writeFailed : Option ℤ → Bool
  | some r => decide (r < 0)
  | none => false

/-- `errno` behind the loop. -/
def writeErrno (errno : ℤ) : Option ℤ → ℤ
  | some r => if r < 0 then -r else errno
  | none => errno

/-- Whether it succeeded. A short write loses what is left, and is no error. -/
def fileFlushWrite : StdIo ω Bool := do
  let s ← look
  if ¬ s.file.dirty then pure true
  else if s.file.buf.isNone ∨ s.file.bufPos = 0 then
    setFile fun f => { f with dirty := false }
    pure true
  else
    let (n, e, host) := writeAll io s.file.fd s.file.pending s.host
    change fun s => { s with
      file := { s.file.emptied with err := s.file.err || writeFailed e }
      log := s.log ++ writeEvents s.file.pending n e
      errno := writeErrno s.errno e
      host := host }
    pure ¬ writeFailed e

def flushWhen (full : Bool) : StdIo ω Bool := if full then fileFlushWrite io else pure true

def fflush : StdIo ω Bool := do
  let s ← look
  if s.file.writable then fileFlushWrite io else pure true

/-- Bytes go into the buffer; behind its end is memory of others. -/
def appendChunk (chunk : List UInt8) : StdIo ω Unit := do
  let s ← look
  if h : s.file.bufPos + chunk.length ≤ bufsizStd then
    change fun t => { t with
      file := s.file.appended (s.file.buf.getD []) chunk h
      log := t.log ++ [.put chunk] }
  else stop

/-- The room in the buffer, once it has been flushed if it was full. -/
def roomFor (f : CFile) : ℕ := if f.bufPos = bufsizStd then bufsizStd else bufsizStd - f.bufPos

theorem roomFor_pos (f : CFile) : 0 < roomFor f := by
  have hle := f.pos_le
  unfold roomFor
  split
  · decide
  · omega

def fwriteLoop (data : List UInt8) : StdIo ω ℕ := do
  if data.length = 0 then pure 0
  else
    let s ← look
    let space := roomFor s.file
    let ok ← flushWhen io (s.file.bufPos = bufsizStd)
    if ok then
      appendChunk (data.take space)
      let n ← fwriteLoop (data.drop space)
      pure (min space data.length + n)
    else pure 0
termination_by data.length
decreasing_by
  have := roomFor_pos s.file
  rw [List.length_drop]
  omega

/-- Straight to the kernel. -/
def writeThrough (data : List UInt8) : StdIo ω ℕ := do
  let s ← look
  let (n, e, host) := writeAll io s.file.fd data s.host
  change fun s => { s with
    file := { s.file with err := s.file.err || writeFailed e }
    log := s.log ++ .put (data.take n) :: writeEvents data n e
    errno := writeErrno s.errno e
    host := host }
  pure n

/-- How many bytes were accepted. -/
def fwriteBytes (data : List UInt8) : StdIo ω ℕ := do
  if data.length = 0 then pure 0
  else
    let s ← look
    if ¬ s.file.writable then
      wrongMode
      pure 0
    else if s.file.buf.isNone then writeThrough io data
    else fwriteLoop io data

/-- `data` are the `size * nmemb` bytes behind the pointer. -/
def fwrite (data : List UInt8) (size : ℕ) : StdIo ω ℕ := do
  let n ← fwriteBytes io data
  pure (n / size)

/-- `std` is whether the stream is the standard output or the standard error. -/
def fputc (std : Bool) (c : UInt8) : StdIo ω (Option UInt8) := do
  let s ← look
  if ¬ s.file.writable then
    wrongMode
    pure none
  else if s.file.buf.isNone then
    let n ← writeThrough io [c]
    if n = 0 then pure none else pure (some c)
  else
    let ok ← flushWhen io (bufsizStd ≤ s.file.bufPos)
    if ok then
      appendChunk [c]
      if c = '\n'.toUInt8 ∧ std then
        let _ ← fileFlushWrite io
        pure (some c)
      else pure (some c)
    else pure none

/-- The length, or `EOF`. -/
def fputs (str : List UInt8) : StdIo ω (Option ℕ) := do
  let w ← fwrite io str 1
  if w < str.length then pure none else pure (some str.length)

def puts (str : List UInt8) : StdIo ω (Option ℕ) := do
  let w ← fwrite io str 1
  if w < str.length then pure none
  else
    match ← fputc io true '\n'.toUInt8 with
    | none => pure none
    | some _ => pure (some (str.length + 1))

/-- What `vsnprintf` puts into an array of 1024 bytes, without the terminator. -/
def vfprintf (fmt : List UInt8) (ap : VarArgs.VaList) : StdIo ω ℤ := do
  let (buf, n, _) := vsnprintf true (fun _ => 0) 1024 fmt ap
  if n < 0 then pure (-1)
  else
    let toWrite := if 1023 < n.toNat then 1023 else n.toNat
    let w ← fwrite io ((List.range toWrite).map buf) 1
    if w < toWrite then pure (-1) else pure n

-- ---------------------------------------------------------------------------
-- Input
-- ---------------------------------------------------------------------------

/-- What `SYS_READ` gave, with the flags set when it gave nothing. -/
def readSys (n : ℕ) : StdIo ω (List UInt8) := fun s =>
  match (io.read s.file.fd n s.host).1 with
  | .error e =>
    (some [], { s with
      errno := e, file := { s.file with err := true }, host := (io.read s.file.fd n s.host).2 })
  | .ok [] =>
    (some [], { s with
      file := { s.file with eof := true }, host := (io.read s.file.fd n s.host).2 })
  | .ok (b :: bytes) =>
    (some (b :: bytes), { s with
      log := s.log ++ [.read (b :: bytes)], host := (io.read s.file.fd n s.host).2 })

/-- The buffer is filled with what was read. -/
def fillBuf (bytes : List UInt8) : StdIo ω Unit := do
  let s ← look
  if h : bytes.length ≤ bufsizStd then setFile fun f => f.filled (s.file.buf.getD []) bytes h
  else stop

/-- At most `want` bytes out of the buffer. -/
def drain (want : ℕ) : StdIo ω (List UInt8) := do
  let s ← look
  change fun t => { t with
    file := s.file.advanced want, log := t.log ++ [.got (s.file.unread.take want)] }
  pure (s.file.unread.take want)

/-- The loop of `fread`, with as many turns as bytes are wanted. -/
def freadLoop : ℕ → ℕ → StdIo ω (List UInt8)
  | 0, _ => pure []
  | turns + 1, want => do
    if want = 0 then pure []
    else
      let s ← look
      if s.file.buf.isNone ∨ bufsizStd ≤ want then
        let bytes ← readSys io want
        if bytes.length = 0 then pure []
        else
          noteEvents [.got bytes]
          let rest ← freadLoop turns (want - bytes.length)
          pure (bytes ++ rest)
      else
        let bytes ← readSys io bufsizStd
        if bytes.length = 0 then pure []
        else
          fillBuf bytes
          let front ← drain want
          let rest ← freadLoop turns (want - front.length)
          pure (front ++ rest)

/-- The bytes that are stored behind the pointer, at most `size * nmemb`. -/
def fread (want : ℕ) : StdIo ω (List UInt8) := do
  if want = 0 then pure []
  else
    let s ← look
    if ¬ s.file.readable then
      wrongMode
      pure []
    else
      let front ← drain want
      let rest ← freadLoop io want (want - front.length)
      pure (front ++ rest)

def fgetc : StdIo ω (Option UInt8) := do
  let s ← look
  if ¬ s.file.readable then
    wrongMode
    pure none
  else if s.file.buf.isNone then
    let bytes ← readSys io 1
    noteEvents [.got bytes]
    pure bytes.head?
  else if s.file.bufLen ≤ s.file.bufPos then
    let bytes ← readSys io bufsizStd
    if bytes.length = 0 then pure none
    else
      fillBuf bytes
      let front ← drain 1
      pure front.head?
  else
    let front ← drain 1
    pure front.head?

def clearerr : StdIo ω Unit := setFile fun f => { f with eof := false, err := false }

-- ---------------------------------------------------------------------------
-- All streams
-- ---------------------------------------------------------------------------

/-- The standard streams are 0, 1 and 2. -/
structure Stdio (ω : Type) where
  files : ℕ → Option CFile
  logs : ℕ → List StreamEvent
  /-- Whether it was opened for reading, and for writing. -/
  modes : ℕ → Option (Bool × Bool)
  openFiles : List ℕ
  next : ℕ
  errno : ℤ
  host : ω
  /-- The stream whose call did not come to its end. -/
  hung : Option ℕ

def Stdio.start (host : ω) : Stdio ω where
  files := fun i =>
    if i = 0 then some (.fresh 0 true false none)
    else if i ≤ 2 then some (.fresh i false true none)
    else none
  logs := fun _ => []
  modes := fun i =>
    if i = 0 then some (true, false) else if i ≤ 2 then some (false, true) else none
  openFiles := []
  next := 3
  errno := 0
  host := host
  hung := none

/-- A call on a stream. -/
def Stdio.call {α : Type} (t : Stdio ω) (i : ℕ) (m : StdIo ω α) : Stdio ω :=
  match t.files i with
  | none => { t with hung := some i }
  | some file =>
    let (result, s) := m ⟨file, t.logs i, t.errno, t.host⟩
    { t with
      files := Function.update t.files i (some s.file)
      logs := Function.update t.logs i s.log
      errno := s.errno
      host := s.host
      hung := if result.isNone then some i else none }

/-- The modes that the first letter and a plus ask for, and the flags of `open`. -/
def parseMode : List UInt8 → Option (Bool × Bool × ℤ)
  | [] => none
  | c :: rest =>
    let plus := rest.contains '+'.toUInt8
    if c = 'r'.toUInt8 then some (true, plus, if plus then 2 else 0)
    else if c = 'w'.toUInt8 then some (plus, true, 0o1100 + if plus then 2 else 1)
    else if c = 'a'.toUInt8 then some (plus, true, 0o2100 + if plus then 2 else 1)
    else none

def fopen (path mode : List UInt8) (t : Stdio ω) : Stdio ω :=
  match parseMode mode with
  | none => { t with errno := 22 }
  | some (readable, writable, flags) =>
    let (fd, host) := io.sysOpen path flags t.host
    if fd < 0 then { t with errno := -fd, host := host }
    else
      let (ok, host) := io.malloc 64 host
      if ¬ ok then { t with errno := 12, host := (io.close fd host).2 }
      else
        let (ok, host) := io.malloc bufsizStd host
        { t with
          files := Function.update t.files t.next
            (some (.fresh fd readable writable (if ok then some [] else none)))
          logs := Function.update t.logs t.next []
          modes := Function.update t.modes t.next (some (readable, writable))
          openFiles := t.next :: t.openFiles
          next := t.next + 1
          host := host }

/-- The standard streams are flushed only. -/
def fclose (i : ℕ) (t : Stdio ω) : Stdio ω :=
  let t := t.call i (fflush io)
  if i ≤ 2 ∨ t.hung.isSome then t
  else
    match t.files i with
    | none => t
    | some file =>
      let (r, host) := io.close file.fd t.host
      { t with
        files := Function.update t.files i none
        openFiles := t.openFiles.erase i
        errno := if r < 0 then -r else t.errno
        host := host }

/-- `fflush(NULL)`, on a list of streams. -/
def flushStreams (is : List ℕ) (t : Stdio ω) : Stdio ω :=
  is.foldl (fun t i => if t.hung.isSome then t else t.call i (fflush io)) t

inductive StdioOp where
  | fopen (path mode : List UInt8)
  | fclose (i : ℕ)
  | fflush (i : ℕ)
  | fflushAll
  | fread (i want : ℕ)
  | fwrite (i : ℕ) (data : List UInt8) (size : ℕ)
  | fgetc (i : ℕ)
  | fputc (i : ℕ) (c : UInt8)
  | fputs (i : ℕ) (str : List UInt8)
  | puts (str : List UInt8)
  | vfprintf (i : ℕ) (fmt : List UInt8) (ap : VarArgs.VaList)
  | clearerr (i : ℕ)

def stdioStep (t : Stdio ω) (op : StdioOp) : Stdio ω :=
  if t.hung.isSome then t
  else
    match op with
    | .fopen path mode => fopen io path mode t
    | .fclose i => fclose io i t
    | .fflush i => t.call i (fflush io)
    | .fflushAll => flushStreams io (t.openFiles ++ [1, 2]) t
    | .fread i want => t.call i (fread io want)
    | .fwrite i data size => t.call i (fwrite io data size)
    | .fgetc i => t.call i (fgetc io)
    | .fputc i c => t.call i (fputc io (i = 1 ∨ i = 2) c)
    | .fputs i str => t.call i (fputs io str)
    | .puts str => t.call 1 (puts io str)
    | .vfprintf i fmt ap => t.call i (vfprintf io fmt ap)
    | .clearerr i => t.call i clearerr

end Lestra
