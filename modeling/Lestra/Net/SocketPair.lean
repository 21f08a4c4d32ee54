import Lestra.Exec.PipeStream
import Lestra.Exec.PipeWakeup

/-!
# Socket pairs

`sock_alloc`, `socket_socketpair`, `socket_sendto` and `socket_recvfrom`
(`kernel/net/socket.c`) over the pipes of `kernel/exec/pipe.c`.

* `socketSocketpair` — two sockets and two pipes, or nothing
* `PairTrace` — what the two ends have accepted and returned
* `socketpair_law` — each end receives what the other one sent
-/

namespace Lestra

-- ---------------------------------------------------------------------------
-- The sockets
-- ---------------------------------------------------------------------------

def Socket.fdBase : Int := 600

def Socket.maxOpen : Nat := 32

def afUnix : Int := 1

def sockStream : Int := 1

inductive SockKind where
  | none | inetTcp | unixStream
deriving DecidableEq, Repr

inductive SockState where
  | unconnected | connecting | connected | closed
deriving DecidableEq, Repr

/-- `struct socket`, without the fields of TCP. -/
structure Socket where
  used : Bool
  domain : Int
  type : Int
  kind : SockKind
  state : SockState
  pipeReadFd : Int
  pipeWriteFd : Int
  soRcvbuf : Int
  soSndbuf : Int
deriving DecidableEq, Repr

abbrev Sockets := Fin Socket.maxOpen → Socket

/-- A socket as `sock_alloc` returns it. -/
def freshSocket : Socket := ⟨true, 0, 0, .none, .unconnected, -1, -1, 8192, 8192⟩

def sockAlloc (sockets : Sockets) : Sockets × Option (Fin Socket.maxOpen) :=
  match (List.finRange Socket.maxOpen).find? fun i => (sockets i).used = false with
  | none => (sockets, none)
  | some i => (Function.update sockets i freshSocket, some i)

/-- `s->used = 0` -/
def sockUnuse (sockets : Sockets) (i : Fin Socket.maxOpen) : Sockets :=
  Function.update sockets i { sockets i with used := false }

/-- The same where the pointer may be `NULL`. -/
def sockUnuseIf (sockets : Sockets) : Option (Fin Socket.maxOpen) → Sockets
  | none => sockets
  | some i => sockUnuse sockets i

/-- A connected socket over two pipe descriptors. -/
def sockWire (sockets : Sockets) (i : Fin Socket.maxOpen) (type readFd writeFd : Int) : Sockets :=
  Function.update sockets i { sockets i with
    domain := afUnix
    type := type
    kind := .unixStream
    state := .connected
    pipeReadFd := readFd
    pipeWriteFd := writeFd }

/-- `(int)(s - &sockets[0]) + SOCKET_FD_BASE` -/
def socketFdOf (i : Fin Socket.maxOpen) : Int := i.val + Socket.fdBase

/-- `socket_is_socket_fd`, with the index it makes valid. -/
def Sockets.isSocketFd (sockets : Sockets) (fd : Int) : Option (Fin Socket.maxOpen) :=
  if h : Socket.fdBase ≤ fd ∧ fd < Socket.fdBase + Socket.maxOpen then
    let i : Fin Socket.maxOpen := ⟨(fd - Socket.fdBase).toNat, by omega⟩
    if (sockets i).used then some i else none
  else none

structure SockTables where
  sockets : Sockets
  pipes : PipeTable

/-- `socket_socketpair`, with the descriptors in `sv` or an error; `sv` says whether the
pointer is valid. -/
def socketSocketpair (t : SockTables) (domain type : Int) (sv : Bool) :
    SockTables × Except Int (Int × Int) :=
  if domain ≠ afUnix then (t, .error (-97))
  else if type ≠ sockStream then (t, .error (-93))
  else if !sv then (t, .error (-14))
  else
    let (sockets, a) := sockAlloc t.sockets
    let (sockets, b) := sockAlloc sockets
    match a, b with
    | some a, some b =>
      match pipeCreate t.pipes with
      | (pipes, none) => (⟨sockUnuse (sockUnuse sockets a) b, pipes⟩, .error (-9))
      | (pipes, some pipeFds) =>
        match pipeCreate pipes with
        | (pipes, none) =>
          let pipes := (pipeClose pipes pipeFds.1).1
          let pipes := (pipeClose pipes pipeFds.2).1
          (⟨sockUnuse (sockUnuse sockets a) b, pipes⟩, .error (-9))
        | (pipes, some pipeFds2) =>
          let sockets := sockWire sockets a type pipeFds.1 pipeFds2.2
          let sockets := sockWire sockets b type pipeFds2.1 pipeFds.2
          (⟨sockets, pipes⟩, .ok (socketFdOf a, socketFdOf b))
    | a, b => (⟨sockUnuseIf (sockUnuseIf sockets a) b, t.pipes⟩, .error (-9))

-- ---------------------------------------------------------------------------
-- Sending and receiving
-- ---------------------------------------------------------------------------

structure SockSys where
  sockets : Sockets
  pipes : PipeSys

/-- How a call on a socket ends: it is handed to TCP, or ends as a turn of a pipe does. -/
inductive SockResult where
  | tcp
  | done (r : PipeResult)
deriving DecidableEq, Repr

def SockResult.moved : SockResult → List UInt8
  | .tcp => []
  | .done r => r.moved

def sockError (n : Int) : SockResult := .done ⟨some n, []⟩

/-- What `pipe.c` returns, with `-1` for every error. -/
def pipeCall (s : SockSys) (r : PipeSys × PipeResult) : SockSys × SockResult :=
  ({ s with pipes := r.1 }, .done ⟨r.2.ret.map fun n => if n < 0 then -1 else n, r.2.moved⟩)

/-- `socket_sendto`, called by process `c`; `buf` is `none` for a `NULL` pointer. -/
def socketSendto (s : SockSys) (c : Fin maxProcs) (fd : Int) (buf : Option (List UInt8)) :
    SockSys × SockResult :=
  match s.sockets.isSocketFd fd, buf with
  | none, _ => (s, sockError (-88))
  | some _, none => (s, sockError (-14))
  | some i, some bytes =>
    match (s.sockets i).kind with
    | .inetTcp => if (s.sockets i).state ≠ .connected then (s, sockError (-107)) else (s, .tcp)
    | .unixStream =>
      if (s.sockets i).pipeWriteFd < 0 then (s, sockError (-107))
      else pipeCall s (s.pipes.pipeWrite c (s.sockets i).pipeWriteFd bytes)
    | .none => (s, sockError (-102))

/-- `socket_recvfrom`; `buf` says whether the pointer is valid. -/
def socketRecvfrom (s : SockSys) (c : Fin maxProcs) (fd : Int) (buf : Bool) (len : Nat) :
    SockSys × SockResult :=
  match s.sockets.isSocketFd fd with
  | none => (s, sockError (-88))
  | some i =>
    if !buf then (s, sockError (-14))
    else
      match (s.sockets i).kind with
      | .inetTcp => if (s.sockets i).state ≠ .connected then (s, sockError (-107)) else (s, .tcp)
      | .unixStream =>
        if (s.sockets i).pipeReadFd < 0 then (s, sockError (-107))
        else pipeCall s (s.pipes.pipeRead c (s.sockets i).pipeReadFd len)
      | .none => (s, sockError (-102))

-- ---------------------------------------------------------------------------
-- What a pair takes, and gives back
-- ---------------------------------------------------------------------------

/-- The same sockets, pipes and pipe descriptors are in use. -/
structure SockTables.SameUse (t t' : SockTables) : Prop where
  sockets : ∀ i, (t'.sockets i).used = (t.sockets i).used
  pipes : ∀ pi, (t'.pipes.pipes pi).inUse = (t.pipes.pipes pi).inUse
  pipeFds : ∀ f, (t'.pipes.pipeFds f).inUse = (t.pipes.pipeFds f).inUse

variable {t t' : PipeTable} {pi : Fin maxPipes} {r w : Fin maxPipeFds} {sockets : Sockets}
  {a b : Fin Socket.maxOpen}

theorem withPipe_pipe (t : PipeTable) (pi : Fin maxPipes) (r w : Fin maxPipeFds) :
    (t.withPipe pi r w).pipes pi = openPipe := PipeTable.setPipe_same

theorem withPipe_read (hne : r ≠ w) : (t.withPipe pi r w).pipeFds r = ⟨true, pi, false⟩ := by
  rw [PipeTable.withPipe, PipeTable.setFd_ne hne, PipeTable.setFd_same]

theorem withPipe_write (t : PipeTable) (pi : Fin maxPipes) (r w : Fin maxPipeFds) :
    (t.withPipe pi r w).pipeFds w = ⟨true, pi, true⟩ := PipeTable.setFd_same

/-- Both ends of a pipe that was just created are closed, after something else failed. -/
theorem close_withPipe (hpi : (t.pipes pi).inUse = false) (hr : (t.pipeFds r).inUse = false)
    (hw : (t.pipeFds w).inUse = false) (hne : r ≠ w) (h : (t.withPipe pi r w).SameUsed t') :
    (∀ qi, ((pipeClose (pipeClose t' (pipeFdOf r)).1 (pipeFdOf w)).1.pipes qi).inUse =
        (t.pipes qi).inUse) ∧
      ∀ f, ((pipeClose (pipeClose t' (pipeFdOf r)).1 (pipeFdOf w)).1.pipeFds f).inUse =
        (t.pipeFds f).inUse := by
  have hread : t'.pipeFds r = ⟨true, pi, false⟩ := by
    rw [h.keepFd r (by rw [withPipe_read hne]), withPipe_read hne]
  have hwrite : t'.pipeFds w = ⟨true, pi, true⟩ := by
    rw [h.keepFd w (by rw [withPipe_write]), withPipe_write]
  have hpipe : t'.pipes pi = openPipe := by
    rw [h.keepPipe pi (by rw [withPipe_pipe]; rfl), withPipe_pipe]
  have hfirst : (pipeClose t' (pipeFdOf r)).1 =
      (t'.setFd r ⟨false, pi, false⟩).setPipe pi (openPipe.closeEnd false) := by
    rw [pipeClose_eq (pipeIsPipeFd_eq_some.mpr ⟨rfl, by rw [hread]⟩), hread, hpipe]
  have hwrite' : (pipeClose t' (pipeFdOf r)).1.pipeFds w = ⟨true, pi, true⟩ := by
    rw [hfirst, PipeTable.setPipe_pipeFds, PipeTable.setFd_ne hne.symm, hwrite]
  have hsecond : (pipeClose (pipeClose t' (pipeFdOf r)).1 (pipeFdOf w)).1 =
      ((pipeClose t' (pipeFdOf r)).1.setFd w ⟨false, pi, true⟩).setPipe pi
        ((openPipe.closeEnd false).closeEnd true) := by
    rw [pipeClose_eq (pipeIsPipeFd_eq_some.mpr ⟨rfl, by rw [hwrite']⟩), hwrite', hfirst,
      PipeTable.setPipe_same]
  constructor
  · intro qi
    rw [hsecond, hfirst]
    by_cases hq : qi = pi
    · rw [hq, PipeTable.setPipe_same, hpi]
      rfl
    · rw [PipeTable.setPipe_ne hq, PipeTable.setFd_pipes, PipeTable.setPipe_ne hq,
        PipeTable.setFd_pipes, h.pipes]
      exact congrArg Pipe.inUse (PipeTable.setPipe_ne hq)
  · intro f
    rw [hsecond, hfirst]
    by_cases hfw : f = w
    · rw [hfw, PipeTable.setPipe_pipeFds, PipeTable.setFd_same, hw]
    · rw [PipeTable.setPipe_pipeFds, PipeTable.setFd_ne hfw, PipeTable.setPipe_pipeFds]
      by_cases hfr : f = r
      · rw [hfr, PipeTable.setFd_same, hr]
      · rw [PipeTable.setFd_ne hfr, h.pipeFds, PipeTable.withPipe, PipeTable.setFd_ne hfw,
          PipeTable.setFd_ne hfr, PipeTable.setPipe_pipeFds]

theorem sockAlloc_spec (sockets : Sockets) :
    sockAlloc sockets = (sockets, none) ∨
      ∃ i, (sockets i).used = false ∧
        sockAlloc sockets = (Function.update sockets i freshSocket, some i) := by
  rw [sockAlloc]
  cases hfind : (List.finRange Socket.maxOpen).find? fun i => (sockets i).used = false with
  | none => exact .inl rfl
  | some i => exact .inr ⟨i, of_decide_eq_true (FirstFit.mem_of_some hfind), rfl⟩

theorem sockUnuse_used (sockets : Sockets) (a i : Fin Socket.maxOpen) :
    (sockUnuse sockets a i).used = if i = a then false else (sockets i).used := by
  rw [sockUnuse]
  split
  · rename_i hi
    rw [hi, Function.update_self]
  · rename_i hi
    rw [Function.update_of_ne hi]

/-- A socket that was not in use is given back. -/
theorem sockUnuse_alloc (ha : (sockets a).used = false) (i : Fin Socket.maxOpen) :
    (sockUnuse (Function.update sockets a freshSocket) a i).used = (sockets i).used := by
  rw [sockUnuse_used]
  split
  · rename_i hi
    rw [hi, ha]
  · rename_i hi
    rw [Function.update_of_ne hi]

/-- Two of them. -/
theorem sockUnuse_both (ha : (sockets a).used = false) (hb : (sockets b).used = false)
    (i : Fin Socket.maxOpen) :
    (sockUnuse (sockUnuse (Function.update (Function.update sockets a freshSocket) b freshSocket) a) b
      i).used = (sockets i).used := by
  rw [sockUnuse_used, sockUnuse_used]
  split
  · rename_i hi
    rw [hi, hb]
  · rename_i hib
    split
    · rename_i hi
      rw [hi, ha]
    · rename_i hia
      rw [Function.update_of_ne hib, Function.update_of_ne hia]

/-- The pair that was made: both sockets and all else besides. -/
structure Wired (t t' : SockTables) (a b : Fin Socket.maxOpen) (type : Int) (p q : Fin maxPipes)
    (rp wp rq wq : Fin maxPipeFds) : Prop where
  ne : a ≠ b
  fresh : (t.sockets a).used = false ∧ (t.sockets b).used = false
  first : t'.sockets a =
    ⟨true, afUnix, type, .unixStream, .connected, pipeFdOf rp, pipeFdOf wq, 8192, 8192⟩
  second : t'.sockets b =
    ⟨true, afUnix, type, .unixStream, .connected, pipeFdOf rq, pipeFdOf wp, 8192, 8192⟩
  others : ∀ i, i ≠ a → i ≠ b → t'.sockets i = t.sockets i
  pipe : p ≠ q
  unused : (t.pipes.pipes p).inUse = false ∧ (t.pipes.pipes q).inUse = false
  pipes : t'.pipes.pipes p = openPipe ∧ t'.pipes.pipes q = openPipe
  ends : t'.pipes.pipeFds rp = ⟨true, p, false⟩ ∧ t'.pipes.pipeFds wp = ⟨true, p, true⟩ ∧
    t'.pipes.pipeFds rq = ⟨true, q, false⟩ ∧ t'.pipes.pipeFds wq = ⟨true, q, true⟩

/-- A second pipe leaves the first one alone. -/
theorem wired_pipes {p q : Fin maxPipes} {rp wp rq wq : Fin maxPipeFds}
    (hq : ((t.withPipe p rp wp).pipes q).inUse = false)
    (hrq : ((t.withPipe p rp wp).pipeFds rq).inUse = false)
    (hwq : ((t.withPipe p rp wp).pipeFds wq).inUse = false) (hne : rp ≠ wp) (hne' : rq ≠ wq) :
    p ≠ q ∧ (t.pipes q).inUse = false ∧
      ((t.withPipe p rp wp).withPipe q rq wq).pipes p = openPipe ∧
      ((t.withPipe p rp wp).withPipe q rq wq).pipes q = openPipe ∧
      ((t.withPipe p rp wp).withPipe q rq wq).pipeFds rp = ⟨true, p, false⟩ ∧
      ((t.withPipe p rp wp).withPipe q rq wq).pipeFds wp = ⟨true, p, true⟩ ∧
      ((t.withPipe p rp wp).withPipe q rq wq).pipeFds rq = ⟨true, q, false⟩ ∧
      ((t.withPipe p rp wp).withPipe q rq wq).pipeFds wq = ⟨true, q, true⟩ := by
  have hpq : p ≠ q := by
    rintro rfl
    rw [withPipe_pipe] at hq
    cases hq
  have hkeep (f : Fin maxPipeFds) (hf : ((t.withPipe p rp wp).pipeFds f).inUse = true) :
      ((t.withPipe p rp wp).withPipe q rq wq).pipeFds f = (t.withPipe p rp wp).pipeFds f := by
    have hfr : f ≠ rq := by
      rintro rfl
      rw [hrq] at hf
      cases hf
    have hfw : f ≠ wq := by
      rintro rfl
      rw [hwq] at hf
      cases hf
    rw [PipeTable.withPipe, PipeTable.setFd_ne hfw, PipeTable.setFd_ne hfr, PipeTable.setPipe_pipeFds]
  have hother : (t.withPipe p rp wp).pipes q = t.pipes q := PipeTable.setPipe_ne hpq.symm
  refine ⟨hpq, by rw [← hother, hq], ?_, withPipe_pipe _ q rq wq, ?_, ?_, withPipe_read hne',
    withPipe_write _ q rq wq⟩
  · exact (PipeTable.setPipe_ne hpq).trans (withPipe_pipe t p rp wp)
  · rw [hkeep rp (by rw [withPipe_read hne]), withPipe_read hne]
  · rw [hkeep wp (by rw [withPipe_write]), withPipe_write]

/-- `socket_socketpair` gives everything back, or makes a pair. -/
theorem socketSocketpair_cases (t : SockTables) (domain type : Int) (sv : Bool) :
    (∃ e, (socketSocketpair t domain type sv).2 = .error e ∧
      t.SameUse (socketSocketpair t domain type sv).1) ∨
    ∃ a b p q rp wp rq wq,
      (socketSocketpair t domain type sv).2 = .ok (socketFdOf a, socketFdOf b) ∧
      Wired t (socketSocketpair t domain type sv).1 a b type p q rp wp rq wq := by
  have hself : t.SameUse t := ⟨fun _ => rfl, fun _ => rfl, fun _ => rfl⟩
  rw [socketSocketpair]
  split
  · exact .inl ⟨_, rfl, hself⟩
  split
  · exact .inl ⟨_, rfl, hself⟩
  split
  · exact .inl ⟨_, rfl, hself⟩
  rcases sockAlloc_spec t.sockets with ha | ⟨a, hafree, ha⟩
  · rw [ha]
    dsimp only
    rw [ha]
    exact .inl ⟨_, rfl, hself⟩
  rw [ha]
  dsimp only
  rcases sockAlloc_spec (Function.update t.sockets a freshSocket) with hb | ⟨b, hbfree, hb⟩
  · rw [hb]
    exact .inl ⟨_, rfl, sockUnuse_alloc hafree, fun _ => rfl, fun _ => rfl⟩
  have hne : b ≠ a := by
    rintro rfl
    rw [Function.update_self] at hbfree
    cases hbfree
  rw [Function.update_of_ne hne] at hbfree
  rw [hb]
  dsimp only
  rcases pipeCreate_spec t.pipes with ⟨hnone, hsame⟩ | ⟨p, rp, wp, hp, hrp, hwp, hrw, heq⟩
  · have heq : pipeCreate t.pipes = ((pipeCreate t.pipes).1, none) := Prod.ext rfl hnone
    rw [heq]
    exact .inl ⟨_, rfl, sockUnuse_both hafree hbfree, hsame.pipes, hsame.pipeFds⟩
  rw [heq]
  dsimp only
  rcases pipeCreate_spec (t.pipes.withPipe p rp wp) with
    ⟨hnone, hsame⟩ | ⟨q, rq, wq, hq, hrq, hwq, hrw', heq'⟩
  · have heq' : pipeCreate (t.pipes.withPipe p rp wp) =
        ((pipeCreate (t.pipes.withPipe p rp wp)).1, none) := Prod.ext rfl hnone
    obtain ⟨hpipes, hfds⟩ := close_withPipe hp hrp hwp hrw hsame
    rw [heq']
    exact .inl ⟨_, rfl, sockUnuse_both hafree hbfree, hpipes, hfds⟩
  rw [heq']
  obtain ⟨hpq, hqfree, hpipep, hpipeq, hends⟩ := wired_pipes hq hrq hwq hrw hrw'
  refine .inr ⟨a, b, p, q, rp, wp, rq, wq, rfl, hne.symm, ⟨hafree, hbfree⟩, ?_, ?_, fun i hia hib => ?_,
    hpq, ⟨hp, hqfree⟩, ⟨hpipep, hpipeq⟩, hends⟩
  · simp only [sockWire, Function.update_of_ne hne.symm, Function.update_self]
    rfl
  · simp only [sockWire, Function.update_of_ne hne, Function.update_self]
    rfl
  · simp only [sockWire, Function.update_of_ne hia, Function.update_of_ne hib]

-- ---------------------------------------------------------------------------
-- The two ends
-- ---------------------------------------------------------------------------

inductive PairEnd where
  | first | second
deriving DecidableEq, Repr

def PairEnd.other : PairEnd → PairEnd
  | .first => .second
  | .second => .first

/-- The descriptor of an end. -/
def PairEnd.fd (fds : Int × Int) : PairEnd → Int
  | .first => fds.1
  | .second => fds.2

/-- What the current process does to an end: a call, or the rest of one that blocked. Between
them anything may happen to the process table. -/
inductive PairEvent where
  | send (e : PairEnd) (bytes : List UInt8)
  | recv (e : PairEnd) (len : Nat)
  | resume
  | sched (sched : Sched)

/-- The system, the end that each process last called, and the bytes that each end has accepted
and returned. -/
structure PairTrace where
  sys : SockSys
  callEnd : Fin maxProcs → PairEnd
  accepted : PairEnd → List UInt8
  received : PairEnd → List UInt8

namespace PairTrace

def accept (t : PairTrace) (sys : SockSys) (e : PairEnd) (bytes : List UInt8) : PairTrace :=
  { t with sys, accepted := Function.update t.accepted e (t.accepted e ++ bytes) }

def receive (t : PairTrace) (sys : SockSys) (e : PairEnd) (bytes : List UInt8) : PairTrace :=
  { t with sys, received := Function.update t.received e (t.received e ++ bytes) }

def calling (t : PairTrace) (c : Fin maxProcs) (e : PairEnd) : PairTrace :=
  { t with callEnd := Function.update t.callEnd c e }

def step (fds : Int × Int) (t : PairTrace) (event : PairEvent) : PairTrace :=
  match event, t.sys.pipes.sched.current with
  | .sched sched, _ => { t with sys := { t.sys with pipes := { t.sys.pipes with sched } } }
  | _, none => t
  | .send e bytes, some c =>
    let r := socketSendto t.sys c (e.fd fds) (some bytes)
    (t.calling c e).accept r.1 e r.2.moved
  | .recv e len, some c =>
    let r := socketRecvfrom t.sys c (e.fd fds) true len
    (t.calling c e).receive r.1 e r.2.moved
  | .resume, some c =>
    match t.sys.pipes.calls c with
    | none => t
    | some call =>
      let r := t.sys.pipes.pipeResume c call
      match call with
      | .read _ _ => t.receive { t.sys with pipes := r.1 } (t.callEnd c) r.2.moved
      | .write _ _ _ => t.accept { t.sys with pipes := r.1 } (t.callEnd c) r.2.moved

/-- The pair before any call, with any process table. -/
def start (t : SockTables) (sched : Sched) : PairTrace where
  sys := ⟨t.sockets, ⟨sched, t.pipes, fun _ => none⟩⟩
  callEnd := fun _ => .first
  accepted := fun _ => []
  received := fun _ => []

end PairTrace

-- ---------------------------------------------------------------------------
-- One call
-- ---------------------------------------------------------------------------

/-- The end `fd` reads from one pipe and writes to another. -/
def EndOk (s : SockSys) (fd : Int) (readPipe writePipe : Fin maxPipes) : Prop :=
  ∃ i r w, s.sockets.isSocketFd fd = some i ∧ (s.sockets i).kind = .unixStream ∧
    (s.sockets i).pipeReadFd = pipeFdOf r ∧ (s.sockets i).pipeWriteFd = pipeFdOf w ∧
    s.pipes.table.pipeFds r = ⟨true, readPipe, false⟩ ∧
    s.pipes.table.pipeFds w = ⟨true, writePipe, true⟩

section Call

variable {s s' : SockSys} {fd : Int} {p q : Fin maxPipes}

theorem EndOk.congr (h : EndOk s fd p q) (hsockets : s'.sockets = s.sockets)
    (hfds : s'.pipes.table.pipeFds = s.pipes.table.pipeFds) : EndOk s' fd p q := by
  obtain ⟨i, r, w, hi, hkind, hr, hw, hread, hwrite⟩ := h
  refine ⟨i, r, w, ?_, ?_, ?_, ?_, ?_, ?_⟩ <;> (first | rw [hsockets] | rw [hfds]) <;> assumption

theorem pipeFdOf_nonneg (f : Fin maxPipeFds) : ¬ pipeFdOf f < 0 := by
  rw [pipeFdOf, pipeFdBase]
  omega

/-- A call to send is `pipe_write` to the pipe of the end. -/
theorem EndOk.send (h : EndOk s fd p q) (c : Fin maxProcs) (bytes : List UInt8) :
    socketSendto s c fd (some bytes) = pipeCall s
      (if !(s.pipes.table.pipes q).readOpen then s.pipes.finish c (-32) []
        else s.pipes.writeFrom c q bytes 0) := by
  obtain ⟨i, r, w, hi, hkind, -, hw, -, hwrite⟩ := h
  have hpipe : pipeIsPipeFd s.pipes.table (pipeFdOf w) = some w :=
    pipeIsPipeFd_eq_some.mpr ⟨rfl, by rw [hwrite]⟩
  unfold socketSendto
  rw [hi]
  dsimp only
  rw [hkind]
  dsimp only
  rw [hw, if_neg (pipeFdOf_nonneg w), PipeSys.pipeWrite, hpipe]
  dsimp only
  rw [hwrite]
  rfl

theorem EndOk.recv (h : EndOk s fd p q) (c : Fin maxProcs) (len : Nat) :
    socketRecvfrom s c fd true len = pipeCall s (s.pipes.readFrom c p len) := by
  obtain ⟨i, r, w, hi, hkind, hr, -, hread, -⟩ := h
  have hpipe : pipeIsPipeFd s.pipes.table (pipeFdOf r) = some r :=
    pipeIsPipeFd_eq_some.mpr ⟨rfl, by rw [hread]⟩
  unfold socketRecvfrom
  rw [hi]
  simp only [Bool.not_true, Bool.false_eq_true, if_false]
  rw [hkind]
  dsimp only
  rw [hr, if_neg (pipeFdOf_nonneg r), PipeSys.pipeRead, hpipe]
  dsimp only
  rw [hread]
  rfl

end Call

/-- Process `c` is left in a call, or in none; the others are where they were. -/
def LeavesIn (s s' : PipeSys) (c : Fin maxProcs) (P : PipeCall → Prop) : Prop :=
  ∃ call, s'.calls = Function.update s.calls c call ∧ ∀ x, call = some x → P x

theorem finish_leavesIn (s : PipeSys) (c : Fin maxProcs) (n : Int) (moved : List UInt8)
    (P : PipeCall → Prop) : LeavesIn s (s.finish c n moved).1 c P := ⟨none, rfl, nofun⟩

theorem readFrom_leavesIn (s : PipeSys) (c : Fin maxProcs) (pi : Fin maxPipes) (count : Nat) :
    LeavesIn s (s.readFrom c pi count).1 c fun call => ∃ n, call = .read pi n := by
  unfold PipeSys.readFrom
  dsimp only
  split
  · split
    · exact finish_leavesIn s c 0 [] _
    · exact ⟨_, rfl, fun x hx => ⟨count, Option.some.inj hx.symm⟩⟩
  · refine ⟨none, ?_, nofun⟩
    rw [PipeSys.finish]
    dsimp only
    rw [PipeSys.wakeWriter_eq, PipeSys.wake_calls]
    rfl

theorem writeFrom_leavesIn (c : Fin maxProcs) (pi : Fin maxPipes) (bytes : List UInt8)
    (written : Nat) (s : PipeSys) :
    LeavesIn s (s.writeFrom c pi bytes written).1 c fun call => ∃ rest n, call = .write pi rest n := by
  induction bytes generalizing s written with
  | nil => exact finish_leavesIn s c written [] _
  | cons b bs ih =>
    unfold PipeSys.writeFrom
    dsimp only
    split
    · split
      · exact finish_leavesIn s c (-32) [] _
      · exact ⟨_, rfl, fun x hx => ⟨b :: bs, written, Option.some.inj hx.symm⟩⟩
    · obtain ⟨call, hcalls, hcall⟩ :=
        ih (written + 1) ((s.setPipe pi ((s.table.pipes pi).push b)).wakeReader pi)
      rw [PipeSys.wakeReader_eq, PipeSys.wake_calls] at hcalls
      exact ⟨call, hcalls, hcall⟩

-- ---------------------------------------------------------------------------
-- Runs
-- ---------------------------------------------------------------------------

/-- The pipe of a call of end `e`, when `pipe` says which pipe each end reads from. -/
def CallOf (pipe : PairEnd → Fin maxPipes) (e : PairEnd) : PipeCall → Prop
  | .read pi _ => pi = pipe e
  | .write pi _ _ => pi = pipe e.other

/-- What each end reads is the stream of what the other one accepts. -/
structure PairOk (fds : Int × Int) (pipe : PairEnd → Fin maxPipes) (t : PairTrace) : Prop where
  ends : ∀ e, EndOk t.sys (e.fd fds) (pipe e) (pipe e.other)
  stream : ∀ e, (t.sys.pipes.table.pipes (pipe e)).Stream (t.accepted e.other) (t.received e)
  calls : ∀ c call, t.sys.pipes.calls c = some call → CallOf pipe (t.callEnd c) call

section Pair

variable {fds : Int × Int} {pipe : PairEnd → Fin maxPipes} {t t' : PairTrace} {c : Fin maxProcs}

theorem PairEnd.other_other (e : PairEnd) : e.other.other = e := by cases e <;> rfl

theorem PairEnd.other_ne (e : PairEnd) : e.other ≠ e := by cases e <;> exact nofun

theorem PairEnd.eq_or (e d : PairEnd) : d = e ∨ d = e.other := by cases e <;> cases d <;> simp [other]

/-- A call that works on the pipe that `e` reads from. -/
theorem PairOk.turn (h : PairOk fds pipe t) (hne : pipe .first ≠ pipe .second) (e : PairEnd)
    (hsockets : t'.sys.sockets = t.sys.sockets)
    (honly : t.sys.pipes.table.OnlyPipe (pipe e) t'.sys.pipes.table)
    (hstream : (t'.sys.pipes.table.pipes (pipe e)).Stream (t'.accepted e.other) (t'.received e))
    (hother : t'.accepted e = t.accepted e ∧ t'.received e.other = t.received e.other)
    (hcalls : LeavesIn t.sys.pipes t'.sys.pipes c (CallOf pipe (t'.callEnd c)))
    (hends : ∀ i, i ≠ c → t'.callEnd i = t.callEnd i) : PairOk fds pipe t' := by
  have hpipes : pipe e.other ≠ pipe e := by
    cases e with
    | first => exact hne.symm
    | second => exact hne
  refine ⟨fun d => (h.ends d).congr hsockets honly.pipeFds, fun d => ?_, fun i call hi => ?_⟩
  · rcases e.eq_or d with rfl | rfl
    · exact hstream
    · rw [honly.pipes _ hpipes, e.other_other, hother.1, hother.2]
      have hstill := h.stream e.other
      rwa [e.other_other] at hstill
  · obtain ⟨left, hleft, hof⟩ := hcalls
    rw [hleft] at hi
    by_cases hic : i = c
    · rw [hic, Function.update_self] at hi
      rw [hic]
      exact hof call hi
    · rw [Function.update_of_ne hic] at hi
      rw [hends i hic]
      exact h.calls i call hi

/-- A call to send, new or resumed: it works on the pipe that the other end reads from. -/
theorem PairOk.accept (h : PairOk fds pipe t) (hne : pipe .first ≠ pipe .second) (e : PairEnd)
    {s : PipeSys} {bytes : List UInt8}
    (honly : t.sys.pipes.table.OnlyPipe (pipe e.other) s.table)
    (hstream : (s.table.pipes (pipe e.other)).Stream (t.accepted e ++ bytes) (t.received e.other))
    (hcalls : LeavesIn t.sys.pipes s c fun call => ∃ rest n, call = .write (pipe e.other) rest n) :
    PairOk fds pipe ((t.calling c e).accept ⟨t.sys.sockets, s⟩ e bytes) := by
  refine h.turn hne e.other rfl honly ?_ ⟨?_, rfl⟩ ?_ fun i hi => Function.update_of_ne hi ..
  · rw [e.other_other]
    simp only [PairTrace.accept, PairTrace.calling, Function.update_self]
    exact hstream
  · exact Function.update_of_ne e.other_ne ..
  · obtain ⟨call, hleft, hcall⟩ := hcalls
    refine ⟨call, hleft, fun x hx => ?_⟩
    obtain ⟨rest, n, rfl⟩ := hcall x hx
    have hend : ((t.calling c e).accept ⟨t.sys.sockets, s⟩ e bytes).callEnd c = e :=
      Function.update_self ..
    rw [hend]
    rfl

theorem PairOk.receive (h : PairOk fds pipe t) (hne : pipe .first ≠ pipe .second) (e : PairEnd)
    {s : PipeSys} {bytes : List UInt8}
    (honly : t.sys.pipes.table.OnlyPipe (pipe e) s.table)
    (hstream : (s.table.pipes (pipe e)).Stream (t.accepted e.other) (t.received e ++ bytes))
    (hcalls : LeavesIn t.sys.pipes s c fun call => ∃ n, call = .read (pipe e) n) :
    PairOk fds pipe ((t.calling c e).receive ⟨t.sys.sockets, s⟩ e bytes) := by
  refine h.turn hne e rfl honly ?_ ⟨rfl, ?_⟩ ?_ fun i hi => Function.update_of_ne hi ..
  · simp only [PairTrace.receive, PairTrace.calling, Function.update_self]
    exact hstream
  · exact Function.update_of_ne e.other_ne ..
  · obtain ⟨call, hleft, hcall⟩ := hcalls
    refine ⟨call, hleft, fun x hx => ?_⟩
    obtain ⟨n, rfl⟩ := hcall x hx
    have hend : ((t.calling c e).receive ⟨t.sys.sockets, s⟩ e bytes).callEnd c = e :=
      Function.update_self ..
    rw [hend]
    rfl

theorem PairTrace.calling_self (t : PairTrace) (c : Fin maxProcs) : t.calling c (t.callEnd c) = t := by
  rw [PairTrace.calling, Function.update_eq_self]

/-- A call that goes on works on the pipe that it blocked at. -/
theorem PairOk.resume (h : PairOk fds pipe t) (hne : pipe .first ≠ pipe .second)
    (hcurrent : t.sys.pipes.sched.current = some c) : PairOk fds pipe (t.step fds .resume) := by
  unfold PairTrace.step
  rw [hcurrent]
  dsimp only
  cases hcall : t.sys.pipes.calls c with
  | none => exact h
  | some call =>
    have hof := h.calls c call hcall
    cases call with
    | read pi count =>
      obtain rfl : pi = pipe (t.callEnd c) := hof
      have hstream := h.stream (t.callEnd c)
      have hclear (p : Pipe) : t.sys.pipes.table.OnlyPipe (pipe (t.callEnd c))
          (t.sys.pipes.setPipe (pipe (t.callEnd c)) p).table := PipeTable.onlyPipe_setPipe _ _ _
      have hreceive := h.receive hne (t.callEnd c)
        ((hclear _).trans (readFrom_only (t.sys.pipes.setPipe (pipe (t.callEnd c))
          { t.sys.pipes.table.pipes (pipe (t.callEnd c)) with readWaiter := 0 }) c _ count))
        (readFrom_stream (by
          rw [setPipe_pipe]
          exact ⟨hstream.avail_le, hstream.read_lt, hstream.write_eq, hstream.flow⟩) c count)
        (readFrom_leavesIn _ c _ count)
      rw [t.calling_self c] at hreceive
      exact hreceive
    | write pi rest written =>
      obtain rfl : pi = pipe (t.callEnd c).other := hof
      have hstream := h.stream (t.callEnd c).other
      rw [PairEnd.other_other] at hstream
      have hclear (p : Pipe) : t.sys.pipes.table.OnlyPipe (pipe (t.callEnd c).other)
          (t.sys.pipes.setPipe (pipe (t.callEnd c).other) p).table := PipeTable.onlyPipe_setPipe _ _ _
      have haccept := h.accept hne (t.callEnd c)
        ((hclear _).trans (writeFrom_only c _ rest written (t.sys.pipes.setPipe (pipe (t.callEnd c).other)
          { t.sys.pipes.table.pipes (pipe (t.callEnd c).other) with writeWaiter := 0 })))
        (writeFrom_stream c rest written (by
          rw [setPipe_pipe]
          exact ⟨hstream.avail_le, hstream.read_lt, hstream.write_eq, hstream.flow⟩))
        (writeFrom_leavesIn c _ rest written _)
      rw [t.calling_self c] at haccept
      exact haccept

theorem PairOk.step (h : PairOk fds pipe t) (hne : pipe .first ≠ pipe .second) (event : PairEvent) :
    PairOk fds pipe (t.step fds event) := by
  cases hcurrent : t.sys.pipes.sched.current with
  | none =>
    cases event with
    | sched sched => exact ⟨h.ends, h.stream, h.calls⟩
    | send e bytes =>
      unfold PairTrace.step
      rwa [hcurrent]
    | recv e len =>
      unfold PairTrace.step
      rwa [hcurrent]
    | resume =>
      unfold PairTrace.step
      rwa [hcurrent]
  | some c =>
    cases event with
    | sched sched => exact ⟨h.ends, h.stream, h.calls⟩
    | resume => exact h.resume hne hcurrent
    | send e bytes =>
      unfold PairTrace.step
      rw [hcurrent]
      dsimp only
      rw [(h.ends e).send c bytes]
      have hstream := h.stream e.other
      rw [PairEnd.other_other] at hstream
      split
      · refine h.accept hne e (.refl _ _) ?_ (finish_leavesIn _ c _ _ _)
        show (t.sys.pipes.table.pipes (pipe e.other)).Stream (t.accepted e ++ []) _
        rwa [List.append_nil]
      · exact h.accept hne e (writeFrom_only c _ bytes 0 _) (writeFrom_stream c bytes 0 hstream)
          (writeFrom_leavesIn c _ bytes 0 _)
    | recv e len =>
      unfold PairTrace.step
      rw [hcurrent]
      dsimp only
      rw [(h.ends e).recv c len]
      exact h.receive hne e (readFrom_only _ c _ len) (readFrom_stream (h.stream e) c len)
        (readFrom_leavesIn _ c _ len)

end Pair

theorem isSocketFd_socketFdOf {sockets : Sockets} {i : Fin Socket.maxOpen} (h : (sockets i).used = true) :
    sockets.isSocketFd (socketFdOf i) = some i := by
  have hi := i.isLt
  have hrange : Socket.fdBase ≤ socketFdOf i ∧ socketFdOf i < Socket.fdBase + Socket.maxOpen := by
    unfold socketFdOf
    omega
  have hidx : (⟨(socketFdOf i - Socket.fdBase).toNat, by omega⟩ : Fin Socket.maxOpen) = i := by
    rw [Fin.ext_iff]
    dsimp only
    rw [socketFdOf, Int.add_sub_cancel, Int.toNat_natCast]
  rw [Sockets.isSocketFd, dif_pos hrange]
  dsimp only
  rw [hidx, if_pos h]

theorem openPipe_stream : openPipe.Stream [] [] := by
  refine ⟨Nat.zero_le _, ?_, rfl, rfl⟩
  decide

/-- A pair as it was made. -/
theorem Wired.pairOk {t t' : SockTables} {type : Int} {p q : Fin maxPipes}
    {rp wp rq wq : Fin maxPipeFds} (h : Wired t t' a b type p q rp wp rq wq) (sched : Sched) :
    PairOk (socketFdOf a, socketFdOf b)
      (fun e => match e with | .first => p | .second => q) (PairTrace.start t' sched) := by
  have hfirst : (PairTrace.start t' sched).sys.sockets a = _ := h.first
  have hsecond : (PairTrace.start t' sched).sys.sockets b = _ := h.second
  refine ⟨fun e => ?_, fun e => ?_, nofun⟩
  · cases e with
    | first =>
      exact ⟨a, rp, wq, isSocketFd_socketFdOf (by rw [hfirst]), by rw [hfirst],
        by rw [hfirst], by rw [hfirst], h.ends.1, h.ends.2.2.2⟩
    | second =>
      exact ⟨b, rq, wp, isSocketFd_socketFdOf (by rw [hsecond]), by rw [hsecond],
        by rw [hsecond], by rw [hsecond], h.ends.2.2.1, h.ends.2.1⟩
  · cases e with
    | first =>
      show (t'.pipes.pipes p).Stream [] []
      rw [h.pipes.1]
      exact openPipe_stream
    | second =>
      show (t'.pipes.pipes q).Stream [] []
      rw [h.pipes.2]
      exact openPipe_stream

/-- Two sockets that were not in use, and now are; the others are as they were. -/
def FreshPair (t t' : SockTables) (fds : Int × Int) : Prop :=
  ∃ a b, fds = (socketFdOf a, socketFdOf b) ∧ a ≠ b ∧
    (t.sockets a).used = false ∧ (t.sockets b).used = false ∧
    (t'.sockets a).used = true ∧ (t'.sockets b).used = true ∧
    ∀ i, i ≠ a → i ≠ b → t'.sockets i = t.sockets i

/-- **Socket pairs.** Whatever is in use, `socket_socketpair` either makes two fresh sockets, of
which each receives, in order, what the other one has accepted, in any order of calls and whatever
they block on, or it fails and leaves in use what was. -/
theorem socketpair_law (t : SockTables) (domain type : Int) (sv : Bool) :
    match socketSocketpair t domain type sv with
    | (t', .error _) => t.SameUse t'
    | (t', .ok fds) => FreshPair t t' fds ∧ ∀ sched events (e : PairEnd),
        let trace := Run.run (PairTrace.step fds) (PairTrace.start t' sched) events
        trace.received e <+: trace.accepted e.other := by
  have hcases := socketSocketpair_cases t domain type sv
  generalize socketSocketpair t domain type sv = result at hcases
  obtain ⟨t', outcome⟩ := result
  rcases hcases with ⟨e, rfl, hsame⟩ | ⟨a, b, p, q, rp, wp, rq, wq, rfl, hwired⟩
  · exact hsame
  · refine ⟨⟨a, b, rfl, hwired.ne, hwired.fresh.1, hwired.fresh.2, ?_, ?_, hwired.others⟩,
      fun sched events e => ?_⟩
    · rw [hwired.first]
    · rw [hwired.second]
    · have hok := hwired.pairOk sched
      have hrun := Run.inv_run_all (fun (trace : PairTrace) event (htrace : PairOk _ _ trace) =>
        htrace.step hwired.pipe event) events _ hok
      exact ⟨_, (hrun.stream e).flow.symm⟩

end Lestra
