import Lestra.Exec.Files
import Lestra.Exec.Futex
import Lestra.Lib.Bitmap
import Lestra.Lib.Count
import Lestra.Syscall.Uaccess

/-!
# poll and select

`sys_poll` and `sys_select`. Both look at every descriptor once, sleep when they
found nothing, and look again: what they find the second time need not be what
they found the first time. The buffers of one call do not overlap.

`select` handles the first 128 positions of a set, whatever `nfds` is.

* `poll_ready_eq` — poll counts the entries it returns with an event.
* `select_ready_eq` — select counts the bits it returns, and returns no other
  bits than it was given.
-/

namespace Lestra

/-- `POLLIN`, `POLLOUT`, `POLLERR`. -/
def pollIn : BitVec 16 := 0x0001#16

def pollOut : BitVec 16 := 0x0004#16

def pollErr : BitVec 16 := 0x0008#16

/-- `LESTRA_POLL_MAX` -/
def pollMax : Nat := 1024

/-- `FD_SETSIZE_L` -/
def fdSetSize : Nat := 128

/-- `SOCKET_FD_BASE` and `SOCKET_MAX_OPEN`. -/
def socketFdBase : Int := 600

def socketMaxOpen : Int := 32

/-- What one pass looks at: the sockets in use, the table of the current process, the keyboard. -/
structure PollScene where
  socketUsed : Nat → Bool
  current : Option FdTable
  hasKey : Bool

def socketIsSocketFd (s : PollScene) (fd : Int) : Bool :=
  socketFdBase ≤ fd ∧ fd < socketFdBase + socketMaxOpen ∧ s.socketUsed (fd - socketFdBase).toNat

/-- `&cur->fds[fd]`, where there is a process and the descriptor is one of its table. -/
def PollScene.entry (s : PollScene) (fd : Int) : Option FdEntry :=
  s.current.bind fun fds =>
    if h : 0 ≤ fd ∧ fd.toNat < maxFdPerProc then some (fds ⟨fd.toNat, h.2⟩) else none

-- ---------------------------------------------------------------------------
-- poll
-- ---------------------------------------------------------------------------

/-- `struct pollfd` -/
structure PollFd where
  fd : Int
  events : BitVec 16
  revents : BitVec 16
deriving DecidableEq

def PollFd.raise (p : PollFd) (event : BitVec 16) : PollFd :=
  { p with revents := p.revents ||| event }

def PollFd.wants (p : PollFd) (event : BitVec 16) : Bool := p.events &&& event ≠ 0#16

/-- Both directions are ready. -/
def PollFd.raiseBoth (p : PollFd) : PollFd :=
  let p := if p.wants pollIn then p.raise pollIn else p
  if p.wants pollOut then p.raise pollOut else p

/-- `if (kfds[i].revents) ready++` -/
def PollFd.counted (p : PollFd) : PollFd × Nat := (p, if p.revents ≠ 0#16 then 1 else 0)

/-- The first pass at one entry: the entry and what it adds to `ready`. -/
def pollFirst (s : PollScene) (p : PollFd) : PollFd × Nat :=
  let p := { p with revents := 0#16 }
  if p.fd < 0 then (p, 0)
  else if socketIsSocketFd s p.fd then p.raiseBoth.counted
  else match s.entry p.fd with
    | none => (p, 0)
    | some entry => match entry.type with
      | .unused => (p.raise pollErr, 1)
      | .special =>
        let p := if p.fd = 0 ∧ p.wants pollIn ∧ s.hasKey then p.raise pollIn else p
        let p := if (p.fd = 1 ∨ p.fd = 2) ∧ p.wants pollOut then p.raise pollOut else p
        p.counted
      | _ => p.raiseBoth.counted

/-- The pass after the sleep at one entry. -/
def pollAgain (s : PollScene) (p : PollFd) : PollFd × Nat :=
  if p.fd < 0 then (p, 0)
  else if socketIsSocketFd s p.fd then p.raiseBoth.counted
  else match s.entry p.fd with
    | none => (p, 0)
    | some entry => match entry.type with
      | .unused => if p.revents &&& pollErr = 0#16 then (p.raise pollErr, 1) else (p, 0)
      | .special =>
        if p.fd = 0 ∧ p.wants pollIn ∧ s.hasKey ∧ p.revents &&& pollIn = 0#16 then
          (p.raise pollIn, 1)
        else (p, 0)
      | _ => (p, 0)

/-- One pass over the array. -/
def pollPass (look : PollFd → PollFd × Nat) : List PollFd → List PollFd × Nat
  | [] => ([], 0)
  | p :: kfds =>
    let (p', n) := look p
    let (kfds', ready) := pollPass look kfds
    (p' :: kfds', n + ready)

/-- The arguments of `poll`, and the entries that lie at `fds`. -/
structure PollCall where
  fds : BitVec 64
  nfds : BitVec 64
  timeoutMs : Int
  pfds : Nat → PollFd

/-- The address of `pfds[i].revents`. -/
def PollCall.reventsAddr (c : PollCall) (i : Nat) : BitVec 64 :=
  c.fds + BitVec.ofNat 64 (i * 8 + 6)

/-- `sys_poll`: `ready` and the entries as the caller finds them. The scene changes while
the call sleeps; `kmallocOk` tells whether there is room for the copy. -/
def sysPoll (before after : PollScene) (kmallocOk : Bool) (c : PollCall) :
    Except Int (Nat × List PollFd) :=
  if c.nfds.toNat > pollMax then .error errInvalid
  else if c.fds = 0#64 ∧ c.nfds ≠ 0#64 then .error errBadAddress
  else if c.nfds ≠ 0#64 ∧ ¬ accessOk c.fds (c.nfds * 8#64) then .error errBadAddress
  else if c.nfds ≠ 0#64 ∧ ¬ kmallocOk then .error errNoMemory
  else if c.nfds ≠ 0#64 ∧ ¬ copyUserOk c.fds then .error errBadAddress
  else
    let first := pollPass (pollFirst before) ((List.range c.nfds.toNat).map c.pfds)
    let (kfds, ready) :=
      if first.2 = 0 ∧ c.timeoutMs > 0 then
        let again := pollPass (pollAgain after) first.1
        (again.1, first.2 + again.2)
      else first
    if (List.range c.nfds.toNat).all fun i => wordUserOk (c.reventsAddr i) 2#64 then
      .ok (ready, kfds)
    else .error errBadAddress

/-- The entry is counted once if it has an event, and not at all if it has none. -/
def Counts (r : PollFd × Nat) : Prop := r.2 = if r.1.revents ≠ 0#16 then 1 else 0

theorem PollFd.counted_counts (p : PollFd) : Counts p.counted := rfl

/-- The first event of an entry is worth one. -/
theorem PollFd.raise_counts {p : PollFd} {event : BitVec 16} (hp : p.revents = 0#16)
    (hevent : event ≠ 0#16) : Counts (p.raise event, 1) := by
  rw [Counts, if_pos]
  rw [PollFd.raise, hp, BitVec.zero_or]
  exact hevent

theorem pollFirst_counts (s : PollScene) (p : PollFd) : Counts (pollFirst s p) := by
  unfold pollFirst
  dsimp only
  split
  · rfl
  · split
    · exact PollFd.counted_counts _
    · split
      · rfl
      · rename_i entry hentry
        cases htype : entry.type with
        | unused => exact PollFd.raise_counts rfl (by decide)
        | special => exact PollFd.counted_counts _
        | vfs => exact PollFd.counted_counts _
        | pipe => exact PollFd.counted_counts _

/-- The second pass counts the entries that had no event before. -/
theorem pollAgain_counts (s : PollScene) {p : PollFd} (hp : p.revents = 0#16) :
    Counts (pollAgain s p) := by
  have hkeep : Counts (p, 0) := by rw [Counts, if_neg (not_not_intro hp)]
  unfold pollAgain
  split
  · exact hkeep
  · split
    · exact PollFd.counted_counts _
    · split
      · exact hkeep
      · rename_i entry hentry
        cases htype : entry.type with
        | unused =>
          rw [show p.revents &&& pollErr = 0#16 by rw [hp, BitVec.zero_and]]
          exact PollFd.raise_counts hp (by decide)
        | special =>
          dsimp only
          split
          · exact PollFd.raise_counts hp (by decide)
          · exact hkeep
        | vfs => exact hkeep
        | pipe => exact hkeep

theorem pollPass_counts {look : PollFd → PollFd × Nat} {kfds : List PollFd}
    (hlook : ∀ p ∈ kfds, Counts (look p)) :
    (pollPass look kfds).2 = (pollPass look kfds).1.countP fun p => p.revents ≠ 0#16 := by
  induction kfds with
  | nil => rfl
  | cons p kfds ih =>
    have hp : (look p).2 = if (look p).1.revents ≠ 0#16 then 1 else 0 :=
      hlook p (List.mem_cons_self ..)
    have hrest := ih fun q hq => hlook q (List.mem_cons_of_mem _ hq)
    simp only [pollPass]
    rw [List.countP_cons, hrest, hp, Nat.add_comm]
    simp only [decide_eq_true_eq]

/--
**What poll returns.** The result of `sys_poll` is the number of the entries that
come back with an event, whatever happened while it slept.
-/
theorem poll_ready_eq (before after : PollScene) (kmallocOk : Bool) (c : PollCall) {ready : Nat}
    {pfds : List PollFd} (hpoll : sysPoll before after kmallocOk c = .ok (ready, pfds)) :
    ready = pfds.countP fun p => p.revents ≠ 0#16 := by
  have hfirst := pollPass_counts fun p (_ : p ∈ (List.range c.nfds.toNat).map c.pfds) =>
    pollFirst_counts before p
  simp only [sysPoll] at hpoll
  split_ifs at hpoll with _ _ _ _ _ _ hnone
  · obtain ⟨rfl, rfl⟩ := Prod.mk.inj (Except.ok.inj hpoll)
    -- no entry has an event when the first pass counted none
    rw [hnone.1, Nat.zero_add]
    refine pollPass_counts fun p hp => pollAgain_counts after ?_
    rw [hnone.1, eq_comm, List.countP_eq_zero] at hfirst
    simpa using hfirst p hp
  · obtain ⟨rfl, rfl⟩ := Prod.mk.inj (Except.ok.inj hpoll)
    exact hfirst

-- ---------------------------------------------------------------------------
-- select
-- ---------------------------------------------------------------------------

inductive SelectSet where
  | readfds
  | writefds
  | exceptfds
deriving DecidableEq

/-- The bytes of an `fd_set`. -/
abbrev FdSet := Nat → BitVec 8

/-- `krset`, `kwset`, `keset` and `ready`. -/
structure SelectState where
  sets : SelectSet → FdSet
  ready : Nat

/-- `if (c) { kset[fd_byte] |= (1 << fd_bit); ready++; }` -/
def SelectState.addIf (st : SelectState) (c : Bool) (k : SelectSet) (fd : Nat) : SelectState :=
  if c then ⟨Function.update st.sets k (Bitmap.set (st.sets k) fd), st.ready + 1⟩ else st

/-- The pointers, zero for none, with the bytes that lie behind them; `nfds` and the timeout. -/
structure SelectCall where
  nfds : Int
  ptr : SelectSet → BitVec 64
  user : SelectSet → FdSet
  timeout : BitVec 64
  tvSec : BitVec 64
  tvUsec : BitVec 64

/-- The first pass at one descriptor. -/
def selectFirst (s : PollScene) (c : SelectCall) (st : SelectState) (fd : Nat) : SelectState :=
  let watching := fun k => c.ptr k ≠ 0#64 && Bitmap.test (st.sets k) fd
  if !watching .readfds && !watching .writefds && !watching .exceptfds then st
  else
    let st := { st with sets := fun k => Bitmap.clear (st.sets k) fd }
    if socketIsSocketFd s fd then
      (st.addIf (watching .readfds) .readfds fd).addIf (watching .writefds) .writefds fd
    else match s.entry fd with
      | none => st
      | some entry => match entry.type with
        | .unused => st.addIf (watching .exceptfds) .exceptfds fd
        | .special =>
          (st.addIf (fd == 0 && watching .readfds && s.hasKey) .readfds fd).addIf
            ((fd == 1 || fd == 2) && watching .writefds) .writefds fd
        | _ => (st.addIf (watching .readfds) .readfds fd).addIf (watching .writefds) .writefds fd

/-- Which descriptors the second pass finds readable. -/
def readableAgain (s : PollScene) (fd : Nat) : Bool :=
  if socketIsSocketFd s fd then true
  else match s.entry fd with
    | none => false
    | some e =>
      if e.type = .special ∧ fd = 0 then s.hasKey
      else if e.type ≠ .unused ∧ e.type ≠ .special then true
      else if e.type = .special ∧ (fd = 1 ∨ fd = 2) then false
      else e.type ≠ .unused

def writableAgain (s : PollScene) (fd : Nat) : Bool :=
  if socketIsSocketFd s fd then true
  else match s.entry fd with
    | none => false
    | some e => if e.type = .special ∧ (fd = 1 ∨ fd = 2) then true else e.type ≠ .unused

def exceptionalAgain (s : PollScene) (fd : Nat) : Bool :=
  match s.entry fd with
  | none => false
  | some e => e.type = .unused

/-- The pass after the sleep at one descriptor; `orig` are the sets as they were asked for. -/
def selectAgain (s : PollScene) (orig : SelectSet → FdSet) (st : SelectState) (fd : Nat) :
    SelectState :=
  let watching := fun k => Bitmap.test (orig k) fd
  if !watching .readfds && !watching .writefds && !watching .exceptfds then st
  else
    let missing := fun k => watching k && !Bitmap.test (st.sets k) fd
    ((st.addIf (missing .readfds && readableAgain s fd) .readfds fd).addIf
      (missing .writefds && writableAgain s fd) .writefds fd).addIf
      (missing .exceptfds && exceptionalAgain s fd) .exceptfds fd

/-- `timeout_ms` -/
def SelectCall.timeoutMs (c : SelectCall) : Int :=
  min (max (c.tvSec * 1000#64 + c.tvUsec.sdiv 1000#64).toInt 0) 0x7FFFFFFF

/-- The first `setBytes` bytes are copied in, the others are zero. -/
def copySetIn (user : FdSet) (setBytes : Nat) : FdSet := fun i =>
  if i < setBytes then user i else 0#8

/-- The first `setBytes` bytes are copied out, the others stay. -/
def copySetOut (user kset : FdSet) (setBytes : Nat) : FdSet := fun i =>
  if i < setBytes then kset i else user i

/-- Whether a set that was given can be copied in and out. -/
def SelectCall.setOk (c : SelectCall) (setBytes : Nat) (k : SelectSet) : Bool :=
  c.ptr k = 0#64 || (accessOk (c.ptr k) (BitVec.ofNat 64 setBytes) && copyUserOk (c.ptr k))

/-- The sets of the call. -/
def SelectCall.asked (c : SelectCall) (k : SelectSet) : Option FdSet :=
  if c.ptr k = 0#64 then none else some (c.user k)

/-- The sets as they are copied in. -/
def SelectCall.copyIn (c : SelectCall) (setBytes : Nat) (k : SelectSet) : FdSet :=
  if c.ptr k = 0#64 then fun _ => 0#8 else copySetIn (c.user k) setBytes

/-- The sets as the caller finds them, none for a null pointer. -/
def SelectCall.copyOut (c : SelectCall) (setBytes : Nat) (st : SelectState) (k : SelectSet) :
    Option FdSet :=
  if c.ptr k = 0#64 then none else some (copySetOut (c.user k) (st.sets k) setBytes)

/-- `sys_select`: `ready` and the sets that come back. -/
def sysSelect (before after : PollScene) (c : SelectCall) :
    Except Int (Nat × (SelectSet → Option FdSet)) :=
  if c.nfds < 0 then .error errInvalid
  else if c.nfds > pollMax then .error errInvalid
  else
    let nfds := min c.nfds.toNat fdSetSize
    let setBytes := (nfds + 7) / 8
    if !(c.setOk setBytes .readfds && c.setOk setBytes .writefds && c.setOk setBytes .exceptfds) then
      .error errBadAddress
    else
      let orig := c.copyIn setBytes
      let st := (List.range nfds).foldl (selectFirst before c) ⟨orig, 0⟩
      if st.ready = 0 ∧ c.timeout ≠ 0#64 then
        if !(accessOk c.timeout 16#64 && copyUserOk c.timeout) then .error errBadAddress
        else if c.timeoutMs > 0 then
          let st := (List.range nfds).foldl (selectAgain after orig) st
          .ok (st.ready, c.copyOut setBytes st)
        else .ok (st.ready, c.copyOut setBytes st)
      else .ok (st.ready, c.copyOut setBytes st)

-- ---------------------------------------------------------------------------
-- The bits of a call
-- ---------------------------------------------------------------------------

/-- The sum over the three sets. -/
def SelectSet.total (f : SelectSet → Nat) : Nat := f .readfds + f .writefds + f .exceptfds

def inSet (set : Option FdSet) (p : Nat) : Bool := set.any fun bytes => Bitmap.test bytes p

/-- The bits of the sets of a call at positions below `n`. -/
def selectBits (sets : SelectSet → Option FdSet) (n : Nat) : Nat :=
  SelectSet.total fun k => Nat.count (fun p => inSet (sets k) p) n

/-- The bits of the three sets at positions below `n`. -/
def SelectState.bits (st : SelectState) (n : Nat) : Nat :=
  SelectSet.total fun k => Nat.count (fun p => Bitmap.test (st.sets k) p) n

section

variable {s : PollScene} {c : SelectCall} {orig : SelectSet → FdSet} {st st' : SelectState}
  {k k' : SelectSet} {fd n p : Nat}

theorem SelectSet.total_add (f g : SelectSet → Nat) :
    SelectSet.total (fun k => f k + g k) = SelectSet.total f + SelectSet.total g := by
  simp only [SelectSet.total]
  omega

@[simp] theorem SelectState.addIf_ready (b : Bool) :
    (st.addIf b k fd).ready = st.ready + b.toNat := by
  cases b <;> rfl

theorem SelectState.test_addIf (b : Bool) :
    Bitmap.test ((st.addIf b k fd).sets k') p =
      (Bitmap.test (st.sets k') p || (b && decide (k' = k) && decide (p = fd))) := by
  cases b with
  | false => simp [SelectState.addIf]
  | true =>
    rw [SelectState.addIf, if_pos rfl]
    by_cases hk : k' = k
    · subst hk
      simp [Bitmap.test_set]
    · simp [hk]

/-- What the first pass does at `fd`: it leaves some of the bits there, and counts them. -/
structure Rescored (fd : Nat) (st st' : SelectState) : Prop where
  others : ∀ k p, p ≠ fd → Bitmap.test (st'.sets k) p = Bitmap.test (st.sets k) p
  sub : ∀ k, Bitmap.test (st'.sets k) fd = true → Bitmap.test (st.sets k) fd = true
  ready : st'.ready = st.ready + SelectSet.total fun k => (Bitmap.test (st'.sets k) fd).toNat

/-- What the second pass does at `fd`: it adds bits that were asked for, and counts them. -/
structure Gained (orig : SelectSet → FdSet) (fd : Nat) (st st' : SelectState) : Prop where
  others : ∀ k p, p ≠ fd → Bitmap.test (st'.sets k) p = Bitmap.test (st.sets k) p
  sub : ∀ k, Bitmap.test (st'.sets k) fd = true →
    Bitmap.test (st.sets k) fd = true ∨ Bitmap.test (orig k) fd = true
  ready : st'.ready + (SelectSet.total fun k => (Bitmap.test (st.sets k) fd).toNat) =
    st.ready + SelectSet.total fun k => (Bitmap.test (st'.sets k) fd).toNat

/-- The bits of `fd` are cleared, and some of them are put back. -/
theorem Rescored.of_adds (on : SelectSet → Bool)
    (hon : ∀ k, on k = true → Bitmap.test (st.sets k) fd = true) :
    Rescored fd st ((({ st with sets := fun k => Bitmap.clear (st.sets k) fd }.addIf
      (on .readfds) .readfds fd).addIf (on .writefds) .writefds fd).addIf
      (on .exceptfds) .exceptfds fd) := by
  have htest : ∀ k p, Bitmap.test (((({ st with sets := fun k => Bitmap.clear (st.sets k) fd }.addIf
      (on .readfds) .readfds fd).addIf (on .writefds) .writefds fd).addIf
      (on .exceptfds) .exceptfds fd).sets k) p =
        if p = fd then on k else Bitmap.test (st.sets k) p := by
    intro k p
    simp only [SelectState.test_addIf, Bitmap.test_clear]
    by_cases hp : p = fd
    · cases k <;> simp [hp]
    · simp [hp]
  refine ⟨fun k p hp => ?_, fun k hbit => ?_, ?_⟩
  · rw [htest, if_neg hp]
  · rw [htest, if_pos rfl] at hbit
    exact hon k hbit
  · simp only [htest, if_true, SelectState.addIf_ready, SelectSet.total]
    omega

theorem selectFirst_rescored (hnull : ∀ k, c.ptr k = 0#64 → Bitmap.test (st.sets k) fd = false) :
    Rescored fd st (selectFirst s c st fd) := by
  have hwatch : ∀ k, (c.ptr k ≠ 0#64 && Bitmap.test (st.sets k) fd) =
      Bitmap.test (st.sets k) fd := by
    intro k
    by_cases hk : c.ptr k = 0#64
    · rw [hnull k hk, Bool.and_false]
    · rw [decide_eq_true hk, Bool.true_and]
  simp only [selectFirst, hwatch]
  split
  · rename_i hnone
    have hoff : ∀ k, Bitmap.test (st.sets k) fd = false := by
      simp only [Bool.and_eq_true, Bool.not_eq_true'] at hnone
      intro k
      cases k with
      | readfds => exact hnone.1.1
      | writefds => exact hnone.1.2
      | exceptfds => exact hnone.2
    exact ⟨fun _ _ _ => rfl, fun _ h => h, by simp [hoff, SelectSet.total]⟩
  · split
    · exact Rescored.of_adds
        (fun | .exceptfds => false | k => Bitmap.test (st.sets k) fd) (by rintro (_ | _ | _) <;> simp)
    · split
      · exact Rescored.of_adds (fun _ => false) (by simp)
      · rename_i entry hentry
        cases htype : entry.type with
        | unused =>
          exact Rescored.of_adds (fun | .exceptfds => Bitmap.test (st.sets .exceptfds) fd | _ => false)
            (by rintro (_ | _ | _) <;> simp)
        | special =>
          exact Rescored.of_adds
            (fun
              | .readfds => fd == 0 && Bitmap.test (st.sets .readfds) fd && s.hasKey
              | .writefds => (fd == 1 || fd == 2) && Bitmap.test (st.sets .writefds) fd
              | .exceptfds => false)
            (by rintro (_ | _ | _) <;> simp +contextual)
        | vfs =>
          exact Rescored.of_adds (fun | .exceptfds => false | k => Bitmap.test (st.sets k) fd)
            (by rintro (_ | _ | _) <;> simp)
        | pipe =>
          exact Rescored.of_adds (fun | .exceptfds => false | k => Bitmap.test (st.sets k) fd)
            (by rintro (_ | _ | _) <;> simp)

/-- Bits that are missing are added. -/
theorem Gained.of_adds (on : SelectSet → Bool)
    (hon : ∀ k, on k = true → Bitmap.test (orig k) fd = true ∧ Bitmap.test (st.sets k) fd = false) :
    Gained orig fd st (((st.addIf (on .readfds) .readfds fd).addIf (on .writefds) .writefds fd).addIf
      (on .exceptfds) .exceptfds fd) := by
  have htest : ∀ k p, Bitmap.test ((((st.addIf (on .readfds) .readfds fd).addIf
      (on .writefds) .writefds fd).addIf (on .exceptfds) .exceptfds fd).sets k) p =
        (Bitmap.test (st.sets k) p || (on k && decide (p = fd))) := by
    intro k p
    simp only [SelectState.test_addIf]
    cases k <;> simp
  have hcount : ∀ k, (Bitmap.test (st.sets k) fd || (on k && decide True)).toNat =
      (Bitmap.test (st.sets k) fd).toNat + (on k).toNat := by
    intro k
    cases hk : on k with
    | false => simp
    | true => simp [(hon k hk).2]
  refine ⟨fun k p hp => ?_, fun k hbit => ?_, ?_⟩
  · rw [htest, decide_eq_false hp, Bool.and_false, Bool.or_false]
  · rw [htest, Bool.or_eq_true, Bool.and_eq_true] at hbit
    exact hbit.imp_right fun h => (hon k h.1).1
  · simp only [htest, hcount, SelectState.addIf_ready, SelectSet.total]
    omega

theorem selectAgain_gained : Gained orig fd st (selectAgain s orig st fd) := by
  unfold selectAgain
  dsimp only
  split
  · exact ⟨fun _ _ _ => rfl, fun _ h => Or.inl h, rfl⟩
  · exact Gained.of_adds
      (fun k => Bitmap.test (orig k) fd && !Bitmap.test (st.sets k) fd &&
        match k with
        | .readfds => readableAgain s fd
        | .writefds => writableAgain s fd
        | .exceptfds => exceptionalAgain s fd)
      (by simp +contextual)

-- ---------------------------------------------------------------------------
-- The passes
-- ---------------------------------------------------------------------------

/-- A pass that stands before `n`: the bits below it are some of those asked for, and
`ready` counts them; the bits from `n` on are as they were. -/
structure FirstPass (orig : SelectSet → FdSet) (n : Nat) (st : SelectState) : Prop where
  sub : ∀ k p, Bitmap.test (st.sets k) p = true → Bitmap.test (orig k) p = true
  rest : ∀ k p, n ≤ p → Bitmap.test (st.sets k) p = Bitmap.test (orig k) p
  ready : st.ready = st.bits n

theorem SelectState.bits_succ :
    st.bits (n + 1) = st.bits n + SelectSet.total fun k => (Bitmap.test (st.sets k) n).toNat := by
  rw [SelectState.bits, SelectState.bits, ← SelectSet.total_add]
  congr 1
  funext k
  rw [Nat.count_succ]
  cases Bitmap.test (st.sets k) n <;> rfl

theorem SelectState.bits_congr
    (h : ∀ k, ∀ p < n, Bitmap.test (st'.sets k) p = Bitmap.test (st.sets k) p) :
    st'.bits n = st.bits n := by
  unfold SelectState.bits
  congr 1
  funext k
  exact Count.count_congr fun p hp => by rw [h k p hp]

/-- One position below `n` changes. -/
theorem SelectState.bits_change (hfd : fd < n)
    (h : ∀ k p, p ≠ fd → Bitmap.test (st'.sets k) p = Bitmap.test (st.sets k) p) :
    st'.bits n + (SelectSet.total fun k => (Bitmap.test (st.sets k) fd).toNat) =
      st.bits n + SelectSet.total fun k => (Bitmap.test (st'.sets k) fd).toNat := by
  have hset : ∀ k, Nat.count (fun p => Bitmap.test (st'.sets k) p = true) n +
      (Bitmap.test (st.sets k) fd).toNat =
        Nat.count (fun p => Bitmap.test (st.sets k) p = true) n +
          (Bitmap.test (st'.sets k) fd).toNat := by
    intro k
    have hcount := Count.count_change (P := fun p => Bitmap.test (st.sets k) p = true)
      (Q := fun p => Bitmap.test (st'.sets k) p = true) hfd fun p hp => by rw [h k p hp]
    simpa only [Bool.toNat, Bool.cond_eq_ite] using hcount
  rw [SelectState.bits, SelectState.bits, ← SelectSet.total_add, ← SelectSet.total_add]
  congr 1
  exact funext hset

theorem selectFirst_pass (hnull : ∀ k, c.ptr k = 0#64 → ∀ p, Bitmap.test (orig k) p = false) :
    FirstPass orig n ((List.range n).foldl (selectFirst s c) ⟨orig, 0⟩) := by
  induction n with
  | zero => exact ⟨fun _ _ h => h, fun _ _ _ => rfl, rfl⟩
  | succ n ih =>
    rw [List.range_succ, List.foldl_append, List.foldl_cons, List.foldl_nil]
    generalize (List.range n).foldl (selectFirst s c) ⟨orig, 0⟩ = st at ih
    have hstep : Rescored n st (selectFirst s c st n) :=
      selectFirst_rescored fun k hk => by rw [ih.rest k n (Nat.le_refl n), hnull k hk]
    refine ⟨fun k p hbit => ?_, fun k p hp => ?_, ?_⟩
    · by_cases hp : p = n
      · subst hp
        exact ih.sub k p (hstep.sub k hbit)
      · rw [hstep.others k p hp] at hbit
        exact ih.sub k p hbit
    · rw [hstep.others k p (by omega), ih.rest k p (by omega)]
    · rw [hstep.ready, ih.ready, SelectState.bits_succ,
        SelectState.bits_congr fun k p hp => hstep.others k p (Nat.ne_of_lt hp)]

/-- The second pass keeps the account of the first, over all the positions. -/
theorem selectAgain_pass {m : Nat} (hfirst : FirstPass orig n st) (hm : m ≤ n) :
    FirstPass orig n ((List.range m).foldl (selectAgain s orig) st) := by
  induction m with
  | zero => exact hfirst
  | succ m ih =>
    rw [List.range_succ, List.foldl_append, List.foldl_cons, List.foldl_nil]
    replace ih := ih (by omega)
    generalize (List.range m).foldl (selectAgain s orig) st = st at ih
    have hstep : Gained orig m st (selectAgain s orig st m) := selectAgain_gained
    refine ⟨fun k p hbit => ?_, fun k p hp => ?_, ?_⟩
    · by_cases hp : p = m
      · subst hp
        exact (hstep.sub k hbit).elim (ih.sub k p) id
      · rw [hstep.others k p hp] at hbit
        exact ih.sub k p hbit
    · rw [hstep.others k p (by omega), ih.rest k p hp]
    · have hbits := SelectState.bits_change hm hstep.others
      have hready := hstep.ready
      have hbefore := ih.ready
      omega

-- ---------------------------------------------------------------------------
-- What select returns
-- ---------------------------------------------------------------------------

theorem test_copySetOut {user kset : FdSet} {setBytes : Nat} :
    Bitmap.test (copySetOut user kset setBytes) p =
      if p / 8 < setBytes then Bitmap.test kset p else Bitmap.test user p := by
  rw [Bitmap.test, copySetOut, apply_ite fun b : BitVec 8 => b.getLsbD (p % 8)]
  rfl

theorem test_copyIn {setBytes : Nat} : Bitmap.test (c.copyIn setBytes k) p =
    (inSet (c.asked k) p && decide (p / 8 < setBytes)) := by
  rw [SelectCall.copyIn, SelectCall.asked]
  by_cases hk : c.ptr k = 0#64
  · rw [if_pos hk, if_pos hk]
    simp [Bitmap.test, inSet]
  · rw [if_neg hk, if_neg hk, Bitmap.test, copySetIn]
    by_cases hp : p / 8 < setBytes <;> simp [hp, inSet, Bitmap.test]

/-- Behind the pass, a bit that was copied is that of the kernel's set, another that of the caller. -/
theorem inSet_copyOut {setBytes : Nat} (hpass : FirstPass (c.copyIn setBytes) n st) :
    inSet (c.copyOut setBytes st k) p =
      if p / 8 < setBytes then Bitmap.test (st.sets k) p else inSet (c.asked k) p := by
  rw [SelectCall.copyOut, SelectCall.asked]
  by_cases hk : c.ptr k = 0#64
  · have hoff : Bitmap.test (st.sets k) p = false := by
      rw [← Bool.not_eq_true]
      intro hbit
      have horig := hpass.sub k p hbit
      rw [test_copyIn, SelectCall.asked, if_pos hk] at horig
      exact absurd horig (by simp [inSet])
    rw [if_pos hk, if_pos hk, hoff]
    simp [inSet]
  · rw [if_neg hk, if_neg hk]
    exact test_copySetOut

/-- What comes back: `ready` is the number of the bits below `n`, every bit was asked for,
and the bits from `n` on are as they were. -/
structure Selected (c : SelectCall) (n ready : Nat) (sets : SelectSet → Option FdSet) : Prop where
  ready : ready = selectBits sets n
  sub : ∀ k p, inSet (sets k) p = true → inSet (c.asked k) p = true
  rest : ∀ k p, n ≤ p → inSet (sets k) p = inSet (c.asked k) p

theorem Selected.of_pass (hpass : FirstPass (c.copyIn ((n + 7) / 8)) n st) :
    Selected c n st.ready (c.copyOut ((n + 7) / 8) st) := by
  refine ⟨?_, fun k p hbit => ?_, fun k p hp => ?_⟩
  · rw [hpass.ready, SelectState.bits, selectBits]
    congr 1
    funext k
    refine Count.count_congr fun p hp => ?_
    rw [inSet_copyOut hpass, if_pos (by omega)]
  · rw [inSet_copyOut hpass] at hbit
    split at hbit
    · have horig := hpass.sub k p hbit
      rw [test_copyIn, Bool.and_eq_true] at horig
      exact horig.1
    · exact hbit
  · rw [inSet_copyOut hpass]
    split
    · rename_i hcopied
      rw [hpass.rest k p hp, test_copyIn, decide_eq_true hcopied, Bool.and_true]
    · rfl

/--
**What select returns.** The result of `sys_select` is the number of the bits that
come back at the positions it looks at, and it adds no bit to what it was given.
-/
theorem select_ready_eq (before after : PollScene) (c : SelectCall) {ready : Nat}
    {sets : SelectSet → Option FdSet} (hselect : sysSelect before after c = .ok (ready, sets)) :
    Selected c (min c.nfds.toNat fdSetSize) ready sets := by
  have hfirst : FirstPass (c.copyIn ((min c.nfds.toNat fdSetSize + 7) / 8))
      (min c.nfds.toNat fdSetSize) ((List.range (min c.nfds.toNat fdSetSize)).foldl
        (selectFirst before c) ⟨c.copyIn ((min c.nfds.toNat fdSetSize + 7) / 8), 0⟩) := by
    refine selectFirst_pass fun k hk p => ?_
    rw [test_copyIn, SelectCall.asked, if_pos hk]
    rfl
  simp only [sysSelect] at hselect
  split_ifs at hselect
  all_goals obtain ⟨rfl, rfl⟩ := Prod.mk.inj (Except.ok.inj hselect)
  · exact Selected.of_pass (selectAgain_pass hfirst (Nat.le_refl _))
  · exact Selected.of_pass hfirst
  · exact Selected.of_pass hfirst

end

/-- A fresh process, no sockets, no key. -/
def quietScene : PollScene := ⟨fun _ => false, some fdTableInit, false⟩

/-- A key is waiting. -/
def keyScene : PollScene := { quietScene with hasKey := true }

/-- `poll` of the keyboard with a timeout. -/
def pollStdin : PollCall := ⟨0x1000#64, 1#64, 10, fun _ => ⟨0, pollIn, 0#16⟩⟩

/-- `select` of the keyboard and of the two outputs, both of them for reading, too. -/
def selectStd : SelectCall where
  nfds := 3
  ptr
    | .readfds => 0x1000#64
    | .writefds => 0x2000#64
    | .exceptfds => 0#64
  user
    | .writefds => fun _ => 0x06#8
    | _ => fun _ => 0x07#8
  timeout := 0#64
  tvSec := 0#64
  tvUsec := 0#64

/-- `select` of descriptor 128. -/
def selectHigh : SelectCall where
  nfds := 129
  ptr
    | .readfds => 0x1000#64
    | _ => 0#64
  user := fun _ i => if i = 16 then 1#8 else 0#8
  timeout := 0#64
  tvSec := 0#64
  tvUsec := 0#64

end Lestra
