import Lestra.Lib.Run
import Lestra.Sys.SshActs

/-!
# The SSH server

The rest of `kernel/sys/ssh_server.c`: the table of users, the four sessions, `ssh_server_init`,
`ssh_server_start`, `ssh_server_stop` and `ssh_server_tick`. Between two calls the rest of the
kernel goes on as it likes. Where a session does not come to the end of its turn, nothing follows.

* `inv_sessions` — what a new session has, and every act keeps, every session has in every run
-/

namespace Lestra

open Halting

-- ---------------------------------------------------------------------------
-- The server
-- ---------------------------------------------------------------------------

/-- `ssh_init_users`. -/
def sshUserTable : List SshUser :=
  [⟨ascii "root", ascii "lestra"⟩, ⟨ascii "admin", ascii "admin"⟩]

/-- A session, and what has happened on its connection. -/
structure SshSlot where
  session : SshSession
  log : List SshEvent

structure SshServer (ω : Type) where
  sessions : Fin 4 → SshSlot
  listenIdx : Option ℕ
  running : Bool
  port : UInt16
  users : List SshUser
  hostKey : SshHostKey
  host : ω
  /-- A turn has not come to its end. -/
  hung : Bool

variable {ω : Type} (H : SshHost ω)

namespace SshServer

/-- As the kernel is loaded. -/
def boot (host : ω) : SshServer ω where
  sessions := fun _ => ⟨zeroSession, []⟩
  listenIdx := none
  running := false
  port := 22
  users := []
  hostKey := ⟨zero32, zero32, zero32, false⟩
  host := host
  hung := false

def setSlot (srv : SshServer ω) (i : Fin 4) (slot : SshSlot) : SshServer ω :=
  { srv with sessions := Function.update srv.sessions i slot }

end SshServer

def hostKeyGenerate (srv : SshServer ω) : SshServer ω :=
  if srv.hostKey.initialized then srv
  else
    let (priv, pubX, pubY) := (H.p256Keygen srv.host).1
    { srv with
      hostKey := ⟨priv, pubX, pubY, true⟩
      host := (H.p256Keygen srv.host).2 }

def sshServerInit (srv : SshServer ω) : SshServer ω :=
  hostKeyGenerate H { srv with
    sessions := fun _ => ⟨zeroSession, []⟩
    running := false
    listenIdx := none
    users := sshUserTable }

def sshServerStart (srv : SshServer ω) (port : UInt16) : SshServer ω :=
  if srv.running then srv
  else
    let (idx, host) := H.tcpListen port srv.host
    match idx with
    | none => { srv with port := port, listenIdx := none, host := host }
    | some idx => { srv with port := port, listenIdx := some idx, running := true, host := host }

def stopSession (srv : SshServer ω) (i : Fin 4) : SshServer ω :=
  if (srv.sessions i).session.inUse then
    { srv.setSlot i ⟨zeroSession, []⟩ with
      host := H.tcpCloseConn (srv.sessions i).session.connIdx srv.host }
  else srv

def sshServerStop (srv : SshServer ω) : SshServer ω :=
  if ¬ srv.running then srv
  else
    let srv := (List.finRange 4).foldl (stopSession H) srv
    match srv.listenIdx with
    | none => { srv with running := false }
    | some idx => { srv with running := false, listenIdx := none, host := H.tcpUnlisten idx srv.host }

def sshAllocSession (srv : SshServer ω) : Option (Fin 4) :=
  (List.finRange 4).find? fun i => ¬ (srv.sessions i).session.inUse

def newSession (conn : ℕ) (now : UInt64) : SshSession :=
  { zeroSession with
    inUse := true
    connIdx := conn
    lastActivity := now
    windowLocal := sshWindowSize
    maxPktLocal := sshMaxPktSize }

/-- The session of a new connection, on the state of the surroundings. -/
def openSession (conn : ℕ) (host : ω) : SshSlot × ω :=
  let (now, host) := H.timerGetMs host
  let w := (sshSendRaw H (ascii "SSH-2.0-LestraOS_1.0\r\n") ⟨newSession conn now, host, []⟩).2
  (⟨{ w.session with state := .versionSent }, w.log⟩, w.host)

def acceptConnection (srv : SshServer ω) (listenIdx : ℕ) : SshServer ω :=
  let (conn, host) := H.tcpAccept listenIdx srv.host
  match conn with
  | none => { srv with host := host }
  | some conn =>
    match sshAllocSession srv with
    | none => { srv with host := H.tcpCloseConn conn host }
    | some slot =>
      { srv.setSlot slot (openSession H conn host).1 with host := (openSession H conn host).2 }

/-- The turn of one session in the server. -/
def serviceSlot (srv : SshServer ω) (i : Fin 4) : SshServer ω :=
  if srv.hung then srv
  else
    let (result, w) := serviceSession H ⟨srv.users, srv.hostKey⟩
      ⟨(srv.sessions i).session, srv.host, (srv.sessions i).log⟩
    { srv.setSlot i ⟨w.session, w.log⟩ with host := w.host, hung := result.isNone }

def sshServerTick (srv : SshServer ω) : SshServer ω :=
  match srv.running, srv.listenIdx with
  | true, some listenIdx =>
    (List.finRange 4).foldl (serviceSlot H) (acceptConnection H srv listenIdx)
  | _, _ => srv

-- ---------------------------------------------------------------------------
-- Runs
-- ---------------------------------------------------------------------------

inductive SshOp (ω : Type) where
  | init
  | start (port : UInt16)
  | stop
  | tick
  /-- What happens between two calls. -/
  | outside (f : ω → ω)

def sshStep (srv : SshServer ω) (op : SshOp ω) : SshServer ω :=
  if srv.hung then srv
  else
    match op with
    | .init => sshServerInit H srv
    | .start port => sshServerStart H srv port
    | .stop => sshServerStop H srv
    | .tick => sshServerTick H srv
    | .outside f => { srv with host := f srv.host }

/-- The server after a run from the start of the kernel. -/
def sshRun (host : ω) (ops : List (SshOp ω)) : SshServer ω :=
  Run.run (sshStep H) (.boot host) ops

def SshSlot.core (slot : SshSlot) : SshCore :=
  ⟨slot.session.state, slot.session.encryptionActive, slot.session.encSend, slot.session.encRecv,
    slot.session.sharedSecret, slot.log⟩

-- ---------------------------------------------------------------------------
-- Invariants of all sessions
-- ---------------------------------------------------------------------------

/-- What is known of a user is known of one of more users. -/
theorem PasswordRequest.mono {users users' : List SshUser} {payload : List UInt8}
    (h : PasswordRequest users payload) (husers : ∀ u ∈ users, u ∈ users') :
    PasswordRequest users' payload := by
  obtain ⟨username, svc, method, password, rest, heq, hsvc, hmethod, u, hu, hmatch⟩ := h.fields
  exact ⟨⟨username, svc, method, password, rest, heq, hsvc, hmethod, u, husers u hu, hmatch⟩⟩

theorem SshAct.mono {users users' : List SshUser} {c c' : SshCore} (h : SshAct users c c')
    (husers : ∀ u ∈ users, u ∈ users') : SshAct users' c c' := by
  cases h with
  | quiet => exact .quiet _
  | send payload => exact .send _ payload
  | receive payload => exact .receive _ payload
  | version h => exact .version _ h
  | secret shared h => exact .secret _ shared h
  | keys recv send h => exact .keys _ recv send h
  | pending h hkeys => exact .pending _ h hkeys
  | activate h => exact .activate _ h
  | service h => exact .service _ h
  | login payload sealed h hreceived hsealed hrequest =>
    exact .login _ payload sealed h hreceived hsealed (hrequest.mono husers)
  | shell state h hstate => exact .shell _ state h hstate
  | execute line h => exact .execute _ line h

/-- The core of a session that is not in use, or has just been opened. -/
def coldCore (state : SshState) : SshCore := { SshSlot.core ⟨zeroSession, []⟩ with state := state }

/-- The users are those of the table, if they are set up. -/
def KnownUsers (srv : SshServer ω) : Prop := srv.users = [] ∨ srv.users = sshUserTable

theorem knownUsers_nonempty {srv : SshServer ω} (h : KnownUsers srv) :
    ∀ u ∈ srv.users, u.username ≠ [] ∧ u.password ≠ [] := by
  have htable : ∀ u ∈ sshUserTable, u.username ≠ [] ∧ u.password ≠ [] := by
    intro u hu
    rcases List.mem_pair.mp hu with rfl | rfl <;> exact ⟨by decide, by decide⟩
  rcases h with h | h
  · rw [h]
    exact fun u hu => absurd hu List.not_mem_nil
  · rwa [h]

theorem knownUsers_mem {srv : SshServer ω} (h : KnownUsers srv) :
    ∀ u ∈ srv.users, u ∈ sshUserTable := by
  rcases h with h | h
  · rw [h]
    exact fun u hu => absurd hu List.not_mem_nil
  · rw [h]
    exact fun u hu => hu

/-- What holds of every session, with the table of users as it is set up. -/
structure AllSessions (I : SshCore → Prop) (srv : SshServer ω) : Prop where
  users : KnownUsers srv
  slots : ∀ i, I (srv.sessions i).core

section Invariant

variable {I : SshCore → Prop} {srv : SshServer ω}

theorem AllSessions.setSlot (h : AllSessions I srv) (i : Fin 4) {slot : SshSlot}
    (hslot : I slot.core) : AllSessions I (srv.setSlot i slot) := by
  refine ⟨h.users, fun j => ?_⟩
  show I (Function.update srv.sessions i slot j).core
  rcases eq_or_ne j i with rfl | hne
  · rwa [Function.update_self]
  · rw [Function.update_of_ne hne]
    exact h.slots j

/-- Nothing but the sessions and the users matters. -/
theorem AllSessions.congr {srv' : SshServer ω} (h : AllSessions I srv)
    (hsessions : srv'.sessions = srv.sessions) (husers : srv'.users = srv.users) :
    AllSessions I srv' := by
  refine ⟨?_, fun i => ?_⟩
  · rw [KnownUsers, husers]
    exact h.users
  · rw [hsessions]
    exact h.slots i

theorem AllSessions.foldl {step : SshServer ω → Fin 4 → SshServer ω}
    (hstep : ∀ srv i, AllSessions I srv → AllSessions I (step srv i)) (is : List (Fin 4))
    (h : AllSessions I srv) : AllSessions I (is.foldl step srv) := by
  induction is generalizing srv with
  | nil => exact h
  | cons i is ih => exact ih (hstep srv i h)

theorem openSession_core (conn : ℕ) (host : ω) :
    (openSession H conn host).1.core = coldCore .versionSent := by
  unfold openSession
  dsimp only
  unfold sshSendRaw change
  dsimp only
  split <;> rfl

variable (hzero : I (coldCore .init)) (hfresh : I (coldCore .versionSent))
  (hact : ∀ c c', SshAct sshUserTable c c' → I c → I c')

include hzero in
theorem AllSessions.stopSession (h : AllSessions I srv) (i : Fin 4) :
    AllSessions I (stopSession H srv i) := by
  unfold Lestra.stopSession
  split
  · exact AllSessions.congr (h.setSlot i (show I (SshSlot.core ⟨zeroSession, []⟩) from hzero)) rfl rfl
  · exact h

include hfresh in
theorem AllSessions.acceptConnection (h : AllSessions I srv) (listenIdx : ℕ) :
    AllSessions I (acceptConnection H srv listenIdx) := by
  unfold Lestra.acceptConnection
  dsimp only
  split
  · exact h.congr rfl rfl
  · next conn _ =>
    split
    · exact h.congr rfl rfl
    · next slot _ =>
      have hopen : I (openSession H conn (H.tcpAccept listenIdx srv.host).2).1.core := by
        rwa [openSession_core]
      exact AllSessions.congr (h.setSlot slot hopen) rfl rfl

include hact in
theorem AllSessions.serviceSlot (h : AllSessions I srv) (i : Fin 4) :
    AllSessions I (serviceSlot H srv i) := by
  unfold Lestra.serviceSlot
  split
  · exact h
  · have hacts := serviceSession_acts H ⟨srv.users, srv.hostKey⟩ (knownUsers_nonempty h.users)
    refine AllSessions.congr (h.setSlot i ?_) rfl rfl
    exact hacts.keeps (I := fun w => I w.core)
      (fun w w' hstep hI => hact _ _ (hstep.mono (knownUsers_mem h.users)) hI) trivial (h.slots i)

include hzero hfresh hact in
theorem AllSessions.step (h : AllSessions I srv) (op : SshOp ω) :
    AllSessions I (sshStep H srv op) := by
  unfold sshStep
  split
  · exact h
  · cases op with
    | init =>
      have hinit : AllSessions I { srv with
          sessions := fun _ => ⟨zeroSession, []⟩, running := false, listenIdx := none
          users := sshUserTable } := ⟨.inr rfl, fun _ => hzero⟩
      show AllSessions I (hostKeyGenerate H _)
      unfold hostKeyGenerate
      split
      · exact hinit
      · exact hinit.congr rfl rfl
    | start port =>
      show AllSessions I (sshServerStart H srv port)
      unfold sshServerStart
      split
      · exact h
      · dsimp only
        split <;> exact h.congr rfl rfl
    | stop =>
      show AllSessions I (sshServerStop H srv)
      unfold sshServerStop
      split
      · exact h
      · have hstopped := h.foldl (fun srv i h => h.stopSession H hzero i) (List.finRange 4)
        dsimp only
        split <;> exact hstopped.congr rfl rfl
    | tick =>
      show AllSessions I (sshServerTick H srv)
      unfold sshServerTick
      split
      · exact (h.acceptConnection H hfresh _).foldl (fun srv i h => h.serviceSlot H hact i) _
      · exact h
    | outside f => exact h.congr rfl rfl

include hzero hfresh hact in
/-- **The invariants of a session.** What holds of a new session, and every act keeps, holds of
every session in every run, whatever the rest of the kernel does. -/
theorem inv_sessions (host : ω) (ops : List (SshOp ω)) (i : Fin 4) :
    I ((sshRun H host ops).sessions i).core := by
  have hboot : AllSessions I (SshServer.boot host) := ⟨.inl rfl, fun _ => hzero⟩
  have hrun : AllSessions I (sshRun H host ops) :=
    Run.inv_run_all (I := AllSessions I)
      (fun _ op h => AllSessions.step H hzero hfresh hact h op) ops _ hboot
  exact hrun.slots i

end Invariant

end Lestra
