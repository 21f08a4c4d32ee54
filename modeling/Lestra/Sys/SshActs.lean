import Lestra.Sys.SshSession

/-!
# What a session does

The handlers of `kernel/sys/ssh_server.c` do ten things to the part of a session that its security
rests on (`SshCore`): the state of the protocol, the keys and what has happened. `SshAct` lists
them, each with what the handler has checked.

* `serviceSession_acts` — a turn of the loop does nothing else, whatever arrives
-/

namespace Lestra

open Aes (Block)
open Halting

-- ---------------------------------------------------------------------------
-- The abstract session
-- ---------------------------------------------------------------------------

structure SshCore where
  state : SshState
  encryptionActive : Bool
  encSend : SshEncState
  encRecv : SshEncState
  shared : Bytes32
  log : List SshEvent

namespace SshCore

/-- The key and the number of the next packet, once there is a key in use. -/
def seal? (c : SshCore) (e : SshEncState) : Option (Block × UInt32) :=
  if c.encryptionActive then some (e.key, e.seq) else none

def advance (c : SshCore) (e : SshEncState) : SshEncState :=
  if c.encryptionActive then { e with seq := e.seq + 1 } else e

def send (c : SshCore) (payload : List UInt8) : SshCore :=
  { c with encSend := c.advance c.encSend, log := c.log ++ [.sent payload (c.seal? c.encSend)] }

def receive (c : SshCore) (payload : List UInt8) : SshCore :=
  { c with encRecv := c.advance c.encRecv, log := c.log ++ [.received payload (c.seal? c.encRecv)] }

/-- A user has logged in. -/
def Open (c : SshCore) : Prop := c.state = .channelOpen ∨ c.state = .shellRunning

end SshCore

/-- The encoding of a string. -/
def sshString (d : List UInt8) : List UInt8 := be32 (UInt32.ofNat d.length) ++ d

/-- A request to log in with a password that is right for the user. -/
structure PasswordRequest (users : List SshUser) (payload : List UInt8) : Prop where
  fields : ∃ username svc method password rest,
    payload = 50 :: (sshString username ++ sshString svc ++ sshString method ++
      0 :: (sshString password ++ rest)) ∧
    cstr svc = ascii "ssh-userauth" ∧ cstr method = ascii "password" ∧
    ∃ u ∈ users, u.username = cstr username ∧ u.password = cstr password

/-- The keys are those of an exchange with this secret. -/
def SshCore.Exchanged (c : SshCore) : Prop :=
  ∃ hash sessionId : Bytes32,
    c.encRecv.key = keyBlock (deriveKey c.shared hash sessionId 'C'.toUInt8 16) ∧
    c.encSend.key = keyBlock (deriveKey c.shared hash sessionId 'D'.toUInt8 16)

inductive SshAct (users : List SshUser) : SshCore → SshCore → Prop where
  | quiet (c : SshCore) : SshAct users c c
  | send (c : SshCore) (payload : List UInt8) : SshAct users c (c.send payload)
  | receive (c : SshCore) (payload : List UInt8) : SshAct users c (c.receive payload)
  | version (c : SshCore) (h : c.state = .versionSent) :
    SshAct users c { c with state := .kexInitSent }
  | secret (c : SshCore) (shared : Bytes32) (h : c.state = .kexInitSent) :
    SshAct users c { c with shared := shared }
  | keys (c : SshCore) (recv send : Block) (h : c.state = .kexInitSent) :
    SshAct users c { c with
      encRecv := { c.encRecv with key := recv }, encSend := { c.encSend with key := send } }
  | pending (c : SshCore) (h : c.state = .kexInitSent) (hkeys : c.Exchanged) :
    SshAct users c { c with encSend := { c.encSend with seq := 0 }, state := .newkeysPending }
  | activate (c : SshCore) (h : c.state = .newkeysPending) :
    SshAct users c { c with
      encRecv := { c.encRecv with seq := 0 }, encryptionActive := true, state := .encrypted }
  | service (c : SshCore) (h : c.state = .encrypted) :
    SshAct users c { c with state := .authPending }
  | login (c : SshCore) (payload : List UInt8) (sealed : Option (Block × UInt32))
    (h : c.state = .encrypted ∨ c.state = .authPending)
    (hreceived : SshEvent.received payload sealed ∈ c.log)
    (hsealed : sealed.isSome = c.encryptionActive) (hrequest : PasswordRequest users payload) :
    SshAct users c { c with state := .channelOpen }
  | shell (c : SshCore) (state : SshState) (h : c.Open)
    (hstate : state = .channelOpen ∨ state = .shellRunning) :
    SshAct users c { c with state := state }
  | execute (c : SshCore) (line : List UInt8) (h : c.Open) :
    SshAct users c { c with log := c.log ++ [.executed line] }

-- ---------------------------------------------------------------------------
-- Programs and the acts
-- ---------------------------------------------------------------------------

variable {ω : Type}

def SshWorld.core (w : SshWorld ω) : SshCore :=
  ⟨w.session.state, w.session.encryptionActive, w.session.encSend, w.session.encRecv,
    w.session.sharedSecret, w.log⟩

/-- From a core with `I` the program does acts, and ends with `J`. -/
def Acts (users : List SshUser) {α : Type} (I : SshCore → Prop) (m : Ssh ω α) (J : SshCore → Prop) :
    Prop :=
  Does (fun w w' => SshAct users w.core w'.core) (fun w => I w.core) m fun _ w => J w.core

/-- What sending a message leaves as it is. -/
def SendSteady (I : SshCore → Prop) : Prop := ∀ c payload, I c → I (c.send payload)

section Rules

variable {users : List SshUser} {α β : Type} {I J K : SshCore → Prop}

theorem Acts.ret {a : α} (h : ∀ c, I c → J c) : Acts (ω := ω) users I (pure a) J :=
  Does.ret fun w hw => h w.core hw

theorem Acts.done {a : α} : Acts (ω := ω) users I (pure a) I := Acts.ret fun _ h => h

theorem Acts.bind {m : Ssh ω α} {f : α → Ssh ω β} (hm : Acts users I m K)
    (hf : ∀ a, Acts users K (f a) J) : Acts users I (m >>= f) J := Does.bind hm hf

theorem Acts.weaken {m : Ssh ω α} {I' J' : SshCore → Prop} (h : Acts users I m J)
    (hI : ∀ c, I' c → I c) (hJ : ∀ c, J c → J' c) : Acts users I' m J' :=
  Does.weaken h (fun w => hI w.core) fun _ w => hJ w.core

/-- What is looked at keeps its core. -/
theorem Acts.look {f : SshWorld ω → Ssh ω β}
    (h : ∀ w : SshWorld ω, I w.core → Acts users (fun c => c = w.core) (f w) J) :
    Acts users I (look >>= f) J := by
  refine Does.look fun w hw => ?_
  refine Does.weaken (h w hw) (fun _ hw' => ?_) fun _ _ h => h
  rw [hw']

theorem Acts.stop : Acts users I (stop : Ssh ω α) J := Does.stop

theorem Acts.ite {c : Prop} [Decidable c] {m m' : Ssh ω α} (ht : c → Acts users I m J)
    (he : ¬ c → Acts users I m' J) : Acts users I (if c then m else m') J := Does.ite ht he

/-- An act, and what it leaves. -/
theorem Acts.change {f : SshWorld ω → SshWorld ω}
    (h : ∀ w, I w.core → SshAct users w.core (f w).core ∧ J (f w).core) :
    Acts users I (change f) J :=
  Does.change fun w hw => ⟨.single (h w hw).1, (h w hw).2⟩

/-- A change of the session outside the core. -/
theorem Acts.quiet {f : SshWorld ω → SshWorld ω} (h : ∀ w, (f w).core = w.core) :
    Acts users I (Halting.change f) I := by
  refine Acts.change fun w hw => ?_
  rw [h w]
  exact ⟨.quiet _, hw⟩

theorem Acts.setQuiet {f : SshSession → SshSession}
    (h : ∀ s, (f s).state = s.state ∧ (f s).encryptionActive = s.encryptionActive ∧
      (f s).encSend = s.encSend ∧ (f s).encRecv = s.encRecv ∧
      (f s).sharedSecret = s.sharedSecret) :
    Acts (ω := ω) users I (setSession f) I := by
  refine Acts.quiet fun w => ?_
  obtain ⟨hstate, hactive, hsend, hrecv, hshared⟩ := h w.session
  simp only [SshWorld.core, hstate, hactive, hsend, hrecv, hshared]

theorem Acts.useHost {f : ω → α × ω} : Acts users I (useHost f) I :=
  fun _ hw => ⟨.single (.quiet _), fun _ _ => hw⟩

end Rules

-- ---------------------------------------------------------------------------
-- Sending
-- ---------------------------------------------------------------------------

section Handlers

variable (H : SshHost ω) (st : SshStatics) {users : List SshUser} {I J : SshCore → Prop}

theorem sshSendRaw_acts (data : List UInt8) : Acts users I (sshSendRaw H data) I := by
  refine Acts.quiet fun w => ?_
  split <;> rfl

theorem sshSendMsg_acts (hI : SendSteady I) (payload : List UInt8) :
    Acts users I (sshSendMsg H payload) I := by
  unfold sshSendMsg
  refine Acts.look fun w hw => ?_
  have hkeep : ∀ c, c = w.core → I c := fun c hc => hc ▸ hw
  dsimp only
  split
  · next hactive =>
    split
    · exact Acts.ret hkeep
    · refine Acts.bind Acts.useHost fun pad => ?_
      split
      · exact Acts.ret hkeep
      · refine Acts.bind (Acts.change fun w' hw' => ?_) fun _ => sshSendRaw_acts H _
        have hsend : w.core.send payload = SshWorld.core { w' with
            session := { w'.session with
              encSend := { w.session.encSend with seq := w.session.encSend.seq + 1 } }
            log := w'.log ++
              [.sent payload (some (w.session.encSend.key, w.session.encSend.seq))] } := by
          obtain ⟨hstate, hact, _, hrecv, hshared, hlog⟩ := SshCore.mk.inj hw'
          simp only [SshCore.send, SshCore.advance, SshCore.seal?, SshWorld.core, hactive, hstate,
            hact, hrecv, hshared, hlog, if_true]
        rw [← hsend, hw']
        exact ⟨.send _ _, hI _ _ hw⟩
  · next hactive =>
    split
    · exact Acts.ret hkeep
    · refine Acts.bind Acts.useHost fun pad => ?_
      split
      · exact Acts.ret hkeep
      · refine Acts.bind (Acts.change fun w' hw' => ?_) fun _ => sshSendRaw_acts H _
        have hsend : w.core.send payload =
            SshWorld.core { w' with log := w'.log ++ [.sent payload none] } := by
          obtain ⟨hstate, hact, hsend, hrecv, hshared, hlog⟩ := SshCore.mk.inj hw'
          simp only [SshCore.send, SshCore.advance, SshCore.seal?, SshWorld.core, hactive, hstate,
            hact, hsend, hrecv, hshared, hlog, Bool.false_eq_true, if_false]
        rw [← hsend, hw']
        exact ⟨.send _ _, hI _ _ hw⟩

theorem sshDisconnect_acts (hI : SendSteady I) (reason : UInt32) (desc : String) :
    Acts users I (sshDisconnect H reason desc) I :=
  Acts.bind (sshSendMsg_acts H hI _) fun _ => Acts.quiet fun _ => rfl

/-- Behind a look, what held before. -/
theorem Acts.seen {α : Type} {m : Ssh ω α} {w : SshWorld ω} (hw : I w.core) (h : Acts users I m J) :
    Acts users (fun c => c = w.core) m J :=
  h.weaken (fun c hc => by rwa [hc]) fun _ h => h

-- ---------------------------------------------------------------------------
-- Version and key exchange
-- ---------------------------------------------------------------------------

theorem sendKexinit_acts (hI : SendSteady I) : Acts users I (sendKexinit H) I :=
  Acts.bind Acts.useHost fun _ =>
    Acts.bind (Acts.setQuiet fun _ => ⟨rfl, rfl, rfl, rfl, rfl⟩) fun _ => sshSendMsg_acts H hI _

theorem checkAlgorithms_acts (algorithms : List String) (r : SshRbuf) :
    Acts (ω := ω) users I (checkAlgorithms algorithms r) I := by
  induction algorithms generalizing r with
  | nil => exact Acts.done
  | cons our rest ih =>
    unfold checkAlgorithms
    split
    · exact Acts.done
    · exact Acts.ite (fun _ => Acts.stop) fun _ => Acts.ite (fun _ => Acts.done) fun _ => ih _

theorem processKexinit_acts (payload : List UInt8) :
    Acts (ω := ω) users I (processKexinit payload) I :=
  Acts.ite (fun _ => Acts.done) fun _ =>
    Acts.bind (Acts.setQuiet fun _ => ⟨rfl, rfl, rfl, rfl, rfl⟩) fun _ => checkAlgorithms_acts _ _

/-- The exchange ends with new keys, or in the state it began in. -/
theorem processEcdhInit_acts (payload : List UInt8) :
    Acts users (fun c => c.state = .kexInitSent) (processEcdhInit H st payload) fun _ => True := by
  have hsteady : SendSteady fun c => c.state = .kexInitSent := fun _ _ h => h
  have hdone : ∀ {a : Bool} {I : SshCore → Prop}, Acts (ω := ω) users I (pure a) fun _ => True :=
    Acts.ret fun _ _ => trivial
  refine Acts.ite (fun _ => hdone) fun _ => ?_
  split
  · exact hdone
  · refine Acts.ite (fun _ => hdone) fun _ => Acts.ite (fun _ => hdone) fun _ => ?_
    refine Acts.bind Acts.useHost fun generated => ?_
    obtain ⟨priv, pubX, pubY⟩ := generated
    refine Acts.bind (Acts.setQuiet fun _ => ⟨rfl, rfl, rfl, rfl, rfl⟩) fun _ => ?_
    refine Acts.bind Acts.useHost fun computed => ?_
    cases computed with
    | none => exact hdone
    | some shared =>
      refine Acts.look fun w hw => Acts.seen (I := fun c => c.state = .kexInitSent) hw ?_
      refine Acts.bind (K := fun c => c.state = .kexInitSent ∧ c.shared = shared)
        (Acts.change fun w' hw' => ⟨.secret _ shared hw', hw', rfl⟩) fun _ => ?_
      have hsecret : SendSteady fun c => c.state = .kexInitSent ∧ c.shared = shared := fun _ _ h => h
      refine Acts.bind Acts.useHost fun signature => ?_
      cases signature with
      | none => exact hdone
      | some signature =>
        refine Acts.bind (sshSendMsg_acts H hsecret _) fun _ => ?_
        refine Acts.bind (K := fun c => c.state = .kexInitSent ∧ c.Exchanged)
          (Acts.change fun w' hw' => ?_) fun _ => ?_
        · exact ⟨.keys _ _ _ hw'.1, hw'.1, _, _, by rw [← hw'.2]; rfl, by rw [← hw'.2]; rfl⟩
        · have hexchanged : SendSteady fun c => c.state = .kexInitSent ∧ c.Exchanged := by
            rintro c sent ⟨hstate, hash, sessionId, hrecv, hsend⟩
            refine ⟨hstate, hash, sessionId, hrecv, ?_⟩
            rw [show (c.send sent).shared = c.shared from rfl, ← hsend]
            show (c.advance c.encSend).key = _
            unfold SshCore.advance
            split <;> rfl
          refine Acts.bind (sshSendMsg_acts H hexchanged _) fun _ => ?_
          refine Acts.bind (Acts.change fun w' hw' => ?_) fun _ => Acts.done
          exact ⟨.pending _ hw'.1 hw'.2, trivial⟩

theorem processNewkeys_acts :
    Acts (ω := ω) users (fun c => c.state = .newkeysPending) processNewkeys fun _ => True :=
  Acts.change fun _ hw => ⟨.activate _ hw, trivial⟩

-- ---------------------------------------------------------------------------
-- Service and authentication
-- ---------------------------------------------------------------------------

theorem processServiceRequest_acts (payload : List UInt8) :
    Acts users (fun c => c.state = .encrypted) (processServiceRequest H payload) fun _ => True := by
  have hsteady : SendSteady fun c => c.state = .encrypted := fun _ _ h => h
  have hdone : Acts (ω := ω) users (fun c => c.state = .encrypted) (pure ()) fun _ => True :=
    Acts.ret fun _ _ => trivial
  refine Acts.ite (fun _ => hdone) fun _ => ?_
  split
  · exact hdone
  · refine Acts.ite (fun _ => ?_) fun _ => ?_
    · exact Acts.bind (sshSendMsg_acts H hsteady _) fun _ =>
        Acts.change fun _ hw => ⟨.service _ hw, trivial⟩
    · exact (sshDisconnect_acts H hsteady _ _).weaken (fun _ h => h) fun _ _ => trivial

/-- A copied string that is not empty stands in the payload. -/
theorem cstring_rest {r r' : SshRbuf} {cap : ℕ} {d : List UInt8} (hcap : cap ≤ 2 ^ 31)
    (h : r.getCstring cap = (some d, r')) (hd : d ≠ []) : r.rest = sshString d ++ r'.rest := by
  have hrest := SshRbuf.getCstring_rest hcap (congrArg Prod.fst h) hd
  rw [h] at hrest
  rw [hrest, sshString, List.append_assoc]

theorem userauthFields_rest {payload username svc method : List UInt8} {r : SshRbuf}
    (h : userauthFields payload = some (username, svc, method, r)) (husername : username ≠ [])
    (hsvc : svc ≠ []) (hmethod : method ≠ []) :
    (rbufOf payload).getU8.2.rest =
      sshString username ++ (sshString svc ++ (sshString method ++ r.rest)) := by
  unfold userauthFields at h
  split at h
  · cases h
  · next h₁ =>
    split at h
    · cases h
    · next h₂ =>
      split at h
      · cases h
      · next h₃ =>
        obtain ⟨rfl, rfl, rfl, rfl, rfl⟩ := by simpa using h
        rw [cstring_rest (by decide) h₁ husername, cstring_rest (by decide) h₂ hsvc,
          cstring_rest (by decide) h₃ hmethod]

/-- What the handler has checked when it lets a user in. -/
theorem passwordRequest_of_fields {payload username svc method password : List UInt8}
    {r r' : SshRbuf} (hlen : payload.length ≤ 8192) (hhead : payload.head? = some 50)
    (hfields : userauthFields payload = some (username, svc, method, r))
    (hsvc : cstr svc = ascii "ssh-userauth") (hmethod : cstr method = ascii "password")
    (hchange : r.getU8.1 = 0) (hpassword : r.getU8.2.getCstring 128 = (some password, r'))
    (hcheck : sshCheckPassword st username password = true)
    (husers : ∀ u ∈ st.users, u.username ≠ [] ∧ u.password ≠ []) :
    PasswordRequest st.users payload := by
  obtain ⟨u, hu, hmatch⟩ := List.any_eq_true.mp hcheck
  obtain ⟨hname, hpass⟩ := of_decide_eq_true hmatch
  have hne : ∀ d : List UInt8, cstr d ≠ [] → d ≠ [] := by
    rintro d hd rfl
    exact hd rfl
  have hstart : (rbufOf payload).rest = payload := List.take_of_length_le hlen
  have htype : payload = 50 :: (rbufOf payload).getU8.2.rest := by
    rcases SshRbuf.getU8_rest (rbufOf payload) with heq | ⟨hnil, _⟩
    · rw [hstart] at heq
      rw [heq, List.head?_cons, Option.some.injEq] at hhead
      rwa [hhead] at heq
    · rw [hstart] at hnil
      rw [hnil] at hhead
      cases hhead
  have hrest := userauthFields_rest hfields (hne _ (hname ▸ (husers u hu).1))
    (hne _ (by rw [hsvc]; decide)) (hne _ (by rw [hmethod]; decide))
  have hrest' := cstring_rest (by decide) hpassword (hne _ (hpass ▸ (husers u hu).2))
  have hflag : r.rest = 0 :: r.getU8.2.rest := by
    rcases SshRbuf.getU8_rest r with heq | ⟨hnil, heq⟩
    · rw [heq, hchange]
    · rw [heq, hnil] at hrest'
      have hzero := congrArg List.length hrest'
      rw [List.length_append, sshString, List.length_append, length_be32, List.length_nil] at hzero
      omega
  refine ⟨⟨username, svc, method, password, r'.rest, ?_, hsvc, hmethod, u, hu, hname, hpass⟩⟩
  rw [htype, hrest, hflag, hrest']
  simp only [List.append_assoc]

/-- The session has received a request, and it can be one to log in. -/
structure Requested (payload : List UInt8) (c : SshCore) : Prop where
  state : c.state = .encrypted ∨ c.state = .authPending
  received : ∃ sealed, SshEvent.received payload sealed ∈ c.log ∧
    sealed.isSome = c.encryptionActive

theorem requested_steady (payload : List UInt8) : SendSteady (Requested payload) := by
  rintro c sent ⟨hstate, sealed, hmem, hsealed⟩
  exact ⟨hstate, sealed, List.mem_append_left _ hmem, hsealed⟩

theorem processUserauth_acts (husers : ∀ u ∈ st.users, u.username ≠ [] ∧ u.password ≠ [])
    {payload : List UInt8} (hlen : payload.length ≤ 8192) :
    Acts st.users (Requested payload) (processUserauth H st payload) fun _ => True := by
  have hsteady := requested_steady payload
  have hdone : Acts (ω := ω) st.users (Requested payload) (pure ()) fun _ => True :=
    Acts.ret fun _ _ => trivial
  have hfail : Acts st.users (Requested payload) (sshSendMsg H userauthFailure) fun _ => True :=
    (sshSendMsg_acts H hsteady _).weaken (fun _ h => h) fun _ _ => trivial
  unfold processUserauth
  refine Acts.ite (fun _ => hdone) fun hguard => ?_
  have hhead : payload.head? = some 50 := not_not.mp (not_or.mp hguard).2
  split
  · exact hdone
  · next username svc method r hfields =>
    refine Acts.ite (fun _ => hfail) fun hsvc => ?_
    refine Acts.ite (fun hmethod => ?_) fun _ => hfail
    refine Acts.ite (fun _ => hfail) fun hchange => ?_
    split
    · exact hdone
    · next password r' hpassword =>
      refine Acts.ite (fun hcheck => ?_) fun _ => hfail
      have hrequest := passwordRequest_of_fields st hlen hhead hfields (not_not.mp hsvc) hmethod
        (not_not.mp hchange) hpassword hcheck husers
      refine Acts.bind (Acts.setQuiet fun _ => ⟨rfl, rfl, rfl, rfl, rfl⟩) fun _ => ?_
      refine Acts.bind (sshSendMsg_acts H hsteady _) fun _ => Acts.change fun w hw => ?_
      obtain ⟨hstate, sealed, hmem, hsealed⟩ := hw
      exact ⟨.login _ payload sealed hstate hmem hsealed hrequest, trivial⟩

-- ---------------------------------------------------------------------------
-- Channels
-- ---------------------------------------------------------------------------

theorem open_steady : SendSteady SshCore.Open := fun _ _ h => h

theorem processChannelOpen_acts (hI : SendSteady I) (payload : List UInt8) :
    Acts users I (processChannelOpen H payload) I := by
  refine Acts.ite (fun _ => Acts.done) fun _ => ?_
  split
  · exact Acts.done
  · refine Acts.ite (fun _ => sshSendMsg_acts H hI _) fun _ => ?_
    exact Acts.bind (Acts.setQuiet fun _ => ⟨rfl, rfl, rfl, rfl, rfl⟩) fun _ => sshSendMsg_acts H hI _

theorem sshSendOutput_acts (hI : SendSteady I) (fuel : ℕ) (out : List UInt8) :
    Acts users I (sshSendOutput H fuel out) I := by
  induction fuel generalizing out with
  | zero => exact Acts.ite (fun _ => Acts.done) fun _ => Acts.stop
  | succ fuel ih =>
    refine Acts.ite (fun _ => Acts.done) fun _ => Acts.look fun w hw => Acts.seen hw ?_
    exact Acts.bind (sshSendMsg_acts H hI _) fun _ =>
      Acts.bind (Acts.setQuiet fun _ => ⟨rfl, rfl, rfl, rfl, rfl⟩) fun _ => ih _

/-- A line is executed for a user who has logged in. -/
theorem sshExecuteAndSend_acts (line : List UInt8) :
    Acts users SshCore.Open (sshExecuteAndSend H line) SshCore.Open :=
  Acts.bind (Acts.change fun _ hw => ⟨.execute _ line hw, hw⟩) fun _ =>
    Acts.bind Acts.useHost fun _ => sshSendOutput_acts H open_steady _ _

theorem replyIf_acts (hI : SendSteady I) (want type : UInt8) : Acts users I (replyIf H want type) I :=
  Acts.ite (fun _ => Acts.done) fun _ =>
    Acts.look fun _ hw => Acts.seen hw (sshSendMsg_acts H hI _)

theorem sendText_acts (hI : SendSteady I) (cap : ℕ) (text : String) :
    Acts users I (sendText H cap text) I :=
  Acts.look fun _ hw => Acts.seen hw (sshSendMsg_acts H hI _)

theorem ptyRequest_acts (hI : SendSteady I) (r : SshRbuf) (wantReply : UInt8) :
    Acts users I (ptyRequest H r wantReply) I := by
  unfold ptyRequest
  split
  · exact Acts.done
  · exact Acts.bind (Acts.setQuiet fun _ => ⟨rfl, rfl, rfl, rfl, rfl⟩) fun _ => replyIf_acts H hI _ _

theorem setOpen_acts {state : SshState} (h : state = .channelOpen ∨ state = .shellRunning) :
    Acts (ω := ω) users SshCore.Open (setSession fun s => { s with state := state }) SshCore.Open :=
  Acts.change fun _ hw => ⟨.shell _ state hw h, h⟩

theorem shellRequest_acts (wantReply : UInt8) :
    Acts users SshCore.Open (shellRequest H wantReply) SshCore.Open :=
  Acts.bind (setOpen_acts (.inr rfl)) fun _ =>
    Acts.bind (replyIf_acts H open_steady _ _) fun _ => sendText_acts H open_steady _ _

theorem execRequest_acts (r : SshRbuf) (wantReply : UInt8) :
    Acts users SshCore.Open (execRequest H r wantReply) SshCore.Open := by
  unfold execRequest
  split
  · exact Acts.done
  · refine Acts.bind (setOpen_acts (.inr rfl)) fun _ => ?_
    refine Acts.bind (replyIf_acts H open_steady _ _) fun _ => ?_
    refine Acts.bind (sshExecuteAndSend_acts H _) fun _ => ?_
    refine Acts.look fun w hw => Acts.seen hw ?_
    refine Acts.bind (sshSendMsg_acts H open_steady _) fun _ => ?_
    refine Acts.bind (sshSendMsg_acts H open_steady _) fun _ => ?_
    refine Acts.bind (sshSendMsg_acts H open_steady _) fun _ => ?_
    exact setOpen_acts (.inl rfl)

theorem processChannelRequest_acts (payload : List UInt8) :
    Acts users SshCore.Open (processChannelRequest H payload) SshCore.Open := by
  refine Acts.ite (fun _ => Acts.done) fun _ => ?_
  split
  · exact Acts.done
  · refine Acts.ite (fun _ => ptyRequest_acts H open_steady _ _) fun _ => ?_
    refine Acts.ite (fun _ => shellRequest_acts H _) fun _ => ?_
    refine Acts.ite (fun _ => execRequest_acts H _ _) fun _ => ?_
    refine Acts.ite (fun _ => Acts.setQuiet fun _ => ⟨rfl, rfl, rfl, rfl, rfl⟩) fun _ => ?_
    refine Acts.ite (fun _ => replyIf_acts H open_steady _ _) fun _ => ?_
    exact Acts.ite (fun _ => Acts.done) fun _ => replyIf_acts H open_steady _ _

theorem channelByte_acts (ch : UInt8) :
    Acts users SshCore.Open (channelByte H ch) SshCore.Open := by
  refine Acts.look fun w hw => Acts.seen hw ?_
  refine Acts.ite (fun _ => ?_) fun _ => Acts.ite (fun _ => ?_) fun _ =>
    Acts.ite (fun _ => ?_) fun _ => Acts.ite (fun _ => ?_) fun _ => Acts.done
  · refine Acts.ite (fun _ => Acts.ite (fun _ => ?_) fun _ => ?_) fun _ => Acts.done
    · refine Acts.bind (sshSendMsg_acts H open_steady _) fun _ => ?_
      refine Acts.bind (sshSendMsg_acts H open_steady _) fun _ => ?_
      exact Acts.bind (Acts.setQuiet fun _ => ⟨rfl, rfl, rfl, rfl, rfl⟩) fun _ => Acts.done
    · refine Acts.bind (sshExecuteAndSend_acts H _) fun _ => ?_
      refine Acts.bind (Acts.setQuiet fun _ => ⟨rfl, rfl, rfl, rfl, rfl⟩) fun _ => ?_
      exact Acts.bind (sendText_acts H open_steady _ _) fun _ => Acts.done
  · exact Acts.bind (Acts.setQuiet fun _ => ⟨rfl, rfl, rfl, rfl, rfl⟩) fun _ => Acts.done
  · refine Acts.bind (Acts.setQuiet fun _ => ⟨rfl, rfl, rfl, rfl, rfl⟩) fun _ => ?_
    exact Acts.bind (sendText_acts H open_steady _ _) fun _ => Acts.done
  · split
    · exact Acts.bind (Acts.setQuiet fun _ => ⟨rfl, rfl, rfl, rfl, rfl⟩) fun _ => Acts.done
    · exact Acts.done

theorem channelBytes_acts (data : List UInt8) :
    Acts users SshCore.Open (channelBytes H data) SshCore.Open := by
  induction data with
  | nil => exact Acts.done
  | cons ch data ih =>
    exact Acts.bind (channelByte_acts H ch) fun _ => Acts.ite (fun _ => ih) fun _ => Acts.done

theorem processChannelData_acts (payload : List UInt8) :
    Acts users SshCore.Open (processChannelData H payload) SshCore.Open := by
  refine Acts.ite (fun _ => Acts.done) fun _ => ?_
  dsimp only
  split
  · exact Acts.done
  · refine Acts.look fun w hw => Acts.seen hw ?_
    exact Acts.ite (fun _ => Acts.done) fun _ => Acts.ite (fun _ => Acts.stop) fun _ =>
      channelBytes_acts H _

theorem processWindowAdjust_acts (payload : List UInt8) :
    Acts (ω := ω) users I (processWindowAdjust payload) I := by
  refine Acts.setQuiet fun s => ?_
  split
  · exact ⟨rfl, rfl, rfl, rfl, rfl⟩
  · dsimp only
    split <;> exact ⟨rfl, rfl, rfl, rfl, rfl⟩

theorem processChannelClose_acts (hI : SendSteady I) (payload : List UInt8) :
    Acts users I (processChannelClose H payload) I := by
  refine Acts.ite (fun _ => Acts.done) fun _ => Acts.look fun w hw => Acts.seen hw ?_
  refine Acts.ite (fun _ => ?_) fun _ => Acts.done
  exact Acts.bind (sshSendMsg_acts H hI _) fun _ => Acts.setQuiet fun _ => ⟨rfl, rfl, rfl, rfl, rfl⟩

theorem processGlobalRequest_acts (hI : SendSteady I) (payload : List UInt8) :
    Acts users I (processGlobalRequest H payload) I :=
  Acts.ite (fun _ => Acts.done) fun _ => Acts.ite (fun _ => Acts.done) fun _ =>
    sshSendMsg_acts H hI _

-- ---------------------------------------------------------------------------
-- Dispatch
-- ---------------------------------------------------------------------------

/-- The payload has been received. -/
def Arrived (payload : List UInt8) (c : SshCore) : Prop :=
  ∃ sealed, SshEvent.received payload sealed ∈ c.log ∧ sealed.isSome = c.encryptionActive

theorem sshProcessPacket_acts (husers : ∀ u ∈ st.users, u.username ≠ [] ∧ u.password ≠ [])
    {payload : List UInt8} (hlen : payload.length ≤ 8192) :
    Acts st.users (Arrived payload) (sshProcessPacket H st payload) fun _ => True := by
  refine Acts.look fun w hw => ?_
  dsimp only
  have hsteady : SendSteady fun _ => True := fun _ _ _ => trivial
  have hany : ∀ {α : Type} {m : Ssh ω α}, Acts st.users (fun _ => True) m (fun _ => True) →
      Acts st.users (fun c => c = w.core) m fun _ => True :=
    fun h => h.weaken (fun _ _ => trivial) fun _ h => h
  have hdone : Acts (ω := ω) st.users (fun c => c = w.core) (pure ()) fun _ => True :=
    hany Acts.done
  have hopen : ∀ {m : Ssh ω Unit}, w.core.Open → Acts st.users SshCore.Open m SshCore.Open →
      Acts st.users (fun c => c = w.core) m fun _ => True :=
    fun h hm => (Acts.seen h hm).weaken (fun _ h => h) fun _ _ => trivial
  have hfailed : ∀ desc, Acts st.users (fun _ => True) (sshDisconnect H 3 desc) fun _ => True :=
    fun desc => sshDisconnect_acts H hsteady 3 desc
  split
  · exact hdone
  · exact hany (Acts.setQuiet fun _ => ⟨rfl, rfl, rfl, rfl, rfl⟩)
  · exact hdone
  · exact hdone
  · exact hdone
  · refine Acts.ite (fun _ => hany ?_) fun _ => hdone
    exact Acts.bind (processKexinit_acts payload) fun _ =>
      Acts.ite (fun _ => Acts.done) fun _ => hfailed _
  · refine Acts.ite (fun hstate => ?_) fun _ => hdone
    refine Acts.bind (Acts.seen (I := fun c => c.state = .kexInitSent) hstate
      (processEcdhInit_acts H st payload)) fun _ => ?_
    exact Acts.ite (fun _ => Acts.done) fun _ => hfailed _
  · refine Acts.ite (fun hstate => ?_) fun _ => hdone
    exact Acts.seen (I := fun c => c.state = .newkeysPending) hstate processNewkeys_acts
  · refine Acts.ite (fun hstate => ?_) fun _ => hdone
    exact Acts.seen (I := fun c => c.state = .encrypted) hstate (processServiceRequest_acts H payload)
  · refine Acts.ite (fun hstate => ?_) fun _ => hdone
    exact Acts.seen (I := Requested payload) ⟨hstate, hw⟩ (processUserauth_acts H st husers hlen)
  · exact hany (processGlobalRequest_acts H hsteady payload)
  · exact Acts.ite (fun _ => hany (processChannelOpen_acts H hsteady payload)) fun _ => hdone
  · exact hany (processWindowAdjust_acts payload)
  · refine Acts.ite (fun hstate => ?_) fun _ => hdone
    exact hopen (.inr hstate) (processChannelData_acts H payload)
  · exact hdone
  · exact hdone
  · exact hany (processChannelClose_acts H hsteady payload)
  · exact Acts.ite (fun hstate => hopen hstate (processChannelRequest_acts H payload)) fun _ => hdone
  · exact hany (sshSendMsg_acts H hsteady _)

-- ---------------------------------------------------------------------------
-- A turn
-- ---------------------------------------------------------------------------

theorem packetLoop_acts (husers : ∀ u ∈ st.users, u.username ≠ [] ∧ u.password ≠ []) (turns : ℕ) :
    Acts st.users (fun _ => True) (packetLoop H st turns) fun _ => True := by
  have hsteady : SendSteady fun _ => True := fun _ _ _ => trivial
  induction turns with
  | zero => exact Acts.done
  | succ turns ih =>
    refine Acts.look fun w _ => ?_
    have hdone : Acts (ω := ω) st.users (fun c => c = w.core) (pure ()) fun _ => True :=
      Acts.ret fun _ _ => trivial
    refine Acts.ite (fun _ => hdone) fun _ => ?_
    dsimp only
    generalize hrecv : (if w.session.encryptionActive then
      sshRecvEncPacket w.session.encRecv.key w.session.encRecv.seq w.session.rxBuf
      else sshRecvPacket w.session.rxBuf) = recv
    cases recv with
    | incomplete => exact hdone
    | error => exact (sshDisconnect_acts H hsteady _ _).weaken (fun _ _ => trivial) fun _ h => h
    | packet payload consumed =>
      have hlen : payload.length ≤ 8192 := by
        split at hrecv
        · exact (sshRecvEncPacket_packet hrecv).1
        · exact (sshRecvPacket_packet hrecv).1
      refine Acts.bind (K := Arrived payload) (Acts.change fun w' hw' => ?_) fun _ =>
        Acts.bind (sshProcessPacket_acts H st husers hlen) fun _ => ih
      have hreceive : w.core.receive payload = SshWorld.core { w' with
          session := { w'.session with
            rxBuf := w.session.rxBuf.drop consumed
            encRecv := if w.session.encryptionActive then
                { w.session.encRecv with seq := w.session.encRecv.seq + 1 }
              else w.session.encRecv }
          log := w'.log ++ [.received payload (if w.session.encryptionActive then
            some (w.session.encRecv.key, w.session.encRecv.seq) else none)] } := by
        obtain ⟨hstate, hact, hsend, _, hshared, hlog⟩ := SshCore.mk.inj hw'
        simp only [SshCore.receive, SshCore.advance, SshCore.seal?, SshWorld.core, hstate, hact,
          hsend, hshared, hlog]
        rfl
      rw [← hreceive, hw']
      refine ⟨.receive _ _, w.core.seal? w.core.encRecv, List.mem_append_right _ (by simp), ?_⟩
      show (w.core.seal? w.core.encRecv).isSome = w.core.encryptionActive
      unfold SshCore.seal?
      cases w.core.encryptionActive <;> rfl

theorem readAvailable_acts : Acts users I (readAvailable H) I := by
  refine Acts.look fun w hw => Acts.seen hw (Acts.ite (fun _ => Acts.done) fun _ => ?_)
  refine Acts.bind (Acts.quiet fun _ => rfl) fun _ => ?_
  exact Acts.bind Acts.useHost fun _ => Acts.setQuiet fun _ => ⟨rfl, rfl, rfl, rfl, rfl⟩

theorem versionPhase_acts : Acts users (fun _ => True) (versionPhase H) fun _ => True := by
  have hsteady : SendSteady fun _ => True := fun _ _ _ => trivial
  refine Acts.look fun w _ => ?_
  have hdone : ∀ {a : Bool}, Acts (ω := ω) users (fun c => c = w.core) (pure a) fun _ => True :=
    Acts.ret fun _ _ => trivial
  refine Acts.ite (fun _ => hdone) fun hstate => ?_
  split
  · exact hdone
  · exact Acts.bind ((sshDisconnect_acts H hsteady _ _).weaken (fun _ _ => trivial) fun _ h => h)
      fun _ => Acts.done
  · refine Acts.bind (K := fun _ => True) (Acts.change fun w' hw' => ?_) fun _ =>
      Acts.bind (sendKexinit_acts H hsteady) fun _ => Acts.done
    refine ⟨.version _ ?_, trivial⟩
    rw [hw']
    exact not_not.mp hstate

/-- **A turn of the loop.** Whatever the surroundings do and whatever arrives, the session does
acts of the list only, also when it does not come to an end. -/
theorem serviceSession_acts (husers : ∀ u ∈ st.users, u.username ≠ [] ∧ u.password ≠ []) :
    Acts st.users (fun _ => True) (serviceSession H st) fun _ => True := by
  have hsteady : SendSteady fun _ => True := fun _ _ _ => trivial
  refine Acts.look fun w _ => Acts.seen (I := fun _ => True) trivial ?_
  refine Acts.ite (fun _ => Acts.done) fun _ => Acts.ite (fun _ => ?_) fun _ => ?_
  · exact Acts.setQuiet fun _ => ⟨rfl, rfl, rfl, rfl, rfl⟩
  · refine Acts.bind Acts.useHost fun now => ?_
    refine Acts.ite (fun _ => sshDisconnect_acts H hsteady _ _) fun _ => ?_
    refine Acts.bind (readAvailable_acts H) fun _ => ?_
    refine Acts.bind (versionPhase_acts H) fun _ => Acts.ite (fun _ => ?_) fun _ => Acts.done
    refine Acts.look fun w _ => Acts.seen (I := fun _ => True) trivial (Acts.ite (fun _ => ?_) fun _ => Acts.done)
    exact packetLoop_acts H st husers _

end Handlers

end Lestra
