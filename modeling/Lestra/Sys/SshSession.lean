import Lestra.Lib.Halting
import Lestra.Net.Sha256
import Lestra.Sys.SshPacket

/-!
# The SSH session

One connection of `kernel/sys/ssh_server.c`: the handlers of the messages, `ssh_process_packet` and
the body of the loop in `ssh_server_tick`. The rest of the kernel (the TCP connections, the clock,
the random numbers, the curve and the shell) is a parameter, `SshHost`: whatever it does. A string
that reaches behind its payload (`rbuf_get_string`) is where what happens is no longer defined, and
the program stops there.
-/

namespace Lestra

open Aes (Block)
open Halting

-- ---------------------------------------------------------------------------
-- The session and its surroundings
-- ---------------------------------------------------------------------------

def ascii (s : String) : List UInt8 := s.toList.map Char.toUInt8

/-- The characters in front of the terminator. -/
def cstr (d : List UInt8) : List UInt8 := d.takeWhile (· != 0)

/-- A number of 256 bits, most significant byte first. -/
abbrev Bytes32 : Type := Vector UInt8 32

def zero32 : Bytes32 := Vector.replicate 32 0

/-- The first 32 bytes. -/
def bytes32 (l : List UInt8) : Bytes32 := Vector.ofFn fun i => l.getD i.val 0

inductive SshState where
  | init
  | versionSent
  | kexInitSent
  | newkeysPending
  | encrypted
  | authPending
  | channelOpen
  | shellRunning
deriving DecidableEq

structure SshEncState where
  key : Block
  seq : UInt32

structure SshPty where
  term : List UInt8
  cols : UInt16
  rows : UInt16
  widthPx : UInt16
  heightPx : UInt16

structure SshSession where
  inUse : Bool
  connIdx : ℕ
  state : SshState
  encryptionActive : Bool
  username : List UInt8
  lastActivity : UInt64
  rxBuf : List UInt8
  lineBuf : List UInt8
  clientVersion : List UInt8
  serverKexinit : List UInt8
  clientKexinit : List UInt8
  ecdhPriv : Bytes32
  ecdhPub : Bytes32 × Bytes32
  clientEcdhPub : Bytes32 × Bytes32
  sharedSecret : Bytes32
  sessionId : Bytes32
  sessionIdSet : Bool
  encSend : SshEncState
  encRecv : SshEncState
  ourChannel : UInt32
  peerChannel : UInt32
  windowLocal : UInt32
  windowRemote : UInt32
  maxPktLocal : UInt32
  maxPktRemote : UInt32
  pty : SshPty

/-- After `memset`. -/
def zeroSession : SshSession where
  inUse := false
  connIdx := 0
  state := .init
  encryptionActive := false
  username := []
  lastActivity := 0
  rxBuf := []
  lineBuf := []
  clientVersion := []
  serverKexinit := []
  clientKexinit := []
  ecdhPriv := zero32
  ecdhPub := (zero32, zero32)
  clientEcdhPub := (zero32, zero32)
  sharedSecret := zero32
  sessionId := zero32
  sessionIdSet := false
  encSend := ⟨Vector.replicate 16 0, 0⟩
  encRecv := ⟨Vector.replicate 16 0, 0⟩
  ourChannel := 0
  peerChannel := 0
  windowLocal := 0
  windowRemote := 0
  maxPktLocal := 0
  maxPktRemote := 0
  pty := ⟨[], 0, 0, 0, 0⟩

structure SshUser where
  username : List UInt8
  password : List UInt8

structure SshHostKey where
  priv : Bytes32
  pubX : Bytes32
  pubY : Bytes32
  initialized : Bool

/-- What the session calls, on a state `ω` of its own. -/
structure SshHost (ω : Type) where
  getRandomBytes : (n : ℕ) → ω → Vector UInt8 n × ω
  p256Keygen : ω → (Bytes32 × Bytes32 × Bytes32) × ω
  p256Ecdh : Bytes32 → Bytes32 → Bytes32 → ω → Option Bytes32 × ω
  ecdsaSign : Bytes32 → Bytes32 → ω → Option (Bytes32 × Bytes32) × ω
  shellExecuteLine : List UInt8 → ω → List UInt8 × ω
  timerGetMs : ω → UInt64 × ω
  tcpListen : UInt16 → ω → Option ℕ × ω
  tcpAccept : ℕ → ω → Option ℕ × ω
  tcpEstablished : ℕ → ω → Bool
  /-- How many bytes were taken; 0 when the call fails. -/
  tcpSendConn : ℕ → List UInt8 → ω → ℕ × ω
  tcpCloseConn : ℕ → ω → ω
  /-- The listener is taken out of the table. -/
  tcpUnlisten : ℕ → ω → ω
  tcpRxBuf : ℕ → ω → List UInt8
  tcpRxTake : ℕ → ℕ → ω → ω
  /-- How far a loop is followed that does not end. -/
  patience : ℕ

/-- What is set up once: the table of users and the host key. -/
structure SshStatics where
  users : List SshUser
  hostKey : SshHostKey

/-- What the session does, in order; a packet with the key and the number it is sealed under. -/
inductive SshEvent where
  | received (payload : List UInt8) (sealed : Option (Block × UInt32))
  | sent (payload : List UInt8) (sealed : Option (Block × UInt32))
  | executed (line : List UInt8)

structure SshWorld (ω : Type) where
  session : SshSession
  host : ω
  log : List SshEvent

abbrev Ssh (ω : Type) (α : Type) : Type := Prog (SshWorld ω) α

variable {ω : Type}

def setSession (f : SshSession → SshSession) : Ssh ω Unit :=
  change fun w => { w with session := f w.session }

def useHost {α : Type} (f : ω → α × ω) : Ssh ω α := fun w =>
  (some (f w.host).1, { w with host := (f w.host).2 })

def note (e : SshEvent) : Ssh ω Unit := change fun w => { w with log := w.log ++ [e] }

variable (H : SshHost ω)

-- ---------------------------------------------------------------------------
-- Sending
-- ---------------------------------------------------------------------------

def SshBuf.putCstring (b : SshBuf) (s : String) : SshBuf := b.putString (ascii s)

/-- `while (sent < len)`. -/
def sshSendLoop (conn : ℕ) (data : List UInt8) (h : ω) : ω :=
  if data.length = 0 then h
  else
    let (n, h) := H.tcpSendConn conn (data.take 1400) h
    if n = 0 then h else sshSendLoop conn (data.drop n) h
termination_by data.length
decreasing_by
  rw [List.length_drop]
  omega

def sshSendRaw (data : List UInt8) : Ssh ω Unit :=
  change fun w =>
    if H.tcpEstablished w.session.connIdx w.host then
      { w with host := sshSendLoop H w.session.connIdx data w.host }
    else w

/-- What it returns is nowhere looked at. -/
def sshSendMsg (payload : List UInt8) : Ssh ω Unit := do
  let w ← look
  let s := w.session
  if s.encryptionActive then
    if sshBufSize < 4 + sshPktLen payload.length + 16 then pure ()
    else
      let pad ← useHost (H.getRandomBytes (sshPadLen payload.length))
      match sshBuildEncPacket sshBufSize s.encSend.key s.encSend.seq payload pad.toList with
      | none => pure ()
      | some pkt =>
        change fun w => { w with
          session := { w.session with encSend := { s.encSend with seq := s.encSend.seq + 1 } }
          log := w.log ++ [.sent payload (some (s.encSend.key, s.encSend.seq))] }
        sshSendRaw H pkt
  else
    if sshBufSize < 4 + sshPktLen payload.length then pure ()
    else
      let pad ← useHost (H.getRandomBytes (sshPadLen payload.length))
      match sshBuildPacket sshBufSize payload pad.toList with
      | none => pure ()
      | some pkt =>
        note (.sent payload none)
        sshSendRaw H pkt

def sshDisconnect (reason : UInt32) (desc : String) : Ssh ω Unit := do
  sshSendMsg H ((((bufInit 256).putU8 1).putU32 reason).putCstring desc).data
  change fun w => { w with
    session := { w.session with inUse := false }
    host := H.tcpCloseConn w.session.connIdx w.host }

-- ---------------------------------------------------------------------------
-- Version and key exchange
-- ---------------------------------------------------------------------------

/-- Where the version line begins: behind a line end in front of it, or at 0. -/
def versionStart (rx : List UInt8) (verEnd : ℕ) : ℕ :=
  match (List.range verEnd).find? fun i =>
      rx.getD i 0 == '\n'.toUInt8 && decide (i + 1 + 3 < verEnd) &&
        rx.getD (i + 1) 0 == 'S'.toUInt8 && rx.getD (i + 2) 0 == 'S'.toUInt8 &&
        rx.getD (i + 3) 0 == 'H'.toUInt8 && rx.getD (i + 4) 0 == '-'.toUInt8 with
  | some i => i + 1
  | none => 0

/-- The bytes taken and the version; `none` when there is no line yet. -/
def processVersion (rx : List UInt8) : Option (Option (ℕ × List UInt8)) :=
  match rx.findIdx? (· == '\n'.toUInt8) with
  | none => none
  | some lineEnd =>
    let verEnd :=
      if 0 < lineEnd ∧ rx.getD (lineEnd - 1) 0 = '\r'.toUInt8 then lineEnd - 1 else lineEnd
    let verStart := versionStart rx verEnd
    let isSsh := rx.getD 0 0 = 'S'.toUInt8 ∧ rx.getD 1 0 = 'S'.toUInt8 ∧
      rx.getD 2 0 = 'H'.toUInt8 ∧ rx.getD 3 0 = '-'.toUInt8
    if rx.getD verStart 0 ≠ 'S'.toUInt8 ∧ ¬ isSsh then some none
    else
      let version := (rx.drop verStart).take (min (verEnd - verStart) 255)
      if version.take 8 ≠ ascii "SSH-2.0-" ∧ version.take 9 ≠ ascii "SSH-1.99-" then some none
      else some (some (lineEnd + 1, version))

def kexAlgorithms : List String :=
  ["ecdh-sha2-nistp256", "ecdsa-sha2-nistp256", "aes128-gcm@openssh.com", "aes128-gcm@openssh.com",
    "hmac-sha2-256", "hmac-sha2-256", "none", "none", "", ""]

def kexinitPayload (cookie : List UInt8) : List UInt8 :=
  let b := ((bufInit 512).putU8 20).putBytes cookie
  ((kexAlgorithms.foldl SshBuf.putCstring b).putBool false |>.putU32 0).data

def sendKexinit : Ssh ω Unit := do
  let cookie ← useHost (H.getRandomBytes 16)
  setSession fun s => { s with serverKexinit := (kexinitPayload cookie.toList).drop 1 }
  sshSendMsg H (kexinitPayload cookie.toList)

/-- The search for a name in a comma-separated list. -/
def nameListHas (our : List UInt8) (names : List UInt8) : Bool :=
  if names.length = 0 then false
  else
    let name := names.takeWhile (· != ','.toUInt8)
    if name = our then true else nameListHas our (names.drop (name.length + 1))
termination_by names.length
decreasing_by
  rw [List.length_drop]
  omega

/-- The loop over the name-lists: whether each has our algorithm. -/
def checkAlgorithms : List String → SshRbuf → Ssh ω Bool
  | [], _ => pure true
  | our :: rest, r =>
    match r.getString with
    | (none, _) => pure false
    | (some slice, r) =>
      if r.data.length < slice.start + slice.len then stop
      else if ¬ nameListHas (ascii our) (r.slice slice) ∧ 0 < (ascii our).length then pure false
      else checkAlgorithms rest r

/-- A payload in its array, from the first byte on. -/
def rbufOf (payload : List UInt8) : SshRbuf :=
  rbufInit (payload.take 8192) (List.length_take_le 8192 payload)

def processKexinit (payload : List UInt8) : Ssh ω Bool := do
  if payload.length < 17 ∨ payload.head? ≠ some 20 then pure false
  else
    setSession fun s => { s with clientKexinit := payload.drop 1 }
    checkAlgorithms kexAlgorithms ((rbufOf payload).getU8.2.skip 16).2

def hostKeyBlob (hostKey : SshHostKey) : List UInt8 :=
  ((((bufInit 128).putCstring "ecdsa-sha2-nistp256").putCstring "nistp256").putString
    (4 :: hostKey.pubX.toList ++ hostKey.pubY.toList)).data

def ecdsaSigBlob (r s : Bytes32) : List UInt8 :=
  ((bufInit 256).putCstring "ecdsa-sha2-nistp256").putString
    (((bufInit 128).putMpint r.toList).putMpint s.toList).data |>.data

/-- What the exchange hash is taken of, one piece after the other. -/
def exchangePieces (s : SshSession) (ks qC qS : List UInt8) (shared : Bytes32) :
    List (List UInt8) :=
  [((bufInit 256).putString (cstr s.clientVersion)).data,
    ((bufInit 256).putCstring "SSH-2.0-LestraOS_1.0").data,
    ((bufInit 1028).putString s.clientKexinit).data,
    ((bufInit 1028).putString s.serverKexinit).data,
    ((bufInit 132).putString ks).data,
    ((bufInit 69).putString qC).data,
    ((bufInit 69).putString qS).data,
    ((bufInit 128).putMpint shared.toList).data]

def exchangeHash (s : SshSession) (ks qC qS : List UInt8) (shared : Bytes32) : Bytes32 :=
  bytes32 (sha256Stream [] (exchangePieces s ks qC qS shared))

/-- Key material of at most 32 bytes. -/
def deriveKey (shared hash sessionId : Bytes32) (letter : UInt8) (n : ℕ) : List UInt8 :=
  let kb := ((bufInit 128).putMpint shared.toList).data
  let hi := ((((bufInit 256).putBytes kb).putBytes hash.toList).putU8 letter).putBytes
    sessionId.toList
  (sha256Hash [] hi.data).take n

def keyBlock (bytes : List UInt8) : Block := Vector.ofFn fun i => bytes.getD i.val 0

variable (st : SshStatics)

def processEcdhInit (payload : List UInt8) : Ssh ω Bool := do
  if payload.length < 69 ∨ payload.head? ≠ some 30 then pure false
  else
    match (rbufOf payload).getU8.2.getString with
    | (none, _) => pure false
    | (some slice, r) =>
      if slice.len ≠ 65 then pure false
      else
        let qC := r.slice slice
        if qC.head? ≠ some 4 then pure false
        else
          let (priv, pubX, pubY) ← useHost H.p256Keygen
          let peerX := bytes32 (qC.drop 1)
          let peerY := bytes32 (qC.drop 33)
          setSession fun s => { s with
            clientEcdhPub := (peerX, peerY)
            ecdhPriv := priv
            ecdhPub := (pubX, pubY) }
          match ← useHost (H.p256Ecdh priv peerX peerY) with
          | none => pure false
          | some shared =>
            let w ← look
            let ks := hostKeyBlob st.hostKey
            let qS := 4 :: pubX.toList ++ pubY.toList
            let hash := exchangeHash w.session ks qC qS shared
            let sessionId := if w.session.sessionIdSet then w.session.sessionId else hash
            setSession fun s => { s with
              sharedSecret := shared
              sessionId := sessionId
              sessionIdSet := true }
            match ← useHost (H.ecdsaSign st.hostKey.priv hash) with
            | none => pure false
            | some (r, s) =>
              sshSendMsg H ((((bufInit sshBufSize).putU8 31).putString ks).putString qS |>.putString
                (ecdsaSigBlob r s)).data
              setSession fun s => { s with
                encRecv := { s.encRecv with
                  key := keyBlock (deriveKey shared hash sessionId 'C'.toUInt8 16) }
                encSend := { s.encSend with
                  key := keyBlock (deriveKey shared hash sessionId 'D'.toUInt8 16) } }
              sshSendMsg H [21]
              setSession fun s => { s with
                encSend := { s.encSend with seq := 0 }
                state := .newkeysPending }
              pure true

def processNewkeys : Ssh ω Unit :=
  setSession fun s => { s with
    encRecv := { s.encRecv with seq := 0 }
    encryptionActive := true
    state := .encrypted }

-- ---------------------------------------------------------------------------
-- Service and authentication
-- ---------------------------------------------------------------------------

def processServiceRequest (payload : List UInt8) : Ssh ω Unit := do
  if payload.length < 5 ∨ payload.head? ≠ some 5 then pure ()
  else
    match (rbufOf payload).getU8.2.getCstring 64 with
    | (none, _) => pure ()
    | (some svc, _) =>
      if cstr svc = ascii "ssh-userauth" then
        sshSendMsg H (((bufInit 64).putU8 6).putCstring "ssh-userauth").data
        setSession fun s => { s with state := .authPending }
      else sshDisconnect H 7 "Service not available"

def sshCheckPassword (username password : List UInt8) : Bool :=
  st.users.any fun u => u.username = cstr username ∧ u.password = cstr password

/-- `SSH_MSG_USERAUTH_FAILURE`, which offers passwords only. -/
def userauthFailure : List UInt8 :=
  (((bufInit 64).putU8 51).putCstring "password").putBool false |>.data

/-- The fields of a request, and what is left behind them. -/
def userauthFields (payload : List UInt8) :
    Option (List UInt8 × List UInt8 × List UInt8 × SshRbuf) :=
  match (rbufOf payload).getU8.2.getCstring 64 with
  | (none, _) => none
  | (some username, r) =>
    match r.getCstring 64 with
    | (none, _) => none
    | (some svc, r) =>
      match r.getCstring 64 with
      | (none, _) => none
      | (some method, r) => some (username, svc, method, r)

def processUserauth (payload : List UInt8) : Ssh ω Unit := do
  if payload.length < 5 ∨ payload.head? ≠ some 50 then pure ()
  else
    match userauthFields payload with
    | none => pure ()
    | some (username, svc, method, r) =>
      if cstr svc ≠ ascii "ssh-userauth" then sshSendMsg H userauthFailure
      else if cstr method = ascii "password" then
        if r.getU8.1 ≠ 0 then sshSendMsg H userauthFailure
        else
          match r.getU8.2.getCstring 128 with
          | (none, _) => pure ()
          | (some password, _) =>
            if sshCheckPassword st username password then
              setSession fun s => { s with username := (cstr username).take 31 }
              sshSendMsg H [52]
              setSession fun s => { s with state := .channelOpen }
            else sshSendMsg H userauthFailure
      else sshSendMsg H userauthFailure

-- ---------------------------------------------------------------------------
-- Channels
-- ---------------------------------------------------------------------------

def sshWindowSize : UInt32 := 1048576

def sshMaxPktSize : UInt32 := 32768

def processChannelOpen (payload : List UInt8) : Ssh ω Unit := do
  if payload.length < 5 ∨ payload.head? ≠ some 90 then pure ()
  else
    match (rbufOf payload).getU8.2.getCstring 64 with
    | (none, _) => pure ()
    | (some chType, r) =>
      let peerChan := r.getU32.1
      let initWin := r.getU32.2.getU32.1
      let maxPkt := r.getU32.2.getU32.2.getU32.1
      if cstr chType ≠ ascii "session" then
        sshSendMsg H (((((bufInit 64).putU8 92).putU32 peerChan).putU32 7).putCstring
          "Unknown channel type" |>.putCstring "").data
      else
        setSession fun s => { s with
          peerChannel := peerChan
          ourChannel := 0
          windowRemote := initWin
          maxPktRemote := maxPkt
          windowLocal := sshWindowSize
          maxPktLocal := sshMaxPktSize }
        sshSendMsg H (((((bufInit 32).putU8 91).putU32 0).putU32 peerChan).putU32
          sshWindowSize |>.putU32 sshMaxPktSize).data

/-- How much of the output goes into the next packet. -/
def outputChunk (s : SshSession) (out : List UInt8) : UInt32 :=
  let chunk := UInt32.ofNat out.length
  let chunk := if s.maxPktRemote - 32 < chunk then s.maxPktRemote - 32 else chunk
  let chunk := if s.windowRemote < chunk then s.windowRemote else chunk
  if 4096 < chunk then 4096 else chunk

/-- The loop of `ssh_execute_and_send`, on the output that is left. It goes on for ever when the
chunks are empty; `fuel` is how far it is followed then. -/
def sshSendOutput : ℕ → List UInt8 → Ssh ω Unit
  | 0, out => if out.length = 0 then pure () else stop
  | fuel + 1, out => do
    if out.length = 0 then pure ()
    else
      let w ← look
      let chunk := outputChunk w.session out
      sshSendMsg H ((((bufInit 4100).putU8 94).putU32 w.session.ourChannel).putString
        (out.take chunk.toNat)).data
      setSession fun s => { s with windowRemote := s.windowRemote - chunk }
      sshSendOutput fuel (out.drop chunk.toNat)

/-- The callback keeps what fits into its array. -/
def sshExecuteAndSend (line : List UInt8) : Ssh ω Unit := do
  note (.executed line)
  let out ← useHost (H.shellExecuteLine line)
  sshSendOutput H H.patience (out.take 4095)

/-- A message of a type and our channel. -/
def channelMsg (type : UInt8) (chan : UInt32) : List UInt8 := type :: be32 chan

/-- `CHANNEL_SUCCESS` or `CHANNEL_FAILURE`, if a reply is wanted. -/
def replyIf (want : UInt8) (type : UInt8) : Ssh ω Unit := do
  if want = 0 then pure ()
  else
    let w ← look
    sshSendMsg H (((bufInit 16).putU8 type).putU32 w.session.ourChannel).data

/-- Text to the client, in an array of `cap` bytes. -/
def sendText (cap : ℕ) (text : String) : Ssh ω Unit := do
  let w ← look
  sshSendMsg H ((((bufInit cap).putU8 94).putU32 w.session.ourChannel).putCstring text).data

/-- The four sizes that are read from here on. -/
def ptySizes (term : List UInt8) (r : SshRbuf) : SshPty :=
  ⟨term, r.getU32.1.toUInt16, r.getU32.2.getU32.1.toUInt16, r.getU32.2.getU32.2.getU32.1.toUInt16,
    r.getU32.2.getU32.2.getU32.2.getU32.1.toUInt16⟩

def ptyRequest (r : SshRbuf) (wantReply : UInt8) : Ssh ω Unit := do
  match r.getCstring 32 with
  | (none, _) => pure ()
  | (some term, r) =>
    setSession fun s => { s with pty := ptySizes term r }
    replyIf H wantReply 99

def shellRequest (wantReply : UInt8) : Ssh ω Unit := do
  setSession fun s => { s with state := .shellRunning }
  replyIf H wantReply 99
  sendText H 256 "\r\nLestraOS Shell (lsh) - type 'help' for commands\r\n> "

def execRequest (r : SshRbuf) (wantReply : UInt8) : Ssh ω Unit := do
  match r.getCstring 512 with
  | (none, _) => pure ()
  | (some command, _) =>
    setSession fun s => { s with state := .shellRunning }
    replyIf H wantReply 99
    sshExecuteAndSend H (cstr command)
    let w ← look
    sshSendMsg H (channelMsg 96 w.session.ourChannel)
    sshSendMsg H (((((bufInit 16).putU8 98).putU32 w.session.ourChannel).putCstring
      "exit-status").putBool false |>.putU32 0).data
    sshSendMsg H (channelMsg 97 w.session.ourChannel)
    setSession fun s => { s with state := .channelOpen }

def processChannelRequest (payload : List UInt8) : Ssh ω Unit := do
  if payload.length < 5 ∨ payload.head? ≠ some 98 then pure ()
  else
    match (rbufOf payload).getU8.2.getU32.2.getCstring 64 with
    | (none, _) => pure ()
    | (some reqType, r) =>
      let wantReply := r.getU8.1
      let r := r.getU8.2
      if cstr reqType = ascii "pty-req" then ptyRequest H r wantReply
      else if cstr reqType = ascii "shell" then shellRequest H wantReply
      else if cstr reqType = ascii "exec" then execRequest H r wantReply
      else if cstr reqType = ascii "window-change" then
        setSession fun s => { s with pty := ptySizes s.pty.term r }
      else if cstr reqType = ascii "env" then replyIf H wantReply 99
      else if cstr reqType = ascii "signal" then pure ()
      else replyIf H wantReply 100

/-- `sizeof(line_buf)`. -/
def lineBufSize : ℕ := 8192

/-- One byte of input, and whether the loop goes on. -/
def channelByte (ch : UInt8) : Ssh ω Bool := do
  let w ← look
  let s := w.session
  if ch = '\n'.toUInt8 ∨ ch = '\r'.toUInt8 then
    if 0 < s.lineBuf.length then
      if s.lineBuf = ascii "exit" then
        sshSendMsg H (channelMsg 96 s.ourChannel)
        sshSendMsg H (channelMsg 97 s.ourChannel)
        setSession fun s => { s with inUse := false }
        pure false
      else
        sshExecuteAndSend H s.lineBuf
        setSession fun s => { s with lineBuf := [] }
        sendText H 64 "\r\n> "
        pure true
    else pure true
  else if ch = 127 ∨ ch = 8 then
    setSession fun s => { s with lineBuf := s.lineBuf.dropLast }
    pure true
  else if ch = 3 then
    setSession fun s => { s with lineBuf := [] }
    sendText H 64 "\r\n> "
    pure true
  else if 32 ≤ ch ∧ ch < 127 then
    if s.lineBuf.length < lineBufSize - 1 then
      setSession fun s => { s with lineBuf := s.lineBuf ++ [ch] }
    pure true
  else pure true

def channelBytes : List UInt8 → Ssh ω Unit
  | [] => pure ()
  | ch :: data => do
    if ← channelByte H ch then channelBytes data else pure ()

def processChannelData (payload : List UInt8) : Ssh ω Unit := do
  if payload.length < 9 ∨ payload.head? ≠ some 94 then pure ()
  else
    let r := (rbufOf payload).getU8.2
    match r.getU32.2.getString with
    | (none, _) => pure ()
    | (some slice, r') =>
      let w ← look
      if r.getU32.1 ≠ w.session.ourChannel then pure ()
      else if r'.data.length < slice.start + slice.len then stop
      else channelBytes H (r'.slice slice)

def processWindowAdjust (payload : List UInt8) : Ssh ω Unit :=
  setSession fun s =>
    if payload.length < 9 ∨ payload.head? ≠ some 93 then s
    else
      let r := (rbufOf payload).getU8.2
      if r.getU32.1 = s.ourChannel then
        { s with windowRemote := s.windowRemote + r.getU32.2.getU32.1 }
      else s

def processChannelClose (payload : List UInt8) : Ssh ω Unit := do
  if payload.length < 5 ∨ payload.head? ≠ some 97 then pure ()
  else
    let w ← look
    if (rbufOf payload).getU8.2.getU32.1 = w.session.ourChannel then
      sshSendMsg H (channelMsg 97 w.session.ourChannel)
      setSession fun s => { s with inUse := false }
    else pure ()

/-- All global requests are denied. -/
def processGlobalRequest (payload : List UInt8) : Ssh ω Unit := do
  if payload.length < 5 ∨ payload.head? ≠ some 80 then pure ()
  else if ((rbufOf payload).getU8.2.getCstring 64).2.getU8.1 = 0 then pure ()
  else sshSendMsg H [82]

-- ---------------------------------------------------------------------------
-- Dispatch
-- ---------------------------------------------------------------------------

/-- Which type is handled in which state. -/
def sshProcessPacket (payload : List UInt8) : Ssh ω Unit := do
  let w ← look
  let state := w.session.state
  match payload.head? with
  | none => pure ()
  | some 1 => setSession fun s => { s with inUse := false }
  | some 2 => pure ()
  | some 3 => pure ()
  | some 4 => pure ()
  | some 20 =>
    if state = .kexInitSent ∨ state = .versionSent then
      if ← processKexinit payload then pure ()
      else sshDisconnect H 3 "Algorithm negotiation failed"
    else pure ()
  | some 30 =>
    if state = .kexInitSent then
      if ← processEcdhInit H st payload then pure ()
      else sshDisconnect H 3 "ECDH key exchange failed"
    else pure ()
  | some 21 => if state = .newkeysPending then processNewkeys else pure ()
  | some 5 => if state = .encrypted then processServiceRequest H payload else pure ()
  | some 50 =>
    if state = .encrypted ∨ state = .authPending then processUserauth H st payload else pure ()
  | some 80 => processGlobalRequest H payload
  | some 90 => if state = .channelOpen then processChannelOpen H payload else pure ()
  | some 93 => processWindowAdjust payload
  | some 94 => if state = .shellRunning then processChannelData H payload else pure ()
  | some 95 => pure ()
  | some 96 => pure ()
  | some 97 => processChannelClose H payload
  | some 98 =>
    if state = .channelOpen ∨ state = .shellRunning then processChannelRequest H payload
    else pure ()
  | some _ =>
    sshSendMsg H (((bufInit 12).putU8 3).putU32 (w.session.encRecv.seq - 1)).data

/-- The packets of the receive buffer. Each is longer than a byte, so that there are at most as many
turns as bytes. -/
def packetLoop : ℕ → Ssh ω Unit
  | 0 => pure ()
  | turns + 1 => do
    let w ← look
    let s := w.session
    if ¬ s.inUse ∨ s.rxBuf.length = 0 then pure ()
    else
      let recv := if s.encryptionActive then sshRecvEncPacket s.encRecv.key s.encRecv.seq s.rxBuf
        else sshRecvPacket s.rxBuf
      match recv with
      | .incomplete => pure ()
      | .error => sshDisconnect H 5 "Packet authentication failure"
      | .packet payload consumed =>
        let sealed := if s.encryptionActive then some (s.encRecv.key, s.encRecv.seq) else none
        change fun w => { w with
          session := { w.session with
            rxBuf := s.rxBuf.drop consumed
            encRecv := if s.encryptionActive then { s.encRecv with seq := s.encRecv.seq + 1 }
              else s.encRecv }
          log := w.log ++ [.received payload sealed] }
        sshProcessPacket H st payload
        packetLoop turns

/-- The states from the version exchange on. -/
def SshState.pastVersion : SshState → Bool
  | .init | .versionSent => false
  | _ => true

/-- What has arrived is moved into the receive buffer, as far as there is room. -/
def readAvailable : Ssh ω Unit := do
  let w ← look
  let s := w.session
  let avail := H.tcpRxBuf s.connIdx w.host
  if avail.length = 0 then pure ()
  else
    let toRead := min avail.length (sshBufSize - s.rxBuf.length)
    change fun w => { w with
      session := { w.session with rxBuf := s.rxBuf ++ avail.take toRead }
      host := H.tcpRxTake s.connIdx toRead w.host }
    let now ← useHost H.timerGetMs
    setSession fun s => { s with lastActivity := now }

/-- The version line, if it is there; whether the turn goes on. -/
def versionPhase : Ssh ω Bool := do
  let w ← look
  let s := w.session
  if s.state ≠ .versionSent then pure true
  else
    match processVersion s.rxBuf with
    | none => pure true
    | some none =>
      sshDisconnect H 8 "Invalid client version"
      pure false
    | some (some (consumed, version)) =>
      setSession fun s => { s with
        clientVersion := version
        rxBuf := s.rxBuf.drop consumed
        state := .kexInitSent }
      sendKexinit H
      pure true

def sshTimeoutMs : UInt64 := 300000

/-- The turn of the loop in `ssh_server_tick` for one session. -/
def serviceSession : Ssh ω Unit := do
  let w ← look
  if ¬ w.session.inUse then pure ()
  else if ¬ H.tcpEstablished w.session.connIdx w.host then
    setSession fun s => { s with inUse := false }
  else
    let now ← useHost H.timerGetMs
    if sshTimeoutMs < now - w.session.lastActivity then sshDisconnect H 11 "Idle timeout"
    else
      readAvailable H
      if ← versionPhase H then
        let w ← look
        if w.session.state.pastVersion then packetLoop H st w.session.rxBuf.length else pure ()
      else pure ()

end Lestra
