import Lestra.Lib.Run
import Lestra.Drivers.Pty

/-!
# A PTY's output is a stream

* `expand` — what becomes of the slave's bytes, an unbounded stream
* `slaveWriteFrom_turn` — one turn of a write, up to its end or its next blocking
* `pty_output_stream` — what the master has read and what is in the ring is the expansion of
  what was consumed
-/

namespace Lestra

open PtySys

-- ---------------------------------------------------------------------------
-- Expansion
-- ---------------------------------------------------------------------------

/-- Whether newlines are expanded. -/
def expands (modes : UInt32) : Bool := modes &&& ptyOpost != 0 && modes &&& ptyOnlcr != 0

def expandChar (ch : UInt8) : List UInt8 := if ch = ptyNl then [ptyCr, ptyNl] else [ch]

/-- The output expansion of a stream. -/
def expand (modes : UInt32) (data : List UInt8) : List UInt8 :=
  if expands modes then data.flatMap expandChar else data

@[simp] theorem expand_nil (modes : UInt32) : expand modes [] = [] := by
  unfold expand
  split <;> rfl

theorem expand_append (modes : UInt32) (xs ys : List UInt8) :
    expand modes (xs ++ ys) = expand modes xs ++ expand modes ys := by
  unfold expand
  split
  · exact List.flatMap_append
  · rfl

theorem ptyOnlcrLoop_spec {r : ByteRing} (h : r.Ok) (data : List UInt8) :
    (ptyOnlcrLoop r data).1.Ok ∧ (ptyOnlcrLoop r data).1.bytes =
      r.bytes ++ (data.take (ptyOnlcrLoop r data).2).flatMap expandChar := by
  induction data generalizing r with
  | nil => exact ⟨h, by simp [ptyOnlcrLoop]⟩
  | cons ch rest ih =>
    unfold ptyOnlcrLoop
    by_cases hnl : ch = ptyNl
    · rw [if_pos hnl]
      by_cases hfull : ptyBufferSize - r.count < 2
      · rw [if_pos hfull]
        exact ⟨h, by simp⟩
      · rw [if_neg hfull]
        obtain ⟨hok, hbytes⟩ := ringBufWrite_fits h
          (show [ptyCr, ptyNl].length ≤ r.room from Nat.le_of_not_lt hfull)
        obtain ⟨hok', hbytes'⟩ := ih hok
        refine ⟨hok', ?_⟩
        dsimp only
        rw [hbytes', hbytes, List.take_succ_cons, List.flatMap_cons, expandChar, if_pos hnl,
          List.append_assoc]
    · rw [if_neg hnl]
      by_cases hfull : ptyBufferSize - r.count < 1
      · rw [if_pos hfull]
        exact ⟨h, by simp⟩
      · rw [if_neg hfull]
        obtain ⟨hok, hbytes⟩ := ringBufWrite_fits h
          (show [ch].length ≤ r.room from Nat.le_of_not_lt hfull)
        obtain ⟨hok', hbytes'⟩ := ih hok
        refine ⟨hok', ?_⟩
        dsimp only
        rw [hbytes', hbytes, List.take_succ_cons, List.flatMap_cons, expandChar, if_neg hnl,
          List.append_assoc]

/-- What is consumed is expanded into the ring, byte for byte. -/
theorem ptyOutputRing_spec {p : PtyPair} (h : p.masterOutput.Ok) (data : List UInt8) :
    (ptyOutputRing p data).1.Ok ∧ (ptyOutputRing p data).1.bytes =
      p.masterOutput.bytes ++ expand p.termModes (data.take (ptyOutputRing p data).2) := by
  unfold ptyOutputRing
  by_cases hmode : p.has ptyOpost ∧ p.has ptyOnlcr
  · have hexp : expands p.termModes = true := by
      simpa [expands, PtyPair.has] using hmode
    rw [if_pos hmode, expand, if_pos hexp]
    exact ptyOnlcrLoop_spec h data
  · have hexp : ¬ expands p.termModes = true := by
      simpa [expands, PtyPair.has] using hmode
    rw [if_neg hmode, expand, if_neg hexp]
    obtain ⟨hok, hbytes, hcount⟩ := ringBufWrite_spec h data
    refine ⟨hok, ?_⟩
    rw [hbytes, hcount]
    congr 1
    rcases Nat.le_total data.length p.masterOutput.room with hle | hle
    · rw [Nat.min_eq_left hle, List.take_of_length_le hle, List.take_length]
    · rw [Nat.min_eq_right hle]

-- ---------------------------------------------------------------------------
-- One turn of a call
-- ---------------------------------------------------------------------------

/-- The pair stays open, with its modes. -/
structure Setup (s : PtySys) (modes : UInt32) : Prop where
  inUse : s.pty.inUse = true
  masterOpen : s.pty.masterOpen = true
  slaveOpen : s.pty.slaveOpen = true
  modes : s.pty.termModes = modes

/-- Which sides are open and the modes are what they were. -/
structure SameSetup (s s' : PtySys) : Prop where
  inUse : s'.pty.inUse = s.pty.inUse
  masterOpen : s'.pty.masterOpen = s.pty.masterOpen
  slaveOpen : s'.pty.slaveOpen = s.pty.slaveOpen
  modes : s'.pty.termModes = s.pty.termModes

theorem SameSetup.trans {s s' s'' : PtySys} (h : SameSetup s s') (h' : SameSetup s' s'') :
    SameSetup s s'' :=
  ⟨h'.inUse.trans h.inUse, h'.masterOpen.trans h.masterOpen, h'.slaveOpen.trans h.slaveOpen,
    h'.modes.trans h.modes⟩

theorem Setup.same {s s' : PtySys} {modes : UInt32} (h : Setup s modes) (hs : SameSetup s s') :
    Setup s' modes :=
  ⟨hs.inUse.trans h.inUse, hs.masterOpen.trans h.masterOpen, hs.slaveOpen.trans h.slaveOpen,
    hs.modes.trans h.modes⟩

/-- The output and the calls in progress are, too. -/
structure SameOutput (s s' : PtySys) : Prop extends SameSetup s s' where
  output : s'.pty.masterOutput = s.pty.masterOutput
  calls : s'.calls = s.calls

theorem SameOutput.refl (s : PtySys) : SameOutput s s := ⟨⟨rfl, rfl, rfl, rfl⟩, rfl, rfl⟩

theorem SameOutput.trans {s s' s'' : PtySys} (h : SameOutput s s') (h' : SameOutput s' s'') :
    SameOutput s s'' :=
  ⟨h.toSameSetup.trans h'.toSameSetup, h'.output.trans h.output, h'.calls.trans h.calls⟩

theorem sameOutput_wake (s : PtySys) (w : PtyWaiter) : SameOutput s (s.wake w) := by
  constructor
  · constructor <;> simp
  · simp
  · simp

theorem sameOutput_setLine (s : PtySys) (line : List UInt8) : SameOutput s (s.setLine line) :=
  ⟨⟨rfl, rfl, rfl, rfl⟩, rfl, rfl⟩

theorem sameOutput_setEof (s : PtySys) (eof : Bool) : SameOutput s (s.setEof eof) :=
  ⟨⟨rfl, rfl, rfl, rfl⟩, rfl, rfl⟩

theorem sameOutput_input (s : PtySys) (bytes : List UInt8) : SameOutput s (s.input bytes) :=
  ⟨⟨rfl, rfl, rfl, rfl⟩, rfl, rfl⟩

-- ---------------------------------------------------------------------------
-- A turn of a write
-- ---------------------------------------------------------------------------

theorem ptyOutputProcess_spec {s : PtySys} (hok : s.pty.masterOutput.Ok) (data : List UInt8) :
    (ptyOutputProcess s data).1.pty.masterOutput.Ok ∧
      (ptyOutputProcess s data).1.pty.masterOutput.bytes = s.pty.masterOutput.bytes ++
        expand s.pty.termModes (data.take (ptyOutputProcess s data).2) := by
  have hring : (ptyOutputProcess s data).1.pty.masterOutput = (ptyOutputRing s.pty data).1 := by
    unfold ptyOutputProcess
    dsimp only
    split
    · rw [wake_masterOutput]
      rfl
    · rfl
  rw [hring]
  exact ptyOutputRing_spec hok data

theorem ptyOutputProcess_same (s : PtySys) (data : List UInt8) :
    SameSetup s (ptyOutputProcess s data).1 ∧ (ptyOutputProcess s data).1.calls = s.calls := by
  unfold ptyOutputProcess
  dsimp only
  split
  · exact ⟨⟨wake_inUse .., wake_masterOpen .., wake_slaveOpen .., wake_termModes ..⟩,
      wake_calls ..⟩
  · exact ⟨⟨rfl, rfl, rfl, rfl⟩, rfl⟩

/-- What a write does up to its end or its next blocking: `part` is what it consumes. -/
structure WriteTurn (s : PtySys) (pid : ℤ) (data : List UInt8) (total : ℕ) (s' : PtySys)
    (ret : Option ℤ) (part : List UInt8) : Prop where
  same : SameSetup s s'
  ok : s'.pty.masterOutput.Ok
  bytes : s'.pty.masterOutput.bytes =
    s.pty.masterOutput.bytes ++ expand s.pty.termModes part
  outcome : (ret.isSome ∧ part = data.drop total ∧
      s'.calls = Function.update s.calls pid none) ∨
    ∃ k, ret = none ∧ total ≤ k ∧ k ≤ data.length ∧ data.take total ++ part = data.take k ∧
      s'.calls = Function.update s.calls pid (some (.slaveWrite data k))

theorem slaveWriteFrom_turn {s : PtySys} (hopen : s.pty.masterOpen = true)
    (hok : s.pty.masterOutput.Ok) (pid : ℤ) (data : List UInt8) (total : ℕ)
    (hle : total ≤ data.length) (moved : List UInt8) :
    ∃ part, (slaveWriteFrom s pid data total moved).2.moved = moved ++ part ∧
      WriteTurn s pid data total (slaveWriteFrom s pid data total moved).1
        (slaveWriteFrom s pid data total moved).2.ret part := by
  induction hn : data.length - total using Nat.strong_induction_on generalizing s total moved with
  | _ n ih =>
    rw [slaveWriteFrom]
    by_cases hmore : total < data.length
    · rw [dif_pos hmore]
      have hspec := ptyOutputProcess_spec hok (data.drop total)
      have hsame := ptyOutputProcess_same s (data.drop total)
      have hbound := ptyOutputProcess_le s (data.drop total)
      generalize ptyOutputProcess s (data.drop total) = out at hspec hsame hbound ⊢
      obtain ⟨s', consumed⟩ := out
      obtain ⟨hok', hbytes⟩ := hspec
      obtain ⟨hsame, hcalls⟩ := hsame
      dsimp only at hok' hbytes hsame hcalls hbound ⊢
      have hopen' : s'.pty.masterOpen = true := hsame.masterOpen.trans hopen
      by_cases hnone : consumed = 0
      · subst hnone
        rw [dif_pos rfl, hopen', if_neg (by decide)]
        rw [List.take_zero] at hbytes
        refine ⟨[], (List.append_nil _).symm, ⟨hsame.inUse, hsame.masterOpen, hsame.slaveOpen,
          hsame.modes⟩, hok', hbytes, Or.inr ⟨total, rfl, le_rfl, hle, List.append_nil _, ?_⟩⟩
        rw [← hcalls]
        rfl
      · rw [dif_neg hnone]
        rw [List.length_drop] at hbound
        obtain ⟨part, hmoved, hturn⟩ := ih (data.length - (total + consumed)) (by omega) hopen' hok'
          (total + consumed) (by omega) (moved ++ (data.drop total).take consumed) rfl
        have htake : data.take total ++ (data.drop total).take consumed =
            data.take (total + consumed) := List.take_add.symm
        refine ⟨(data.drop total).take consumed ++ part, ?_, hsame.trans hturn.same, hturn.ok, ?_, ?_⟩
        · rw [hmoved, List.append_assoc]
        · rw [hturn.bytes, hbytes, hsame.modes, expand_append, List.append_assoc]
        · rw [← hcalls]
          rcases hturn.outcome with ⟨hret, hpart, hdone⟩ | ⟨k, hret, hk, hk', hpart, hblocked⟩
          · refine Or.inl ⟨hret, ?_, hdone⟩
            rw [hpart, ← List.drop_drop, List.take_append_drop]
          · refine Or.inr ⟨k, hret, by omega, hk', ?_, hblocked⟩
            rw [← hpart, ← List.append_assoc, htake]
    · rw [dif_neg hmore]
      have htotal : total = data.length := by omega
      subst htotal
      exact ⟨[], (List.append_nil _).symm, ⟨rfl, rfl, rfl, rfl⟩, hok,
        by rw [expand_nil, List.append_nil]; rfl, Or.inl ⟨rfl, by rw [List.drop_length], rfl⟩⟩

-- ---------------------------------------------------------------------------
-- Input
-- ---------------------------------------------------------------------------

section Quiet

variable {s : PtySys} (hecho : s.pty.has ptyEcho = false)

include hecho

theorem ptySignal_same (ch : UInt8) (signum : ℕ) : SameOutput s (ptySignal s ch signum) := by
  have hgroup : SameOutput s (ptySendSignalGroup s signum) := by
    unfold ptySendSignalGroup
    split
    · exact SameOutput.refl s
    · exact ⟨⟨rfl, rfl, rfl, rfl⟩, rfl, rfl⟩
  have hquiet : ptyEchoSignal s ch = s := by
    simp [ptyEchoSignal, hecho]
  unfold ptySignal
  rw [hquiet]
  exact ((hgroup.trans (sameOutput_setLine _ _)).trans (sameOutput_setEof _ _)).trans
    (sameOutput_wake _ _)

theorem ptyEchoErase_quiet : ptyEchoErase s = s := by
  simp [ptyEchoErase, hecho]

theorem ptyEchoChar_quiet (ch : UInt8) : ptyEchoChar s ch = s := by
  simp [ptyEchoChar, hecho]

theorem ptyErase_same : SameOutput s (ptyErase s) := by
  unfold ptyErase
  split
  · have hquiet : ptyEchoErase (s.setLine s.pty.line.dropLast) = s.setLine s.pty.line.dropLast :=
      ptyEchoErase_quiet hecho
    rw [hquiet]
    exact sameOutput_setLine _ _
  · exact SameOutput.refl s

end Quiet

/-- Echo stays off. -/
theorem SameSetup.has {s s' : PtySys} (h : SameSetup s s') (mode : UInt32) :
    s'.pty.has mode = s.pty.has mode := by
  rw [PtyPair.has, h.modes, PtyPair.has]

theorem ptyEraseWhile_same (p : UInt8 → Bool) (fuel : ℕ) {s : PtySys}
    (hecho : s.pty.has ptyEcho = false) : SameOutput s (ptyEraseWhile p fuel s) := by
  induction fuel generalizing s with
  | zero => exact SameOutput.refl s
  | succ fuel ih =>
    unfold ptyEraseWhile
    split
    · exact SameOutput.refl s
    · split
      · have herase := ptyErase_same hecho
        exact herase.trans (ih ((herase.has _).trans hecho))
      · exact SameOutput.refl s

theorem ptyEof_same (s : PtySys) : SameOutput s (ptyEof s) := by
  unfold ptyEof
  split
  · exact ((sameOutput_input _ _).trans (sameOutput_setLine _ _)).trans (sameOutput_wake _ _)
  · exact (sameOutput_setEof _ _).trans (sameOutput_wake _ _)

theorem ptyWordErase_same {s : PtySys} (hecho : s.pty.has ptyEcho = false) :
    SameOutput s (ptyWordErase s) := by
  have hblanks := ptyEraseWhile_same (· == 0x20) s.pty.line.length hecho
  exact hblanks.trans (ptyEraseWhile_same _ _ ((hblanks.has _).trans hecho))

theorem ptyKill_same {s : PtySys} (hecho : s.pty.has ptyEcho = false)
    (hechok : s.pty.has ptyEchok = false) : SameOutput s (ptyKill s) := by
  unfold ptyKill
  rw [hechok, hecho]
  exact sameOutput_setLine _ _

theorem ptyNewline_same {s : PtySys} (hecho : s.pty.has ptyEcho = false) :
    SameOutput s (ptyNewline s) := by
  unfold ptyNewline
  dsimp only
  generalize (if s.pty.line.length < ptyBufferSize - 1 then s.pty.line ++ [ptyNl]
    else s.pty.line) = line
  have hwake : SameOutput s (if 0 < (ringBufWrite s.pty.slaveInput line).2
      then (s.input line).wake .slaveRead else s.input line) := by
    split
    · exact (sameOutput_input _ _).trans (sameOutput_wake _ _)
    · exact sameOutput_input _ _
  generalize (if 0 < (ringBufWrite s.pty.slaveInput line).2
      then (s.input line).wake .slaveRead else s.input line) = woken at hwake ⊢
  rw [(hwake.has _).trans hecho]
  exact (hwake.trans (sameOutput_setLine _ _)).trans (sameOutput_setEof _ _)

theorem ptyLineChar_same {s : PtySys} (hecho : s.pty.has ptyEcho = false) (ch : UInt8) :
    SameOutput s (ptyLineChar s ch) := by
  unfold ptyLineChar
  dsimp only
  have hflush : SameOutput s (if ptyBufferSize - 1 ≤ s.pty.line.length then
      ((s.input s.pty.line).wake .slaveRead).setLine [] else s) := by
    split
    · exact ((sameOutput_input _ _).trans (sameOutput_wake _ _)).trans (sameOutput_setLine _ _)
    · exact SameOutput.refl s
  generalize (if ptyBufferSize - 1 ≤ s.pty.line.length then
      ((s.input s.pty.line).wake .slaveRead).setLine [] else s) = flushed at hflush ⊢
  have hadd := hflush.trans (sameOutput_setLine flushed (flushed.pty.line ++ [ch]))
  rw [ptyEchoChar_quiet ((hadd.has _).trans hecho), (hadd.has _).trans hecho]
  exact hadd

theorem ptyRawChar_same {s : PtySys} (hecho : s.pty.has ptyEcho = false) (ch : UInt8) :
    SameOutput s (ptyRawChar s ch) := by
  have hinput := sameOutput_input s [ch]
  unfold ptyRawChar
  dsimp only
  rw [(hinput.has _).trans hecho]
  exact hinput.trans (sameOutput_wake _ _)

/-- Without echo nothing that is typed reaches the output. -/
theorem ptyInputProcess_same {s : PtySys} (hecho : s.pty.has ptyEcho = false)
    (hechok : s.pty.has ptyEchok = false) (ch : UInt8) : SameOutput s (ptyInputProcess s ch) := by
  unfold ptyInputProcess
  dsimp only
  split
  · exact ptySignal_same hecho _ _
  split
  · exact ptySignal_same hecho _ _
  split
  · exact ptySignal_same hecho _ _
  split
  · exact ptyEof_same s
  split
  · exact ptyErase_same hecho
  split
  · exact ptyWordErase_same hecho
  split
  · exact ptyKill_same hecho hechok
  split
  · split
    · exact ptyNewline_same hecho
    · exact ptyLineChar_same hecho _
  · exact ptyRawChar_same hecho _

theorem ptyMasterWriteLoop_same {s : PtySys} (hecho : s.pty.has ptyEcho = false)
    (hechok : s.pty.has ptyEchok = false) (data : List UInt8) :
    SameOutput s (ptyMasterWriteLoop s data).1 := by
  induction data generalizing s with
  | nil => exact SameOutput.refl s
  | cons ch rest ih =>
    have hone := ptyInputProcess_same hecho hechok ch
    unfold ptyMasterWriteLoop
    dsimp only
    split
    · exact hone
    · exact hone.trans (ih ((hone.has _).trans hecho) ((hone.has _).trans hechok))

-- ---------------------------------------------------------------------------
-- Runs
-- ---------------------------------------------------------------------------

/-- A run seen from outside: the bytes that writes have consumed and reads returned, what the
write that a process is in has consumed so far, and each completed write with the bytes it
consumed. -/
structure PtyTrace where
  sys : PtySys
  consumed : List UInt8
  returned : List UInt8
  progress : ℤ → List UInt8
  completed : List (List UInt8 × List UInt8)

namespace PtyTrace

def start (modes : UInt32) (pgid : ℤ) : PtyTrace :=
  ⟨PtySys.start modes pgid, [], [], fun _ => [], []⟩

/-- What a step that worked on this call adds. -/
def record (t : PtyTrace) (out : PtySys × PtyResult) : Option (ℤ × PtyCall) → PtyTrace
  | some (pid, .slaveWrite data _) =>
    let got := t.progress pid ++ out.2.moved
    { t with
      sys := out.1
      consumed := t.consumed ++ out.2.moved
      progress := Function.update t.progress pid (if out.2.ret.isSome then [] else got)
      completed := if out.2.ret.isSome then t.completed ++ [(data, got)] else t.completed }
  | some (_, .masterRead _) => { t with sys := out.1, returned := t.returned ++ out.2.moved }
  | _ => { t with sys := out.1 }

def step (t : PtyTrace) (op : PtyOp) : PtyTrace := t.record (t.sys.step op) (t.sys.callOf op)

end PtyTrace

/-- The operations that leave the modes fixed and both sides open. -/
def PtyOp.Fixed : PtyOp → Prop
  | .setModes _ => False
  | .close _ => False
  | _ => True

/-- The write that a process is in, and how far it is. -/
def writing : Option PtyCall → Option (List UInt8 × ℕ)
  | some (.slaveWrite data total) => some (data, total)
  | _ => none

/-- What holds between any two steps. -/
structure OutputStream (modes : UInt32) (t : PtyTrace) : Prop where
  setup : Setup t.sys modes
  ok : t.sys.pty.masterOutput.Ok
  flow : t.returned ++ t.sys.pty.masterOutput.bytes = expand modes t.consumed
  idle : ∀ pid, writing (t.sys.calls pid) = none → t.progress pid = []
  busy : ∀ pid data total, writing (t.sys.calls pid) = some (data, total) →
    total ≤ data.length ∧ t.progress pid = data.take total
  completed : ∀ c ∈ t.completed, c.2 = c.1

theorem outputStream_start (modes : UInt32) (pgid : ℤ) :
    OutputStream modes (PtyTrace.start modes pgid) :=
  ⟨⟨rfl, rfl, rfl, rfl⟩, ByteRing.empty_ok, (expand_nil modes).symm, fun _ _ => rfl,
    nofun, nofun⟩

/-- A step that returns `data` to the master. -/
theorem OutputStream.read {modes : UInt32} {t : PtyTrace} (h : OutputStream modes t) {s : PtySys}
    (hsame : SameSetup t.sys s) (hok : s.pty.masterOutput.Ok) {data : List UInt8}
    (hbytes : data ++ s.pty.masterOutput.bytes = t.sys.pty.masterOutput.bytes)
    (hwriting : ∀ pid, writing (s.calls pid) = writing (t.sys.calls pid)) :
    OutputStream modes { t with sys := s, returned := t.returned ++ data } := by
  refine ⟨h.setup.same hsame, hok, ?_, fun pid hpid => ?_, fun pid data total hpid => ?_,
    h.completed⟩
  · rw [List.append_assoc, hbytes]
    exact h.flow
  · rw [hwriting] at hpid
    exact h.idle pid hpid
  · rw [hwriting] at hpid
    exact h.busy pid data total hpid

/-- A step of anything but a write or a master's read. -/
theorem OutputStream.other {modes : UInt32} {t : PtyTrace} (h : OutputStream modes t) {s : PtySys}
    (hsame : SameSetup t.sys s) (hout : s.pty.masterOutput = t.sys.pty.masterOutput)
    (hwriting : ∀ pid, writing (s.calls pid) = writing (t.sys.calls pid)) :
    OutputStream modes { t with sys := s } := by
  have hnone : [] ++ s.pty.masterOutput.bytes = t.sys.pty.masterOutput.bytes := by
    rw [hout, List.nil_append]
  have hread := h.read hsame (hout ▸ h.ok) hnone hwriting
  rwa [List.append_nil] at hread

/-- Process `pid` is now in `call`, in which it has consumed `got`. -/
theorem OutputStream.busy_update {modes : UInt32} {t : PtyTrace} (h : OutputStream modes t) (pid : ℤ)
    (call : Option PtyCall) (got : List UInt8) (hidle : writing call = none → got = [])
    (hbusy : ∀ data total, writing call = some (data, total) →
      total ≤ data.length ∧ got = data.take total) :
    (∀ pid', writing (Function.update t.sys.calls pid call pid') = none →
      Function.update t.progress pid got pid' = []) ∧
    ∀ pid' data total, writing (Function.update t.sys.calls pid call pid') = some (data, total) →
      total ≤ data.length ∧ Function.update t.progress pid got pid' = data.take total := by
  refine ⟨fun pid' => ?_, fun pid' => ?_⟩
  · by_cases heq : pid' = pid
    · subst heq
      rwa [Function.update_self, Function.update_self]
    · rw [Function.update_of_ne heq, Function.update_of_ne heq]
      exact h.idle pid'
  · by_cases heq : pid' = pid
    · subst heq
      rwa [Function.update_self, Function.update_self]
    · rw [Function.update_of_ne heq, Function.update_of_ne heq]
      exact h.busy pid'

/-- A turn of a write, whatever becomes of it. -/
theorem OutputStream.write {modes : UInt32} {t : PtyTrace} (h : OutputStream modes t) {s s' : PtySys}
    (hsame : SameOutput t.sys s) {pid : ℤ} {data : List UInt8} {total : ℕ} {ret : Option ℤ}
    {part : List UInt8} (hprogress : t.progress pid = data.take total)
    (hturn : WriteTurn s pid data total s' ret part) :
    OutputStream modes
      { t with
        sys := s'
        consumed := t.consumed ++ part
        progress := Function.update t.progress pid
          (if ret.isSome then [] else t.progress pid ++ part)
        completed := if ret.isSome then t.completed ++ [(data, t.progress pid ++ part)]
          else t.completed } := by
  have hsetup : Setup s' modes := h.setup.same (hsame.toSameSetup.trans hturn.same)
  have hmodes : s.pty.termModes = modes := hsame.modes.trans h.setup.modes
  have hflow : t.returned ++ s'.pty.masterOutput.bytes = expand modes (t.consumed ++ part) := by
    rw [hturn.bytes, hsame.output, hmodes, expand_append, ← h.flow, List.append_assoc]
  rcases hturn.outcome with ⟨hret, hpart, hcalls⟩ | ⟨k, hret, -, hk, hpart, hcalls⟩
  · have hall : t.progress pid ++ part = data := by rw [hprogress, hpart, List.take_append_drop]
    rw [hsame.calls] at hcalls
    rw [hret, if_pos rfl, if_pos rfl, hall]
    obtain ⟨hidle, hbusy⟩ := h.busy_update pid none [] (fun _ => rfl) nofun
    refine ⟨hsetup, hturn.ok, hflow, hcalls ▸ hidle, hcalls ▸ hbusy, fun c hc => ?_⟩
    rcases List.mem_append.mp hc with hold | hnew
    · exact h.completed c hold
    · rw [List.mem_singleton.mp hnew]
  · have hsofar : t.progress pid ++ part = data.take k := by rw [hprogress, hpart]
    rw [hsame.calls] at hcalls
    rw [hret, if_neg (by decide), if_neg (by decide), hsofar]
    obtain ⟨hidle, hbusy⟩ := h.busy_update pid (some (.slaveWrite data k)) (data.take k)
      nofun (fun data' total' heq => by
        obtain ⟨rfl, rfl⟩ := Prod.mk.inj (Option.some.inj heq)
        exact ⟨hk, rfl⟩)
    exact ⟨hsetup, hturn.ok, hflow, hcalls ▸ hidle, hcalls ▸ hbusy, h.completed⟩

/-- A process that is in no write leaves or enters another call. -/
theorem writing_update {calls : ℤ → Option PtyCall} {pid : ℤ} {call : Option PtyCall}
    (hbefore : writing (calls pid) = none) (hafter : writing call = none) (pid' : ℤ) :
    writing (Function.update calls pid call pid') = writing (calls pid') := by
  by_cases hpid : pid' = pid
  · subst hpid
    rw [Function.update_self, hbefore, hafter]
  · rw [Function.update_of_ne hpid]

-- ---------------------------------------------------------------------------
-- The master's reads
-- ---------------------------------------------------------------------------

theorem masterReadFrom_turn {s : PtySys} (hok : s.pty.masterOutput.Ok) (pid : ℤ) (count : ℕ) :
    SameSetup s (masterReadFrom s pid count).1 ∧
      (masterReadFrom s pid count).1.pty.masterOutput.Ok ∧
      (masterReadFrom s pid count).2.moved ++ (masterReadFrom s pid count).1.pty.masterOutput.bytes =
        s.pty.masterOutput.bytes ∧
      ∃ call, writing call = none ∧
        (masterReadFrom s pid count).1.calls = Function.update s.calls pid call := by
  unfold masterReadFrom
  split
  · split
    · exact ⟨⟨rfl, rfl, rfl, rfl⟩, hok, rfl, none, rfl, rfl⟩
    · exact ⟨⟨rfl, rfl, rfl, rfl⟩, hok, rfl, some (.masterRead count), rfl, rfl⟩
  · dsimp only
    obtain ⟨hok', hdata, hrest⟩ := ringBufRead_spec hok (min count s.pty.masterOutput.count)
    generalize ringBufRead s.pty.masterOutput (min count s.pty.masterOutput.count) = out
      at hok' hdata hrest ⊢
    have hsplit : out.2 ++ out.1.bytes = s.pty.masterOutput.bytes := by
      rw [hdata, hrest, List.take_append_drop]
    split
    · refine ⟨⟨?_, ?_, ?_, ?_⟩, ?_, ?_, none, rfl, ?_⟩ <;> simp [PtySys.finish, PtySys.setPty] <;>
        assumption
    · exact ⟨⟨rfl, rfl, rfl, rfl⟩, hok', hsplit, none, rfl, rfl⟩

/-- A slave's read leaves the output alone. -/
theorem slaveReadFrom_turn (s : PtySys) (pid : ℤ) (canonical : Bool) (count : ℕ) :
    SameSetup s (slaveReadFrom s pid canonical count).1 ∧
      (slaveReadFrom s pid canonical count).1.pty.masterOutput = s.pty.masterOutput ∧
      ∃ call, writing call = none ∧
        (slaveReadFrom s pid canonical count).1.calls = Function.update s.calls pid call := by
  have htake : ∀ n, SameSetup s (slaveTake s pid n).1 ∧
      (slaveTake s pid n).1.pty.masterOutput = s.pty.masterOutput ∧
      ∃ call, writing call = none ∧
        (slaveTake s pid n).1.calls = Function.update s.calls pid call := by
    intro n
    unfold slaveTake
    generalize ringBufRead s.pty.slaveInput n = out
    obtain ⟨r, data⟩ := out
    dsimp only
    split
    · refine ⟨⟨?_, ?_, ?_, ?_⟩, ?_, none, rfl, ?_⟩ <;> simp [PtySys.finish, PtySys.setPty]
    · exact ⟨⟨rfl, rfl, rfl, rfl⟩, rfl, none, rfl, rfl⟩
  unfold slaveReadFrom
  split
  · split
    · split
      · exact ⟨⟨rfl, rfl, rfl, rfl⟩, rfl, none, rfl, rfl⟩
      · exact ⟨⟨rfl, rfl, rfl, rfl⟩, rfl, some (.slaveRead true count), rfl, rfl⟩
    · split
      · exact ⟨⟨rfl, rfl, rfl, rfl⟩, rfl, none, rfl, rfl⟩
      · exact htake _
  · split
    · split
      · exact ⟨⟨rfl, rfl, rfl, rfl⟩, rfl, none, rfl, rfl⟩
      · exact ⟨⟨rfl, rfl, rfl, rfl⟩, rfl, some (.slaveRead false count), rfl, rfl⟩
    · exact htake _

-- ---------------------------------------------------------------------------
-- Steps and runs
-- ---------------------------------------------------------------------------

/-- A process that goes on clears its field. -/
theorem sameOutput_waiter (s : PtySys) (waiter : PtyWaiter → ℤ) :
    SameOutput s (s.setPty { s.pty with waiter := waiter }) :=
  ⟨⟨rfl, rfl, rfl, rfl⟩, rfl, rfl⟩

section Steps

variable {modes : UInt32} {t : PtyTrace} (h : OutputStream modes t)

include h

/-- The call that a process makes or goes on with; `s` is the pair when it does. -/
theorem outputStream_masterRead {s : PtySys} (hsame : SameOutput t.sys s) (pid : ℤ) (count : ℕ)
    (hbefore : writing (t.sys.calls pid) = none) :
    OutputStream modes
      (t.record (masterReadFrom s pid count) (some (pid, .masterRead count))) := by
  have hok : s.pty.masterOutput.Ok := hsame.output ▸ h.ok
  obtain ⟨hsetup, hok', hbytes, call, hcall, hcalls⟩ := masterReadFrom_turn hok pid count
  refine h.read (hsame.toSameSetup.trans hsetup) hok' (hbytes.trans (by rw [hsame.output]))
    fun pid' => ?_
  rw [hcalls, hsame.calls, writing_update hbefore hcall]

theorem outputStream_slaveRead {s : PtySys} (hsame : SameOutput t.sys s) (pid : ℤ)
    (canonical canonical' : Bool) (count : ℕ) (hbefore : writing (t.sys.calls pid) = none) :
    OutputStream modes (t.record (slaveReadFrom s pid canonical count)
      (some (pid, .slaveRead canonical' count))) := by
  obtain ⟨hsetup, hout, call, hcall, hcalls⟩ := slaveReadFrom_turn s pid canonical count
  refine h.other (hsame.toSameSetup.trans hsetup) (hout.trans hsame.output) fun pid' => ?_
  rw [hcalls, hsame.calls, writing_update hbefore hcall]

theorem outputStream_slaveWrite {s : PtySys} (hsame : SameOutput t.sys s) (pid : ℤ)
    (data : List UInt8) (total : ℕ) (hle : total ≤ data.length)
    (hprogress : t.progress pid = data.take total) :
    OutputStream modes
      (t.record (slaveWriteFrom s pid data total []) (some (pid, .slaveWrite data total))) := by
  have hopen : s.pty.masterOpen = true := hsame.masterOpen.trans h.setup.masterOpen
  have hok : s.pty.masterOutput.Ok := hsame.output ▸ h.ok
  obtain ⟨part, hmoved, hturn⟩ := slaveWriteFrom_turn hopen hok pid data total hle []
  rw [List.nil_append] at hmoved
  rw [← hmoved] at hturn
  exact h.write hsame hprogress hturn

theorem outputStream_resume (pid : ℤ) : OutputStream modes (t.step (.resume pid)) := by
  unfold PtyTrace.step PtySys.step PtySys.callOf
  dsimp only
  cases hcall : t.sys.calls pid with
  | none =>
    rw [Option.map_none, ite_self]
    exact h
  | some call =>
    by_cases hblocked : t.sys.blocked pid = true
    · dsimp only
      rw [if_pos hblocked, if_pos hblocked]
      exact h
    · dsimp only
      rw [if_neg hblocked, if_neg hblocked, Option.map_some]
      have hsame := sameOutput_waiter t.sys (Function.update t.sys.pty.waiter call.waiter 0)
      cases call with
      | masterRead count => exact outputStream_masterRead h hsame pid count (by rw [hcall]; rfl)
      | slaveRead canonical count =>
        exact outputStream_slaveRead h hsame pid canonical canonical count (by rw [hcall]; rfl)
      | slaveWrite data total =>
        obtain ⟨hle, hprogress⟩ := h.busy pid data total (by rw [hcall]; rfl)
        exact outputStream_slaveWrite h hsame pid data total hle hprogress

theorem outputStream_masterWrite (hecho : modes &&& ptyEcho = 0) (hechok : modes &&& ptyEchok = 0)
    (pid : ℤ) (data : List UInt8) (hbefore : writing (t.sys.calls pid) = none) :
    OutputStream modes (t.record (ptyMasterWrite t.sys pid data) none) := by
  have hoff : t.sys.pty.has ptyEcho = false := by
    rw [PtyPair.has, h.setup.modes, hecho]
    rfl
  have hoff' : t.sys.pty.has ptyEchok = false := by
    rw [PtyPair.has, h.setup.modes, hechok]
    rfl
  have hloop := ptyMasterWriteLoop_same hoff hoff' data
  unfold ptyMasterWrite
  rw [h.setup.masterOpen, h.setup.inUse, h.setup.slaveOpen]
  refine h.other ⟨hloop.inUse, hloop.masterOpen, hloop.slaveOpen, hloop.modes⟩ hloop.output
    fun pid' => ?_
  change writing (Function.update (ptyMasterWriteLoop t.sys data).1.calls pid none pid') = _
  rw [hloop.calls, writing_update hbefore rfl]

theorem outputStream_step (hecho : modes &&& ptyEcho = 0) (hechok : modes &&& ptyEchok = 0)
    (op : PtyOp) (hop : op.Fixed) : OutputStream modes (t.step op) := by
  have hsame := SameOutput.refl t.sys
  cases op with
  | setModes m => exact hop.elim
  | close isMaster => exact hop.elim
  | resume pid => exact outputStream_resume h pid
  | wake pid => exact h.other ⟨rfl, rfl, rfl, rfl⟩ rfl fun _ => rfl
  | masterWrite pid data =>
    unfold PtyTrace.step PtySys.step PtySys.callOf
    dsimp only
    cases hcall : t.sys.calls pid with
    | some call => exact h
    | none => exact outputStream_masterWrite h hecho hechok pid data (by rw [hcall]; rfl)
  | masterRead pid count =>
    unfold PtyTrace.step PtySys.step PtySys.callOf
    dsimp only
    cases hcall : t.sys.calls pid with
    | some call => exact h
    | none =>
      unfold ptyMasterRead
      rw [h.setup.masterOpen, h.setup.inUse]
      exact outputStream_masterRead h hsame pid count (by rw [hcall]; rfl)
  | slaveWrite pid data =>
    unfold PtyTrace.step PtySys.step PtySys.callOf
    dsimp only
    cases hcall : t.sys.calls pid with
    | some call => exact h
    | none =>
      unfold ptySlaveWrite
      rw [h.setup.masterOpen, h.setup.inUse, h.setup.slaveOpen]
      exact outputStream_slaveWrite h hsame pid data 0 (Nat.zero_le _)
        (h.idle pid (by rw [hcall]; rfl))
  | slaveRead pid count =>
    unfold PtyTrace.step PtySys.step PtySys.callOf
    dsimp only
    cases hcall : t.sys.calls pid with
    | some call => exact h
    | none =>
      unfold ptySlaveRead
      rw [h.setup.inUse, h.setup.slaveOpen]
      exact outputStream_slaveRead h hsame pid _ _ count (by rw [hcall]; rfl)

end Steps

/-- **A PTY's output is a stream.** With echo off, in every run of reads and writes on either
side, each blocking and going on any number of times: what the master has read and what the
ring still holds is the expansion of what writes have consumed, and a completed write has
consumed all its bytes. -/
theorem pty_output_stream (modes : UInt32) (pgid : ℤ) (hecho : modes &&& ptyEcho = 0)
    (hechok : modes &&& ptyEchok = 0) (ops : List PtyOp) (hops : ∀ op ∈ ops, op.Fixed) :
    let t := Run.run PtyTrace.step (PtyTrace.start modes pgid) ops
    t.returned <+: expand modes t.consumed ∧
      t.returned ++ t.sys.pty.masterOutput.bytes = expand modes t.consumed ∧
      (expand modes t.consumed).length = t.returned.length + t.sys.pty.masterOutput.count ∧
      ∀ c ∈ t.completed, c.2 = c.1 := by
  have hrun : OutputStream modes (Run.run PtyTrace.step (PtyTrace.start modes pgid) ops) :=
    Run.inv_run_forall (I := OutputStream modes)
      (fun _ op h hop => outputStream_step h hecho hechok op hop) ops _ (outputStream_start modes pgid)
      hops
  refine ⟨⟨_, hrun.flow⟩, hrun.flow, ?_, hrun.completed⟩
  rw [← hrun.flow, List.length_append, ByteRing.length_bytes]

/-- A raw pair whose newlines are expanded: one write, read in two parts. -/
theorem pty_output_split :
    let t := Run.run PtyTrace.step (PtyTrace.start (ptyOpost ||| ptyOnlcr) 0)
      [.slaveWrite 1 [0x61, ptyNl], .masterRead 2 2, .masterRead 2 5]
    t.returned ++ t.sys.pty.masterOutput.bytes = expand (ptyOpost ||| ptyOnlcr) t.consumed :=
  (pty_output_stream (ptyOpost ||| ptyOnlcr) 0 (by decide) (by decide)
    [.slaveWrite 1 [0x61, ptyNl], .masterRead 2 2, .masterRead 2 5] (by simp [PtyOp.Fixed])).2.1

end Lestra
