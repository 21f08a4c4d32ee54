import Lestra.Drivers.PtyOutput

/-!
# Wakeups of PTY calls

* `NoLostPtyWakeup` — a process blocked in a call on the pair awaits something
* `Alert` — between two states: whoever is still blocked still awaits the same, but for the
  fields named
* `ptyInputProcess_alert` — the bytes typed wake whom they concern, but for some echoes
* `pty_no_lost_wakeup` — in every run without such an echo to a blocked reader
-/

namespace Lestra

open PtySys

-- ---------------------------------------------------------------------------
-- Waiting
-- ---------------------------------------------------------------------------

namespace PtySys

/-- Process `pid` is blocked in a call of this kind. -/
def WaitsAt (s : PtySys) (w : PtyWaiter) (pid : ℤ) : Prop :=
  s.blocked pid = true ∧ ∃ call, s.calls pid = some call ∧ call.waiter = w

/-- One process at a time is blocked on each side in each direction. -/
def OneWaiter (s : PtySys) : Prop :=
  ∀ w pid pid', s.WaitsAt w pid → s.WaitsAt w pid' → pid = pid'

/-- A process that is blocked has left its pid in the field of its call, and an EOF is pending
only in canonical mode. -/
structure Base (s : PtySys) : Prop where
  waiter : ∀ pid, s.blocked pid = true →
    0 < pid ∧ ∃ call, s.calls pid = some call ∧ s.pty.waiter call.waiter = pid
  raw : s.pty.has ptyIcanon = false → s.pty.eofPending = false

theorem Base.waitsAt {s : PtySys} (h : s.Base) {w : PtyWaiter} {pid : ℤ} (hw : s.WaitsAt w pid) :
    0 < pid ∧ s.pty.waiter w = pid := by
  obtain ⟨hb, call, hcall, rfl⟩ := hw
  obtain ⟨hpos, call', hcall', hwaiter⟩ := h.waiter pid hb
  rw [hcall] at hcall'
  obtain rfl := Option.some.inj hcall'
  exact ⟨hpos, hwaiter⟩

/-- A process that is in no call is not blocked. -/
theorem Base.awake {s : PtySys} (h : s.Base) {pid : ℤ} (hcall : s.calls pid = none) :
    s.blocked pid = false := by
  rw [← Bool.not_eq_true]
  intro hb
  obtain ⟨-, call, hcall', -⟩ := h.waiter pid hb
  rw [hcall] at hcall'
  exact nomatch hcall'

/-- What a call of this kind awaits is as far away as it was. -/
def Same (s s' : PtySys) : PtyWaiter → Prop
  | .masterRead => s'.pty.masterOutput = s.pty.masterOutput ∧ s'.pty.slaveOpen = s.pty.slaveOpen
  | .slaveRead => s'.pty.slaveInput = s.pty.slaveInput ∧
      (s'.pty.eofPending = true → s.pty.eofPending = true) ∧
      s'.pty.masterOpen = s.pty.masterOpen
  | .slaveWrite => s'.pty.masterOpen = s.pty.masterOpen
  | .masterWrite => True

theorem Same.refl (s : PtySys) (w : PtyWaiter) : s.Same s w := by
  cases w
  · exact ⟨rfl, rfl⟩
  · exact ⟨rfl, id, rfl⟩
  · trivial
  · exact rfl

theorem Same.trans {s s' s'' : PtySys} {w : PtyWaiter} (h : s.Same s' w) (h' : s'.Same s'' w) :
    s.Same s'' w := by
  cases w
  · exact ⟨h'.1.trans h.1, h'.2.trans h.2⟩
  · exact ⟨h'.1.trans h.1, h.2.1 ∘ h'.2.1, h'.2.2.trans h.2.2⟩
  · trivial
  · exact Eq.trans h' h

/-- From `s` to `s'` nobody makes a call or falls asleep, and whoever stays blocked awaits the
same as before, but for the kinds in `late`. -/
structure Alert (late : Set PtyWaiter) (s s' : PtySys) : Prop where
  base : s'.Base
  calls : s'.calls = s.calls
  blocked : ∀ pid, s'.blocked pid = true → s.blocked pid = true
  same : ∀ w ∉ late, ∀ pid, s'.WaitsAt w pid → s.Same s' w

namespace Alert

variable {late late' : Set PtyWaiter} {s s' s'' : PtySys} {w : PtyWaiter} {pid : ℤ}

theorem refl (h : s.Base) (late : Set PtyWaiter) : Alert late s s :=
  ⟨h, rfl, fun _ => id, fun w _ _ _ => Same.refl s w⟩

theorem waits (h : Alert late s s') (hw : s'.WaitsAt w pid) : s.WaitsAt w pid :=
  ⟨h.blocked pid hw.1, h.calls ▸ hw.2⟩

theorem trans (h : Alert late s s') (h' : Alert late s' s'') : Alert late s s'' :=
  ⟨h'.base, h'.calls.trans h.calls, fun pid hb => h.blocked pid (h'.blocked pid hb),
    fun w hlate pid hw => (h.same w hlate pid (h'.waits hw)).trans (h'.same w hlate pid hw)⟩

theorem mono (h : Alert late s s') (hsub : late ⊆ late') : Alert late' s s' :=
  ⟨h.base, h.calls, h.blocked, fun w hlate => h.same w fun hin => hlate (hsub hin)⟩

/-- A process that was not blocked is not. -/
theorem awake (h : Alert late s s') (hb : s.blocked pid = false) : s'.blocked pid = false := by
  rw [← Bool.not_eq_true]
  intro hblocked
  exact absurd (hb.symm.trans (h.blocked pid hblocked)) (by decide)

/-- What is late for nobody is not late. -/
theorem drop (h : Alert {w} s s') (hnone : ∀ pid, ¬ s.WaitsAt w pid) : Alert ∅ s s' := by
  refine ⟨h.base, h.calls, h.blocked, fun w' _ pid hw => ?_⟩
  by_cases heq : w' = w
  · exact absurd (heq ▸ h.waits hw) (hnone pid)
  · exact h.same w' heq pid hw

end Alert

-- ---------------------------------------------------------------------------
-- The parts of a step
-- ---------------------------------------------------------------------------

section Parts

variable {s s' : PtySys} {late : Set PtyWaiter} {w : PtyWaiter}

theorem wake_blocked_pos (hpos : 0 < s.pty.waiter w) :
    (s.wake w).blocked = Function.update s.blocked (s.pty.waiter w) false := by
  rw [PtySys.wake, if_pos hpos]

theorem wake_blocked {pid : ℤ} (hb : (s.wake w).blocked pid = true) : s.blocked pid = true := by
  by_cases hpos : 0 < s.pty.waiter w
  · rw [wake_blocked_pos hpos] at hb
    by_cases hpid : pid = s.pty.waiter w
    · rw [hpid, Function.update_self] at hb
      exact nomatch hb
    · rwa [Function.update_of_ne hpid] at hb
  · rwa [PtySys.wake, if_neg hpos] at hb

/-- Nobody is blocked behind its wakeup. -/
theorem not_waitsAt_wake (h : s.Base) (w : PtyWaiter) (pid : ℤ) : ¬ (s.wake w).WaitsAt w pid := by
  rintro ⟨hb, hcall⟩
  rw [wake_calls] at hcall
  obtain ⟨hpos, hwaiter⟩ := h.waitsAt ⟨wake_blocked hb, hcall⟩
  rw [wake_blocked_pos (hwaiter ▸ hpos), hwaiter, Function.update_self] at hb
  exact nomatch hb

theorem wake_waiter_of_ne {w' : PtyWaiter} (hne : w' ≠ w) :
    (s.wake w).pty.waiter w' = s.pty.waiter w' := by
  unfold wake
  split
  · exact Function.update_of_ne hne ..
  · rfl

theorem wake_base (h : s.Base) (w : PtyWaiter) : (s.wake w).Base := by
  refine ⟨fun pid hb => ?_, ?_⟩
  · obtain ⟨hpos, call, hcall, hwaiter⟩ := h.waiter pid (wake_blocked hb)
    refine ⟨hpos, call, by rw [wake_calls, hcall], ?_⟩
    have hne : call.waiter ≠ w := by
      rintro rfl
      exact not_waitsAt_wake h call.waiter pid ⟨hb, call, by rw [wake_calls, hcall], rfl⟩
    rw [wake_waiter_of_ne hne, hwaiter]
  · rw [PtyPair.has, wake_termModes, wake_eofPending]
    exact h.raw

theorem wake_same (s : PtySys) (w w' : PtyWaiter) : s.Same (s.wake w) w' := by
  cases w'
  · exact ⟨wake_masterOutput .., wake_slaveOpen ..⟩
  · exact ⟨wake_slaveInput .., fun h => wake_eofPending s w ▸ h, wake_masterOpen ..⟩
  · trivial
  · exact wake_masterOpen ..

theorem wake_alert (h : s.Base) (w : PtyWaiter) : Alert late s (s.wake w) :=
  ⟨wake_base h w, wake_calls s w, fun _ => wake_blocked, fun w' _ _ _ => wake_same s w w'⟩

/-- Who is woken waits no more. -/
theorem Alert.wakeOf {late' : Set PtyWaiter} (h : Alert late s s')
    (hlate : ∀ w' ∈ late, w' ≠ w → w' ∈ late') : Alert late' s (s'.wake w) := by
  have hw : Alert late s' (s'.wake w) := wake_alert h.base w
  have hboth := h.trans hw
  refine ⟨hboth.base, hboth.calls, hboth.blocked, fun w' hlate' pid hwaits => ?_⟩
  by_cases heq : w' = w
  · exact absurd (heq ▸ hwaits) (not_waitsAt_wake h.base w pid)
  · exact hboth.same w' (fun hin => hlate' (hlate w' hin heq)) pid hwaits

/-- After a change that is late for `w`, `w` is woken. -/
theorem Alert.wake (h : Alert {w} s s') : Alert ∅ s (s'.wake w) :=
  h.wakeOf fun _ hin hne => absurd hin hne

/-- A change of the pair alone. -/
theorem setPty_alert (h : s.Base) {p : PtyPair} (hwaiter : p.waiter = s.pty.waiter)
    (hraw : p.has ptyIcanon = false → p.eofPending = false)
    (hsame : ∀ w ∉ late, s.Same (s.setPty p) w) : Alert late s (s.setPty p) := by
  refine ⟨⟨fun pid hb => ?_, hraw⟩, rfl, fun _ => id, fun w hlate _ _ => hsame w hlate⟩
  obtain ⟨hpos, call, hcall, hpid⟩ := h.waiter pid hb
  exact ⟨hpos, call, hcall, (congrFun hwaiter _).trans hpid⟩

/-- Bytes into the output are late for the master's reader. -/
theorem setOutput_alert (h : s.Base) (r : ByteRing) :
    Alert {.masterRead} s (s.setPty { s.pty with masterOutput := r }) := by
  refine setPty_alert h rfl h.raw fun w hlate => ?_
  cases w
  · exact absurd rfl hlate
  · exact ⟨rfl, id, rfl⟩
  · trivial
  · exact rfl

/-- A change of the input is late for the slave's reader. -/
theorem setInput_alert (h : s.Base) (r : ByteRing) :
    Alert {.slaveRead} s (s.setPty { s.pty with slaveInput := r }) := by
  refine setPty_alert h rfl h.raw fun w hlate => ?_
  cases w
  · exact ⟨rfl, rfl⟩
  · exact absurd rfl hlate
  · trivial
  · exact rfl

theorem setLine_alert (h : s.Base) (line : List UInt8) : Alert late s (s.setLine line) :=
  setPty_alert h rfl h.raw fun w _ => by cases w <;> simp [Same, PtySys.setPty]

theorem clearEof_alert (h : s.Base) : Alert late s (s.setEof false) :=
  setPty_alert h rfl (fun _ => rfl) fun w _ => by cases w <;> simp [Same, PtySys.setPty]

theorem setEof_alert (h : s.Base) (hmode : s.pty.has ptyIcanon = true) :
    Alert {.slaveRead} s (s.setEof true) := by
  refine setPty_alert h rfl (fun hraw => ?_) fun w hlate => ?_
  · exact absurd (hmode.symm.trans hraw) (by decide)
  · cases w
    · exact ⟨rfl, rfl⟩
    · exact absurd rfl hlate
    · trivial
    · exact rfl

end Parts

end PtySys

-- ---------------------------------------------------------------------------
-- Input
-- ---------------------------------------------------------------------------

section Input

variable {s : PtySys} (h : s.Base)

include h

theorem output_alert (bytes : List UInt8) : Alert {.masterRead} s (s.output bytes) :=
  setOutput_alert h _

theorem input_alert (bytes : List UInt8) : Alert {.slaveRead} s (s.input bytes) :=
  setInput_alert h _

theorem ptyEchoChar_alert (ch : UInt8) : Alert {.masterRead} s (ptyEchoChar s ch) := by
  have htwo : ∀ xs ys, Alert {.masterRead} s ((s.output xs).output ys) := fun xs ys =>
    (output_alert h xs).trans (output_alert (output_alert h xs).base ys)
  unfold ptyEchoChar
  split
  · exact Alert.refl h _
  split
  · exact htwo _ _
  split
  · exact htwo _ _
  · exact output_alert h _

omit h in
theorem ptyEchoChar_modes (s : PtySys) (ch : UInt8) :
    (ptyEchoChar s ch).pty.termModes = s.pty.termModes := by
  unfold ptyEchoChar
  split_ifs <;> rfl

theorem ptyEchoSignal_alert (ch : UInt8) : Alert {.masterRead} s (ptyEchoSignal s ch) := by
  unfold ptyEchoSignal
  split
  · exact Alert.refl h _
  · exact output_alert h _

theorem ptyEchoErase_alert : Alert {.masterRead} s (ptyEchoErase s) := by
  unfold ptyEchoErase
  split
  · exact Alert.refl h _
  split
  · exact output_alert h _
  · exact output_alert h _

theorem ptySignal_alert (ch : UInt8) (signum : ℕ) :
    Alert {.masterRead} s (ptySignal s ch signum) := by
  have hecho := ptyEchoSignal_alert h ch
  have hgroup : Alert {.masterRead} (ptyEchoSignal s ch)
      (ptySendSignalGroup (ptyEchoSignal s ch) signum) := by
    unfold ptySendSignalGroup
    split
    · exact Alert.refl hecho.base _
    · exact ⟨⟨hecho.base.waiter, hecho.base.raw⟩, rfl, fun _ => id,
        fun w _ _ _ => Same.refl (ptyEchoSignal s ch) w⟩
  have hsent := hecho.trans hgroup
  have hline := hsent.trans (setLine_alert hsent.base [])
  have heof := hline.trans (clearEof_alert hline.base)
  exact heof.trans (wake_alert heof.base _)

theorem ptyEof_alert (hmode : s.pty.has ptyIcanon = true) : Alert ∅ s (ptyEof s) := by
  unfold ptyEof
  split
  · have hinput := input_alert h s.pty.line
    exact (hinput.trans (setLine_alert hinput.base [])).wake
  · exact (setEof_alert h hmode).wake

theorem ptyErase_alert : Alert {.masterRead} s (ptyErase s) := by
  unfold ptyErase
  split
  · have hline : Alert {.masterRead} s (s.setLine s.pty.line.dropLast) := setLine_alert h _
    exact hline.trans (ptyEchoErase_alert hline.base)
  · exact Alert.refl h _

omit h in
theorem ptyEraseWhile_alert (p : UInt8 → Bool) (fuel : ℕ) {s : PtySys} (h : s.Base) :
    Alert {.masterRead} s (ptyEraseWhile p fuel s) := by
  induction fuel generalizing s with
  | zero => exact Alert.refl h _
  | succ fuel ih =>
    unfold ptyEraseWhile
    split
    · exact Alert.refl h _
    · split
      · have herase := ptyErase_alert h
        exact herase.trans (ih herase.base)
      · exact Alert.refl h _

theorem ptyWordErase_alert : Alert {.masterRead} s (ptyWordErase s) := by
  have hblanks := ptyEraseWhile_alert (· == 0x20) s.pty.line.length h
  exact hblanks.trans (ptyEraseWhile_alert _ _ hblanks.base)

omit h in
theorem ptyEchoErase_iterate_alert (n : ℕ) {s : PtySys} (h : s.Base) :
    Alert {.masterRead} s (ptyEchoErase^[n] s) := by
  induction n generalizing s with
  | zero => exact Alert.refl h _
  | succ n ih =>
    have hone := ptyEchoErase_alert h
    exact hone.trans (ih hone.base)

theorem ptyKill_alert : Alert {.masterRead} s (ptyKill s) := by
  unfold ptyKill
  dsimp only
  have hecho : Alert {.masterRead} s
      (if s.pty.has ptyEchok then s.output [ptyCr, ptyNl]
        else if s.pty.has ptyEcho then ptyEchoErase^[s.pty.line.length] s else s) := by
    split
    · exact output_alert h _
    split
    · exact ptyEchoErase_iterate_alert _ h
    · exact Alert.refl h _
  exact hecho.trans (setLine_alert hecho.base [])

/-- An echo with its wakeup. -/
theorem echo_alert {echoed : PtySys} (hecho : Alert {.masterRead} s echoed) :
    Alert ∅ s (if s.pty.has ptyEcho then echoed.wake .masterRead else s) := by
  split
  · exact hecho.wake
  · exact Alert.refl h _

theorem ptyNewline_alert : Alert ∅ s (ptyNewline s) := by
  unfold ptyNewline
  dsimp only
  generalize (if s.pty.line.length < ptyBufferSize - 1 then s.pty.line ++ [ptyNl]
    else s.pty.line) = line
  have hinput : Alert ∅ s (if 0 < (ringBufWrite s.pty.slaveInput line).2
      then (s.input line).wake .slaveRead else s.input line) := by
    split
    case isTrue => exact (input_alert h line).wake
    case isFalse hnone =>
      -- nothing fitted, and nothing was written
      have hsame : (ringBufWrite s.pty.slaveInput line).1 = s.pty.slaveInput := by
        unfold ringBufWrite at hnone ⊢
        dsimp only at hnone ⊢
        split at hnone
        · rw [if_pos ‹_›]
        · exact absurd (Nat.pos_of_ne_zero ‹_›) hnone
      rw [PtySys.input, hsame]
      exact Alert.refl h _
  generalize (if 0 < (ringBufWrite s.pty.slaveInput line).2
      then (s.input line).wake .slaveRead else s.input line) = woken at hinput ⊢
  have hecho := hinput.trans (echo_alert hinput.base (output_alert hinput.base [ptyCr, ptyNl]))
  have hline := hecho.trans (setLine_alert hecho.base [])
  exact hline.trans (clearEof_alert hline.base)

theorem ptyLineChar_alert (ch : UInt8) : Alert ∅ s (ptyLineChar s ch) := by
  unfold ptyLineChar
  dsimp only
  have hflush : Alert ∅ s (if ptyBufferSize - 1 ≤ s.pty.line.length then
      ((s.input s.pty.line).wake .slaveRead).setLine [] else s) := by
    split
    · have hinput := (input_alert h s.pty.line).wake
      exact hinput.trans (setLine_alert hinput.base [])
    · exact Alert.refl h _
  generalize (if ptyBufferSize - 1 ≤ s.pty.line.length then
      ((s.input s.pty.line).wake .slaveRead).setLine [] else s) = flushed at hflush ⊢
  have hline := hflush.trans (setLine_alert hflush.base (flushed.pty.line ++ [ch]))
  generalize flushed.setLine (flushed.pty.line ++ [ch]) = s' at hline ⊢
  refine hline.trans ?_
  split
  case isTrue => exact (ptyEchoChar_alert hline.base ch).wake
  case isFalse hecho =>
    have hoff : s'.pty.has ptyEcho = false := by
      rwa [PtyPair.has, ptyEchoChar_modes, Bool.not_eq_true] at hecho
    rw [ptyEchoChar_quiet hoff]
    exact Alert.refl hline.base _

theorem ptyRawChar_alert (ch : UInt8) : Alert ∅ s (ptyRawChar s ch) := by
  have hinput := input_alert h [ch]
  have hecho := echo_alert hinput.base (ptyEchoChar_alert hinput.base ch)
  exact (hinput.trans (hecho.mono fun _ hw => False.elim hw)).wake

end Input

-- ---------------------------------------------------------------------------
-- Echoes that wake nobody
-- ---------------------------------------------------------------------------

/-- The byte has an echo for which the master's reader is not woken. -/
def echoesUnwoken (p : PtyPair) (ch : UInt8) : Bool :=
  if p.has ptyIsig ∧ (ch = ptyVintr ∨ ch = ptyVsusp ∨ ch = ptyVquit) then p.has ptyEcho
  else if !p.has ptyIcanon then false
  else if ch = ptyVerase ∨ ch = ptyVbs ∨ ch = ptyVwerase then p.has ptyEcho && p.line != []
  else if ch = ptyVkill then p.has ptyEchok || (p.has ptyEcho && p.line != [])
  else false

/-- No master's reader is blocked when such a byte comes. -/
def CarefulByte (s : PtySys) (ch : UInt8) : Prop :=
  echoesUnwoken s.pty ch = true → ∀ pid, ¬ s.WaitsAt .masterRead pid

/-- A late echo to which nobody is blocked, or none. -/
theorem late_echo_alert {s s' : PtySys} {b : Bool} (h : Alert {.masterRead} s s')
    (hcare : b = true → ∀ pid, ¬ s.WaitsAt .masterRead pid)
    (hquiet : b = false → SameOutput s s') : Alert ∅ s s' := by
  cases b with
  | true => exact h.drop (hcare rfl)
  | false =>
    have hsame := hquiet rfl
    refine ⟨h.base, h.calls, h.blocked, fun w _ pid hw => ?_⟩
    by_cases heq : w = .masterRead
    · subst heq
      exact ⟨hsame.output, hsame.slaveOpen⟩
    · exact h.same w heq pid hw

theorem ptyErase_quiet {s : PtySys} (hquiet : (s.pty.has ptyEcho && s.pty.line != []) = false) :
    SameOutput s (ptyErase s) := by
  by_cases hline : s.pty.line = []
  · rw [ptyErase, if_neg (not_not.mpr hline)]
    exact SameOutput.refl s
  · exact ptyErase_same (by simpa [hline] using hquiet)

theorem ptyWordErase_quiet {s : PtySys}
    (hquiet : (s.pty.has ptyEcho && s.pty.line != []) = false) : SameOutput s (ptyWordErase s) := by
  by_cases hline : s.pty.line = []
  · have hzero : ptyWordErase s = s := by
      unfold ptyWordErase
      simp only [hline, List.length_nil, ptyEraseWhile]
    rw [hzero]
    exact SameOutput.refl s
  · exact ptyWordErase_same (by simpa [hline] using hquiet)

theorem ptyKill_quiet {s : PtySys}
    (hquiet : (s.pty.has ptyEchok || (s.pty.has ptyEcho && s.pty.line != [])) = false) :
    SameOutput s (ptyKill s) := by
  obtain ⟨hechok, hecho⟩ := Bool.or_eq_false_iff.mp hquiet
  by_cases hline : s.pty.line = []
  · unfold ptyKill
    rw [hechok, hline]
    cases s.pty.has ptyEcho <;> exact sameOutput_setLine _ _
  · exact ptyKill_same (by simpa [hline] using hecho) hechok

/-- A byte typed wakes whom it concerns. -/
theorem ptyInputProcess_alert {s : PtySys} (h : s.Base) {ch : UInt8} (hcare : CarefulByte s ch) :
    Alert ∅ s (ptyInputProcess s ch) := by
  have hsignal : ∀ signum, s.pty.has ptyIsig = true →
      ch = ptyVintr ∨ ch = ptyVsusp ∨ ch = ptyVquit → Alert ∅ s (ptySignal s ch signum) := by
    intro signum hisig hch
    have hval : echoesUnwoken s.pty ch = s.pty.has ptyEcho := if_pos ⟨hisig, hch⟩
    exact late_echo_alert (ptySignal_alert h ch signum) (hval ▸ hcare)
      fun hecho => ptySignal_same hecho ch signum
  unfold ptyInputProcess
  split
  case isTrue hintr => exact hsignal _ hintr.1 (Or.inl hintr.2)
  case isFalse hintr =>
  split
  case isTrue hsusp => exact hsignal _ hsusp.1 (Or.inr (Or.inl hsusp.2))
  case isFalse hsusp =>
  split
  case isTrue hquit => exact hsignal _ hquit.1 (Or.inr (Or.inr hquit.2))
  case isFalse hquit =>
  have hnone : ¬ (s.pty.has ptyIsig = true ∧ (ch = ptyVintr ∨ ch = ptyVsusp ∨ ch = ptyVquit)) := by
    tauto
  split
  case isTrue heof => exact ptyEof_alert h heof.2
  case isFalse heof =>
  split
  case isTrue herase =>
    have hval : echoesUnwoken s.pty ch = (s.pty.has ptyEcho && s.pty.line != []) := by
      have hch : ch = ptyVerase ∨ ch = ptyVbs ∨ ch = ptyVwerase := by tauto
      simp [echoesUnwoken, hnone, herase.2, hch]
    exact late_echo_alert (ptyErase_alert h) (hval ▸ hcare) ptyErase_quiet
  case isFalse herase =>
  split
  case isTrue hword =>
    have hval : echoesUnwoken s.pty ch = (s.pty.has ptyEcho && s.pty.line != []) := by
      have hch : ch = ptyVerase ∨ ch = ptyVbs ∨ ch = ptyVwerase := by tauto
      simp [echoesUnwoken, hnone, hword.2, hch]
    exact late_echo_alert (ptyWordErase_alert h) (hval ▸ hcare) ptyWordErase_quiet
  case isFalse hword =>
  split
  case isTrue hkill =>
    have hval : echoesUnwoken s.pty ch =
        (s.pty.has ptyEchok || (s.pty.has ptyEcho && s.pty.line != [])) := by
      have hch : ¬ (ch = ptyVerase ∨ ch = ptyVbs ∨ ch = ptyVwerase) := by tauto
      rw [echoesUnwoken, if_neg hnone, hkill.2, if_neg (by decide), if_neg hch, if_pos hkill.1]
    exact late_echo_alert (ptyKill_alert h) (hval ▸ hcare) ptyKill_quiet
  case isFalse hkill =>
  dsimp only
  split
  · split
    · exact ptyNewline_alert h
    · exact ptyLineChar_alert h _
  · exact ptyRawChar_alert h _

/-- The bytes of a write, each in the state it comes in. -/
def CarefulBytes : PtySys → List UInt8 → Prop
  | _, [] => True
  | s, ch :: rest =>
    CarefulByte s ch ∧
      (¬ (!(ptyInputProcess s ch).pty.has ptyIcanon ∧
          ptyBufferSize - 1 ≤ (ptyInputProcess s ch).pty.slaveInput.count) →
        CarefulBytes (ptyInputProcess s ch) rest)

theorem ptyMasterWriteLoop_alert {s : PtySys} (h : s.Base) {data : List UInt8}
    (hcare : CarefulBytes s data) : Alert ∅ s (ptyMasterWriteLoop s data).1 := by
  induction data generalizing s with
  | nil => exact Alert.refl h _
  | cons ch rest ih =>
    have hone := ptyInputProcess_alert h hcare.1
    unfold ptyMasterWriteLoop
    dsimp only
    split
    case isTrue => exact hone
    case isFalse hmore => exact hone.trans (ih hone.base (hcare.2 hmore))

-- ---------------------------------------------------------------------------
-- Calls
-- ---------------------------------------------------------------------------

/-- What a call that has just found nothing to do awaits. -/
def Awaits (s : PtySys) : PtyWaiter → Prop
  | .masterRead => s.pty.masterOutput.count = 0 ∧ s.pty.slaveOpen = true
  | .slaveRead => s.pty.slaveInput.count = 0 ∧ s.pty.eofPending = false ∧ s.pty.masterOpen = true
  | .slaveWrite => s.pty.masterOpen = true
  | .masterWrite => True

theorem Awaits.same {s s' : PtySys} {w : PtyWaiter} (h : Awaits s w) (hs : s.Same s' w) :
    Awaits s' w := by
  cases w
  · exact ⟨hs.1 ▸ h.1, hs.2.trans h.2⟩
  · refine ⟨hs.1 ▸ h.1, ?_, hs.2.2.trans h.2.2⟩
    rw [← Bool.not_eq_true]
    intro heof
    exact absurd (hs.2.1 heof) (by rw [h.2.1]; decide)
  · trivial
  · exact Eq.trans hs h

/-- How a call of process `pid` ends: with the pair in state `s'`, it returns or it blocks. -/
inductive Ends (s' : PtySys) (pid : ℤ) (w : PtyWaiter) : PtySys × PtyResult → Prop where
  | returns (n : ℤ) (moved : List UInt8) : Ends s' pid w (s'.finish pid n moved)
  | blocks (call : PtyCall) (moved : List UInt8) (hw : call.waiter = w) (hawaits : Awaits s' w) :
    Ends s' pid w (s'.block pid call moved)

theorem ptyOutputRing_none {p : PtyPair} {data : List UInt8} (hnone : (ptyOutputRing p data).2 = 0) :
    (ptyOutputRing p data).1 = p.masterOutput := by
  unfold ptyOutputRing at hnone ⊢
  split at hnone
  case isTrue hmode =>
    rw [if_pos hmode]
    cases data with
    | nil => rfl
    | cons ch rest =>
      unfold ptyOnlcrLoop at hnone ⊢
      dsimp only at hnone ⊢
      split_ifs at hnone ⊢ <;> rfl
  case isFalse hmode =>
    rw [if_neg hmode]
    unfold ringBufWrite at hnone ⊢
    dsimp only at hnone ⊢
    split_ifs at hnone ⊢ with hzero
    · rfl
    · exact absurd hnone hzero

theorem ptyOutputProcess_alert {s : PtySys} (h : s.Base) (data : List UInt8) :
    Alert ∅ s (ptyOutputProcess s data).1 := by
  unfold ptyOutputProcess
  dsimp only
  split
  case isTrue => exact (setOutput_alert h _).wake
  case isFalse hnone =>
    rw [ptyOutputRing_none (Nat.eq_zero_of_not_pos hnone)]
    exact Alert.refl h _

theorem slaveWriteFrom_ends {s : PtySys} (h : s.Base) (pid : ℤ) (data : List UInt8) (total : ℕ)
    (moved : List UInt8) :
    ∃ s', Alert ∅ s s' ∧ Ends s' pid .slaveWrite (slaveWriteFrom s pid data total moved) := by
  induction hn : data.length - total using Nat.strong_induction_on generalizing s total moved with
  | _ n ih =>
    rw [slaveWriteFrom]
    by_cases hmore : total < data.length
    · rw [dif_pos hmore]
      have hout := ptyOutputProcess_alert h (data.drop total)
      generalize ptyOutputProcess s (data.drop total) = out at hout ⊢
      obtain ⟨s', consumed⟩ := out
      dsimp only at hout ⊢
      by_cases hnone : consumed = 0
      · rw [dif_pos hnone]
        cases hopen : s'.pty.masterOpen with
        | false => exact ⟨s', hout, Ends.returns _ _⟩
        | true => exact ⟨s', hout, Ends.blocks _ _ rfl hopen⟩
      · rw [dif_neg hnone]
        obtain ⟨s'', hrest, hends⟩ :=
          ih (data.length - (total + consumed)) (by omega) hout.base (total + consumed) _ rfl
        exact ⟨s'', hout.trans hrest, hends⟩
    · rw [dif_neg hmore]
      exact ⟨s, Alert.refl h _, Ends.returns _ _⟩

/-- Whoever waits at a ring finds it empty. -/
def AllAwait (s : PtySys) : Prop := ∀ w pid, s.WaitsAt w pid → Awaits s w

theorem slaveTake_ends {s : PtySys} (h : s.Base) (hset : AllAwait s)
    (hsome : s.pty.slaveInput.count ≠ 0) (pid : ℤ) (n : ℕ) :
    ∃ s', Alert ∅ s s' ∧ Ends s' pid .slaveRead (slaveTake s pid n) := by
  unfold slaveTake
  generalize ringBufRead s.pty.slaveInput n = out
  obtain ⟨r, data⟩ := out
  have htake : Alert ∅ s (s.setPty { s.pty with slaveInput := r }) :=
    (setInput_alert h r).drop fun pid' hwaits => hsome (hset _ pid' hwaits).1
  dsimp only
  split
  · exact ⟨_, htake.trans (wake_alert htake.base _), Ends.returns _ _⟩
  · exact ⟨_, htake, Ends.returns _ _⟩

/-- A reader of the slave; in raw mode it looks at no EOF. -/
theorem slaveReadFrom_ends {s : PtySys} (h : s.Base) (hset : AllAwait s) (pid : ℤ)
    (canonical : Bool) (count : ℕ)
    (hraw : canonical = false → s.pty.slaveInput.count = 0 → s.pty.masterOpen = true →
      s.pty.eofPending = false) :
    ∃ s', Alert ∅ s s' ∧ Ends s' pid .slaveRead (slaveReadFrom s pid canonical count) := by
  have hempty : s.pty.slaveInput.count = 0 → s.pty.eofPending = false →
      ∃ s', Alert ∅ s s' ∧ Ends s' pid .slaveRead
        (if !s.pty.masterOpen then s.finish pid 0 []
          else s.block pid (.slaveRead canonical count) []) := by
    intro hcount heof
    cases hopen : s.pty.masterOpen with
    | false => exact ⟨s, Alert.refl h _, Ends.returns _ _⟩
    | true => exact ⟨s, Alert.refl h _, Ends.blocks _ _ rfl ⟨hcount, heof, hopen⟩⟩
  unfold slaveReadFrom
  cases canonical with
  | true =>
    rw [if_pos rfl]
    split
    case isTrue hnone => exact hempty hnone.1 (by simpa using hnone.2)
    case isFalse hnone =>
    split
    case isTrue => exact ⟨_, clearEof_alert h, Ends.returns _ _⟩
    case isFalse heof =>
      refine slaveTake_ends h hset (fun hcount => ?_) pid _
      cases hpending : s.pty.eofPending with
      | false => exact hnone ⟨hcount, by rw [hpending]; rfl⟩
      | true => exact heof ⟨hpending, hcount⟩
  | false =>
    rw [if_neg (by decide)]
    by_cases hcount : s.pty.slaveInput.count = 0
    · rw [if_pos hcount]
      cases hopen : s.pty.masterOpen with
      | false => exact ⟨s, Alert.refl h _, Ends.returns _ _⟩
      | true =>
        exact ⟨s, Alert.refl h _, Ends.blocks _ _ rfl ⟨hcount, hraw rfl hcount hopen, hopen⟩⟩
    · rw [if_neg hcount]
      exact slaveTake_ends h hset hcount pid _

/-- A reader of the master; who gets bytes wakes the writer. -/
theorem masterReadFrom_ends {s : PtySys} (h : s.Base) (hset : AllAwait s) (pid : ℤ) (count : ℕ) :
    ∃ s', Alert ∅ s s' ∧ Ends s' pid .masterRead (masterReadFrom s pid count) ∧
      ((masterReadFrom s pid count).2.moved ≠ [] → ∀ pid', ¬ s'.WaitsAt .slaveWrite pid') := by
  unfold masterReadFrom
  by_cases hcount : s.pty.masterOutput.count = 0
  · rw [if_pos hcount]
    cases hopen : s.pty.slaveOpen with
    | false => exact ⟨s, Alert.refl h _, Ends.returns _ _, fun hne => absurd rfl hne⟩
    | true =>
      exact ⟨s, Alert.refl h _, Ends.blocks _ _ rfl ⟨hcount, hopen⟩, fun hne => absurd rfl hne⟩
  · rw [if_neg hcount]
    dsimp only
    generalize ringBufRead s.pty.masterOutput (min count s.pty.masterOutput.count) = out
    obtain ⟨r, data⟩ := out
    have htake : Alert ∅ s (s.setPty { s.pty with masterOutput := r }) :=
      (setOutput_alert h r).drop fun pid' hwaits => hcount (hset _ pid' hwaits).1
    dsimp only
    split
    case isTrue =>
      exact ⟨_, htake.trans (wake_alert htake.base _), Ends.returns _ _,
        fun _ => not_waitsAt_wake htake.base _⟩
    case isFalse hnone =>
      have hnil : data = [] := List.length_eq_zero_iff.mp (Nat.eq_zero_of_not_pos hnone)
      exact ⟨_, htake, Ends.returns _ _, fun hne => absurd hnil hne⟩

-- ---------------------------------------------------------------------------
-- The end of a call
-- ---------------------------------------------------------------------------

section End

variable {s : PtySys} {pid : ℤ} {w : PtyWaiter} {out : PtySys × PtyResult}

/-- Whoever waits when the call has ended waited before, or it is the process itself. -/
theorem Ends.waits (hends : Ends s pid w out) (hb : s.blocked pid = false) {w' : PtyWaiter}
    {pid' : ℤ} (hw : out.1.WaitsAt w' pid') :
    (pid' ≠ pid ∧ s.WaitsAt w' pid') ∨ (pid' = pid ∧ w' = w ∧ out.2.ret = none) := by
  obtain ⟨hblocked, call', hcall', rfl⟩ := hw
  cases hends with
  | returns n moved =>
    change s.blocked pid' = true at hblocked
    have hne : pid' ≠ pid := by
      rintro rfl
      exact absurd (hb.symm.trans hblocked) (by decide)
    change Function.update s.calls pid none pid' = some call' at hcall'
    rw [Function.update_of_ne hne] at hcall'
    exact Or.inl ⟨hne, hblocked, call', hcall', rfl⟩
  | blocks call moved hw _ =>
    change Function.update s.blocked pid true pid' = true at hblocked
    change Function.update s.calls pid (some call) pid' = some call' at hcall'
    by_cases heq : pid' = pid
    · rw [heq, Function.update_self] at hcall'
      obtain rfl := Option.some.inj hcall'
      exact Or.inr ⟨heq, hw, rfl⟩
    · rw [Function.update_of_ne heq] at hcall' hblocked
      exact Or.inl ⟨heq, hblocked, call', hcall', rfl⟩

theorem Ends.base (hends : Ends s pid w out) (h : s.Base) (hpid : 0 < pid)
    (hb : s.blocked pid = false) (hone : out.1.OneWaiter) : out.1.Base := by
  cases hends with
  | returns n moved =>
    refine ⟨fun pid' hblocked => ?_, h.raw⟩
    have hne : pid' ≠ pid := by
      rintro rfl
      exact absurd (hb.symm.trans hblocked) (by decide)
    obtain ⟨hpos, call', hcall', hwaiter⟩ := h.waiter pid' hblocked
    exact ⟨hpos, call', (Function.update_of_ne hne ..).trans hcall', hwaiter⟩
  | blocks call moved hw _ =>
    refine ⟨fun pid' hblocked => ?_, h.raw⟩
    have hself : (s.block pid call moved).1.WaitsAt call.waiter pid :=
      ⟨Function.update_self .., call, Function.update_self .., rfl⟩
    by_cases heq : pid' = pid
    · subst heq
      exact ⟨hpid, call, Function.update_self .., Function.update_self ..⟩
    · have hbefore : s.blocked pid' = true := (Function.update_of_ne heq ..).symm.trans hblocked
      obtain ⟨hpos, call', hcall', hwaiter⟩ := h.waiter pid' hbefore
      have hcall'' : (s.block pid call moved).1.calls pid' = some call' :=
        (Function.update_of_ne heq ..).trans hcall'
      have hkind : call'.waiter ≠ call.waiter := fun hkind =>
        heq (hone call.waiter pid' pid ⟨hblocked, call', hcall'', hkind⟩ hself)
      exact ⟨hpos, call', hcall'', (Function.update_of_ne hkind ..).trans hwaiter⟩

theorem Ends.awaits (hends : Ends s pid w out) (hb : s.blocked pid = false) (hall : AllAwait s) :
    AllAwait out.1 := by
  have hsame : ∀ w', s.Same out.1 w' := by
    intro w'
    cases hends <;> exact Same.refl s w'
  intro w' pid' hw
  refine Awaits.same ?_ (hsame w')
  rcases hends.waits hb hw with ⟨-, hbefore⟩ | ⟨-, rfl, hret⟩
  · exact hall w' pid' hbefore
  · cases hends with
    | returns n moved => exact nomatch hret
    | blocks call moved _ hawaits => exact hawaits

/-- A process in a call has a pid. -/
theorem Ends.callers (hends : Ends s pid w out) (hpid : 0 < pid)
    (hcallers : ∀ pid' call, s.calls pid' = some call → 0 < pid') :
    ∀ pid' call, out.1.calls pid' = some call → 0 < pid' := by
  intro pid' call hcall
  by_cases heq : pid' = pid
  · exact heq ▸ hpid
  · refine hcallers pid' call ?_
    cases hends <;> exact (Function.update_of_ne heq ..).symm.trans hcall

end End

-- ---------------------------------------------------------------------------
-- Runs
-- ---------------------------------------------------------------------------

/-- A run with the number of bytes that the master has read so far, and what it was when each
writer blocked last. -/
structure PtyWatch where
  sys : PtySys
  returned : ℕ
  atBlock : ℤ → ℕ

namespace PtyWatch

def start (modes : UInt32) (pgid : ℤ) : PtyWatch := ⟨PtySys.start modes pgid, 0, fun _ => 0⟩

/-- What a step that worked on this call adds. -/
def record (t : PtyWatch) (out : PtySys × PtyResult) : Option (ℤ × PtyCall) → PtyWatch
  | some (_, .masterRead _) => { t with sys := out.1, returned := t.returned + out.2.moved.length }
  | some (pid, .slaveWrite _ _) =>
    { t with
      sys := out.1
      atBlock := if out.2.ret = none then Function.update t.atBlock pid t.returned else t.atBlock }
  | _ => { t with sys := out.1 }

def step (t : PtyWatch) (op : PtyOp) : PtyWatch := t.record (t.sys.step op) (t.sys.callOf op)

end PtyWatch

/-- Whoever is blocked in a call has reason to be. -/
structure NoLostPtyWakeup (t : PtyWatch) : Prop where
  masterRead : ∀ pid, t.sys.WaitsAt .masterRead pid →
    t.sys.pty.masterOutput.count = 0 ∧ t.sys.pty.slaveOpen = true
  slaveRead : ∀ pid, t.sys.WaitsAt .slaveRead pid →
    t.sys.pty.slaveInput.count = 0 ∧
      ¬ (t.sys.pty.eofPending = true ∧ t.sys.pty.has ptyIcanon = true) ∧
      t.sys.pty.masterOpen = true
  slaveWrite : ∀ pid, t.sys.WaitsAt .slaveWrite pid →
    t.sys.pty.masterOpen = true ∧ t.returned = t.atBlock pid

/-- A process that goes on finds no other in the field it clears, and where it has slept in raw
mode no EOF behind which it would sleep again. -/
structure CarefulResume (s : PtySys) (pid : ℤ) (call : PtyCall) : Prop where
  alone : ∀ pid', pid' ≠ pid → ¬ s.WaitsAt call.waiter pid'
  raw : ∀ count, call = .slaveRead false count → s.pty.slaveInput.count = 0 →
    s.pty.masterOpen = true → s.pty.eofPending = false

/-- One process at a time waits on each side in each direction, and the step is none of those
that forget one. -/
def CarefulStep (t : PtyWatch) (op : PtyOp) : Prop :=
  (t.step op).sys.OneWaiter ∧
    match op with
    | .masterWrite pid data => 0 < pid ∧
        (t.sys.pty.inUse = true → t.sys.pty.masterOpen = true → t.sys.pty.slaveOpen = true →
          CarefulBytes t.sys data)
    | .masterRead pid _ => 0 < pid
    | .slaveWrite pid _ => 0 < pid
    | .slaveRead pid _ => 0 < pid
    | .resume pid => ∀ call, t.sys.calls pid = some call → CarefulResume t.sys pid call
    | _ => True

/-- What holds between any two steps. -/
structure WatchOk (t : PtyWatch) : Prop where
  base : t.sys.Base
  all : AllAwait t.sys
  callers : ∀ pid call, t.sys.calls pid = some call → 0 < pid
  unread : ∀ pid, t.sys.WaitsAt .slaveWrite pid → t.returned = t.atBlock pid

theorem WatchOk.noLost {t : PtyWatch} (h : WatchOk t) : NoLostPtyWakeup t := by
  refine ⟨fun pid hw => h.all _ pid hw, fun pid hw => ?_, fun pid hw =>
    ⟨h.all _ pid hw, h.unread pid hw⟩⟩
  obtain ⟨hcount, heof, hopen⟩ := h.all _ pid hw
  refine ⟨hcount, fun hpending => ?_, hopen⟩
  exact absurd (heof.symm.trans hpending.1) (by decide)

theorem watchOk_start (modes : UInt32) (pgid : ℤ) : WatchOk (PtyWatch.start modes pgid) :=
  ⟨⟨fun _ hb => (nomatch hb), fun _ => rfl⟩, fun _ _ hw => (nomatch hw.1),
    fun _ _ hcall => (nomatch hcall), fun _ hw => (nomatch hw.1)⟩

theorem WatchOk.alert {t : PtyWatch} (h : WatchOk t) {s : PtySys} (ha : Alert ∅ t.sys s) :
    WatchOk { t with sys := s } := by
  refine ⟨ha.base, fun w pid hw => ?_, fun pid call hcall => ?_, fun pid hw => ?_⟩
  · exact (h.all w pid (ha.waits hw)).same (ha.same w (fun hin => hin) pid hw)
  · exact h.callers pid call (ha.calls ▸ hcall)
  · exact h.unread pid (ha.waits hw)

/-- A call that ends, with what the master has read by then. -/
theorem WatchOk.ends {t : PtyWatch} (h : WatchOk t) {pid : ℤ} {w : PtyWaiter}
    {out : PtySys × PtyResult} (hpid : 0 < pid) (hb : t.sys.blocked pid = false)
    (hone : out.1.OneWaiter) (hends : Ends t.sys pid w out) {returned : ℕ} {atBlock : ℤ → ℕ}
    (hreturned : returned = t.returned ∨ ∀ pid', ¬ t.sys.WaitsAt .slaveWrite pid')
    (hother : ∀ pid', pid' ≠ pid → atBlock pid' = t.atBlock pid')
    (hself : w = .slaveWrite → out.2.ret = none → atBlock pid = returned) :
    WatchOk ⟨out.1, returned, atBlock⟩ := by
  refine ⟨hends.base h.base hpid hb hone, hends.awaits hb h.all, hends.callers hpid h.callers,
    fun pid' hwaits => ?_⟩
  rcases hends.waits hb hwaits with ⟨hne, hbefore⟩ | ⟨rfl, hkind, hret⟩
  · have hsame : returned = t.returned := hreturned.resolve_right fun hnone => hnone pid' hbefore
    exact (hsame.trans (h.unread pid' hbefore)).trans (hother pid' hne).symm
  · exact (hself hkind.symm hret).symm

section Steps

variable {t : PtyWatch} (h : WatchOk t) {s : PtySys} (hs : Alert ∅ t.sys s) {pid : ℤ}
  (hpid : 0 < pid) (hb : t.sys.blocked pid = false)

include h hs hpid hb

theorem watchOk_masterRead (count : ℕ)
    (hone : (masterReadFrom s pid count).1.OneWaiter) :
    WatchOk (t.record (masterReadFrom s pid count) (some (pid, .masterRead count))) := by
  have hok := h.alert hs
  obtain ⟨s', ha, hends, hread⟩ := masterReadFrom_ends hok.base hok.all pid count
  have hok' := hok.alert ha
  have hreturned : t.returned + (masterReadFrom s pid count).2.moved.length = t.returned ∨
      ∀ pid', ¬ s'.WaitsAt .slaveWrite pid' := by
    by_cases hnil : (masterReadFrom s pid count).2.moved = []
    · rw [hnil]
      exact Or.inl rfl
    · exact Or.inr (hread hnil)
  exact hok'.ends hpid (ha.awake (hs.awake hb)) hone hends hreturned (fun _ _ => rfl) nofun

theorem watchOk_slaveRead (canonical canonical' : Bool) (count : ℕ)
    (hraw : canonical = false → s.pty.slaveInput.count = 0 → s.pty.masterOpen = true →
      s.pty.eofPending = false)
    (hone : (slaveReadFrom s pid canonical count).1.OneWaiter) :
    WatchOk (t.record (slaveReadFrom s pid canonical count)
      (some (pid, .slaveRead canonical' count))) := by
  have hok := h.alert hs
  obtain ⟨s', ha, hends⟩ := slaveReadFrom_ends hok.base hok.all pid canonical count hraw
  exact (hok.alert ha).ends hpid (ha.awake (hs.awake hb)) hone hends (Or.inl rfl)
    (fun _ _ => rfl) nofun

theorem watchOk_slaveWrite (data : List UInt8) (total : ℕ)
    (hone : (slaveWriteFrom s pid data total []).1.OneWaiter) :
    WatchOk (t.record (slaveWriteFrom s pid data total []) (some (pid, .slaveWrite data total))) := by
  have hok := h.alert hs
  obtain ⟨s', ha, hends⟩ := slaveWriteFrom_ends hok.base pid data total []
  refine (hok.alert ha).ends hpid (ha.awake (hs.awake hb)) hone hends (Or.inl rfl)
    (fun pid' hne => ?_) fun _ hret => ?_
  · split
    · exact Function.update_of_ne hne ..
    · rfl
  · rw [if_pos hret, Function.update_self]

/-- A call that returns at once, whatever it has woken before. -/
theorem watchOk_return (n : ℤ) (moved : List UInt8) (hone : (s.finish pid n moved).1.OneWaiter) :
    WatchOk { t with sys := (s.finish pid n moved).1 } :=
  (h.alert hs).ends hpid (hs.awake hb) hone
    (Ends.returns (w := .masterWrite) n moved) (Or.inl rfl) (fun _ _ => rfl) nofun

end Steps

/-- A call that finds its side closed. -/
theorem record_returns (t : PtyWatch) (s : PtySys) (pid n : ℤ) (call : Option (ℤ × PtyCall)) :
    t.record (s.finish pid n []) call = { t with sys := (s.finish pid n []).1 } := by
  rcases call with _ | ⟨pid', _ | _ | _⟩ <;> rfl

/-- A process that goes on clears its field. -/
theorem clearWaiter_alert {s : PtySys} (h : s.Base) {pid : ℤ} (hb : s.blocked pid = false)
    {w : PtyWaiter} (halone : ∀ pid', pid' ≠ pid → ¬ s.WaitsAt w pid') :
    Alert ∅ s (s.setPty { s.pty with waiter := Function.update s.pty.waiter w 0 }) := by
  refine ⟨⟨fun pid' hblocked => ?_, h.raw⟩, rfl, fun _ => id, fun w' _ _ _ => Same.refl s w'⟩
  obtain ⟨hpos, call, hcall, hwaiter⟩ := h.waiter pid' hblocked
  have hne : pid' ≠ pid := by
    rintro rfl
    exact absurd (hb.symm.trans hblocked) (by decide)
  have hkind : call.waiter ≠ w := fun hkind => halone pid' hne ⟨hblocked, call, hcall, hkind⟩
  exact ⟨hpos, call, hcall, (Function.update_of_ne hkind ..).trans hwaiter⟩

theorem watchOk_resume {t : PtyWatch} (h : WatchOk t) (pid : ℤ)
    (hcare : CarefulStep t (.resume pid)) : WatchOk (t.step (.resume pid)) := by
  obtain ⟨hone, hcare⟩ := hcare
  revert hone
  unfold PtyWatch.step PtySys.step PtySys.callOf
  dsimp only
  cases hcall : t.sys.calls pid with
  | none =>
    intro _
    rw [Option.map_none, ite_self]
    exact h
  | some call =>
    dsimp only
    by_cases hblocked : t.sys.blocked pid = true
    · intro _
      rw [if_pos hblocked, if_pos hblocked]
      exact h
    · rw [if_neg hblocked, if_neg hblocked, Option.map_some]
      have hb : t.sys.blocked pid = false := by rwa [Bool.not_eq_true] at hblocked
      have hpid := h.callers pid call hcall
      have hresume := hcare call hcall
      have hs := clearWaiter_alert h.base hb hresume.alone
      cases call with
      | masterRead count => exact watchOk_masterRead h hs hpid hb count
      | slaveRead canonical count =>
        refine watchOk_slaveRead h hs hpid hb canonical canonical count fun hmode => ?_
        exact hresume.raw count (by rw [hmode])
      | slaveWrite data total => exact watchOk_slaveWrite h hs hpid hb data total

-- ---------------------------------------------------------------------------
-- Closing and modes
-- ---------------------------------------------------------------------------

/-- The pair is released with its second side. -/
theorem release_alert {s : PtySys} (h : s.Base) :
    Alert ∅ s (if !s.pty.masterOpen ∧ !s.pty.slaveOpen then
      s.setPty { s.pty with inUse := false, slavePgid := 0 } else s) := by
  split
  · exact setPty_alert h rfl h.raw fun w _ => by cases w <;> simp [Same, PtySys.setPty]
  · exact Alert.refl h _

theorem closeMaster_alert {s : PtySys} (h : s.Base) : Alert ∅ s
    (((s.setPty { s.pty with masterOpen := false }).wake .slaveRead).wake .slaveWrite) := by
  have hclosed : Alert {.slaveRead, .slaveWrite} s
      (s.setPty { s.pty with masterOpen := false }) := by
    refine setPty_alert h rfl h.raw fun w hlate => ?_
    cases w
    · exact ⟨rfl, rfl⟩
    · exact absurd (Or.inl rfl) hlate
    · trivial
    · exact absurd (Or.inr rfl) hlate
  have hreader : Alert {.slaveWrite} s
      ((s.setPty { s.pty with masterOpen := false }).wake .slaveRead) :=
    hclosed.wakeOf fun _ hin hne => hin.resolve_left hne
  exact hreader.wake

theorem closeSlave_alert {s : PtySys} (h : s.Base) : Alert ∅ s
    (((((s.setPty { s.pty with slaveOpen := false }).wake .masterRead).wake
      .masterWrite).setLine []).setEof false) := by
  have hclosed : Alert {.masterRead} s (s.setPty { s.pty with slaveOpen := false }) := by
    refine setPty_alert h rfl h.raw fun w hlate => ?_
    cases w
    · exact absurd rfl hlate
    · exact ⟨rfl, id, rfl⟩
    · trivial
    · exact rfl
  have hwoken := hclosed.wake.trans (wake_alert hclosed.wake.base .masterWrite)
  have hline := hwoken.trans (setLine_alert hwoken.base [])
  exact hline.trans (clearEof_alert hline.base)

theorem ptyClose_alert {s : PtySys} (h : s.Base) (isMaster : Bool) :
    Alert ∅ s (ptyClose s isMaster) := by
  cases isMaster with
  | true =>
    change Alert ∅ s (if !s.pty.masterOpen ∨ !s.pty.inUse then s else _)
    split
    · exact Alert.refl h _
    · exact (closeMaster_alert h).trans (release_alert (closeMaster_alert h).base)
  | false =>
    change Alert ∅ s (if !s.pty.slaveOpen ∨ !s.pty.inUse then s else _)
    split
    · exact Alert.refl h _
    · exact (closeSlave_alert h).trans (release_alert (closeSlave_alert h).base)

theorem ptySetModes_alert {s : PtySys} (h : s.Base) (modes : UInt32) :
    Alert ∅ s (ptySetModes s modes) := by
  have hflush : Alert ∅ s
      (if s.pty.line ≠ [] then ((s.input s.pty.line).setLine []).wake .slaveRead else s) := by
    split
    · have hinput := input_alert h s.pty.line
      exact (hinput.trans (setLine_alert hinput.base [])).wake
    · exact Alert.refl h _
  unfold ptySetModes
  split
  · exact Alert.refl h _
  dsimp only
  split
  · have hclear := hflush.trans (clearEof_alert hflush.base)
    exact hclear.trans (setPty_alert hclear.base rfl (fun _ => rfl) fun w _ => by
      cases w <;> simp [Same, PtySys.setPty])
  case isFalse hkept =>
    refine setPty_alert h rfl (fun hraw => h.raw ?_) fun w _ => by
      cases w <;> simp [Same, PtySys.setPty]
    -- raw now, and it was no mode switch: raw before
    rw [← Bool.not_eq_true]
    intro hmode
    refine hkept ⟨hmode, ?_⟩
    simpa [PtyPair.has] using hraw

theorem watchOk_step {t : PtyWatch} (h : WatchOk t) (op : PtyOp) (hcare : CarefulStep t op) :
    WatchOk (t.step op) := by
  have hs := Alert.refl h.base ∅
  cases op with
  | resume pid => exact watchOk_resume h pid hcare
  | wake pid =>
    refine h.alert ⟨⟨fun pid' hb => ?_, h.base.raw⟩, rfl, fun pid' hb => ?_,
      fun w _ _ _ => Same.refl t.sys w⟩
    all_goals
      have hbefore : t.sys.blocked pid' = true := by
        change Function.update t.sys.blocked pid false pid' = true at hb
        by_cases heq : pid' = pid
        · rw [heq, Function.update_self] at hb
          exact nomatch hb
        · rwa [Function.update_of_ne heq] at hb
    · exact h.base.waiter pid' hbefore
    · exact hbefore
  | setModes modes => exact h.alert (ptySetModes_alert h.base modes)
  | close isMaster => exact h.alert (ptyClose_alert h.base isMaster)
  | masterWrite pid data =>
    obtain ⟨hone, hpid, hbytes⟩ := hcare
    revert hone
    unfold PtyWatch.step PtySys.step PtySys.callOf
    dsimp only
    cases hcall : t.sys.calls pid with
    | some call => exact fun _ => h
    | none =>
      have hb := h.base.awake hcall
      change (ptyMasterWrite t.sys pid data).1.OneWaiter →
        WatchOk { t with sys := (ptyMasterWrite t.sys pid data).1 }
      unfold ptyMasterWrite
      split_ifs with hmaster hslave
      · exact watchOk_return h hs hpid hb _ _
      · exact watchOk_return h hs hpid hb _ _
      · have hopen : t.sys.pty.inUse = true ∧ t.sys.pty.masterOpen = true ∧
            t.sys.pty.slaveOpen = true := by
          simp only [Bool.not_eq_true', Bool.not_eq_false, not_or] at hmaster hslave
          exact ⟨hslave.1, hmaster, hslave.2⟩
        have hloop := ptyMasterWriteLoop_alert h.base (hbytes hopen.1 hopen.2.1 hopen.2.2)
        exact watchOk_return h hloop hpid hb _ _
  | masterRead pid count =>
    obtain ⟨hone, hpid⟩ := hcare
    revert hone
    unfold PtyWatch.step PtySys.step PtySys.callOf
    dsimp only
    cases hcall : t.sys.calls pid with
    | some call => exact fun _ => h
    | none =>
      have hb := h.base.awake hcall
      dsimp only [Option.isSome_none]
      rw [if_neg (by decide), if_neg (by decide)]
      unfold ptyMasterRead
      split_ifs
      · rw [record_returns]
        exact watchOk_return h hs hpid hb _ _
      · rw [record_returns]
        exact watchOk_return h hs hpid hb _ _
      · exact watchOk_masterRead h hs hpid hb count
  | slaveWrite pid data =>
    obtain ⟨hone, hpid⟩ := hcare
    revert hone
    unfold PtyWatch.step PtySys.step PtySys.callOf
    dsimp only
    cases hcall : t.sys.calls pid with
    | some call => exact fun _ => h
    | none =>
      have hb := h.base.awake hcall
      dsimp only [Option.isSome_none]
      rw [if_neg (by decide), if_neg (by decide)]
      unfold ptySlaveWrite
      split_ifs
      · rw [record_returns]
        exact watchOk_return h hs hpid hb _ _
      · rw [record_returns]
        exact watchOk_return h hs hpid hb _ _
      · exact watchOk_slaveWrite h hs hpid hb data 0
  | slaveRead pid count =>
    obtain ⟨hone, hpid⟩ := hcare
    revert hone
    unfold PtyWatch.step PtySys.step PtySys.callOf
    dsimp only
    cases hcall : t.sys.calls pid with
    | some call => exact fun _ => h
    | none =>
      have hb := h.base.awake hcall
      dsimp only [Option.isSome_none]
      rw [if_neg (by decide), if_neg (by decide)]
      unfold ptySlaveRead
      split_ifs
      · rw [record_returns]
        exact watchOk_return h hs hpid hb _ _
      · rw [record_returns]
        exact watchOk_return h hs hpid hb _ _
      · exact watchOk_slaveRead h hs hpid hb _ _ count fun hmode _ _ => h.base.raw hmode

/-- **No lost PTY wakeup.** In every run of calls on both sides, mode changes and closes whose
steps are all careful, a process that is blocked has reason to be. -/
theorem pty_no_lost_wakeup (modes : UInt32) (pgid : ℤ) (ops : List PtyOp)
    (hops : Run.Allowed PtyWatch.step CarefulStep (PtyWatch.start modes pgid) ops) :
    NoLostPtyWakeup (Run.run PtyWatch.step (PtyWatch.start modes pgid) ops) :=
  (Run.inv_run (I := WatchOk) (fun _ op h hop => watchOk_step h op hop) ops _
    (watchOk_start modes pgid) hops).noLost

/-- Where only one process blocks at all. -/
theorem oneWaiter_of_blocked {s : PtySys} (p : ℤ) (h : ∀ pid, pid ≠ p → s.blocked pid = false) :
    s.OneWaiter := by
  have hp : ∀ pid, s.blocked pid = true → pid = p := by
    intro pid hb
    by_contra hne
    exact absurd ((h pid hne).symm.trans hb) (by decide)
  intro w pid pid' hw hw'
  rw [hp pid hw.1, hp pid' hw'.1]

/-- A reader of the master that the echo of a typed character wakes. -/
theorem pty_reader_woken :
    NoLostPtyWakeup (Run.run PtyWatch.step (PtyWatch.start ptyDefaultModes 0)
      [.masterRead 1 8, .masterWrite 2 [0x61]]) := by
  refine pty_no_lost_wakeup ptyDefaultModes 0 [.masterRead 1 8, .masterWrite 2 [0x61]]
    ⟨⟨?_, by decide⟩, ⟨?_, by decide, fun _ _ _ => ⟨?_, fun _ => trivial⟩⟩, trivial⟩
  · exact oneWaiter_of_blocked 1 fun pid hne => Function.update_of_ne hne ..
  · exact oneWaiter_of_blocked 1 fun pid hne =>
      (Function.update_of_ne hne ..).trans (Function.update_of_ne hne ..)
  · exact fun hecho => absurd hecho (by decide)

/-- Ctrl-C is echoed while process 1 is blocked in a read of the master, which sleeps on. -/
theorem pty_signal_echo_unwoken :
    let ops := [.masterRead 1 8, .masterWrite 2 [ptyVintr]]
    Run.Allowed PtyWatch.step (fun t op => (t.step op).sys.OneWaiter)
        (PtyWatch.start ptyDefaultModes 0) ops ∧
      ¬ NoLostPtyWakeup (Run.run PtyWatch.step (PtyWatch.start ptyDefaultModes 0) ops) := by
  refine ⟨⟨?_, ?_, trivial⟩, fun h => ?_⟩
  · exact oneWaiter_of_blocked 1 fun pid hne => Function.update_of_ne hne ..
  · exact oneWaiter_of_blocked 1 fun pid hne => Function.update_of_ne hne ..
  · have hcount := (h.masterRead 1 ⟨rfl, .masterRead 8, rfl, rfl⟩).1
    exact absurd hcount (by decide)

end Lestra
