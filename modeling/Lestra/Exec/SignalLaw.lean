import Lestra.Exec.Signals
import Lestra.Lib.Run
import Lestra.Sched.Blocking

/-!
# The signal law

* `SignalsOk` — `SIGKILL` and `SIGSTOP` are neither blocked nor handled
* `SignalLaw` — a signal that is no longer pending after a step was delivered in it
* `signals_not_lost` — both hold in every run in which a handler that is to be
  entered finds memory and a usable stack
-/

namespace Lestra

-- ---------------------------------------------------------------------------
-- Bits
-- ---------------------------------------------------------------------------

theorem getLsbD_sigBit (n b : Nat) : (sigBit n).getLsbD b = (decide (n < 64) && decide (b = n)) := by
  unfold sigBit
  rw [BitVec.getLsbD_shiftLeft, BitVec.getLsbD_one]
  by_cases hn : n < 64
  · by_cases hb : b = n
    · simp [hb, hn]
    · simp [hb]
      omega
  · simp [hn]
    omega

theorem getLsbD_clearBit (x : BitVec 64) (n b : Nat) :
    (x &&& ~~~sigBit n).getLsbD b = (x.getLsbD b && decide (b ≠ n)) := by
  by_cases hb : b < 64
  · rw [BitVec.getLsbD_and, BitVec.getLsbD_not, getLsbD_sigBit]
    by_cases hn : b = n
    · subst hn
      simp [hb]
    · simp [hb, hn]
  · rw [BitVec.getLsbD_of_ge _ _ (by omega), BitVec.getLsbD_of_ge _ _ (by omega), Bool.false_and]

theorem and_sigBit_ne_zero {x : BitVec 64} {n : Nat} : x &&& sigBit n ≠ 0#64 ↔ x.getLsbD n = true := by
  constructor
  · intro h
    by_contra hx
    refine h (BitVec.eq_of_getLsbD_eq fun b _ => ?_)
    rw [BitVec.getLsbD_and, getLsbD_sigBit, BitVec.getLsbD_zero]
    by_cases hb : b = n
    · rw [hb]
      simp [hx]
    · simp [hb]
  · intro h h0
    have hn : n < 64 := by
      by_contra hn
      rw [BitVec.getLsbD_of_ge _ _ (by omega)] at h
      cases h
    have hbit : (x &&& sigBit n).getLsbD n = true := by
      rw [BitVec.getLsbD_and, getLsbD_sigBit, h]
      simp [hn]
    rw [h0] at hbit
    simp at hbit

-- ---------------------------------------------------------------------------
-- Signals of a process
-- ---------------------------------------------------------------------------

namespace Process

def Pending (p : Process) (sig : Nat) : Prop := p.signalPending.getLsbD sig = true

def Blocks (p : Process) (sig : Nat) : Prop := p.signalBlocked.getLsbD sig = true

/-- `SIGKILL` and `SIGSTOP` are not blocked and have no handler, and only signals are
pending. -/
structure SignalsOk (p : Process) : Prop where
  mask : ¬ p.Blocks sigkill ∧ ¬ p.Blocks sigstop
  handler : p.handler sigkill = 0#64 ∧ p.handler sigstop = 0#64
  range : ∀ sig, p.Pending sig → 1 ≤ sig ∧ sig < maxSignals

/-- The state that `q` would return to after its handler for `sig` started from `p`. -/
def Enters (p q : Process) (sig : Nat) : Prop :=
  p.handler sig ≠ 0#64 ∧ p.handler sig ≠ 1#64 ∧ q.inSignalHandler = true ∧
    ∃ st, (p.savedState = some st ∨ p.preSignalState = some st) ∧
      q.savedState = some (handlerState st (p.handler sig) sig)

/-- The process exited from the default action of `sig`. -/
def Dies (p q : Process) (sig : Nat) : Prop :=
  p.handler sig = 0#64 ∧ q.state = .zombie ∧ q.exitStatus = 128 + sig

/-- Signal `sig` was delivered: its handler was entered, its default action taken, or it
was ignored. -/
def Delivered (p q : Process) (sig : Nat) : Prop :=
  ¬ p.Blocks sig ∧ (p.Enters q sig ∨ p.Dies q sig ∨
    (p.handler sig = 0#64 ∧ ignoredByDefault sig = true) ∨ p.handler sig = 1#64)

end Process

/-- What one step may do to signals. -/
structure SignalLaw (s s' : Sched) : Prop where
  cleared : ∀ i sig, (s.procs i).Pending sig → ¬ (s'.procs i).Pending sig →
    s.current = some i ∧ (s.procs i).Delivered (s'.procs i) sig
  entered : ∀ i, (s'.procs i).savedState = (s.procs i).savedState ∨
    (s'.procs i).savedState = (s.procs i).preSignalState ∨
    ∃ sig, (s.procs i).Pending sig ∧ ¬ (s.procs i).Blocks sig ∧ (s.procs i).Enters (s'.procs i) sig
  died : ∀ i, (s'.procs i).state = .zombie → (s.procs i).state = .zombie ∨
    ∃ sig, (s.procs i).Pending sig ∧ ¬ (s.procs i).Blocks sig ∧ (s.procs i).Dies (s'.procs i) sig

-- ---------------------------------------------------------------------------
-- Steps that deliver nothing
-- ---------------------------------------------------------------------------

/-- `q` is `p` with perhaps more signals pending. -/
structure Process.Carries (p q : Process) : Prop where
  sigactions : q.sigactions = p.sigactions
  signalBlocked : q.signalBlocked = p.signalBlocked
  savedState : q.savedState = p.savedState
  preSignalState : q.preSignalState = p.preSignalState
  inSignalHandler : q.inSignalHandler = p.inSignalHandler
  pending : ∀ sig, p.Pending sig → q.Pending sig
  posted : ∀ sig, q.Pending sig → p.Pending sig ∨ 1 ≤ sig ∧ sig < maxSignals

theorem Process.Carries.refl (p : Process) : p.Carries p :=
  ⟨rfl, rfl, rfl, rfl, rfl, fun _ h => h, fun _ h => .inl h⟩

theorem Process.Carries.trans {p q r : Process} (h : p.Carries q) (h' : q.Carries r) :
    p.Carries r := by
  refine ⟨h'.sigactions.trans h.sigactions, h'.signalBlocked.trans h.signalBlocked,
    h'.savedState.trans h.savedState, h'.preSignalState.trans h.preSignalState,
    h'.inSignalHandler.trans h.inSignalHandler, fun sig hp => h'.pending sig (h.pending sig hp),
    fun sig hp => ?_⟩
  rcases h'.posted sig hp with hp | hr
  · exact h.posted sig hp
  · exact .inr hr

theorem Process.Carries.signalsOk {p q : Process} (h : p.Carries q) (hp : p.SignalsOk) :
    q.SignalsOk := by
  refine ⟨?_, ?_, fun sig hq => ?_⟩
  · unfold Process.Blocks
    rw [h.signalBlocked]
    exact hp.mask
  · unfold Process.handler
    rw [h.sigactions]
    exact hp.handler
  · rcases h.posted sig hq with hp' | hr
    · exact hp.range sig hp'
    · exact hr

/-- Every process carries its signals on. -/
def CarriesAll (s s' : Sched) : Prop := ∀ i, (s.procs i).Carries (s'.procs i)

theorem CarriesAll.refl (s : Sched) : CarriesAll s s := fun _ => .refl _

theorem CarriesAll.trans {s s' s'' : Sched} (h : CarriesAll s s') (h' : CarriesAll s' s'') :
    CarriesAll s s'' := fun i => (h i).trans (h' i)

theorem CarriesAll.modify {s : Sched} {i : Fin maxProcs} {f : Process → Process}
    (hf : (s.procs i).Carries (f (s.procs i))) : CarriesAll s (s.modify i f) := by
  intro j
  by_cases hj : j = i
  · rw [hj, Sched.modify_same]
    exact hf
  · rw [Sched.modify_ne _ hj]
    exact .refl _

theorem CarriesAll.setState {s : Sched} (i : Fin maxProcs) (st : ProcState) :
    CarriesAll s (s.setState i st) :=
  .modify ⟨rfl, rfl, rfl, rfl, rfl, fun _ h => h, fun _ h => .inl h⟩

theorem taskUnblockPid_carries (s : Sched) (pid : Int) : CarriesAll s (taskUnblockPid s pid) := by
  unfold taskUnblockPid taskUnblock
  split
  · exact .refl s
  · split
    · exact .setState _ _
    · exact .refl s

theorem schedule_carries (s : Sched) : CarriesAll s (schedule s) := by
  rcases schedule_cases s with ⟨he, _⟩ | ⟨next, _, _, _, he⟩
  · rw [he]
    exact .refl s
  · have hpre : CarriesAll s (preempt s) := by
      unfold preempt
      split
      · exact .refl s
      · split
        · exact .setState _ _
        · exact .refl s
    rw [he]
    exact hpre.trans (CarriesAll.setState (s := { preempt s with current := some next }) next _)

theorem reparent_carries (s : Sched) (pid : Int) : CarriesAll s (reparent s pid) := by
  rw [reparent_eq]
  exact fun i => ⟨rfl, rfl, rfl, rfl, rfl, fun _ h => h, fun _ h => .inl h⟩

theorem postSignal_carries (s : Sched) (i : Fin maxProcs) {sig : Nat}
    (hsig : 1 ≤ sig ∧ sig < maxSignals) : CarriesAll s (postSignal s i sig) := by
  have hpost : CarriesAll s
      (s.modify i fun p => { p with signalPending := p.signalPending ||| sigBit sig }) := by
    refine .modify ⟨rfl, rfl, rfl, rfl, rfl, fun b hb => ?_, fun b hb => ?_⟩
    · have hpend : (s.procs i).signalPending.getLsbD b = true := hb
      show ((s.procs i).signalPending ||| sigBit sig).getLsbD b = true
      rw [BitVec.getLsbD_or, hpend, Bool.true_or]
    · have hor : ((s.procs i).signalPending ||| sigBit sig).getLsbD b = true := hb
      rw [BitVec.getLsbD_or, Bool.or_eq_true, getLsbD_sigBit, Bool.and_eq_true,
        decide_eq_true_eq, decide_eq_true_eq] at hor
      rcases hor with hp | ⟨_, rfl⟩
      · exact .inl hp
      · exact .inr hsig
  unfold postSignal
  dsimp only
  split
  · exact hpost.trans (.setState _ _)
  · exact hpost

theorem signalKill_carries (s : Sched) (pid sig : Int) : CarriesAll s (signalKill s pid sig).1 := by
  unfold signalKill
  split
  · exact .refl s
  case isFalse hrange =>
    have hsig : sig ≠ 0 → 1 ≤ sig.toNat ∧ sig.toNat < maxSignals := fun h0 => by omega
    split
    · split
      · exact .refl s
      · split
        · exact .refl s
        case isFalse h0 => exact postSignal_carries s _ (hsig h0)
    · dsimp only
      refine Sched.forProcs_ind (P := CarriesAll s) ?_ (CarriesAll.refl s)
      intro s' i h
      split
      · split
        case isTrue h0 => exact h.trans (postSignal_carries s' i (hsig h0))
        case isFalse => exact h
      · exact h

/-- Such a step obeys the law if it makes no zombie. -/
theorem CarriesAll.law {s s' : Sched} (h : CarriesAll s s')
    (hz : ∀ i, (s'.procs i).state = .zombie → (s.procs i).state = .zombie) : SignalLaw s s' where
  cleared i sig hp hn := absurd ((h i).pending sig hp) hn
  entered i := .inl (h i).savedState
  died i hd := .inl (hz i hd)

theorem CarriesAll.signalsOk {s s' : Sched} (h : CarriesAll s s')
    (hs : ∀ i, (s.procs i).SignalsOk) (i : Fin maxProcs) : (s'.procs i).SignalsOk :=
  (h i).signalsOk (hs i)

theorem schedule_zombie {s : Sched} {i : Fin maxProcs} :
    ((schedule s).procs i).state = .zombie ↔ (s.procs i).state = .zombie :=
  schedule_state s i (by decide) (by decide)

theorem Woken.zombie {s s' : Sched} (h : Woken s s') (i : Fin maxProcs) :
    (s'.procs i).state = .zombie ↔ (s.procs i).state = .zombie := by
  rcases h.state i with he | ⟨hb, hr⟩
  · rw [he]
  · rw [hb, hr]
    decide

-- ---------------------------------------------------------------------------
-- Exit
-- ---------------------------------------------------------------------------

/-- `proc_exit` carries all signals on and makes its caller a zombie. -/
theorem procExit_signals {k : Kernel} {c : Fin maxProcs} (hc : k.sched.current = some c)
    (status : Int) :
    CarriesAll k.sched (procExit k status).sched ∧
      (∀ i, i ≠ c → ((procExit k status).sched.procs i).state = .zombie →
        (k.sched.procs i).state = .zombie) ∧
      ((procExit k status).sched.procs c).state = .zombie ∧
      ((procExit k status).sched.procs c).exitStatus = status := by
  unfold procExit
  rw [hc]
  dsimp only
  generalize hs₁ : (k.sched.modify c fun p =>
    { p with fds := (fdTableCloseAll k.pipes (k.sched.procs c).fds).2 }) = s₁
  have hclose : CarriesAll k.sched s₁ := by
    rw [← hs₁]
    exact .modify ⟨rfl, rfl, rfl, rfl, rfl, fun _ h => h, fun _ h => .inl h⟩
  have hstate₁ : ∀ i, (s₁.procs i).state = (k.sched.procs i).state := by
    intro i
    rw [← hs₁]
    exact Sched.modify_field Process.state (by intro p; rfl) i
  have hb := buryProcess_buried s₁ c status
  have hbury : CarriesAll s₁ (buryProcess s₁ c status) ∧
      ((buryProcess s₁ c status).procs c).exitStatus = status := by
    unfold buryProcess wakeParent
    generalize hs₂ : reparent s₁ (s₁.procs c).pid = s₂
    have hre : CarriesAll s₁ s₂ := hs₂ ▸ reparent_carries s₁ _
    dsimp only
    generalize hs₃ : (if 0 < (s₂.procs c).parentPid then
      (signalKill s₂ (s₂.procs c).parentPid 17).1 else s₂) = s₃
    have hkill : CarriesAll s₂ s₃ := by
      rw [← hs₃]
      split
      · exact signalKill_carries s₂ _ 17
      · exact .refl s₂
    generalize hs₄ : (s₃.modify c fun p =>
      { p with needsKstackFree := true, state := .zombie, exitStatus := status }) = s₄
    have hzombie : CarriesAll s₃ s₄ := by
      rw [← hs₄]
      exact .modify ⟨rfl, rfl, rfl, rfl, rfl, fun _ h => h, fun _ h => .inl h⟩
    refine ⟨((hre.trans hkill).trans hzombie).trans (taskUnblockPid_carries s₄ _), ?_⟩
    rw [((taskUnblockPid_woken s₄ _).alike c).exitStatus, ← hs₄, Sched.modify_same]
  refine ⟨(hclose.trans hbury.1).trans (schedule_carries _), fun i hi hz => ?_, ?_, ?_⟩
  · rw [schedule_zombie] at hz
    rcases hb.state i hi with he | ⟨_, hr⟩
    · rw [← hstate₁ i, ← he]
      exact hz
    · rw [hr] at hz
      cases hz
  · exact schedule_zombie.mpr hb.zombie
  · rw [((schedule_rescheduled _).alike c).exitStatus]
    exact hbury.2

-- ---------------------------------------------------------------------------
-- Delivery
-- ---------------------------------------------------------------------------

/-- The signal that is picked can be delivered. -/
theorem firstSignal_spec {x : BitVec 64} (hx : x ≠ 0#64)
    (hrange : ∀ b, x.getLsbD b = true → 1 ≤ b ∧ b < maxSignals) :
    x.getLsbD (firstSignal x) = true := by
  have hmax : maxSignals = 32 := rfl
  obtain ⟨b, hb⟩ : ∃ b, x.getLsbD b = true := by
    by_contra hno
    refine hx (BitVec.eq_of_getLsbD_eq fun b _ => ?_)
    rw [BitVec.getLsbD_zero, Bool.eq_false_iff]
    exact fun hb => hno ⟨b, hb⟩
  unfold firstSignal
  cases hf : (List.range' 1 (maxSignals - 1)).find? fun i => x &&& sigBit i ≠ 0#64 with
  | none =>
    have hmem : b ∈ List.range' 1 (maxSignals - 1) := by
      have := hrange b hb
      rw [List.mem_range'_1]
      omega
    have := List.find?_eq_none.mp hf b hmem
    simp only [decide_eq_true_eq, not_not] at this
    exact absurd this (and_sigBit_ne_zero.mpr hb)
  | some sig =>
    have := List.find?_some hf
    simp only [decide_eq_true_eq] at this
    exact and_sigBit_ne_zero.mp this

/-- If a handler is to be entered, there is memory for the saved state, and the user stack
takes the frame. -/
def Process.DeliveryFits (p : Process) (kmallocOk : Bool) : Prop :=
  ∀ st, p.savedState = some st → p.inSignalHandler = false →
    p.signalPending &&& ~~~p.signalBlocked ≠ 0#64 →
    p.handler (firstSignal (p.signalPending &&& ~~~p.signalBlocked)) ≠ 0#64 →
    p.handler (firstSignal (p.signalPending &&& ~~~p.signalBlocked)) ≠ 1#64 →
    kmallocOk = true ∧ stackUserOk st.rsp = true

/-- The law, for a step that never returns from a handler. -/
structure DeliverLaw (s s' : Sched) : Prop where
  law : SignalLaw s s'
  ok : ∀ i, (s'.procs i).SignalsOk
  entered : ∀ i, (s'.procs i).savedState = (s.procs i).savedState ∨
    ∃ sig, (s.procs i).Pending sig ∧ ¬ (s.procs i).Blocks sig ∧ (s.procs i).Enters (s'.procs i) sig

theorem DeliverLaw.refl {s : Sched} (hok : ∀ i, (s.procs i).SignalsOk) : DeliverLaw s s :=
  ⟨(CarriesAll.refl s).law fun _ h => h, hok, fun _ => .inl rfl⟩

/-- A step of process `c` that delivers `sig`, and nothing to the others. -/
theorem DeliverLaw.of_delivered {s s' : Sched} {c : Fin maxProcs} {sig : Nat}
    (hc : s.current = some c) (hok : ∀ i, (s'.procs i).SignalsOk)
    (hother : ∀ i, i ≠ c → (s.procs i).Carries (s'.procs i) ∧
      ((s'.procs i).state = .zombie → (s.procs i).state = .zombie))
    (hpend : ∀ b, b ≠ sig → (s.procs c).Pending b → (s'.procs c).Pending b)
    (hsig : (s.procs c).Pending sig) (hdel : (s.procs c).Delivered (s'.procs c) sig)
    (hsaved : (s'.procs c).savedState = (s.procs c).savedState ∨
      (s.procs c).Enters (s'.procs c) sig)
    (hdied : (s'.procs c).state = .zombie → (s.procs c).state = .zombie ∨
      (s.procs c).Dies (s'.procs c) sig) : DeliverLaw s s' := by
  have hentered : ∀ i, (s'.procs i).savedState = (s.procs i).savedState ∨
      ∃ sig, (s.procs i).Pending sig ∧ ¬ (s.procs i).Blocks sig ∧
        (s.procs i).Enters (s'.procs i) sig := by
    intro i
    by_cases hi : i = c
    · subst hi
      exact hsaved.imp_right fun he => ⟨sig, hsig, hdel.1, he⟩
    · exact .inl (hother i hi).1.savedState
  refine ⟨⟨fun i b hp hn => ?_, fun i => ?_, fun i hz => ?_⟩, hok, hentered⟩
  · by_cases hi : i = c
    · subst hi
      obtain rfl : b = sig := by
        by_contra hne
        exact hn (hpend b hne hp)
      exact ⟨hc, hdel⟩
    · exact absurd ((hother i hi).1.pending b hp) hn
  · exact (hentered i).imp_right .inr
  · by_cases hi : i = c
    · subst hi
      exact (hdied hz).imp_right fun hd => ⟨sig, hsig, hdel.1, hd⟩
    · exact .inl ((hother i hi).2 hz)

/-- The process after its signal `sig` is no longer pending. -/
def clearPending (sig : Nat) (p : Process) : Process :=
  { p with signalPending := p.signalPending &&& ~~~sigBit sig }

theorem clearPending_pending {p : Process} {sig b : Nat} :
    (clearPending sig p).Pending b ↔ p.Pending b ∧ b ≠ sig := by
  unfold Process.Pending clearPending
  rw [getLsbD_clearBit]
  simp

theorem deliver_law {k : Kernel} {c : Fin maxProcs} {kmallocOk : Bool}
    (hc : k.sched.current = some c) (hok : ∀ i, (k.sched.procs i).SignalsOk)
    (hfit : (k.sched.procs c).DeliveryFits kmallocOk) :
    DeliverLaw k.sched (signalCheckAndDeliver k kmallocOk).sched := by
  have hnothing : DeliverLaw k.sched k.sched := .refl hok
  unfold signalCheckAndDeliver
  rw [hc]
  dsimp only
  cases hst : (k.sched.procs c).savedState with
  | none => exact hnothing
  | some st =>
    dsimp only
    by_cases hin : (k.sched.procs c).inSignalHandler = true
    · rw [if_pos hin]
      exact hnothing
    rw [if_neg hin]
    by_cases hp0 : (k.sched.procs c).signalPending = 0#64
    · rw [if_pos hp0]
      exact hnothing
    rw [if_neg hp0]
    by_cases hd0 : (k.sched.procs c).signalPending &&& ~~~(k.sched.procs c).signalBlocked = 0#64
    · rw [if_pos hd0]
      exact hnothing
    rw [if_neg hd0]
    have hfit := hfit st hst (by simpa using hin) hd0
    -- the signal that is picked is pending and not blocked
    have hbits : ∀ b, ((k.sched.procs c).signalPending &&&
        ~~~(k.sched.procs c).signalBlocked).getLsbD b = true →
        (k.sched.procs c).Pending b ∧ ¬ (k.sched.procs c).Blocks b := by
      intro b hb
      rw [BitVec.getLsbD_and, BitVec.getLsbD_not, Bool.and_eq_true, Bool.and_eq_true] at hb
      exact ⟨hb.1, by unfold Process.Blocks; simpa using hb.2.2⟩
    obtain ⟨hpend, hblock⟩ := hbits _ (firstSignal_spec hd0 fun b hb =>
      (hok c).range b (hbits b hb).1)
    generalize firstSignal ((k.sched.procs c).signalPending &&&
      ~~~(k.sched.procs c).signalBlocked) = sig at hfit hpend hblock ⊢
    have hclear : ∀ i, i ≠ c → ((k.sched.modify c (clearPending sig)).procs i) =
        k.sched.procs i := fun i hi => Sched.modify_ne _ hi
    have hself : (k.sched.modify c (clearPending sig)).procs c =
        clearPending sig (k.sched.procs c) := Sched.modify_same _
    have hok₁ : ∀ i, ((k.sched.modify c (clearPending sig)).procs i).SignalsOk := by
      intro i
      by_cases hi : i = c
      · rw [hi, hself]
        exact ⟨(hok c).mask, (hok c).handler,
          fun b hb => (hok c).range b (clearPending_pending.mp hb).1⟩
      · rw [hclear i hi]
        exact hok i
    -- the signal is ignored
    have hignored : (k.sched.procs c).Delivered (clearPending sig (k.sched.procs c)) sig →
        DeliverLaw k.sched (k.sched.modify c (clearPending sig)) := by
      intro hdel
      refine .of_delivered hc hok₁ (fun i hi => ?_) (fun b hb hp => ?_) hpend (by rwa [hself])
        (.inl (by rw [hself]; rfl)) (fun hz => .inl ?_)
      · rw [hclear i hi]
        exact ⟨.refl _, id⟩
      · rw [hself]
        exact clearPending_pending.mpr ⟨hp, hb⟩
      · rw [hself] at hz
        exact hz
    by_cases h0 : (k.sched.procs c).handler sig = 0#64
    · rw [if_pos h0]
      by_cases hign : ignoredByDefault sig = true
      · rw [if_pos hign]
        exact hignored ⟨hblock, .inr (.inr (.inl ⟨h0, hign⟩))⟩
      · rw [if_neg hign]
        obtain ⟨hcarry, hzombie, hz, hstatus⟩ := procExit_signals
          (k := { k with sched := k.sched.modify c (clearPending sig) }) hc (128 + sig)
        have hdies : (k.sched.procs c).Dies ((procExit { k with
            sched := k.sched.modify c (clearPending sig) } (128 + sig)).sched.procs c) sig :=
          ⟨h0, hz, hstatus⟩
        have hcc := hcarry c
        rw [show (({ k with sched := k.sched.modify c (clearPending sig) } : Kernel).sched.procs c) =
          clearPending sig (k.sched.procs c) from hself] at hcc
        refine .of_delivered hc (hcarry.signalsOk hok₁) (fun i hi => ?_) (fun b hb hp => ?_) hpend
          ⟨hblock, .inr (.inl hdies)⟩ (.inl hcc.savedState) (fun _ => .inr hdies)
        · have hci := hcarry i
          have hzi := hzombie i hi
          dsimp only at hci hzi
          rw [hclear i hi] at hci hzi
          exact ⟨hci, hzi⟩
        · exact hcc.pending b (clearPending_pending.mpr ⟨hp, hb⟩)
    · rw [if_neg h0]
      by_cases h1 : (k.sched.procs c).handler sig = 1#64
      · rw [if_pos h1]
        exact hignored ⟨hblock, .inr (.inr (.inr h1))⟩
      · rw [if_neg h1]
        obtain ⟨hmem, hstack⟩ := hfit h0 h1
        generalize hs' : (k.sched.modify c (clearPending sig)).modify c
          (fun p => enterHandler p st sig kmallocOk) = s'
        have hslot : ∀ i, i ≠ c → s'.procs i = k.sched.procs i := by
          intro i hi
          rw [← hs', Sched.modify_ne _ hi, hclear i hi]
        have hnew : s'.procs c = { clearPending sig (k.sched.procs c) with
            preSignalState := some st
            savedState := some (handlerState st ((k.sched.procs c).handler sig) sig)
            inSignalHandler := true } := by
          rw [← hs', Sched.modify_same, hself, enterHandler, hmem, hstack]
          rfl
        have henters : (k.sched.procs c).Enters (s'.procs c) sig := by
          rw [hnew]
          exact ⟨h0, h1, rfl, st, .inl hst, rfl⟩
        have hok' : ∀ i, (s'.procs i).SignalsOk := by
          intro i
          by_cases hi : i = c
          · rw [hi, hnew]
            have := hok₁ c
            rw [hself] at this
            exact ⟨this.mask, this.handler, this.range⟩
          · rw [hslot i hi]
            exact hok i
        have hlaw : DeliverLaw k.sched s' := by
          refine .of_delivered hc hok' (fun i hi => ?_) (fun b hb hp => ?_) hpend
            ⟨hblock, .inl henters⟩ (.inr henters) (fun hz => .inl ?_)
          · rw [hslot i hi]
            exact ⟨.refl _, id⟩
          · rw [hnew]
            exact clearPending_pending.mpr ⟨hp, hb⟩
          · rw [hnew] at hz
            exact hz
        rw [← hs'] at hlaw
        exact hlaw

/-- A law for the restored state is one for the state before `sigreturn`. -/
theorem DeliverLaw.of_restored {s s' : Sched} {c : Fin maxProcs}
    (h : DeliverLaw (s.modify c restoreState) s') : SignalLaw s s' := by
  have hself : (s.modify c restoreState).procs c = restoreState (s.procs c) := Sched.modify_same _
  have hother : ∀ i, i ≠ c → (s.modify c restoreState).procs i = s.procs i :=
    fun i hi => Sched.modify_ne _ hi
  have henters : ∀ (p q : Process) sig, (restoreState p).Enters q sig → p.Enters q sig := by
    rintro p q sig ⟨h0, h1, hin, st, hst | hst, hq⟩
    · exact ⟨h0, h1, hin, st, .inr hst, hq⟩
    · cases hst
  refine ⟨fun i sig hp hn => ?_, fun i => ?_, fun i hz => ?_⟩
  · have hcl := h.law.cleared i sig
    by_cases hi : i = c
    · subst hi
      rw [hself] at hcl
      obtain ⟨hcur, hb, hdel⟩ := hcl hp hn
      exact ⟨hcur, hb, hdel.imp_left (henters _ _ sig)⟩
    · rw [hother i hi] at hcl
      exact hcl hp hn
  · have he := h.entered i
    by_cases hi : i = c
    · subst hi
      rw [hself] at he
      refine .inr (he.imp id ?_)
      rintro ⟨sig, hp, hb, he⟩
      exact ⟨sig, hp, hb, henters _ _ sig he⟩
    · rw [hother i hi] at he
      exact he.imp_right .inr
  · have hd := h.law.died i hz
    by_cases hi : i = c
    · subst hi
      rw [hself] at hd
      exact hd
    · rw [hother i hi] at hd
      exact hd

-- ---------------------------------------------------------------------------
-- Disposition and mask
-- ---------------------------------------------------------------------------

/-- Changing neither pending signals nor control. -/
theorem SignalLaw.modify {s : Sched} {c : Fin maxProcs} {f : Process → Process}
    (hf : ∀ p, (f p).signalPending = p.signalPending ∧ (f p).savedState = p.savedState ∧
      (f p).state = p.state) : SignalLaw s (s.modify c f) := by
  have hslot : ∀ i, ((s.modify c f).procs i).signalPending = (s.procs i).signalPending ∧
      ((s.modify c f).procs i).savedState = (s.procs i).savedState ∧
      ((s.modify c f).procs i).state = (s.procs i).state := by
    intro i
    by_cases hi : i = c
    · rw [hi, Sched.modify_same]
      exact hf _
    · rw [Sched.modify_ne _ hi]
      exact ⟨rfl, rfl, rfl⟩
  refine ⟨fun i sig hp hn => absurd ?_ hn, fun i => .inl (hslot i).2.1, fun i hz => .inl ?_⟩
  · unfold Process.Pending
    rw [(hslot i).1]
    exact hp
  · rw [← (hslot i).2.2]
    exact hz

theorem signalsOk_modify {s : Sched} {c : Fin maxProcs} {f : Process → Process}
    (hs : ∀ i, (s.procs i).SignalsOk) (hf : (s.procs c).SignalsOk → (f (s.procs c)).SignalsOk)
    (i : Fin maxProcs) : ((s.modify c f).procs i).SignalsOk := by
  by_cases hi : i = c
  · rw [hi, Sched.modify_same]
    exact hf (hs c)
  · rw [Sched.modify_ne _ hi]
    exact hs i

theorem signalSigaction_law {s : Sched} (hs : ∀ i, (s.procs i).SignalsOk) (signum : Int)
    (act oldact : BitVec 64) (kernAct : SigactionEntry) :
    SignalLaw s (signalSigaction s signum act oldact kernAct).1 ∧
      ∀ i, (((signalSigaction s signum act oldact kernAct).1.procs i)).SignalsOk := by
  have hnothing : SignalLaw s s ∧ ∀ i, (s.procs i).SignalsOk :=
    ⟨(CarriesAll.refl s).law fun _ h => h, hs⟩
  unfold signalSigaction
  split
  · exact hnothing
  case isFalse hrange =>
    split
    · exact hnothing
    case isFalse hreserved =>
      split
      · exact hnothing
      case h_2 c _ =>
        dsimp only
        split
        · exact hnothing
        · split
          · exact hnothing
          · split
            · exact hnothing
            · dsimp only
              refine ⟨SignalLaw.modify fun p => ?_, signalsOk_modify hs fun hp => ?_⟩
              · exact ⟨rfl, rfl, rfl⟩
              -- neither SIGKILL nor SIGSTOP gets here
              have hkeep : ∀ sig, (sig = sigkill ∨ sig = sigstop) →
                  Process.handler { s.procs c with
                    sigactions := (s.procs c).sigactions.set signum.toNat kernAct } sig =
                      (s.procs c).handler sig := by
                intro sig hsig
                have hne : signum.toNat ≠ sig := by
                  rintro rfl
                  have h0 : ((signum.toNat : Nat) : Int) = signum := by omega
                  exact hreserved (hsig.imp (fun h => by rw [← h, h0]) fun h => by rw [← h, h0])
                unfold Process.handler
                dsimp only
                rw [List.getD_eq_getElem?_getD, List.getD_eq_getElem?_getD,
                  List.getElem?_set_ne hne]
              exact ⟨hp.mask, ⟨(hkeep _ (.inl rfl)).trans hp.handler.1,
                (hkeep _ (.inr rfl)).trans hp.handler.2⟩, hp.range⟩

theorem signalSigprocmask_law {s : Sched} (hs : ∀ i, (s.procs i).SignalsOk) (how : Int)
    (set oldset m : BitVec 64) :
    SignalLaw s (signalSigprocmask s how set oldset m).1 ∧
      ∀ i, (((signalSigprocmask s how set oldset m).1.procs i)).SignalsOk := by
  have hnothing : SignalLaw s s ∧ ∀ i, (s.procs i).SignalsOk :=
    ⟨(CarriesAll.refl s).law fun _ h => h, hs⟩
  unfold signalSigprocmask
  split
  · exact hnothing
  case h_2 c _ =>
    split
    · exact hnothing
    · dsimp only
      split
      · exact hnothing
      · split
        · exact hnothing
        · split
          · exact hnothing
          case h_2 blocked _ =>
            dsimp only
            refine ⟨SignalLaw.modify fun p => ?_,
              signalsOk_modify hs fun hp => ⟨?_, hp.handler, hp.range⟩⟩
            · exact ⟨rfl, rfl, rfl⟩
            have hfree : ∀ sig, (sig = sigkill ∨ sig = sigstop) →
                (blocked &&& ~~~unblockable).getLsbD sig = false := by
              rintro sig (rfl | rfl) <;>
                rw [BitVec.getLsbD_and, BitVec.getLsbD_not,
                  show unblockable.getLsbD _ = true by decide] <;> simp
            unfold Process.Blocks
            simp [hfree]

-- ---------------------------------------------------------------------------
-- Runs
-- ---------------------------------------------------------------------------

/-- The signal calls of the current process, signals to any process, delivery before the
return to user mode, and switches between processes. -/
inductive SignalOp where
  | kill (pid sig : Int)
  | sigaction (signum : Int) (act oldact : BitVec 64) (kernAct : SigactionEntry)
  | sigprocmask (how : Int) (set oldset m : BitVec 64)
  | deliver (kmallocOk : Bool)
  | sigreturn (kmallocOk : Bool)
  | schedule

def Kernel.signalStep (k : Kernel) : SignalOp → Kernel
  | .kill pid sig => { k with sched := (signalKill k.sched pid sig).1 }
  | .sigaction signum act oldact kernAct =>
    { k with sched := (signalSigaction k.sched signum act oldact kernAct).1 }
  | .sigprocmask how set oldset m =>
    { k with sched := (signalSigprocmask k.sched how set oldset m).1 }
  | .deliver kmallocOk => signalCheckAndDeliver k kmallocOk
  | .sigreturn kmallocOk => (signalSigreturn k kmallocOk).1
  | .schedule => { k with sched := Lestra.schedule k.sched }

/-- A handler that is to be entered finds memory and a usable user stack. -/
def HandlersFit (k : Kernel) : SignalOp → Prop
  | .deliver kmallocOk => ∀ c, k.sched.current = some c →
      (k.sched.procs c).DeliveryFits kmallocOk
  | .sigreturn kmallocOk => ∀ c, k.sched.current = some c →
      (k.sched.procs c).inSignalHandler = true → (k.sched.procs c).preSignalState.isSome →
      (restoreState (k.sched.procs c)).DeliveryFits kmallocOk
  | _ => True

theorem signalStep_law {k : Kernel} {op : SignalOp} (hok : ∀ i, (k.sched.procs i).SignalsOk)
    (hfit : HandlersFit k op) : SignalLaw k.sched (k.signalStep op).sched ∧
      ∀ i, (((k.signalStep op).sched.procs i)).SignalsOk := by
  have hnothing : SignalLaw k.sched k.sched ∧ ∀ i, (k.sched.procs i).SignalsOk :=
    ⟨(CarriesAll.refl _).law fun _ h => h, hok⟩
  cases op with
  | kill pid sig =>
    have hcarry := signalKill_carries k.sched pid sig
    exact ⟨hcarry.law fun i => ((signalKill_woken k.sched pid sig).zombie i).mp,
      hcarry.signalsOk hok⟩
  | sigaction signum act oldact kernAct => exact signalSigaction_law hok signum act oldact kernAct
  | sigprocmask how set oldset m => exact signalSigprocmask_law hok how set oldset m
  | deliver kmallocOk =>
    show SignalLaw _ (signalCheckAndDeliver k kmallocOk).sched ∧
      ∀ i, ((signalCheckAndDeliver k kmallocOk).sched.procs i).SignalsOk
    cases hc : k.sched.current with
    | none =>
      unfold signalCheckAndDeliver
      rw [hc]
      exact hnothing
    | some c =>
      have h := deliver_law hc hok (hfit c hc)
      exact ⟨h.law, h.ok⟩
  | sigreturn kmallocOk =>
    show SignalLaw _ (signalSigreturn k kmallocOk).1.sched ∧
      ∀ i, ((signalSigreturn k kmallocOk).1.sched.procs i).SignalsOk
    unfold signalSigreturn
    cases hc : k.sched.current with
    | none => exact hnothing
    | some c =>
      dsimp only
      split
      · exact hnothing
      case isFalse hin =>
        have hfit := hfit c hc (by simpa using (not_or.mp hin).1)
          (by simpa [Option.isSome_iff_ne_none] using (not_or.mp hin).2)
        have hok₁ : ∀ i, ((k.sched.modify c restoreState).procs i).SignalsOk :=
          signalsOk_modify hok fun hp => ⟨hp.mask, hp.handler, hp.range⟩
        have h := deliver_law (k := { k with sched := k.sched.modify c restoreState }) hc hok₁ (by
          show ((k.sched.modify c restoreState).procs c).DeliveryFits kmallocOk
          rw [Sched.modify_same]
          exact hfit)
        exact ⟨h.of_restored, h.ok⟩
  | schedule =>
    have hcarry := schedule_carries k.sched
    exact ⟨hcarry.law fun i => schedule_zombie.mp, hcarry.signalsOk hok⟩

/-- **Signals are never lost or mis-delivered** in every run in which a handler that is
to be entered finds memory and a usable stack. -/
theorem signals_not_lost {k : Kernel} (hok : ∀ i, (k.sched.procs i).SignalsOk)
    (ops : List SignalOp) (hops : Run.Allowed Kernel.signalStep HandlersFit k ops) :
    (∀ i, ((Run.run Kernel.signalStep k ops).sched.procs i).SignalsOk) ∧
      ∀ op, HandlersFit (Run.run Kernel.signalStep k ops) op →
        SignalLaw (Run.run Kernel.signalStep k ops).sched
          ((Run.run Kernel.signalStep k ops).signalStep op).sched := by
  have h := Run.inv_run (I := fun k : Kernel => ∀ i, (k.sched.procs i).SignalsOk)
    (fun _ _ h hfit => (signalStep_law h hfit).2) ops k hok hops
  exact ⟨h, fun op hfit => (signalStep_law h hfit).1⟩

/-- A process without signals yet. -/
theorem signalsOk_of_none {p : Process} (hpend : p.signalPending = 0#64)
    (hblocked : p.signalBlocked = 0#64) (hkill : p.handler sigkill = 0#64)
    (hstop : p.handler sigstop = 0#64) : p.SignalsOk := by
  refine ⟨?_, ⟨hkill, hstop⟩, fun sig hp => ?_⟩
  · unfold Process.Blocks
    rw [hblocked]
    decide
  · unfold Process.Pending at hp
    rw [hpend] at hp
    simp at hp

theorem initKernel_signalsOk (i : Fin maxProcs) : (initKernel.sched.procs i).SignalsOk := by
  have h : ∀ i, (initKernel.sched.procs i).signalPending = 0#64 ∧
      (initKernel.sched.procs i).signalBlocked = 0#64 ∧
      (initKernel.sched.procs i).handler sigkill = 0#64 ∧
      (initKernel.sched.procs i).handler sigstop = 0#64 := by decide
  obtain ⟨h₁, h₂, h₃, h₄⟩ := h i
  exact signalsOk_of_none h₁ h₂ h₃ h₄

/-- Init handles signal 10 and sends it to itself. -/
def handled : List SignalOp := [.sigaction 10 0x500000#64 0 ⟨0x400100#64, 0, 0⟩, .kill 1 10]

/-- Its handler is entered. -/
theorem signals_not_lost_handled :
    SignalLaw (Run.run Kernel.signalStep initKernel handled).sched
      ((Run.run Kernel.signalStep initKernel handled).signalStep (.deliver true)).sched := by
  refine (signals_not_lost initKernel_signalsOk handled ⟨trivial, trivial, trivial⟩).2
    (.deliver true) fun c hc st hst _ _ _ _ => ⟨rfl, ?_⟩
  have hrsp : ∀ c, (Run.run Kernel.signalStep initKernel handled).sched.current = some c →
      ((Run.run Kernel.signalStep initKernel handled).sched.procs c).savedState.map (·.rsp) =
        some 0x7FFFFFDFFFF0#64 := by decide
  have hr := hrsp c hc
  rw [hst] at hr
  rw [show st.rsp = 0x7FFFFFDFFFF0#64 from Option.some.inj hr]
  decide

/-- Without memory for the saved state the signal is lost. -/
theorem failed_delivery_loses_signal :
    ¬ SignalLaw (Run.run Kernel.signalStep initKernel handled).sched
      ((Run.run Kernel.signalStep initKernel handled).signalStep (.deliver false)).sched := by
  intro h
  have hpend : ((Run.run Kernel.signalStep initKernel handled).sched.procs
      ⟨0, by decide⟩).signalPending.getLsbD 10 = true := by decide
  have hgone : ((((Run.run Kernel.signalStep initKernel handled).signalStep
      (.deliver false)).sched.procs ⟨0, by decide⟩).signalPending.getLsbD 10) = false := by
    decide
  have hin : ((((Run.run Kernel.signalStep initKernel handled).signalStep
      (.deliver false)).sched.procs ⟨0, by decide⟩).inSignalHandler) = false := by decide
  have hhandler : ((Run.run Kernel.signalStep initKernel handled).sched.procs
      ⟨0, by decide⟩).handler 10 = 0x400100#64 := by decide
  obtain ⟨_, _, hdel⟩ := h.cleared ⟨0, by decide⟩ 10 hpend (by
    unfold Process.Pending
    rw [hgone]
    decide)
  rcases hdel with ⟨_, _, hin', _⟩ | ⟨h0, _⟩ | ⟨h0, _⟩ | h1
  · rw [hin] at hin'
    cases hin'
  · rw [hhandler] at h0
    revert h0
    decide
  · rw [hhandler] at h0
    revert h0
    decide
  · rw [hhandler] at h1
    revert h1
    decide

end Lestra
