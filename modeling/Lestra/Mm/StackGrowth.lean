import Lestra.Lib.Run
import Lestra.Mm.FaultLaw
import Lestra.Sched.Blocking

/-!
# Page faults — the growth of the stack

The handler allows a stack to grow to 8 MB below its bottom, and every growth
moves the bottom. `StackRoom` is what is meant, 8 MB below the bottom that the
process was created with; a run stays in it as long as every fault that makes
the stack grow does.
-/

namespace Lestra

/-- A fault, or anything else that happens to the machine in between. -/
inductive StackOp where
  | fault (faultAddr errorCode : BitVec 64)
  | elsewhere (k : Kernel)

/-- A process that is gone, or a machine that has stopped, does not change any more. -/
def stackStep (k : Kernel) : StackOp → Kernel
  | .fault faultAddr errorCode =>
    match pageFaultHandler k faultAddr errorCode with
    | .resumes k' => k'
    | .exits _ => k
    | .panics => k
  | .elsewhere k' => k'

/-- The address belongs to the heap, to a mapping or to the image, for `image` the addresses of
the loaded segments. -/
def OtherRegion (image : BitVec 64 → Prop) (p : Process) (a : BitVec 64) : Prop :=
  image a ∨ (p.brkBase ≠ 0#64 ∧ p.brkBase ≤ a ∧ a < p.brk) ∨
    (p.mmapNextAddr ≠ 0#64 ∧ 0x60000000#64 ≤ a ∧ a < p.mmapNextAddr)

/-- One of the two stack branches maps a page for process `c`. -/
def stackResolves (k : Kernel) (c : Fin maxProcs) (faultAddr errorCode : BitVec 64) : Bool :=
  k.sched.current = some c &&
    (cowEntry k.machine (k.sched.procs c) faultAddr errorCode).isNone &&
    userSpaceFault faultAddr errorCode &&
    (growsStack (k.sched.procs c) faultAddr || missesStack k.machine (k.sched.procs c) faultAddr)

/-- The bottom is at most 8 MB below the one at creation. -/
def StackBounded (created bottom : BitVec 64) : Prop :=
  created.toNat ≤ bottom.toNat + stackGrowMax.toNat

/-- The fault keeps to the room of the stack: where it lies in the window below the current bottom,
its page is at most 8 MB below the bottom at creation; and where it lies in another region, that
address is further down than this, or above the stack. -/
structure KeepsToRoom (image : BitVec 64 → Prop) (created : BitVec 64) (p : Process)
    (faultAddr : BitVec 64) : Prop where
  growth : growsStack p faultAddr = true → StackBounded created (pageFloor faultAddr)
  regions : OtherRegion image p faultAddr →
    faultAddr.toNat + stackGrowMax.toNat < created.toNat ∨
      (created ≤ faultAddr ∧ userStackTop ≤ faultAddr)

/-- What a step of the run has to meet. Nothing but the handler writes `stack_bottom`. -/
def StackAllowed (image : BitVec 64 → Prop) (c : Fin maxProcs) (created : BitVec 64) (k : Kernel) :
    StackOp → Prop
  | .fault faultAddr _ =>
    k.sched.current = some c → KeepsToRoom image created (k.sched.procs c) faultAddr
  | .elsewhere k' => (k'.sched.procs c).stackBottom = (k.sched.procs c).stackBottom

-- ---------------------------------------------------------------------------
-- One step
-- ---------------------------------------------------------------------------

section Step

variable {image : BitVec 64 → Prop} {k k' : Kernel} {c : Fin maxProcs}
  {created faultAddr errorCode : BitVec 64}

theorem signalKill_stackBottom (s : Sched) (pid sig : Int) (c : Fin maxProcs) :
    ((signalKill s pid sig).1.procs c).stackBottom = (s.procs c).stackBottom := by
  have hpost : ∀ (s : Sched) i sig,
      ((postSignal s i sig).procs c).stackBottom = (s.procs c).stackBottom := by
    intro s i sig
    by_cases h : c = i
    · subst h
      unfold postSignal
      dsimp only
      split
      · rw [Sched.setState, Sched.modify_same, Sched.modify_same]
      · rw [Sched.modify_same]
    · rw [postSignal_ne _ h]
  unfold signalKill
  split
  · rfl
  · split
    · split
      · rfl
      · split
        · rfl
        · exact hpost _ _ _
    · have hkeep : ∀ f : Sched → Fin maxProcs → Sched,
          (∀ s' i, ((f s' i).procs c).stackBottom = (s'.procs c).stackBottom) →
          ((s.forProcs f).procs c).stackBottom = (s.procs c).stackBottom := fun f hf =>
        Sched.forProcs_ind (P := fun s' => (s'.procs c).stackBottom = (s.procs c).stackBottom)
          (fun s' i h => (hf s' i).trans h) rfl
      dsimp only
      refine hkeep _ fun s' i => ?_
      split
      · split
        · exact hpost _ _ _
        · rfl
      · rfl

/-- A fault that is resolved moves the bottom of the current process to its page, or nothing. -/
theorem Resumed.stackBottom {d : Fin maxProcs} (h : Resumed k d faultAddr errorCode k') :
    (k'.sched.procs c).stackBottom = (k.sched.procs c).stackBottom ∨
      (c = d ∧ growsStack (k.sched.procs c) faultAddr = true ∧
        (k'.sched.procs c).stackBottom = pageFloor faultAddr) := by
  cases h with
  | cow => exact .inl rfl
  | grow hcow huser hgrow hm =>
    by_cases hc : c = d
    · subst hc
      exact .inr ⟨rfl, hgrow, by rw [Sched.modify_same]⟩
    · exact .inl (by rw [Sched.modify_ne _ hc])
  | miss => exact .inl rfl
  | heap => exact .inl rfl
  | signalled => exact .inl (signalKill_stackBottom _ _ _ _)

theorem pageFloor_le (a : BitVec 64) : (pageFloor a).toNat ≤ a.toNat := by
  rw [toNat_pageFloor]
  omega

/-- The bottom of the stack, between the bottom at creation and 8 MB below it. -/
structure StackRoom (c : Fin maxProcs) (created : BitVec 64) (k : Kernel) : Prop where
  below : (k.sched.procs c).stackBottom ≤ created
  bounded : StackBounded created (k.sched.procs c).stackBottom

theorem stackStep_room (op : StackOp) (hI : StackRoom c created k)
    (hA : StackAllowed image c created k op) : StackRoom c created (stackStep k op) := by
  cases op with
  | elsewhere k' =>
    have heq : (k'.sched.procs c).stackBottom = (k.sched.procs c).stackBottom := hA
    exact ⟨by rw [stackStep, heq]; exact hI.below, by rw [stackStep, heq]; exact hI.bounded⟩
  | fault faultAddr errorCode =>
    rcases hend : pageFaultHandler k faultAddr errorCode with k' | k' | _
    case exits => simpa only [stackStep, hend] using hI
    case panics => simpa only [stackStep, hend] using hI
    case resumes =>
      have hstep : stackStep k (.fault faultAddr errorCode) = k' := by simp only [stackStep, hend]
      rw [hstep]
      cases hcur : k.sched.current with
      | none => simp [pageFaultHandler, hcur] at hend
      | some d =>
        rcases (resumed_of_handler hcur hend).stackBottom (c := c) with heq | ⟨rfl, hgrow, heq⟩
        · exact ⟨by rw [heq]; exact hI.below, by rw [heq]; exact hI.bounded⟩
        · refine ⟨?_, by rw [heq]; exact (hA hcur).growth hgrow⟩
          have hlt : faultAddr < (k.sched.procs c).stackBottom := by
            rw [growsStack, Bool.and_eq_true] at hgrow
            simpa using hgrow.1
          have h1 : faultAddr.toNat < (k.sched.procs c).stackBottom.toNat := hlt
          have h2 : (k.sched.procs c).stackBottom.toNat ≤ created.toNat := hI.below
          have h3 := pageFloor_le faultAddr
          rw [heq]
          exact BitVec.le_def.mpr (by omega)

/-- A stack branch works between 8 MB below the bottom at creation and the top. -/
theorem stackResolves_inside (hI : StackRoom c created k)
    (hgrow : growsStack (k.sched.procs c) faultAddr = true →
      StackBounded created (pageFloor faultAddr))
    (h : stackResolves k c faultAddr errorCode = true) :
    StackBounded created faultAddr ∧ (faultAddr < created ∨ faultAddr < userStackTop) := by
  simp only [stackResolves, Bool.and_eq_true, Bool.or_eq_true] at h
  rcases h.2 with hg | hm
  · have hb := hgrow hg
    rw [growsStack, Bool.and_eq_true] at hg
    have hlow : faultAddr < (k.sched.procs c).stackBottom := by simpa using hg.1
    have hlt : faultAddr.toNat < (k.sched.procs c).stackBottom.toNat := hlow
    have hle : (k.sched.procs c).stackBottom.toNat ≤ created.toNat := hI.below
    have hfl := pageFloor_le faultAddr
    unfold StackBounded at hb ⊢
    exact ⟨by omega, .inl (BitVec.lt_def.mpr (by omega))⟩
  · simp only [missesStack, Bool.and_eq_true, decide_eq_true_eq] at hm
    have hle : (k.sched.procs c).stackBottom.toNat ≤ faultAddr.toNat := hm.1.1
    have hb := hI.bounded
    unfold StackBounded at hb ⊢
    exact ⟨by omega, .inr hm.1.2⟩

end Step

-- ---------------------------------------------------------------------------
-- Runs
-- ---------------------------------------------------------------------------

/--
**Bounded stack growth.** Start with a process as it was created and run any sequence of faults,
with anything else in between that leaves its `stack_bottom` alone. If every fault of the process
kept to the room of the stack, then its bottom is never more than 8 MB below the one at creation,
and no such fault is resolved by a stack branch at an address of another region.
-/
theorem stack_growth_bounded (image : BitVec 64 → Prop) (c : Fin maxProcs) (k : Kernel)
    (ops : List StackOp)
    (hops : Run.Allowed stackStep (StackAllowed image c (k.sched.procs c).stackBottom) k ops) :
    StackBounded (k.sched.procs c).stackBottom
        ((Run.run stackStep k ops).sched.procs c).stackBottom ∧
      ∀ faultAddr errorCode,
        KeepsToRoom image (k.sched.procs c).stackBottom ((Run.run stackStep k ops).sched.procs c)
          faultAddr →
        stackResolves (Run.run stackStep k ops) c faultAddr errorCode = true →
        ¬ OtherRegion image ((Run.run stackStep k ops).sched.procs c) faultAddr := by
  have hstart : StackRoom c (k.sched.procs c).stackBottom k :=
    ⟨BitVec.le_refl _, Nat.le_add_right _ _⟩
  have hI := Run.inv_run (fun k op => stackStep_room op) ops k hstart hops
  refine ⟨hI.bounded, fun faultAddr errorCode hroom hres hother => ?_⟩
  obtain ⟨hb, hin⟩ := stackResolves_inside hI hroom.growth hres
  unfold StackBounded at hb
  rcases hroom.regions hother with hlow | ⟨hc, ht⟩
  · omega
  · rcases hin with h | h
    · exact absurd hc (BitVec.not_le.mpr h)
    · exact absurd ht (BitVec.not_le.mpr h)

/-- A first growth by one page. -/
theorem stack_growth_bounded_page :
    StackBounded userStackBottom
        ((Run.run stackStep stackedKernel [.fault 0x00007FFFFFDBEFF8#64 6#64]).sched.procs
          firstSlot).stackBottom ∧
      ∀ faultAddr errorCode,
        KeepsToRoom (fun _ => False) userStackBottom
          ((Run.run stackStep stackedKernel [.fault 0x00007FFFFFDBEFF8#64 6#64]).sched.procs
            firstSlot) faultAddr →
        stackResolves (Run.run stackStep stackedKernel [.fault 0x00007FFFFFDBEFF8#64 6#64]) firstSlot
          faultAddr errorCode = true →
        ¬ OtherRegion (fun _ => False)
          ((Run.run stackStep stackedKernel [.fault 0x00007FFFFFDBEFF8#64 6#64]).sched.procs
            firstSlot) faultAddr := by
  refine stack_growth_bounded (fun _ => False) firstSlot stackedKernel _ ⟨fun _ => ⟨fun _ => ?_,
    fun h => ?_⟩, trivial⟩
  · show userStackBottom.toNat ≤ _
    decide
  · rcases h with h | h | h
    · exact h.elim
    · exact absurd rfl h.1
    · exact absurd rfl h.1

/-- Two faults, each 8 MB below the bottom as it is then, take the stack 16 MB down. -/
theorem stack_grows_past_limit :
    ¬ StackBounded userStackBottom
      ((Run.run stackStep stackedKernel
        [.fault 0x00007FFFFF5C0000#64 6#64, .fault 0x00007FFFFEDC0000#64 6#64]).sched.procs
          firstSlot).stackBottom := by
  have hend : ((Run.run stackStep stackedKernel
      [.fault 0x00007FFFFF5C0000#64 6#64, .fault 0x00007FFFFEDC0000#64 6#64]).sched.procs
        firstSlot).stackBottom = 0x00007FFFFEDC0000#64 := by decide +kernel
  rw [hend, StackBounded]
  decide

end Lestra
