import Mathlib.Tactic.Common

/-!
# Runs of a deterministic step function

A run is a fold of a step function over a list of operations; `Allowed ok`
says that every operation of the run met the side condition `ok` in the state
it was applied to. `inv_run` is the induction every whole-run result goes
through: an invariant of the start that every allowed step keeps holds at the
end of every allowed run.
-/

namespace Run

variable {σ ω : Type*} (step : σ → ω → σ) (ok : σ → ω → Prop)

/-- The state after applying a list of operations in order. -/
def run (s : σ) (ops : List ω) : σ := ops.foldl step s

/-- Every operation of the run satisfies `ok` in the state it is applied to. -/
def Allowed : σ → List ω → Prop
  | _, [] => True
  | s, op :: ops => ok s op ∧ Allowed (step s op) ops

variable {step ok}

@[simp] theorem run_nil (s : σ) : run step s [] = s := rfl

@[simp] theorem run_cons (s : σ) (op : ω) (ops : List ω) :
    run step s (op :: ops) = run step (step s op) ops := rfl

theorem run_append (s : σ) (ops ops' : List ω) :
    run step s (ops ++ ops') = run step (run step s ops) ops' := List.foldl_append

/-- The invariant rule for runs. -/
theorem inv_run {I : σ → Prop}
    (hStep : ∀ s op, I s → ok s op → I (step s op)) :
    ∀ (ops : List ω) (s : σ), I s → Allowed step ok s ops → I (run step s ops)
  | [], _, hs, _ => hs
  | op :: ops, s, hs, hok =>
    inv_run hStep ops (step s op) (hStep s op hs hok.1) hok.2

/-- The invariant rule where every operation is allowed. -/
theorem inv_run_all {I : σ → Prop} (hStep : ∀ s op, I s → I (step s op)) (ops : List ω) (s : σ)
    (hs : I s) : I (run step s ops) := by
  induction ops generalizing s with
  | nil => exact hs
  | cons op ops ih => exact ih (step s op) (hStep s op hs)

/-- The invariant rule where the side condition is about the operation alone. -/
theorem inv_run_forall {I : σ → Prop} {good : ω → Prop}
    (hStep : ∀ s op, I s → good op → I (step s op)) (ops : List ω) (s : σ) (hs : I s)
    (hok : ∀ op ∈ ops, good op) : I (run step s ops) := by
  induction ops generalizing s with
  | nil => exact hs
  | cons op ops ih =>
    exact ih (step s op) (hStep s op hs (hok op List.mem_cons_self))
      fun op' hop => hok op' (List.mem_cons_of_mem _ hop)

/-- Under an invariant, what an allowed operation satisfies may be read at every
operation of an allowed run. -/
theorem allowed_of_inv {I : σ → Prop} {good : σ → ω → Prop}
    (hStep : ∀ s op, I s → ok s op → I (step s op) ∧ good s op) :
    ∀ (ops : List ω) (s : σ), I s → Allowed step ok s ops → Allowed step good s ops
  | [], _, _, _ => trivial
  | op :: ops, s, hs, hok =>
    ⟨(hStep s op hs hok.1).2,
      allowed_of_inv hStep ops (step s op) (hStep s op hs hok.1).1 hok.2⟩

-- ---------------------------------------------------------------------------
-- Steps that may fail to return
-- ---------------------------------------------------------------------------

variable {pstep : σ → ω → Option σ}

/-- The state after a list of operations, if every one of them returns. -/
def runOption (pstep : σ → ω → Option σ) : σ → List ω → Option σ
  | s, [] => some s
  | s, op :: ops => (pstep s op).bind fun s' => runOption pstep s' ops

/-- Every operation that the run gets to satisfies `ok` in the state it is applied to. -/
def AllowedOption (pstep : σ → ω → Option σ) (ok : σ → ω → Prop) : σ → List ω → Prop
  | _, [] => True
  | s, op :: ops => ok s op ∧ ∀ s', pstep s op = some s' → AllowedOption pstep ok s' ops

/-- The invariant rule for runs of steps that return as long as the invariant holds. -/
theorem inv_runOption {I : σ → Prop}
    (hStep : ∀ s op, I s → ok s op → ∃ s', pstep s op = some s' ∧ I s') :
    ∀ (ops : List ω) (s : σ), I s → AllowedOption pstep ok s ops →
      ∃ s', runOption pstep s ops = some s' ∧ I s'
  | [], s, hs, _ => ⟨s, rfl, hs⟩
  | op :: ops, s, hs, hok => by
    obtain ⟨s', hs', hI⟩ := hStep s op hs hok.1
    obtain ⟨s'', hs'', hI'⟩ := inv_runOption hStep ops s' hI (hok.2 s' hs')
    refine ⟨s'', ?_, hI'⟩
    rw [runOption, hs']
    exact hs''

/-- Under an invariant, what an allowed operation satisfies may be read at every
operation of an allowed run. -/
theorem allowedOption_of_inv {I : σ → Prop} {good : σ → ω → Prop}
    (hStep : ∀ s op, I s → ok s op → good s op ∧ ∀ s', pstep s op = some s' → I s') :
    ∀ (ops : List ω) (s : σ), I s → AllowedOption pstep ok s ops →
      AllowedOption pstep good s ops
  | [], _, _, _ => trivial
  | op :: ops, s, hs, hok =>
    ⟨(hStep s op hs hok.1).1, fun s' hs' =>
      allowedOption_of_inv hStep ops s' ((hStep s op hs hok.1).2 s' hs') (hok.2 s' hs')⟩

/-- The invariant rule for steps that return, with what an allowed operation satisfies. -/
theorem runOption_good {I : σ → Prop} {good : σ → ω → Prop}
    (hStep : ∀ s op, I s → ok s op → good s op ∧ ∃ s', pstep s op = some s' ∧ I s')
    (ops : List ω) (s : σ) (hs : I s) (hok : AllowedOption pstep ok s ops) :
    (∃ s', runOption pstep s ops = some s' ∧ I s') ∧ AllowedOption pstep good s ops := by
  refine ⟨inv_runOption (fun s op h hop => (hStep s op h hop).2) ops s hs hok,
    allowedOption_of_inv (fun s op h hop => ?_) ops s hs hok⟩
  obtain ⟨hgood, s', heq, hI⟩ := hStep s op h hop
  exact ⟨hgood, fun s'' hs'' => Option.some.inj (heq.symm.trans hs'') ▸ hI⟩

/-- What an allowed run says of the operations after a first part that returned. -/
theorem allowedOption_append {ok : σ → ω → Prop} {s' : σ} (ops' : List ω) :
    ∀ (ops : List ω) (s : σ), AllowedOption pstep ok s (ops ++ ops') →
      runOption pstep s ops = some s' → AllowedOption pstep ok s' ops'
  | [], _, hok, hrun => Option.some.inj hrun ▸ hok
  | op :: ops, s, hok, hrun => by
    obtain ⟨s₁, hs₁, hrest⟩ := Option.bind_eq_some_iff.mp hrun
    exact allowedOption_append ops' ops s₁ (hok.2 s₁ hs₁) hrest

end Run
