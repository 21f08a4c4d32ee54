import Mathlib.Order.Basic

/-!
# Steps that may fail

A `Step` changes a state and returns a value or fails; what it has changed up to there stays.
`none` as a whole stands for a step that goes wrong: it touches what is not there, or does not
end.

* `Proceeds` — the step does not go wrong, moves the state upwards, and a value that is returned
  meets a postcondition
* one rule for each way of making steps; `Proceeds.loop` is that of a loop with progress
-/

namespace Fallible

def Step (σ α : Type) : Type := σ → Option (Option α × σ)

namespace Step

variable {σ α β : Type}

def bind (m : Step σ α) (f : α → Step σ β) : Step σ β := fun s =>
  match m s with
  | none => none
  | some (none, s) => some (none, s)
  | some (some a, s) => f a s

instance : Monad (Step σ) where
  pure a := fun s => some (some a, s)
  bind := bind

def fail : Step σ α := fun s => some (none, s)

/-- Fails unless `p`. -/
def check (p : Prop) [Decidable p] : Step σ Unit := if p then pure () else fail

def get : Step σ σ := fun s => some (some s, s)

def modify (f : σ → σ) : Step σ Unit := fun s => some (some (), f s)

/-- A value that has to be there. -/
def need (v : Option α) : Step σ α := fun s => v.map fun a => (some a, s)

/-- A failure is not looked at. -/
def attempt (m : Step σ α) : Step σ Unit := fun s => (m s).map fun r => (some (), r.2)

theorem need_run {v : Option α} {a : α} (h : v = some a) (s : σ) : need v s = some (some a, s) := by
  rw [need, h]
  rfl

/-- `while (cond) body`, at most `fuel` times. -/
def loop (cond : σ → Bool) (body : Step σ Unit) : ℕ → Step σ Unit
  | 0 => fun s => if cond s then none else some (some (), s)
  | fuel + 1 => fun s =>
    if cond s then bind body (fun _ => loop cond body fuel) s else some (some (), s)

theorem bind_run {m : Step σ α} {f : α → Step σ β} {s t : σ} {a : α} (h : m s = some (some a, t)) :
    (m >>= f) s = f a t := by
  show bind m f s = f a t
  rw [bind, h]

theorem loop_stop {cond : σ → Bool} {s : σ} (h : cond s = false) (body : Step σ Unit) (fuel : ℕ) :
    loop cond body fuel s = some (some (), s) := by
  cases fuel with
  | zero => exact if_neg (Bool.eq_false_iff.mp h)
  | succ fuel => exact if_neg (Bool.eq_false_iff.mp h)

theorem loop_go {cond : σ → Bool} {s : σ} (h : cond s = true) (body : Step σ Unit) (fuel : ℕ) :
    loop cond body (fuel + 1) s = (body >>= fun _ => loop cond body fuel) s := if_pos h

end Step

-- ---------------------------------------------------------------------------
-- Rules
-- ---------------------------------------------------------------------------

open Step

variable {σ α β : Type} [Preorder σ] {s t : σ} {a : α} {p : Prop} [Decidable p]
  {V : α → σ → Prop} {W : β → σ → Prop} {m : Step σ α} {f : α → Step σ β}

/-- The states are ordered by what a step may do. -/
def Proceeds (m : Step σ α) (s : σ) (V : α → σ → Prop) : Prop :=
  ∃ r s', m s = some (r, s') ∧ s ≤ s' ∧ ∀ a, r = some a → V a s'

namespace Proceeds

theorem pure (h : V a s) : Proceeds (Pure.pure a) s V :=
  ⟨some a, s, rfl, le_refl s, fun _ heq => Option.some.inj heq ▸ h⟩

theorem fail : Proceeds (Step.fail : Step σ α) s V := ⟨none, s, rfl, le_refl s, nofun⟩

theorem bind (h : Proceeds m s V) (hf : ∀ a s', s ≤ s' → V a s' → Proceeds (f a) s' W) :
    Proceeds (m >>= f) s W := by
  obtain ⟨r, s', hm, hle, hV⟩ := h
  cases r with
  | none =>
    refine ⟨none, s', ?_, hle, nofun⟩
    show Step.bind m f s = _
    rw [Step.bind, hm]
  | some a =>
    obtain ⟨r', t, hfa, hle', hW⟩ := hf a s' hle (hV a rfl)
    exact ⟨r', t, (bind_run hm).trans hfa, hle.trans hle', hW⟩

/-- A step that only reads the state. -/
theorem read (hm : m s = some (some a, s)) (h : Proceeds (f a) s W) : Proceeds (m >>= f) s W := by
  obtain ⟨r, t, hfa, hle, hW⟩ := h
  exact ⟨r, t, (bind_run hm).trans hfa, hle, hW⟩

theorem mono {V' : α → σ → Prop} (h : Proceeds m s V) (hV : ∀ a s', s ≤ s' → V a s' → V' a s') :
    Proceeds m s V' := by
  obtain ⟨r, s', hm, hle, hval⟩ := h
  exact ⟨r, s', hm, hle, fun a ha => hV a s' hle (hval a ha)⟩

/-- Behind a check, what it has checked is known. -/
theorem check {f : Unit → Step σ β} (h : p → Proceeds (f ()) s W) : Proceeds (Step.check p >>= f) s W := by
  by_cases hp : p
  · have hrun : Step.check p s = some (some (), s) := by
      rw [Step.check, if_pos hp]
      rfl
    exact read hrun (h hp)
  · have hrun : (Step.check p >>= f) s = some (none, s) := by
      rw [Step.check, if_neg hp]
      rfl
    exact ⟨none, s, hrun, le_refl s, nofun⟩

theorem modify {V : Unit → σ → Prop} {f : σ → σ} (hle : s ≤ f s) (h : V () (f s)) :
    Proceeds (Step.modify f) s V := ⟨some (), f s, rfl, hle, fun _ _ => h⟩

theorem attempt {V' : Unit → σ → Prop} (h : Proceeds m s V) (hV : ∀ s', s ≤ s' → V' () s') :
    Proceeds (Step.attempt m) s V' := by
  obtain ⟨r, s', hm, hle, -⟩ := h
  exact ⟨some (), s', by rw [Step.attempt, hm]; rfl, hle, fun _ _ => hV s' hle⟩

/-- A loop whose turns move a position on, which the condition keeps below a bound. -/
theorem loop {cond : σ → Bool} {body : Step σ Unit} {pos : σ → ℕ} {b fuel : ℕ}
    (hcond : ∀ t, s ≤ t → cond t = true → pos t < b)
    (hbody : ∀ t, s ≤ t → cond t = true → Proceeds body t fun _ t' => pos t < pos t')
    (hfuel : b ≤ pos s + fuel) :
    Proceeds (Step.loop cond body fuel) s fun _ s' => pos s ≤ pos s' := by
  induction fuel generalizing s with
  | zero =>
    have hstop : cond s = false := by
      by_contra hgo
      have hlt := hcond s (le_refl s) (Bool.not_eq_false _ ▸ hgo)
      omega
    exact ⟨some (), s, loop_stop hstop body 0, le_refl s, fun _ _ => Nat.le_refl _⟩
  | succ fuel ih =>
    cases hgo : cond s with
    | false => exact ⟨some (), s, loop_stop hgo body _, le_refl s, fun _ _ => Nat.le_refl _⟩
    | true =>
      have hturn : Proceeds (body >>= fun _ => Step.loop cond body fuel) s fun _ s' =>
          pos s ≤ pos s' :=
        (hbody s (le_refl s) hgo).bind fun _ s' hle hpos =>
          (ih (fun t ht => hcond t (hle.trans ht)) (fun t ht => hbody t (hle.trans ht))
            (by omega)).mono fun _ s'' _ hpos' => Nat.le_trans (Nat.le_of_lt hpos) hpos'
      obtain ⟨r, s', hrun, hle, hV⟩ := hturn
      exact ⟨r, s', (loop_go hgo body fuel).trans hrun, hle, hV⟩

end Proceeds

end Fallible
