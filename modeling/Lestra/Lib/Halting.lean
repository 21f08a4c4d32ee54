import Mathlib.Logic.Relation
import Mathlib.Tactic.Common

/-!
# Programs that may stop

A program reads and changes a state. It returns a value, or it stops in the middle, because it runs
on for ever or because what it does next is not defined; the state that it had come to is kept.

* `Does` — a program does steps of one kind only, on the way to its end or to where it stops, and
  returns with a given postcondition. One rule for each construct.
* `Returns` — a program comes to its end, with a given postcondition
-/

namespace Halting

variable {σ α β : Type}

def Prog (σ α : Type) : Type := σ → Option α × σ

def Prog.ret (a : α) : Prog σ α := fun s => (some a, s)

def Prog.andThen (m : Prog σ α) (f : α → Prog σ β) : Prog σ β := fun s =>
  match (m s).1 with
  | some a => f a (m s).2
  | none => (none, (m s).2)

instance : Monad (Prog σ) where
  pure := Prog.ret
  bind := Prog.andThen

/-- The state itself. -/
def look : Prog σ σ := fun s => (some s, s)

def change (f : σ → σ) : Prog σ Unit := fun s => (some (), f s)

def stop : Prog σ α := fun s => (none, s)

theorem look_bind (f : σ → Prog σ β) (s : σ) : (look >>= f) s = f s s := rfl

theorem change_bind (g : σ → σ) (f : Unit → Prog σ β) (s : σ) : (change g >>= f) s = f () (g s) :=
  rfl

/-- Behind a program that returns. -/
theorem bind_returned {m : Prog σ α} {f : α → Prog σ β} {s s' : σ} {a : α}
    (h : m s = (some a, s')) : (m >>= f) s = f a s' := by
  show Prog.andThen m f s = f a s'
  rw [Prog.andThen, h]

/-- Behind a program that stops. -/
theorem bind_stopped {m : Prog σ α} {f : α → Prog σ β} {s : σ} (h : (m s).1 = none) :
    ((m >>= f) s).1 = none := by
  show (Prog.andThen m f s).1 = none
  rw [Prog.andThen, h]

-- ---------------------------------------------------------------------------
-- What a program does
-- ---------------------------------------------------------------------------

/-- From a state with `P`, `m` does steps of `A` only, and `Q` holds when it returns. -/
def Does (A : σ → σ → Prop) (P : σ → Prop) (m : Prog σ α) (Q : α → σ → Prop) : Prop :=
  ∀ s, P s → Relation.ReflTransGen A s (m s).2 ∧ ∀ a, (m s).1 = some a → Q a (m s).2

section Rules

variable {A : σ → σ → Prop} {P P' : σ → Prop} {m : Prog σ α} {Q Q' : α → σ → Prop}
  {R : β → σ → Prop}

theorem Does.ret {a : α} (h : ∀ s, P s → Q a s) : Does A P (pure a) Q := by
  intro s hs
  refine ⟨.refl, fun b hb => ?_⟩
  obtain rfl := Option.some.inj hb
  exact h s hs

theorem Does.bind {f : α → Prog σ β} (hm : Does A P m Q) (hf : ∀ a, Does A (Q a) (f a) R) :
    Does A P (m >>= f) R := by
  intro s hs
  obtain ⟨hsteps, hpost⟩ := hm s hs
  show Relation.ReflTransGen A s (Prog.andThen m f s).2 ∧
    ∀ b, (Prog.andThen m f s).1 = some b → R b (Prog.andThen m f s).2
  unfold Prog.andThen
  cases hret : (m s).1 with
  | none => exact ⟨hsteps, fun b hb => absurd hb (Option.some_ne_none b).symm⟩
  | some a =>
    obtain ⟨hsteps', hpost'⟩ := hf a (m s).2 (hpost a hret)
    exact ⟨hsteps.trans hsteps', hpost'⟩

theorem Does.look {f : σ → Prog σ β} (h : ∀ s, P s → Does A (fun s' => s' = s) (f s) R) :
    Does A P (look >>= f) R := by
  intro s hs
  exact h s hs s rfl

theorem Does.change {f : σ → σ} {Q : Unit → σ → Prop}
    (h : ∀ s, P s → Relation.ReflTransGen A s (f s) ∧ Q () (f s)) : Does A P (change f) Q :=
  fun s hs => ⟨(h s hs).1, fun _ _ => (h s hs).2⟩

theorem Does.stop : Does A P (stop : Prog σ α) Q :=
  fun _ _ => ⟨.refl, fun a ha => absurd ha (Option.some_ne_none a).symm⟩

theorem Does.weaken (h : Does A P m Q) (hP : ∀ s, P' s → P s) (hQ : ∀ a s, Q a s → Q' a s) :
    Does A P' m Q' :=
  fun s hs => ⟨(h s (hP s hs)).1, fun a ha => hQ a _ ((h s (hP s hs)).2 a ha)⟩

theorem Does.ite {c : Prop} [Decidable c] {m m' : Prog σ α} (ht : c → Does A P m Q)
    (he : ¬ c → Does A P m' Q) : Does A P (if c then m else m') Q := by
  split
  · exact ht ‹c›
  · exact he ‹¬ c›

/-- What every step keeps holds where the program has come to. -/
theorem Does.keeps (h : Does A P m Q) {I : σ → Prop} (hI : ∀ s s', A s s' → I s → I s') {s : σ}
    (hs : P s) (hi : I s) : I (m s).2 := by
  have hsteps := (h s hs).1
  generalize (m s).2 = s' at hsteps ⊢
  induction hsteps with
  | refl => exact hi
  | tail _ hstep ih => exact hI _ _ hstep ih

end Rules

-- ---------------------------------------------------------------------------
-- Programs that return
-- ---------------------------------------------------------------------------

/-- From a state with `P`, `m` comes to its end, and `Q` holds there. -/
def Returns (P : σ → Prop) (m : Prog σ α) (Q : α → σ → Prop) : Prop :=
  ∀ s, P s → ∃ a s', m s = (some a, s') ∧ Q a s'

section ReturnRules

variable {P P' : σ → Prop} {m : Prog σ α} {Q Q' : α → σ → Prop} {R : β → σ → Prop}

theorem Returns.ret {a : α} (h : ∀ s, P s → Q a s) : Returns P (pure a) Q :=
  fun s hs => ⟨a, s, rfl, h s hs⟩

theorem Returns.bind {f : α → Prog σ β} (hm : Returns P m Q) (hf : ∀ a, Returns (Q a) (f a) R) :
    Returns P (m >>= f) R := by
  intro s hs
  obtain ⟨a, s', hret, hpost⟩ := hm s hs
  rw [bind_returned hret]
  exact hf a s' hpost

theorem Returns.look {f : σ → Prog σ β} (h : ∀ s, P s → Returns (fun s' => s' = s) (f s) R) :
    Returns P (look >>= f) R :=
  fun s hs => h s hs s rfl

theorem Returns.change {f : σ → σ} {Q : Unit → σ → Prop} (h : ∀ s, P s → Q () (f s)) :
    Returns P (change f) Q :=
  fun s hs => ⟨(), f s, rfl, h s hs⟩

theorem Returns.weaken (h : Returns P m Q) (hP : ∀ s, P' s → P s) (hQ : ∀ a s, Q a s → Q' a s) :
    Returns P' m Q' := by
  intro s hs
  obtain ⟨a, s', hret, hpost⟩ := h s (hP s hs)
  exact ⟨a, s', hret, hQ a s' hpost⟩

theorem Returns.ite {c : Prop} [Decidable c] {m m' : Prog σ α} (ht : c → Returns P m Q)
    (he : ¬ c → Returns P m' Q) : Returns P (if c then m else m') Q := by
  split
  · exact ht ‹c›
  · exact he ‹¬ c›

end ReturnRules

end Halting
