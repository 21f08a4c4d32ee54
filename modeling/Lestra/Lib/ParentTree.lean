import Mathlib.Logic.Relation

/-!
# Trees given by a parent table

`Rooted live parent root`: every live node reaches the root through live parents. A new
leaf, the removal of a leaf and moving a subtree to a node outside it keep this; no live
node of such a table is its own ancestor.
-/

namespace ParentTree

variable {α : Type*}

/-- `x` is live and reaches `top` through live parents. -/
inductive Below (live : α → Prop) (parent : α → Option α) (top : α) : α → Prop where
  | self : live top → Below live parent top top
  | child {x p : α} : live x → parent x = some p → Below live parent top p →
      Below live parent top x

structure Rooted (live : α → Prop) (parent : α → Option α) (root : α) : Prop where
  root_live : live root
  root_parent : parent root = none
  reaches : ∀ x, live x → Below live parent root x

variable {live live' : α → Prop} {parent parent' : α → Option α} {root top x p o d : α}

namespace Below

theorem live_self (h : Below live parent top x) : live x := by
  cases h with
  | self hl => exact hl
  | child hl _ _ => exact hl

theorem live_top (h : Below live parent top x) : live top := by
  induction h with
  | self hl => exact hl
  | child _ _ _ ih => exact ih

theorem trans {y : α} (hy : Below live parent x y) (hx : Below live parent top x) :
    Below live parent top y := by
  induction hy with
  | self _ => exact hx
  | child hl hp _ ih => exact .child hl hp ih

/-- A chain of parents stays one where the tables agree on the nodes it goes through. -/
theorem mono (h : Below live parent top x)
    (hkeep : ∀ y, Below live parent top y → live' y ∧ parent' y = parent y) :
    Below live' parent' top x := by
  induction h with
  | self hl => exact .self (hkeep _ (.self hl)).1
  | child hl hp hb ih =>
    obtain ⟨hl', hp'⟩ := hkeep _ (.child hl hp hb)
    exact .child hl' (hp'.trans hp) ih

end Below

namespace Rooted

/-- Every live node but the root has a live parent. -/
theorem parent_live (h : Rooted live parent root) (hx : live x) (hne : x ≠ root) :
    ∃ p, parent x = some p ∧ live p := by
  cases h.reaches x hx with
  | self _ => exact absurd rfl hne
  | child _ hp hb => exact ⟨_, hp, hb.live_self⟩

/-- The ancestors of a live node are live. -/
theorem live_parent (h : Rooted live parent root) (hx : live x) (hp : parent x = some p) :
    live p := by
  by_cases hne : x = root
  · rw [hne, h.root_parent] at hp
    exact absurd hp (by simp)
  · obtain ⟨q, hq, hlive⟩ := h.parent_live hx hne
    rw [hp] at hq
    exact Option.some.inj hq ▸ hlive

/-- **No live node is its own ancestor.** -/
theorem acyclic (h : Rooted live parent root) (hx : live x) :
    ¬ Relation.TransGen (fun a b => parent a = some b) x x := by
  induction h.reaches x hx with
  | self _ =>
    intro hcycle
    obtain ⟨b, hb, -⟩ := Relation.TransGen.head'_iff.mp hcycle
    rw [h.root_parent] at hb
    exact absurd hb (by simp)
  | child hl hp hb ih =>
    intro hcycle
    obtain ⟨b, hxb, hbx⟩ := Relation.TransGen.head'_iff.mp hcycle
    rw [hp] at hxb
    obtain rfl := Option.some.inj hxb
    exact ih hb.live_self (Relation.TransGen.tail' hbx hp)

/-- The table with a new leaf. -/
theorem grow (h : Rooted live parent root) (hx : ¬ live x) (hp : live p)
    (hlive : ∀ y, live' y ↔ live y ∨ y = x) (hnew : parent' x = some p)
    (hold : ∀ y, live y → parent' y = parent y) : Rooted live' parent' root := by
  have keep : ∀ y, live y → Below live' parent' root y := fun y hy =>
    (h.reaches y hy).mono fun z hz => ⟨(hlive z).mpr (.inl hz.live_self), hold z hz.live_self⟩
  refine ⟨(hlive root).mpr (.inl h.root_live), (hold root h.root_live).trans h.root_parent, ?_⟩
  intro y hy
  rcases (hlive y).mp hy with hold' | rfl
  · exact keep y hold'
  · exact .child hy hnew (keep p hp)

/-- The table without a leaf. -/
theorem prune (h : Rooted live parent root) (hroot : x ≠ root)
    (hleaf : ∀ y, live y → parent y ≠ some x)
    (hlive : ∀ y, live' y ↔ live y ∧ y ≠ x)
    (hold : ∀ y, y ≠ x → parent' y = parent y) : Rooted live' parent' root := by
  have keep : ∀ y, Below live parent root y → y ≠ x → Below live' parent' root y := by
    intro y hy
    induction hy with
    | self hl => exact fun hne => .self ((hlive root).mpr ⟨hl, hne⟩)
    | @child z q hl hp _ ih =>
      intro hne
      refine .child ((hlive z).mpr ⟨hl, hne⟩) ((hold z hne).trans hp) (ih ?_)
      rintro rfl
      exact hleaf z hl hp
  refine ⟨(hlive root).mpr ⟨h.root_live, fun he => hroot he.symm⟩,
    (hold root fun he => hroot he.symm).trans h.root_parent, ?_⟩
  intro y hy
  obtain ⟨hl, hne⟩ := (hlive y).mp hy
  exact keep y (h.reaches y hl) hne

/-- The table with the subtree of `o` moved under `d`, a node outside it. -/
theorem move (h : Rooted live parent root) (ho : o ≠ root) (hd : live d)
    (hout : ¬ Below live parent o d)
    (hlive : ∀ y, live' y ↔ live y) (hnew : parent' o = some d)
    (hold : ∀ y, y ≠ o → parent' y = parent y) : Rooted live' parent' root := by
  -- the chain from a node outside the subtree does not go through `o`
  have outside : ∀ y, Below live parent root y → ¬ Below live parent o y →
      Below live' parent' root y := by
    intro y hy
    induction hy with
    | self hl => exact fun _ => .self ((hlive root).mpr hl)
    | @child z q hl hp _ ih =>
      intro hz
      have hne : z ≠ o := by
        rintro rfl
        exact hz (.self hl)
      exact .child ((hlive z).mpr hl) ((hold z hne).trans hp)
        (ih fun hq => hz (.child hl hp hq))
  refine ⟨(hlive root).mpr h.root_live, (hold root fun he => ho he.symm).trans h.root_parent, ?_⟩
  intro y hy
  induction h.reaches y ((hlive y).mp hy) with
  | self hl => exact .self hy
  | @child z q hl hp hb ih =>
    by_cases hz : z = o
    · rw [hz] at hy ⊢
      exact .child hy hnew (outside d (h.reaches d hd) hout)
    · exact .child hy ((hold z hz).trans hp) (ih ((hlive q).mpr hb.live_self))

end Rooted

end ParentTree
