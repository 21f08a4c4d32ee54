import Lestra.Lib.ByteMem

/-!
# Blocks packed one after another

A list of byte blocks stored in memory without gaps: where each block starts, that it can be
read back there, and that two blocks share no byte.
-/

namespace Packed

open ByteMem

/-- The blocks with their addresses, from `a` on. -/
def laidOut : ℕ → List (List UInt8) → List (ℕ × List UInt8)
  | _, [] => []
  | a, b :: bs => (a, b) :: laidOut (a + b.length) bs

/-- The addresses alone. -/
def starts (a : ℕ) (bs : List (List UInt8)) : List ℕ := (laidOut a bs).map Prod.fst

variable {m : Mem} {a : ℕ} {b : List UInt8} {bs cs : List (List UInt8)} {x : ℕ × List UInt8}

@[simp] theorem starts_nil (a : ℕ) : starts a [] = [] := rfl

@[simp] theorem starts_cons (a : ℕ) (b : List UInt8) (bs : List (List UInt8)) :
    starts a (b :: bs) = a :: starts (a + b.length) bs := rfl

theorem laidOut_blocks (a : ℕ) (bs : List (List UInt8)) : (laidOut a bs).map Prod.snd = bs := by
  induction bs generalizing a with
  | nil => rfl
  | cons b bs ih => rw [laidOut, List.map_cons, ih]

theorem laidOut_append (a : ℕ) (bs cs : List (List UInt8)) :
    laidOut a (bs ++ cs) = laidOut a bs ++ laidOut (a + bs.flatten.length) cs := by
  induction bs generalizing a with
  | nil => rfl
  | cons b bs ih =>
    rw [List.cons_append, laidOut, laidOut, ih, List.flatten_cons, List.length_append,
      List.cons_append, Nat.add_assoc]

theorem starts_append (a : ℕ) (bs cs : List (List UInt8)) :
    starts a (bs ++ cs) = starts a bs ++ starts (a + bs.flatten.length) cs := by
  rw [starts, laidOut_append, List.map_append, starts, starts]

/-- Blocks made of other things: each thing with the address of its block. -/
theorem map_zip_starts {α : Type} (f : α → List UInt8) (a : ℕ) (ss : List α) :
    ((starts a (ss.map f)).zip ss).map (Prod.map id f) = laidOut a (ss.map f) := by
  induction ss generalizing a with
  | nil => rfl
  | cons s ss ih =>
    rw [List.map_cons, starts_cons, List.zip_cons_cons, List.map_cons, ih, laidOut]
    rfl

theorem length_starts (a : ℕ) (bs : List (List UInt8)) : (starts a bs).length = bs.length := by
  rw [starts, List.length_map, ← List.length_map Prod.snd, laidOut_blocks]

/-- Every block lies between the first address and the end. -/
theorem laidOut_bounds (hx : x ∈ laidOut a bs) :
    a ≤ x.1 ∧ x.1 + x.2.length ≤ a + bs.flatten.length := by
  induction bs generalizing a with
  | nil => cases hx
  | cons b bs ih =>
    rw [List.flatten_cons, List.length_append]
    rcases List.mem_cons.mp hx with rfl | hx
    · exact ⟨Nat.le_refl a, by dsimp only; omega⟩
    · have := ih hx
      omega

theorem laidOut_apart (a : ℕ) (bs : List (List UInt8)) :
    (laidOut a bs).Pairwise fun x y => x.1 + x.2.length ≤ y.1 := by
  induction bs generalizing a with
  | nil => exact List.Pairwise.nil
  | cons b bs ih => exact List.pairwise_cons.mpr ⟨fun y hy => (laidOut_bounds hy).1, ih _⟩

/-- The blocks can be read back. -/
theorem load_laidOut (hm : load m a bs.flatten.length = bs.flatten) (hx : x ∈ laidOut a bs) :
    load m x.1 x.2.length = x.2 := by
  induction bs generalizing a with
  | nil => cases hx
  | cons b bs ih =>
    rw [List.flatten_cons, List.length_append, load_append] at hm
    obtain ⟨hb, hbs⟩ := List.append_inj hm (length_load _ _ _)
    rcases List.mem_cons.mp hx with rfl | hx
    · exact hb
    · exact ih hbs hx

/-- Storing one stretch of bytes behind another stores the two at once. -/
theorem store_store (m : Mem) (a : ℕ) (xs ys : List UInt8) :
    store (store m a xs) (a + xs.length) ys = store m a (xs ++ ys) := by
  funext x
  rcases Nat.lt_or_ge x (a + xs.length) with h | h
  · rw [store_out (.inl h)]
    rcases Nat.lt_or_ge x a with ha | ha
    · rw [store_out (.inl ha), store_out (.inl ha)]
    · obtain ⟨i, rfl⟩ := Nat.exists_eq_add_of_le ha
      rw [store_at (by omega), store_at (by rw [List.length_append]; omega),
        List.getElem_append_left]
  · rcases Nat.lt_or_ge x (a + xs.length + ys.length) with hy | hy
    · obtain ⟨i, rfl⟩ := Nat.exists_eq_add_of_le h
      rw [store_at (by omega), Nat.add_assoc, store_at (by rw [List.length_append]; omega),
        List.getElem_append_right (by omega)]
      simp
    · rw [store_out (.inr hy), store_out (.inr h), store_out]
      rw [List.length_append]
      omega

@[simp] theorem store_nil (m : Mem) (a : ℕ) : store m a [] = m := by
  funext x
  exact store_out (by simp; omega)

end Packed
