import Mathlib.Data.List.Basic
import Mathlib.Data.Nat.ModEq
import Mathlib.Logic.Function.Basic
import Mathlib.Tactic.Common

/-!
# Ring buffers

A buffer of `cap` cells, read from position `head`, holds `len` elements in
first-in first-out order. `contents` is that order as a list: writing the cell
after the last element appends, and advancing `head` drops the first element.
-/

namespace Ring

variable {α : Type*}

/-- The `len` elements from `head` on, in the order they are read. -/
def contents (cap : Nat) (buf : Nat → α) (head len : Nat) : List α :=
  (List.range len).map fun k => buf ((head + k) % cap)

variable {cap : Nat} {buf : Nat → α} {head len : Nat}

@[simp] theorem length_contents : (contents cap buf head len).length = len := by
  simp [contents]

/-- Two positions of the ring less than one turn apart are different. -/
theorem pos_ne {j k : Nat} (hjk : j < k) (hk : k < j + cap) :
    (head + j) % cap ≠ (head + k) % cap := by
  intro h
  have hdvd : cap ∣ k - j := by
    have := (Nat.modEq_iff_dvd' (by omega : head + j ≤ head + k)).mp h
    rwa [show head + k - (head + j) = k - j by omega] at this
  have := Nat.le_of_dvd (by omega) hdvd
  omega

/-- Writing the first free cell appends. -/
theorem contents_push (hlen : len < cap) (x : α) :
    contents cap (Function.update buf ((head + len) % cap) x) head (len + 1) =
      contents cap buf head len ++ [x] := by
  unfold contents
  rw [List.range_succ, List.map_append, List.map_singleton, Function.update_self]
  congr 1
  refine List.map_congr_left ?_
  intro k hk
  have hk : k < len := List.mem_range.mp hk
  exact Function.update_of_ne (pos_ne hk (by omega)) ..

/-- Cells written behind the last element append, if the elements stay. -/
theorem contents_append {buf' : Nat → α} {xs : List α}
    (hold : ∀ j < len, buf' ((head + j) % cap) = buf ((head + j) % cap))
    (hnew : ∀ (j : Nat) (hj : j < xs.length), buf' ((head + len + j) % cap) = xs[j]) :
    contents cap buf' head (len + xs.length) = contents cap buf head len ++ xs := by
  unfold contents
  rw [List.range_add, List.map_append, List.map_map]
  congr 1
  · exact List.map_congr_left fun j hj => hold j (List.mem_range.mp hj)
  · refine List.ext_getElem (by simp) fun j h₁ h₂ => ?_
    simp only [List.getElem_map, List.getElem_range, Function.comp_apply]
    rw [← hnew j h₂, Nat.add_assoc]

/-- The first `j` elements, and those behind them. -/
theorem contents_add (j k : Nat) : contents cap buf head (j + k) =
    contents cap buf head j ++ contents cap buf ((head + j) % cap) k := by
  unfold contents
  rw [List.range_add, List.map_append, List.map_map]
  congr 1
  refine List.map_congr_left fun i _ => ?_
  simp only [Function.comp_apply, Nat.mod_add_mod, Nat.add_assoc]

/-- The first element, and what is left when the head moves past it. -/
theorem contents_pop :
    contents cap buf head (len + 1) =
      buf (head % cap) :: contents cap buf ((head + 1) % cap) len := by
  unfold contents
  rw [List.range_succ_eq_map, List.map_cons, List.map_map, Nat.add_zero]
  congr 1
  refine List.map_congr_left ?_
  intro k _
  simp only [Function.comp_apply, Nat.mod_add_mod]
  congr 2
  omega

end Ring
