import Mathlib.Algebra.Group.Nat.Defs
import Mathlib.Tactic.Common

/-!
# Byte buffers

A buffer as the list of its bytes up to some point, with zeros behind: `get` reads any
position, `store` writes a block and `load` copies one out. Every fact about a write is
read off `get_store`.
-/

namespace ByteBuf

/-- The byte at a position. -/
def get (b : List UInt8) (i : ℕ) : UInt8 := b.getD i 0

/-- The buffer with the bytes `bs` from `off` on. -/
def store (b : List UInt8) (off : ℕ) (bs : List UInt8) : List UInt8 :=
  b.take off ++ List.replicate (off - b.length) 0 ++ bs ++ b.drop (off + bs.length)

/-- The `n` bytes from `off` on. -/
def load (b : List UInt8) (off n : ℕ) : List UInt8 := (List.range n).map fun i => get b (off + i)

/-- The buffer with `n` zero bytes from `off` on. -/
def zero (b : List UInt8) (off n : ℕ) : List UInt8 := store b off (List.replicate n 0)

variable {b bs : List UInt8} {off i n : ℕ}

theorem get_of_length_le (h : b.length ≤ i) : get b i = 0 := by
  rw [get, List.getD_eq_getElem?_getD, List.getElem?_eq_none h, Option.getD_none]

@[simp] theorem get_nil (i : ℕ) : get [] i = 0 := get_of_length_le (Nat.zero_le i)

/-- What a write leaves at each position. -/
theorem get_store (b : List UInt8) (off : ℕ) (bs : List UInt8) (i : ℕ) :
    get (store b off bs) i
      = if off ≤ i ∧ i < off + bs.length then get bs (i - off) else get b i := by
  have hpre : (b.take off ++ List.replicate (off - b.length) 0 : List UInt8).length = off := by
    simp only [List.length_append, List.length_take, List.length_replicate]
    omega
  simp only [get, store, List.getD_eq_getElem?_getD, List.append_assoc]
  rw [← List.append_assoc]
  by_cases hlt : i < off
  · rw [if_neg (by omega), List.getElem?_append_left (by omega)]
    by_cases hb : i < b.length
    · rw [List.getElem?_append_left (by simp; omega), List.getElem?_take_of_lt hlt]
    · rw [List.getElem?_append_right (by simp; omega), List.getElem?_eq_none (l := b) (by omega),
        List.getElem?_replicate, Option.getD_none]
      split <;> rfl
  · rw [List.getElem?_append_right (by omega), hpre]
    by_cases hin : i < off + bs.length
    · rw [if_pos ⟨by omega, hin⟩, List.getElem?_append_left (by omega)]
    · rw [if_neg (by omega), List.getElem?_append_right (by omega), List.getElem?_drop]
      congr 2
      omega

theorem get_store_of_lt (h : i < off) : get (store b off bs) i = get b i := by
  rw [get_store, if_neg (by omega)]

/-- Two writes, one behind the other. -/
theorem store_store (b : List UInt8) (off : ℕ) (xs ys : List UInt8) :
    store (store b off xs) (off + xs.length) ys = store b off (xs ++ ys) := by
  have hpre : (b.take off ++ List.replicate (off - b.length) 0 ++ xs : List UInt8).length =
      off + xs.length := by
    simp only [List.length_append, List.length_take, List.length_replicate]
    omega
  have htake : (store b off xs).take (off + xs.length) =
      b.take off ++ List.replicate (off - b.length) 0 ++ xs := by
    rw [store, ← hpre, List.take_left]
  have hdrop : (store b off xs).drop (off + xs.length + ys.length) =
      b.drop (off + (xs ++ ys).length) := by
    rw [← List.drop_drop, store, ← hpre, List.drop_left, hpre, List.drop_drop, List.length_append,
      Nat.add_assoc]
  have hpad : off + xs.length - (store b off xs).length = 0 := by
    rw [store, List.length_append, hpre]
    omega
  rw [store, htake, hdrop, hpad, store, List.replicate_zero, List.append_nil]
  simp only [List.append_assoc]

theorem le_length_store (b : List UInt8) (off : ℕ) (bs : List UInt8) :
    off + bs.length ≤ (store b off bs).length := by
  simp only [store, List.length_append, List.length_take, List.length_replicate]
  omega

theorem store_nil (h : off ≤ b.length) : store b off [] = b := by
  rw [store, Nat.sub_eq_zero_of_le h, List.replicate_zero, List.append_nil, List.append_nil,
    List.length_nil, Nat.add_zero, List.take_append_drop]

theorem store_zero (b bs : List UInt8) : store b 0 bs = bs ++ b.drop bs.length := by
  rw [store, List.take_zero, Nat.zero_sub, List.replicate_zero, Nat.zero_add]
  rfl

theorem get_zero (b : List UInt8) (off n i : ℕ) :
    get (zero b off n) i = if off ≤ i ∧ i < off + n then 0 else get b i := by
  rw [zero, get_store, List.length_replicate]
  split
  · rw [get, List.getD_eq_getElem?_getD, List.getElem?_replicate]
    split <;> rfl
  · rfl

@[simp] theorem length_load (b : List UInt8) (off n : ℕ) : (load b off n).length = n := by
  simp [load]

theorem getElem?_load (h : i < n) : (load b off n)[i]? = some (get b (off + i)) := by
  rw [load, List.getElem?_map, List.getElem?_range h, Option.map_some]

/-- The bytes in the middle of a string. -/
theorem load_append (pre bs tail : List UInt8) :
    load (pre ++ (bs ++ tail)) pre.length bs.length = bs := by
  refine List.ext_getElem (length_load _ _ _) fun i h₁ h₂ => ?_
  rw [(List.getElem_eq_iff _).mpr (getElem?_load h₂), get, List.getD_eq_getElem?_getD,
    List.getElem?_append_right (Nat.le_add_right _ _), Nat.add_sub_cancel_left,
    List.getElem?_append_left h₂, List.getElem?_eq_getElem h₂, Option.getD_some]

/-- The whole buffer. -/
theorem load_all (b : List UInt8) : load b 0 b.length = b := by
  refine List.ext_getElem (length_load b 0 b.length) fun i h₁ h₂ => ?_
  rw [(List.getElem_eq_iff _).mpr (getElem?_load h₂), Nat.zero_add, get,
    List.getD_eq_getElem?_getD, List.getElem?_eq_getElem h₂, Option.getD_some]

/-- Two buffers that agree on a block give the same bytes of it. -/
theorem load_congr {b' : List UInt8} (h : ∀ i, off ≤ i → i < off + n → get b i = get b' i) :
    load b off n = load b' off n := by
  refine List.map_congr_left fun i hi => h (off + i) (by omega) ?_
  have := List.mem_range.mp hi
  omega

end ByteBuf
