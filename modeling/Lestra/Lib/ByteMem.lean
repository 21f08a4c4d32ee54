import Lestra.Lib.LittleEndian

/-!
# Byte-addressed memory

Memory as a byte for every address, with blocks of bytes and little-endian numbers stored in
it. A store is known by the bytes it leaves alone and by the block it leaves behind.
-/

namespace ByteMem

abbrev Mem := ℕ → UInt8

/-- The `n` bytes from `a` on. -/
def load (m : Mem) (a n : ℕ) : List UInt8 := (List.range n).map fun i => m (a + i)

/-- The memory with the bytes `bs` from `a` on. -/
def store (m : Mem) (a : ℕ) (bs : List UInt8) : Mem := fun x =>
  if a ≤ x ∧ x < a + bs.length then bs.getD (x - a) 0 else m x

/-- The number in the `k` bytes from `a` on. -/
def getLE (m : Mem) (a k : ℕ) : ℕ := LittleEndian.decode (load m a k)

def putLE (m : Mem) (a k v : ℕ) : Mem := store m a (LittleEndian.encode k v)

/-- The memory with `n` bytes copied from `src` to `dst`. -/
def copy (m : Mem) (dst src n : ℕ) : Mem := store m dst (load m src n)

variable {m m' : Mem} {a b k j n v x : ℕ} {bs : List UInt8}

@[simp] theorem length_load (m : Mem) (a n : ℕ) : (load m a n).length = n := by simp [load]

theorem load_congr (h : ∀ x, a ≤ x → x < a + n → m' x = m x) : load m' a n = load m a n := by
  refine List.map_congr_left fun i hi => h (a + i) (by omega) ?_
  have := List.mem_range.mp hi
  omega

theorem getLE_congr (h : ∀ x, a ≤ x → x < a + k → m' x = m x) : getLE m' a k = getLE m a k := by
  rw [getLE, getLE, load_congr h]

theorem store_out (h : x < a ∨ a + bs.length ≤ x) : store m a bs x = m x := by
  rw [store, if_neg (by omega)]

theorem putLE_out (h : x < a ∨ a + k ≤ x) : putLE m a k v x = m x :=
  store_out (by rwa [LittleEndian.length_encode])

theorem store_at {i : ℕ} (h : i < bs.length) : store m a bs (a + i) = bs[i] := by
  rw [store, if_pos (by omega), Nat.add_sub_cancel_left, List.getD_eq_getElem?_getD,
    List.getElem?_eq_getElem h, Option.getD_some]

theorem load_store (m : Mem) (a : ℕ) (bs : List UInt8) : load (store m a bs) a bs.length = bs := by
  refine List.ext_getElem (length_load _ _ _) fun i h₁ h₂ => ?_
  simp only [load, List.getElem_map, List.getElem_range, store_at h₂]

theorem copy_out {dst src : ℕ} (h : x < dst ∨ dst + n ≤ x) : copy m dst src n x = m x :=
  store_out (by rwa [length_load])

theorem copy_at {dst src i : ℕ} (h : i < n) : copy m dst src n (dst + i) = m (src + i) := by
  have hi : i < (load m src n).length := by rwa [length_load]
  rw [copy, store_at hi]
  simp only [load, List.getElem_map, List.getElem_range]

/-- A block behind a stored one, or before it, is what it was. -/
theorem load_store_of_apart (h : b + n ≤ a ∨ a + bs.length ≤ b) :
    load (store m a bs) b n = load m b n :=
  load_congr fun x h₁ h₂ => store_out (by omega)

theorem getLE_putLE (h : v < 256 ^ k) : getLE (putLE m a k v) a k = v := by
  have hload := load_store m a (LittleEndian.encode k v)
  rw [LittleEndian.length_encode] at hload
  rw [getLE, putLE, hload, LittleEndian.decode_encode h]

theorem getLE_putLE_of_apart (h : b + j ≤ a ∨ a + k ≤ b) :
    getLE (putLE m a k v) b j = getLE m b j :=
  getLE_congr fun x h₁ h₂ => putLE_out (by omega)

theorem getLE_lt (m : Mem) (a k : ℕ) : getLE m a k < 256 ^ k := by
  have hlt := LittleEndian.decode_lt (load m a k)
  rwa [length_load] at hlt

/-- The first bytes of a block. -/
theorem load_take (h : k ≤ n) : (load m a n).take k = load m a k := by
  rw [load, ← List.map_take, List.take_range, Nat.min_eq_left h, load]

theorem load_append (m : Mem) (a k j : ℕ) : load m a (k + j) = load m a k ++ load m (a + k) j := by
  rw [load, List.range_add, List.map_append, List.map_map]
  congr 1
  refine List.map_congr_left fun i _ => ?_
  simp only [Function.comp, Nat.add_assoc]

end ByteMem
