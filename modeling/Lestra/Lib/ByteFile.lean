import Lestra.Lib.ByteBuf

/-!
# Files as byte lists

The file of the abstract model is a list of bytes: a read copies a piece of it, a truncation
cuts it or extends it with zeros, and a write past the end extends it with zeros first.
`Holds b size c` says that the first `size` bytes of a buffer `b` are the file `c`. What a
buffer has behind the size matters only to a write past the end (`Holds.write`).
-/

namespace ByteFile

/-- The at most `n` bytes from `off` on. -/
def readAt (c : List UInt8) (off n : ℕ) : List UInt8 := (c.drop off).take n

/-- The file cut, or extended with zeros, to `n` bytes. -/
def resize (c : List UInt8) (n : ℕ) : List UInt8 := c.take n ++ List.replicate (n - c.length) 0

/-- A write of nothing does nothing, also past the end. -/
def writeAt (c : List UInt8) (off : ℕ) (bs : List UInt8) : List UInt8 :=
  if bs = [] then c
  else
    let c := resize c (max off c.length)
    c.take off ++ bs ++ c.drop (off + bs.length)

/-- What is done to one of many files. -/
inductive Op (κ : Type*) where
  | create (k : κ)
  | resize (k : κ) (n : ℕ)
  | write (k : κ) (off : ℕ) (bs : List UInt8)
  | append (k : κ) (bs : List UInt8)

variable {κ : Type*} [DecidableEq κ]

def apply (files : κ → List UInt8) : Op κ → κ → List UInt8
  | .create k => Function.update files k []
  | .resize k n => Function.update files k (resize (files k) n)
  | .write k off bs => Function.update files k (writeAt (files k) off bs)
  | .append k bs => Function.update files k (writeAt (files k) (files k).length bs)

/-- The files after an operation, if there is one. -/
def applyOption (files : κ → List UInt8) (op : Option (Op κ)) : κ → List UInt8 :=
  op.elim files (apply files)

@[simp] theorem applyOption_none (files : κ → List UInt8) : applyOption files none = files := rfl

@[simp] theorem applyOption_some (files : κ → List UInt8) (op : Op κ) :
    applyOption files (some op) = apply files op := rfl

-- ---------------------------------------------------------------------------
-- The operations byte by byte
-- ---------------------------------------------------------------------------

variable {b c bs : List UInt8} {size off n : ℕ}

@[simp] theorem length_resize (c : List UInt8) (n : ℕ) : (resize c n).length = n := by
  simp only [resize, List.length_append, List.length_take, List.length_replicate]
  omega

theorem get_resize (c : List UInt8) (n i : ℕ) :
    ByteBuf.get (resize c n) i = if i < n then ByteBuf.get c i else 0 := by
  by_cases hn : i < n
  · rw [if_pos hn]
    simp only [ByteBuf.get, resize, List.getD_eq_getElem?_getD]
    by_cases hc : i < c.length
    · rw [List.getElem?_append_left (by simp; omega), List.getElem?_take_of_lt hn]
    · rw [List.getElem?_append_right (by simp; omega), List.getElem?_replicate,
        List.getElem?_eq_none (l := c) (by omega)]
      split <;> rfl
  · rw [if_neg hn, ByteBuf.get_of_length_le (by rw [length_resize]; omega)]

theorem writeAt_eq_store (hbs : bs ≠ []) :
    writeAt c off bs = ByteBuf.store (resize c (max off c.length)) off bs := by
  rw [writeAt, if_neg hbs, ByteBuf.store, length_resize]
  have hpad : off - max off c.length = 0 := by omega
  rw [hpad, List.replicate_zero, List.append_nil]

theorem length_writeAt (hbs : bs ≠ []) :
    (writeAt c off bs).length = max c.length (off + bs.length) := by
  rw [writeAt, if_neg hbs]
  simp only [List.length_append, List.length_take, List.length_drop, length_resize]
  omega

theorem get_writeAt (hbs : bs ≠ []) (i : ℕ) :
    ByteBuf.get (writeAt c off bs) i
      = if off ≤ i ∧ i < off + bs.length then ByteBuf.get bs (i - off) else ByteBuf.get c i := by
  rw [writeAt_eq_store hbs, ByteBuf.get_store, get_resize]
  split
  · rfl
  · split
    · rfl
    · rw [ByteBuf.get_of_length_le (b := c) (by omega)]

theorem readAt_eq_load (c : List UInt8) (off n : ℕ) :
    readAt c off n = ByteBuf.load c off (min n (c.length - off)) := by
  refine List.ext_getElem (by simp [readAt]) fun i h₁ h₂ => ?_
  rw [ByteBuf.length_load] at h₂
  have hload : (ByteBuf.load c off _)[i]? = _ := ByteBuf.getElem?_load h₂
  rw [ByteBuf.get, List.getD_eq_getElem?_getD,
    List.getElem?_eq_getElem (show off + i < c.length by omega), Option.getD_some] at hload
  rw [(List.getElem_eq_iff _).mpr hload]
  simp [readAt]

-- ---------------------------------------------------------------------------
-- A buffer that holds a file
-- ---------------------------------------------------------------------------

/-- The first `size` bytes of the buffer are the file. -/
structure Holds (b : List UInt8) (size : ℕ) (c : List UInt8) : Prop where
  length : c.length = size
  bytes : ∀ i < size, ByteBuf.get b i = ByteBuf.get c i

theorem Holds.nil (b : List UInt8) : Holds b 0 [] := ⟨rfl, fun _ hi => absurd hi (Nat.not_lt_zero _)⟩

/-- A read of the buffer up to the size is a read of the file. -/
theorem Holds.read (h : Holds b size c) (off n : ℕ) :
    ByteBuf.load b off (min n (size - off)) = readAt c off n := by
  rw [readAt_eq_load, h.length]
  refine ByteBuf.load_congr fun i _ hi => h.bytes i ?_
  omega

/-- A write is a write of the file if it starts inside, or if it writes something and the
buffer has zeros from the size up to it. -/
theorem Holds.write (h : Holds b size c)
    (hgap : size < off → bs ≠ [] ∧ ∀ i, size ≤ i → i < off → ByteBuf.get b i = 0) :
    Holds (ByteBuf.store b off bs) (max size (off + bs.length)) (writeAt c off bs) := by
  by_cases hbs : bs = []
  · have hoff : off ≤ size := by
      by_contra hlt
      exact (hgap (by omega)).1 hbs
    subst hbs
    rw [writeAt, if_pos rfl, List.length_nil, Nat.add_zero, Nat.max_eq_left hoff]
    refine ⟨h.length, fun i hi => ?_⟩
    rw [ByteBuf.get_store, if_neg (by simp), h.bytes i hi]
  refine ⟨by rw [length_writeAt hbs, h.length], fun i _ => ?_⟩
  rw [ByteBuf.get_store, get_writeAt hbs]
  split
  · rfl
  · by_cases hi : i < size
    · exact h.bytes i hi
    · rw [(hgap (by omega)).2 i (by omega) (by omega),
        ByteBuf.get_of_length_le (b := c) (by rw [h.length]; omega)]

/-- A buffer that is zeroed between the old and the new size holds the resized file. -/
theorem Holds.resize (h : Holds b size c) (n : ℕ) :
    Holds (if size < n then ByteBuf.zero b size (n - size) else ByteBuf.zero b n (size - n)) n
      (ByteFile.resize c n) := by
  refine ⟨length_resize c n, fun i hi => ?_⟩
  rw [get_resize, if_pos hi]
  by_cases hs : i < size
  · rw [← h.bytes i hs]
    split <;> rw [ByteBuf.get_zero, if_neg (by omega)]
  · rw [if_pos (by omega), ByteBuf.get_zero, if_pos (by omega),
      ByteBuf.get_of_length_le (by rw [h.length]; omega)]

end ByteFile
