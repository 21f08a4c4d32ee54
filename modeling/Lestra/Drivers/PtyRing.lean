import Lestra.Lib.ByteMem
import Lestra.Lib.Ring

/-!
# The ring buffers of a PTY

`ring_buf_write`, `ring_buf_read` and `ring_buf_find` of `kernel/drivers/char/pty.c`. A copy
that wraps around is two copies. `ByteRing.bytes` is what the buffer holds, and each function
is known by what it does to that list.
-/

namespace Lestra

open ByteMem

/-- `PTY_BUFFER_SIZE` -/
def ptyBufferSize : ℕ := 4096

/-- A buffer with its `read_pos`, `write_pos` and `count`. -/
structure ByteRing where
  buf : ℕ → UInt8
  readPos : ℕ
  writePos : ℕ
  count : ℕ

/-- The two `memcpy` calls that write `data` from `pos` on. -/
def copyIn (buf : ℕ → UInt8) (pos : ℕ) (data : List UInt8) : ℕ → UInt8 :=
  let firstChunk := min (ptyBufferSize - pos) data.length
  let buf := store buf pos (data.take firstChunk)
  if firstChunk < data.length then store buf 0 (data.drop firstChunk) else buf

/-- The two `memcpy` calls that read `n` bytes from `pos` on. -/
def copyOut (buf : ℕ → UInt8) (pos n : ℕ) : List UInt8 :=
  let firstChunk := min (ptyBufferSize - pos) n
  let data := load buf pos firstChunk
  if firstChunk < n then data ++ load buf 0 (n - firstChunk) else data

/-- The bytes written are counted. -/
def ringBufWrite (r : ByteRing) (data : List UInt8) : ByteRing × ℕ :=
  let available := ptyBufferSize - r.count
  let toWrite := min data.length available
  if toWrite = 0 then (r, 0)
  else
    ({ r with
        buf := copyIn r.buf r.writePos (data.take toWrite)
        writePos := (r.writePos + toWrite) % ptyBufferSize
        count := r.count + toWrite }, toWrite)

/-- The bytes read, at most `len`. -/
def ringBufRead (r : ByteRing) (len : ℕ) : ByteRing × List UInt8 :=
  let toRead := min len r.count
  if toRead = 0 then (r, [])
  else
    ({ r with
        readPos := (r.readPos + toRead) % ptyBufferSize
        count := r.count - toRead }, copyOut r.buf r.readPos toRead)

/-- `none` is -1. -/
def ringBufFind (r : ByteRing) (target : UInt8) : Option ℕ :=
  (List.range r.count).find? fun i => r.buf ((r.readPos + i) % ptyBufferSize) == target

namespace ByteRing

def empty : ByteRing := ⟨fun _ => 0, 0, 0, 0⟩

/-- The bytes in the buffer, in the order they are read. -/
def bytes (r : ByteRing) : List UInt8 := Ring.contents ptyBufferSize r.buf r.readPos r.count

structure Ok (r : ByteRing) : Prop where
  count_le : r.count ≤ ptyBufferSize
  read_lt : r.readPos < ptyBufferSize
  write_eq : r.writePos = (r.readPos + r.count) % ptyBufferSize

theorem empty_ok : empty.Ok := ⟨by decide, by decide, by decide⟩

@[simp] theorem bytes_empty : empty.bytes = [] := rfl

@[simp] theorem length_bytes (r : ByteRing) : r.bytes.length = r.count := Ring.length_contents

theorem bytes_eq_nil {r : ByteRing} : r.bytes = [] ↔ r.count = 0 := by
  rw [← List.length_eq_zero_iff, length_bytes]

variable {r : ByteRing} {data : List UInt8}

/-- The room that is left. -/
def room (r : ByteRing) : ℕ := ptyBufferSize - r.count

end ByteRing

section Copies

variable {buf : ℕ → UInt8} {pos n x : ℕ} {data : List UInt8}

theorem copyIn_at (hlen : data.length ≤ ptyBufferSize) (hpos : pos < ptyBufferSize) {j : ℕ}
    (hj : j < data.length) : copyIn buf pos data ((pos + j) % ptyBufferSize) = data[j] := by
  have hsize : ptyBufferSize = 4096 := rfl
  unfold copyIn
  by_cases hwrap : min (ptyBufferSize - pos) data.length < data.length
  · rw [if_pos hwrap]
    have hfirst : min (ptyBufferSize - pos) data.length = ptyBufferSize - pos := by omega
    rw [hfirst]
    by_cases hin : j < ptyBufferSize - pos
    · have hlen₁ : j < (data.take (ptyBufferSize - pos)).length := by
        rw [List.length_take]
        omega
      rw [Nat.mod_eq_of_lt (by omega), store_out (by rw [List.length_drop]; omega), store_at hlen₁,
        List.getElem_take]
    · have hmod : (pos + j) % ptyBufferSize = 0 + (j - (ptyBufferSize - pos)) := by
        unfold ptyBufferSize at *
        omega
      have hlen₂ : j - (ptyBufferSize - pos) < (data.drop (ptyBufferSize - pos)).length := by
        rw [List.length_drop]
        omega
      rw [hmod, store_at hlen₂, List.getElem_drop]
      congr 1
      omega
  · rw [if_neg hwrap]
    have hfirst : min (ptyBufferSize - pos) data.length = data.length := by omega
    rw [hfirst, List.take_length, Nat.mod_eq_of_lt (by omega), store_at hj]

theorem copyIn_out (hpos : pos < ptyBufferSize) (hx : x < ptyBufferSize)
    (hout : ∀ j < data.length, (pos + j) % ptyBufferSize ≠ x) : copyIn buf pos data x = buf x := by
  have hsize : ptyBufferSize = 4096 := rfl
  have hbefore : x < pos ∨ pos + data.length ≤ x := by
    by_contra hin
    refine hout (x - pos) (by omega) ?_
    rw [Nat.add_sub_cancel' (by omega), Nat.mod_eq_of_lt hx]
  unfold copyIn
  by_cases hwrap : min (ptyBufferSize - pos) data.length < data.length
  · rw [if_pos hwrap]
    have hbehind : data.length - (ptyBufferSize - pos) ≤ x := by
      by_contra hin
      refine hout (x + (ptyBufferSize - pos)) (by omega) ?_
      unfold ptyBufferSize at *
      omega
    rw [store_out (by rw [List.length_drop]; omega),
      store_out (by rw [List.length_take]; omega)]
  · rw [if_neg hwrap]
    exact store_out (by rw [List.length_take]; omega)

theorem copyOut_eq (hn : n ≤ ptyBufferSize) (hpos : pos < ptyBufferSize) :
    copyOut buf pos n = Ring.contents ptyBufferSize buf pos n := by
  have hsize : ptyBufferSize = 4096 := rfl
  have hfirst : ∀ k, k ≤ ptyBufferSize - pos → load buf pos k = Ring.contents ptyBufferSize buf pos k := by
    intro k hk
    refine List.map_congr_left fun i hi => ?_
    have := List.mem_range.mp hi
    rw [Nat.mod_eq_of_lt (by omega)]
  unfold copyOut
  dsimp only
  by_cases hwrap : min (ptyBufferSize - pos) n < n
  · rw [if_pos hwrap]
    have hmin : min (ptyBufferSize - pos) n = ptyBufferSize - pos := by omega
    obtain ⟨k, rfl⟩ : ∃ k, n = ptyBufferSize - pos + k := ⟨n - (ptyBufferSize - pos), by omega⟩
    rw [hmin, hfirst _ le_rfl, Ring.contents_add, Nat.add_sub_cancel_left,
      Nat.add_sub_cancel' (by omega), Nat.mod_self]
    congr 1
    refine List.map_congr_left fun i hi => ?_
    have := List.mem_range.mp hi
    rw [Nat.mod_eq_of_lt (by omega)]
  · rw [if_neg hwrap, hfirst _ (Nat.min_le_left _ _)]
    congr 1
    omega

end Copies

section Spec

variable {r : ByteRing} {data : List UInt8}

/-- What fits is appended. -/
theorem ringBufWrite_spec (h : r.Ok) (data : List UInt8) :
    (ringBufWrite r data).1.Ok ∧
      (ringBufWrite r data).1.bytes = r.bytes ++ data.take r.room ∧
      (ringBufWrite r data).2 = min data.length r.room := by
  obtain ⟨hcount, hread, hwrite⟩ := h
  have hsize : ptyBufferSize = 4096 := rfl
  have htake : data.take r.room = data.take (min data.length r.room) := by
    rcases Nat.le_total data.length r.room with hle | hle
    · rw [Nat.min_eq_left hle, List.take_of_length_le hle, List.take_length]
    · rw [Nat.min_eq_right hle]
  rw [htake]
  unfold ringBufWrite
  rw [show ptyBufferSize - r.count = r.room from rfl]
  dsimp only
  generalize hn : min data.length r.room = n
  have hroom : n ≤ ptyBufferSize - r.count := hn ▸ Nat.min_le_right _ _
  have hlen : (data.take n).length = n := by
    rw [List.length_take]
    omega
  by_cases hzero : n = 0
  · subst hzero
    rw [if_pos rfl]
    exact ⟨⟨hcount, hread, hwrite⟩, by simp, rfl⟩
  · rw [if_neg hzero]
    refine ⟨⟨?_, hread, ?_⟩, ?_, rfl⟩
    · dsimp only
      omega
    · dsimp only
      rw [hwrite, Nat.mod_add_mod, Nat.add_assoc]
    · have hpos : r.writePos < ptyBufferSize := hwrite ▸ Nat.mod_lt _ (by decide)
      have happend : Ring.contents ptyBufferSize (copyIn r.buf r.writePos (data.take n)) r.readPos
          (r.count + (data.take n).length) =
          Ring.contents ptyBufferSize r.buf r.readPos r.count ++ data.take n :=
        Ring.contents_append (fun j hj => ?_) (fun j hj => ?_)
      · rw [hlen] at happend
        exact happend
      · refine copyIn_out hpos (Nat.mod_lt _ (by omega)) fun i hi heq => ?_
        rw [hlen] at hi
        rw [hwrite, Nat.mod_add_mod, Nat.add_assoc] at heq
        exact Ring.pos_ne (j := j) (k := r.count + i) (by omega) (by omega) heq.symm
      · have hat : copyIn r.buf r.writePos (data.take n) ((r.writePos + j) % ptyBufferSize) =
            (data.take n)[j] := copyIn_at (by omega) hpos hj
        have hmod : (r.writePos + j) % ptyBufferSize = (r.readPos + r.count + j) % ptyBufferSize := by
          rw [hwrite, Nat.mod_add_mod]
        rwa [hmod] at hat

theorem ringBufWrite_fits (h : r.Ok) (hfits : data.length ≤ r.room) :
    (ringBufWrite r data).1.Ok ∧ (ringBufWrite r data).1.bytes = r.bytes ++ data := by
  obtain ⟨hok, hbytes, -⟩ := ringBufWrite_spec h data
  rw [List.take_of_length_le hfits] at hbytes
  exact ⟨hok, hbytes⟩

/-- What is read is taken from the front. -/
theorem ringBufRead_spec (h : r.Ok) (len : ℕ) :
    (ringBufRead r len).1.Ok ∧ (ringBufRead r len).2 = r.bytes.take len ∧
      (ringBufRead r len).1.bytes = r.bytes.drop len := by
  obtain ⟨hcount, hread, hwrite⟩ := h
  have hsize : ptyBufferSize = 4096 := rfl
  unfold ringBufRead
  dsimp only
  by_cases hzero : min len r.count = 0
  · rw [if_pos hzero]
    refine ⟨⟨hcount, hread, hwrite⟩, ?_, ?_⟩
    · rw [eq_comm, List.take_eq_nil_iff, ByteRing.bytes_eq_nil]
      omega
    · rcases Nat.eq_zero_or_pos len with rfl | hlen
      · rfl
      · have hnil : r.bytes = [] := ByteRing.bytes_eq_nil.mpr (by omega)
        rw [hnil, List.drop_nil]
  · rw [if_neg hzero]
    obtain ⟨k, hk⟩ : ∃ k, r.count = min len r.count + k := ⟨r.count - min len r.count, by omega⟩
    have hsplit : r.bytes = Ring.contents ptyBufferSize r.buf r.readPos (min len r.count) ++
        Ring.contents ptyBufferSize r.buf ((r.readPos + min len r.count) % ptyBufferSize) k := by
      rw [← Ring.contents_add, ← hk]
      rfl
    have hfirst : (Ring.contents ptyBufferSize r.buf r.readPos (min len r.count)).length =
        min len r.count := Ring.length_contents
    have hk' : r.count - min len r.count = k := by omega
    have htake : r.bytes.take len = r.bytes.take (min len r.count) ∧
        r.bytes.drop len = r.bytes.drop (min len r.count) := by
      rcases Nat.le_total len r.count with hle | hle
      · rw [Nat.min_eq_left hle]
        exact ⟨rfl, rfl⟩
      · have hlen : r.bytes.length ≤ len := by rwa [ByteRing.length_bytes]
        rw [Nat.min_eq_right hle, List.take_of_length_le hlen, List.drop_of_length_le hlen,
          List.take_of_length_le (by simp), List.drop_of_length_le (by simp)]
        exact ⟨rfl, rfl⟩
    refine ⟨⟨?_, ?_, ?_⟩, ?_, ?_⟩
    · dsimp only
      omega
    · exact Nat.mod_lt _ (by omega)
    · dsimp only
      rw [hwrite, Nat.mod_add_mod]
      congr 1
      omega
    · rw [copyOut_eq (by omega) hread, htake.1, hsplit, List.take_left' hfirst]
    · rw [htake.2, hsplit, List.drop_left' hfirst, ← hk']
      rfl

/-- The position of the first such byte. -/
theorem ringBufFind_eq (r : ByteRing) (target : UInt8) :
    ringBufFind r target = r.bytes.findIdx? (· == target) := by
  have hget : ∀ (j : ℕ) (hj : j < r.bytes.length),
      r.bytes[j] = r.buf ((r.readPos + j) % ptyBufferSize) := by
    intro j hj
    simp [ByteRing.bytes, Ring.contents]
  ext i
  rw [ringBufFind, List.find?_range_eq_some, List.findIdx?_eq_some_iff_getElem]
  constructor
  · rintro ⟨hfound, hmem, hfirst⟩
    have hi : i < r.bytes.length := by
      rw [ByteRing.length_bytes]
      exact List.mem_range.mp hmem
    refine ⟨hi, by rwa [hget], fun j hji => ?_⟩
    rw [hget]
    simpa using hfirst j hji
  · rintro ⟨hi, hfound, hfirst⟩
    rw [hget] at hfound
    refine ⟨hfound, List.mem_range.mpr (by rwa [ByteRing.length_bytes] at hi), fun j hji => ?_⟩
    have := hfirst j hji
    rw [hget] at this
    simpa using this
end Spec

end Lestra
