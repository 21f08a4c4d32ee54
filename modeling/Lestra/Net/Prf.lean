import Lestra.Lib.Hmac
import Lestra.Lib.Sha256
import Lestra.Lib.ByteBuf

/-!
# HMAC and the PRF of the handshake

`hmac_sha256`, `p_hash` and `tls_prf` of `kernel/net/tls.c`, over any hash that is called
piece by piece. `p_hash` copies at most 128 bytes of the seed into its buffer of 160 bytes
and hands its full length on.
-/

namespace Lestra

-- ---------------------------------------------------------------------------
-- The code
-- ---------------------------------------------------------------------------

/-- The calls of a hash on a context. -/
structure HashCalls (σ : Type*) where
  init : σ
  update : σ → List UInt8 → σ
  final : σ → List UInt8
  hash : List UInt8 → List UInt8

variable {σ : Type*}

def hmacSha256 (calls : HashCalls σ) (key data : List UInt8) : List UInt8 :=
  let k := List.replicate 64 0
  let k := if key.length > 64 then ByteBuf.store k 0 (calls.hash key) else ByteBuf.store k 0 key
  let ipad := (List.range 64).map fun i => ByteBuf.get k i ^^^ 0x36
  let opad := (List.range 64).map fun i => ByteBuf.get k i ^^^ 0x5C
  let inner := calls.final (calls.update (calls.update calls.init ipad) data)
  calls.final (calls.update (calls.update calls.init opad) inner)

/-- The first `n` bytes of an array of `size` bytes; `none` is a read behind its end. -/
def readArray (size : ℕ) (array : List UInt8) (n : ℕ) : Option (List UInt8) :=
  if n ≤ size then some (ByteBuf.load array 0 n) else none

/-- The loop of `p_hash`. The array `combined` has 160 bytes, and holds `stack` before it is
written to. -/
def pHashLoop (calls : HashCalls σ) (stack secret seed : List UInt8) (outLen : ℕ)
    (A : List UInt8) (offset : ℕ) (out : List UInt8) : Option (List UInt8) :=
  if offset < outLen then
    let combined := ByteBuf.store stack 0 A
    let combined :=
      ByteBuf.store combined 32 (seed.take (if seed.length < 128 then seed.length else 128))
    match readArray (32 + 128) combined (32 + seed.length) with
    | none => none
    | some message =>
      let block := hmacSha256 calls secret message
      let toCopy := if outLen - offset > 32 then 32 else outLen - offset
      pHashLoop calls stack secret seed outLen (hmacSha256 calls secret A) (offset + toCopy)
        (ByteBuf.store out offset (block.take toCopy))
  else some out
termination_by outLen - offset
decreasing_by
  split <;> omega

def pHash (calls : HashCalls σ) (stack secret seed out : List UInt8) (outLen : ℕ) :
    Option (List UInt8) :=
  pHashLoop calls stack secret seed outLen (hmacSha256 calls secret seed) 0 out

/-- `none` where the label and the seed do not fit into the array of 256 bytes, too. -/
def tlsPrf (calls : HashCalls σ) (stack secret label seed out : List UInt8) (outLen : ℕ) :
    Option (List UInt8) :=
  if label.length + seed.length ≤ 256 then
    pHash calls stack secret (label ++ seed) out outLen
  else none

-- ---------------------------------------------------------------------------
-- HMAC
-- ---------------------------------------------------------------------------

/-- The streaming law: the calls give the hash `H` of all that was handed over. -/
structure HashCalls.Streams (calls : HashCalls σ) (H : List UInt8 → List UInt8) : Prop where
  stream : ∀ pieces : List (List UInt8), calls.final (pieces.foldl calls.update calls.init) = H pieces.flatten
  whole : ∀ m, calls.hash m = H m
  length : ∀ m, (H m).length = 32

variable {calls : HashCalls σ} {H : List UInt8 → List UInt8}

theorem HashCalls.Streams.two (h : calls.Streams H) (m m' : List UInt8) :
    calls.final (calls.update (calls.update calls.init m) m') = H (m ++ m') := by
  have hstream := h.stream [m, m']
  rwa [List.flatten_cons, List.flatten_cons, List.flatten_nil, List.append_nil] at hstream

/-- The bytes of a key in the array of 64 bytes. -/
theorem store_key {k : List UInt8} (hk : k.length ≤ 64) (x : UInt8) :
    ((List.range 64).map fun i => ByteBuf.get (ByteBuf.store (List.replicate 64 0) 0 k) i ^^^ x) =
      (k ++ List.replicate (64 - k.length) 0).map (· ^^^ x) := by
  refine List.ext_getElem ?_ fun i h₁ h₂ => ?_
  · simp only [List.length_map, List.length_range, List.length_append, List.length_replicate]
    omega
  · rw [List.getElem_map, List.getElem_range, List.getElem_map]
    refine congrArg (· ^^^ x) ?_
    rw [List.length_map, List.length_range] at h₁
    rw [ByteBuf.get_store, ← List.getD_eq_getElem _ 0]
    split
    · next hlt =>
      rw [List.getD_append _ _ _ _ (by omega)]
      rfl
    · next hge =>
      rw [List.getD_append_right _ _ _ _ (by omega), List.getD_replicate 0 (by omega)]
      exact List.getD_replicate 0 h₁

theorem hmacSha256_eq (h : calls.Streams H) (key data : List UInt8) :
    hmacSha256 calls key data = Hmac.hmac H key data := by
  have hlen := h.length key
  rw [hmacSha256, Hmac.hmac, Hmac.blockKey, h.whole, h.two, h.two]
  split
  · rw [store_key (by omega), store_key (by omega)]
  · rw [store_key (by omega), store_key (by omega)]

-- ---------------------------------------------------------------------------
-- The expansion
-- ---------------------------------------------------------------------------

/-- The bytes that are hashed in one turn, where they are all in the array. -/
theorem readArray_combined {stack A seed : List UInt8} (hA : A.length = 32) (hlen : seed.length ≤ 128) :
    readArray (32 + 128)
      (ByteBuf.store (ByteBuf.store stack 0 A) 32
        (seed.take (if seed.length < 128 then seed.length else 128))) (32 + seed.length) =
      some (A ++ seed) := by
  have htake : seed.take (if seed.length < 128 then seed.length else 128) = seed :=
    List.take_of_length_le (by split <;> omega)
  rw [readArray, if_pos (by omega), htake]
  refine congrArg some (List.ext_getElem ?_ fun i h₁ h₂ => ?_)
  · rw [ByteBuf.length_load, List.length_append, hA]
  · rw [ByteBuf.length_load] at h₁
    rw [(List.getElem_eq_iff _).mpr (ByteBuf.getElem?_load h₁), Nat.zero_add, ByteBuf.get_store,
      ByteBuf.get_store, ← List.getD_eq_getElem _ 0]
    split
    · next hin =>
      rw [List.getD_append_right _ _ _ _ (by omega), hA]
      rfl
    · next hout =>
      rw [if_pos ⟨by omega, by omega⟩, List.getD_append _ _ _ _ (by omega)]
      rfl

/-- The front of a block at its place in the output. -/
theorem get_store_block {block : List UInt8} (hblock : block.length = 32) {n : ℕ} (hn : n ≤ 32)
    (out : List UInt8) (i j : ℕ) :
    ByteBuf.get (ByteBuf.store out (32 * i) (block.take n)) j =
      if 32 * i ≤ j ∧ j < 32 * i + n then block.getD (j % 32) 0 else ByteBuf.get out j := by
  have hlen : (block.take n).length = n := by
    rw [List.length_take]
    omega
  rw [ByteBuf.get_store, hlen]
  split
  · next hin =>
    have hmod : j - 32 * i = j % 32 := by omega
    rw [ByteBuf.get, List.getD_eq_getElem?_getD, List.getElem?_take_of_lt (by omega), hmod,
      List.getD_eq_getElem?_getD]
  · rfl

/-- What the loop writes from `A(i + 1)` on. -/
theorem pHashLoop_eq (h : calls.Streams H) (stack secret : List UInt8) {seed : List UInt8}
    (hlen : seed.length ≤ 128) (outLen i : ℕ) (out : List UInt8) :
    ∃ out', pHashLoop calls stack secret seed outLen (Hmac.chain H secret seed (i + 1)) (32 * i) out =
        some out' ∧
      ∀ j, ByteBuf.get out' j =
        if 32 * i ≤ j ∧ j < outLen then
          (Hmac.expansionBlock H secret seed (j / 32)).getD (j % 32) 0
        else ByteBuf.get out j := by
  induction hn : outLen - 32 * i using Nat.strongRecOn generalizing i out with
  | ind n ih =>
    have hA : (Hmac.chain H secret seed (i + 1)).length = 32 := h.length _
    have hblock := Hmac.length_expansionBlock h.length secret seed i
    rw [pHashLoop]
    dsimp only
    by_cases hlt : 32 * i < outLen
    · rw [if_pos hlt, readArray_combined hA hlen]
      dsimp only
      rw [hmacSha256_eq h, hmacSha256_eq h]
      by_cases hfull : outLen - 32 * i > 32
      · rw [if_pos hfull]
        obtain ⟨out', hout, hget⟩ := ih (outLen - 32 * (i + 1)) (by omega) (i + 1)
          (ByteBuf.store out (32 * i) ((Hmac.expansionBlock H secret seed i).take 32)) rfl
        refine ⟨out', hout, fun j => ?_⟩
        rw [hget, get_store_block hblock (Nat.le_refl 32)]
        by_cases hin : 32 * i ≤ j ∧ j < 32 * i + 32
        · have hdiv : j / 32 = i := by omega
          rw [if_neg (by omega), if_pos hin, if_pos ⟨hin.1, by omega⟩, hdiv]
        · rw [if_neg hin]
          exact if_congr (by omega) rfl rfl
      · rw [if_neg hfull]
        have hrest : 32 * i + (outLen - 32 * i) = outLen := by omega
        rw [hrest, pHashLoop, if_neg (Nat.lt_irrefl _)]
        refine ⟨ByteBuf.store out (32 * i)
          ((Hmac.expansionBlock H secret seed i).take (outLen - 32 * i)), rfl, fun j => ?_⟩
        rw [get_store_block hblock (by omega), hrest]
        by_cases hin : 32 * i ≤ j ∧ j < outLen
        · have hdiv : j / 32 = i := by omega
          rw [if_pos hin, if_pos hin, hdiv]
        · rw [if_neg hin, if_neg hin]
    · rw [if_neg hlt]
      refine ⟨out, rfl, fun j => ?_⟩
      rw [if_neg (by omega)]

/-- `tls_prf` fills the first `outLen` bytes of `out` with the expansion of the label and the
seed, and neither reads nor writes outside its arrays. -/
def PrfRight (calls : HashCalls σ) (H : List UInt8 → List UInt8)
    (stack secret label seed out : List UInt8) (outLen : ℕ) : Prop :=
  ∃ out', tlsPrf calls stack secret label seed out outLen = some out' ∧
    ByteBuf.load out' 0 outLen = Hmac.pHash H secret (label ++ seed) outLen ∧
    ∀ j, outLen ≤ j → ByteBuf.get out' j = ByteBuf.get out j

theorem prfRight_of_short (h : calls.Streams H) {stack secret label seed out : List UInt8}
    {outLen : ℕ} (hlen : label.length + seed.length ≤ 128) :
    PrfRight calls H stack secret label seed out outLen := by
  have hseed : (label ++ seed).length ≤ 128 := by rwa [List.length_append]
  obtain ⟨out', hout, hget⟩ := pHashLoop_eq h stack secret hseed outLen 0 out
  refine ⟨out', ?_, ?_, fun j hj => ?_⟩
  · rw [tlsPrf, if_pos (by omega), pHash, hmacSha256_eq h]
    exact hout
  · have hfull := Hmac.length_pHash h.length secret (label ++ seed) outLen
    refine List.ext_getElem (by rw [ByteBuf.length_load, hfull]) fun j h₁ h₂ => ?_
    rw [hfull] at h₂
    rw [(List.getElem_eq_iff _).mpr (ByteBuf.getElem?_load h₂), Nat.zero_add, hget,
      if_pos ⟨Nat.zero_le _, h₂⟩, ← List.getD_eq_getElem _ 0, Hmac.getD_pHash h.length _ _ h₂]
  · rw [hget, if_neg (by omega)]

/-- Behind 128 bytes the first turn reads what is not in the array. -/
theorem prfRight_imp {stack secret label seed out : List UInt8} {outLen : ℕ}
    (hright : PrfRight calls H stack secret label seed out outLen) :
    label.length + seed.length ≤ 128 ∨ outLen = 0 := by
  by_contra hnot
  rw [not_or, Nat.not_le] at hnot
  obtain ⟨out', hout, -, -⟩ := hright
  rw [tlsPrf] at hout
  split at hout
  · have hlong : readArray (32 + 128) (ByteBuf.store (ByteBuf.store stack 0
        (hmacSha256 calls secret (label ++ seed))) 32 ((label ++ seed).take
          (if (label ++ seed).length < 128 then (label ++ seed).length else 128)))
        (32 + (label ++ seed).length) = none := by
      rw [readArray, List.length_append, if_neg (by omega)]
    rw [pHash, pHashLoop, if_pos (Nat.pos_of_ne_zero hnot.2)] at hout
    dsimp only at hout
    rw [hlong] at hout
    exact Option.some_ne_none _ hout.symm
  · exact Option.some_ne_none _ hout.symm

/--
**HMAC, and the PRF up to 128 bytes.** Over any hash with the streaming law HMAC is that of
the standard; the PRF is the expansion of the standard, within its arrays, exactly when the
label and the seed have at most 128 bytes together or no output is asked for.
-/
theorem prf_right_iff (h : calls.Streams H) (stack secret label seed out : List UInt8)
    (outLen : ℕ) (hlen : label.length + seed.length ≤ 256) :
    (∀ key m, hmacSha256 calls key m = Hmac.hmac H key m) ∧
    (PrfRight calls H stack secret label seed out outLen ↔
      label.length + seed.length ≤ 128 ∨ outLen = 0) := by
  refine ⟨hmacSha256_eq h, prfRight_imp, ?_⟩
  rintro (hshort | hzero)
  · exact prfRight_of_short h hshort
  · subst hzero
    refine ⟨out, ?_, rfl, fun _ _ => rfl⟩
    rw [tlsPrf, if_pos hlen, pHash, pHashLoop, if_neg (Nat.not_lt_zero _)]

/-- SHA-256 on all the bytes that were handed over. -/
def sha256Calls : HashCalls (List UInt8) :=
  { init := []
    update := (· ++ ·)
    final := Sha256.sha256
    hash := Sha256.sha256 }

theorem sha256Calls_streams : sha256Calls.Streams Sha256.sha256 where
  stream := fun pieces => by
    have hfold : ∀ m : List UInt8, pieces.foldl (· ++ ·) m = m ++ pieces.flatten := by
      induction pieces with
      | nil => simp
      | cons p ps ih => simp [ih]
    exact congrArg Sha256.sha256 (hfold [])
  whole := fun _ => rfl
  length := fun _ => rfl

/-- A label and a seed of 129 bytes, as far as one byte of output is asked for. -/
theorem prf_of_129_bytes_wrong :
    ¬ PrfRight sha256Calls Sha256.sha256 [] [] [] (List.replicate 129 0) [0] 1 := by
  intro hright
  rcases prfRight_imp hright with hle | hzero
  · rw [List.length_replicate] at hle
    exact absurd hle (by decide)
  · exact absurd hzero (by decide)

theorem prf_right_master_secret :
    (∀ key m, hmacSha256 sha256Calls key m = Hmac.hmac Sha256.sha256 key m) ∧
    (PrfRight sha256Calls Sha256.sha256 [] [1] (List.replicate 13 0x6D) (List.replicate 64 7) [] 48 ↔
      (List.replicate 13 (0x6D : UInt8)).length + (List.replicate 64 (7 : UInt8)).length ≤ 128 ∨
        48 = 0) :=
  prf_right_iff sha256Calls_streams [] [1] (List.replicate 13 0x6D) (List.replicate 64 7) [] 48
    (by decide)

end Lestra
