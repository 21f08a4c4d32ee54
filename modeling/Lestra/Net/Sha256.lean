import Lestra.Lib.Sha256
import Lestra.Lib.ByteBuf

/-!
# The SHA-256 of the kernel

`sha256_init`, `sha256_block`, `sha256_update` and `sha256_final` of `kernel/net/tls.c`
(`x509.c` and `ca_store.c` carry the same code). The count of bits advances only when a
block is done, and the position in the buffer is read off it: what an update leaves in the
buffer is forgotten by the next call.
-/

namespace Lestra

-- ---------------------------------------------------------------------------
-- The code
-- ---------------------------------------------------------------------------

structure Sha256Ctx where
  state : Sha256.Words
  bitcount : UInt64
  buffer : List UInt8

def sha256K : List UInt32 := [
  0x428a2f98, 0x71374491, 0xb5c0fbcf, 0xe9b5dba5, 0x3956c25b, 0x59f111f1, 0x923f82a4, 0xab1c5ed5,
  0xd807aa98, 0x12835b01, 0x243185be, 0x550c7dc3, 0x72be5d74, 0x80deb1fe, 0x9bdc06a7, 0xc19bf174,
  0xe49b69c1, 0xefbe4786, 0x0fc19dc6, 0x240ca1cc, 0x2de92c6f, 0x4a7484aa, 0x5cb0a9dc, 0x76f988da,
  0x983e5152, 0xa831c66d, 0xb00327c8, 0xbf597fc7, 0xc6e00bf3, 0xd5a79147, 0x06ca6351, 0x14292967,
  0x27b70a85, 0x2e1b2138, 0x4d2c6dfc, 0x53380d13, 0x650a7354, 0x766a0abb, 0x81c2c92e, 0x92722c85,
  0xa2bfe8a1, 0xa81a664b, 0xc24b8b70, 0xc76c51a3, 0xd192e819, 0xd6990624, 0xf40e3585, 0x106aa070,
  0x19a4c116, 0x1e376c08, 0x2748774c, 0x34b0bcb5, 0x391c0cb3, 0x4ed8aa4a, 0x5b9cca4f, 0x682e6ff3,
  0x748f82ee, 0x78a5636f, 0x84c87814, 0x8cc70208, 0x90befffa, 0xa4506ceb, 0xbef9a3f7, 0xc67178f2]

def rotr (x n : UInt32) : UInt32 := (x >>> n) ||| (x <<< (32 - n))

/-- The context is on the stack of the caller, with `buffer` as it was. -/
def sha256Init (buffer : List UInt8) : Sha256Ctx :=
  { state := ⟨0x6a09e667, 0xbb67ae85, 0x3c6ef372, 0xa54ff53a, 0x510e527f, 0x9b05688c, 0x1f83d9ab,
      0x5be0cd19⟩
    bitcount := 0
    buffer := buffer }

/-- The words of the array `w` that are filled after `n` turns of the second loop. -/
def sha256W (block : ℕ → UInt8) : ℕ → List UInt32
  | 0 => (List.range 16).map fun i =>
    ((block (i * 4)).toUInt32 <<< 24) ||| ((block (i * 4 + 1)).toUInt32 <<< 16) |||
      ((block (i * 4 + 2)).toUInt32 <<< 8) ||| (block (i * 4 + 3)).toUInt32
  | n + 1 =>
    let w := sha256W block n
    let i := 16 + n
    let s0 := rotr (w.getD (i - 15) 0) 7 ^^^ rotr (w.getD (i - 15) 0) 18 ^^^ (w.getD (i - 15) 0 >>> 3)
    let s1 := rotr (w.getD (i - 2) 0) 17 ^^^ rotr (w.getD (i - 2) 0) 19 ^^^ (w.getD (i - 2) 0 >>> 10)
    w ++ [w.getD (i - 16) 0 + s0 + w.getD (i - 7) 0 + s1]

def sha256Round (w : List UInt32) (v : Sha256.Words) (i : ℕ) : Sha256.Words :=
  let S1 := rotr v.e 6 ^^^ rotr v.e 11 ^^^ rotr v.e 25
  let ch := (v.e &&& v.f) ^^^ (~~~v.e &&& v.g)
  let t1 := v.h + S1 + ch + sha256K.getD i 0 + w.getD i 0
  let S0 := rotr v.a 2 ^^^ rotr v.a 13 ^^^ rotr v.a 22
  let maj := (v.a &&& v.b) ^^^ (v.a &&& v.c) ^^^ (v.b &&& v.c)
  let t2 := S0 + maj
  ⟨t1 + t2, v.a, v.b, v.c, v.d + t1, v.e, v.f, v.g⟩

def sha256Block (ctx : Sha256Ctx) (block : ℕ → UInt8) : Sha256Ctx :=
  let v := (List.range 64).foldl (sha256Round (sha256W block 48)) ctx.state
  { ctx with
    state := ⟨ctx.state.a + v.a, ctx.state.b + v.b, ctx.state.c + v.c, ctx.state.d + v.d,
      ctx.state.e + v.e, ctx.state.f + v.f, ctx.state.g + v.g, ctx.state.h + v.h⟩
    bitcount := ctx.bitcount + 512 }

/-- The position in the buffer that the count of bits says. -/
def Sha256Ctx.bufPos (ctx : Sha256Ctx) : Fin 64 :=
  ⟨(ctx.bitcount / 8 % 64).toNat, by
    rw [UInt64.toNat_mod]
    exact Nat.mod_lt _ (by decide)⟩

/-- The loop of `sha256_update`, while `len > 0`. -/
def sha256UpdateLoop (ctx : Sha256Ctx) (bufPos : Fin 64) : List UInt8 → Sha256Ctx
  | [] => ctx
  | byte :: data =>
    let toCopy := min (64 - bufPos.val) (data.length + 1)
    let ctx := { ctx with buffer := ByteBuf.store ctx.buffer bufPos ((byte :: data).take toCopy) }
    if h : bufPos.val + toCopy < 64 then
      sha256UpdateLoop ctx ⟨bufPos + toCopy, h⟩ ((byte :: data).drop toCopy)
    else sha256UpdateLoop (sha256Block ctx (ByteBuf.get ctx.buffer)) 0 ((byte :: data).drop toCopy)
termination_by data => data.length
decreasing_by
  all_goals
    rw [List.length_drop, List.length_cons]
    omega

def sha256Update (ctx : Sha256Ctx) (data : List UInt8) : Sha256Ctx :=
  sha256UpdateLoop ctx ctx.bufPos data

/-- The eight bytes of the count of bits, most significant first. -/
def bitcountBytes (bc : UInt64) : List UInt8 :=
  (List.range 8).map fun i => (bc >>> UInt64.ofNat (8 * (7 - i)) &&& 0xFF).toUInt8

/-- The words of the state, most significant byte first. -/
def sha256Out (ctx : Sha256Ctx) : List UInt8 :=
  ctx.state.toList.flatMap fun s : UInt32 =>
    [(s >>> 24 &&& 0xFF).toUInt8, (s >>> 16 &&& 0xFF).toUInt8, (s >>> 8 &&& 0xFF).toUInt8,
      (s &&& 0xFF).toUInt8]

def sha256Final (ctx : Sha256Ctx) : List UInt8 :=
  let bufPos := ctx.bufPos.val + 1
  let ctx := { ctx with buffer := ByteBuf.store ctx.buffer ctx.bufPos.val [0x80] }
  let full := { ctx with buffer := ByteBuf.zero ctx.buffer bufPos (64 - bufPos) }
  let next := if bufPos > 56 then sha256Block full (ByteBuf.get full.buffer) else ctx
  let bufPos := if bufPos > 56 then 0 else bufPos
  let next := { next with buffer := ByteBuf.zero next.buffer bufPos (56 - bufPos) }
  let next := { next with buffer := ByteBuf.store next.buffer 56 (bitcountBytes next.bitcount) }
  sha256Out (sha256Block next (ByteBuf.get next.buffer))

/-- `sha256_init`, one `sha256_update` for each piece, `sha256_final`. -/
def sha256Stream (buffer : List UInt8) (pieces : List (List UInt8)) : List UInt8 :=
  sha256Final (pieces.foldl sha256Update (sha256Init buffer))

def sha256Hash (buffer data : List UInt8) : List UInt8 :=
  sha256Final (sha256Update (sha256Init buffer) data)

-- ---------------------------------------------------------------------------
-- One block
-- ---------------------------------------------------------------------------

theorem sha256K_eq : sha256K = Sha256.k := by
  rw [Sha256.k, Sha256.primes_eq]
  decide

theorem sha256Init_state (buffer : List UInt8) : (sha256Init buffer).state = Sha256.h0 := by
  have h : (⟨0x6a09e667, 0xbb67ae85, 0x3c6ef372, 0xa54ff53a, 0x510e527f, 0x9b05688c, 0x1f83d9ab,
      0x5be0cd19⟩ : Sha256.Words) = Sha256.h0 := by decide
  exact h

theorem rotr_seven (x : UInt32) : rotr x 7 = Sha256.rotr 7 x := rfl

theorem rotr_eighteen (x : UInt32) : rotr x 18 = Sha256.rotr 18 x := rfl

theorem rotr_seventeen (x : UInt32) : rotr x 17 = Sha256.rotr 17 x := rfl

theorem rotr_nineteen (x : UInt32) : rotr x 19 = Sha256.rotr 19 x := rfl

theorem length_sha256W (block : ℕ → UInt8) (n : ℕ) : (sha256W block n).length = 16 + n := by
  induction n with
  | zero => rw [sha256W, List.length_map, List.length_range]
  | succ n ih =>
    rw [sha256W]
    simp only [List.length_append, List.length_cons, List.length_nil, ih]
    omega

theorem getD_reverse {l : List UInt32} {i : ℕ} (h : i < l.length) :
    l.reverse.getD i 0 = l.getD (l.length - 1 - i) 0 := by
  rw [List.getD_eq_getElem?_getD, List.getD_eq_getElem?_getD, List.getElem?_reverse h]

/-- The array that the two loops fill is the message schedule. -/
theorem sha256W_eq (block : ℕ → UInt8) : sha256W block 48 = Sha256.schedule block := by
  have hfill : ∀ n, Sha256.extend n (sha256W block 0).reverse = (sha256W block n).reverse :=
    fun n => by
      induction n with
      | zero => rfl
      | succ n ih =>
        have hlen := length_sha256W block n
        have h15 : 16 + n - 1 - 14 = 16 + n - 15 := by omega
        have h2 : 16 + n - 1 - 1 = 16 + n - 2 := by omega
        have h7 : 16 + n - 1 - 6 = 16 + n - 7 := by omega
        have h16 : 16 + n - 1 - 15 = 16 + n - 16 := by omega
        rw [Sha256.extend_succ, ih, sha256W, List.reverse_append, Sha256.nextWord,
          getD_reverse (by omega), getD_reverse (by omega), getD_reverse (by omega),
          getD_reverse (by omega), hlen, h15, h2, h7, h16]
        refine congrArg (· :: (sha256W block n).reverse) ?_
        simp only [Sha256.smallSigma0, Sha256.smallSigma1, rotr_seven, rotr_eighteen, rotr_seventeen,
          rotr_nineteen]
        ac_rfl
  have hfirst : sha256W block 0 = (List.range 16).map fun t => Sha256.word (block (4 * t))
      (block (4 * t + 1)) (block (4 * t + 2)) (block (4 * t + 3)) := by
    refine List.map_congr_left fun t _ => ?_
    rw [Nat.mul_comm t 4]
    rfl
  rw [Sha256.schedule, ← hfirst, hfill, List.reverse_reverse]

theorem sha256Round_eq (w : List UInt32) (v : Sha256.Words) (i : ℕ) :
    sha256Round w v i = Sha256.round v (sha256K.getD i 0, w.getD i 0) := rfl

/-- `sha256_block` is the compression function. -/
theorem sha256Block_state (ctx : Sha256Ctx) (block : ℕ → UInt8) :
    (sha256Block ctx block).state = Sha256.compress ctx.state block := by
  have hlist : ∀ {l : List UInt32}, l.length = 64 → l = (List.range 64).map fun i => l.getD i 0 :=
    fun {l} hl => by
      refine List.ext_getElem (by simp [hl]) fun i h₁ h₂ => ?_
      rw [List.getElem_map, List.getElem_range, List.getD_eq_getElem _ _ h₁]
  have hk : sha256K.length = 64 := rfl
  have hzip : Sha256.k.zip (Sha256.schedule block) =
      (List.range 64).map fun i => (sha256K.getD i 0, (sha256W block 48).getD i 0) := by
    rw [← sha256K_eq, ← sha256W_eq]
    conv_lhs => rw [hlist hk, hlist (length_sha256W block 48)]
    exact List.zip_map' ..
  have hround : sha256Round (sha256W block 48) =
      fun v i => Sha256.round v (sha256K.getD i 0, (sha256W block 48).getD i 0) :=
    funext₂ fun v i => sha256Round_eq (sha256W block 48) v i
  rw [Sha256.compress, hzip, List.foldl_map, ← hround]
  rfl

-- ---------------------------------------------------------------------------
-- What an update takes in
-- ---------------------------------------------------------------------------

/-- The context stands behind the whole blocks `m`. -/
structure Absorbed (ctx : Sha256Ctx) (m : List UInt8) : Prop where
  state : ctx.state = Sha256.absorb Sha256.h0 (fun i => m.getD i 0) (m.length / 64)
  whole : m.length % 64 = 0
  count : ctx.bitcount = UInt64.ofNat (8 * m.length)

/-- The whole blocks at the front of a piece. -/
def wholeBlocks (p : List UInt8) : List UInt8 := p.take (64 * (p.length / 64))

theorem length_wholeBlocks (p : List UInt8) : (wholeBlocks p).length = 64 * (p.length / 64) := by
  rw [wholeBlocks, List.length_take]
  omega

theorem Absorbed.init (buffer : List UInt8) : Absorbed (sha256Init buffer) [] :=
  ⟨sha256Init_state buffer, rfl, rfl⟩

/-- Behind whole blocks the position in the buffer is 0. -/
theorem Absorbed.bufPos {ctx : Sha256Ctx} {m : List UInt8} (h : Absorbed ctx m) :
    ctx.bufPos = 0 := by
  have hwhole := h.whole
  have hcount : (ctx.bitcount / 8 % 64).toNat = 0 := by
    rw [h.count]
    simp only [UInt64.toNat_mod, UInt64.toNat_div, UInt64.toNat_ofNat', UInt64.reduceToNat]
    omega
  exact Fin.ext hcount

theorem Absorbed.block {ctx : Sha256Ctx} {m : List UInt8} (h : Absorbed ctx m)
    {b : List UInt8} (hb : b.length = 64) {block : ℕ → UInt8}
    (hblock : ∀ i < 64, block i = b.getD i 0) : Absorbed (sha256Block ctx block) (m ++ b) := by
  have hwhole := h.whole
  have hlen : (m ++ b).length / 64 = m.length / 64 + 1 := by
    rw [List.length_append, hb]
    omega
  refine ⟨?_, ?_, ?_⟩
  · rw [sha256Block_state, hlen, Sha256.absorb_append _ _ hwhole, h.state]
    exact Sha256.compress_congr _ hblock
  · rw [List.length_append, hb]
    omega
  · have hcount : (sha256Block ctx block).bitcount = ctx.bitcount + 512 := rfl
    rw [hcount, h.count, List.length_append, hb, Nat.mul_add, UInt64.ofNat_add]
    rfl

theorem Absorbed.store {ctx : Sha256Ctx} {m : List UInt8} (h : Absorbed ctx m)
    (buffer : List UInt8) : Absorbed { ctx with buffer := buffer } m := ⟨h.state, h.whole, h.count⟩

/-- The bytes of a piece behind its last whole block stay in the buffer, and the context does
not know of them. -/
theorem Absorbed.updateLoop {ctx : Sha256Ctx} {m : List UInt8} (h : Absorbed ctx m)
    (data : List UInt8) : Absorbed (sha256UpdateLoop ctx 0 data) (m ++ wholeBlocks data) := by
  induction hn : data.length using Nat.strongRecOn generalizing ctx m data with
  | ind n ih =>
    cases data with
    | nil =>
      rw [sha256UpdateLoop, wholeBlocks, List.take_nil, List.append_nil]
      exact h
    | cons byte rest =>
      rw [List.length_cons] at hn
      have hzero : (0 : Fin 64).val = 0 := rfl
      rw [sha256UpdateLoop]
      dsimp only
      split
      · rename_i hlt
        rw [hzero] at hlt
        have hall : min (64 - (0 : Fin 64).val) (rest.length + 1) = (byte :: rest).length := by
          rw [hzero, List.length_cons]
          omega
        have hnone : wholeBlocks (byte :: rest) = [] := by
          have hdiv : (byte :: rest).length / 64 = 0 := by
            rw [List.length_cons]
            omega
          rw [wholeBlocks, hdiv, Nat.mul_zero, List.take_zero]
        rw [hnone, List.append_nil]
        simp only [hall, List.drop_length]
        rw [sha256UpdateLoop]
        exact h.store _
      · rename_i hge
        rw [hzero] at hge
        have hcopy : min (64 - (0 : Fin 64).val) (rest.length + 1) = 64 := by
          rw [hzero]
          omega
        have hlen : ((byte :: rest).take 64).length = 64 := by
          rw [List.length_take, List.length_cons]
          omega
        have hdrop : ((byte :: rest).drop 64).length = n - 64 := by
          rw [List.length_drop, List.length_cons, hn]
        simp only [hcopy]
        have hsplit : wholeBlocks (byte :: rest) =
            (byte :: rest).take 64 ++ wholeBlocks ((byte :: rest).drop 64) := by
          have hdiv : 64 * ((byte :: rest).length / 64) = 64 + 64 * ((n - 64) / 64) := by
            rw [List.length_cons, hn]
            omega
          rw [wholeBlocks, wholeBlocks, hdrop, hdiv, List.take_add]
        rw [hsplit, ← List.append_assoc]
        refine ih (n - 64) (by omega) ?_ _ hdrop
        refine (h.store _).block hlen fun i hi => ?_
        rw [hzero, ByteBuf.get_store, hlen, if_pos ⟨Nat.zero_le _, by omega⟩]
        rfl

theorem Absorbed.update {ctx : Sha256Ctx} {m : List UInt8} (h : Absorbed ctx m)
    (data : List UInt8) : Absorbed (sha256Update ctx data) (m ++ wholeBlocks data) := by
  rw [sha256Update, h.bufPos]
  exact h.updateLoop data

theorem Absorbed.pieces {ctx : Sha256Ctx} {m : List UInt8} (h : Absorbed ctx m)
    (ps : List (List UInt8)) :
    Absorbed (ps.foldl sha256Update ctx) (m ++ (ps.map wholeBlocks).flatten) := by
  induction ps generalizing ctx m with
  | nil => simpa using h
  | cons p ps ih =>
    rw [List.map_cons, List.flatten_cons, ← List.append_assoc]
    exact ih (h.update p)

-- ---------------------------------------------------------------------------
-- The digest
-- ---------------------------------------------------------------------------

theorem sha256Out_eq (ctx : Sha256Ctx) :
    sha256Out ctx = ctx.state.toList.flatMap Sha256.wordBytes := by
  have hbyte : ∀ x : UInt32, (x &&& 0xFF).toUInt8 = x.toUInt8 := fun x => by
    apply UInt8.toNat_inj.mp
    have hand := Nat.and_two_pow_sub_one_eq_mod (x.toNat % 256) 8
    simpa using hand
  simp only [sha256Out, hbyte]
  rfl

theorem bitcountBytes_eq {n : ℕ} (h : n < 2 ^ 64) :
    bitcountBytes (UInt64.ofNat n) = Sha256.lengthBytes n := by
  refine List.map_congr_left fun i hi => ?_
  have hlt := List.mem_range.mp hi
  have hpow : 2 ^ (8 * (7 - i) % 64) = 256 ^ (7 - i) := by
    rw [Nat.mod_eq_of_lt (by omega), Nat.pow_mul]
  have hand := Nat.and_two_pow_sub_one_eq_mod (n / 256 ^ (7 - i) % 256) 8
  have hn : n % 18446744073709551616 = n := Nat.mod_eq_of_lt h
  apply UInt8.toNat_inj.mp
  simpa [UInt64.toNat_shiftRight, Nat.shiftRight_eq_div_pow, hpow, hn] using hand

theorem Absorbed.final {ctx : Sha256Ctx} {m : List UInt8} (h : Absorbed ctx m)
    (hm : m.length < 2 ^ 61) : sha256Final ctx = Sha256.sha256 m := by
  have hpos : ctx.bufPos.val = 0 := by
    rw [h.bufPos]
    rfl
  have hcount := bitcountBytes_eq (n := 8 * m.length) (by omega)
  rw [Sha256.sha256_whole h.whole, ← h.state, sha256Final]
  simp only [hpos]
  rw [if_neg (by omega), if_neg (by omega), sha256Out_eq, sha256Block_state]
  simp only [h.count, hcount]
  refine congrArg (fun v : Sha256.Words => v.toList.flatMap Sha256.wordBytes) ?_
  refine Sha256.compress_congr _ fun i hi => ?_
  rw [ByteBuf.get_store, ByteBuf.get_zero, ByteBuf.get_store, Sha256.length_lengthBytes,
    List.cons_append]
  cases i with
  | zero => rfl
  | succ i =>
    rw [List.getD_cons_succ]
    split
    · next hlast =>
      have hsub : i + 1 - 56 = i - 55 := by omega
      rw [List.getD_append_right _ _ _ _ (by rw [List.length_replicate]; omega),
        List.length_replicate, ByteBuf.get, hsub]
    · rw [if_pos ⟨by omega, by omega⟩,
        List.getD_append _ _ _ _ (by rw [List.length_replicate]; omega),
        List.getD_replicate 0 (by omega)]

theorem length_flatten_wholeBlocks (pieces : List (List UInt8)) :
    (pieces.map wholeBlocks).flatten.length ≤ pieces.flatten.length := by
  induction pieces with
  | nil => exact Nat.le_refl _
  | cons p ps ih =>
    simp only [List.map_cons, List.flatten_cons, List.length_append, length_wholeBlocks]
    omega

/-- Nothing is lost of a message that is cut at block boundaries, and only of such a message. -/
theorem flatten_wholeBlocks_eq {pieces : List (List UInt8)} :
    (pieces.map wholeBlocks).flatten = pieces.flatten ↔ ∀ p ∈ pieces, 64 ∣ p.length := by
  induction pieces with
  | nil => simp
  | cons p ps ih =>
    have hle := length_flatten_wholeBlocks ps
    have hp := length_wholeBlocks p
    rw [List.map_cons, List.flatten_cons, List.flatten_cons, List.forall_mem_cons]
    constructor
    · intro heq
      have hlen := congrArg List.length heq
      simp only [List.length_append, hp] at hlen
      have hdvd : 64 ∣ p.length := by omega
      have hsame : (wholeBlocks p).length = p.length := by omega
      exact ⟨hdvd, ih.mp (List.append_inj heq hsame).2⟩
    · rintro ⟨hdvd, hall⟩
      have hwhole : wholeBlocks p = p := List.take_of_length_le (by omega)
      rw [hwhole, ih.mpr hall]

/--
**Only whole blocks are hashed.** The digest is that of the pieces with what stands behind
the last whole block of each left out.
-/
theorem sha256Stream_eq (buffer : List UInt8) (pieces : List (List UInt8))
    (h : pieces.flatten.length < 2 ^ 32) :
    sha256Stream buffer pieces = Sha256.sha256 (pieces.map wholeBlocks).flatten := by
  have hle := length_flatten_wholeBlocks pieces
  have habsorbed := (Absorbed.init buffer).pieces pieces
  rw [List.nil_append] at habsorbed
  exact habsorbed.final (by omega)

/-- A message and its own whole blocks have the same hash and are not the same. -/
def WholeCollides (pieces : List (List UInt8)) : Prop :=
  (pieces.map wholeBlocks).flatten ≠ pieces.flatten ∧
    Sha256.sha256 (pieces.map wholeBlocks).flatten = Sha256.sha256 pieces.flatten

theorem sha256Stream_right_iff (buffer : List UInt8) (pieces : List (List UInt8))
    (h : pieces.flatten.length < 2 ^ 32) :
    sha256Stream buffer pieces = Sha256.sha256 pieces.flatten ↔
      (∀ p ∈ pieces, 64 ∣ p.length) ∨ WholeCollides pieces := by
  rw [sha256Stream_eq buffer pieces h, ← flatten_wholeBlocks_eq]
  constructor
  · intro hsame
    by_cases heq : (pieces.map wholeBlocks).flatten = pieces.flatten
    · exact .inl heq
    · exact .inr ⟨heq, hsame⟩
  · rintro (heq | ⟨_, hsame⟩)
    · rw [heq]
    · exact hsame

/--
**The digest of whole blocks.** `sha256_hash` and the streaming calls give the digest of the
message exactly when each piece is a number of whole blocks, but for a collision of SHA-256.
-/
theorem sha256_right_iff (buffer : List UInt8) (pieces : List (List UInt8))
    (h : pieces.flatten.length < 2 ^ 32) :
    (sha256Hash buffer pieces.flatten = Sha256.sha256 pieces.flatten ↔
      64 ∣ pieces.flatten.length ∨ WholeCollides [pieces.flatten]) ∧
    (sha256Stream buffer pieces = Sha256.sha256 pieces.flatten ↔
      (∀ p ∈ pieces, 64 ∣ p.length) ∨ WholeCollides pieces) := by
  have hone : [pieces.flatten].flatten = pieces.flatten := by simp
  have hhash := sha256Stream_right_iff buffer [pieces.flatten] (by rwa [hone])
  rw [hone, List.forall_mem_singleton] at hhash
  exact ⟨hhash, sha256Stream_right_iff buffer pieces h⟩

/-- The string "a" gets the digest of the empty string. -/
theorem sha256_of_one_byte_wrong : ¬ sha256Hash [] [0x61] = Sha256.sha256 [0x61] := by
  have hempty : sha256Hash [] [0x61] = Sha256.sha256 [] :=
    sha256Stream_eq [] [[0x61]] (by decide)
  have hne : Sha256.sha256 [] ≠ Sha256.sha256 [0x61] := by
    rw [Sha256.sha256_block (by decide), Sha256.sha256_block (by decide),
      Sha256.compress, Sha256.compress, ← sha256K_eq]
    decide +kernel
  rw [hempty]
  exact hne

theorem sha256_right_two_pieces :
    (sha256Hash [] [0x61, 0x62] = Sha256.sha256 [0x61, 0x62] ↔
      64 ∣ 2 ∨ WholeCollides [[0x61, 0x62]]) ∧
    (sha256Stream [] [[0x61], [0x62]] = Sha256.sha256 [0x61, 0x62] ↔
      (∀ p ∈ [[(0x61 : UInt8)], [0x62]], 64 ∣ p.length) ∨ WholeCollides [[0x61], [0x62]]) :=
  sha256_right_iff [] [[0x61], [0x62]] (by decide)

end Lestra
