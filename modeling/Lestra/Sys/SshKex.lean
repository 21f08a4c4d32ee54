import Lestra.Sys.SshSession

/-!
# The SSH key exchange

What `kernel/sys/ssh_server.c` makes of a `KEXINIT` message, and what it hashes. `sha256_update`
keeps whole blocks only, so that short pieces do not count.

* `processKexinit_accepts_iff` — a message is accepted when each name-list has our algorithm
* `exchangeHash_eq` — the exchange hash is of six pieces out of eight; neither the version of the
  server nor the secret is among them
* `deriveKey_eq` — a key is a hash of 64 bytes; neither the letter nor the session is among them
-/

namespace Lestra

open Aes (Block)
open Halting

-- ---------------------------------------------------------------------------
-- The negotiation
-- ---------------------------------------------------------------------------

/-- The search finds a name that stands between two commas. -/
theorem nameListHas_iff {our : List UInt8} (hour : our ≠ []) (names : List UInt8) :
    nameListHas our names = true ↔ our ∈ names.splitOn ','.toUInt8 := by
  induction hlen : names.length using Nat.strongRecOn generalizing names with
  | ind n ih =>
    rw [nameListHas]
    split
    · next hnil =>
      obtain rfl := List.length_eq_zero_iff.mp hnil
      refine ⟨fun h => (Bool.false_ne_true h).elim, fun h => ?_⟩
      exact absurd (List.mem_singleton.mp h) hour
    · next hne =>
      have hsplit := List.takeWhile_append_dropWhile (p := fun b : UInt8 => b != ','.toUInt8)
        (l := names)
      have hname : ','.toUInt8 ∉ names.takeWhile fun b => b != ','.toUInt8 := fun hmem => by
        simpa using List.mem_takeWhile_imp hmem
      have hhead := List.head?_dropWhile_not (fun b : UInt8 => b != ','.toUInt8) names
      dsimp only
      generalize names.takeWhile (fun b => b != ','.toUInt8) = name at hsplit hname ⊢
      cases hrest : names.dropWhile fun b => b != ','.toUInt8 with
      | nil =>
        rw [hrest, List.append_nil] at hsplit
        rw [hsplit] at hname ⊢
        rw [List.splitOn_eq_singleton hname, List.mem_singleton]
        split
        · next heq => exact iff_of_true rfl heq.symm
        · next hneq =>
          rw [List.drop_of_length_le (Nat.le_succ _), nameListHas]
          exact iff_of_false Bool.false_ne_true fun h => hneq h.symm
      | cons comma rest =>
        rw [hrest] at hsplit hhead
        have hcomma : comma = ','.toUInt8 := by simpa using hhead
        have hdrop : names.drop (name.length + 1) = rest := by
          rw [← hsplit, ← List.drop_drop, List.drop_left]
          rfl
        have hsplitOn : names.splitOn ','.toUInt8 = name :: rest.splitOn ','.toUInt8 := by
          rw [← hsplit, hcomma]
          exact List.splitOn_append_cons_self_of_not_mem hname rest
        have hshort : rest.length < n := by
          have := congrArg List.length hsplit
          rw [List.length_append, List.length_cons] at this
          omega
        rw [hdrop, hsplitOn, List.mem_cons, ← ih rest.length hshort rest rfl]
        split
        · next heq => exact iff_of_true rfl (.inl heq.symm)
        · next hneq => exact ⟨.inr, fun h => h.resolve_left fun heq => hneq heq.symm⟩

/-- What is asked of a name-list: nothing, where we have no algorithm. -/
def Offers (our : String) (names : List UInt8) : Prop :=
  ascii our = [] ∨ ascii our ∈ names.splitOn ','.toUInt8

variable {ω : Type}

theorem checkAlgorithms_iff (w : SshWorld ω) (algorithms : List String) (lists : List (List UInt8))
    (hlen : lists.length = algorithms.length) {tail : List UInt8} (r : SshRbuf)
    (hrest : r.rest = lists.flatMap (fun d => (SshField.string d).encode) ++ tail) :
    ∃ ok, (checkAlgorithms algorithms r w).1 = some ok ∧
      (ok = true ↔ ∀ p ∈ algorithms.zip lists, Offers p.1 p.2) := by
  induction algorithms generalizing r lists with
  | nil => exact ⟨true, rfl, iff_of_true rfl fun p hp => absurd hp List.not_mem_nil⟩
  | cons our rest ih =>
    cases lists with
    | nil => cases hlen
    | cons names lists =>
      rw [List.flatMap_cons, SshField.encode, List.append_assoc, List.append_assoc] at hrest
      obtain ⟨s, hs, hslice, hin, htail⟩ := SshRbuf.getString_of_rest hrest
      have hpair : r.getString = (some s, r.getString.2) := Prod.ext hs rfl
      obtain ⟨ok, hok, hiff⟩ := ih lists (Nat.succ.inj hlen) r.getString.2 htail
      rw [checkAlgorithms, hpair]
      dsimp only
      rw [if_neg (Nat.not_lt.mpr hin), hslice, List.zip_cons_cons, List.forall_mem_cons]
      by_cases hour : ascii our = []
      · rw [if_neg fun h => by rw [hour] at h; exact absurd h.2 (Nat.lt_irrefl 0)]
        exact ⟨ok, hok, hiff.trans ⟨fun h => ⟨.inl hour, h⟩, And.right⟩⟩
      · have hpos := List.length_pos_iff.mpr hour
        by_cases hhas : nameListHas (ascii our) names = true
        · rw [if_neg fun h => h.1 hhas]
          exact ⟨ok, hok, hiff.trans
            ⟨fun h => ⟨.inr ((nameListHas_iff hour names).mp hhas), h⟩, And.right⟩⟩
        · rw [if_pos ⟨hhas, hpos⟩]
          refine ⟨false, rfl, iff_of_false Bool.false_ne_true fun h => hhas ?_⟩
          exact (nameListHas_iff hour names).mpr (h.1.resolve_left hour)

/-- A `KEXINIT` message with its cookie and its name-lists. -/
def kexinitMessage (cookie : Vector UInt8 16) (lists : List (List UInt8)) (tail : List UInt8) :
    List UInt8 :=
  20 :: (cookie.toList ++ (lists.flatMap (fun d => (SshField.string d).encode) ++ tail))

/-- **The negotiation.** A whole message is accepted exactly when each of its ten name-lists has
our algorithm between its commas, but for the lists in which we have none. -/
theorem processKexinit_accepts_iff (w : SshWorld ω) (cookie : Vector UInt8 16)
    (lists : List (List UInt8)) (tail : List UInt8) (hlists : lists.length = 10)
    (hlen : (kexinitMessage cookie lists tail).length ≤ 8192) :
    ∃ ok, (processKexinit (kexinitMessage cookie lists tail) w).1 = some ok ∧
      (ok = true ↔ ∀ p ∈ kexAlgorithms.zip lists, Offers p.1 p.2) := by
  have hcookie : cookie.toList.length = 16 := Vector.length_toList
  have hguard : ¬ ((kexinitMessage cookie lists tail).length < 17 ∨
      (kexinitMessage cookie lists tail).head? ≠ some 20) := by
    rw [not_or, kexinitMessage, List.length_cons, List.length_append, hcookie]
    exact ⟨by omega, fun h => h rfl⟩
  have hstart : (rbufOf (kexinitMessage cookie lists tail)).rest = kexinitMessage cookie lists tail :=
    List.take_of_length_le hlen
  obtain ⟨-, hrest, hdata⟩ := SshRbuf.getU8_of_rest hstart
  have hroom := congrArg List.length hrest
  rw [SshRbuf.length_rest, List.length_append, hcookie] at hroom
  have hskip : ((rbufOf (kexinitMessage cookie lists tail)).getU8.2.skip 16).2.rest =
      lists.flatMap (fun d => (SshField.string d).encode) ++ tail := by
    rw [SshRbuf.skip, dif_pos (by omega)]
    show (rbufOf (kexinitMessage cookie lists tail)).getU8.2.data.drop
      ((rbufOf (kexinitMessage cookie lists tail)).getU8.2.pos + 16) = _
    rw [← List.drop_drop, ← SshRbuf.rest, hrest, List.drop_left' hcookie]
  obtain ⟨ok, hok, hiff⟩ := checkAlgorithms_iff
    { w with session := { w.session with clientKexinit := (kexinitMessage cookie lists tail).drop 1 } }
    kexAlgorithms lists hlists _ hskip
  refine ⟨ok, ?_, hiff⟩
  rw [processKexinit, if_neg hguard]
  exact hok

theorem processKexinit_accepts_ours :
    ∃ ok, (processKexinit (kexinitMessage (Vector.replicate 16 0) (kexAlgorithms.map ascii) [])
        ⟨zeroSession, (), []⟩).1 = some ok ∧
      (ok = true ↔ ∀ p ∈ kexAlgorithms.zip (kexAlgorithms.map ascii), Offers p.1 p.2) :=
  processKexinit_accepts_iff ⟨zeroSession, (), []⟩ (Vector.replicate 16 0) (kexAlgorithms.map ascii) []
    (by decide) (by decide +kernel)

-- ---------------------------------------------------------------------------
-- What is hashed
-- ---------------------------------------------------------------------------

/-- Of a message shorter than two blocks only the first block counts. -/
theorem sha256Hash_take {data : List UInt8} (hle : 64 ≤ data.length) (hlt : data.length < 128) :
    sha256Hash [] data = Sha256.sha256 (data.take 64) := by
  have hstream : sha256Hash [] data = sha256Stream [] [data] := rfl
  rw [hstream, sha256Stream_eq [] [data] (by simp; omega)]
  have hwhole : wholeBlocks data = data.take 64 := by
    rw [wholeBlocks]
    congr 1
    omega
  rw [List.map_singleton, List.flatten_singleton, hwhole]

theorem length_mpint (val : List UInt8) : (SshField.mpint val).encode.length ≤ val.length + 5 := by
  have hdrop := (List.dropWhile_suffix (fun b : UInt8 => b == 0) (l := val)).length_le
  rw [SshField.encode]
  cases hval : val.dropWhile (· == 0) with
  | nil =>
    simp only [length_be32]
    omega
  | cons first rest =>
    rw [hval, List.length_cons] at hdrop
    dsimp only
    split
    · simp only [List.length_append, length_be32, List.length_cons]
      omega
    · simp only [List.length_append, length_be32, List.length_cons]
      omega

/-- A number is written without its leading zeros. -/
theorem mpint_length_le {val : List UInt8} {k : ℕ} (h : ∃ i ≤ k, val.getD i 0 ≠ 0) :
    val.length + 4 - k ≤ (SshField.mpint val).encode.length := by
  have hdrop : val.length - k ≤ (val.dropWhile (· == 0)).length := by
    obtain ⟨i, hi, hne⟩ := h
    have hsplit := congrArg List.length (List.takeWhile_append_dropWhile (p := fun b : UInt8 => b == 0)
      (l := val))
    rw [List.length_append] at hsplit
    have htake : (val.takeWhile (· == 0)).length ≤ i := by
      by_contra hlt
      refine hne ?_
      have hprefix := List.takeWhile_prefix (fun b : UInt8 => b == 0) (l := val)
      have hin : i < (val.takeWhile (· == 0)).length := by omega
      have hat : val.getD i 0 = (val.takeWhile (· == 0))[i] := by
        rw [List.getD_eq_getElem _ _ (by have := hprefix.length_le; omega), hprefix.getElem]
      rw [hat]
      have hmem := List.mem_takeWhile_imp (List.getElem_mem (l := val.takeWhile (· == 0)) (n := i)
        (by omega))
      simpa using hmem
    omega
  rw [SshField.encode]
  cases hval : val.dropWhile (· == 0) with
  | nil =>
    rw [hval, List.length_nil] at hdrop
    simp only [length_be32]
    omega
  | cons first rest =>
    rw [hval, List.length_cons] at hdrop
    dsimp only
    split
    · simp only [List.length_append, length_be32, List.length_cons]
      omega
    · simp only [List.length_append, length_be32, List.length_cons]
      omega

-- ---------------------------------------------------------------------------
-- Keys
-- ---------------------------------------------------------------------------

theorem mpint_data (val : Bytes32) :
    ((bufInit 128).putMpint val.toList).data = (SshField.mpint val.toList).encode := by
  have hlen := length_mpint val.toList
  rw [Vector.length_toList] at hlen
  have hfit : (bufInit 128).data.length + (SshField.mpint val.toList).encode.length ≤
      (bufInit 128).cap := by
    show 0 + _ ≤ 128
    omega
  exact congrArg SshBuf.data (SshBuf.put_eq hfit)

/-- **The key of a letter.** Unless the secret begins with five zeros, a key is a hash of the first
64 bytes of the secret and the exchange hash: every letter and every session has the same. -/
theorem deriveKey_eq {shared : Bytes32} (hsecret : ∃ i ≤ 4, shared.toList.getD i 0 ≠ 0)
    {hash sessionId : Bytes32} {letter : UInt8} {n : ℕ} :
    deriveKey shared hash sessionId letter n =
      (Sha256.sha256 (((SshField.mpint shared.toList).encode ++ hash.toList).take 64)).take n := by
  have hle := length_mpint shared.toList
  have hge := mpint_length_le hsecret
  have hhash : hash.toList.length = 32 := Vector.length_toList
  have hsession : sessionId.toList.length = 32 := Vector.length_toList
  rw [Vector.length_toList] at hle hge
  generalize hkb : (SshField.mpint shared.toList).encode = kb at hle hge ⊢
  rw [deriveKey, mpint_data, hkb]
  have hfirst : kb.length + hash.toList.length ≤ 256 := by omega
  have hsecond : (kb ++ hash.toList).length = kb.length + 32 := by rw [List.length_append, hhash]
  have hthird : (kb ++ hash.toList ++ [letter]).length = kb.length + 33 := by
    rw [List.length_append, hsecond, List.length_singleton]
  have hdata : (((((bufInit 256).putBytes kb).putBytes hash.toList).putU8 letter).putBytes
      sessionId.toList).data = kb ++ hash.toList ++ letter :: sessionId.toList := by
    have hput : (bufInit 256).putBytes kb = ⟨kb, 256⟩ :=
      SshBuf.putBytes_eq (show 0 + kb.length ≤ 256 by omega)
    rw [hput, SshBuf.putBytes_eq (b := ⟨kb, 256⟩) hfirst,
      SshBuf.putU8_eq (b := ⟨kb ++ hash.toList, 256⟩) (by rw [hsecond]; show _ ≤ 256; omega),
      SshBuf.putBytes_eq (b := ⟨kb ++ hash.toList ++ [letter], 256⟩)
        (by rw [hthird]; show _ ≤ 256; omega), List.append_assoc (kb ++ hash.toList)]
    rfl
  have hlen : (kb ++ hash.toList ++ letter :: sessionId.toList).length = kb.length + 65 := by
    rw [List.length_append, hsecond, List.length_cons, hsession]
  rw [hdata, sha256Hash_take (by omega) (by omega), List.take_append_of_le_length (by omega)]

-- ---------------------------------------------------------------------------
-- The exchange hash
-- ---------------------------------------------------------------------------

theorem length_putString {cap : ℕ} {d : List UInt8} (hsmall : cap + (4 + d.length) < 2 ^ 32) :
    ((bufInit cap).putString d).data.length ≤ cap := by
  have hinside : (bufInit cap).Inside cap := ⟨rfl, Nat.zero_le cap⟩
  refine (hinside.put (f := .string d) ?_).2
  rw [SshField.encode, List.length_append, length_be32]
  exact hsmall

theorem wholeBlocks_short {p : List UInt8} (h : p.length < 64) : wholeBlocks p = [] := by
  rw [wholeBlocks, Nat.div_eq_of_lt h, Nat.mul_zero, List.take_zero]

/-- The pieces that count. -/
def hashedPieces (s : SshSession) (ks qC qS : List UInt8) : List UInt8 :=
  wholeBlocks ((bufInit 256).putString (cstr s.clientVersion)).data ++
    wholeBlocks ((bufInit 1028).putString s.clientKexinit).data ++
    wholeBlocks ((bufInit 1028).putString s.serverKexinit).data ++
    wholeBlocks ((bufInit 132).putString ks).data ++
    wholeBlocks ((bufInit 69).putString qC).data ++ wholeBlocks ((bufInit 69).putString qS).data

/-- **The exchange hash.** It is taken of the whole blocks of six pieces. Neither the version of the
server nor the shared secret is among them, so that the signature of the host says nothing about
the secret. -/
theorem exchangeHash_eq (s : SshSession) (ks qC qS : List UInt8) (shared : Bytes32)
    (hshort : ∀ d ∈ [cstr s.clientVersion, s.clientKexinit, s.serverKexinit, ks, qC, qS],
      d.length ≤ 8192) :
    exchangeHash s ks qC qS shared = bytes32 (Sha256.sha256 (hashedPieces s ks qC qS)) := by
  simp only [List.forall_mem_cons, List.not_mem_nil, false_imp_iff, implies_true, and_true] at hshort
  obtain ⟨hvc, hic, his, hks, hqc, hqs⟩ := hshort
  have hvs : ((bufInit 256).putCstring "SSH-2.0-LestraOS_1.0").data.length = 24 := by decide
  have hk : ((bufInit 128).putMpint shared.toList).data.length ≤ 37 := by
    have hlen := length_mpint shared.toList
    rw [Vector.length_toList] at hlen
    rwa [mpint_data]
  have h₁ := @length_putString 256 (cstr s.clientVersion) (by omega)
  have h₂ := @length_putString 1028 s.clientKexinit (by omega)
  have h₃ := @length_putString 1028 s.serverKexinit (by omega)
  have h₄ := @length_putString 132 ks (by omega)
  have h₅ := @length_putString 69 qC (by omega)
  have h₆ := @length_putString 69 qS (by omega)
  have hvs' := wholeBlocks_short (p := ((bufInit 256).putCstring "SSH-2.0-LestraOS_1.0").data)
    (by omega)
  have hk' := wholeBlocks_short (p := ((bufInit 128).putMpint shared.toList).data) (by omega)
  rw [exchangeHash, sha256Stream_eq]
  · simp only [exchangePieces, hashedPieces, List.map_cons, List.map_nil, List.flatten_cons,
      List.flatten_nil, List.append_nil, hvs', hk', List.nil_append, List.append_assoc]
  · simp only [exchangePieces, List.flatten_cons, List.flatten_nil, List.length_append,
      List.length_nil]
    omega

theorem exchangeHash_of_nothing :
    exchangeHash zeroSession [] [] [] (Vector.replicate 32 1) =
      bytes32 (Sha256.sha256 (hashedPieces zeroSession [] [] [])) :=
  exchangeHash_eq zeroSession [] [] [] (Vector.replicate 32 1) (by decide)

end Lestra
