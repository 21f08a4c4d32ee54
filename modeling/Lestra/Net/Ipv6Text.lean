import Mathlib.Data.List.GetD
import Mathlib.Data.List.Induction
import Mathlib.Logic.Function.Basic
import Mathlib.Tactic.Ring

/-!
# Reading IPv6 addresses

The parser for literals in `net_resolve_dual` (`kernel/net/net.c`). Every digit goes to the
high byte of its group, and `::` neither begins a group nor sets the digit count back.

* `Ip6Text` — an address in the text form, and what it denotes
* `misread` — the groups that the parser makes of it
* `literal_text` — the parser returns these groups
* `misread_iff` — when they are right
-/

namespace Lestra

-- ---------------------------------------------------------------------------
-- The parser
-- ---------------------------------------------------------------------------

/-- `':'` -/
def ip6Colon : UInt8 := 0x3A

/-- `'['` and `']'` -/
def ip6Open : UInt8 := 0x5B

def ip6Close : UInt8 := 0x5D

/-- The digit of a character. -/
def hexVal (c : UInt8) : Option ℕ :=
  if 0x30 ≤ c ∧ c ≤ 0x39 then some (c.toNat - 0x30)
  else if 0x61 ≤ c ∧ c ≤ 0x66 then some (c.toNat - 0x61 + 10)
  else if 0x41 ≤ c ∧ c ≤ 0x46 then some (c.toNat - 0x41 + 10)
  else none

/-- The variables of the parser. `bytes` is the memory from `addr` on, in both directions;
only a text with too many groups leads outside of it. -/
structure LiteralParse where
  bytes : ℤ → UInt8
  group : ℕ
  shift : ℕ
  skipGroup : Option ℕ

/-- `addr.bytes[group*2] = (addr.bytes[group*2] << 4) | val` -/
def LiteralParse.digit (s : LiteralParse) (val : ℕ) : LiteralParse :=
  { s with
    bytes := Function.update s.bytes (s.group * 2)
      (s.bytes (s.group * 2) <<< 4 ||| UInt8.ofNat val)
    shift := s.shift + 1 }

/-- The loop over the text. A third colon behind `::` is skipped. -/
def literalLoop (p : List UInt8) (s : LiteralParse) : LiteralParse :=
  match p with
  | [] => s
  | c :: rest =>
    if c = ip6Close ∨ 8 ≤ s.group then s
    else if c = ip6Colon then
      if rest.head? = some ip6Colon then
        let p := rest.tail
        let p := if p.head? = some ip6Colon then p.tail else p
        literalLoop p { s with skipGroup := some s.group }
      else literalLoop rest { s with group := s.group + 1, shift := 0 }
    else
      match hexVal c with
      | none => s
      | some val => if 4 < (s.digit val).shift then s.digit val else literalLoop rest (s.digit val)
termination_by p.length
decreasing_by
  · rw [List.length_cons]
    split
    · rw [List.length_tail, List.length_tail]
      omega
    · rw [List.length_tail]
      omega
  · exact Nat.lt_succ_self _
  · exact Nat.lt_succ_self _

/-- `addr.bytes[(i + skip_count)*2] = addr.bytes[i*2]`, and the byte behind it. -/
def moveGroup (skipCount : ℤ) (bytes : ℤ → UInt8) (i : ℕ) : ℤ → UInt8 :=
  let dst := (i + skipCount) * 2
  let bytes := Function.update bytes dst (bytes (i * 2))
  Function.update bytes (dst + 1) (bytes (i * 2 + 1))

/-- `for (int i = end; i >= 0 && i >= skip_group; i--)` -/
def moveGroups (stop skip : ℕ) (skipCount : ℤ) (bytes : ℤ → UInt8) : ℤ → UInt8 :=
  (List.range' skip (stop + 1 - skip)).reverse.foldl (moveGroup skipCount) bytes

def zeroGroup (bytes : ℤ → UInt8) (i : ℕ) : ℤ → UInt8 :=
  Function.update (Function.update bytes (i * 2) 0) (i * 2 + 1) 0

/-- `for (int i = skip_group; i < skip_group + skip_count && i < 8; i++)` -/
def zeroGroups (skip : ℕ) (skipCount : ℤ) (bytes : ℤ → UInt8) : ℤ → UInt8 :=
  ((List.range 8).filter fun i : ℕ => skip ≤ i ∧ (i : ℤ) < skip + skipCount).foldl zeroGroup bytes

def compactGroups (s : LiteralParse) : ℤ → UInt8 :=
  match s.skipGroup with
  | none => s.bytes
  | some skip =>
    let skipCount : ℤ := 7 - s.group
    zeroGroups skip skipCount (moveGroups s.group skip skipCount s.bytes)

abbrev Ip6Addr := Fin 16 → UInt8

/-- The literal in `net_resolve_dual`; `none` when the name is looked up instead. -/
def parseLiteral (hostname : List UInt8) : Option Ip6Addr :=
  if ip6Colon ∈ hostname then
    let text := if hostname.head? = some ip6Open then hostname.tail else hostname
    let s := literalLoop text ⟨fun _ => 0, 0, 0, none⟩
    if 0 < s.shift ∨ 0 < s.group ∨ s.skipGroup.isSome then
      some fun i => compactGroups s (i.val : ℤ)
    else none
  else none

-- ---------------------------------------------------------------------------
-- Addresses as text
-- ---------------------------------------------------------------------------

/-- The value of a string of digits. -/
def hexValue (digits : List UInt8) : ℕ :=
  digits.foldl (fun n c => n * 16 + (hexVal c).getD 0) 0

/-- A group is written with one to four digits. -/
structure IsGroup (digits : List UInt8) : Prop where
  pos : 0 < digits.length
  le : digits.length ≤ 4
  hex : ∀ c ∈ digits, (hexVal c).isSome

/-- Groups with colons between them. -/
def groupsText : List (List UInt8) → List UInt8
  | [] => []
  | [group] => group
  | group :: next :: rest => group ++ ip6Colon :: groupsText (next :: rest)

/-- An address: eight groups, or the groups before and after `::`. -/
inductive Ip6Text where
  | full (groups : List (List UInt8))
  | gap (before after : List (List UInt8))

def Ip6Text.groups : Ip6Text → List (List UInt8)
  | .full groups => groups
  | .gap before after => before ++ after

structure Ip6Text.WellFormed (t : Ip6Text) : Prop where
  isGroup : ∀ group ∈ t.groups, IsGroup group
  count : match t with
    | .full groups => groups.length = 8
    | .gap before after => before.length + after.length ≤ 7

def Ip6Text.render : Ip6Text → List UInt8
  | .full groups => groupsText groups
  | .gap before after => groupsText before ++ ip6Colon :: ip6Colon :: groupsText after

/-- The groups of the address. -/
def Ip6Text.denotes : Ip6Text → List ℕ
  | .full groups => groups.map hexValue
  | .gap before after => before.map hexValue ++
      List.replicate (8 - before.length - after.length) 0 ++ after.map hexValue

/-- The bytes of eight groups. -/
def ip6OfGroups (groups : List ℕ) : Ip6Addr := fun i =>
  if i.val % 2 = 0 then UInt8.ofNat (groups.getD (i.val / 2) 0 / 256)
  else UInt8.ofNat (groups.getD (i.val / 2) 0)

/-- The two texts of an address, with and without brackets. -/
def ip6Texts (t : Ip6Text) : List (List UInt8) :=
  [t.render, ip6Open :: t.render ++ [ip6Close]]

/-- The parser returns the address that is denoted. -/
def ParsesRight (t : Ip6Text) : Prop :=
  ∀ text ∈ ip6Texts t, parseLiteral text = some (ip6OfGroups t.denotes)

-- ---------------------------------------------------------------------------
-- What the parser makes of it
-- ---------------------------------------------------------------------------

/-- The last two digits, as the high byte of a group. -/
def highByte (digits : List UInt8) : ℕ := hexValue digits % 256 * 256

/-- The group behind `::` is read into the one before it, up to the fifth digit; there the
parser stops. -/
def mergedGroups (last : List UInt8) : List (List UInt8) → List ℕ
  | [] => [highByte last]
  | first :: rest =>
    if last.length + first.length ≤ 4 then highByte (last ++ first) :: rest.map highByte
    else [highByte (last ++ first.take (5 - last.length))]

/-- The groups that have been read, with the place of the gap. -/
def readGroups : Ip6Text → List ℕ × Option ℕ
  | .full groups => (groups.map highByte, none)
  | .gap before after =>
    match before.getLast? with
    | none => (if after = [] then [0] else after.map highByte, some 0)
    | some last => (before.dropLast.map highByte ++ mergedGroups last after, some (before.length - 1))

/-- The groups with the gap filled. -/
def filledGroups (groups : List ℕ) : Option ℕ → List ℕ
  | none => groups
  | some skip => groups.take skip ++ List.replicate (8 - groups.length) 0 ++ groups.drop skip

/-- The groups of the address that the parser returns. -/
def misread (t : Ip6Text) : List ℕ := filledGroups (readGroups t).1 (readGroups t).2

/-- All groups are zero. -/
def Ip6Text.Zero (t : Ip6Text) : Prop := ∀ group ∈ t.groups, hexValue group = 0

/-- Zeros, of which the last group and a single group behind the gap have seven digits
together, and that group ends in two zeros. Its first digits are read to the high byte of
the group before it, which is moved to its place. -/
def Ip6Text.Lucky : Ip6Text → Prop
  | .full _ => False
  | .gap before after => ∃ init last only, before = init ++ [last] ∧ after = [only] ∧
    (∀ group ∈ before, hexValue group = 0) ∧ last.length + only.length = 7 ∧
      hexValue only % 256 = 0

-- ---------------------------------------------------------------------------
-- Digits and colons
-- ---------------------------------------------------------------------------

variable {s : LiteralParse} {c : UInt8} {val x : ℕ} {groups : List ℕ} {skip : Option ℕ}
  {digits rest : List UInt8}

theorem hexVal_lt (h : hexVal c = some val) : val < 16 := by
  simp only [hexVal, UInt8.le_iff_toNat_le] at h
  split_ifs at h with h₁ h₂ h₃ <;> cases h
  · have := h₁.2
    simp at this
    omega
  · have := h₂.2
    simp at this
    omega
  · have := h₃.2
    simp at this
    omega

theorem hexVal_ne (h : hexVal c = some val) : c ≠ ip6Colon ∧ c ≠ ip6Close ∧ c ≠ ip6Open := by
  have hcolon : hexVal ip6Colon = none := by decide
  have hclose : hexVal ip6Close = none := by decide
  have hopen : hexVal ip6Open = none := by decide
  refine ⟨?_, ?_, ?_⟩
  · rintro rfl
    rw [hcolon] at h
    cases h
  · rintro rfl
    rw [hclose] at h
    cases h
  · rintro rfl
    rw [hopen] at h
    cases h

/-- The high bytes of the groups are there, and the low bytes are zero. -/
def Shows (bytes : ℤ → UInt8) (groups : List ℕ) : Prop :=
  ∀ j : ℕ, (bytes (j * 2)).toNat * 256 = groups.getD j 0 ∧ bytes (j * 2 + 1) = 0

/-- The parser has come to the last of these groups. -/
structure Reads (s : LiteralParse) (groups : List ℕ) (skip : Option ℕ) : Prop where
  shows : Shows s.bytes groups
  group : s.group + 1 = groups.length
  skip : s.skipGroup = skip

theorem shift_digit (b : UInt8) (h : val < 16) :
    (b <<< 4 ||| UInt8.ofNat val).toNat = (b.toNat * 16 + val) % 256 := by
  have hb := b.toNat_lt
  have hval : (UInt8.ofNat val).toNat = val := by
    rw [UInt8.toNat_ofNat']
    omega
  have hshift : (b <<< 4).toNat = (b.toNat % 16) <<< 4 := by
    rw [UInt8.toNat_shiftLeft, Nat.shiftLeft_eq, Nat.shiftLeft_eq]
    have h4 : (4 : UInt8).toNat % 8 = 4 := rfl
    rw [h4]
    omega
  rw [UInt8.toNat_or, hshift, hval, ← Nat.shiftLeft_add_eq_or_of_lt h, Nat.shiftLeft_eq]
  omega

theorem Reads.digit (h : Reads s (groups ++ [x % 256 * 256]) skip) (hval : val < 16) :
    Reads (s.digit val) (groups ++ [(x * 16 + val) % 256 * 256]) skip := by
  have hgroup : s.group = groups.length := by
    have := h.group
    rw [List.length_append, List.length_singleton] at this
    omega
  refine ⟨fun j => ?_, by rw [List.length_append]; exact congrArg (· + 1) hgroup, h.skip⟩
  have hj := h.shows j
  rw [LiteralParse.digit]
  dsimp only
  have hodd : (j : ℤ) * 2 + 1 ≠ s.group * 2 := by omega
  rw [Function.update_of_ne hodd]
  refine ⟨?_, hj.2⟩
  by_cases heq : j = groups.length
  · subst heq
    have hlast (y : ℕ) : (groups ++ [y]).getD groups.length 0 = y := by
      rw [List.getD_append_right _ _ _ _ (Nat.le_refl _), Nat.sub_self, List.getD_cons_zero]
    have hx := hj.1
    rw [hlast] at hx ⊢
    have hbyte : (s.bytes (groups.length * 2)).toNat = x % 256 :=
      Nat.eq_of_mul_eq_mul_right (by omega) hx
    have hmod : (x % 256 * 16 + val) % 256 = (x * 16 + val) % 256 := by omega
    rw [hgroup, Function.update_self, shift_digit _ hval, hbyte, hmod]
  · have heven : (j : ℤ) * 2 ≠ s.group * 2 := by omega
    rw [Function.update_of_ne heven, hj.1]
    rcases Nat.lt_or_ge j groups.length with hlt | hge
    · rw [List.getD_append _ _ _ _ hlt, List.getD_append _ _ _ _ hlt]
    · rw [List.getD_eq_default _ _ (by rw [List.length_append, List.length_singleton]; omega),
        List.getD_eq_default _ _ (by rw [List.length_append, List.length_singleton]; omega)]

theorem Reads.colon (h : Reads s groups skip) :
    Reads { s with group := s.group + 1, shift := 0 } (groups ++ [0]) skip := by
  refine ⟨fun j => ?_, by rw [List.length_append]; exact congrArg (· + 1) h.group, h.skip⟩
  have hj := h.shows j
  refine ⟨hj.1.trans ?_, hj.2⟩
  rcases Nat.lt_or_ge j groups.length with hlt | hge
  · rw [List.getD_append _ _ _ _ hlt]
  · rw [List.getD_append_right _ _ _ _ hge, List.getD_eq_default _ _ hge]
    cases j - groups.length with
    | zero => rfl
    | succ n => rfl

-- ---------------------------------------------------------------------------
-- The loop
-- ---------------------------------------------------------------------------

theorem literalLoop_digit (hgroup : s.group < 8) (h : hexVal c = some val) :
    literalLoop (c :: rest) s =
      if 4 < s.shift + 1 then s.digit val else literalLoop rest (s.digit val) := by
  obtain ⟨hcolon, hclose, -⟩ := hexVal_ne h
  rw [literalLoop, if_neg (not_or.mpr ⟨hclose, by omega⟩), if_neg hcolon, h]
  rfl

theorem literalLoop_colon (hgroup : s.group < 8) (h : rest.head? ≠ some ip6Colon) :
    literalLoop (ip6Colon :: rest) s = literalLoop rest { s with group := s.group + 1, shift := 0 } := by
  rw [literalLoop, if_neg (not_or.mpr ⟨by decide, by omega⟩), if_pos rfl, if_neg h]

theorem literalLoop_gap (hgroup : s.group < 8) (h : rest.head? ≠ some ip6Colon) :
    literalLoop (ip6Colon :: ip6Colon :: rest) s =
      literalLoop rest { s with skipGroup := some s.group } := by
  have hnext : (ip6Colon :: rest).head? = some ip6Colon := rfl
  rw [literalLoop, if_neg (not_or.mpr ⟨by decide, by omega⟩), if_pos rfl, if_pos hnext]
  dsimp only
  rw [List.tail_cons, if_neg h]

/-- The text ends, with or without a bracket. -/
def TextEnds (rest : List UInt8) : Prop := rest = [] ∨ rest = [ip6Close]

theorem literalLoop_ends (h : TextEnds rest) : literalLoop rest s = s := by
  rcases h with rfl | rfl
  · rw [literalLoop]
  · rw [literalLoop, if_pos (.inl rfl)]

theorem Reads.lt (h : Reads s (groups ++ [x]) skip) (hlen : groups.length < 8) : s.group < 8 := by
  have := h.group
  rw [List.length_append, List.length_singleton] at this
  omega

/-- The value with more digits behind. -/
def hexMore (x : ℕ) (digits : List UInt8) : ℕ :=
  digits.foldl (fun n c => n * 16 + (hexVal c).getD 0) x

/-- Up to four digits are read into the last group. -/
theorem literalLoop_digits (hhex : ∀ c ∈ digits, (hexVal c).isSome) (hlen : groups.length < 8)
    (h : Reads s (groups ++ [x % 256 * 256]) skip) (hshift : s.shift + digits.length ≤ 4) :
    ∃ s', (∀ rest, literalLoop (digits ++ rest) s = literalLoop rest s') ∧
      Reads s' (groups ++ [hexMore x digits % 256 * 256]) skip ∧
      s'.shift = s.shift + digits.length := by
  induction digits generalizing s x with
  | nil => exact ⟨s, fun rest => rfl, h, rfl⟩
  | cons c digits ih =>
    rw [List.forall_mem_cons] at hhex
    rw [List.length_cons] at hshift
    obtain ⟨val, hval⟩ := Option.isSome_iff_exists.mp hhex.1
    obtain ⟨s', hloop, hreads, hs'⟩ := ih hhex.2 (h.digit (hexVal_lt hval))
      (by rw [LiteralParse.digit]; dsimp only; omega)
    refine ⟨s', fun rest => ?_, ?_, ?_⟩
    · rw [List.cons_append, literalLoop_digit (h.lt hlen) hval, if_neg (by omega), hloop]
    · rw [hexMore, List.foldl_cons, hval, Option.getD_some]
      exact hreads
    · rw [hs', List.length_cons, LiteralParse.digit]
      dsimp only
      omega

/-- With the fifth digit the parser stops. -/
theorem literalLoop_stops (hhex : ∀ c ∈ digits, (hexVal c).isSome) (hlen : groups.length < 8)
    (h : Reads s (groups ++ [x % 256 * 256]) skip) (hle : s.shift ≤ 4)
    (hshift : 4 < s.shift + digits.length) :
    ∃ s', (∀ rest, literalLoop (digits ++ rest) s = s') ∧
      Reads s' (groups ++ [hexMore x (digits.take (5 - s.shift)) % 256 * 256]) skip := by
  induction digits generalizing s x with
  | nil =>
    rw [List.length_nil] at hshift
    omega
  | cons c digits ih =>
    rw [List.forall_mem_cons] at hhex
    rw [List.length_cons] at hshift
    obtain ⟨val, hval⟩ := Option.isSome_iff_exists.mp hhex.1
    have hnext := h.digit (hexVal_lt hval)
    rcases Nat.lt_or_ge s.shift 4 with hlt | hge
    · obtain ⟨s', hloop, hreads⟩ := ih hhex.2 hnext (by rw [LiteralParse.digit]; dsimp only; omega)
        (by rw [LiteralParse.digit]; dsimp only; omega)
      refine ⟨s', fun rest => ?_, ?_⟩
      · rw [List.cons_append, literalLoop_digit (h.lt hlen) hval, if_neg (by omega), hloop]
      · have htake : 5 - s.shift = 5 - (s.digit val).shift + 1 := by
          rw [LiteralParse.digit]
          dsimp only
          omega
        rw [htake, List.take_succ_cons, hexMore, List.foldl_cons, hval, Option.getD_some]
        exact hreads
    · refine ⟨s.digit val, fun rest => ?_, ?_⟩
      · rw [List.cons_append, literalLoop_digit (h.lt hlen) hval, if_pos (by omega)]
      · have htake : 5 - s.shift = 1 := by omega
        rw [htake, List.take_succ_cons, List.take_zero, hexMore, List.foldl_cons, hval,
          Option.getD_some]
        exact hnext

theorem groupsText_cons (group : List UInt8) (rest : List (List UInt8)) :
    groupsText (group :: rest) = group ++ rest.flatMap (ip6Colon :: ·) := by
  induction rest generalizing group with
  | nil => exact (List.append_nil group).symm
  | cons next rest ih => rw [groupsText, ih, List.flatMap_cons, List.cons_append]

theorem IsGroup.head_ne (h : IsGroup digits) (rest : List UInt8) :
    (digits ++ rest).head? ≠ some ip6Colon := by
  obtain ⟨c, tail, rfl⟩ := List.exists_cons_of_length_pos h.pos
  obtain ⟨val, hval⟩ := Option.isSome_iff_exists.mp (h.hex c List.mem_cons_self)
  intro heq
  exact (hexVal_ne hval).1 (Option.some.inj heq)

/-- Groups that follow, each behind a colon. -/
theorem literalLoop_groups {more : List (List UInt8)} (hmore : ∀ group ∈ more, IsGroup group)
    (hlen : groups.length + more.length ≤ 8) (h : Reads s groups skip) :
    ∃ s', (∀ rest, literalLoop (more.flatMap (ip6Colon :: ·) ++ rest) s = literalLoop rest s') ∧
      Reads s' (groups ++ more.map highByte) skip ∧
      s'.shift = more.getLast?.elim s.shift List.length := by
  induction more generalizing s groups with
  | nil => exact ⟨s, fun rest => rfl, by rwa [List.map_nil, List.append_nil], rfl⟩
  | cons group more ih =>
    rw [List.forall_mem_cons] at hmore
    rw [List.length_cons] at hlen
    have hgroup : s.group < 8 := by
      have := h.group
      omega
    have hdigits : 0 + group.length ≤ 4 := by
      have := hmore.1.le
      omega
    obtain ⟨s₁, hloop₁, hreads₁, hshift₁⟩ := literalLoop_digits (x := 0) hmore.1.hex
      (by omega) h.colon hdigits
    obtain ⟨s₂, hloop₂, hreads₂, hshift₂⟩ := ih hmore.2
      (by rw [List.length_append, List.length_singleton]; omega) hreads₁
    refine ⟨s₂, fun rest => ?_, ?_, ?_⟩
    · rw [List.flatMap_cons, List.cons_append, List.cons_append, List.append_assoc,
        literalLoop_colon hgroup (hmore.1.head_ne _), hloop₁, hloop₂]
    · rw [List.map_cons, ← List.singleton_append, ← List.append_assoc]
      exact hreads₂
    · rw [hshift₂, hshift₁]
      cases more with
      | nil => exact Nat.zero_add _
      | cons next more => rw [List.getLast?_cons_cons]; rfl

-- ---------------------------------------------------------------------------
-- The gap
-- ---------------------------------------------------------------------------

theorem moveGroup_apply (k i j : ℕ) (bytes : ℤ → UInt8) {δ : ℤ} (hδ : δ = 0 ∨ δ = 1) :
    moveGroup k bytes i (j * 2 + δ) =
      if j = i + k then bytes (i * 2 + δ) else bytes (j * 2 + δ) := by
  rw [moveGroup]
  rcases hδ with rfl | rfl
  · rw [Function.update_of_ne (by omega)]
    split
    · rename_i heq
      rw [Function.update_apply, if_pos (by omega), add_zero]
    · rw [Function.update_of_ne (by omega)]
  · rw [Function.update_apply]
    split
    · rw [if_pos (by omega), Function.update_of_ne (by omega)]
    · rw [if_neg (by omega), Function.update_of_ne (by omega)]

theorem zeroGroup_apply (i j : ℕ) (bytes : ℤ → UInt8) {δ : ℤ} (hδ : δ = 0 ∨ δ = 1) :
    zeroGroup bytes i (j * 2 + δ) = if j = i then 0 else bytes (j * 2 + δ) := by
  rw [zeroGroup]
  rcases hδ with rfl | rfl
  · rw [Function.update_of_ne (by omega), Function.update_apply]
    split
    · rw [if_pos (by omega)]
    · rw [if_neg (by omega)]
  · rw [Function.update_apply]
    split
    · rw [if_pos (by omega)]
    · rw [if_neg (by omega), Function.update_of_ne (by omega)]

/-- The groups from `skip` on, `n` of them, move up by `k`, the last one first. -/
theorem foldl_moveGroup (k skip n j : ℕ) (bytes : ℤ → UInt8) {δ : ℤ} (hδ : δ = 0 ∨ δ = 1) :
    (List.range' skip n).reverse.foldl (moveGroup k) bytes (j * 2 + δ) =
      if skip + k ≤ j ∧ j < skip + n + k then bytes ((j - k : ℕ) * 2 + δ)
      else bytes (j * 2 + δ) := by
  induction n generalizing bytes with
  | zero => rw [if_neg (by omega)]; rfl
  | succ n ih =>
    rw [List.range'_concat, List.reverse_append, List.reverse_singleton, List.singleton_append,
      List.foldl_cons, ih, moveGroup_apply k _ _ _ hδ, moveGroup_apply k _ _ _ hδ, Nat.one_mul]
    by_cases hlast : j = skip + n + k
    · have hsub : j - k = skip + n := by omega
      rw [if_neg (by omega), if_pos hlast, if_pos (by omega), hsub]
    · rw [if_neg hlast]
      by_cases hin : skip + k ≤ j ∧ j < skip + n + k
      · rw [if_pos hin, if_neg (by omega), if_pos (by omega)]
      · rw [if_neg hin, if_neg (by omega)]

theorem foldl_zeroGroup (is : List ℕ) (j : ℕ) (bytes : ℤ → UInt8) {δ : ℤ} (hδ : δ = 0 ∨ δ = 1) :
    is.foldl zeroGroup bytes (j * 2 + δ) = if j ∈ is then 0 else bytes (j * 2 + δ) := by
  induction is generalizing bytes with
  | nil => rw [if_neg List.not_mem_nil]; rfl
  | cons i is ih =>
    rw [List.foldl_cons, ih, zeroGroup_apply i j bytes hδ]
    by_cases hmem : j ∈ is
    · rw [if_pos hmem, if_pos (List.mem_cons_of_mem i hmem)]
    · by_cases heq : j = i
      · rw [if_neg hmem, if_pos heq, if_pos (List.mem_cons.mpr (.inl heq))]
      · rw [if_neg hmem, if_neg heq, if_neg (List.not_mem_cons_of_ne_of_not_mem heq hmem)]

/-- Where the bytes of a group come from. -/
theorem compactGroups_apply {k skip j : ℕ} (hskip : s.skipGroup = some skip) (hk : s.group + k = 7)
    (hle : skip ≤ s.group) (hj : j < 8) {δ : ℤ} (hδ : δ = 0 ∨ δ = 1) :
    compactGroups s (j * 2 + δ) =
      if j < skip then s.bytes (j * 2 + δ)
      else if j < skip + k then 0
      else s.bytes ((j - k : ℕ) * 2 + δ) := by
  have hcount : (7 : ℤ) - s.group = k := by omega
  rw [compactGroups, hskip]
  dsimp only
  rw [zeroGroups, hcount, foldl_zeroGroup _ _ _ hδ, moveGroups, foldl_moveGroup _ _ _ _ _ hδ]
  simp only [List.mem_filter, List.mem_range, decide_eq_true_eq]
  by_cases hfirst : j < skip
  · rw [if_neg (by omega), if_neg (by omega), if_pos hfirst]
  · by_cases hgap : j < skip + k
    · rw [if_pos (by omega), if_neg hfirst, if_pos hgap]
    · rw [if_neg (by omega), if_pos (by omega), if_neg hfirst, if_neg hgap]

theorem Reads.filled {skip : ℕ} (h : Reads s groups (some skip)) (hlen : groups.length ≤ 8)
    (hskip : skip < groups.length) : ∀ j : ℕ, j < 8 →
      (compactGroups s (j * 2)).toNat * 256 = (filledGroups groups (some skip)).getD j 0 ∧
        compactGroups s (j * 2 + 1) = 0 := by
  intro j hj
  have hgroup := h.group
  have hk : s.group + (8 - groups.length) = 7 := by omega
  have heven := compactGroups_apply h.skip hk (by omega) hj (.inl rfl)
  have hodd := compactGroups_apply h.skip hk (by omega) hj (.inr rfl)
  simp only [add_zero] at heven
  have htake : (groups.take skip).length = skip := by
    rw [List.length_take]
    omega
  rw [heven, hodd, filledGroups, List.append_assoc]
  by_cases hfirst : j < skip
  · rw [if_pos hfirst, if_pos hfirst, List.getD_append _ _ _ _ (by omega)]
    refine ⟨(h.shows j).1.trans ?_, (h.shows j).2⟩
    rw [List.getD_eq_getElem?_getD, List.getD_eq_getElem?_getD, List.getElem?_take_of_lt hfirst]
  · rw [if_neg hfirst, if_neg hfirst, List.getD_append_right _ _ _ _ (by omega), htake]
    by_cases hgap : j < skip + (8 - groups.length)
    · rw [if_pos hgap, if_pos hgap,
        List.getD_append _ _ _ _ (by rw [List.length_replicate]; omega)]
      refine ⟨?_, rfl⟩
      rw [List.getD_eq_getElem?_getD, List.getElem?_replicate]
      split <;> rfl
    · rw [if_neg hgap, if_neg hgap,
        List.getD_append_right _ _ _ _ (by rw [List.length_replicate]; omega), List.length_replicate]
      have hmoved := h.shows (j - (8 - groups.length))
      refine ⟨hmoved.1.trans ?_, hmoved.2⟩
      rw [List.getD_eq_getElem?_getD, List.getD_eq_getElem?_getD, List.getElem?_drop]
      congr 2
      omega

/-- The bytes that show eight groups. -/
theorem ip6_of_shows {bytes : ℤ → UInt8} (h : ∀ j : ℕ, j < 8 →
      (bytes (j * 2)).toNat * 256 = groups.getD j 0 ∧ bytes (j * 2 + 1) = 0) :
    (fun i : Fin 16 => bytes (i.val : ℤ)) = ip6OfGroups groups := by
  funext i
  have hi := h (i.val / 2) (by omega)
  rw [ip6OfGroups, ← hi.1]
  split
  · rename_i heven
    have hidx : ((i.val / 2 : ℕ) : ℤ) * 2 = i.val := by omega
    rw [hidx, Nat.mul_div_cancel _ (by omega), UInt8.ofNat_toNat]
  · rename_i hodd
    have hidx : ((i.val / 2 : ℕ) : ℤ) * 2 + 1 = i.val := by omega
    have hzero := hi.2
    rw [hidx] at hzero
    rw [hzero]
    refine (UInt8.toNat_inj.mp ?_).symm
    rw [UInt8.toNat_ofNat', Nat.mul_mod_left]
    rfl

-- ---------------------------------------------------------------------------
-- A whole text
-- ---------------------------------------------------------------------------

/-- The variables at the start. -/
def literalStart : LiteralParse := ⟨fun _ => 0, 0, 0, none⟩

/-- Nothing has been read. -/
structure Fresh (s : LiteralParse) (skip : Option ℕ) : Prop where
  reads : Reads s ([] ++ [0 % 256 * 256]) skip
  shift : s.shift = 0

theorem fresh_start (skip : Option ℕ) : Fresh { literalStart with skipGroup := skip } skip := by
  refine ⟨⟨fun j => ⟨?_, rfl⟩, rfl, rfl⟩, rfl⟩
  cases j with
  | zero => simp [literalStart]
  | succ j => simp [literalStart]

/-- The groups before a gap, or all of them. -/
theorem literalLoop_before {before : List (List UInt8)} (hne : before ≠ [])
    (hgroups : ∀ g ∈ before, IsGroup g) (hlen : before.length ≤ 8) (h : Fresh s skip) :
    ∃ s', (∀ rest, literalLoop (groupsText before ++ rest) s = literalLoop rest s') ∧
      Reads s' (before.map highByte) skip ∧ s'.shift = (before.getLast hne).length := by
  obtain ⟨group, more, rfl⟩ := List.exists_cons_of_ne_nil hne
  rw [List.forall_mem_cons] at hgroups
  rw [List.length_cons] at hlen
  have hdigits : s.shift + group.length ≤ 4 := by
    rw [h.shift, Nat.zero_add]
    exact hgroups.1.le
  obtain ⟨s₁, hloop₁, hreads₁, hshift₁⟩ := literalLoop_digits hgroups.1.hex (by decide) h.reads hdigits
  obtain ⟨s₂, hloop₂, hreads₂, hshift₂⟩ := literalLoop_groups hgroups.2
    (by rw [List.length_append, List.length_singleton, List.length_nil]; omega) hreads₁
  refine ⟨s₂, fun rest => ?_, hreads₂, ?_⟩
  · rw [groupsText_cons, List.append_assoc, hloop₁, hloop₂]
  · rw [hshift₂, hshift₁, h.shift]
    cases more with
    | nil => exact Nat.zero_add _
    | cons next more =>
      rw [List.getLast?_eq_some_getLast (List.cons_ne_nil next more)]
      rfl

/-- The groups behind a gap. -/
theorem literalLoop_after {last : List UInt8} {after : List (List UInt8)} {skip : ℕ}
    (hlast : IsGroup last) (hafter : ∀ g ∈ after, IsGroup g)
    (hlen : groups.length + after.length ≤ 7) (hshift : s.shift = last.length)
    (h : Reads s (groups ++ [highByte last]) (some skip)) {rest : List UInt8} (hrest : TextEnds rest) :
    Reads (literalLoop (groupsText after ++ rest) s) (groups ++ mergedGroups last after)
      (some skip) := by
  cases after with
  | nil =>
    have hends : groupsText [] ++ rest = rest := rfl
    rw [hends, literalLoop_ends hrest]
    exact h
  | cons first after =>
    rw [List.forall_mem_cons] at hafter
    rw [List.length_cons] at hlen
    have hmore (digits : List UInt8) : hexMore (hexValue last) digits = hexValue (last ++ digits) :=
      List.foldl_append.symm
    have hle := hlast.le
    rw [mergedGroups, groupsText_cons, List.append_assoc]
    split
    · rename_i hfits
      obtain ⟨s₁, hloop₁, hreads₁, -⟩ := literalLoop_digits hafter.1.hex (by omega) h
        (by rw [hshift]; exact hfits)
      obtain ⟨s₂, hloop₂, hreads₂, -⟩ := literalLoop_groups hafter.2
        (by rw [List.length_append, List.length_singleton]; omega) hreads₁
      rw [hloop₁, hloop₂, literalLoop_ends hrest]
      rw [hmore, List.append_assoc] at hreads₂
      exact hreads₂
    · rename_i hlong
      obtain ⟨s₁, hloop₁, hreads₁⟩ := literalLoop_stops hafter.1.hex (by omega) h
        (by rw [hshift]; exact hle) (by rw [hshift]; omega)
      rw [hloop₁]
      rw [hmore, hshift] at hreads₁
      exact hreads₁

theorem head_after {after : List (List UInt8)} (hafter : ∀ g ∈ after, IsGroup g) {rest : List UInt8}
    (hrest : TextEnds rest) : (groupsText after ++ rest).head? ≠ some ip6Colon := by
  cases after with
  | nil =>
    rcases hrest with rfl | rfl
    · exact nofun
    · exact (by decide : (some ip6Close : Option UInt8) ≠ some ip6Colon)
  | cons first after =>
    rw [groupsText_cons, List.append_assoc]
    exact (hafter first List.mem_cons_self).head_ne _

/-- What the loop has read at the end of a text. -/
theorem Ip6Text.WellFormed.reads {t : Ip6Text} (h : t.WellFormed) {rest : List UInt8}
    (hrest : TextEnds rest) :
    Reads (literalLoop (t.render ++ rest) literalStart) (readGroups t).1 (readGroups t).2 := by
  cases t with
  | full groups =>
    have hcount : groups.length = 8 := h.count
    have hne : groups ≠ [] := List.length_pos_iff.mp (by omega)
    obtain ⟨s', hloop, hreads, -⟩ := literalLoop_before hne h.isGroup hcount.le (fresh_start none)
    have hwhole : literalLoop (groupsText groups ++ rest) literalStart = s' :=
      (hloop rest).trans (literalLoop_ends hrest)
    rw [Ip6Text.render, hwhole]
    exact hreads
  | gap before after =>
    have hcount : before.length + after.length ≤ 7 := h.count
    have hbefore : ∀ g ∈ before, IsGroup g := fun g hg => h.isGroup g (List.mem_append_left _ hg)
    have hafter : ∀ g ∈ after, IsGroup g := fun g hg => h.isGroup g (List.mem_append_right _ hg)
    have hhead := head_after hafter hrest
    rw [Ip6Text.render, List.append_assoc, List.cons_append, List.cons_append]
    rcases List.eq_nil_or_concat before with rfl | ⟨init, last, hconcat⟩
    · have hgap : literalLoop (groupsText [] ++ ip6Colon :: ip6Colon :: (groupsText after ++ rest))
          literalStart = literalLoop (groupsText after ++ rest) { literalStart with skipGroup := some 0 } :=
        literalLoop_gap (by decide) hhead
      rw [hgap, readGroups]
      dsimp only [List.getLast?_nil]
      cases after with
      | nil =>
        have hends : groupsText [] ++ rest = rest := rfl
        rw [hends, literalLoop_ends hrest]
        exact (fresh_start (some 0)).reads
      | cons first after =>
        obtain ⟨s', hloop, hreads, -⟩ := literalLoop_before (List.cons_ne_nil first after) hafter
          (by omega) (fresh_start (some 0))
        rw [hloop, literalLoop_ends hrest]
        exact hreads
    · rw [List.concat_eq_append] at hconcat
      subst hconcat
      have hne : init ++ [last] ≠ [] := by simp
      obtain ⟨s', hloop, hreads, hshift⟩ := literalLoop_before hne hbefore (by omega) (fresh_start none)
      rw [List.length_append, List.length_singleton] at hcount
      rw [List.getLast_concat] at hshift
      rw [List.map_append] at hreads
      have hgroup : s'.group = init.length := by
        have := hreads.group
        rw [List.length_append, List.length_map, List.length_map, List.length_singleton] at this
        omega
      have hskip : Reads { s' with skipGroup := some s'.group }
          (init.map highByte ++ [highByte last]) (some s'.group) :=
        ⟨hreads.shows, hreads.group, rfl⟩
      have hlast : IsGroup last := hbefore last (List.mem_append_right _ (List.mem_singleton.mpr rfl))
      have hroom : (init.map highByte).length + after.length ≤ 7 := by
        rw [List.length_map]
        omega
      have hopen : LiteralParse.shift { s' with skipGroup := some s'.group } = last.length := hshift
      have hmerged := literalLoop_after hlast hafter hroom hopen hskip hrest
      have hwhole : literalLoop (groupsText (init ++ [last]) ++
          ip6Colon :: ip6Colon :: (groupsText after ++ rest)) literalStart = _ :=
        (hloop _).trans (literalLoop_gap (by omega) hhead)
      rw [hwhole, readGroups, List.getLast?_concat]
      dsimp only
      rw [List.dropLast_concat, List.length_append, List.length_singleton, Nat.add_sub_cancel, ← hgroup]
      exact hmerged

theorem length_mergedGroups (last : List UInt8) (after : List (List UInt8)) :
    0 < (mergedGroups last after).length ∧
      (mergedGroups last after).length ≤ max 1 after.length := by
  cases after with
  | nil => exact ⟨Nat.one_pos, Nat.le_max_left _ _⟩
  | cons first rest =>
    rw [mergedGroups]
    split
    · rw [List.length_cons, List.length_cons, List.length_map]
      exact ⟨Nat.succ_pos _, Nat.le_max_right _ _⟩
    · exact ⟨Nat.one_pos, Nat.le_max_left _ _⟩

/-- What has been read is either eight groups or has a gap among at most eight. -/
theorem Ip6Text.WellFormed.room {t : Ip6Text} (h : t.WellFormed) :
    (readGroups t).2 = none ∧ (readGroups t).1.length = 8 ∨
      ∃ skip, (readGroups t).2 = some skip ∧ skip < (readGroups t).1.length ∧
        (readGroups t).1.length ≤ 8 := by
  cases t with
  | full groups => exact .inl ⟨rfl, (List.length_map _).trans h.count⟩
  | gap before after =>
    have hcount : before.length + after.length ≤ 7 := h.count
    refine .inr ?_
    rw [readGroups]
    rcases List.eq_nil_or_concat before with rfl | ⟨init, last, hconcat⟩
    · refine ⟨0, rfl, ?_⟩
      cases after with
      | nil => exact ⟨Nat.one_pos, by decide⟩
      | cons first after =>
        rw [List.length_cons] at hcount
        refine ⟨Nat.succ_pos _, ?_⟩
        show ((first :: after).map highByte).length ≤ 8
        rw [List.length_map, List.length_cons]
        omega
    · rw [List.concat_eq_append] at hconcat
      subst hconcat
      rw [List.length_append, List.length_singleton] at hcount
      have hmerged := length_mergedGroups last after
      rw [List.getLast?_concat]
      show ∃ skip, some _ = some skip ∧ skip < (List.map highByte _ ++ _).length ∧
        (List.map highByte _ ++ _).length ≤ 8
      rw [List.dropLast_concat, List.length_append, List.length_append, List.length_map,
        List.length_singleton]
      exact ⟨_, rfl, by omega, by omega⟩

theorem render_head {t : Ip6Text} (h : t.WellFormed) : t.render.head? ≠ some ip6Open := by
  have hgroup {group : List UInt8} (hg : IsGroup group) (rest : List UInt8) :
      (group ++ rest).head? ≠ some ip6Open := by
    obtain ⟨c, tail, rfl⟩ := List.exists_cons_of_length_pos hg.pos
    obtain ⟨val, hval⟩ := Option.isSome_iff_exists.mp (hg.hex c List.mem_cons_self)
    intro heq
    exact (hexVal_ne hval).2.2 (Option.some.inj heq)
  cases t with
  | full groups =>
    have hcount : groups.length = 8 := h.count
    obtain ⟨group, more, rfl⟩ := List.exists_cons_of_length_pos (by omega : 0 < groups.length)
    rw [Ip6Text.render, groupsText_cons]
    exact hgroup (h.isGroup group List.mem_cons_self) _
  | gap before after =>
    cases before with
    | nil => exact (by decide : (some ip6Colon : Option UInt8) ≠ some ip6Open)
    | cons group more =>
      rw [Ip6Text.render, groupsText_cons, List.append_assoc]
      exact hgroup (h.isGroup group List.mem_cons_self) _

theorem colon_mem_render {t : Ip6Text} (h : t.WellFormed) : ip6Colon ∈ t.render := by
  cases t with
  | full groups =>
    have hcount : groups.length = 8 := h.count
    obtain ⟨group, more, rfl⟩ := List.exists_cons_of_length_pos (by omega : 0 < groups.length)
    rw [List.length_cons] at hcount
    obtain ⟨next, rest, rfl⟩ := List.exists_cons_of_length_pos (by omega : 0 < more.length)
    rw [Ip6Text.render, groupsText]
    exact List.mem_append_right _ List.mem_cons_self
  | gap before after => exact List.mem_append_right _ List.mem_cons_self

/-- **The parser returns the groups that it has read, with the gap filled.** -/
theorem literal_text {t : Ip6Text} (h : t.WellFormed) :
    ∀ text ∈ ip6Texts t, parseLiteral text = some (ip6OfGroups (misread t)) := by
  have hloop : ∀ rest, TextEnds rest →
      (let s := literalLoop (t.render ++ rest) literalStart
      if 0 < s.shift ∨ 0 < s.group ∨ s.skipGroup.isSome then
        some fun i : Fin 16 => compactGroups s (i.val : ℤ) else none) =
      some (ip6OfGroups (misread t)) := by
    intro rest hrest
    have hreads := h.reads hrest
    have hgroup := hreads.group
    dsimp only
    rcases h.room with ⟨hnone, hlen⟩ | ⟨skip, hsome, hlt, hlen⟩
    · rw [if_pos (.inr (.inl (by omega))), misread, hnone]
      rw [hnone] at hreads
      congr 1
      rw [filledGroups, ← ip6_of_shows fun j _ => hreads.shows j, compactGroups, hreads.skip]
    · rw [hsome] at hreads
      rw [if_pos (.inr (.inr (by rw [hreads.skip]; rfl))), misread, hsome]
      congr 1
      exact ip6_of_shows (hreads.filled hlen hlt)
  have hcolon := colon_mem_render h
  intro text htext
  rw [ip6Texts, List.mem_cons, List.mem_singleton] at htext
  rcases htext with rfl | rfl
  · rw [parseLiteral, if_pos hcolon, if_neg (render_head h)]
    have hwhole := hloop [] (.inl rfl)
    rw [List.append_nil] at hwhole
    exact hwhole
  · have hmem : ip6Colon ∈ ip6Open :: t.render ++ [ip6Close] :=
      List.mem_cons_of_mem _ (List.mem_append_left _ hcolon)
    have hopen : (ip6Open :: t.render ++ [ip6Close]).head? = some ip6Open := rfl
    rw [parseLiteral, if_pos hmem, if_pos hopen]
    exact hloop [ip6Close] (.inr rfl)

-- ---------------------------------------------------------------------------
-- When it is right
-- ---------------------------------------------------------------------------

theorem getD_hexVal_lt (c : UInt8) : (hexVal c).getD 0 < 16 := by
  cases hval : hexVal c with
  | none => exact Nat.succ_pos _
  | some val => exact hexVal_lt hval

theorem hexValue_lt (digits : List UInt8) : hexValue digits < 16 ^ digits.length := by
  induction digits using List.reverseRecOn with
  | nil => exact Nat.one_pos
  | append_singleton digits c ih =>
    have hc := getD_hexVal_lt c
    rw [hexValue] at ih
    rw [hexValue, List.foldl_append, List.foldl_cons, List.foldl_nil, List.length_append,
      List.length_singleton, Nat.pow_succ]
    omega

theorem IsGroup.lt (h : IsGroup digits) : hexValue digits < 65536 :=
  (hexValue_lt digits).trans_le (Nat.pow_le_pow_right (by omega) h.le)

theorem highByte_lt (digits : List UInt8) : highByte digits < 65536 := by
  rw [highByte]
  omega

/-- A low byte that is not zero is lost, and so is a high one. -/
theorem IsGroup.highByte_eq (h : IsGroup digits) :
    highByte digits = hexValue digits ↔ hexValue digits = 0 := by
  have := h.lt
  rw [highByte]
  omega

theorem map_highByte_eq {groups : List (List UInt8)} (h : ∀ group ∈ groups, IsGroup group) :
    groups.map highByte = groups.map hexValue ↔ ∀ group ∈ groups, hexValue group = 0 := by
  rw [List.map_inj_left]
  exact forall₂_congr fun group hg => (h group hg).highByte_eq

theorem hexValue_append {last : List UInt8} (h : hexValue last = 0) (digits : List UInt8) :
    hexValue (last ++ digits) = hexValue digits := by
  rw [hexValue] at h
  rw [hexValue, List.foldl_append, h, hexValue]

/-- The first digits of a zero are zero. -/
theorem hexValue_take (h : hexValue digits = 0) (n : ℕ) : hexValue (digits.take n) = 0 := by
  have hmore (x : ℕ) (l : List UInt8) : x ≤ hexMore x l := by
    induction l generalizing x with
    | nil => exact Nat.le_refl x
    | cons c l ih => exact (by omega : x ≤ x * 16 + (hexVal c).getD 0).trans (ih _)
  have hle := hmore (hexValue (digits.take n)) (digits.drop n)
  rw [hexMore, hexValue, ← List.foldl_append, List.take_append_drop] at hle
  rw [hexValue] at h ⊢
  omega

theorem ip6OfGroups_inj {groups' : List ℕ} (h : groups.length = 8) (h' : groups'.length = 8)
    (hlt : ∀ g ∈ groups, g < 65536) (hlt' : ∀ g ∈ groups', g < 65536) :
    ip6OfGroups groups = ip6OfGroups groups' ↔ groups = groups' := by
  refine ⟨fun heq => List.ext_getElem (h.trans h'.symm) fun j hj hj' => ?_, congrArg _⟩
  have hlow := hlt _ (List.getElem_mem hj)
  have hlow' := hlt' _ (List.getElem_mem hj')
  have heven := congrArg UInt8.toNat (congrFun heq ⟨2 * j, by omega⟩)
  have hodd := congrArg UInt8.toNat (congrFun heq ⟨2 * j + 1, by omega⟩)
  have hdiv : 2 * j / 2 = j := by omega
  have hdiv' : (2 * j + 1) / 2 = j := by omega
  rw [ip6OfGroups, ip6OfGroups] at heven hodd
  dsimp only at heven hodd
  rw [if_pos (by omega), if_pos (by omega), hdiv, UInt8.toNat_ofNat', UInt8.toNat_ofNat',
    List.getD_eq_getElem _ _ hj, List.getD_eq_getElem _ _ hj'] at heven
  rw [if_neg (by omega), if_neg (by omega), hdiv', UInt8.toNat_ofNat', UInt8.toNat_ofNat',
    List.getD_eq_getElem _ _ hj, List.getD_eq_getElem _ _ hj'] at hodd
  omega

/-- The first digits of a group behind zeros, in the place of the group. -/
theorem stop_digits {last first : List UInt8} (hlast : IsGroup last) (hfirst : IsGroup first)
    (hzero : hexValue last = 0) (hlong : 4 < last.length + first.length) :
    highByte (last ++ first.take (5 - last.length)) = hexValue first ↔
      hexValue first = 0 ∨ last.length + first.length = 7 ∧ hexValue first % 256 = 0 := by
  have hle := hlast.le
  have hpos := hlast.pos
  have hle' := hfirst.le
  have hpos' := hfirst.pos
  rw [highByte, hexValue_append hzero]
  generalize last.length = n at *
  match first, hpos', hle', hlong with
  | [a], _, _, hlong =>
    have hn : n = 4 := by rw [List.length_singleton] at hlong; omega
    have ha := getD_hexVal_lt a
    subst hn
    simp only [hexValue, List.take, List.foldl_cons, List.foldl_nil, List.length_singleton]
    omega
  | [a, b], _, _, hlong =>
    have hn : n = 3 ∨ n = 4 := by simp only [List.length_cons, List.length_nil] at hlong; omega
    have ha := getD_hexVal_lt a
    have hb := getD_hexVal_lt b
    rcases hn with rfl | rfl <;>
      simp only [hexValue, List.take, List.foldl_cons, List.foldl_nil, List.length_cons,
        List.length_nil] <;> omega
  | [a, b, c], _, _, hlong =>
    have hn : n = 2 ∨ n = 3 ∨ n = 4 := by
      simp only [List.length_cons, List.length_nil] at hlong
      omega
    have ha := getD_hexVal_lt a
    have hb := getD_hexVal_lt b
    have hc := getD_hexVal_lt c
    rcases hn with rfl | rfl | rfl <;>
      simp only [hexValue, List.take, List.foldl_cons, List.foldl_nil, List.length_cons,
        List.length_nil, true_and] <;> omega
  | [a, b, c, d], _, _, hlong =>
    have hn : n = 1 ∨ n = 2 ∨ n = 3 ∨ n = 4 := by omega
    have ha := getD_hexVal_lt a
    have hb := getD_hexVal_lt b
    have hc := getD_hexVal_lt c
    have hd := getD_hexVal_lt d
    have hmod : (hexVal a).getD 0 % 256 = (hexVal a).getD 0 := Nat.mod_eq_of_lt (by omega)
    rcases hn with rfl | rfl | rfl | rfl <;>
      simp only [hexValue, List.take, List.foldl_cons, List.foldl_nil, List.length_cons,
        List.length_nil, true_and, Nat.zero_mul, Nat.zero_add, hmod] <;> omega

theorem length_filledGroups {groups : List ℕ} {skip : ℕ} (h : skip ≤ groups.length)
    (hlen : groups.length ≤ 8) : (filledGroups groups (some skip)).length = 8 := by
  simp only [filledGroups, List.length_append, List.length_take, List.length_replicate,
    List.length_drop]
  omega

/-- A list that is filled in the middle, behind its first part. -/
theorem filledGroups_append (front tail : List ℕ) : filledGroups (front ++ tail) (some front.length) =
    front ++ (List.replicate (8 - front.length - tail.length) 0 ++ tail) := by
  rw [filledGroups, List.take_left, List.drop_left, List.length_append, Nat.sub_sub, List.append_assoc]

theorem replicate_concat (n : ℕ) (l : List ℕ) :
    List.replicate (n + 1) 0 ++ l = 0 :: (List.replicate n 0 ++ l) := rfl

variable {init after : List (List UInt8)} {last first : List UInt8}

/-- The groups around a gap, the one before it apart. -/
theorem denotes_gap (hcount : init.length + 1 + after.length ≤ 7) :
    (Ip6Text.gap (init ++ [last]) after).denotes = init.map hexValue ++
      (hexValue last :: (List.replicate (7 - init.length - after.length) 0 ++ after.map hexValue)) := by
  have hsub : 8 - (init ++ [last]).length - after.length = 7 - init.length - after.length := by
    rw [List.length_append, List.length_singleton]
    omega
  rw [Ip6Text.denotes, hsub, List.map_append, List.append_assoc, List.append_assoc]
  rfl

theorem misread_gap (hcount : init.length + 1 + after.length ≤ 7) :
    misread (.gap (init ++ [last]) after) = init.map highByte ++
      (0 :: (List.replicate (7 - init.length - (mergedGroups last after).length) 0 ++
        mergedGroups last after)) := by
  have hmerged := length_mergedGroups last after
  have hsub : 8 - init.length - (mergedGroups last after).length =
      7 - init.length - (mergedGroups last after).length + 1 := by omega
  have hfill := filledGroups_append (init.map highByte) (mergedGroups last after)
  rw [List.length_map, hsub, replicate_concat] at hfill
  rw [misread, readGroups, List.getLast?_concat]
  dsimp only
  rw [List.dropLast_concat, List.length_append, List.length_singleton, Nat.add_sub_cancel, hfill]

theorem replicate_append_inj {n m : ℕ} {l l' : List ℕ} (h : n = m) :
    List.replicate n 0 ++ l = List.replicate m 0 ++ l' ↔ l = l' := by
  rw [h, List.append_cancel_left_eq]

/-- The part of the groups behind the gap. -/
theorem merged_eq_iff (hlast : IsGroup last) (hafter : ∀ group ∈ after, IsGroup group)
    (hzero : hexValue last = 0) {n : ℕ} (hn : after.length < n) :
    List.replicate (n - (mergedGroups last after).length) 0 ++ mergedGroups last after =
        List.replicate (n - after.length) 0 ++ after.map hexValue ↔
      (∀ group ∈ after, hexValue group = 0) ∨
        ∃ only, after = [only] ∧ last.length + only.length = 7 ∧ hexValue only % 256 = 0 := by
  have hhigh : highByte last = 0 := by rw [highByte, hzero]
  cases after with
  | nil =>
    refine iff_of_true ?_ (.inl nofun)
    obtain ⟨m, rfl⟩ : ∃ m, n = m + 1 := ⟨n - 1, by rw [List.length_nil] at hn; omega⟩
    rw [mergedGroups, hhigh]
    exact (List.replicate_succ' (n := m)).symm.trans (List.append_nil _).symm
  | cons first rest =>
    rw [List.forall_mem_cons] at hafter
    have hfirst := hafter.1
    rw [mergedGroups]
    split
    · rename_i hfits
      have hshort (only : List UInt8) (heq : first :: rest = [only]) :
          last.length + only.length ≠ 7 := by
        rw [List.cons.injEq] at heq
        rw [← heq.1]
        omega
      have hlens : n - (highByte (last ++ first) :: rest.map highByte).length =
          n - (first :: rest).length := by
        rw [List.length_cons, List.length_map, List.length_cons]
      rw [replicate_append_inj hlens, List.map_cons, List.cons.injEq, map_highByte_eq hafter.2,
        highByte, hexValue_append hzero, ← highByte, hfirst.highByte_eq, List.forall_mem_cons]
      exact (or_iff_left fun ⟨only, heq, hseven, _⟩ => hshort only heq hseven).symm
    · rename_i hlong
      have hdigits := stop_digits hlast hfirst hzero (by omega)
      rcases List.eq_nil_or_concat rest with rfl | ⟨middle, final, hconcat⟩
      · have hlens : n - [highByte (last ++ first.take (5 - last.length))].length = n - [first].length :=
          rfl
        rw [replicate_append_inj hlens, List.map_singleton, List.cons.injEq, hdigits,
          List.forall_mem_singleton]
        constructor
        · rintro ⟨hz | ⟨hseven, hmod⟩, -⟩
          · exact .inl hz
          · exact .inr ⟨first, rfl, hseven, hmod⟩
        · rintro (hz | ⟨only, heq, hseven, hmod⟩)
          · exact ⟨.inl hz, rfl⟩
          · rw [List.cons.injEq] at heq
            rw [← heq.1] at hseven hmod
            exact ⟨.inr ⟨hseven, hmod⟩, rfl⟩
      · rw [List.concat_eq_append] at hconcat
        subst hconcat
        have hmapped : (first :: (middle ++ [final])).map hexValue =
            (first :: middle).map hexValue ++ [hexValue final] := by
          rw [List.map_cons, List.map_append, List.map_cons]
          rfl
        rw [hmapped, ← List.append_assoc]
        constructor
        · intro heq
          obtain ⟨hzeros, hfinal⟩ := List.append_inj' heq rfl
          have hnone : ∀ g ∈ (first :: middle).map hexValue, g = 0 := fun g hg =>
            List.eq_of_mem_replicate (hzeros ▸ List.mem_append_right _ hg)
          rw [List.forall_mem_map, List.forall_mem_cons] at hnone
          have hstop : highByte (last ++ first.take (5 - last.length)) = 0 := by
            rw [highByte, hexValue_append hzero, hexValue_take hnone.1]
          rw [List.cons.injEq, hstop] at hfinal
          refine .inl (List.forall_mem_cons.mpr ⟨hnone.1, List.forall_mem_append.mpr ⟨hnone.2, ?_⟩⟩)
          exact List.forall_mem_singleton.mpr hfinal.1.symm
        · rintro (hall | ⟨only, heq, -⟩)
          · rw [List.forall_mem_cons, List.forall_mem_append, List.forall_mem_singleton] at hall
            have hstop : highByte (last ++ first.take (5 - last.length)) = 0 := by
              rw [highByte, hexValue_append hzero, hexValue_take hall.1]
            have hzeros : (first :: middle).map hexValue = List.replicate (middle.length + 1) 0 := by
              rw [List.eq_replicate_iff]
              refine ⟨by rw [List.length_map, List.length_cons], ?_⟩
              rw [List.forall_mem_map]
              exact List.forall_mem_cons.mpr ⟨hall.1, hall.2.1⟩
            rw [List.length_cons, List.length_append, List.length_singleton] at hn
            rw [hzeros, hstop, hall.2.2, List.replicate_append_replicate]
            congr 2
            simp only [List.length_cons, List.length_append, List.length_nil]
            omega
          · have hlen := congrArg List.length heq
            rw [List.length_cons, List.length_append, List.length_singleton, List.length_singleton] at hlen
            omega

/-- The groups that the parser returns are right by accident only. -/
theorem misread_iff {t : Ip6Text} (h : t.WellFormed) : misread t = t.denotes ↔ t.Zero ∨ t.Lucky := by
  cases t with
  | full groups => exact (map_highByte_eq h.isGroup).trans (or_false _).symm.to_iff
  | gap before after =>
    have hcount : before.length + after.length ≤ 7 := h.count
    have hbefore : ∀ g ∈ before, IsGroup g := fun g hg => h.isGroup g (List.mem_append_left _ hg)
    have hafter : ∀ g ∈ after, IsGroup g := fun g hg => h.isGroup g (List.mem_append_right _ hg)
    rcases List.eq_nil_or_concat before with rfl | ⟨init, last, hconcat⟩
    · have hlucky : ¬ (Ip6Text.gap [] after).Lucky := by
        rintro ⟨init, last, only, hnil, -⟩
        exact List.append_ne_nil_of_right_ne_nil init (List.cons_ne_nil last []) hnil.symm
      rw [or_iff_left hlucky]
      cases after with
      | nil => exact iff_of_true rfl nofun
      | cons first rest =>
        have hfill := filledGroups_append [] ((first :: rest).map highByte)
        have hlens : 8 - 0 - ((first :: rest).map highByte).length = 8 - 0 - (first :: rest).length := by
          rw [List.length_map]
        exact (Eq.congr_left hfill).trans
          ((replicate_append_inj hlens).trans (map_highByte_eq hafter))
    · rw [List.concat_eq_append] at hconcat
      subst hconcat
      rw [List.length_append, List.length_singleton] at hcount
      rw [List.forall_mem_append, List.forall_mem_singleton] at hbefore
      have hlens : (init.map highByte).length = (init.map hexValue).length := by
        rw [List.length_map, List.length_map]
      have hmerged (hzero : hexValue last = 0) : _ ↔ _ :=
        merged_eq_iff hbefore.2 hafter hzero (n := 7 - init.length) (by omega)
      rw [misread_gap hcount, denotes_gap hcount]
      constructor
      · intro heq
        obtain ⟨hinit, htail⟩ := List.append_inj heq hlens
        rw [List.cons.injEq] at htail
        have hzero : ∀ g ∈ init ++ [last], hexValue g = 0 :=
          List.forall_mem_append.mpr ⟨(map_highByte_eq hbefore.1).mp hinit,
            List.forall_mem_singleton.mpr htail.1.symm⟩
        rcases (hmerged htail.1.symm).mp htail.2 with hall | ⟨only, honly, hseven, hmod⟩
        · exact .inl (List.forall_mem_append.mpr ⟨hzero, hall⟩)
        · exact .inr ⟨init, last, only, rfl, honly, hzero, hseven, hmod⟩
      · intro hright
        have hzero : ∀ g ∈ init ++ [last], hexValue g = 0 := by
          rcases hright with hall | ⟨init', last', only, -, -, hzero, -⟩
          · exact (List.forall_mem_append.mp hall).1
          · exact hzero
        have hlast : hexValue last = 0 :=
          hzero last (List.mem_append_right _ (List.mem_singleton.mpr rfl))
        have hinit : init.map highByte = init.map hexValue :=
          (map_highByte_eq hbefore.1).mpr (List.forall_mem_append.mp hzero).1
        rw [hinit, hlast, (hmerged hlast).mpr ?_]
        rcases hright with hall | ⟨init', last', only, hsame, honly, -, hseven, hmod⟩
        · exact .inl (List.forall_mem_append.mp hall).2
        · obtain ⟨-, hlast'⟩ := List.append_inj' hsame rfl
          rw [List.cons.injEq] at hlast'
          exact .inr ⟨only, honly, hlast'.1 ▸ hseven, hmod⟩

theorem Ip6Text.WellFormed.length_denotes {t : Ip6Text} (h : t.WellFormed) : t.denotes.length = 8 := by
  cases t with
  | full groups => exact (List.length_map _).trans h.count
  | gap before after =>
    have hcount : before.length + after.length ≤ 7 := h.count
    simp only [Ip6Text.denotes, List.length_append, List.length_map, List.length_replicate]
    omega

theorem Ip6Text.WellFormed.denotes_lt {t : Ip6Text} (h : t.WellFormed) : ∀ g ∈ t.denotes, g < 65536 := by
  have hmap {groups : List (List UInt8)} (hg : ∀ group ∈ groups, IsGroup group) :
      ∀ g ∈ groups.map hexValue, g < 65536 :=
    List.forall_mem_map.mpr fun group hmem => (hg group hmem).lt
  cases t with
  | full groups => exact hmap h.isGroup
  | gap before after =>
    rw [Ip6Text.denotes, List.forall_mem_append, List.forall_mem_append]
    refine ⟨⟨hmap fun g hg => h.isGroup g (List.mem_append_left _ hg), fun g hg => ?_⟩,
      hmap fun g hg => h.isGroup g (List.mem_append_right _ hg)⟩
    rw [List.eq_of_mem_replicate hg]
    decide

theorem mergedGroups_lt (last : List UInt8) (after : List (List UInt8)) :
    ∀ g ∈ mergedGroups last after, g < 65536 := by
  cases after with
  | nil => exact List.forall_mem_singleton.mpr (highByte_lt last)
  | cons first rest =>
    rw [mergedGroups]
    split
    · exact List.forall_mem_cons.mpr ⟨highByte_lt _, List.forall_mem_map.mpr fun g _ => highByte_lt g⟩
    · exact List.forall_mem_singleton.mpr (highByte_lt _)

theorem readGroups_lt (t : Ip6Text) : ∀ g ∈ (readGroups t).1, g < 65536 := by
  have hmap (groups : List (List UInt8)) : ∀ g ∈ groups.map highByte, g < 65536 :=
    List.forall_mem_map.mpr fun g _ => highByte_lt g
  cases t with
  | full groups => exact hmap groups
  | gap before after =>
    rw [readGroups]
    cases before.getLast? with
    | none =>
      dsimp only
      split
      · exact List.forall_mem_singleton.mpr (by decide)
      · exact hmap after
    | some last => exact List.forall_mem_append.mpr ⟨hmap _, mergedGroups_lt last after⟩

/-- **Which texts are read rightly.** -/
theorem parsesRight_iff {t : Ip6Text} (h : t.WellFormed) : ParsesRight t ↔ t.Zero ∨ t.Lucky := by
  have hlen : (misread t).length = 8 ∧ ∀ g ∈ misread t, g < 65536 := by
    have hlt := readGroups_lt t
    rw [misread]
    rcases h.room with ⟨hnone, hlen⟩ | ⟨skip, hsome, hskip, hlen⟩
    · rw [hnone]
      exact ⟨hlen, hlt⟩
    · rw [hsome]
      refine ⟨length_filledGroups hskip.le hlen, ?_⟩
      rw [filledGroups, List.forall_mem_append, List.forall_mem_append]
      refine ⟨⟨fun g hg => hlt g (List.mem_of_mem_take hg), fun g hg => ?_⟩,
        fun g hg => hlt g (List.mem_of_mem_drop hg)⟩
      rw [List.eq_of_mem_replicate hg]
      decide
  rw [← misread_iff h, ← ip6OfGroups_inj hlen.1 h.length_denotes hlen.2 h.denotes_lt]
  constructor
  · intro hright
    have hrender := hright t.render List.mem_cons_self
    rw [literal_text h _ List.mem_cons_self] at hrender
    exact Option.some.inj hrender
  · intro heq text htext
    rw [literal_text h text htext, heq]

end Lestra
