import Lestra.Libc.Stdio

/-!
# The text of a format

The full expansion of a format, and how much of it `vsnprintf` leaves in the buffer. Each
helper of `libc/src/stdio.c` compares the running count with `size - 1`, which for size 0 is
the largest `size_t`.

* `expandFmt` — the expansion, which does not depend on the size
* `vsnprintf_law_iff` — the truncation law holds unless the size is 0
-/

namespace Lestra

open Word64 VarArgs Sink

-- ---------------------------------------------------------------------------
-- Texts
-- ---------------------------------------------------------------------------

def spaces (n : ℤ) : List UInt8 := List.replicate n.toNat ' '.toUInt8

def zeroes (n : ℤ) : List UInt8 := List.replicate n.toNat '0'.toUInt8

/-- The text with its padding on the right or on the left. -/
def withPadding (leftAlign : Bool) (pad : ℤ) (text : List UInt8) : List UInt8 :=
  if leftAlign then text ++ spaces pad else spaces pad ++ text

def stringText (s : Option (List UInt8)) (sp : FmtSpec) : List UInt8 :=
  let s := s.getD nullText
  let slen := wrapInt s.length
  let slen := if 0 ≤ sp.precision ∧ sp.precision < slen then sp.precision else slen
  let pad := wrapInt (sp.width - slen)
  withPadding sp.leftAlign (if pad < 0 then 0 else pad) (s.take slen.toNat)

def charText (c : UInt8) (sp : FmtSpec) : List UInt8 :=
  let pad := wrapInt (sp.width - 1)
  withPadding sp.leftAlign (if pad < 0 then 0 else pad) [c]

def IntField.text (f : IntField) (leftAlign : Bool) : List UInt8 :=
  if leftAlign then
    f.sign ++ f.pre ++ zeroes f.zeros ++ f.digits.take f.ndig.toNat ++ spaces f.pad
  else if f.useZero then
    f.sign ++ f.pre ++ zeroes (wrapInt (f.pad + f.zeros)) ++ f.digits.take f.ndig.toNat
  else
    spaces f.pad ++ f.sign ++ f.pre ++ zeroes f.zeros ++ f.digits.take f.ndig.toNat

/-- The sign character of a number, 0 for none. -/
def signOf (sp : FmtSpec) (neg : Bool) : UInt8 :=
  if neg then '-'.toUInt8 else if sp.plusSign then '+'.toUInt8
  else if sp.spaceSign then ' '.toUInt8 else 0

/-- The text of one directive. -/
def convText (ap : VaList) (conv : FmtConv) (sp : FmtSpec) (i : ℕ) : List UInt8 :=
  match conv with
  | .signed =>
    let val := ap.signed sp.len.bits i
    let neg := decide (val < 0)
    (intField (magnitude val) neg 10 false false (decide (signOf sp neg ≠ 0) && !neg)
      (if sp.plusSign then '+'.toUInt8 else ' '.toUInt8) sp).text sp.leftAlign
  | .unsigned =>
    (intField (ap.unsigned sp.len.bits i) false 10 false false false 0 sp).text sp.leftAlign
  | .hex upper =>
    (intField (ap.unsigned sp.len.bits i) false 16 upper sp.altForm false 0 sp).text sp.leftAlign
  | .octal =>
    (intField (ap.unsigned sp.len.bits i) false 8 false sp.altForm false 0 sp).text sp.leftAlign
  | .char => charText (ap.char i) sp
  | .string => stringText (if ap.slot i = 0 then none else some (ap.text (ap.slot i))) sp
  | .pointer =>
    (intField (ap.unsigned 64 i) false 16 false true false 0 { sp with altForm := true }).text
      sp.leftAlign
  | .percent => ['%'.toUInt8]
  | .count => []
  | .other spec => ['%'.toUInt8, spec]

/-- The full expansion, from the argument `i` on. -/
def expandFmt (ap : VaList) (i : ℕ) (p : List UInt8) : List UInt8 :=
  match p with
  | [] => []
  | c :: p =>
    if c ≠ '%'.toUInt8 then c :: expandFmt ap i p
    else
      match _h : parseSpec ap i p with
      | ([], _, _) => []
      | (spec :: rest, sp, j) =>
        convText ap (fmtConv spec) sp j ++ expandFmt ap (j + (fmtConv spec).args) rest
termination_by p.length
decreasing_by
  · exact Nat.lt_succ_self _
  · have hlen := parseSpec_length ap i p
    rw [_h, List.length_cons] at hlen
    exact hlen.trans (Nat.le_succ _)

-- ---------------------------------------------------------------------------
-- What the helpers emit
-- ---------------------------------------------------------------------------

/-- The count up to which the helpers store. -/
def emitLimit (str : Bool) (size : ℕ) : ℕ := if str then sub size 1 else 0

section Emit

variable {str : Bool} {size : ℕ}

theorem emitChar_eq (o : Out UInt8) (c : UInt8) :
    emitChar str size o c = put (emitLimit str size) o c := by
  cases str with
  | false =>
    rw [emitChar, put, emitLimit, if_neg (by simp), if_neg (by simp)]
  | true =>
    rw [emitChar, put, emitLimit, if_pos rfl]
    simp only [true_and]

theorem emitPadding_emits (c : UInt8) (n : ℤ) :
    Emits (emitLimit str size) (emitPadding str size c n) (List.replicate n.toNat c) := by
  intro o
  rw [emitPadding]
  induction n.toNat generalizing o with
  | zero => rfl
  | succ k ih =>
    rw [List.range_succ, List.foldl_append, ih, List.replicate_succ', putAll_concat]
    exact emitChar_eq _ c

theorem emitStr_emits {s : List UInt8} {n : ℤ} (h : 0 ∉ s.take n.toNat) :
    Emits (emitLimit str size) (emitStr str size s n) (s.take n.toNat) := by
  intro o
  rw [emitStr]
  generalize n.toNat = k at h
  induction s generalizing k o with
  | nil =>
    rw [List.take_nil]
    cases k <;> rfl
  | cons c s ih =>
    cases k with
    | zero => rfl
    | succ k =>
      rw [List.take_succ_cons, List.mem_cons, not_or] at h
      rw [emitStrLoop, if_neg (fun hc => h.1 hc.symm), ih _ _ h.2, emitChar_eq]
      rfl

/-- A text that is emitted whole. -/
theorem emitStr_all {s : List UInt8} (h : 0 ∉ s) :
    Emits (emitLimit str size) (emitStr str size s s.length) s := by
  have htake : s.take (s.length : ℤ).toNat = s := by
    rw [Int.toNat_natCast, List.take_length]
  have hemits := @emitStr_emits str size s s.length (by rwa [htake])
  rwa [htake] at hemits

theorem emitStringField_emits {s : Option (List UInt8)} {sp : FmtSpec} (h : 0 ∉ stringText s sp) :
    Emits (emitLimit str size) (emitStringField str size s sp) (stringText s sp) := by
  unfold emitStringField
  unfold stringText withPadding at h ⊢
  dsimp only at h ⊢
  split
  · next hleft =>
    rw [if_pos hleft, List.mem_append, not_or] at h
    exact (emitStr_emits h.1).comp (emitPadding_emits _ _)
  · next hleft =>
    rw [if_neg hleft, List.mem_append, not_or] at h
    exact (emitPadding_emits _ _).comp (emitStr_emits h.2)

theorem emitCharField_emits {c : UInt8} {sp : FmtSpec} (h : 0 ∉ charText c sp) :
    Emits (emitLimit str size) (emitCharField str size c sp) (charText c sp) := by
  unfold emitCharField
  unfold charText withPadding at h ⊢
  dsimp only at h ⊢
  split
  · next hleft =>
    rw [if_pos hleft, List.mem_append, not_or] at h
    exact (emitStr_all h.1).comp (emitPadding_emits _ _)
  · next hleft =>
    rw [if_neg hleft, List.mem_append, not_or] at h
    exact (emitPadding_emits _ _).comp (emitStr_all h.2)

theorem emitIntField_emits {uv base : ℕ} {neg upper alt hasSign : Bool} {signChar : UInt8}
    {sp : FmtSpec}
    (h : 0 ∉ (intField uv neg base upper alt hasSign signChar sp).text sp.leftAlign) :
    Emits (emitLimit str size) (emitIntField str size uv neg base upper alt hasSign signChar sp)
      ((intField uv neg base upper alt hasSign signChar sp).text sp.leftAlign) := by
  unfold emitIntField
  dsimp only
  generalize intField uv neg base upper alt hasSign signChar sp = f at h ⊢
  unfold IntField.text at h ⊢
  split
  · next hleft =>
    rw [if_pos hleft] at h
    simp only [List.mem_append, not_or] at h
    obtain ⟨⟨⟨⟨hsign, hpre⟩, -⟩, hdigits⟩, -⟩ := h
    exact ((((emitStr_all hsign).comp (emitStr_all hpre)).comp (emitPadding_emits _ _)).comp
      (emitStr_emits hdigits)).comp (emitPadding_emits _ _)
  · next hleft =>
    rw [if_neg hleft] at h
    split
    · next hzero =>
      rw [if_pos hzero] at h
      simp only [List.mem_append, not_or] at h
      obtain ⟨⟨⟨hsign, hpre⟩, -⟩, hdigits⟩ := h
      exact (((emitStr_all hsign).comp (emitStr_all hpre)).comp (emitPadding_emits _ _)).comp
        (emitStr_emits hdigits)
    · next hzero =>
      rw [if_neg hzero] at h
      simp only [List.mem_append, not_or] at h
      obtain ⟨⟨⟨⟨-, hsign⟩, hpre⟩, -⟩, hdigits⟩ := h
      exact ((((emitPadding_emits _ _).comp (emitStr_all hsign)).comp (emitStr_all hpre)).comp
        (emitPadding_emits _ _)).comp (emitStr_emits hdigits)

/-- Each case of the `switch` emits the text of its directive. -/
theorem emitConv_emits {ap : VaList} {conv : FmtConv} {sp : FmtSpec} {i : ℕ}
    (h : 0 ∉ convText ap conv sp i) :
    Emits (emitLimit str size) (emitConv str size ap conv sp i) (convText ap conv sp i) := by
  cases conv with
  | signed => exact emitIntField_emits h
  | unsigned => exact emitIntField_emits h
  | hex upper => exact emitIntField_emits h
  | octal => exact emitIntField_emits h
  | char => exact emitCharField_emits h
  | string => exact emitStringField_emits h
  | pointer => exact emitIntField_emits h
  | percent => exact emitStr_all h
  | count => exact emits_id
  | other spec =>
    have hspec : 0 ∉ [spec] := fun hmem => h (List.mem_cons_of_mem _ hmem)
    exact (emitStr_all (s := ['%'.toUInt8]) (by decide)).comp (emitStr_all hspec)

end Emit

-- ---------------------------------------------------------------------------
-- The loop
-- ---------------------------------------------------------------------------

theorem expandFmt_char {ap : VaList} {i : ℕ} {c : UInt8} (hc : c ≠ '%'.toUInt8) (p : List UInt8) :
    expandFmt ap i (c :: p) = c :: expandFmt ap i p := by
  rw [expandFmt, if_pos hc]

theorem expandFmt_end {ap : VaList} {i j : ℕ} {p : List UInt8} {sp : FmtSpec}
    (h : parseSpec ap i p = ([], sp, j)) : expandFmt ap i ('%'.toUInt8 :: p) = [] := by
  rw [expandFmt, if_neg (not_not.mpr rfl)]
  split
  · rfl
  · next heq => exact nomatch h.symm.trans heq

theorem expandFmt_directive {ap : VaList} {i j : ℕ} {p rest : List UInt8} {spec : UInt8}
    {sp : FmtSpec} (h : parseSpec ap i p = (spec :: rest, sp, j)) :
    expandFmt ap i ('%'.toUInt8 :: p) =
      convText ap (fmtConv spec) sp j ++ expandFmt ap (j + (fmtConv spec).args) rest := by
  rw [expandFmt, if_neg (not_not.mpr rfl)]
  split
  · next heq => exact nomatch h.symm.trans heq
  · next heq =>
    obtain ⟨⟨rfl, rfl⟩, rfl, rfl⟩ := by simpa using h.symm.trans heq
    rfl

theorem handleSpecifier_end {str : Bool} {size : ℕ} {ap : VaList} {p : List UInt8}
    {st : FmtState} {sp : FmtSpec} {j : ℕ} (h : parseSpec ap st.arg p = ([], sp, j)) :
    handleSpecifier str size ap p st = none := by
  rw [handleSpecifier, h]

/-- A directive goes on behind its specifier, with its text put out. -/
theorem handleSpecifier_directive {str : Bool} {size : ℕ} {ap : VaList} {p rest : List UInt8}
    {st : FmtState} {spec : UInt8} {sp : FmtSpec} {j : ℕ}
    (h : parseSpec ap st.arg p = (spec :: rest, sp, j))
    (hnul : 0 ∉ convText ap (fmtConv spec) sp j) :
    ∃ st', handleSpecifier str size ap p st = some (rest, st') ∧
      st'.arg = j + (fmtConv spec).args ∧
      st'.out = putAll (emitLimit str size) st.out (convText ap (fmtConv spec) sp j) := by
  rw [handleSpecifier, h]
  exact ⟨_, rfl, rfl, emitConv_emits hnul _⟩

/-- The loop puts out the expansion. -/
theorem fmtLoop_out {str : Bool} {size : ℕ} {ap : VaList} (p : List UInt8) (st : FmtState)
    (h : 0 ∉ expandFmt ap st.arg p) :
    (fmtLoop str size ap p st).out =
      putAll (emitLimit str size) st.out (expandFmt ap st.arg p) := by
  induction hn : p.length using Nat.strongRecOn generalizing p st with
  | ind n ih =>
    cases p with
    | nil =>
      rw [fmtLoop, expandFmt]
      rfl
    | cons c p =>
      by_cases hc : c = '%'.toUInt8
      · subst hc
        rw [fmtLoop, if_neg (not_not.mpr rfl)]
        rcases hparse : parseSpec ap st.arg p with ⟨_ | ⟨spec, rest⟩, sp, j⟩
        · rw [expandFmt_end hparse]
          split
          · rfl
          · next heq =>
            rw [handleSpecifier_end hparse] at heq
            cases heq
        · rw [expandFmt_directive hparse] at h ⊢
          rw [List.mem_append, not_or] at h
          obtain ⟨st', hhandle, harg, hout⟩ :=
            @handleSpecifier_directive str size _ _ _ _ _ _ _ hparse h.1
          split
          · next heq =>
            rw [hhandle] at heq
            cases heq
          · next p' st'' heq =>
            rw [hhandle] at heq
            obtain ⟨rfl, rfl⟩ := Prod.mk.inj (Option.some.inj heq)
            have hlt : rest.length < n := by
              have hlen := parseSpec_length ap st.arg p
              rw [hparse, List.length_cons] at hlen
              rw [List.length_cons] at hn
              omega
            rw [← harg] at h ⊢
            rw [ih _ hlt rest st' h.2 rfl, hout, putAll, putAll, putAll, List.foldl_append]
      · rw [expandFmt_char hc] at h ⊢
        rw [List.mem_cons, not_or] at h
        rw [fmtLoop, if_pos hc]
        have hlt : p.length < n := by
          rw [← hn]
          exact Nat.lt_succ_self _
        rw [ih _ hlt p { st with out := emitChar str size st.out c } h.2 rfl, emitChar_eq]
        rfl

-- ---------------------------------------------------------------------------
-- The truncation law
-- ---------------------------------------------------------------------------

/-- For every buffer: the result is the length of the expansion, nothing is stored from `size`
on, and for a size above 0 the buffer begins with the expansion, cut to `size - 1` bytes, and
a terminator. -/
structure TruncationLaw (ap : VaList) (fmt : List UInt8) (size : ℕ) : Prop where
  result : ∀ buf, (vsnprintf true buf size fmt ap).2.1 = (expandFmt ap 0 fmt).length
  inside : ∀ buf i, size ≤ i → (vsnprintf true buf size fmt ap).1 i = buf i
  cut : 0 < size → ∀ buf i, i < min (expandFmt ap 0 fmt).length (size - 1) →
    (vsnprintf true buf size fmt ap).1 i = (expandFmt ap 0 fmt).getD i 0
  terminator : 0 < size → ∀ buf,
    (vsnprintf true buf size fmt ap).1 (min (expandFmt ap 0 fmt).length (size - 1)) = 0

section Law

variable {ap : VaList} {fmt : List UInt8} {size : ℕ} {buf : ℕ → UInt8}

theorem fmtLoop_putAll (hnul : 0 ∉ expandFmt ap 0 fmt) (buf : ℕ → UInt8) (size : ℕ) :
    (fmtLoop true size ap fmt ⟨⟨buf, 0⟩, 0, []⟩).out =
      putAll (sub size 1) ⟨buf, 0⟩ (expandFmt ap 0 fmt) := by
  rw [fmtLoop_out fmt _ hnul, emitLimit, if_pos rfl]

theorem cut_eq_min (n l : ℕ) : (if n < l then n else l) = min n l := by
  rw [min_def]
  split_ifs <;> omega

theorem vsnprintf_result (hnul : 0 ∉ expandFmt ap 0 fmt)
    (hlen : (expandFmt ap 0 fmt).length < 2 ^ 31) :
    (vsnprintf true buf size fmt ap).2.1 = (expandFmt ap 0 fmt).length := by
  rw [vsnprintf]
  dsimp only
  rw [fmtLoop_putAll hnul, putAll_count, Nat.zero_add]
  exact wrapInt_of_small (by omega) (by omega)

/-- The buffer for a size above 0. -/
theorem vsnprintf_buf (hnul : 0 ∉ expandFmt ap 0 fmt) (hpos : 0 < size) (hsize : size < 2 ^ 64)
    (i : ℕ) : (vsnprintf true buf size fmt ap).1 i =
      if i < min (expandFmt ap 0 fmt).length (size - 1) then (expandFmt ap 0 fmt).getD i 0
      else if i = min (expandFmt ap 0 fmt).length (size - 1) then 0 else buf i := by
  have hsub : sub size 1 = size - 1 := sub_of_le hsize hpos
  rw [← hsub, ← finish_putAll, finish, vsnprintf]
  dsimp only
  rw [fmtLoop_putAll hnul, if_pos ⟨rfl, hpos⟩, cut_eq_min]

/-- For size 0 every byte of the expansion is stored. -/
theorem vsnprintf_zero (hnul : 0 ∉ expandFmt ap 0 fmt)
    (hlen : (expandFmt ap 0 fmt).length < 2 ^ 31) (i : ℕ) :
    (vsnprintf true buf 0 fmt ap).1 i = (expandFmt ap 0 fmt).getD i (buf i) := by
  have hlimit : (expandFmt ap 0 fmt).length ≤ sub 0 1 := by
    unfold sub
    omega
  rw [vsnprintf]
  dsimp only
  rw [if_neg (fun h => absurd h.2 (lt_irrefl 0)), fmtLoop_putAll hnul, putAll_buf,
    List.take_of_length_le hlimit]

/-- **Truncation.** For a buffer and an expansion of less than 2^31 bytes without a NUL, the
truncation law holds exactly when the size is not 0, or the expansion is empty. -/
theorem vsnprintf_law_iff (hnul : 0 ∉ expandFmt ap 0 fmt)
    (hlen : (expandFmt ap 0 fmt).length < 2 ^ 31) (hsize : size < 2 ^ 64) :
    TruncationLaw ap fmt size ↔ 0 < size ∨ expandFmt ap 0 fmt = [] := by
  constructor
  · intro hlaw
    by_contra hno
    rw [not_or, not_lt, Nat.le_zero] at hno
    obtain ⟨rfl, hne⟩ := hno
    -- a buffer that differs from the expansion in its first byte
    obtain ⟨c, rest, hexpand⟩ := List.exists_cons_of_ne_nil hne
    have hstored := hlaw.inside (fun _ => c + 1) 0 le_rfl
    rw [vsnprintf_zero hnul hlen, hexpand, List.getD_cons_zero] at hstored
    exact absurd hstored (by simp)
  · intro h
    refine ⟨fun buf => vsnprintf_result hnul hlen, fun buf i hi => ?_, fun hpos buf i hi => ?_,
      fun hpos buf => ?_⟩
    · by_cases hpos : 0 < size
      · have hlt : min (expandFmt ap 0 fmt).length (size - 1) < i := by omega
        rw [vsnprintf_buf hnul hpos hsize, if_neg (not_lt.mpr hlt.le), if_neg hlt.ne']
      · obtain rfl := Nat.le_zero.mp (not_lt.mp hpos)
        rw [vsnprintf_zero hnul hlen, h.resolve_left hpos, List.getD_nil]
    · rw [vsnprintf_buf hnul hpos hsize, if_pos hi]
    · rw [vsnprintf_buf hnul hpos hsize, if_neg (lt_irrefl _), if_pos rfl]

end Law

/-- A call without arguments. -/
def noArgs : VaList := VaList.numbers fun _ => 0

theorem expandFmt_letter : expandFmt noArgs 0 ['a'.toUInt8] = ['a'.toUInt8] := by
  rw [expandFmt_char (by decide), expandFmt]

theorem vsnprintf_law_iff_letter : TruncationLaw noArgs ['a'.toUInt8] 4 ↔
    0 < 4 ∨ expandFmt noArgs 0 ['a'.toUInt8] = [] :=
  vsnprintf_law_iff (by rw [expandFmt_letter]; decide) (by rw [expandFmt_letter]; decide) (by decide)

/-- With size 0 the letter is stored in the first byte. -/
theorem vsnprintf_stores_for_zero : ¬ TruncationLaw noArgs ['a'.toUInt8] 0 := by
  intro hlaw
  have hstored := hlaw.inside (fun _ => 0) 0 le_rfl
  rw [vsnprintf_zero (by rw [expandFmt_letter]; decide) (by rw [expandFmt_letter]; decide),
    expandFmt_letter] at hstored
  exact absurd hstored (by decide)

end Lestra
