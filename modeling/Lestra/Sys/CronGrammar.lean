import Mathlib.Data.List.Forall2
import Mathlib.Data.Int.ModEq
import Lestra.Lib.Fields
import Lestra.Sys.Cron

/-!
# The grammar of cron schedules

What `cron_add` (`kernel/sys/cron.c`) takes for a schedule. It reads five fields and no
further, and a numeral of any length in an `int`.

* `Grammatical` — five fields, each `*` or a numeral in its range
* `cron_add_grammar_iff` — the texts on which the parser decides by this grammar
-/

namespace Lestra

open Fields

-- ---------------------------------------------------------------------------
-- The grammar
-- ---------------------------------------------------------------------------

/-- `'0'` to `'9'` -/
def IsDigit (c : UInt8) : Prop := 0x30 ≤ c ∧ c ≤ 0x39

/-- A decimal numeral. -/
def IsNumeral (tok : List UInt8) : Prop := tok ≠ [] ∧ ∀ c ∈ tok, IsDigit c

/-- The number written by the digits of `tok` behind those of `v`. -/
def numeralFrom (v : ℕ) (tok : List UInt8) : ℕ :=
  tok.foldl (fun v c => v * 10 + (c.toNat - 0x30)) v

def numeralValue (tok : List UInt8) : ℕ := numeralFrom 0 tok

/-- The ranges of the fields: minute, hour, day, month and weekday. -/
def fieldRanges : List (ℤ × ℤ) := [(0, 59), (0, 23), (1, 31), (1, 12), (0, 6)]

/-- A field that is `*`, or a numeral that is read as a value in the range. -/
def FieldIn (read : ℕ → ℤ) (range : ℤ × ℤ) (tok : List UInt8) : Prop :=
  tok = [0x2A] ∨ IsNumeral tok ∧ range.1 ≤ read (numeralValue tok) ∧
    read (numeralValue tok) ≤ range.2

/-- Five fields between blanks, each `*` or a numeral whose value is in the range. -/
def Grammatical (s : List UInt8) : Prop :=
  ∃ fs, Spaced isBlank fs s ∧ List.Forall₂ (FieldIn fun v => v) fieldRanges fs

/-- What a field stands for. -/
def FieldDenotes (tok : List UInt8) (v : ℤ) : Prop :=
  tok = [0x2A] ∧ v = cronWildcard ∨ IsNumeral tok ∧ v = numeralValue tok

def CronTask.values (t : CronTask) : List ℤ := [t.minute, t.hour, t.day, t.month, t.weekday]

/-- The task has the values that the text denotes. -/
def CronTask.Denoted (t : CronTask) (s : List UInt8) : Prop :=
  ∃ fs, Spaced isBlank fs s ∧ List.Forall₂ FieldDenotes fs t.values

/-- `cron_add` decides by the grammar: it takes what is grammatical and stores its values,
and what it rejects leaves the active tasks and the next id. -/
structure MeetsGrammar (c : Cron) (slot : Fin cronMaxTasks) (s cmd : List UInt8) : Prop where
  accepts : ((cronAdd c (some s) (some cmd)).1.tasks slot).active = true ↔ Grammatical s
  result : (cronAdd c (some s) (some cmd)).2 =
    if ((cronAdd c (some s) (some cmd)).1.tasks slot).active
    then ((cronAdd c (some s) (some cmd)).1.tasks slot).id else -1
  stores : ((cronAdd c (some s) (some cmd)).1.tasks slot).active = true →
    ((cronAdd c (some s) (some cmd)).1.tasks slot).Denoted s
  rejects : ((cronAdd c (some s) (some cmd)).1.tasks slot).active = false →
    (∀ i, (c.tasks i).active = true → (cronAdd c (some s) (some cmd)).1.tasks i = c.tasks i) ∧
      (cronAdd c (some s) (some cmd)).1.nextId = c.nextId

/-- If the first five fields can be read, numerals taken modulo 2 ^ 32, then there is no
further field and each numeral is below 2 ^ 32. -/
def ReadsExactly (s : List UInt8) : Prop :=
  ∀ fs, Spaced isBlank fs s → List.Forall₂ (FieldIn fun v => toInt32 v) fieldRanges (fs.take 5) →
    fs.length = 5 ∧ ∀ tok ∈ fs, IsNumeral tok → numeralValue tok < 2 ^ 32

-- ---------------------------------------------------------------------------
-- Numerals
-- ---------------------------------------------------------------------------

theorem numeralFrom_cons (v : ℕ) (c : UInt8) (tok : List UInt8) :
    numeralFrom v (c :: tok) = numeralFrom (v * 10 + (c.toNat - 0x30)) tok :=
  List.foldl_cons ..

theorem toInt32_step (v d : ℤ) : toInt32 (toInt32 v * 10 + d) = toInt32 (v * 10 + d) := by
  unfold toInt32
  rw [← Int.bmod_add_bmod, Int.bmod_mul_bmod, Int.bmod_add_bmod]

theorem toInt32_small {v : ℤ} (hlo : -2 ^ 31 ≤ v) (hhi : v < 2 ^ 31) : toInt32 v = v := by
  refine Int.bmod_eq_of_le ?_ ?_
  · norm_num
    omega
  · norm_num
    omega

/-- The loop computes the numeral modulo `2 ^ 32`. -/
theorem parseDigits_eq {tok : List UInt8} (h : ∀ c ∈ tok, IsDigit c) (v : ℕ) :
    parseDigits (toInt32 v) tok = some (toInt32 (numeralFrom v tok)) := by
  induction tok generalizing v with
  | nil => rfl
  | cons c tok ih =>
    rw [List.forall_mem_cons] at h
    have hlo := UInt8.le_iff_toNat_le.mp h.1.1
    have hdigit : ((c.toNat - 0x30 : ℕ) : ℤ) = (c.toNat : ℤ) - 0x30 := Int.ofNat_sub hlo
    have hin : ¬ (c < 0x30 ∨ 0x39 < c) := by
      rw [not_or, UInt8.not_lt, UInt8.not_lt]
      exact h.1
    rw [parseDigits, if_neg hin, toInt32_step, numeralFrom_cons, ← ih h.2, ← hdigit]
    push_cast
    rfl

theorem parseDigits_none {tok : List UInt8} (h : ¬ ∀ c ∈ tok, IsDigit c) (v : ℤ) :
    parseDigits v tok = none := by
  induction tok generalizing v with
  | nil => exact absurd (fun c hc => nomatch hc) h
  | cons c tok ih =>
    rw [parseDigits]
    split
    · rfl
    · next hc =>
      refine ih (fun htok => h (List.forall_mem_cons.mpr ⟨?_, htok⟩)) _
      rw [not_or, UInt8.not_lt, UInt8.not_lt] at hc
      exact hc

-- ---------------------------------------------------------------------------
-- Fields
-- ---------------------------------------------------------------------------

theorem not_numeral_star : ¬ IsNumeral [0x2A] := fun h =>
  absurd (h.2 0x2A (List.mem_singleton_self _)).1 (by decide)

theorem parseField_numeral {tok : List UInt8} (h : IsNumeral tok) (lo hi : ℤ) :
    parseField tok lo hi =
      if toInt32 (numeralValue tok) < lo ∨ hi < toInt32 (numeralValue tok) then -2
      else toInt32 (numeralValue tok) := by
  have hstar : tok ≠ [0x2A] := fun heq => not_numeral_star (heq ▸ h)
  have hzero : (0 : ℤ) = toInt32 (0 : ℕ) := rfl
  rw [parseField, if_neg hstar, hzero, parseDigits_eq h.2]
  dsimp only
  rw [if_neg h.1]
  rfl

/-- A field that is neither `*` nor a numeral is an error. -/
theorem parseField_bad {tok : List UInt8} (hstar : tok ≠ [0x2A]) (h : ¬ IsNumeral tok)
    (lo hi : ℤ) : parseField tok lo hi = -2 := by
  rw [parseField, if_neg hstar]
  by_cases hall : ∀ c ∈ tok, IsDigit c
  · have hnil : tok = [] := by
      by_contra hne
      exact h ⟨hne, hall⟩
    rw [hnil]
    rfl
  · rw [parseDigits_none hall]

/-- What the field parser takes, and the value it returns. -/
theorem parseField_reads {lo : ℤ} (hlo : 0 ≤ lo) (hi : ℤ) (tok : List UInt8) :
    ¬ parseField tok lo hi < -1 ↔ FieldIn (fun v => toInt32 v) (lo, hi) tok := by
  unfold FieldIn
  by_cases hstar : tok = [0x2A]
  · refine iff_of_true ?_ (.inl hstar)
    rw [parseField, if_pos hstar]
    decide
  · rw [or_iff_right hstar]
    by_cases hnum : IsNumeral tok
    · rw [parseField_numeral hnum, and_iff_right hnum]
      dsimp only
      split
      · next hout =>
        refine iff_of_false (by norm_num) fun hin => ?_
        omega
      · next hin => omega
    · rw [parseField_bad hstar hnum]
      exact iff_of_false (by norm_num) fun hin => hnum hin.1

theorem parseField_star (lo hi : ℤ) : parseField [0x2A] lo hi = cronWildcard := rfl

/-- What is read is what is denoted, for numerals below `2 ^ 32`. -/
theorem fieldIn_exact {range : ℤ × ℤ} (hlo : 0 ≤ range.1) (hhi : range.2 < 2 ^ 31)
    (tok : List UInt8) :
    FieldIn (fun v => v) range tok ↔
      FieldIn (fun v => toInt32 v) range tok ∧ (IsNumeral tok → numeralValue tok < 2 ^ 32) := by
  unfold FieldIn
  dsimp only
  constructor
  · rintro (rfl | ⟨hnum, hge, hle⟩)
    · exact ⟨.inl rfl, fun h => absurd h not_numeral_star⟩
    · have hsmall : toInt32 (numeralValue tok) = numeralValue tok :=
        toInt32_small (by omega) (by omega)
      rw [hsmall]
      exact ⟨.inr ⟨hnum, hge, hle⟩, fun _ => by omega⟩
  · rintro ⟨rfl | ⟨hnum, hge, hle⟩, hbound⟩
    · exact .inl rfl
    · have hlt := hbound hnum
      have hsmall : toInt32 (numeralValue tok) = numeralValue tok := by
        refine toInt32_small (by omega) ?_
        by_contra hbig
        -- the upper half of the range is read as a negative number
        have hneg : toInt32 (numeralValue tok) < 0 := by
          rw [toInt32, Int.bmod_def, if_neg]
          · norm_num
            omega
          · norm_num
            omega
        omega
      rw [hsmall] at hge hle
      exact .inr ⟨hnum, hge, hle⟩

theorem fieldsIn_exact {ranges : List (ℤ × ℤ)} {fs : List (List UInt8)}
    (hranges : ∀ r ∈ ranges, 0 ≤ r.1 ∧ r.2 < 2 ^ 31) :
    List.Forall₂ (FieldIn fun v => v) ranges fs ↔
      List.Forall₂ (FieldIn fun v => toInt32 v) ranges fs ∧
        ∀ tok ∈ fs, IsNumeral tok → numeralValue tok < 2 ^ 32 := by
  induction ranges generalizing fs with
  | nil =>
    rw [List.forall₂_nil_left_iff, List.forall₂_nil_left_iff]
    exact ⟨fun h => ⟨h, by rw [h]; exact nofun⟩, And.left⟩
  | cons r ranges ih =>
    rw [List.forall_mem_cons] at hranges
    cases fs with
    | nil => exact iff_of_false nofun fun h => nomatch h.1
    | cons tok fs =>
      rw [List.forall₂_cons, List.forall₂_cons, List.forall_mem_cons, ih hranges.2,
        fieldIn_exact hranges.1.1 hranges.1.2]
      tauto

theorem fieldRanges_small : ∀ r ∈ fieldRanges, 0 ≤ r.1 ∧ r.2 < 2 ^ 31 := by decide

/-- A field that is read denotes the value that is stored. -/
theorem parseField_denotes {range : ℤ × ℤ} {tok : List UInt8}
    (h : FieldIn (fun v => v) range tok) (hhi : range.2 < 2 ^ 31) :
    FieldDenotes tok (parseField tok range.1 range.2) := by
  unfold FieldIn at h
  dsimp only at h
  rcases h with rfl | ⟨hnum, hge, hle⟩
  · exact .inl ⟨rfl, parseField_star _ _⟩
  · have hsmall : toInt32 (numeralValue tok) = numeralValue tok :=
      toInt32_small (by omega) (by omega)
    refine .inr ⟨hnum, ?_⟩
    rw [parseField_numeral hnum, hsmall]
    exact if_neg (by omega)

-- ---------------------------------------------------------------------------
-- The schedule
-- ---------------------------------------------------------------------------

theorem splitFields_eq (n : ℕ) (s : List UInt8) : splitFields n s = cut isBlank n s := by
  induction n generalizing s with
  | zero => rfl
  | succ n ih =>
    rw [splitFields, cut]
    split
    · next h => rw [h]
    · next hne =>
      split
      · next h => exact absurd h hne
      · rw [ih]

/-- The values that are read from the fields. -/
def fieldValues (fs : List (List UInt8)) : List ℤ :=
  List.zipWith (fun r tok => parseField tok r.1 r.2) fieldRanges fs

/-- The parser takes a text whose first five fields can be read. -/
theorem parseSchedule_result (t : CronTask) {s : List UInt8} (hlen : s.length < cronStrLen) :
    (List.Forall₂ (FieldIn fun v => toInt32 v) fieldRanges (cut isBlank 5 s) ∧
      (parseSchedule t s).2 = 0 ∧
      (parseSchedule t s).1.values = fieldValues (cut isBlank 5 s)) ∨
    (¬ List.Forall₂ (FieldIn fun v => toInt32 v) fieldRanges (cut isBlank 5 s) ∧
      (parseSchedule t s).2 = -1) := by
  rw [parseSchedule, if_neg (not_le.mpr hlen), splitFields_eq]
  split
  · next f0 f1 f2 f3 f4 heq =>
    have hreads : List.Forall₂ (FieldIn fun v => toInt32 v) fieldRanges [f0, f1, f2, f3, f4] ↔
        ¬ parseField f0 0 59 < -1 ∧ ¬ parseField f1 0 23 < -1 ∧ ¬ parseField f2 1 31 < -1 ∧
          ¬ parseField f3 1 12 < -1 ∧ ¬ parseField f4 0 6 < -1 := by
      rw [parseField_reads le_rfl, parseField_reads le_rfl, parseField_reads zero_le_one,
        parseField_reads zero_le_one, parseField_reads le_rfl, fieldRanges, List.forall₂_cons,
        List.forall₂_cons, List.forall₂_cons, List.forall₂_cons, List.forall₂_cons,
        and_iff_left List.Forall₂.nil]
    rw [heq, hreads]
    dsimp only
    split_ifs with h0 h1 h2 h3 h4
    · exact .inr ⟨fun h => h.1 h0, rfl⟩
    · exact .inr ⟨fun h => h.2.1 h1, rfl⟩
    · exact .inr ⟨fun h => h.2.2.1 h2, rfl⟩
    · exact .inr ⟨fun h => h.2.2.2.1 h3, rfl⟩
    · exact .inr ⟨fun h => h.2.2.2.2 h4, rfl⟩
    · exact .inl ⟨⟨h0, h1, h2, h3, h4⟩, rfl, rfl⟩
  · next hne =>
    refine .inr ⟨fun h => ?_, rfl⟩
    obtain ⟨f0, l0, -, h0, e0⟩ := List.forall₂_cons_left_iff.mp h
    obtain ⟨f1, l1, -, h1, e1⟩ := List.forall₂_cons_left_iff.mp h0
    obtain ⟨f2, l2, -, h2, e2⟩ := List.forall₂_cons_left_iff.mp h1
    obtain ⟨f3, l3, -, h3, e3⟩ := List.forall₂_cons_left_iff.mp h2
    obtain ⟨f4, l4, -, h4, e4⟩ := List.forall₂_cons_left_iff.mp h3
    rw [List.forall₂_nil_left_iff] at h4
    rw [e1, e2, e3, e4, h4] at e0
    exact hne f0 f1 f2 f3 f4 e0

/-- The values of a grammatical text are those that it denotes. -/
theorem fieldValues_denoted {fs : List (List UInt8)}
    (h : List.Forall₂ (FieldIn fun v => v) fieldRanges fs) :
    List.Forall₂ FieldDenotes fs (fieldValues fs) := by
  have hall : ∀ ranges : List (ℤ × ℤ), (∀ r ∈ ranges, r.2 < 2 ^ 31) → ∀ fs,
      List.Forall₂ (FieldIn fun v => v) ranges fs →
      List.Forall₂ FieldDenotes fs
        (List.zipWith (fun r tok => parseField tok r.1 r.2) ranges fs) := by
    intro ranges hranges fs h
    induction h with
    | nil => exact .nil
    | cons htok _ ih =>
      rw [List.forall_mem_cons] at hranges
      exact .cons (parseField_denotes htok hranges.1) (ih hranges.2)
  exact hall fieldRanges (fun r hr => (fieldRanges_small r hr).2) fs h

/-- A text is grammatical when it is read as it stands. -/
theorem grammatical_iff {fs : List (List UInt8)} {s : List UInt8} (hfs : Spaced isBlank fs s) :
    Grammatical s ↔
      List.Forall₂ (FieldIn fun v => toInt32 v) fieldRanges (fs.take 5) ∧ fs.length = 5 ∧
        ∀ tok ∈ fs, IsNumeral tok → numeralValue tok < 2 ^ 32 := by
  constructor
  · rintro ⟨gs, hgs, hin⟩
    obtain rfl := hgs.unique hfs
    have hlen : gs.length = 5 := hin.length_eq.symm
    rw [List.take_of_length_le hlen.le]
    obtain ⟨hreads, hsmall⟩ := (fieldsIn_exact fieldRanges_small).mp hin
    exact ⟨hreads, hlen, hsmall⟩
  · rintro ⟨hreads, hlen, hsmall⟩
    rw [List.take_of_length_le hlen.le] at hreads
    exact ⟨fs, hfs, (fieldsIn_exact fieldRanges_small).mpr ⟨hreads, hsmall⟩⟩

-- ---------------------------------------------------------------------------
-- Adding a task
-- ---------------------------------------------------------------------------

theorem freeSlot_free {c : Cron} {slot : Fin cronMaxTasks} (h : freeSlot c = some slot) :
    (c.tasks slot).active = false := by
  have := List.find?_some h
  simpa using this

section Add

variable {c : Cron} {slot : Fin cronMaxTasks} {s cmd : List UInt8}

/-- A task is added in the free slot when the parser takes the text. -/
theorem cronAdd_taken (hinit : c.initialized = true) (hfree : freeSlot c = some slot)
    (hs : s.length < cronStrLen) (hcmd : cmd.length < cronStrLen)
    (h : (parseSchedule CronTask.zero s).2 = 0) :
    ((cronAdd c (some s) (some cmd)).1.tasks slot).active = true ∧
      ((cronAdd c (some s) (some cmd)).1.tasks slot).values =
        (parseSchedule CronTask.zero s).1.values ∧
      (cronAdd c (some s) (some cmd)).2 = ((cronAdd c (some s) (some cmd)).1.tasks slot).id := by
  have hlens : ¬ (cronStrLen ≤ s.length ∨ cronStrLen ≤ cmd.length) :=
    not_or.mpr ⟨not_le.mpr hs, not_le.mpr hcmd⟩
  simp only [cronAdd, hinit, Bool.not_true, Bool.false_eq_true, if_false, hfree, if_neg hlens, h,
    ne_eq, not_true_eq_false, Function.update_self, true_and, and_true]
  rfl

/-- A text that the parser rejects leaves the slot free and all else as it was. -/
theorem cronAdd_rejected (hinit : c.initialized = true) (hfree : freeSlot c = some slot)
    (hs : s.length < cronStrLen) (hcmd : cmd.length < cronStrLen)
    (h : (parseSchedule CronTask.zero s).2 = -1) :
    ((cronAdd c (some s) (some cmd)).1.tasks slot).active = false ∧
      (∀ i ≠ slot, (cronAdd c (some s) (some cmd)).1.tasks i = c.tasks i) ∧
      (cronAdd c (some s) (some cmd)).1.nextId = c.nextId ∧
      (cronAdd c (some s) (some cmd)).2 = -1 := by
  have hlens : ¬ (cronStrLen ≤ s.length ∨ cronStrLen ≤ cmd.length) :=
    not_or.mpr ⟨not_le.mpr hs, not_le.mpr hcmd⟩
  have hne : ¬ (-1 : ℤ) = 0 := by decide
  simp only [cronAdd, hinit, Bool.not_true, Bool.false_eq_true, if_false, hfree, if_neg hlens, h,
    ne_eq, hne, not_false_eq_true, if_true, Function.update_self, and_true]
  exact ⟨(parseSchedule_frame CronTask.zero s).1, fun i hi => Function.update_of_ne hi _ _⟩

/-- **The grammar of schedules.** For a schedule and a command of at most 127 bytes and a
table with a free slot, `cron_add` decides by the grammar exactly when the text is read
exactly: whenever the first five fields can be read modulo 2 ^ 32, there is no sixth field
and no numeral from 2 ^ 32 on. -/
theorem cron_add_grammar_iff (hinit : c.initialized = true) (hfree : freeSlot c = some slot)
    (hs : s.length < cronStrLen) (hcmd : cmd.length < cronStrLen) :
    MeetsGrammar c slot s cmd ↔ ReadsExactly s := by
  obtain ⟨fs, hfs⟩ := exists_spaced isBlank s
  have hcut : cut isBlank 5 s = fs.take 5 := hfs.cut_eq 5
  have hresult := parseSchedule_result CronTask.zero hs
  rw [hcut] at hresult
  have hexactly : ReadsExactly s ↔
      (List.Forall₂ (FieldIn fun v => toInt32 v) fieldRanges (fs.take 5) →
        fs.length = 5 ∧ ∀ tok ∈ fs, IsNumeral tok → numeralValue tok < 2 ^ 32) :=
    ⟨fun h => h fs hfs, fun h gs hgs => by rw [hgs.unique hfs]; exact h⟩
  rw [hexactly]
  rcases hresult with ⟨hreads, hok, hvalues⟩ | ⟨hbad, hfail⟩
  · obtain ⟨hactive, hstored, hid⟩ := cronAdd_taken hinit hfree hs hcmd hok
    constructor
    · intro hmeets _
      exact ((grammatical_iff hfs).mp (hmeets.accepts.mp hactive)).2
    · intro h
      have hgram := (grammatical_iff hfs).mpr ⟨hreads, h hreads⟩
      refine ⟨iff_of_true hactive hgram, by rw [if_pos hactive, hid], fun _ => ⟨fs, hfs, ?_⟩,
        fun hfalse => absurd (hfalse.symm.trans hactive) Bool.false_ne_true⟩
      obtain ⟨gs, hgs, hin⟩ := hgram
      obtain rfl := hgs.unique hfs
      rw [hstored, hvalues, List.take_of_length_le (h hreads).1.le]
      exact fieldValues_denoted hin
  · obtain ⟨hinactive, hothers, hnext, hret⟩ := cronAdd_rejected hinit hfree hs hcmd hfail
    refine iff_of_true ?_ fun hreads => absurd hreads hbad
    refine ⟨iff_of_false (by rw [hinactive]; exact Bool.false_ne_true) fun hgram =>
        hbad ((grammatical_iff hfs).mp hgram).1,
      by rw [hret, if_neg (by rw [hinactive]; exact Bool.false_ne_true)],
      fun htrue => absurd (hinactive.symm.trans htrue) Bool.false_ne_true,
      fun _ => ⟨fun i hi => hothers i fun heq => ?_, hnext⟩⟩
    rw [heq, freeSlot_free hfree] at hi
    exact Bool.false_ne_true hi

end Add

/-- The first slot. -/
def cronFirst : Fin cronMaxTasks := ⟨0, by decide⟩

/-- `* * * * *` -/
def everyMinute : List UInt8 := [0x2A, 0x20, 0x2A, 0x20, 0x2A, 0x20, 0x2A, 0x20, 0x2A]

theorem cron_add_grammar_iff_everyMinute :
    MeetsGrammar cronInit cronFirst everyMinute [0x78] ↔ ReadsExactly everyMinute :=
  cron_add_grammar_iff rfl (by decide) (by decide) (by decide)

/-- `* * * * * *` -/
def sixFields : List UInt8 := everyMinute ++ [0x20, 0x2A]

/-- `4294967296 * * * *` -/
def wrappedMinute : List UInt8 :=
  [0x34, 0x32, 0x39, 0x34, 0x39, 0x36, 0x37, 0x32, 0x39, 0x36] ++ everyMinute.tail

/-- A sixth field is not looked at, and `2 ^ 32` is read as 0. -/
theorem cron_add_ungrammatical :
    ¬ MeetsGrammar cronInit cronFirst sixFields [0x78] ∧
      ¬ MeetsGrammar cronInit cronFirst wrappedMinute [0x78] := by
  constructor
  · intro hmeets
    obtain ⟨fs, hfs, hin⟩ := hmeets.accepts.mp (by decide)
    have hcut : (cut isBlank 6 sixFields).length = 6 := by decide
    rw [hfs.cut_eq, List.length_take, ← hin.length_eq] at hcut
    exact absurd hcut (by decide)
  · intro hmeets
    obtain ⟨fs, hfs, hin⟩ := hmeets.accepts.mp (by decide)
    have hfirst : (cut isBlank 1 wrappedMinute).head? = some (wrappedMinute.take 10) := by decide
    obtain ⟨tok, rest, hstar | ⟨-, -, hle⟩, -, rfl⟩ := List.forall₂_cons_left_iff.mp hin
    · rw [hfs.cut_eq, List.take_succ_cons, List.head?_cons, hstar] at hfirst
      exact absurd hfirst (by decide)
    · rw [hfs.cut_eq, List.take_succ_cons, List.head?_cons, Option.some.injEq] at hfirst
      rw [hfirst] at hle
      exact absurd hle (by decide)

end Lestra
