import Mathlib.Data.List.DropRight
import Lestra.Drivers.PtyOutput

/-!
# The line discipline of a PTY

* `RefDisc` — the reference line discipline: a queue without bounds of what is committed, and
  the line being edited
* `Typed` — what a byte does to the three stores of the code: ring, line buffer and EOF flag
* `Represents` — the ring and the flag hold a queue of the reference
* `ptyInputProcess_represents` — a byte that is safe keeps this
-/

namespace Lestra

open PtySys

-- ---------------------------------------------------------------------------
-- The reference
-- ---------------------------------------------------------------------------

/-- What a reader gets: a part of the input, or the end of the file. -/
inductive RefItem where
  | bytes (bs : List UInt8)
  | eof
  deriving DecidableEq

/-- The reference discipline: everything committed, in order, and the line being edited. -/
structure RefDisc where
  queue : List RefItem
  line : List UInt8
  deriving DecidableEq

namespace RefDisc

/-- Whether a mode is on. -/
def on (modes mode : UInt32) : Bool := modes &&& mode != 0

def isSignal (modes : UInt32) (ch : UInt8) : Prop :=
  on modes ptyIsig = true ∧ (ch = ptyVintr ∨ ch = ptyVsusp ∨ ch = ptyVquit)

instance (modes : UInt32) (ch : UInt8) : Decidable (isSignal modes ch) :=
  inferInstanceAs (Decidable (_ ∧ _))

/-- The mapping of CR. -/
def mapChar (modes : UInt32) (ch : UInt8) : UInt8 :=
  if on modes ptyIcrnl ∧ ch = ptyCr then ptyNl else ch

/-- The end of the line back to the last word's beginning. -/
def eraseWord (line : List UInt8) : List UInt8 :=
  (line.rdropWhile (· == 0x20)).rdropWhile (· != 0x20)

/-- One byte of input. -/
def feed (modes : UInt32) (d : RefDisc) (ch : UInt8) : RefDisc :=
  if isSignal modes ch then { d with line := [] }
  else if on modes ptyIcanon then
    if ch = ptyVeof then
      if d.line = [] then { d with queue := d.queue ++ [.eof] }
      else ⟨d.queue ++ [.bytes d.line], []⟩
    else if ch = ptyVerase ∨ ch = ptyVbs then { d with line := d.line.dropLast }
    else if ch = ptyVwerase then { d with line := eraseWord d.line }
    else if ch = ptyVkill then { d with line := [] }
    else if mapChar modes ch = ptyNl then ⟨d.queue ++ [.bytes (d.line ++ [ptyNl])], []⟩
    else { d with line := d.line ++ [mapChar modes ch] }
  else { d with queue := d.queue ++ [.bytes [mapChar modes ch]] }

/-- The discipline applied to all the input there was. -/
def feedAll (modes : UInt32) (input : List UInt8) : RefDisc := input.foldl (feed modes) ⟨[], []⟩

/-- A read in canonical mode, `none` if there is nothing to read: at most `count` bytes of the
first item. -/
def read : List RefItem → ℕ → Option (List UInt8 × List RefItem)
  | [], _ => none
  | .eof :: rest, _ => some ([], rest)
  | .bytes bs :: rest, count =>
    some (bs.take count, if bs.length ≤ count then rest else .bytes (bs.drop count) :: rest)

/-- Reads in order: their results, and what is left. -/
def reads : List RefItem → List ℕ → Option (List (List UInt8) × List RefItem)
  | queue, [] => some ([], queue)
  | queue, count :: counts =>
    (read queue count).bind fun r => (reads r.2 counts).map fun rs => (r.1 :: rs.1, rs.2)

/-- The bytes in a queue. -/
def flat (queue : List RefItem) : List UInt8 :=
  queue.flatMap fun item => match item with
    | .bytes bs => bs
    | .eof => []

/-- What comes later does not change a read that found something. -/
theorem read_append {queue queue' : List RefItem} {count : ℕ} {bs : List UInt8}
    (h : read queue count = some (bs, queue')) (items : List RefItem) :
    read (queue ++ items) count = some (bs, queue' ++ items) := by
  rcases queue with _ | ⟨_ | _, rest⟩
  · exact nomatch h
  · rename_i first
    obtain ⟨rfl, rfl⟩ := Prod.mk.inj (Option.some.inj h)
    rw [List.cons_append, read]
    split <;> rfl
  · obtain ⟨rfl, rfl⟩ := Prod.mk.inj (Option.some.inj h)
    rfl

theorem reads_append {queue queue' : List RefItem} {counts : List ℕ} {results : List (List UInt8)}
    (h : reads queue counts = some (results, queue')) (items : List RefItem) :
    reads (queue ++ items) counts = some (results, queue' ++ items) := by
  induction counts generalizing queue results with
  | nil =>
    obtain ⟨rfl, rfl⟩ := Prod.mk.inj (Option.some.inj h)
    rfl
  | cons count counts ih =>
    obtain ⟨⟨bs, middle⟩, hread, hrest⟩ := Option.bind_eq_some_iff.mp h
    obtain ⟨⟨rs, left⟩, hreads, heq⟩ := Option.map_eq_some_iff.mp hrest
    obtain ⟨rfl, rfl⟩ := Prod.mk.inj heq
    rw [reads, read_append hread items, Option.bind_some, ih hreads, Option.map_some]

/-- One read more. -/
theorem reads_concat {queue queue' queue'' : List RefItem} {counts : List ℕ} {count : ℕ}
    {results : List (List UInt8)} {bs : List UInt8}
    (h : reads queue counts = some (results, queue')) (hread : read queue' count = some (bs, queue'')) :
    reads queue (counts ++ [count]) = some (results ++ [bs], queue'') := by
  induction counts generalizing queue results with
  | nil =>
    obtain ⟨rfl, rfl⟩ := Prod.mk.inj (Option.some.inj h)
    rw [List.nil_append, reads, hread]
    rfl
  | cons c counts ih =>
    obtain ⟨⟨first, middle⟩, hfirst, hrest⟩ := Option.bind_eq_some_iff.mp h
    obtain ⟨⟨rs, left⟩, hreads, heq⟩ := Option.map_eq_some_iff.mp hrest
    obtain ⟨rfl, rfl⟩ := Prod.mk.inj heq
    rw [List.cons_append, reads, hfirst, Option.bind_some, ih hreads]
    rfl

theorem feedAll_append (modes : UInt32) (input : List UInt8) (ch : UInt8) :
    feedAll modes (input ++ [ch]) = feed modes (feedAll modes input) ch := by
  rw [feedAll, feedAll, List.foldl_append]
  rfl

end RefDisc

-- ---------------------------------------------------------------------------
-- What a byte does to the stores
-- ---------------------------------------------------------------------------

/-- From `s` to `s'` nothing that the input depends on has changed but the three stores, which
are now these. -/
structure Typed (s s' : PtySys) (input : ByteRing) (line : List UInt8) (eof : Bool) : Prop extends
    SameSetup s s' where
  input : s'.pty.slaveInput = input
  line : s'.pty.line = line
  eof : s'.pty.eofPending = eof
  calls : s'.calls = s.calls

namespace Typed

variable {s s' s'' : PtySys} {r r' : ByteRing} {line line' : List UInt8} {eof eof' : Bool}

theorem refl (s : PtySys) : Typed s s s.pty.slaveInput s.pty.line s.pty.eofPending :=
  ⟨⟨rfl, rfl, rfl, rfl⟩, rfl, rfl, rfl, rfl⟩

theorem trans (h : Typed s s' r line eof) (h' : Typed s' s'' r' line' eof') :
    Typed s s'' r' line' eof' :=
  ⟨h.toSameSetup.trans h'.toSameSetup, h'.input, h'.line, h'.eof, h'.calls.trans h.calls⟩

theorem wake (h : Typed s s' r line eof) (w : PtyWaiter) : Typed s (s'.wake w) r line eof :=
  ⟨⟨(wake_inUse ..).trans h.inUse, (wake_masterOpen ..).trans h.masterOpen,
    (wake_slaveOpen ..).trans h.slaveOpen, (wake_termModes ..).trans h.modes⟩,
    (wake_slaveInput ..).trans h.input, (wake_line ..).trans h.line,
    (wake_eofPending ..).trans h.eof, (wake_calls ..).trans h.calls⟩

theorem output (h : Typed s s' r line eof) (bytes : List UInt8) :
    Typed s (s'.output bytes) r line eof :=
  ⟨⟨h.inUse, h.masterOpen, h.slaveOpen, h.modes⟩, h.input, h.line, h.eof, h.calls⟩

theorem setLine (h : Typed s s' r line eof) (line' : List UInt8) :
    Typed s (s'.setLine line') r line' eof :=
  ⟨⟨h.inUse, h.masterOpen, h.slaveOpen, h.modes⟩, h.input, rfl, h.eof, h.calls⟩

theorem setEof (h : Typed s s' r line eof) (eof' : Bool) : Typed s (s'.setEof eof') r line eof' :=
  ⟨⟨h.inUse, h.masterOpen, h.slaveOpen, h.modes⟩, h.input, h.line, rfl, h.calls⟩

theorem write (h : Typed s s' r line eof) (bytes : List UInt8) :
    Typed s (s'.input bytes) (ringBufWrite r bytes).1 line eof := by
  refine ⟨⟨h.inUse, h.masterOpen, h.slaveOpen, h.modes⟩, ?_, h.line, h.eof, h.calls⟩
  rw [← h.input]
  rfl

theorem echoChar (h : Typed s s' r line eof) (ch : UInt8) :
    Typed s (ptyEchoChar s' ch) r line eof := by
  unfold ptyEchoChar
  split
  · exact h
  split
  · exact (h.output _).output _
  split
  · exact (h.output _).output _
  · exact h.output _

theorem echoErase (h : Typed s s' r line eof) : Typed s (ptyEchoErase s') r line eof := by
  unfold ptyEchoErase
  split
  · exact h
  split
  · exact h.output _
  · exact h.output _

end Typed

section Bytes

variable (s : PtySys)

theorem ptySignal_typed (ch : UInt8) (signum : ℕ) :
    Typed s (ptySignal s ch signum) s.pty.slaveInput [] false := by
  have hecho : Typed s (ptyEchoSignal s ch) s.pty.slaveInput s.pty.line s.pty.eofPending := by
    unfold ptyEchoSignal
    split
    · exact Typed.refl s
    · exact (Typed.refl s).output _
  have hgroup : Typed s (ptySendSignalGroup (ptyEchoSignal s ch) signum) s.pty.slaveInput s.pty.line
      s.pty.eofPending := by
    unfold ptySendSignalGroup
    split
    · exact hecho
    · exact ⟨⟨hecho.inUse, hecho.masterOpen, hecho.slaveOpen, hecho.modes⟩, hecho.input, hecho.line,
        hecho.eof, hecho.calls⟩
  exact ((hgroup.setLine []).setEof false).wake _

theorem ptyEof_typed : Typed s (ptyEof s)
    (if s.pty.line = [] then s.pty.slaveInput else (ringBufWrite s.pty.slaveInput s.pty.line).1) []
    (if s.pty.line = [] then true else s.pty.eofPending) := by
  unfold ptyEof
  by_cases hline : s.pty.line = []
  · rw [if_neg (not_not.mpr hline), if_pos hline, if_pos hline]
    have heof := ((Typed.refl s).setEof true).wake .slaveRead
    rwa [hline] at heof
  · rw [if_pos hline, if_neg hline, if_neg hline]
    exact (((Typed.refl s).write _).setLine []).wake _

theorem ptyErase_typed :
    Typed s (ptyErase s) s.pty.slaveInput s.pty.line.dropLast s.pty.eofPending := by
  unfold ptyErase
  by_cases hline : s.pty.line = []
  · rw [if_neg (not_not.mpr hline)]
    have hsame := Typed.refl s
    rwa [hline] at hsame ⊢
  · rw [if_pos hline]
    exact ((Typed.refl s).setLine _).echoErase

theorem ptyEraseWhile_typed (p : UInt8 → Bool) (fuel : ℕ) (s : PtySys)
    (hfuel : s.pty.line.length ≤ fuel) :
    Typed s (ptyEraseWhile p fuel s) s.pty.slaveInput (s.pty.line.rdropWhile p) s.pty.eofPending := by
  induction fuel generalizing s with
  | zero =>
    have hline : s.pty.line = [] := List.length_eq_zero_iff.mp (Nat.le_zero.mp hfuel)
    have hsame := Typed.refl s
    rw [hline] at hsame ⊢
    exact hsame
  | succ fuel ih =>
    unfold ptyEraseWhile
    rcases List.eq_nil_or_concat' s.pty.line with hline | ⟨rest, c, hline⟩
    · have hsame := Typed.refl s
      rw [hline] at hsame ⊢
      exact hsame
    · have hlast : s.pty.line.getLast? = some c := by rw [hline, List.getLast?_concat]
      rw [hlast]
      dsimp only
      by_cases hc : p c = true
      · have herase := ptyErase_typed s
        rw [hline, List.dropLast_concat] at herase
        have hrest : (ptyErase s).pty.line.length ≤ fuel := by
          rw [herase.line]
          rw [hline, List.length_append] at hfuel
          exact Nat.le_of_succ_le_succ hfuel
        have hmore := ih (ptyErase s) hrest
        rw [if_pos hc, hline, List.rdropWhile_concat_pos _ _ _ hc]
        rw [herase.line, herase.input, herase.eof] at hmore
        exact herase.trans hmore
      · have hsame := Typed.refl s
        rw [if_neg hc]
        rw [hline] at hsame ⊢
        rwa [List.rdropWhile_concat_neg _ _ _ hc]

theorem ptyWordErase_typed : Typed s (ptyWordErase s) s.pty.slaveInput
    (RefDisc.eraseWord s.pty.line) s.pty.eofPending := by
  have hblanks := ptyEraseWhile_typed (· == 0x20) s.pty.line.length s le_rfl
  unfold ptyWordErase
  dsimp only
  generalize ptyEraseWhile (· == 0x20) s.pty.line.length s = blanks at hblanks ⊢
  have hword := ptyEraseWhile_typed (· != 0x20) blanks.pty.line.length blanks le_rfl
  rw [hblanks.input, hblanks.eof] at hword
  rw [RefDisc.eraseWord, ← hblanks.line]
  exact hblanks.trans hword

theorem ptyKill_typed : Typed s (ptyKill s) s.pty.slaveInput [] s.pty.eofPending := by
  have herase : ∀ n, Typed s (ptyEchoErase^[n] s) s.pty.slaveInput s.pty.line s.pty.eofPending := by
    intro n
    induction n with
    | zero => exact Typed.refl s
    | succ n ih =>
      rw [Function.iterate_succ_apply']
      exact ih.echoErase
  unfold ptyKill
  dsimp only
  split
  · exact ((Typed.refl s).output _).setLine []
  split
  · exact (herase _).setLine []
  · exact (Typed.refl s).setLine []

theorem ptyNewline_typed (hroom : s.pty.line.length < ptyBufferSize - 1) : Typed s (ptyNewline s)
    (ringBufWrite s.pty.slaveInput (s.pty.line ++ [ptyNl])).1 [] false := by
  unfold ptyNewline
  rw [if_pos hroom]
  dsimp only
  have hinput : ∀ b : Prop, [Decidable b] → Typed s
      (if b then (s.input (s.pty.line ++ [ptyNl])).wake .slaveRead
        else s.input (s.pty.line ++ [ptyNl]))
      (ringBufWrite s.pty.slaveInput (s.pty.line ++ [ptyNl])).1 s.pty.line s.pty.eofPending := by
    intro b _
    split
    · exact ((Typed.refl s).write _).wake _
    · exact (Typed.refl s).write _
  have hwoken := hinput (0 < (ringBufWrite s.pty.slaveInput (s.pty.line ++ [ptyNl])).2)
  generalize (if 0 < (ringBufWrite s.pty.slaveInput (s.pty.line ++ [ptyNl])).2 then
      (s.input (s.pty.line ++ [ptyNl])).wake .slaveRead
        else s.input (s.pty.line ++ [ptyNl])) = woken at hwoken ⊢
  split
  · exact (((hwoken.output _).wake _).setLine []).setEof false
  · exact (hwoken.setLine []).setEof false

theorem ptyLineChar_typed (hroom : s.pty.line.length < ptyBufferSize - 1) (ch : UInt8) :
    Typed s (ptyLineChar s ch) s.pty.slaveInput (s.pty.line ++ [ch]) s.pty.eofPending := by
  unfold ptyLineChar
  rw [if_neg (Nat.not_le.mpr hroom)]
  dsimp only
  have hadd := ((Typed.refl s).setLine (s.pty.line ++ [ch])).echoChar ch
  split
  · exact hadd.wake _
  · exact hadd

theorem ptyRawChar_typed (ch : UInt8) : Typed s (ptyRawChar s ch)
    (ringBufWrite s.pty.slaveInput [ch]).1 s.pty.line s.pty.eofPending := by
  have hwrite := (Typed.refl s).write [ch]
  unfold ptyRawChar
  dsimp only
  split
  · exact ((hwrite.echoChar ch).wake _).wake _
  · exact hwrite.wake _

end Bytes

-- ---------------------------------------------------------------------------
-- Queues in the ring
-- ---------------------------------------------------------------------------

/-- A part of the input that ends at its first newline or has none. -/
structure Chunk (c : List UInt8) : Prop where
  ne_nil : c ≠ []
  inner : ptyNl ∉ c.dropLast

def Ended (c : List UInt8) : Prop := c.getLast? = some ptyNl

/-- Parts that the ring tells apart: each but the last ends in a newline. -/
structure Lines (cs : List (List UInt8)) : Prop where
  chunk : ∀ c ∈ cs, Chunk c
  ended : ∀ c ∈ cs.dropLast, Ended c

/-- The ring and the EOF flag hold this queue. -/
def Represents (r : ByteRing) (eof : Bool) (queue : List RefItem) : Prop :=
  ∃ cs, Lines cs ∧ r.bytes = cs.flatten ∧ queue = cs.map .bytes ++ if eof then [.eof] else []

theorem chunk_ended {line : List UInt8} (hline : ptyNl ∉ line) : Chunk (line ++ [ptyNl]) :=
  ⟨by simp, by rwa [List.dropLast_concat]⟩

theorem chunk_open {line : List UInt8} (hline : ptyNl ∉ line) (hne : line ≠ []) : Chunk line :=
  ⟨hne, fun hin => hline (List.dropLast_subset line hin)⟩

/-- What is left of a part after some of it is read. -/
theorem Chunk.drop {c : List UInt8} (h : Chunk c) {n : ℕ} (hn : n < c.length) :
    Chunk (c.drop n) ∧ (Ended c → Ended (c.drop n)) := by
  obtain ⟨init, last, rfl⟩ := (List.eq_nil_or_concat' c).resolve_left h.ne_nil
  have hinner := h.inner
  rw [List.dropLast_concat] at hinner
  rw [List.length_append, List.length_singleton] at hn
  have hdrop : (init ++ [last]).drop n = init.drop n ++ [last] :=
    List.drop_append_of_le_length (by omega)
  rw [hdrop]
  refine ⟨⟨by simp, ?_⟩, ?_⟩
  · rw [List.dropLast_concat]
    exact fun hin => hinner (List.mem_of_mem_drop hin)
  · unfold Ended
    rw [List.getLast?_concat, List.getLast?_concat]
    exact id

theorem lines_concat {cs : List (List UInt8)} (h : Lines cs) {c : List UInt8} (hc : Chunk c)
    (hlast : cs.flatten = [] ∨ cs.flatten.getLast? = some ptyNl) : Lines (cs ++ [c]) := by
  refine ⟨fun c' hc' => ?_, fun c' hc' => ?_⟩
  · rcases List.mem_append.mp hc' with hold | hnew
    · exact h.chunk c' hold
    · exact List.mem_singleton.mp hnew ▸ hc
  · rw [List.dropLast_concat] at hc'
    rcases List.eq_nil_or_concat' cs with rfl | ⟨init, last, rfl⟩
    · exact absurd hc' List.not_mem_nil
    · have hne : last ≠ [] := (h.chunk last (by simp)).ne_nil
      have hended : Ended last := by
        have hflat : (init ++ [last]).flatten = init.flatten ++ last := by simp
        rw [hflat] at hlast
        rcases hlast with hnil | hnl
        · exact absurd (List.append_eq_nil_iff.mp hnil).2 hne
        · rwa [List.getLast?_append_of_ne_nil _ hne] at hnl
      have hinit := h.ended
      rw [List.dropLast_concat] at hinit
      rcases List.mem_append.mp hc' with hold | hnew
      · exact hinit c' hold
      · exact List.mem_singleton.mp hnew ▸ hended

theorem lines_tail {c : List UInt8} {cs : List (List UInt8)} (h : Lines (c :: cs)) : Lines cs := by
  refine ⟨fun c' hc' => h.chunk c' (List.mem_cons_of_mem _ hc'), fun c' hc' => ?_⟩
  cases cs with
  | nil => exact absurd hc' List.not_mem_nil
  | cons c₂ cs =>
    refine h.ended c' ?_
    rw [List.dropLast_cons_of_ne_nil (List.cons_ne_nil _ _)]
    exact List.mem_cons_of_mem _ hc'

/-- A part in front of others is ended. -/
theorem lines_head {c : List UInt8} {cs : List (List UInt8)} (h : Lines (c :: cs)) (hne : cs ≠ []) :
    Ended c := by
  refine h.ended c ?_
  rw [List.dropLast_cons_of_ne_nil hne]
  exact List.mem_cons_self

theorem lines_cons {c c' : List UInt8} {cs : List (List UInt8)} (h : Lines (c :: cs))
    (hc : Chunk c') (hended : Ended c → Ended c') : Lines (c' :: cs) := by
  have htail := lines_tail h
  refine ⟨fun x hx => ?_, fun x hx => ?_⟩
  · rcases List.mem_cons.mp hx with rfl | hx
    · exact hc
    · exact htail.chunk x hx
  · cases cs with
    | nil => exact absurd hx List.not_mem_nil
    | cons c₂ cs =>
      rw [List.dropLast_cons_of_ne_nil (List.cons_ne_nil _ _)] at hx
      rcases List.mem_cons.mp hx with rfl | hx
      · exact hended (lines_head h (List.cons_ne_nil _ _))
      · exact htail.ended x hx

/-- A read in canonical mode takes the first part. -/
theorem toDeliver_eq {r : ByteRing} {c : List UInt8} {cs : List (List UInt8)} (h : Lines (c :: cs))
    (hbytes : r.bytes = (c :: cs).flatten) : toDeliver r = c.length := by
  have hc := h.chunk c List.mem_cons_self
  obtain ⟨init, last, rfl⟩ := (List.eq_nil_or_concat' c).resolve_left hc.ne_nil
  have hinner := hc.inner
  rw [List.dropLast_concat] at hinner
  have hnone : init.findIdx? (· == ptyNl) = none := by
    rw [List.findIdx?_eq_none_iff]
    intro x hx
    rw [beq_eq_false_iff_ne]
    rintro rfl
    exact hinner hx
  rw [toDeliver, ringBufFind_eq, hbytes, List.flatten_cons, List.findIdx?_append,
    List.findIdx?_append, hnone, Option.none_or, List.findIdx?_singleton]
  by_cases hnl : last = ptyNl
  · subst hnl
    rw [beq_self_eq_true, if_pos rfl, Option.map_some, Option.some_or]
    simp
  · have hcs : cs = [] := by
      by_contra hne
      have hended := lines_head h hne
      rw [Ended, List.getLast?_concat] at hended
      exact hnl (Option.some.inj hended)
    subst hcs
    rw [beq_eq_false_iff_ne.mpr hnl]
    have hlen := congrArg List.length hbytes
    simpa using hlen

theorem represents_empty : Represents ByteRing.empty false [] :=
  ⟨[], ⟨nofun, nofun⟩, rfl, rfl⟩

section Represents

variable {r : ByteRing} {eof : Bool} {queue : List RefItem}

/-- A part that fits, behind parts that are ended. -/
theorem represents_commit (hok : r.Ok) (h : Represents r false queue) {c : List UInt8} (hc : Chunk c)
    (hfits : c.length ≤ r.room) (hlast : r.bytes = [] ∨ r.bytes.getLast? = some ptyNl) :
    Represents (ringBufWrite r c).1 false (queue ++ [.bytes c]) := by
  obtain ⟨cs, hlines, hbytes, rfl⟩ := h
  rw [hbytes] at hlast
  refine ⟨cs ++ [c], lines_concat hlines hc hlast, ?_, by simp⟩
  rw [(ringBufWrite_fits hok hfits).2, hbytes]
  simp

theorem represents_eof (h : Represents r false queue) : Represents r true (queue ++ [.eof]) := by
  obtain ⟨cs, hlines, hbytes, rfl⟩ := h
  exact ⟨cs, hlines, hbytes, by simp⟩

/-- With nothing in the ring only an EOF can be left. -/
theorem represents_nil (h : Represents r eof queue) (hcount : r.count = 0) :
    queue = if eof then [.eof] else [] := by
  obtain ⟨cs, hlines, hbytes, rfl⟩ := h
  have hnil : cs = [] := by
    cases cs with
    | nil => rfl
    | cons c cs =>
      rw [ByteRing.bytes_eq_nil.mpr hcount, List.flatten_cons] at hbytes
      exact absurd (List.append_eq_nil_iff.mp hbytes.symm).1 (hlines.chunk c List.mem_cons_self).ne_nil
  rw [hnil]
  rfl

/-- A read in canonical mode is the reference's. -/
theorem represents_read (hok : r.Ok) (h : Represents r eof queue) (hcount : r.count ≠ 0) (count : ℕ) :
    ∃ queue', RefDisc.read queue count =
        some ((ringBufRead r (min (toDeliver r) count)).2, queue') ∧
      Represents (ringBufRead r (min (toDeliver r) count)).1 eof queue' := by
  obtain ⟨cs, hlines, hbytes, rfl⟩ := h
  obtain ⟨-, hdata, hrest⟩ := ringBufRead_spec hok (min (toDeliver r) count)
  cases cs with
  | nil => exact absurd (ByteRing.bytes_eq_nil.mp hbytes) hcount
  | cons c cs =>
    rw [toDeliver_eq hlines hbytes] at hdata hrest ⊢
    rw [hbytes, List.flatten_cons] at hdata hrest
    have htake : (c ++ cs.flatten).take (min c.length count) = c.take count := by
      rw [List.take_append_of_le_length (Nat.min_le_left _ _), ← List.take_take,
        List.take_of_length_le (List.length_take_le' _ _)]
    rw [hdata, htake, List.map_cons, List.cons_append, RefDisc.read]
    by_cases hall : c.length ≤ count
    · rw [if_pos hall]
      refine ⟨_, rfl, cs, lines_tail hlines, ?_, rfl⟩
      rw [hrest, Nat.min_eq_left hall, List.drop_left]
    · rw [if_neg hall]
      have hlt : count < c.length := Nat.lt_of_not_le hall
      obtain ⟨hchunk, hended⟩ := (hlines.chunk c List.mem_cons_self).drop hlt
      refine ⟨_, rfl, c.drop count :: cs, lines_cons hlines hchunk hended, ?_, rfl⟩
      rw [hrest, Nat.min_eq_right hlt.le, List.drop_append_of_le_length hlt.le, List.flatten_cons]

end Represents

-- ---------------------------------------------------------------------------
-- Safe bytes
-- ---------------------------------------------------------------------------

/-- The part fits, and the ring can tell it from what is before it. -/
def Commits (p : PtyPair) (bs : List UInt8) : Prop :=
  bs.length ≤ p.slaveInput.room ∧
    (p.slaveInput.bytes = [] ∨ p.slaveInput.bytes.getLast? = some ptyNl)

/-- A byte that the three stores take as they should: no EOF is pending that it would drop or
overtake, the line buffer has room for it, and what it commits fits and is told apart. -/
def SafeByte (p : PtyPair) (ch : UInt8) : Prop :=
  if RefDisc.isSignal p.termModes ch then p.has ptyIcanon = true → p.eofPending = false
  else if p.has ptyIcanon then
    if ch = ptyVeof then p.eofPending = false ∧ (p.line ≠ [] → Commits p p.line)
    else if ch = ptyVerase ∨ ch = ptyVbs ∨ ch = ptyVwerase ∨ ch = ptyVkill then True
    else if ptyMapChar p ch = ptyNl then
      p.eofPending = false ∧ p.line.length < ptyBufferSize - 1 ∧ Commits p (p.line ++ [ptyNl])
    else p.line.length < ptyBufferSize - 1
  else p.slaveInput.count < ptyBufferSize

section Dispatch

variable {s : PtySys} {ch : UInt8}

theorem ptyInputProcess_signal (hsig : RefDisc.isSignal s.pty.termModes ch) :
    ∃ signum, ptyInputProcess s ch = ptySignal s ch signum := by
  obtain ⟨hisig, hch⟩ := hsig
  have hmode : s.pty.has ptyIsig = true := hisig
  unfold ptyInputProcess
  rcases hch with rfl | rfl | rfl
  · exact ⟨sigInt, by rw [if_pos ⟨hmode, rfl⟩]⟩
  · exact ⟨sigTstp, by rw [if_neg fun h => absurd h.2 (by decide), if_pos ⟨hmode, rfl⟩]⟩
  · exact ⟨sigQuit, by
      rw [if_neg fun h => absurd h.2 (by decide), if_neg fun h => absurd h.2 (by decide),
        if_pos ⟨hmode, rfl⟩]⟩

theorem ptyInputProcess_other (hsig : ¬ RefDisc.isSignal s.pty.termModes ch) :
    ptyInputProcess s ch =
      if s.pty.has ptyIcanon then
        if ch = ptyVeof then ptyEof s
        else if ch = ptyVerase ∨ ch = ptyVbs then ptyErase s
        else if ch = ptyVwerase then ptyWordErase s
        else if ch = ptyVkill then ptyKill s
        else if ptyMapChar s.pty ch = ptyNl then ptyNewline s
        else ptyLineChar s (ptyMapChar s.pty ch)
      else ptyRawChar s (ptyMapChar s.pty ch) := by
  have hnone : ∀ c, c = ptyVintr ∨ c = ptyVsusp ∨ c = ptyVquit →
      ¬ (s.pty.has ptyIsig = true ∧ ch = c) := fun c hc hboth =>
    hsig ⟨hboth.1, hboth.2 ▸ hc⟩
  unfold ptyInputProcess
  rw [if_neg (hnone _ (Or.inl rfl)), if_neg (hnone _ (Or.inr (Or.inl rfl))),
    if_neg (hnone _ (Or.inr (Or.inr rfl)))]
  cases s.pty.has ptyIcanon with
  | false => simp
  | true => simp

end Dispatch

end Lestra
