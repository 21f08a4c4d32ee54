import Lestra.Drivers.PtyInput

/-!
# A PTY's input follows the reference

* `ptyInputProcess_canonical`, `ptyInputProcess_rawByte` — a safe byte is fed to the reference
* `InputStream` — the results so far are the reference's, and the stores hold what is left
* `pty_input_stream` — in every run of safe steps the slave reads what the reference gives
-/

namespace Lestra

open PtySys

-- ---------------------------------------------------------------------------
-- One byte
-- ---------------------------------------------------------------------------

section Byte

variable {s : PtySys} {modes : UInt32} {ch : UInt8}

/-- With INLCR off the code maps what the reference maps. -/
theorem ptyMapChar_eq (ch : UInt8) (hmodes : s.pty.termModes = modes) (hinlcr : modes &&& ptyInlcr = 0) :
    ptyMapChar s.pty ch = RefDisc.mapChar modes ch := by
  have hoff : s.pty.has ptyInlcr = false := by
    rw [PtyPair.has, hmodes, hinlcr]
    rfl
  have hicrnl : s.pty.has ptyIcrnl = RefDisc.on modes ptyIcrnl := by
    rw [PtyPair.has, hmodes, RefDisc.on]
  unfold ptyMapChar RefDisc.mapChar
  dsimp only
  rw [hoff, hicrnl]
  simp

/-- What a byte leaves in the stores, and what the reference makes of it: it commits `items`. -/
structure Feeds (modes : UInt32) (s s' : PtySys) (ch : UInt8) (items : List RefItem) : Prop where
  same : SameSetup s s'
  calls : s'.calls = s.calls
  feed : ∀ queue, RefDisc.feed modes ⟨queue, s.pty.line⟩ ch = ⟨queue ++ items, s'.pty.line⟩

theorem Typed.feeds {s' : PtySys} {r : ByteRing} {line : List UInt8} {eof : Bool}
    (h : Typed s s' r line eof) {items : List RefItem}
    (hfeed : ∀ queue, RefDisc.feed modes ⟨queue, s.pty.line⟩ ch = ⟨queue ++ items, line⟩) :
    Feeds modes s s' ch items :=
  ⟨h.toSameSetup, h.calls, fun queue => by rw [hfeed, h.line]⟩

/-- What holds of the stores in canonical mode while `queue` is left to read. -/
structure Stores (s : PtySys) (queue : List RefItem) : Prop where
  ok : s.pty.slaveInput.Ok
  represents : Represents s.pty.slaveInput s.pty.eofPending queue
  line : ptyNl ∉ s.pty.line

/-- Bytes that edit the line alone. -/
theorem Stores.edit {queue : List RefItem} (h : Stores s queue) {s' : PtySys} {line : List UInt8}
    (ht : Typed s s' s.pty.slaveInput line s.pty.eofPending) (hline : ptyNl ∉ line)
    (hfeed : ∀ queue, RefDisc.feed modes ⟨queue, s.pty.line⟩ ch = ⟨queue, line⟩) :
    ∃ items, Feeds modes s s' ch items ∧ Stores s' (queue ++ items) := by
  refine ⟨[], ht.feeds fun queue => by rw [hfeed, List.append_nil], ?_, ?_, ?_⟩
  · rw [ht.input]
    exact h.ok
  · rw [ht.input, ht.eof, List.append_nil]
    exact h.represents
  · rw [ht.line]
    exact hline

/-- A byte that commits a part. -/
theorem Stores.commit {queue : List RefItem} (h : Stores s queue) (heof : s.pty.eofPending = false)
    {s' : PtySys} {c : List UInt8} (ht : Typed s s' (ringBufWrite s.pty.slaveInput c).1 [] false)
    (hc : Chunk c) (hcommits : Commits s.pty c)
    (hfeed : ∀ queue, RefDisc.feed modes ⟨queue, s.pty.line⟩ ch = ⟨queue ++ [.bytes c], []⟩) :
    ∃ items, Feeds modes s s' ch items ∧ Stores s' (queue ++ items) := by
  have hrep := h.represents
  rw [heof] at hrep
  refine ⟨[.bytes c], ht.feeds hfeed, ?_, ?_, ?_⟩
  · rw [ht.input]
    exact (ringBufWrite_fits h.ok hcommits.1).1
  · rw [ht.input, ht.eof]
    exact represents_commit h.ok hrep hc hcommits.1 hcommits.2
  · rw [ht.line]
    exact List.not_mem_nil

theorem not_mem_eraseWord {line : List UInt8} (hline : ptyNl ∉ line) :
    ptyNl ∉ RefDisc.eraseWord line := fun hin =>
  hline ((List.rdropWhile_prefix _ _).subset ((List.rdropWhile_prefix _ _).subset hin))

/-- A safe byte in canonical mode. -/
theorem ptyInputProcess_canonical (hmodes : s.pty.termModes = modes)
    (hinlcr : modes &&& ptyInlcr = 0) (hcanon : RefDisc.on modes ptyIcanon = true)
    {queue : List RefItem} (h : Stores s queue) (hsafe : SafeByte s.pty ch) :
    ∃ items, Feeds modes s (ptyInputProcess s ch) ch items ∧
      Stores (ptyInputProcess s ch) (queue ++ items) := by
  have hicanon : s.pty.has ptyIcanon = true := by rwa [PtyPair.has, hmodes]
  have hmap := ptyMapChar_eq ch hmodes hinlcr
  unfold SafeByte at hsafe
  rw [hmodes, hicanon] at hsafe
  by_cases hsig : RefDisc.isSignal modes ch
  · obtain ⟨signum, heq⟩ := ptyInputProcess_signal (hmodes ▸ hsig)
    rw [if_pos hsig] at hsafe
    rw [heq]
    have ht := ptySignal_typed s ch signum
    rw [← hsafe rfl] at ht
    exact h.edit ht List.not_mem_nil fun queue => by rw [RefDisc.feed, if_pos hsig]
  · rw [if_neg hsig, if_pos rfl] at hsafe
    rw [ptyInputProcess_other (hmodes ▸ hsig), if_pos hicanon, hmap]
    rw [hmap] at hsafe
    have hfeed : ∀ d, RefDisc.feed modes d ch =
        if ch = ptyVeof then
          if d.line = [] then { d with queue := d.queue ++ [.eof] }
          else ⟨d.queue ++ [.bytes d.line], []⟩
        else if ch = ptyVerase ∨ ch = ptyVbs then { d with line := d.line.dropLast }
        else if ch = ptyVwerase then { d with line := RefDisc.eraseWord d.line }
        else if ch = ptyVkill then { d with line := [] }
        else if RefDisc.mapChar modes ch = ptyNl then ⟨d.queue ++ [.bytes (d.line ++ [ptyNl])], []⟩
        else { d with line := d.line ++ [RefDisc.mapChar modes ch] } := fun d => by
      rw [RefDisc.feed, if_neg hsig, if_pos hcanon]
    by_cases hveof : ch = ptyVeof
    · rw [if_pos hveof] at hsafe ⊢
      obtain ⟨heof, hcommits⟩ := hsafe
      have ht := ptyEof_typed s
      by_cases hline : s.pty.line = []
      · rw [if_pos hline, if_pos hline] at ht
        have hrep := h.represents
        rw [heof] at hrep
        refine ⟨[.eof], ht.feeds fun queue => ?_, ?_, ?_, ?_⟩
        · rw [hfeed, if_pos hveof, if_pos hline, hline]
        · rw [ht.input]
          exact h.ok
        · rw [ht.input, ht.eof]
          exact represents_eof hrep
        · rw [ht.line]
          exact List.not_mem_nil
      · rw [if_neg hline, if_neg hline, heof] at ht
        exact h.commit heof ht (chunk_open h.line hline) (hcommits hline) fun queue => by
          rw [hfeed, if_pos hveof, if_neg hline]
    rw [if_neg hveof] at hsafe ⊢
    by_cases herase : ch = ptyVerase ∨ ch = ptyVbs
    · rw [if_pos herase]
      exact h.edit (ptyErase_typed s) (fun hin => h.line (List.dropLast_subset _ hin))
        fun queue => by rw [hfeed, if_neg hveof, if_pos herase]
    rw [if_neg herase]
    by_cases hword : ch = ptyVwerase
    · rw [if_pos hword]
      exact h.edit (ptyWordErase_typed s) (not_mem_eraseWord h.line) fun queue => by
        rw [hfeed, if_neg hveof, if_neg herase, if_pos hword]
    rw [if_neg hword]
    by_cases hkill : ch = ptyVkill
    · rw [if_pos hkill]
      exact h.edit (ptyKill_typed s) List.not_mem_nil fun queue => by
        rw [hfeed, if_neg hveof, if_neg herase, if_neg hword, if_pos hkill]
    rw [if_neg hkill]
    have hplain : ¬ (ch = ptyVerase ∨ ch = ptyVbs ∨ ch = ptyVwerase ∨ ch = ptyVkill) := by tauto
    rw [if_neg hplain] at hsafe
    by_cases hnl : RefDisc.mapChar modes ch = ptyNl
    · rw [if_pos hnl] at hsafe ⊢
      obtain ⟨heof, hroom, hcommits⟩ := hsafe
      exact h.commit heof (ptyNewline_typed s hroom) (chunk_ended h.line) hcommits fun queue => by
        rw [hfeed, if_neg hveof, if_neg herase, if_neg hword, if_neg hkill, if_pos hnl]
    · rw [if_neg hnl] at hsafe ⊢
      refine h.edit (ptyLineChar_typed s hsafe _) (fun hin => ?_) fun queue => by
        rw [hfeed, if_neg hveof, if_neg herase, if_neg hword, if_neg hkill, if_neg hnl]
      rcases List.mem_append.mp hin with hold | hnew
      · exact h.line hold
      · exact hnl (List.mem_singleton.mp hnew).symm

/-- A safe byte in raw mode. -/
theorem ptyInputProcess_rawByte (hmodes : s.pty.termModes = modes)
    (hinlcr : modes &&& ptyInlcr = 0) (hcanon : RefDisc.on modes ptyIcanon = false)
    (hok : s.pty.slaveInput.Ok) (hsafe : SafeByte s.pty ch) :
    ∃ items, Feeds modes s (ptyInputProcess s ch) ch items ∧
      (ptyInputProcess s ch).pty.slaveInput.Ok ∧
      (ptyInputProcess s ch).pty.slaveInput.bytes =
        s.pty.slaveInput.bytes ++ RefDisc.flat items := by
  have hicanon : s.pty.has ptyIcanon = false := by rwa [PtyPair.has, hmodes]
  have hmap := ptyMapChar_eq ch hmodes hinlcr
  unfold SafeByte at hsafe
  rw [hmodes, hicanon] at hsafe
  by_cases hsig : RefDisc.isSignal modes ch
  · obtain ⟨signum, heq⟩ := ptyInputProcess_signal (hmodes ▸ hsig)
    rw [heq]
    have ht := ptySignal_typed s ch signum
    refine ⟨[], ht.feeds fun queue => ?_, ?_, ?_⟩
    · rw [RefDisc.feed, if_pos hsig, List.append_nil]
    · rw [ht.input]
      exact hok
    · rw [ht.input]
      exact (List.append_nil _).symm
  · rw [if_neg hsig, if_neg (by decide)] at hsafe
    rw [ptyInputProcess_other (hmodes ▸ hsig), hicanon, if_neg (by decide), hmap]
    have ht := ptyRawChar_typed s (RefDisc.mapChar modes ch)
    have hfits : [RefDisc.mapChar modes ch].length ≤ s.pty.slaveInput.room := by
      change 1 ≤ ptyBufferSize - s.pty.slaveInput.count
      omega
    obtain ⟨hok', hbytes⟩ := ringBufWrite_fits hok hfits
    refine ⟨[.bytes [RefDisc.mapChar modes ch]], ht.feeds fun queue => ?_, ?_, ?_⟩
    · rw [RefDisc.feed, if_neg hsig, hcanon, if_neg (by decide)]
    · rw [ht.input]
      exact hok'
    · rw [ht.input, hbytes]
      rfl

end Byte

-- ---------------------------------------------------------------------------
-- One write
-- ---------------------------------------------------------------------------

/-- What holds of the stores while `queue` is left to read, in either mode. -/
def Kept (modes : UInt32) (s : PtySys) (queue : List RefItem) : Prop :=
  if RefDisc.on modes ptyIcanon then Stores s queue
  else s.pty.slaveInput.Ok ∧ s.pty.slaveInput.bytes = RefDisc.flat queue

theorem flat_append (xs ys : List RefItem) :
    RefDisc.flat (xs ++ ys) = RefDisc.flat xs ++ RefDisc.flat ys := List.flatMap_append

/-- The bytes of a write, each in the state it comes in. -/
def SafeBytes : PtySys → List UInt8 → Prop
  | _, [] => True
  | s, ch :: rest =>
    SafeByte s.pty ch ∧
      (¬ (!(ptyInputProcess s ch).pty.has ptyIcanon ∧
          ptyBufferSize - 1 ≤ (ptyInputProcess s ch).pty.slaveInput.count) →
        SafeBytes (ptyInputProcess s ch) rest)

section Write

variable {s : PtySys} {modes : UInt32} (hinlcr : modes &&& ptyInlcr = 0)

include hinlcr

theorem ptyInputProcess_kept (hmodes : s.pty.termModes = modes) {ch : UInt8}
    {queue : List RefItem} (h : Kept modes s queue) (hsafe : SafeByte s.pty ch) :
    ∃ items, Feeds modes s (ptyInputProcess s ch) ch items ∧
      Kept modes (ptyInputProcess s ch) (queue ++ items) := by
  unfold Kept at h ⊢
  cases hcanon : RefDisc.on modes ptyIcanon with
  | true =>
    rw [hcanon, if_pos rfl] at h
    exact ptyInputProcess_canonical hmodes hinlcr hcanon h hsafe
  | false =>
    rw [hcanon, if_neg (by decide)] at h
    obtain ⟨items, hfeeds, hok, hbytes⟩ := ptyInputProcess_rawByte hmodes hinlcr hcanon h.1 hsafe
    refine ⟨items, hfeeds, ?_⟩
    rw [if_neg (by decide), flat_append, ← h.2]
    exact ⟨hok, hbytes⟩

/-- The bytes that a write accepts are fed to the reference. -/
theorem ptyMasterWriteLoop_kept {data : List UInt8} (hmodes : s.pty.termModes = modes)
    {queue : List RefItem} (h : Kept modes s queue) (hsafe : SafeBytes s data) :
    SameSetup s (ptyMasterWriteLoop s data).1 ∧
      (ptyMasterWriteLoop s data).1.calls = s.calls ∧
      ∃ items, Kept modes (ptyMasterWriteLoop s data).1 (queue ++ items) ∧
        ∀ q, (data.take (ptyMasterWriteLoop s data).2).foldl (RefDisc.feed modes) ⟨q, s.pty.line⟩ =
          ⟨q ++ items, (ptyMasterWriteLoop s data).1.pty.line⟩ := by
  induction data generalizing s queue with
  | nil => exact ⟨⟨rfl, rfl, rfl, rfl⟩, rfl, [], by simpa [ptyMasterWriteLoop] using h,
      fun q => by simp [ptyMasterWriteLoop]⟩
  | cons ch rest ih =>
    obtain ⟨items, hfeeds, hkept⟩ := ptyInputProcess_kept hinlcr hmodes h hsafe.1
    unfold ptyMasterWriteLoop
    dsimp only
    split
    case isTrue => exact ⟨hfeeds.same, hfeeds.calls, items, hkept, hfeeds.feed⟩
    case isFalse hmore =>
      obtain ⟨hsame, hcalls, more, hrest, hfold⟩ :=
        ih (hfeeds.same.modes.trans hmodes) hkept (hsafe.2 hmore)
      refine ⟨hfeeds.same.trans hsame, hcalls.trans hfeeds.calls, items ++ more, ?_, fun q => ?_⟩
      · rw [← List.append_assoc]
        exact hrest
      · rw [List.take_succ_cons, List.foldl_cons, hfeeds.feed, hfold, List.append_assoc]

end Write

-- ---------------------------------------------------------------------------
-- The other calls
-- ---------------------------------------------------------------------------

/-- The stores and the setup are what they were. -/
structure SameStores (s s' : PtySys) : Prop extends SameSetup s s' where
  input : s'.pty.slaveInput = s.pty.slaveInput
  line : s'.pty.line = s.pty.line
  eof : s'.pty.eofPending = s.pty.eofPending

theorem SameStores.refl (s : PtySys) : SameStores s s := ⟨⟨rfl, rfl, rfl, rfl⟩, rfl, rfl, rfl⟩

theorem SameStores.trans {s s' s'' : PtySys} (h : SameStores s s') (h' : SameStores s' s'') :
    SameStores s s'' :=
  ⟨h.toSameSetup.trans h'.toSameSetup, h'.input.trans h.input, h'.line.trans h.line,
    h'.eof.trans h.eof⟩

theorem SameStores.kept {s s' : PtySys} (hs : SameStores s s') {modes : UInt32}
    {queue : List RefItem} (h : Kept modes s queue) : Kept modes s' queue := by
  unfold Kept at h ⊢
  rw [hs.input]
  split
  · rw [if_pos ‹_›] at h
    exact ⟨hs.input ▸ h.ok, hs.input ▸ hs.eof ▸ h.represents, hs.line ▸ h.line⟩
  · rwa [if_neg ‹_›] at h

theorem sameStores_wake (s : PtySys) (w : PtyWaiter) : SameStores s (s.wake w) :=
  ⟨⟨wake_inUse .., wake_masterOpen .., wake_slaveOpen .., wake_termModes ..⟩, wake_slaveInput ..,
    wake_line .., wake_eofPending ..⟩

/-- A call that is no slave's read. -/
def NotReading : Option PtyCall → Prop
  | some (.slaveRead _ _) => False
  | _ => True

/-- How a call ends that does not look at the input. -/
def Elsewhere (s : PtySys) (pid : ℤ) (s' : PtySys) : Prop :=
  SameStores s s' ∧ ∃ call, NotReading call ∧ s'.calls = Function.update s.calls pid call

theorem ptyOutputProcess_stores (s : PtySys) (data : List UInt8) :
    SameStores s (ptyOutputProcess s data).1 := by
  unfold ptyOutputProcess
  dsimp only
  split
  · have hwake := sameStores_wake
      (s.setPty { s.pty with masterOutput := (ptyOutputRing s.pty data).1 }) .masterRead
    exact ⟨⟨hwake.inUse, hwake.masterOpen, hwake.slaveOpen, hwake.modes⟩, hwake.input, hwake.line,
      hwake.eof⟩
  · exact ⟨⟨rfl, rfl, rfl, rfl⟩, rfl, rfl, rfl⟩

theorem slaveWriteFrom_elsewhere (s : PtySys) (pid : ℤ) (data : List UInt8) (total : ℕ)
    (moved : List UInt8) : Elsewhere s pid (slaveWriteFrom s pid data total moved).1 := by
  induction hn : data.length - total using Nat.strong_induction_on generalizing s total moved with
  | _ n ih =>
    rw [slaveWriteFrom]
    by_cases hmore : total < data.length
    · rw [dif_pos hmore]
      have hstores := ptyOutputProcess_stores s (data.drop total)
      have hcalls := (ptyOutputProcess_same s (data.drop total)).2
      generalize ptyOutputProcess s (data.drop total) = out at hstores hcalls ⊢
      obtain ⟨s', consumed⟩ := out
      dsimp only at hstores hcalls ⊢
      by_cases hnone : consumed = 0
      · rw [dif_pos hnone]
        split
        · exact ⟨⟨⟨hstores.inUse, hstores.masterOpen, hstores.slaveOpen, hstores.modes⟩,
            hstores.input, hstores.line, hstores.eof⟩, none, trivial, by rw [← hcalls]; rfl⟩
        · exact ⟨⟨⟨hstores.inUse, hstores.masterOpen, hstores.slaveOpen, hstores.modes⟩,
            hstores.input, hstores.line, hstores.eof⟩, some (.slaveWrite data total), trivial,
            by rw [← hcalls]; rfl⟩
      · rw [dif_neg hnone]
        obtain ⟨hrest, call, hcall, hupdate⟩ := ih (data.length - (total + consumed)) (by omega) s'
          (total + consumed) (moved ++ (data.drop total).take consumed) rfl
        exact ⟨hstores.trans hrest, call, hcall, by rw [hupdate, hcalls]⟩
    · rw [dif_neg hmore]
      exact ⟨⟨⟨rfl, rfl, rfl, rfl⟩, rfl, rfl, rfl⟩, none, trivial, rfl⟩

theorem masterReadFrom_elsewhere (s : PtySys) (pid : ℤ) (count : ℕ) :
    Elsewhere s pid (masterReadFrom s pid count).1 := by
  unfold masterReadFrom
  split
  · split
    · exact ⟨⟨⟨rfl, rfl, rfl, rfl⟩, rfl, rfl, rfl⟩, none, trivial, rfl⟩
    · exact ⟨⟨⟨rfl, rfl, rfl, rfl⟩, rfl, rfl, rfl⟩, some (.masterRead count), trivial, rfl⟩
  · dsimp only
    generalize ringBufRead s.pty.masterOutput (min count s.pty.masterOutput.count) = out
    obtain ⟨r, data⟩ := out
    dsimp only
    split
    · have hwake := sameStores_wake (s.setPty { s.pty with masterOutput := r }) .slaveWrite
      refine ⟨⟨⟨hwake.inUse, hwake.masterOpen, hwake.slaveOpen, hwake.modes⟩, hwake.input,
        hwake.line, hwake.eof⟩, none, trivial, ?_⟩
      change Function.update
        ((s.setPty { s.pty with masterOutput := r }).wake .slaveWrite).calls pid none = _
      rw [wake_calls]
      rfl
    · exact ⟨⟨⟨rfl, rfl, rfl, rfl⟩, rfl, rfl, rfl⟩, none, trivial, rfl⟩

-- ---------------------------------------------------------------------------
-- The slave's reads
-- ---------------------------------------------------------------------------

/-- How a slave's read ends: it blocks, or it returns `moved`, and `after` is left of the queue. -/
structure ReadTurn (modes : UInt32) (s : PtySys) (pid : ℤ) (count : ℕ) (queue : List RefItem)
    (out : PtySys × PtyResult) : Prop where
  same : SameSetup s out.1
  line : out.1.pty.line = s.pty.line
  outcome : (out.2.ret = none ∧ Kept modes out.1 queue ∧
      out.1.calls = Function.update s.calls pid
        (some (.slaveRead (RefDisc.on modes ptyIcanon) count))) ∨
    (out.2.ret.isSome = true ∧ out.1.calls = Function.update s.calls pid none ∧
      ∃ after, Kept modes out.1 after ∧
        if RefDisc.on modes ptyIcanon then RefDisc.read queue count = some (out.2.moved, after)
        else RefDisc.flat queue = out.2.moved ++ RefDisc.flat after)

/-- What `slaveTake` does but for the bytes. -/
theorem slaveTake_frame (s : PtySys) (pid : ℤ) (n : ℕ) :
    SameSetup s (slaveTake s pid n).1 ∧ (slaveTake s pid n).1.pty.line = s.pty.line ∧
      (slaveTake s pid n).1.pty.eofPending = s.pty.eofPending ∧
      (slaveTake s pid n).1.calls = Function.update s.calls pid none ∧
      (slaveTake s pid n).1.pty.slaveInput = (ringBufRead s.pty.slaveInput n).1 ∧
      (slaveTake s pid n).2.moved = (ringBufRead s.pty.slaveInput n).2 ∧
      (slaveTake s pid n).2.ret.isSome = true := by
  unfold slaveTake
  generalize ringBufRead s.pty.slaveInput n = out
  obtain ⟨r, data⟩ := out
  dsimp only
  split
  · have hwake := sameStores_wake (s.setPty { s.pty with slaveInput := r }) .masterWrite
    refine ⟨⟨hwake.inUse, hwake.masterOpen, hwake.slaveOpen, hwake.modes⟩, hwake.line, hwake.eof,
      ?_, hwake.input, rfl, rfl⟩
    change Function.update
      ((s.setPty { s.pty with slaveInput := r }).wake .masterWrite).calls pid none = _
    rw [wake_calls]
    rfl
  · exact ⟨⟨rfl, rfl, rfl, rfl⟩, rfl, rfl, rfl, rfl, rfl, rfl⟩

theorem slaveReadFrom_reads {s : PtySys} {modes : UInt32} (hsetup : Setup s modes)
    {queue : List RefItem} (h : Kept modes s queue) (pid : ℤ) (count : ℕ) :
    ReadTurn modes s pid count queue
      (slaveReadFrom s pid (RefDisc.on modes ptyIcanon) count) := by
  unfold Kept at h
  unfold slaveReadFrom
  rw [hsetup.masterOpen]
  cases hcanon : RefDisc.on modes ptyIcanon with
  | true =>
    rw [hcanon, if_pos rfl] at h
    rw [if_pos rfl]
    by_cases hempty : s.pty.slaveInput.count = 0
    · have hqueue := represents_nil h.represents hempty
      cases heof : s.pty.eofPending with
      | false =>
        rw [if_pos ⟨hempty, rfl⟩, if_neg (by decide)]
        refine ⟨⟨rfl, rfl, rfl, rfl⟩, rfl, Or.inl ⟨rfl, ?_, by rw [hcanon]; rfl⟩⟩
        rw [Kept, hcanon, if_pos rfl]
        exact ⟨h.ok, h.represents, h.line⟩
      | true =>
        rw [if_neg fun hboth => absurd hboth.2 (by decide), if_pos ⟨rfl, hempty⟩]
        rw [heof, if_pos rfl] at hqueue
        refine ⟨⟨rfl, rfl, rfl, rfl⟩, rfl, Or.inr ⟨rfl, rfl, [], ?_, ?_⟩⟩
        · rw [Kept, hcanon, if_pos rfl]
          have hbytes : s.pty.slaveInput.bytes = [] := ByteRing.bytes_eq_nil.mpr hempty
          exact ⟨h.ok, ⟨[], ⟨nofun, nofun⟩, hbytes, rfl⟩, h.line⟩
        · rw [hcanon, if_pos rfl, hqueue]
          rfl
    · rw [if_neg fun hboth => hempty hboth.1, if_neg fun hboth => hempty hboth.2]
      obtain ⟨hsame, hline, heof, hcalls, hring, hmoved, hret⟩ :=
        slaveTake_frame s pid (min (toDeliver s.pty.slaveInput) count)
      obtain ⟨after, hread, hrep⟩ := represents_read h.ok h.represents hempty count
      refine ⟨hsame, hline, Or.inr ⟨hret, hcalls, after, ?_, ?_⟩⟩
      · rw [Kept, hcanon, if_pos rfl]
        exact ⟨hring ▸ (ringBufRead_spec h.ok _).1, by rw [hring, heof]; exact hrep,
          hline ▸ h.line⟩
      · rw [hcanon, if_pos rfl, hmoved]
        exact hread
  | false =>
    rw [hcanon, if_neg (by decide)] at h
    rw [if_neg (by decide)]
    by_cases hempty : s.pty.slaveInput.count = 0
    · rw [if_pos hempty, if_neg (by decide)]
      refine ⟨⟨rfl, rfl, rfl, rfl⟩, rfl, Or.inl ⟨rfl, ?_, by rw [hcanon]; rfl⟩⟩
      rw [Kept, hcanon, if_neg (by decide)]
      exact h
    · rw [if_neg hempty]
      obtain ⟨hsame, hline, -, hcalls, hring, hmoved, hret⟩ :=
        slaveTake_frame s pid (min count s.pty.slaveInput.count)
      obtain ⟨hok, hdata, hrest⟩ := ringBufRead_spec h.1 (min count s.pty.slaveInput.count)
      refine ⟨hsame, hline, Or.inr ⟨hret, hcalls,
        [.bytes (ringBufRead s.pty.slaveInput (min count s.pty.slaveInput.count)).1.bytes], ?_, ?_⟩⟩
      · rw [Kept, hcanon, if_neg (by decide), hring]
        exact ⟨hok, by simp [RefDisc.flat]⟩
      · rw [hcanon, if_neg (by decide), hmoved, ← h.2, hdata, hrest]
        simp [RefDisc.flat]

-- ---------------------------------------------------------------------------
-- Runs
-- ---------------------------------------------------------------------------

/-- A run seen from outside: the bytes that `pty_master_write` has reported as accepted, and the
slave's completed reads with their sizes and results. -/
structure PtyInputTrace where
  sys : PtySys
  accepted : List UInt8
  counts : List ℕ
  results : List (List UInt8)

namespace PtyInputTrace

def start (modes : UInt32) (pgid : ℤ) : PtyInputTrace := ⟨PtySys.start modes pgid, [], [], []⟩

/-- What a step that worked on this call adds. -/
def record (t : PtyInputTrace) (out : PtySys × PtyResult) : Option (ℤ × PtyCall) → PtyInputTrace
  | some (_, .slaveRead _ count) =>
    if out.2.ret.isSome then
      { t with
        sys := out.1
        counts := t.counts ++ [count]
        results := t.results ++ [out.2.moved] }
    else { t with sys := out.1 }
  | _ => { t with sys := out.1 }

def step (t : PtyInputTrace) (op : PtyOp) : PtyInputTrace :=
  match op with
  | .masterWrite _ _ =>
    { t with sys := (t.sys.step op).1, accepted := t.accepted ++ (t.sys.step op).2.moved }
  | _ => t.record (t.sys.step op) (t.sys.callOf op)

end PtyInputTrace

/-- The pair keeps its modes and stays open, and the bytes typed are safe. -/
def SafeStep (t : PtyInputTrace) (op : PtyOp) : Prop :=
  op.Fixed ∧
    match op with
    | .masterWrite pid data => t.sys.calls pid = none → SafeBytes t.sys data
    | _ => True

/-- What holds between any two steps, with what is left to read. -/
structure InputStream (modes : UInt32) (t : PtyInputTrace) : Prop where
  setup : Setup t.sys modes
  calls : ∀ pid canonical count, t.sys.calls pid = some (.slaveRead canonical count) →
    canonical = RefDisc.on modes ptyIcanon
  line : (RefDisc.feedAll modes t.accepted).line = t.sys.pty.line
  queue : ∃ queue, Kept modes t.sys queue ∧
    if RefDisc.on modes ptyIcanon then
      RefDisc.reads (RefDisc.feedAll modes t.accepted).queue t.counts = some (t.results, queue)
    else
      RefDisc.flat (RefDisc.feedAll modes t.accepted).queue =
        t.results.flatten ++ RefDisc.flat queue

theorem inputStream_start (modes : UInt32) (pgid : ℤ) :
    InputStream modes (PtyInputTrace.start modes pgid) := by
  refine ⟨⟨rfl, rfl, rfl, rfl⟩, fun _ _ _ hcall => (nomatch hcall), rfl, [], ?_, ?_⟩
  · unfold Kept
    split
    · exact ⟨ByteRing.empty_ok, represents_empty, List.not_mem_nil⟩
    · exact ⟨ByteRing.empty_ok, rfl⟩
  · split <;> rfl

section Steps

variable {modes : UInt32} {t : PtyInputTrace} (h : InputStream modes t)

include h

/-- A step that leaves the stores alone. -/
theorem InputStream.other {s : PtySys} (hs : SameStores t.sys s)
    (hcalls : ∀ pid canonical count, s.calls pid = some (.slaveRead canonical count) →
      t.sys.calls pid = some (.slaveRead canonical count)) :
    InputStream modes { t with sys := s } := by
  obtain ⟨queue, hkept, hreads⟩ := h.queue
  exact ⟨h.setup.same hs.toSameSetup, fun pid c n hc => h.calls pid c n (hcalls pid c n hc),
    h.line.trans hs.line.symm, queue, hs.kept hkept, hreads⟩

/-- A call that does not look at the input; `s` is the pair when it goes on. -/
theorem InputStream.elsewhere {s s' : PtySys} (hs : SameStores t.sys s)
    (hcalls : s.calls = t.sys.calls) {pid : ℤ} (helse : Elsewhere s pid s') :
    InputStream modes { t with sys := s' } := by
  obtain ⟨hstores, call, hcall, hupdate⟩ := helse
  refine h.other (hs.trans hstores) fun pid' canonical count hc => ?_
  rw [hupdate, hcalls] at hc
  by_cases heq : pid' = pid
  · rw [heq, Function.update_self] at hc
    rw [hc] at hcall
    exact hcall.elim
  · rwa [Function.update_of_ne heq] at hc

theorem InputStream.read {s : PtySys} (hs : SameStores t.sys s) (hcalls : s.calls = t.sys.calls)
    (pid : ℤ) (canonical' : Bool) (count : ℕ) :
    InputStream modes (t.record (slaveReadFrom s pid (RefDisc.on modes ptyIcanon) count)
      (some (pid, .slaveRead canonical' count))) := by
  obtain ⟨queue, hkept, hreads⟩ := h.queue
  have hturn := slaveReadFrom_reads (h.setup.same hs.toSameSetup) (hs.kept hkept) pid count
  generalize slaveReadFrom s pid (RefDisc.on modes ptyIcanon) count = out at hturn ⊢
  have hsetup : Setup out.1 modes := h.setup.same (hs.toSameSetup.trans hturn.same)
  have hline : (RefDisc.feedAll modes t.accepted).line = out.1.pty.line := by
    rw [hturn.line, hs.line, h.line]
  have hkind : ∀ call, (∀ canonical n, call = some (.slaveRead canonical n) →
      canonical = RefDisc.on modes ptyIcanon) → out.1.calls = Function.update s.calls pid call →
      ∀ pid' canonical n, out.1.calls pid' = some (.slaveRead canonical n) →
        canonical = RefDisc.on modes ptyIcanon := by
    intro call hcall hupdate pid' canonical n hc
    rw [hupdate, hcalls] at hc
    by_cases heq : pid' = pid
    · rw [heq, Function.update_self] at hc
      exact hcall canonical n hc
    · rw [Function.update_of_ne heq] at hc
      exact h.calls pid' canonical n hc
  unfold PtyInputTrace.record
  dsimp only
  rcases hturn.outcome with ⟨hret, hkept', hupdate⟩ | ⟨hret, hupdate, after, hkept', hread⟩
  · rw [hret, if_neg (by decide)]
    exact ⟨hsetup, hkind _ (fun c n heq => by cases heq; rfl) hupdate, hline, queue, hkept', hreads⟩
  · rw [if_pos hret]
    refine ⟨hsetup, hkind none (fun _ _ heq => (nomatch heq)) hupdate, hline, after, hkept', ?_⟩
    dsimp only
    split
    · rw [if_pos ‹_›] at hread hreads
      exact RefDisc.reads_concat hreads hread
    · rw [if_neg ‹_›] at hread hreads
      rw [hreads, hread, List.flatten_append, List.flatten_singleton, List.append_assoc]

theorem InputStream.write (hinlcr : modes &&& ptyInlcr = 0) (pid : ℤ) (data : List UInt8)
    (hsafe : SafeBytes t.sys data) :
    InputStream modes
      { t with
        sys := (ptyMasterWrite t.sys pid data).1
        accepted := t.accepted ++ (ptyMasterWrite t.sys pid data).2.moved } := by
  obtain ⟨queue, hkept, hreads⟩ := h.queue
  obtain ⟨hsame, hcalls, items, hkept', hfold⟩ :=
    ptyMasterWriteLoop_kept hinlcr h.setup.modes hkept hsafe
  unfold ptyMasterWrite
  rw [h.setup.masterOpen, h.setup.inUse, h.setup.slaveOpen]
  change InputStream modes
    { t with
      sys := ((ptyMasterWriteLoop t.sys data).1.finish pid
        (intRet (ptyMasterWriteLoop t.sys data).2) _).1
      accepted := t.accepted ++ data.take (ptyMasterWriteLoop t.sys data).2 }
  generalize ptyMasterWriteLoop t.sys data = out at hsame hcalls hkept' hfold ⊢
  obtain ⟨s, processed⟩ := out
  have hfed : RefDisc.feedAll modes (t.accepted ++ data.take processed) =
      ⟨(RefDisc.feedAll modes t.accepted).queue ++ items, s.pty.line⟩ := by
    rw [RefDisc.feedAll, List.foldl_append, ← hfold, ← h.line]
    rfl
  refine ⟨⟨(h.setup.same hsame).inUse, (h.setup.same hsame).masterOpen,
    (h.setup.same hsame).slaveOpen, (h.setup.same hsame).modes⟩, fun pid' canonical n hc => ?_, ?_,
    queue ++ items, ?_, ?_⟩
  · change Function.update s.calls pid none pid' = _ at hc
    by_cases heq : pid' = pid
    · rw [heq, Function.update_self] at hc
      cases hc
    · rw [Function.update_of_ne heq, hcalls] at hc
      exact h.calls pid' canonical n hc
  · rw [hfed]
    rfl
  · have hend : SameStores s (s.finish pid (intRet processed) (data.take processed)).1 :=
      ⟨⟨rfl, rfl, rfl, rfl⟩, rfl, rfl, rfl⟩
    exact hend.kept hkept'
  · rw [hfed]
    split
    · rw [if_pos ‹_›] at hreads
      exact RefDisc.reads_append hreads items
    · rw [if_neg ‹_›] at hreads
      rw [flat_append, flat_append, hreads, List.append_assoc]

theorem inputStream_resume (pid : ℤ) : InputStream modes (t.step (.resume pid)) := by
  unfold PtyInputTrace.step PtySys.step PtySys.callOf
  dsimp only
  cases hcall : t.sys.calls pid with
  | none =>
    rw [Option.map_none, ite_self]
    exact h
  | some call =>
    by_cases hblocked : t.sys.blocked pid = true
    · dsimp only
      rw [if_pos hblocked, if_pos hblocked]
      exact h
    · dsimp only
      rw [if_neg hblocked, if_neg hblocked, Option.map_some]
      have hs : SameStores t.sys (t.sys.setPty
          { t.sys.pty with waiter := Function.update t.sys.pty.waiter call.waiter 0 }) :=
        ⟨⟨rfl, rfl, rfl, rfl⟩, rfl, rfl, rfl⟩
      cases call with
      | masterRead count => exact h.elsewhere hs rfl (masterReadFrom_elsewhere _ pid count)
      | slaveWrite data total =>
        exact h.elsewhere hs rfl (slaveWriteFrom_elsewhere _ pid data total [])
      | slaveRead canonical count =>
        have hkind := h.calls pid canonical count hcall
        subst hkind
        exact h.read hs rfl pid _ count

/-- A step that returns at once or is none. -/
theorem inputStream_step (hinlcr : modes &&& ptyInlcr = 0) (op : PtyOp) (hsafe : SafeStep t op) :
    InputStream modes (t.step op) := by
  obtain ⟨hfixed, hbytes⟩ := hsafe
  have hs := SameStores.refl t.sys
  cases op with
  | setModes m => exact hfixed.elim
  | close isMaster => exact hfixed.elim
  | resume pid => exact inputStream_resume h pid
  | wake pid => exact h.other ⟨⟨rfl, rfl, rfl, rfl⟩, rfl, rfl, rfl⟩ fun _ _ _ => id
  | masterWrite pid data =>
    unfold PtyInputTrace.step PtySys.step
    dsimp only
    cases hcall : t.sys.calls pid with
    | some call =>
      rw [Option.isSome_some, if_pos rfl]
      change InputStream modes { t with accepted := t.accepted ++ [] }
      rw [List.append_nil]
      exact h
    | none => exact h.write hinlcr pid data (hbytes hcall)
  | masterRead pid count =>
    unfold PtyInputTrace.step PtySys.step PtySys.callOf
    dsimp only
    cases hcall : t.sys.calls pid with
    | some call => exact h
    | none =>
      unfold ptyMasterRead
      rw [h.setup.masterOpen, h.setup.inUse]
      exact h.elsewhere hs rfl (masterReadFrom_elsewhere _ pid count)
  | slaveWrite pid data =>
    unfold PtyInputTrace.step PtySys.step PtySys.callOf
    dsimp only
    cases hcall : t.sys.calls pid with
    | some call => exact h
    | none =>
      unfold ptySlaveWrite
      rw [h.setup.masterOpen, h.setup.inUse, h.setup.slaveOpen]
      exact h.elsewhere hs rfl (slaveWriteFrom_elsewhere _ pid data 0 [])
  | slaveRead pid count =>
    unfold PtyInputTrace.step PtySys.step PtySys.callOf
    dsimp only
    cases hcall : t.sys.calls pid with
    | some call => exact h
    | none =>
      have hmode : t.sys.pty.has ptyIcanon = RefDisc.on modes ptyIcanon := by
        rw [PtyPair.has, h.setup.modes, RefDisc.on]
      unfold ptySlaveRead
      rw [h.setup.inUse, h.setup.slaveOpen, hmode]
      exact h.read hs rfl pid _ count

end Steps

end Lestra
