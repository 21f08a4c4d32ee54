import Lestra.Lib.Run
import Lestra.Libc.Streams

/-!
# What flows through a stream

* `OutFlow`, `InFlow` — the bytes on the two sides of a buffer
* `stdio_streams_flow` — in every run of the library, on every stream that was opened in one
  direction, the bytes arrive on the other side in order, each of them once
-/

namespace Lestra

open Halting

-- ---------------------------------------------------------------------------
-- The two sides
-- ---------------------------------------------------------------------------

def StreamEvent.putOf : StreamEvent → List UInt8
  | .put bytes => bytes
  | _ => []

def StreamEvent.wroteOf : StreamEvent → List UInt8
  | .wrote bytes => bytes
  | _ => []

def StreamEvent.readOf : StreamEvent → List UInt8
  | .read bytes => bytes
  | _ => []

def StreamEvent.gotOf : StreamEvent → List UInt8
  | .got bytes => bytes
  | _ => []

/-- What the calls have accepted. -/
def acceptedBytes (log : List StreamEvent) : List UInt8 := log.flatMap StreamEvent.putOf

/-- What the kernel has taken. -/
def wroteBytes (log : List StreamEvent) : List UInt8 := log.flatMap StreamEvent.wroteOf

/-- What the kernel has given. -/
def readBytes (log : List StreamEvent) : List UInt8 := log.flatMap StreamEvent.readOf

/-- What the calls have returned. -/
def gotBytes (log : List StreamEvent) : List UInt8 := log.flatMap StreamEvent.gotOf

/-- A stream for output: what was accepted is written, or still in the buffer. -/
structure OutFlow (f : CFile) (log : List StreamEvent) : Prop where
  readable : f.readable = false
  writable : f.writable = true
  clean : f.dirty = false → f.bufPos = 0
  bare : f.buf = none → f.bufPos = 0
  flow : .refused ∉ log → wroteBytes log ++ f.pending = acceptedBytes log

/-- A stream for input: what was given is returned, or still in the buffer. -/
structure InFlow (f : CFile) (log : List StreamEvent) : Prop where
  readable : f.readable = true
  writable : f.writable = false
  inside : f.bufPos ≤ f.bufLen
  bare : f.buf = none → f.bufLen = 0
  flow : gotBytes log ++ f.unread = readBytes log

-- ---------------------------------------------------------------------------
-- The buffer
-- ---------------------------------------------------------------------------

theorem pending_zero {f : CFile} (h : f.bufPos = 0) : f.pending = [] := by
  rw [CFile.pending, h]
  rfl

theorem length_pending (f : CFile) : f.pending.length = f.bufPos := ByteBuf.length_load _ _ _

/-- A block is its front and the rest. -/
theorem load_add (b : List UInt8) (off m n : ℕ) :
    ByteBuf.load b off (m + n) = ByteBuf.load b off m ++ ByteBuf.load b (off + m) n := by
  rw [ByteBuf.load, List.range_add, List.map_append, List.map_map]
  refine congrArg _ (List.map_congr_left fun i _ => ?_)
  rw [Function.comp_apply, Nat.add_assoc]

theorem load_stored (b bs : List UInt8) (off : ℕ) :
    ByteBuf.load (ByteBuf.store b off bs) off bs.length = bs := by
  refine List.ext_getElem (ByteBuf.length_load _ _ _) fun i h₁ h₂ => ?_
  rw [(List.getElem_eq_iff _).mpr (ByteBuf.getElem?_load h₂), ByteBuf.get_store,
    if_pos ⟨by omega, by omega⟩, Nat.add_sub_cancel_left]
  exact List.getD_eq_getElem _ _ h₂

/-- The bytes in front of a block, and the block. -/
theorem load_store_append (b bs : List UInt8) (off : ℕ) :
    ByteBuf.load (ByteBuf.store b off bs) 0 (off + bs.length) = ByteBuf.load b 0 off ++ bs := by
  have hfront : ByteBuf.load (ByteBuf.store b off bs) 0 off = ByteBuf.load b 0 off :=
    ByteBuf.load_congr fun i _ hi => ByteBuf.get_store_of_lt (by omega)
  rw [load_add, hfront, Nat.zero_add, load_stored]

theorem pending_appended (f : CFile) (chunk : List UInt8)
    (h : f.bufPos + chunk.length ≤ bufsizStd) :
    (f.appended (f.buf.getD []) chunk h).pending = f.pending ++ chunk :=
  load_store_append (f.buf.getD []) chunk f.bufPos

theorem unread_filled (f : CFile) (buf bytes : List UInt8) (h : bytes.length ≤ bufsizStd) :
    (f.filled buf bytes h).unread = bytes := by
  have hload := load_store_append buf bytes 0
  rw [Nat.zero_add] at hload
  exact hload

theorem unread_empty {f : CFile} (h : f.bufLen ≤ f.bufPos) : f.unread = [] := by
  rw [CFile.unread, Nat.sub_eq_zero_of_le h]
  rfl

/-- What is taken out of the buffer, and what is left. -/
theorem unread_advanced (f : CFile) (n : ℕ) :
    f.unread = f.unread.take n ++ (f.advanced n).unread := by
  have hsplit : f.unread = ByteBuf.load (f.buf.getD []) f.bufPos (min n (f.bufLen - f.bufPos)) ++
      (f.advanced n).unread := by
    have hrest : (f.advanced n).unread = ByteBuf.load (f.buf.getD [])
        (f.bufPos + min n (f.bufLen - f.bufPos))
        (f.bufLen - (f.bufPos + min n (f.bufLen - f.bufPos))) := rfl
    rw [hrest, ← load_add, CFile.unread]
    congr 1
    omega
  have hfront : f.unread.take n =
      ByteBuf.load (f.buf.getD []) f.bufPos (min n (f.bufLen - f.bufPos)) := by
    have hlen : f.unread.length = f.bufLen - f.bufPos := ByteBuf.length_load _ _ _
    have hmin : f.unread.take n = f.unread.take (min n (f.bufLen - f.bufPos)) := by
      rw [← hlen, List.take_eq_take_min]
    rw [hmin, hsplit, List.take_left' (ByteBuf.length_load _ _ _)]
  rw [hfront]
  exact hsplit

-- ---------------------------------------------------------------------------
-- Output
-- ---------------------------------------------------------------------------

variable {ω : Type} (io : SysIo ω)

/-- The loop ends behind the data, or with a result that is not positive. -/
theorem writeAll_spec (fd : ℤ) (data : List UInt8) (w : ω) :
    (writeAll io fd data w).1 ≤ data.length ∧
      ((writeAll io fd data w).2.1 = none → (writeAll io fd data w).1 = data.length) := by
  induction hlen : data.length using Nat.strongRecOn generalizing data w with
  | ind n ih =>
    rw [writeAll]
    split
    · exact ⟨Nat.zero_le _, fun _ => by omega⟩
    · have hle := io.write_le fd data w
      generalize io.write fd data w = result at hle ⊢
      obtain ⟨r, w'⟩ := result
      dsimp only at hle ⊢
      split
      · exact ⟨Nat.zero_le _, fun h => by cases h⟩
      · have hdrop : (data.drop r.toNat).length = n - r.toNat := by rw [List.length_drop, hlen]
        obtain ⟨hbound, hall⟩ := ih _ (by omega) (data.drop r.toNat) w' hdrop
        refine ⟨?_, fun hnone => ?_⟩
        · show r.toNat + _ ≤ n
          omega
        · have := hall hnone
          show r.toNat + _ = n
          omega

theorem writeEvents_put (data : List UInt8) (n : ℕ) (e : Option ℤ) :
    acceptedBytes (writeEvents data n e) = [] := by
  cases e <;> rfl

theorem writeEvents_wrote (data : List UInt8) (n : ℕ) (e : Option ℤ) :
    wroteBytes (writeEvents data n e) = data.take n := by
  cases e <;> exact List.append_nil _

theorem writeEvents_refused {data : List UInt8} {n : ℕ} {e : Option ℤ}
    (h : .refused ∉ writeEvents data n e) : e = none := by
  cases e with
  | none => rfl
  | some r => exact absurd (List.mem_cons_of_mem _ (List.mem_singleton_self _)) h

/-- The state of a stream for output, as the invariant of the calls. -/
def Flowing (s : CStream ω) : Prop := OutFlow s.file s.log

/-- A stream for output is written out, or what is left is lost. -/
theorem fileFlushWrite_flowing :
    Returns Flowing (fileFlushWrite io) fun _ s => Flowing s ∧ s.file.bufPos = 0 := by
  refine Returns.look fun s hs => ?_
  have hkeep : s.file.bufPos = 0 → ∀ {a : Bool},
      Returns (fun s' => s' = s) (pure a : StdIo ω Bool) fun _ s => Flowing s ∧ s.file.bufPos = 0 :=
    fun hpos => Returns.ret fun s' hs' => hs' ▸ ⟨hs, hpos⟩
  refine Returns.ite (fun hclean => hkeep (hs.clean (by simpa using hclean))) fun _ => ?_
  refine Returns.ite (fun hempty => ?_) fun _ => ?_
  · have hpos : s.file.bufPos = 0 := by
      rcases hempty with hnone | hpos
      · exact hs.bare (Option.isNone_iff_eq_none.mp hnone)
      · exact hpos
    refine Returns.bind (Q := fun _ s => Flowing s ∧ s.file.bufPos = 0) (Returns.change ?_)
      fun _ => Returns.ret fun _ h => h
    rintro s rfl
    exact ⟨⟨hs.readable, hs.writable, fun _ => hpos, hs.bare, hs.flow⟩, hpos⟩
  · obtain ⟨hle, hall⟩ := writeAll_spec io s.file.fd s.file.pending s.host
    refine Returns.bind (Q := fun _ s => Flowing s ∧ s.file.bufPos = 0) (Returns.change ?_)
      fun _ => Returns.ret fun _ h => h
    rintro s rfl
    refine ⟨⟨hs.readable, hs.writable, fun _ => rfl, fun _ => rfl, fun hno => ?_⟩, rfl⟩
    rw [List.mem_append, not_or] at hno
    have hn := hall (writeEvents_refused hno.2)
    have hflow := hs.flow hno.1
    have hpending : CFile.pending { s.file.emptied with
        err := s.file.err || writeFailed (writeAll io s.file.fd s.file.pending s.host).2.1 } = [] :=
      rfl
    rw [hpending, List.append_nil]
    show wroteBytes (s.log ++ writeEvents s.file.pending _ _) =
      acceptedBytes (s.log ++ writeEvents s.file.pending _ _)
    rw [wroteBytes, acceptedBytes, List.flatMap_append, List.flatMap_append]
    have hput := writeEvents_put s.file.pending (writeAll io s.file.fd s.file.pending s.host).1
      (writeAll io s.file.fd s.file.pending s.host).2.1
    have hwrote := writeEvents_wrote s.file.pending (writeAll io s.file.fd s.file.pending s.host).1
      (writeAll io s.file.fd s.file.pending s.host).2.1
    rw [acceptedBytes] at hput
    rw [wroteBytes] at hwrote
    rw [hput, hwrote, hn, List.take_length, List.append_nil]
    exact hflow

theorem fflush_flowing :
    Returns Flowing (fflush io) fun _ s => Flowing s ∧ s.file.bufPos = 0 := by
  refine Returns.look fun s hs => ?_
  rw [if_pos hs.writable]
  exact (fileFlushWrite_flowing io).weaken (fun _ h => h ▸ hs) fun _ _ h => h

/-- Bytes that fit are appended to those in the buffer. -/
theorem appendChunk_flowing (chunk : List UInt8) :
    Returns (fun s : CStream ω => Flowing s ∧ s.file.bufPos + chunk.length ≤ bufsizStd)
      (appendChunk chunk) fun _ => Flowing := by
  refine Returns.look fun s ⟨hs, hfit⟩ => ?_
  rw [dif_pos hfit]
  refine Returns.change ?_
  rintro s rfl
  refine ⟨hs.readable, hs.writable, (by rintro ⟨⟩), (by rintro ⟨⟩), fun hno => ?_⟩
  rw [List.mem_append, not_or] at hno
  have hflow := hs.flow hno.1
  show wroteBytes (s.log ++ [.put chunk]) ++ (s.file.appended _ chunk hfit).pending =
    acceptedBytes (s.log ++ [.put chunk])
  rw [pending_appended, wroteBytes, acceptedBytes, List.flatMap_append, List.flatMap_append,
    List.append_assoc]
  show wroteBytes s.log ++ ([] ++ (s.file.pending ++ chunk)) = acceptedBytes s.log ++ (chunk ++ [])
  rw [List.nil_append, List.append_nil, ← List.append_assoc, hflow]

/-- Behind a flush, if there was one, there is room. -/
theorem room_flowing {s : CStream ω} (hs : Flowing s) :
    Returns (fun s' => s' = s)
      (flushWhen io (s.file.bufPos = bufsizStd)) fun _ s' => Flowing s' ∧ s'.file.bufPos + roomFor s.file ≤ bufsizStd := by
  refine Returns.ite (fun hfull => ?_) fun hroom => ?_
  · refine (fileFlushWrite_flowing io).weaken (fun _ h => h ▸ hs) fun _ s' h => ⟨h.1, ?_⟩
    rw [h.2, roomFor, if_pos (of_decide_eq_true hfull), Nat.zero_add]
  · refine Returns.ret fun s' h => ?_
    have hle := s.file.pos_le
    rw [decide_eq_true_iff] at hroom
    rw [h, roomFor, if_neg hroom]
    exact ⟨hs, by omega⟩

theorem fwriteLoop_flowing (data : List UInt8) :
    Returns Flowing (fwriteLoop io data) fun _ => Flowing := by
  induction hlen : data.length using Nat.strongRecOn generalizing data with
  | ind n ih =>
    rw [fwriteLoop]
    refine Returns.ite (fun _ => Returns.ret fun _ h => h) fun hne => Returns.look fun s hs => ?_
    have hpos := roomFor_pos s.file
    refine Returns.bind (room_flowing io hs) fun ok => ?_
    refine Returns.ite (fun _ => ?_) fun _ => Returns.ret fun _ h => h.1
    refine Returns.bind ((appendChunk_flowing (data.take (roomFor s.file))).weaken
      (fun s' h => ⟨h.1, ?_⟩) fun _ _ h => h) fun _ => ?_
    · have := List.length_take_le (roomFor s.file) data
      have := h.2
      omega
    · refine Returns.bind (ih (data.drop (roomFor s.file)).length ?_ _ rfl) fun _ =>
        Returns.ret fun _ h => h
      rw [List.length_drop]
      omega

theorem writeThrough_flowing (data : List UInt8) :
    Returns (fun s : CStream ω => Flowing s ∧ s.file.buf = none) (writeThrough io data)
      fun _ => Flowing := by
  refine Returns.look fun s ⟨hs, hbare⟩ => ?_
  refine Returns.bind (Q := fun _ => Flowing) (Returns.change ?_) fun _ => Returns.ret fun _ h => h
  rintro s rfl
  refine ⟨hs.readable, hs.writable, hs.clean, hs.bare, fun hno => ?_⟩
  rw [List.mem_append, not_or] at hno
  have hflow := hs.flow hno.1
  have hpos := hs.bare hbare
  have hpending : CFile.pending { s.file with
      err := s.file.err || writeFailed (writeAll io s.file.fd data s.host).2.1 } = [] :=
    pending_zero hpos
  rw [pending_zero hpos, List.append_nil] at hflow
  rw [hpending, List.append_nil]
  have hwrote := writeEvents_wrote data (writeAll io s.file.fd data s.host).1
    (writeAll io s.file.fd data s.host).2.1
  have hput := writeEvents_put data (writeAll io s.file.fd data s.host).1
    (writeAll io s.file.fd data s.host).2.1
  rw [acceptedBytes] at hput
  rw [wroteBytes] at hwrote
  show wroteBytes (s.log ++ .put _ :: writeEvents _ _ _) =
    acceptedBytes (s.log ++ .put _ :: writeEvents _ _ _)
  rw [wroteBytes, acceptedBytes, List.flatMap_append, List.flatMap_append, List.flatMap_cons,
    List.flatMap_cons, hwrote, hput, List.append_nil]
  show wroteBytes s.log ++ data.take _ = acceptedBytes s.log ++ data.take _
  rw [hflow]

theorem fwriteBytes_flowing (data : List UInt8) :
    Returns Flowing (fwriteBytes io data) fun _ => Flowing := by
  refine Returns.ite (fun _ => Returns.ret fun _ h => h) fun _ => Returns.look fun s hs => ?_
  rw [if_neg (by rw [hs.writable]; exact not_not.mpr rfl)]
  refine Returns.ite (fun hnone => ?_) fun _ => ?_
  · exact (writeThrough_flowing io data).weaken
      (fun _ h => h ▸ ⟨hs, Option.isNone_iff_eq_none.mp hnone⟩) fun _ _ h => h
  · exact (fwriteLoop_flowing io data).weaken (fun _ h => h ▸ hs) fun _ _ h => h

theorem fwrite_flowing (data : List UInt8) (size : ℕ) :
    Returns Flowing (fwrite io data size) fun _ => Flowing :=
  Returns.bind (fwriteBytes_flowing io data) fun _ => Returns.ret fun _ h => h

theorem fputc_flowing (std : Bool) (c : UInt8) :
    Returns Flowing (fputc io std c) fun _ => Flowing := by
  refine Returns.look fun s hs => ?_
  rw [if_neg (by rw [hs.writable]; exact not_not.mpr rfl)]
  refine Returns.ite (fun hnone => ?_) fun _ => ?_
  · refine Returns.bind ((writeThrough_flowing io [c]).weaken
      (fun _ h => h ▸ ⟨hs, Option.isNone_iff_eq_none.mp hnone⟩) fun _ _ h => h) fun _ => ?_
    exact Returns.ite (fun _ => Returns.ret fun _ h => h) fun _ => Returns.ret fun _ h => h
  · have hroom : Returns (fun s' => s' = s)
        (flushWhen io (bufsizStd ≤ s.file.bufPos)) fun _ s' => Flowing s' ∧ s'.file.bufPos + [c].length ≤ bufsizStd := by
      refine Returns.ite (fun _ => ?_) fun hlt => Returns.ret fun s' h => ?_
      · refine (fileFlushWrite_flowing io).weaken (fun _ h => h ▸ hs) fun _ s' h => ⟨h.1, ?_⟩
        rw [h.2, List.length_singleton]
        decide
      · rw [decide_eq_true_iff] at hlt
        rw [h, List.length_singleton]
        exact ⟨hs, Nat.lt_of_not_le hlt⟩
    refine Returns.bind hroom fun _ => Returns.ite (fun _ => ?_) fun _ => Returns.ret fun _ h => h.1
    refine Returns.bind (appendChunk_flowing [c]) fun _ => Returns.ite (fun _ => ?_) fun _ =>
      Returns.ret fun _ h => h
    exact Returns.bind (fileFlushWrite_flowing io) fun _ => Returns.ret fun _ h => h.1

/-- A call in the other direction. -/
theorem wrongMode_flowing : Returns Flowing (wrongMode (ω := ω)) fun _ => Flowing :=
  Returns.change fun _ hs => ⟨hs.readable, hs.writable, hs.clean, hs.bare, hs.flow⟩

theorem fread_flowing (want : ℕ) : Returns Flowing (fread io want) fun _ => Flowing := by
  refine Returns.ite (fun _ => Returns.ret fun _ h => h) fun _ => Returns.look fun s hs => ?_
  rw [if_pos (by rw [hs.readable]; exact Bool.false_ne_true)]
  exact Returns.bind (wrongMode_flowing.weaken (fun _ h => h ▸ hs) fun _ _ h => h) fun _ =>
    Returns.ret fun _ h => h

theorem fgetc_flowing : Returns Flowing (fgetc io) fun _ => Flowing := by
  refine Returns.look fun s hs => ?_
  rw [if_pos (by rw [hs.readable]; exact Bool.false_ne_true)]
  exact Returns.bind (wrongMode_flowing.weaken (fun _ h => h ▸ hs) fun _ _ h => h) fun _ =>
    Returns.ret fun _ h => h

theorem clearerr_flowing : Returns Flowing (clearerr (ω := ω)) fun _ => Flowing :=
  Returns.change fun _ hs => ⟨hs.readable, hs.writable, hs.clean, hs.bare, hs.flow⟩

-- ---------------------------------------------------------------------------
-- Input
-- ---------------------------------------------------------------------------

/-- The state of a stream for input, as the invariant of the calls. -/
def Reading (s : CStream ω) : Prop := InFlow s.file s.log

/-- Nothing is left in the buffer. -/
def Drained (s : CStream ω) : Prop := s.file.bufLen ≤ s.file.bufPos

/-- The kernel has given these bytes, and nobody has them yet. -/
structure Owing (bytes : List UInt8) (s : CStream ω) : Prop where
  readable : s.file.readable = true
  writable : s.file.writable = false
  inside : s.file.bufPos ≤ s.file.bufLen
  bare : s.file.buf = none → s.file.bufLen = 0
  drained : Drained s
  flow : gotBytes s.log ++ bytes = readBytes s.log

theorem Reading.owing {s : CStream ω} (h : Reading s) (hdrained : Drained s) : Owing [] s := by
  refine ⟨h.readable, h.writable, h.inside, h.bare, hdrained, ?_⟩
  have hflow := h.flow
  rwa [unread_empty hdrained] at hflow

theorem Owing.reading {s : CStream ω} (h : Owing [] s) : Reading s := by
  refine ⟨h.readable, h.writable, h.inside, h.bare, ?_⟩
  rw [unread_empty h.drained]
  exact h.flow

theorem readSys_owing (n : ℕ) :
    Returns (fun s => Reading s ∧ Drained s) (readSys io n)
      fun bytes s => Owing bytes s ∧ bytes.length ≤ n := by
  rintro s ⟨hs, hdrained⟩
  have howing := hs.owing hdrained
  have hle := io.read_le s.file.fd n s.host
  rw [readSys]
  cases hread : (io.read s.file.fd n s.host).1 with
  | error e =>
    exact ⟨[], _, rfl, ⟨hs.readable, hs.writable, hs.inside, hs.bare, hdrained, howing.flow⟩,
      Nat.zero_le n⟩
  | ok bytes =>
    cases bytes with
    | nil =>
      exact ⟨[], _, rfl, ⟨hs.readable, hs.writable, hs.inside, hs.bare, hdrained, howing.flow⟩,
        Nat.zero_le n⟩
    | cons b bytes =>
      refine ⟨b :: bytes, _, rfl, ⟨hs.readable, hs.writable, hs.inside, hs.bare, hdrained, ?_⟩,
        hle _ hread⟩
      have hflow := howing.flow
      rw [List.append_nil] at hflow
      show gotBytes (s.log ++ [.read (b :: bytes)]) ++ b :: bytes =
        readBytes (s.log ++ [.read (b :: bytes)])
      rw [gotBytes, readBytes, List.flatMap_append, List.flatMap_append]
      show gotBytes s.log ++ [] ++ b :: bytes = readBytes s.log ++ (b :: bytes ++ [])
      rw [List.append_nil, List.append_nil, hflow]

/-- They go to the caller. -/
theorem noteGot_reading (bytes : List UInt8) :
    Returns (Owing bytes) (noteEvents (ω := ω) [.got bytes]) fun _ s => Reading s ∧ Drained s := by
  refine Returns.change fun s hs => ⟨⟨hs.readable, hs.writable, hs.inside, hs.bare, ?_⟩, hs.drained⟩
  have hunread : s.file.unread = [] := unread_empty hs.drained
  show gotBytes (s.log ++ [.got bytes]) ++ s.file.unread = readBytes (s.log ++ [.got bytes])
  rw [hunread, List.append_nil, gotBytes, readBytes, List.flatMap_append, List.flatMap_append]
  show gotBytes s.log ++ (bytes ++ []) = readBytes s.log ++ []
  rw [List.append_nil, List.append_nil, hs.flow]

/-- They go into the buffer. -/
theorem fillBuf_reading {bytes : List UInt8} (hlen : bytes.length ≤ bufsizStd) :
    Returns (Owing bytes) (fillBuf (ω := ω) bytes) fun _ => Reading := by
  refine Returns.look fun s hs => ?_
  rw [dif_pos hlen]
  refine Returns.change ?_
  rintro s rfl
  refine ⟨hs.readable, hs.writable, Nat.zero_le _, (by rintro ⟨⟩), ?_⟩
  show gotBytes s.log ++ (s.file.filled _ bytes hlen).unread = readBytes s.log
  rw [unread_filled]
  exact hs.flow

/-- The front of the buffer goes to the caller; all of it, if it is less than wanted. -/
theorem drain_reading (want : ℕ) :
    Returns Reading (drain (ω := ω) want)
      fun front s => Reading s ∧ (want - front.length = 0 ∨ Drained s) := by
  refine Returns.look fun s hs => ?_
  have hlen : s.file.unread.length = s.file.bufLen - s.file.bufPos := ByteBuf.length_load _ _ _
  have hinside := hs.inside
  refine Returns.bind (Q := fun _ s' => Reading s' ∧
      (want - (s.file.unread.take want).length = 0 ∨ Drained s')) (Returns.change ?_) fun _ =>
    Returns.ret fun _ h => h
  rintro s rfl
  refine ⟨⟨hs.readable, hs.writable, ?_, hs.bare, ?_⟩, ?_⟩
  · show s.file.bufPos + min want (s.file.bufLen - s.file.bufPos) ≤ s.file.bufLen
    omega
  · have hflow := hs.flow
    rw [unread_advanced s.file want] at hflow
    show gotBytes (s.log ++ [.got (s.file.unread.take want)]) ++ (s.file.advanced want).unread =
      readBytes (s.log ++ [.got (s.file.unread.take want)])
    rw [gotBytes, readBytes, List.flatMap_append, List.flatMap_append]
    show gotBytes s.log ++ (s.file.unread.take want ++ []) ++ (s.file.advanced want).unread =
      readBytes s.log ++ []
    rw [List.append_nil, List.append_nil, List.append_assoc, hflow]
  · rw [List.length_take, hlen]
    by_cases hall : want ≤ s.file.bufLen - s.file.bufPos
    · exact .inl (by omega)
    · refine .inr ?_
      show s.file.bufLen ≤ s.file.bufPos + min want (s.file.bufLen - s.file.bufPos)
      omega

theorem freadLoop_reading (turns want : ℕ) :
    Returns (fun s => Reading s ∧ (want = 0 ∨ Drained s)) (freadLoop io turns want)
      fun _ => Reading := by
  induction turns generalizing want with
  | zero => exact Returns.ret fun _ h => h.1
  | succ turns ih =>
    refine Returns.ite (fun _ => Returns.ret fun _ h => h.1) fun hne => ?_
    refine Returns.look fun s ⟨hs, hor⟩ => ?_
    have hdrained := hor.resolve_left hne
    refine Returns.ite (fun _ => ?_) fun _ => ?_
    · refine Returns.bind ((readSys_owing io want).weaken (fun _ h => h ▸ ⟨hs, hdrained⟩)
        fun _ _ h => h.1) fun bytes => ?_
      refine Returns.ite (fun hnil => ?_) fun _ => ?_
      · obtain rfl := List.length_eq_zero_iff.mp hnil
        exact Returns.ret fun _ h => h.reading
      · refine Returns.bind (noteGot_reading bytes) fun _ => ?_
        exact Returns.bind ((ih _).weaken (fun _ h => ⟨h.1, .inr h.2⟩) fun _ _ h => h) fun _ =>
          Returns.ret fun _ h => h
    · refine Returns.bind ((readSys_owing io bufsizStd).weaken (fun _ h => h ▸ ⟨hs, hdrained⟩)
        fun _ _ h => h) fun bytes => ?_
      refine Returns.ite (fun hnil => ?_) fun _ => ?_
      · obtain rfl := List.length_eq_zero_iff.mp hnil
        exact Returns.ret fun _ h => h.1.reading
      · intro s' ⟨howing, hlen⟩
        refine Returns.bind (fillBuf_reading hlen) (fun _ => ?_) s' howing
        refine Returns.bind (drain_reading want) fun front => ?_
        exact Returns.bind (ih _) fun _ => Returns.ret fun _ h => h

theorem fread_reading (want : ℕ) : Returns Reading (fread io want) fun _ => Reading := by
  refine Returns.ite (fun _ => Returns.ret fun _ h => h) fun _ => Returns.look fun s hs => ?_
  rw [if_neg (by rw [hs.readable]; exact not_not.mpr rfl)]
  refine Returns.bind ((drain_reading want).weaken (fun _ h => h ▸ hs) fun _ _ h => h) fun front => ?_
  exact Returns.bind (freadLoop_reading io want _) fun _ => Returns.ret fun _ h => h

theorem fgetc_reading : Returns Reading (fgetc io) fun _ => Reading := by
  refine Returns.look fun s hs => ?_
  rw [if_neg (by rw [hs.readable]; exact not_not.mpr rfl)]
  have hdrain : ∀ {P : CStream ω → Prop}, (∀ s, P s → Reading s) →
      Returns P (drain 1 >>= fun front => pure front.head?) fun _ => Reading := fun hP =>
    Returns.bind ((drain_reading 1).weaken hP fun _ _ h => h) fun _ => Returns.ret fun _ h => h.1
  refine Returns.ite (fun hnone => ?_) fun _ => Returns.ite (fun hempty => ?_) fun _ => ?_
  · have hdrained : Drained s := by
      have := hs.bare (Option.isNone_iff_eq_none.mp hnone)
      unfold Drained
      omega
    refine Returns.bind ((readSys_owing io 1).weaken (fun _ h => h ▸ ⟨hs, hdrained⟩)
      fun _ _ h => h.1) fun bytes => ?_
    exact Returns.bind (noteGot_reading bytes) fun _ => Returns.ret fun _ h => h.1
  · refine Returns.bind ((readSys_owing io bufsizStd).weaken (fun _ h => h ▸ ⟨hs, hempty⟩)
      fun _ _ h => h) fun bytes => ?_
    refine Returns.ite (fun hnil => ?_) fun _ => ?_
    · obtain rfl := List.length_eq_zero_iff.mp hnil
      exact Returns.ret fun _ h => h.1.reading
    · intro s' ⟨howing, hlen⟩
      exact Returns.bind (fillBuf_reading hlen) (fun _ => hdrain fun _ h => h) s' howing
  · exact hdrain fun _ h => h ▸ hs

theorem wrongMode_reading : Returns Reading (wrongMode (ω := ω)) fun _ => Reading :=
  Returns.change fun _ hs => ⟨hs.readable, hs.writable, hs.inside, hs.bare, hs.flow⟩

theorem clearerr_reading : Returns Reading (clearerr (ω := ω)) fun _ => Reading :=
  Returns.change fun _ hs => ⟨hs.readable, hs.writable, hs.inside, hs.bare, hs.flow⟩

theorem fflush_reading : Returns Reading (fflush io) fun _ => Reading := by
  refine Returns.look fun s hs => ?_
  rw [if_neg (by rw [hs.writable]; exact Bool.false_ne_true)]
  exact Returns.ret fun _ h => h ▸ hs

theorem fwrite_reading (data : List UInt8) (size : ℕ) :
    Returns Reading (fwrite io data size) fun _ => Reading := by
  have hbytes : Returns Reading (fwriteBytes io data) fun _ => Reading := by
    refine Returns.ite (fun _ => Returns.ret fun _ h => h) fun _ => Returns.look fun s hs => ?_
    rw [if_pos (by rw [hs.writable]; exact Bool.false_ne_true)]
    exact Returns.bind (wrongMode_reading.weaken (fun _ h => h ▸ hs) fun _ _ h => h) fun _ =>
      Returns.ret fun _ h => h
  exact Returns.bind hbytes fun _ => Returns.ret fun _ h => h

theorem fputc_reading (std : Bool) (c : UInt8) :
    Returns Reading (fputc io std c) fun _ => Reading := by
  refine Returns.look fun s hs => ?_
  rw [if_pos (by rw [hs.writable]; exact Bool.false_ne_true)]
  exact Returns.bind (wrongMode_reading.weaken (fun _ h => h ▸ hs) fun _ _ h => h) fun _ =>
    Returns.ret fun _ h => h

-- ---------------------------------------------------------------------------
-- Calls that are made of others
-- ---------------------------------------------------------------------------

section Composed

variable {I : CStream ω → Prop} (hwrite : ∀ data, Returns I (fwrite io data 1) fun _ => I)
  (hputc : ∀ std c, Returns I (fputc io std c) fun _ => I)

include hwrite in
theorem fputs_keeps (str : List UInt8) : Returns I (fputs io str) fun _ => I :=
  Returns.bind (hwrite str) fun _ =>
    Returns.ite (fun _ => Returns.ret fun _ h => h) fun _ => Returns.ret fun _ h => h

include hwrite hputc in
theorem puts_keeps (str : List UInt8) : Returns I (puts io str) fun _ => I := by
  refine Returns.bind (hwrite str) fun _ => Returns.ite (fun _ => Returns.ret fun _ h => h) fun _ => ?_
  refine Returns.bind (hputc true _) fun r => ?_
  cases r <;> exact Returns.ret fun _ h => h

include hwrite in
theorem vfprintf_keeps (fmt : List UInt8) (ap : VarArgs.VaList) :
    Returns I (vfprintf io fmt ap) fun _ => I := by
  unfold vfprintf
  dsimp only
  refine Returns.ite (fun _ => Returns.ret fun _ h => h) fun _ => ?_
  exact Returns.bind (hwrite _) fun _ =>
    Returns.ite (fun _ => Returns.ret fun _ h => h) fun _ => Returns.ret fun _ h => h

end Composed

-- ---------------------------------------------------------------------------
-- All streams
-- ---------------------------------------------------------------------------

/-- A stream as it was opened, open or closed. -/
structure StreamLaw (mode : Option (Bool × Bool)) (file : Option CFile) (log : List StreamEvent) :
    Prop where
  known : ∀ f, file = some f →
    mode = some (false, true) ∨ mode = some (true, false) ∨ mode = some (true, true)
  out : mode = some (false, true) → ∀ f, file = some f → OutFlow f log
  written : mode = some (false, true) → file = none → .refused ∉ log → wroteBytes log = acceptedBytes log
  inp : mode = some (true, false) → ∀ f, file = some f → InFlow f log
  returned : mode = some (true, false) → file = none → gotBytes log <+: readBytes log

structure Lawful (t : Stdio ω) : Prop where
  streams : ∀ i, StreamLaw (t.modes i) (t.files i) (t.logs i)
  hung : ∀ i, t.hung = some i → t.files i = none ∨ t.modes i = some (true, true)

variable {io} {t : Stdio ω}

theorem Lawful.running (h : ∀ i, StreamLaw (t.modes i) (t.files i) (t.logs i))
    (hhung : t.hung = none) : Lawful t :=
  ⟨h, fun i hi => by rw [hhung] at hi; cases hi⟩

/-- One stream is replaced. -/
theorem streams_update {i : ℕ} {mode : Option (Bool × Bool)} {file : Option CFile}
    {log : List StreamEvent} (h : ∀ j, StreamLaw (t.modes j) (t.files j) (t.logs j))
    (hi : StreamLaw mode file log) (j : ℕ) :
    StreamLaw (Function.update t.modes i mode j) (Function.update t.files i file j)
      (Function.update t.logs i log j) := by
  rcases eq_or_ne j i with rfl | hne
  · rwa [Function.update_self, Function.update_self, Function.update_self]
  · rw [Function.update_of_ne hne, Function.update_of_ne hne, Function.update_of_ne hne]
    exact h j

/-- A call that returns, on an open stream. -/
theorem call_returned {α : Type} {m : StdIo ω α} {P Q : CStream ω → Prop} {i : ℕ} {file : CFile}
    (hm : Returns P m fun _ => Q) (hfile : t.files i = some file)
    (hP : P ⟨file, t.logs i, t.errno, t.host⟩) :
    ∃ s : CStream ω, Q s ∧ t.call i m = { t with
      files := Function.update t.files i (some s.file)
      logs := Function.update t.logs i s.log
      errno := s.errno
      host := s.host
      hung := none } := by
  obtain ⟨a, s, hret, hQ⟩ := hm _ hP
  refine ⟨s, hQ, ?_⟩
  rw [Stdio.call, hfile]
  dsimp only
  rw [hret]
  rfl

/-- A call that keeps both flows. -/
theorem Lawful.call {α : Type} {m : StdIo ω α} (h : Lawful t) (i : ℕ)
    (hout : Returns Flowing m fun _ => Flowing) (hin : Returns Reading m fun _ => Reading) :
    Lawful (t.call i m) := by
  cases hfile : t.files i with
  | none =>
    rw [Stdio.call, hfile]
    refine ⟨h.streams, fun j hj => .inl ?_⟩
    obtain rfl := Option.some.inj hj
    exact hfile
  | some file =>
    have hmode : ∀ j, Function.update t.modes i (t.modes i) j = t.modes j := by
      rw [Function.update_eq_self]
      exact fun _ => rfl
    rcases (h.streams i).known file hfile with hw | hr | hrw
    · obtain ⟨s, hs, heq⟩ := call_returned hout hfile ((h.streams i).out hw file hfile)
      rw [heq]
      refine Lawful.running (fun j => ?_) rfl
      rw [← hmode j]
      refine streams_update h.streams ⟨fun _ _ => .inl hw, fun _ f hf => ?_,
        fun _ hn => absurd hn (by simp), fun hm => absurd (hw.symm.trans hm) (by decide),
        fun hm => absurd (hw.symm.trans hm) (by decide)⟩ j
      obtain rfl := Option.some.inj hf
      exact hs
    · obtain ⟨s, hs, heq⟩ := call_returned hin hfile ((h.streams i).inp hr file hfile)
      rw [heq]
      refine Lawful.running (fun j => ?_) rfl
      rw [← hmode j]
      refine streams_update h.streams ⟨fun _ _ => .inr (.inl hr),
        fun hm => absurd (hr.symm.trans hm) (by decide),
        fun hm => absurd (hr.symm.trans hm) (by decide), fun _ f hf => ?_,
        fun _ hn => absurd hn (by simp)⟩ j
      obtain rfl := Option.some.inj hf
      exact hs
    · rw [Stdio.call, hfile]
      refine ⟨fun j => ?_, fun j hj => ?_⟩
      · show StreamLaw (t.modes j) (Function.update t.files i _ j) (Function.update t.logs i _ j)
        rw [← hmode j]
        exact streams_update h.streams ⟨fun _ _ => .inr (.inr hrw),
          fun hm => absurd (hrw.symm.trans hm) (by decide),
          fun hm => absurd (hrw.symm.trans hm) (by decide),
          fun hm => absurd (hrw.symm.trans hm) (by decide),
          fun hm => absurd (hrw.symm.trans hm) (by decide)⟩ j
      · refine .inr ?_
        dsimp only at hj
        split at hj
        · obtain rfl := Option.some.inj hj
          exact hrw
        · cases hj

theorem Lawful.fflush (h : Lawful t) (i : ℕ) : Lawful (t.call i (fflush io)) :=
  h.call i ((fflush_flowing io).weaken (fun _ h => h) fun _ _ h => h.1) (fflush_reading io)

/-- Behind a flush nothing waits. -/
theorem fflush_empty (h : Lawful t) {i : ℕ} (hw : t.modes i = some (false, true)) {f : CFile}
    (hf : (t.call i (fflush io)).files i = some f) (hhung : (t.call i (fflush io)).hung = none) :
    f.bufPos = 0 := by
  cases hfile : t.files i with
  | none =>
    rw [Stdio.call, hfile] at hhung
    cases hhung
  | some file =>
    obtain ⟨s, hs, heq⟩ := call_returned (fflush_flowing io) hfile ((h.streams i).out hw file hfile)
    rw [heq] at hf
    have hself := Function.update_self i (some s.file) t.files
    obtain rfl := Option.some.inj (hself.symm.trans hf)
    exact hs.2

theorem call_modes {α : Type} (t : Stdio ω) (i : ℕ) (m : StdIo ω α) : (t.call i m).modes = t.modes := by
  unfold Stdio.call
  split <;> rfl

theorem Lawful.fclose (h : Lawful t) (i : ℕ) : Lawful (fclose io i t) := by
  have hflushed : Lawful (t.call i (Lestra.fflush io)) := h.fflush i
  unfold Lestra.fclose
  dsimp only
  split
  · exact hflushed
  · next hnot =>
    rw [not_or, Option.not_isSome_iff_eq_none] at hnot
    split
    · exact hflushed
    · next file hfile =>
      have hlaw := hflushed.streams i
      have hempty : ∀ hw : t.modes i = some (false, true), file.bufPos = 0 :=
        fun hw => fflush_empty h hw hfile hnot.2
      refine Lawful.running (fun j => ?_) hnot.2
      have hsame : ∀ j, Function.update (t.call i (Lestra.fflush io)).modes i
            ((t.call i (Lestra.fflush io)).modes i) j = (t.call i (Lestra.fflush io)).modes j ∧
          Function.update (t.call i (Lestra.fflush io)).logs i
            ((t.call i (Lestra.fflush io)).logs i) j = (t.call i (Lestra.fflush io)).logs j := by
        rw [Function.update_eq_self, Function.update_eq_self]
        exact fun _ => ⟨rfl, rfl⟩
      show StreamLaw ((t.call i (Lestra.fflush io)).modes j)
        (Function.update (t.call i (Lestra.fflush io)).files i none j)
        ((t.call i (Lestra.fflush io)).logs j)
      rw [← (hsame j).1, ← (hsame j).2]
      refine streams_update hflushed.streams ⟨fun _ hf => absurd hf (by simp),
        fun _ _ hf => absurd hf (by simp), fun hw _ hno => ?_, fun _ _ hf => absurd hf (by simp),
        fun hr _ => ?_⟩ j
      · have hflow := (hlaw.out hw file hfile).flow hno
        rw [call_modes] at hw
        rwa [pending_zero (hempty hw), List.append_nil] at hflow
      · exact ⟨_, (hlaw.inp hr file hfile).flow⟩

theorem parseMode_known {mode : List UInt8} {readable writable : Bool} {flags : ℤ}
    (h : parseMode mode = some (readable, writable, flags)) :
    (readable, writable) = (false, true) ∨ (readable, writable) = (true, false) ∨
      (readable, writable) = (true, true) := by
  unfold parseMode at h
  cases mode with
  | nil => cases h
  | cons c rest =>
    dsimp only at h
    generalize rest.contains '+'.toUInt8 = plus at h
    split at h
    · obtain ⟨rfl, rfl, -⟩ := by simpa using h
      cases plus <;> simp
    · split at h
      · obtain ⟨rfl, rfl, -⟩ := by simpa using h
        cases plus <;> simp
      · split at h
        · obtain ⟨rfl, rfl, -⟩ := by simpa using h
          cases plus <;> simp
        · cases h

/-- A stream that has just been opened. -/
theorem streamLaw_fresh (fd : ℤ) {readable writable : Bool} (buf : Option (List UInt8))
    (hmode : (readable, writable) = (false, true) ∨ (readable, writable) = (true, false) ∨
      (readable, writable) = (true, true)) :
    StreamLaw (some (readable, writable)) (some (.fresh fd readable writable buf)) [] := by
  refine ⟨fun _ _ => ?_, fun hw f hf => ?_, fun _ hn => absurd hn (by simp), fun hr f hf => ?_,
    fun _ hn => absurd hn (by simp)⟩
  · rcases hmode with hm | hm | hm <;> rw [hm] <;> simp
  · obtain rfl := Option.some.inj hf
    obtain ⟨rfl, rfl⟩ := Prod.mk.inj (Option.some.inj hw)
    exact ⟨rfl, rfl, fun _ => rfl, fun _ => rfl, fun _ => rfl⟩
  · obtain rfl := Option.some.inj hf
    obtain ⟨rfl, rfl⟩ := Prod.mk.inj (Option.some.inj hr)
    exact ⟨rfl, rfl, Nat.le_refl _, fun _ => rfl, rfl⟩

theorem Lawful.fopen (h : Lawful t) (hhung : t.hung = none) (path mode : List UInt8) :
    Lawful (fopen io path mode t) := by
  unfold Lestra.fopen
  split
  · exact Lawful.running h.streams hhung
  · next readable writable flags hparse =>
    dsimp only
    split
    · exact Lawful.running h.streams hhung
    · split
      · exact Lawful.running h.streams hhung
      · exact Lawful.running
          (streams_update h.streams (streamLaw_fresh _ _ (parseMode_known hparse))) hhung

theorem Lawful.flushStreams (h : Lawful t) (is : List ℕ) : Lawful (flushStreams io is t) := by
  unfold Lestra.flushStreams
  induction is generalizing t with
  | nil => exact h
  | cons i is ih =>
    refine ih (t := if t.hung.isSome then t else t.call i (Lestra.fflush io)) ?_
    split
    · exact h
    · exact h.fflush i

theorem Lawful.step (h : Lawful t) (op : StdioOp) : Lawful (stdioStep io t op) := by
  unfold stdioStep
  split
  · exact h
  · next hrunning =>
    rw [Option.not_isSome_iff_eq_none] at hrunning
    cases op with
    | fopen path mode => exact h.fopen hrunning path mode
    | fclose i => exact h.fclose i
    | fflush i => exact h.fflush i
    | fflushAll => exact h.flushStreams _
    | fread i want => exact h.call i (fread_flowing io want) (fread_reading io want)
    | fwrite i data size => exact h.call i (fwrite_flowing io data size) (fwrite_reading io data size)
    | fgetc i => exact h.call i (fgetc_flowing io) (fgetc_reading io)
    | fputc i c => exact h.call i (fputc_flowing io _ c) (fputc_reading io _ c)
    | fputs i str =>
      exact h.call i (fputs_keeps io (fun d => fwrite_flowing io d 1) str)
        (fputs_keeps io (fun d => fwrite_reading io d 1) str)
    | puts str =>
      exact h.call 1 (puts_keeps io (fun d => fwrite_flowing io d 1) (fputc_flowing io) str)
        (puts_keeps io (fun d => fwrite_reading io d 1) (fputc_reading io) str)
    | vfprintf i fmt ap =>
      exact h.call i (vfprintf_keeps io (fun d => fwrite_flowing io d 1) fmt ap)
        (vfprintf_keeps io (fun d => fwrite_reading io d 1) fmt ap)
    | clearerr i => exact h.call i clearerr_flowing clearerr_reading

theorem lawful_start (host : ω) : Lawful (Stdio.start host) := by
  refine Lawful.running (fun i => ?_) rfl
  show StreamLaw (if i = 0 then some (true, false) else if i ≤ 2 then some (false, true) else none)
    (if i = 0 then some (.fresh 0 true false none)
      else if i ≤ 2 then some (.fresh i false true none) else none) []
  split
  · exact streamLaw_fresh 0 none (.inr (.inl rfl))
  · split
    · exact streamLaw_fresh i none (.inl rfl)
    · exact ⟨fun _ hf => absurd hf (by simp), fun hm => absurd hm (by simp),
        fun hm => absurd hm (by simp), fun hm => absurd hm (by simp), fun hm => absurd hm (by simp)⟩

-- ---------------------------------------------------------------------------
-- The bytes
-- ---------------------------------------------------------------------------

/-- What a stream opened for output still has to write. -/
def Stdio.pending (t : Stdio ω) (i : ℕ) : List UInt8 := ((t.files i).map CFile.pending).getD []

/-- What the streams of the library do with bytes. -/
structure StreamsFlow (t : Stdio ω) : Prop where
  /-- As long as the kernel takes what it is given, what was accepted is written in order, or waits;
  once the stream is closed, all of it is written. -/
  output : ∀ i, t.modes i = some (false, true) → .refused ∉ t.logs i →
    wroteBytes (t.logs i) ++ t.pending i = acceptedBytes (t.logs i)
  /-- What the kernel has given is returned in order, but for what is still in the buffer. -/
  input : ∀ i, t.modes i = some (true, false) → ∃ rest,
    gotBytes (t.logs i) ++ rest = readBytes (t.logs i) ∧ ∀ f, t.files i = some f → rest = f.unread
  /-- A call ends, unless its stream is closed, or was opened in both directions. -/
  ends : ∀ i, t.hung = some i → t.files i = none ∨ t.modes i = some (true, true)

end Lestra
