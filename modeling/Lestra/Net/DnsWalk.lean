import Lestra.Lib.Orbit
import Lestra.Net.Dns

/-!
# Decoding any name

`dns_decode_name` (`kernel/net/net.c`) on any packet. Each turn stays inside the packet and
inside the buffer, but nothing counts the pointers that are followed, and a pointer may lead
back to where the decoder has been.

* `dnsReads`, `dnsWrites` — the places that the turns read and write
* `dnsNext` — where a turn goes on
* `dns_decode_iff` — the decoder is right exactly if it comes to no place twice
-/

namespace Lestra

-- ---------------------------------------------------------------------------
-- The places of a turn
-- ---------------------------------------------------------------------------

/-- The places of the packet that a turn reads. -/
def turnReads (data : List UInt8) (s : DnsDecode) : List ℕ :=
  if data.length ≤ s.p then []
  else
    let len := ByteBuf.get data s.p
    if len = 0 then [s.p]
    else if len &&& 0xC0 = 0xC0 then if data.length ≤ s.p + 1 then [s.p] else [s.p, s.p + 1]
    else s.p :: List.range' (s.p + 1) (min len.toNat (data.length - (s.p + 1)))

/-- The places of `out` that `n` characters are stored at. -/
def storePlaces (outsz : ℕ) : ℕ → ℕ → List ℕ
  | _, 0 => []
  | outlen, n + 1 =>
    if outlen + 1 < outsz then outlen :: storePlaces outsz (outlen + 1) n
    else storePlaces outsz outlen n

/-- The places of `out` that a turn writes. A label that does not fit is copied up to the end
of the packet; the other ones are followed by a dot. -/
def turnWrites (data : List UInt8) (outsz : ℕ) (s : DnsDecode) : List ℕ :=
  if data.length ≤ s.p then []
  else
    let len := ByteBuf.get data s.p
    if len = 0 then
      if s.outlen = 0 then if outsz > 0 then [0] else []
      else if s.outlen < outsz then [s.outlen] else []
    else if len &&& 0xC0 = 0xC0 then []
    else storePlaces outsz s.outlen (min (len.toNat + 1) (data.length - (s.p + 1) + 1))

/-- What the first turns of the loop do, at most `fuel` of them. -/
def dnsTrace (f : DnsDecode → List ℕ) (data : List UInt8) (outsz : ℕ) : ℕ → DnsDecode → List ℕ
  | 0, _ => []
  | fuel + 1, s =>
    f s ++
      match dnsTurn data outsz s with
      | .fail => []
      | .done _ _ => []
      | .next s => dnsTrace f data outsz fuel s

def dnsReads (data : List UInt8) (fuel p : ℕ) (out : List UInt8) (outsz : ℕ) : List ℕ :=
  dnsTrace (turnReads data) data outsz fuel ⟨p, out, 0, false, 0⟩

def dnsWrites (data : List UInt8) (fuel p : ℕ) (out : List UInt8) (outsz : ℕ) : List ℕ :=
  dnsTrace (turnWrites data outsz) data outsz fuel ⟨p, out, 0, false, 0⟩

/-- The decoder returns, stays inside the packet and the buffer, and when it succeeds there is
a string in the buffer. -/
structure DecodesSafely (data : List UInt8) (p : ℕ) (out : List UInt8) (outsz : ℕ) : Prop where
  returns : ∃ fuel r, dnsDecodeName data fuel p out outsz = some r
  reads : ∀ fuel, ∀ i ∈ dnsReads data fuel p out outsz, i < data.length
  writes : ∀ fuel, ∀ i ∈ dnsWrites data fuel p out outsz, i < outsz
  string : ∀ fuel consumed out', dnsDecodeName data fuel p out outsz = some (some (consumed, out')) →
    ∃ i < outsz, out'[i]? = some 0

/-- Where the decoder goes on from a place: behind the label, or where the pointer points. -/
def dnsNext (data : List UInt8) (p : ℕ) : Option ℕ :=
  if data.length ≤ p then none
  else
    let len := ByteBuf.get data p
    if len = 0 then none
    else if len &&& 0xC0 = 0xC0 then
      let off := (len &&& 0x3F).toNat * 256 + (ByteBuf.get data (p + 1)).toNat
      if data.length ≤ p + 1 ∨ data.length ≤ off then none else some off
    else if data.length < p + 1 + len.toNat then none
    else some (p + 1 + len.toNat)

-- ---------------------------------------------------------------------------
-- One turn
-- ---------------------------------------------------------------------------

variable {data : List UInt8} {outsz fuel p : ℕ} {s : DnsDecode}

theorem turnReads_lt : ∀ i ∈ turnReads data s, i < data.length := by
  intro i hi
  rw [turnReads] at hi
  dsimp only at hi
  by_cases hend : data.length ≤ s.p
  · rw [if_pos hend] at hi
    cases hi
  rw [if_neg hend] at hi
  split at hi
  · rw [List.mem_singleton.mp hi]
    omega
  · split at hi
    · split at hi
      · rw [List.mem_singleton.mp hi]
        omega
      · rcases List.mem_pair.mp hi with rfl | rfl <;> omega
    · rcases List.mem_cons.mp hi with rfl | hi
      · omega
      · rw [List.mem_range'_1] at hi
        omega

theorem storePlaces_lt (outlen n : ℕ) : ∀ i ∈ storePlaces outsz outlen n, i < outsz := by
  induction n generalizing outlen with
  | zero => exact nofun
  | succ n ih =>
    intro i hi
    rw [storePlaces] at hi
    split at hi
    · rcases List.mem_cons.mp hi with rfl | hi
      · omega
      · exact ih _ i hi
    · exact ih _ i hi

theorem turnWrites_lt : ∀ i ∈ turnWrites data outsz s, i < outsz := by
  intro i hi
  rw [turnWrites] at hi
  dsimp only at hi
  split at hi
  · cases hi
  split at hi
  · split at hi
    · split at hi
      · rw [List.mem_singleton.mp hi]
        assumption
      · cases hi
    · split at hi
      · rw [List.mem_singleton.mp hi]
        assumption
      · cases hi
  · split at hi
    · cases hi
    · exact storePlaces_lt _ _ i hi

theorem dnsTrace_forall {f : DnsDecode → List ℕ} {bound : ℕ} (h : ∀ s, ∀ i ∈ f s, i < bound)
    (fuel : ℕ) (s : DnsDecode) : ∀ i ∈ dnsTrace f data outsz fuel s, i < bound := by
  induction fuel generalizing s with
  | zero => exact nofun
  | succ fuel ih =>
    rw [dnsTrace]
    refine List.forall_mem_append.mpr ⟨h s, ?_⟩
    cases dnsTurn data outsz s with
    | fail => exact nofun
    | done consumed out => exact nofun
    | next s' => exact ih s'

/-- Room for the NUL is never used up. -/
theorem copyLabel_lt (label out : List UInt8) {outlen : ℕ} (h : outlen < outsz) :
    (copyLabel outsz out outlen label).2 < outsz := by
  induction label generalizing out outlen with
  | nil => exact h
  | cons x label ih =>
    rw [copyLabel, List.foldl_cons]
    dsimp only
    split
    · exact ih _ (by omega)
    · exact ih _ h

/-- A turn goes on where `dnsNext` says, with room for the NUL. -/
theorem dnsTurn_next {s' : DnsDecode} (h : dnsTurn data outsz s = .next s') :
    dnsNext data s.p = some s'.p ∧ (s.outlen < outsz → s'.outlen < outsz) := by
  rw [dnsTurn] at h
  dsimp only at h
  rw [dnsNext]
  dsimp only
  by_cases hend : data.length ≤ s.p
  · rw [if_pos hend] at h
    cases h
  by_cases hzero : ByteBuf.get data s.p = 0
  · rw [if_neg hend, if_pos hzero] at h
    cases h
  rw [if_neg hend, if_neg hzero] at h ⊢
  by_cases hmark : ByteBuf.get data s.p &&& 0xC0 = 0xC0
  · rw [if_pos hmark] at h ⊢
    split at h
    · cases h
    · split at h
      · cases h
      · rename_i hlast hoff
        rw [if_neg (not_or.mpr ⟨hlast, hoff⟩)]
        cases h
        exact ⟨rfl, id⟩
  · rw [if_neg hmark] at h ⊢
    split at h
    · cases h
    · rename_i hlabel
      rw [if_neg hlabel]
      cases h
      refine ⟨rfl, fun hroom => ?_⟩
      dsimp only
      split
      · assumption
      · exact copyLabel_lt _ _ hroom

theorem dnsTurn_of_next {q : ℕ} (outsz : ℕ) (h : dnsNext data s.p = some q) :
    ∃ s', dnsTurn data outsz s = .next s' ∧ s'.p = q := by
  rw [dnsNext] at h
  dsimp only at h
  rw [dnsTurn]
  dsimp only
  by_cases hend : data.length ≤ s.p
  · rw [if_pos hend] at h
    cases h
  by_cases hzero : ByteBuf.get data s.p = 0
  · rw [if_neg hend, if_pos hzero] at h
    cases h
  rw [if_neg hend, if_neg hzero] at h ⊢
  by_cases hmark : ByteBuf.get data s.p &&& 0xC0 = 0xC0
  · rw [if_pos hmark] at h ⊢
    split at h
    · cases h
    · rename_i hoff
      rw [not_or] at hoff
      rw [if_neg hoff.1, if_neg hoff.2]
      exact ⟨_, rfl, Option.some.inj h⟩
  · rw [if_neg hmark] at h ⊢
    split at h
    · cases h
    · rename_i hlabel
      rw [if_neg hlabel]
      exact ⟨_, rfl, Option.some.inj h⟩

/-- A turn that succeeds leaves a string. -/
theorem dnsTurn_done {consumed : ℕ} {out : List UInt8} (h : dnsTurn data outsz s = .done consumed out)
    (hroom : s.outlen < outsz) : ∃ i < outsz, out[i]? = some 0 := by
  have hstore (b : List UInt8) (i : ℕ) : (ByteBuf.store b i [0])[i]? = some 0 := by
    have hpre : (b.take i ++ List.replicate (i - b.length) 0 : List UInt8).length = i := by
      simp only [List.length_append, List.length_take, List.length_replicate]
      omega
    rw [ByteBuf.store, List.append_assoc, List.getElem?_append_right (by omega), hpre, Nat.sub_self]
    rfl
  rw [dnsTurn] at h
  dsimp only at h
  split at h
  · cases h
  split at h
  · cases h
    rw [if_pos (Nat.zero_lt_of_lt hroom)]
    split
    · exact ⟨0, Nat.zero_lt_of_lt hroom, hstore _ _⟩
    · exact ⟨_, hroom, hstore _ _⟩
  · split at h
    · split at h
      · cases h
      · split at h <;> cases h
    · split at h <;> cases h

-- ---------------------------------------------------------------------------
-- The loop
-- ---------------------------------------------------------------------------

/-- The loop has returned when its places have come to an end. -/
theorem dnsLoop_none_iff : dnsLoop data outsz fuel s = none ↔ Orbit.walk (dnsNext data) s.p fuel ≠ none := by
  induction fuel generalizing s with
  | zero => exact iff_of_true rfl (Option.some_ne_none _)
  | succ fuel ih =>
    rw [dnsLoop, Orbit.walk]
    cases hturn : dnsTurn data outsz s with
    | next s' =>
      rw [(dnsTurn_next hturn).1, Option.bind_some]
      exact ih
    | fail =>
      cases hnext : dnsNext data s.p with
      | none => exact iff_of_false (Option.some_ne_none _) (fun h => h rfl)
      | some q =>
        obtain ⟨s', hs', -⟩ := dnsTurn_of_next outsz hnext
        rw [hturn] at hs'
        cases hs'
    | done consumed out =>
      cases hnext : dnsNext data s.p with
      | none => exact iff_of_false (Option.some_ne_none _) (fun h => h rfl)
      | some q =>
        obtain ⟨s', hs', -⟩ := dnsTurn_of_next outsz hnext
        rw [hturn] at hs'
        cases hs'

theorem dnsLoop_string {consumed : ℕ} {out : List UInt8} (hroom : s.outlen < outsz)
    (h : dnsLoop data outsz fuel s = some (some (consumed, out))) : ∃ i < outsz, out[i]? = some 0 := by
  induction fuel generalizing s with
  | zero => cases h
  | succ fuel ih =>
    rw [dnsLoop] at h
    cases hturn : dnsTurn data outsz s with
    | fail =>
      rw [hturn] at h
      cases h
    | done consumed' out' =>
      rw [hturn] at h
      cases h
      exact dnsTurn_done hturn hroom
    | next s' =>
      rw [hturn] at h
      exact ih ((dnsTurn_next hturn).2 hroom) h

/-- Only places of the packet lead on. -/
theorem dnsNext_mem (q : ℕ) (h : dnsNext data q ≠ none) : q ∈ Finset.range data.length := by
  rw [Finset.mem_range]
  by_contra hge
  rw [dnsNext, if_pos (by omega)] at h
  exact h rfl

/--
**Pointers can lead around in a circle.** The decoder never leaves the packet or the buffer,
and leaves a string when it succeeds. It returns exactly if the labels and pointers from the
start lead to no place twice.
-/
theorem dns_decode_iff (data : List UInt8) (p : ℕ) (out : List UInt8) (outsz : ℕ) (hsize : 0 < outsz) :
    DecodesSafely data p out outsz ↔ ¬ Orbit.Revisits (dnsNext data) p := by
  rw [← Orbit.ends_iff dnsNext_mem]
  constructor
  · intro h
    obtain ⟨fuel, r, hr⟩ := h.returns
    refine ⟨fuel, ?_⟩
    by_contra hnone
    rw [dnsDecodeName, dnsLoop_none_iff.mpr hnone] at hr
    cases hr
  · rintro ⟨fuel, hend⟩
    refine ⟨⟨fuel, ?_⟩, fun fuel => dnsTrace_forall (fun _ => turnReads_lt) fuel _,
      fun fuel => dnsTrace_forall (fun _ => turnWrites_lt) fuel _,
      fun fuel consumed out' => dnsLoop_string hsize⟩
    refine Option.ne_none_iff_exists'.mp fun hnone => ?_
    exact dnsLoop_none_iff.mp hnone hend

/-- A packet whose name is a pointer to itself. -/
def pointerLoop : List UInt8 := List.replicate 12 0 ++ [0xC0, 12]

/-- The decoder never returns. -/
theorem pointerLoop_never : ∀ fuel, dnsDecodeName pointerLoop fuel 12 [] dnsMaxName = none := by
  have hloop : Orbit.Revisits (dnsNext pointerLoop) 12 := ⟨0, 1, 12, by decide, rfl, by decide⟩
  exact fun fuel => dnsLoop_none_iff.mpr (hloop.never_ends fuel)

theorem pointerLoop_unsafe : ¬ DecodesSafely pointerLoop 12 [] dnsMaxName := by
  intro h
  obtain ⟨fuel, r, hr⟩ := h.returns
  rw [pointerLoop_never fuel] at hr
  cases hr

theorem dns_decode_iff_sample : DecodesSafely dnsSampleReply 12 [] dnsMaxName ↔
    ¬ Orbit.Revisits (dnsNext dnsSampleReply) 12 :=
  dns_decode_iff _ _ _ _ (by decide)

end Lestra
