import Lestra.Lib.ByteBuf

/-!
# DNS replies

`dns_decode_name` and the walk over a reply in `net_resolve` (`kernel/net/net.c`). The
decoder counts the bytes it has consumed from the start of the packet; the walk adds that
count to the place where the name starts.

* `NameEnds` — a name in a packet, compressed or not, and where it ends
* `DnsReply` — a well-formed reply to the query, with its records
* `dnsDecode_name` — what the decoder returns for a name
* `dns_never_right` — behind the question's name the cursor is 12 bytes too far
-/

namespace Lestra

-- ---------------------------------------------------------------------------
-- The decoder
-- ---------------------------------------------------------------------------

/-- The variables of the loop, with `p` as the offset from `data`. -/
structure DnsDecode where
  p : ℕ
  out : List UInt8
  outlen : ℕ
  followedPtr : Bool
  totalConsumed : ℕ

/-- What a turn of the loop does: return -1, return the bytes consumed with the decoded text,
or go on. -/
inductive DnsTurn where
  | fail
  | done (consumed : ℕ) (out : List UInt8)
  | next (s : DnsDecode)

/-- The bytes of a label are copied as long as there is room for one more. -/
def copyLabel (outsz : ℕ) (out : List UInt8) (outlen : ℕ) (label : List UInt8) :
    List UInt8 × ℕ :=
  label.foldl (fun s x =>
    if s.2 + 1 < outsz then (ByteBuf.store s.1 s.2 [x], s.2 + 1) else s) (out, outlen)

def dnsTurn (data : List UInt8) (outsz : ℕ) (s : DnsDecode) : DnsTurn :=
  if data.length ≤ s.p then .fail
  else
    let len := ByteBuf.get data s.p
    if len = 0 then
      let total := if s.followedPtr then s.totalConsumed else s.p + 1
      let out :=
        if s.outlen = 0 then if outsz > 0 then ByteBuf.store s.out 0 [0] else s.out
        else if s.outlen < outsz then ByteBuf.store s.out s.outlen [0] else s.out
      .done total out
    else if len &&& 0xC0 = 0xC0 then
      if data.length ≤ s.p + 1 then .fail
      else
        let off := (len &&& 0x3F).toNat * 256 + (ByteBuf.get data (s.p + 1)).toNat
        if data.length ≤ off then .fail
        else
          .next { s with
            p := off
            totalConsumed := if s.followedPtr then s.totalConsumed else s.p + 2
            followedPtr := true }
    else if data.length < s.p + 1 + len.toNat then .fail
    else
      let (out, outlen) :=
        copyLabel outsz s.out s.outlen (ByteBuf.load data (s.p + 1) len.toNat)
      let (out, outlen) :=
        if outlen + 1 < outsz then (ByteBuf.store out outlen [0x2E], outlen + 1) else (out, outlen)
      .next { s with p := s.p + 1 + len.toNat, out := out, outlen := outlen }

/-- The loop, for at most `fuel` turns; `none` while it has not returned. -/
def dnsLoop (data : List UInt8) (outsz : ℕ) : ℕ → DnsDecode → Option (Option (ℕ × List UInt8))
  | 0, _ => none
  | fuel + 1, s =>
    match dnsTurn data outsz s with
    | .fail => some none
    | .done consumed out => some (some (consumed, out))
    | .next s => dnsLoop data outsz fuel s

/-- `some none` is the result -1. -/
def dnsDecodeName (data : List UInt8) (fuel p : ℕ) (out : List UInt8) (outsz : ℕ) :
    Option (Option (ℕ × List UInt8)) :=
  dnsLoop data outsz fuel ⟨p, out, 0, false, 0⟩

-- ---------------------------------------------------------------------------
-- The walk
-- ---------------------------------------------------------------------------

/-- The size of the buffer `tmp`. -/
def dnsMaxName : ℕ := 256

/-- A 16-bit field, high byte first. -/
def be16 (data : List UInt8) (off : ℕ) : ℕ :=
  (ByteBuf.get data off).toNat * 256 + (ByteBuf.get data (off + 1)).toNat

/-- What a walk returns, and the places of `q` behind each name that it has decoded. -/
structure DnsWalk where
  address : Option (List UInt8)
  cursors : List ℕ
deriving DecidableEq

/-- The loop over the answers that are left. -/
def dnsAnswers (rbuf : List UInt8) (fuel : ℕ) (tmp : List UInt8) :
    ℕ → ℕ → List ℕ → Option DnsWalk
  | 0, _, cursors => some ⟨none, cursors⟩
  | answers + 1, q, cursors =>
    match dnsDecodeName rbuf fuel q tmp dnsMaxName with
    | none => none
    | some none => some ⟨none, cursors⟩
    | some (some (consumed, tmp)) =>
      let q := q + consumed
      let cursors := cursors ++ [q]
      if q + 10 > rbuf.length then some ⟨none, cursors⟩
      else
        let qtype := be16 rbuf q
        let rdlen := be16 rbuf (q + 8)
        let q := q + 10
        if qtype = 1 ∧ rdlen = 4 then
          if q + 4 > rbuf.length then some ⟨none, cursors⟩
          else some ⟨some (ByteBuf.load rbuf q 4), cursors⟩
        else dnsAnswers rbuf fuel tmp answers (q + rdlen) cursors

/-- What `net_resolve` does with the reply. -/
def dnsResolve (rbuf : List UInt8) (fuel : ℕ) (tmp : List UInt8) : Option DnsWalk :=
  if rbuf.length < 12 then some ⟨none, []⟩
  else if be16 rbuf 0 ≠ 0x4242 then some ⟨none, []⟩
  else
    let ancount := be16 rbuf 6
    if ancount = 0 then some ⟨none, []⟩
    else
      match dnsDecodeName rbuf fuel 12 tmp dnsMaxName with
      | none => none
      | some none => some ⟨none, []⟩
      | some (some (consumed, tmp)) =>
        let q := 12 + consumed
        dnsAnswers rbuf fuel tmp ancount (q + 4) [q]

-- ---------------------------------------------------------------------------
-- Well-formed replies
-- ---------------------------------------------------------------------------

/-- A name starts at the first place and its encoding ends before the second: labels up to a
zero byte, or up to a pointer to a name that starts before it. -/
inductive NameEnds (data : List UInt8) : ℕ → ℕ → Prop where
  | root {p : ℕ} (hp : p < data.length) (hlen : ByteBuf.get data p = 0) : NameEnds data p (p + 1)
  | label {p e : ℕ} (hpos : 0 < (ByteBuf.get data p).toNat) (hlen : (ByteBuf.get data p).toNat < 64)
    (hrest : NameEnds data (p + 1 + (ByteBuf.get data p).toNat) e) : NameEnds data p e
  | pointer {p target e : ℕ} (hp : p + 1 < data.length)
    (hmark : ByteBuf.get data p &&& 0xC0 = 0xC0)
    (htarget : target =
      (ByteBuf.get data p &&& 0x3F).toNat * 256 + (ByteBuf.get data (p + 1)).toNat)
    (hbefore : target < p) (hname : NameEnds data target e) : NameEnds data p (p + 2)

/-- The resource records from `off` on, as the places of their type fields. -/
inductive Records (data : List UInt8) : ℕ → ℕ → List ℕ → Prop where
  | nil {off : ℕ} : Records data 0 off []
  | cons {n off e : ℕ} {rest : List ℕ} (hname : NameEnds data off e)
    (hfits : e + 10 + be16 data (e + 8) ≤ data.length)
    (hrest : Records data n (e + 10 + be16 data (e + 8)) rest) : Records data (n + 1) off (e :: rest)

/-- The record at a type field is an address. -/
def isAddress (data : List UInt8) (e : ℕ) : Bool := be16 data e = 1 ∧ be16 data (e + 8) = 4

/-- A reply to the query: one question, whose name ends before `question`, and the answers. -/
structure DnsReply (data : List UInt8) (question : ℕ) (answers : List ℕ) : Prop where
  id : be16 data 0 = 0x4242
  qdcount : be16 data 4 = 1
  size : data.length ≤ 1500
  name : NameEnds data 12 question
  fits : question + 4 ≤ data.length
  records : Records data (be16 data 6) (question + 4) answers
  address : ∃ e ∈ answers, isAddress data e

/-- The type fields up to the first address. -/
def upToAddress (data : List UInt8) (answers : List ℕ) : List ℕ :=
  answers.takeWhile (fun e => !isAddress data e) ++ (answers.find? (isAddress data)).toList

/-- The walk returns, with the address of the first record that has one, and behind each name
its cursor stands on the type field. -/
def ResolvesRight (data : List UInt8) (question : ℕ) (answers : List ℕ) (tmp : List UInt8) : Prop :=
  ∃ fuel walk, dnsResolve data fuel tmp = some walk ∧
    walk.address = (answers.find? (isAddress data)).map (fun e => ByteBuf.load data (e + 10) 4) ∧
    walk.cursors = question :: upToAddress data answers

-- ---------------------------------------------------------------------------
-- What the decoder returns
-- ---------------------------------------------------------------------------

variable {data : List UInt8} {p e outsz fuel : ℕ}

theorem not_pointer {x : UInt8} (h : x.toNat < 64) : x &&& 0xC0 ≠ 0xC0 := by
  have hall : ∀ n < 64, UInt8.ofNat n &&& 0xC0 ≠ 0xC0 := by decide
  rw [← UInt8.ofNat_toNat (x := x)]
  exact hall x.toNat h

theorem NameEnds.lt (h : NameEnds data p e) : p < data.length := by
  induction h with
  | root hp _ => exact hp
  | label _ _ _ ih => omega
  | pointer hp _ _ _ _ _ => omega

theorem dnsLoop_mono {s : DnsDecode} {r : Option (ℕ × List UInt8)}
    (h : dnsLoop data outsz fuel s = some r) (k : ℕ) : dnsLoop data outsz (fuel + k) s = some r := by
  induction fuel generalizing s with
  | zero => exact absurd h (by rw [dnsLoop]; exact (Option.some_ne_none r).symm)
  | succ fuel ih =>
    rw [Nat.add_right_comm, dnsLoop]
    rw [dnsLoop] at h
    cases hturn : dnsTurn data outsz s with
    | fail => rwa [hturn] at h
    | done consumed out => rwa [hturn] at h
    | next s' =>
      rw [hturn] at h
      exact ih h

/-- At a label or a pointer of a name the loop goes on where the name goes on. -/
theorem dnsLoop_name (h : NameEnds data p e) (outsz : ℕ) : ∃ n, ∀ s : DnsDecode, s.p = p →
    ∃ out, dnsLoop data outsz n s = some (some (if s.followedPtr then s.totalConsumed else e, out)) := by
  induction h with
  | root hp hlen =>
    refine ⟨1, fun s hs => ?_⟩
    subst hs
    rw [dnsLoop, dnsTurn, if_neg (by omega)]
    dsimp only
    rw [if_pos hlen]
    exact ⟨_, rfl⟩
  | label hpos hlen hrest ih =>
    obtain ⟨n, hn⟩ := ih
    refine ⟨n + 1, fun s hs => ?_⟩
    subst hs
    have hlt := hrest.lt
    have hne : ByteBuf.get data s.p ≠ 0 := by
      intro h0
      rw [h0] at hpos
      exact absurd hpos (by decide)
    rw [dnsLoop, dnsTurn, if_neg (by omega)]
    dsimp only
    rw [if_neg hne, if_neg (not_pointer hlen), if_neg (by omega)]
    exact hn _ rfl
  | pointer hp hmark htarget hbefore hname ih =>
    obtain ⟨n, hn⟩ := ih
    refine ⟨n + 1, fun s hs => ?_⟩
    subst hs
    have hne : ByteBuf.get data s.p ≠ 0 := by
      intro h0
      rw [h0] at hmark
      exact absurd hmark (by decide)
    obtain ⟨out, hout⟩ := hn ⟨_, s.out, s.outlen, true,
      if s.followedPtr then s.totalConsumed else s.p + 2⟩ rfl
    rw [dnsLoop, dnsTurn, if_neg (by omega)]
    dsimp only
    rw [if_neg hne, if_pos hmark, if_neg (by omega), ← htarget, if_neg (by omega)]
    exact ⟨out, hout⟩

/--
**The decoder counts from the start of the packet.** For a name it returns the place where
the encoding of the name ends.
-/
theorem dnsDecode_name (h : NameEnds data p e) (out : List UInt8) (outsz : ℕ) :
    ∃ n out', dnsDecodeName data n p out outsz = some (some (e, out')) := by
  obtain ⟨n, hn⟩ := dnsLoop_name h outsz
  obtain ⟨out', hout⟩ := hn ⟨p, out, 0, false, 0⟩ rfl
  exact ⟨n, out', hout⟩

/-- However long it is run, it returns nothing else. -/
theorem dnsDecodeName_unique {n m : ℕ} {out : List UInt8} {r r' : Option (ℕ × List UInt8)}
    (h : dnsDecodeName data n p out outsz = some r)
    (h' : dnsDecodeName data m p out outsz = some r') : r = r' := by
  have hn := dnsLoop_mono h m
  have hm := dnsLoop_mono h' n
  rw [Nat.add_comm m n, hn] at hm
  exact Option.some.inj hm

-- ---------------------------------------------------------------------------
-- Where the cursor stands
-- ---------------------------------------------------------------------------

theorem dnsAnswers_cursors {tmp : List UInt8} {n q : ℕ} {cursors : List ℕ} {walk : DnsWalk}
    (h : dnsAnswers data fuel tmp n q cursors = some walk) : cursors <+: walk.cursors := by
  induction n generalizing q cursors tmp with
  | zero =>
    rw [dnsAnswers] at h
    exact Option.some.inj h ▸ List.prefix_rfl
  | succ n ih =>
    rw [dnsAnswers] at h
    split at h
    · exact absurd h (Option.some_ne_none walk).symm
    · exact Option.some.inj h ▸ List.prefix_rfl
    · rename_i consumed _ _
      dsimp only at h
      refine (List.prefix_append cursors [q + consumed]).trans ?_
      split at h
      · exact Option.some.inj h ▸ List.prefix_rfl
      · split at h
        · split at h
          · exact Option.some.inj h ▸ List.prefix_rfl
          · exact Option.some.inj h ▸ List.prefix_rfl
        · exact ih h

/-- The first cursor is twelve bytes behind the end of the question's name. -/
theorem dnsResolve_cursor {question : ℕ} {tmp : List UInt8} {walk : DnsWalk}
    (hname : NameEnds data 12 question) (h : dnsResolve data fuel tmp = some walk) :
    walk.cursors = [] ∨ ∃ rest, walk.cursors = (12 + question) :: rest := by
  rw [dnsResolve] at h
  split at h
  · exact .inl (by rw [← Option.some.inj h])
  split at h
  · exact .inl (by rw [← Option.some.inj h])
  dsimp only at h
  split at h
  · exact .inl (by rw [← Option.some.inj h])
  split at h
  · exact absurd h (Option.some_ne_none walk).symm
  · exact .inl (by rw [← Option.some.inj h])
  · rename_i consumed tmp' hdecode
    obtain ⟨n, out', hout⟩ := dnsDecode_name hname tmp dnsMaxName
    have hsame := dnsDecodeName_unique hdecode hout
    rw [Option.some.injEq, Prod.mk.injEq] at hsame
    obtain ⟨rest, hrest⟩ := dnsAnswers_cursors h
    exact .inr ⟨rest, by rw [← hrest, hsame.1]; rfl⟩

/--
**The cursor is displaced by the place of the name.** No well-formed reply is walked rightly:
behind the question's name the cursor is twelve bytes behind the type field. For any name the
count that the decoder returns leads to the type field only if the name starts the packet.
-/
theorem dns_never_right {question : ℕ} {answers : List ℕ}
    (h : DnsReply data question answers) (tmp : List UInt8) :
    ¬ ResolvesRight data question answers tmp ∧
    ∀ p e, NameEnds data p e → ∃ n consumed out',
      dnsDecodeName data n p tmp dnsMaxName = some (some (consumed, out')) ∧
        (p + consumed = e ↔ p = 0) := by
  constructor
  · rintro ⟨fuel, walk, hwalk, -, hcursors⟩
    rcases dnsResolve_cursor h.name hwalk with hnil | ⟨rest, hcons⟩
    · rw [hnil] at hcursors
      exact List.cons_ne_nil _ _ hcursors.symm
    · rw [hcons, List.cons.injEq] at hcursors
      omega
  · intro p e hname
    obtain ⟨n, out', hout⟩ := dnsDecode_name hname tmp dnsMaxName
    exact ⟨n, e, out', hout, by omega⟩

/-- A reply to the query for "a" with one compressed answer, 1.2.3.4. -/
def dnsSampleReply : List UInt8 :=
  [0x42, 0x42, 0x81, 0x80, 0, 1, 0, 1, 0, 0, 0, 0] ++ [1, 0x61, 0, 0, 1, 0, 1] ++
    [0xC0, 12, 0, 1, 0, 1, 0, 0, 0, 60, 0, 4, 1, 2, 3, 4]

theorem dnsSampleReply_wf : DnsReply dnsSampleReply 15 [21] where
  id := rfl
  qdcount := rfl
  size := by decide
  name := .label (by decide) (by decide) (.root (by decide) rfl)
  fits := by decide
  records := .cons (e := 21) (.pointer (by decide) (by decide) (show 12 = _ from rfl) (by decide)
    (.label (by decide) (by decide) (.root (by decide) rfl))) (by decide) .nil
  address := ⟨21, by decide, by decide⟩

/-- The reply is taken for one without an address. -/
theorem dns_sample_wrong : dnsResolve dnsSampleReply 4 [] = some ⟨none, [27]⟩ ∧
    DnsReply dnsSampleReply 15 [21] ∧ ¬ ResolvesRight dnsSampleReply 15 [21] [] := by
  refine ⟨by decide, dnsSampleReply_wf, ?_⟩
  rintro ⟨fuel, walk, hwalk, -, hcursors⟩
  rcases dnsResolve_cursor dnsSampleReply_wf.name hwalk with hnil | ⟨rest, hcons⟩
  · rw [hnil] at hcursors
    exact List.cons_ne_nil _ _ hcursors.symm
  · rw [hcons, List.cons.injEq] at hcursors
    exact absurd hcursors.1 (by decide)

theorem dns_never_right_sample : ¬ ResolvesRight dnsSampleReply 15 [21] [] ∧
    ∀ p e, NameEnds dnsSampleReply p e → ∃ n consumed out',
      dnsDecodeName dnsSampleReply n p [] dnsMaxName = some (some (consumed, out')) ∧
        (p + consumed = e ↔ p = 0) :=
  dns_never_right dnsSampleReply_wf []

end Lestra
