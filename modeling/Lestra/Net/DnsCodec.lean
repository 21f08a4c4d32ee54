import Lestra.Lib.Labels
import Lestra.Net.Dns
import Mathlib.Data.List.GetD

/-!
# Host names on the wire

`dns_encode_name` (`kernel/net/net.c`), and `dns_decode_name` on what it writes.

* `DnsEncode` — the result of the encoder, with the places it has written
* `wire` — the encoding of a list of labels
* `dns_name_codec` — the encoder accepts the right names, and the decoder reads them back
-/

namespace Lestra

open Labels

-- ---------------------------------------------------------------------------
-- The encoder
-- ---------------------------------------------------------------------------

/-- `'.'` -/
def labelDot : UInt8 := 0x2E

/-- What the encoder returns, the buffer behind it and the places that it has written. -/
structure DnsEncode where
  ret : Option ℕ
  out : List UInt8
  writes : List ℕ

/-- `while (*p)` and the root label, for the rest `p` of the name. -/
def encodeLoop (outsz : ℕ) (p out : List UInt8) (outlen : ℕ) (writes : List ℕ) : DnsEncode :=
  if p = [] then ⟨some (outlen + 1), ByteBuf.store out outlen [0], writes ++ [outlen]⟩
  else
    let label := p.takeWhile (· ≠ labelDot)
    if 63 < label.length ∨ label.length = 0 then ⟨none, out, writes⟩
    -- `outlen + 1 + labellen > outsz - 1`
    else if outsz < outlen + 1 + label.length + 1 then ⟨none, out, writes⟩
    else
      let rest := p.drop label.length
      encodeLoop outsz (if rest.head? = some labelDot then rest.tail else rest)
        (ByteBuf.store out outlen (UInt8.ofNat label.length :: label)) (outlen + 1 + label.length)
        (writes ++ List.range' outlen (1 + label.length))
termination_by p.length
decreasing_by
  rename_i hp hlabel _
  have hpos : 0 < p.length := List.length_pos_iff.mpr hp
  have hlen : label.length = (p.takeWhile (· ≠ labelDot)).length := rfl
  split
  · rw [List.length_tail, List.length_drop]
    omega
  · rw [List.length_drop]
    omega

/-- `none` is the result -1. -/
def dnsEncodeName (out : List UInt8) (outsz : ℕ) (name : List UInt8) : DnsEncode :=
  encodeLoop outsz name out 0 []

-- ---------------------------------------------------------------------------
-- The law
-- ---------------------------------------------------------------------------

/-- The encoding of labels. -/
def wire (labels : List (List UInt8)) : List UInt8 :=
  labels.flatMap (fun label => UInt8.ofNat label.length :: label) ++ [0]

/-- Labels that can be encoded. -/
def GoodLabels (labels : List (List UInt8)) : Prop :=
  ∀ label ∈ labels, label ≠ [] ∧ label.length ≤ 63

/-- The C string in a buffer. -/
def bufString (buf : List UInt8) : List UInt8 := buf.takeWhile (· ≠ 0)

/-- The encoder stays in its buffer and accepts a name exactly if its labels are good and the
encoding fits. What it writes is decoded, with anything behind it, to the name up to a dot at
the end; all of it is consumed, and the decoded name is encoded as the name is. -/
structure NameCodec (name out : List UInt8) (outsz : ℕ) : Prop where
  inside : ∀ i ∈ (dnsEncodeName out outsz name).writes, i < outsz
  accepts : ∀ n, (dnsEncodeName out outsz name).ret = some n ↔
    GoodLabels (split labelDot name) ∧ (wire (split labelDot name)).length ≤ outsz ∧
      n = (wire (split labelDot name)).length
  encoding : ∀ n, (dnsEncodeName out outsz name).ret = some n →
    ByteBuf.load (dnsEncodeName out outsz name).out 0 n = wire (split labelDot name)
  roundTrip : ∀ n, (dnsEncodeName out outsz name).ret = some n → n ≤ 254 → ∀ tail buf,
    ∃ fuel text, dnsDecodeName (ByteBuf.load (dnsEncodeName out outsz name).out 0 n ++ tail) fuel 0
        buf dnsMaxName = some (some (n, text)) ∧
      (bufString text = name ∨ bufString text = name ++ [labelDot]) ∧
      ∀ out', (dnsEncodeName out' outsz (bufString text)).ret = some n ∧
        ByteBuf.load (dnsEncodeName out' outsz (bufString text)).out 0 n =
          ByteBuf.load (dnsEncodeName out outsz name).out 0 n

-- ---------------------------------------------------------------------------
-- What the encoder writes
-- ---------------------------------------------------------------------------

variable {label name out : List UInt8} {labels : List (List UInt8)} {outsz outlen : ℕ}
  {writes : List ℕ}

theorem wire_cons : wire (label :: labels) = (UInt8.ofNat label.length :: label) ++ wire labels := by
  rw [wire, List.flatMap_cons, List.append_assoc]
  rfl

theorem length_wire_cons : (wire (label :: labels)).length = label.length + 1 + (wire labels).length := by
  rw [wire_cons, List.length_append, List.length_cons]

theorem length_wire_pos : 0 < (wire labels).length := by
  rw [wire, List.length_append]
  exact Nat.lt_of_lt_of_le Nat.zero_lt_one (Nat.le_add_left _ _)

/-- Each label has one byte more, the length or the dot, and the encoding ends with a zero. -/
theorem length_join : (join labelDot labels).length + 1 = (wire labels).length := by
  induction labels with
  | nil => rfl
  | cons label labels ih =>
    rw [join_cons, length_wire_cons, List.length_append, List.length_cons]
    omega

theorem goodLabels_cons :
    GoodLabels (label :: labels) ↔ (label ≠ [] ∧ label.length ≤ 63) ∧ GoodLabels labels :=
  List.forall_mem_cons

/-- What the loop does from a place of the buffer on. -/
structure Encodes (outsz outlen : ℕ) (out : List UInt8) (writes : List ℕ)
    (labels : List (List UInt8)) (r : DnsEncode) : Prop where
  inside : ∀ i ∈ r.writes, i ∈ writes ∨ i < outsz
  good : GoodLabels labels → outlen + (wire labels).length ≤ outsz →
    r.ret = some (outlen + (wire labels).length) ∧ r.out = ByteBuf.store out outlen (wire labels)
  bad : ¬ (GoodLabels labels ∧ outlen + (wire labels).length ≤ outsz) → r.ret = none

theorem encodeLoop_nil (h : outlen < outsz) :
    Encodes outsz outlen out writes [] (encodeLoop outsz [] out outlen writes) := by
  rw [encodeLoop, if_pos rfl]
  refine ⟨fun i hi => ?_, fun _ _ => ⟨rfl, rfl⟩, fun hbad => absurd ⟨nofun, h⟩ hbad⟩
  rcases List.mem_append.mp hi with hi | hi
  · exact .inl hi
  · exact .inr (List.mem_singleton.mp hi ▸ h)

/-- The turn for a label, with the rest of the name behind it. -/
theorem encodeLoop_label {p rest next : List UInt8} (hp : p = label ++ rest) (hne : p ≠ [])
    (hdot : labelDot ∉ label) (hrest : rest = [] ∧ next = [] ∨ rest = labelDot :: next)
    (hnext : ∀ out outlen writes, outlen < outsz →
      Encodes outsz outlen out writes labels (encodeLoop outsz next out outlen writes)) :
    Encodes outsz outlen out writes (label :: labels) (encodeLoop outsz p out outlen writes) := by
  have hlabel : p.takeWhile (· ≠ labelDot) = label := by
    have hall : ∀ x ∈ label, (decide (x ≠ labelDot)) = true := fun x hx =>
      decide_eq_true fun heq => hdot (heq ▸ hx)
    rw [hp, List.takeWhile_append_of_pos hall]
    rcases hrest with ⟨rfl, -⟩ | rfl
    · rw [List.takeWhile_nil, List.append_nil]
    · rw [List.takeWhile_cons_of_neg (by simp), List.append_nil]
  have hdrop : p.drop label.length = rest := by rw [hp, List.drop_left]
  have hstep : (if rest.head? = some labelDot then rest.tail else rest) = next := by
    rcases hrest with ⟨rfl, rfl⟩ | rfl
    · rfl
    · exact if_pos rfl
  have hpos : 0 < (wire labels).length := length_wire_pos
  rw [encodeLoop, if_neg hne]
  dsimp only
  rw [hlabel, hdrop, hstep]
  split
  · rename_i hlong
    refine ⟨fun i hi => .inl hi, fun hgood => ?_, fun _ => rfl⟩
    obtain ⟨hpos, hle⟩ := (goodLabels_cons.mp hgood).1
    have hlen := List.length_pos_iff.mpr hpos
    omega
  split
  · rename_i hroom
    refine ⟨fun i hi => .inl hi, fun _ hfits => ?_, fun _ => rfl⟩
    rw [length_wire_cons] at hfits
    omega
  rename_i hshort hroom
  have hlen : outlen + 1 + label.length = outlen + (UInt8.ofNat label.length :: label).length := by
    rw [List.length_cons]
    omega
  have hloop := hnext (ByteBuf.store out outlen (UInt8.ofNat label.length :: label))
    (outlen + 1 + label.length) (writes ++ List.range' outlen (1 + label.length)) (by omega)
  refine ⟨fun i hi => ?_, fun hgood hfits => ?_, fun hbad => hloop.bad fun hrest => hbad ?_⟩
  · rcases hloop.inside i hi with hi | hi
    · rcases List.mem_append.mp hi with hi | hi
      · exact .inl hi
      · rw [List.mem_range'_1] at hi
        exact .inr (by omega)
    · exact .inr hi
  · rw [length_wire_cons] at hfits
    obtain ⟨hret, hout⟩ := hloop.good (goodLabels_cons.mp hgood).2 (by omega)
    refine ⟨?_, ?_⟩
    · rw [hret, length_wire_cons]
      congr 1
      omega
    · rw [hout, hlen, ByteBuf.store_store, wire_cons]
  · have hlabel : label ≠ [] ∧ label.length ≤ 63 :=
      ⟨fun hnil => hshort (.inr (hnil ▸ rfl)), by omega⟩
    rw [length_wire_cons]
    exact ⟨goodLabels_cons.mpr ⟨hlabel, hrest.1⟩, by omega⟩

theorem encodeLoop_encodes (name : List UInt8) : ∀ out outlen writes, outlen < outsz →
    Encodes outsz outlen out writes (split labelDot name)
      (encodeLoop outsz name out outlen writes) := by
  induction name using induct labelDot with
  | nil => exact fun out outlen writes h => encodeLoop_nil h
  | last label hdot hne =>
    intro out outlen writes _
    rw [split_last hdot hne]
    exact encodeLoop_label (List.append_nil label).symm hne hdot (.inl ⟨rfl, rfl⟩)
      fun out outlen writes h => encodeLoop_nil h
  | cons label rest hdot ih =>
    intro out outlen writes _
    rw [split_cons hdot]
    exact encodeLoop_label rfl (by simp) hdot (.inr rfl) ih

-- ---------------------------------------------------------------------------
-- What the decoder reads
-- ---------------------------------------------------------------------------

/-- A label that fits is copied as a whole. -/
theorem copyLabel_fits (label : List UInt8) {out : List UInt8} {outlen : ℕ}
    (hout : outlen ≤ out.length) (h : outlen + label.length < outsz) :
    copyLabel outsz out outlen label = (ByteBuf.store out outlen label, outlen + label.length) := by
  induction label generalizing out outlen with
  | nil => rw [ByteBuf.store_nil hout]; rfl
  | cons x label ih =>
    rw [List.length_cons] at h
    have hlong := ByteBuf.le_length_store out outlen [x]
    have hstore := ByteBuf.store_store out outlen [x] label
    rw [List.length_singleton] at hlong hstore
    have htail := ih hlong (by omega)
    rw [copyLabel] at htail
    rw [copyLabel, List.foldl_cons]
    dsimp only
    rw [if_pos (by omega), htail, hstore, List.length_cons, Nat.add_right_comm, Nat.add_assoc]
    rfl

/-- The turn for a label that fits. -/
theorem dnsTurn_label {data : List UInt8} {s : DnsDecode} (hne : label ≠ []) (hle : label.length ≤ 63)
    (hget : ByteBuf.get data s.p = UInt8.ofNat label.length)
    (hload : ByteBuf.load data (s.p + 1) label.length = label)
    (hdata : s.p + 1 + label.length ≤ data.length) (hout : s.outlen ≤ s.out.length)
    (hroom : s.outlen + label.length + 1 < outsz) :
    dnsTurn data outsz s = .next { s with
      p := s.p + 1 + label.length
      out := ByteBuf.store s.out s.outlen (label ++ [labelDot])
      outlen := s.outlen + label.length + 1 } := by
  have hpos := List.length_pos_iff.mpr hne
  have hlen : (UInt8.ofNat label.length).toNat = label.length := by
    rw [UInt8.toNat_ofNat']
    omega
  have hzero : UInt8.ofNat label.length ≠ 0 := fun heq => by
    rw [heq] at hlen
    exact absurd hlen.symm (Nat.pos_iff_ne_zero.mp hpos)
  have hdots : ByteBuf.store (ByteBuf.store s.out s.outlen label) (s.outlen + label.length) [0x2E] =
      ByteBuf.store s.out s.outlen (label ++ [labelDot]) := ByteBuf.store_store s.out s.outlen label _
  rw [dnsTurn, if_neg (by omega)]
  dsimp only
  rw [hget, if_neg hzero, if_neg (not_pointer (by omega)), hlen, if_neg (by omega), hload,
    copyLabel_fits label hout (by omega)]
  dsimp only
  rw [if_pos hroom, hdots]

/-- The loop over the encoding of labels. -/
theorem dnsLoop_wire (hgood : GoodLabels labels) (pre tail : List UInt8) {out : List UInt8}
    {outlen : ℕ} (total : ℕ) (hout : outlen ≤ out.length)
    (hroom : outlen + (join labelDot labels).length < outsz) :
    dnsLoop (pre ++ (wire labels ++ tail)) outsz (labels.length + 1)
        ⟨pre.length, out, outlen, false, total⟩ =
      some (some (pre.length + (wire labels).length,
        ByteBuf.store out outlen (join labelDot labels ++ [0]))) := by
  induction labels generalizing pre out outlen with
  | nil =>
    have hget : ByteBuf.get (pre ++ (wire [] ++ tail)) pre.length = 0 := by
      rw [ByteBuf.get, List.getD_append_right _ _ _ _ (Nat.le_refl _), Nat.sub_self]
      rfl
    have hlen : ¬ (pre ++ (wire [] ++ tail)).length ≤ pre.length := by
      simp [wire]
    rw [dnsLoop, dnsTurn, if_neg hlen]
    dsimp only
    rw [hget, if_pos rfl]
    dsimp only
    rw [if_neg Bool.false_ne_true, if_pos (Nat.lt_of_le_of_lt (Nat.le_add_right _ _) hroom),
      if_pos (Nat.zero_lt_of_lt hroom)]
    congr 3
    split
    · rename_i hzero
      rw [hzero]
      rfl
    · rfl
  | cons label labels ih =>
    obtain ⟨⟨hne, hle⟩, hgood⟩ := goodLabels_cons.mp hgood
    rw [join_cons, List.length_append, List.length_cons] at hroom
    have hsplit : pre ++ (wire (label :: labels) ++ tail) =
        (pre ++ UInt8.ofNat label.length :: label) ++ (wire labels ++ tail) := by
      rw [wire_cons]
      simp only [List.append_assoc]
    have hmid : pre ++ (wire (label :: labels) ++ tail) =
        (pre ++ [UInt8.ofNat label.length]) ++ (label ++ (wire labels ++ tail)) := by
      rw [wire_cons]
      simp only [List.append_assoc, List.cons_append, List.nil_append]
    have hget : ByteBuf.get (pre ++ (wire (label :: labels) ++ tail)) pre.length =
        UInt8.ofNat label.length := by
      rw [ByteBuf.get, List.getD_append_right _ _ _ _ (Nat.le_refl _), Nat.sub_self, wire_cons]
      rfl
    have hload : ByteBuf.load (pre ++ (wire (label :: labels) ++ tail)) (pre.length + 1) label.length =
        label := by
      have hpre : pre.length + 1 = (pre ++ [UInt8.ofNat label.length]).length := by
        rw [List.length_append, List.length_singleton]
      rw [hmid, hpre, ByteBuf.load_append]
    have hend : pre.length + 1 + label.length = (pre ++ UInt8.ofNat label.length :: label).length := by
      rw [List.length_append, List.length_cons]
      omega
    have hdata : pre.length + 1 + label.length ≤ (pre ++ (wire (label :: labels) ++ tail)).length := by
      rw [hsplit, List.length_append, hend]
      exact Nat.le_add_right _ _
    have hlong := ByteBuf.le_length_store out outlen (label ++ [labelDot])
    rw [List.length_append, List.length_singleton, ← Nat.add_assoc] at hlong
    have hrest := ih hgood (pre ++ UInt8.ofNat label.length :: label) hlong (by omega)
    have hstore := ByteBuf.store_store out outlen (label ++ [labelDot]) (join labelDot labels ++ [0])
    rw [List.length_append, List.length_singleton, ← Nat.add_assoc] at hstore
    have hfits : outlen + label.length + 1 < outsz := by omega
    rw [List.length_cons, dnsLoop, dnsTurn_label hne hle hget hload hdata hout hfits]
    dsimp only
    rw [hend, hsplit, hrest, hstore, ← hend, length_wire_cons, join_cons]
    simp only [List.append_assoc, List.cons_append, List.nil_append]
    congr 3
    omega

theorem bufString_store {text : List UInt8} (h : (0 : UInt8) ∉ text) (buf : List UInt8) :
    bufString (ByteBuf.store buf 0 (text ++ [0])) = text := by
  have hall : ∀ x ∈ text, decide (x ≠ 0) = true := fun x hx =>
    decide_eq_true fun heq => h (heq ▸ hx)
  rw [bufString, ByteBuf.store_zero, List.append_assoc, List.takeWhile_append_of_pos hall]
  simp

-- ---------------------------------------------------------------------------
-- The codec
-- ---------------------------------------------------------------------------

theorem dnsEncode_some {n : ℕ} (hsize : 0 < outsz) :
    (dnsEncodeName out outsz name).ret = some n ↔
      GoodLabels (split labelDot name) ∧ (wire (split labelDot name)).length ≤ outsz ∧
        n = (wire (split labelDot name)).length := by
  have hloop := encodeLoop_encodes name out 0 [] hsize
  by_cases hfits : GoodLabels (split labelDot name) ∧ (wire (split labelDot name)).length ≤ outsz
  · have hret := (hloop.good hfits.1 (by omega)).1
    rw [Nat.zero_add] at hret
    rw [dnsEncodeName, hret, Option.some.injEq]
    exact ⟨fun h => ⟨hfits.1, hfits.2, h.symm⟩, fun h => h.2.2.symm⟩
  · have hret := hloop.bad fun h => hfits ⟨h.1, by omega⟩
    rw [dnsEncodeName, hret]
    exact ⟨nofun, fun h => absurd ⟨h.1, h.2.1⟩ hfits⟩

/-- An accepted name is stored at the start of the buffer. -/
theorem dnsEncode_load {n : ℕ} (hsize : 0 < outsz) (h : (dnsEncodeName out outsz name).ret = some n) :
    ByteBuf.load (dnsEncodeName out outsz name).out 0 n = wire (split labelDot name) := by
  obtain ⟨hgood, hfits, rfl⟩ := (dnsEncode_some hsize).mp h
  have hout := ((encodeLoop_encodes name out 0 [] hsize).good hgood (by omega)).2
  rw [dnsEncodeName, hout, ByteBuf.store_zero]
  exact ByteBuf.load_append [] _ _

/--
**Host names.** The encoder stays in its buffer and accepts exactly the names whose labels
have 1 to 63 bytes and whose encoding fits. The decoder consumes the encoding and gives the
name back, with a dot at its end.
-/
theorem dns_name_codec (name out : List UInt8) (outsz : ℕ) (hname : (0 : UInt8) ∉ name)
    (hsize : 0 < outsz) : NameCodec name out outsz := by
  refine ⟨fun i hi => ?_, fun n => dnsEncode_some hsize, fun n => dnsEncode_load hsize,
    fun n hret hn tail buf => ?_⟩
  · exact ((encodeLoop_encodes name out 0 [] hsize).inside i hi).resolve_left List.not_mem_nil
  · obtain ⟨hgood, hfits, hlen⟩ := (dnsEncode_some hsize).mp hret
    generalize hlabels : split labelDot name = labels at hgood hfits hlen
    have hback : join labelDot labels = name ∨ join labelDot labels = name ++ [labelDot] :=
      hlabels ▸ join_split name
    have hzero : (0 : UInt8) ∉ join labelDot labels := by
      rcases hback with heq | heq
      · rwa [heq]
      · rw [heq, List.mem_append, not_or]
        exact ⟨hname, by decide⟩
    have hagain : split labelDot (join labelDot labels) = labels :=
      split_join (hlabels ▸ not_mem_of_split)
    have hroom : 0 + (join labelDot labels).length < dnsMaxName := by
      have hjoin : (join labelDot labels).length + 1 = (wire labels).length := length_join
      rw [dnsMaxName]
      omega
    have hloop := dnsLoop_wire hgood [] tail 0 (Nat.zero_le buf.length) hroom
    rw [List.length_nil, Nat.zero_add, ← hlen] at hloop
    rw [dnsEncode_load hsize hret, hlabels]
    refine ⟨labels.length + 1, ByteBuf.store buf 0 (join labelDot labels ++ [0]), hloop, ?_,
      fun out' => ?_⟩
    · rw [bufString_store hzero]
      exact hback
    · rw [bufString_store hzero]
      have hsame : (dnsEncodeName out' outsz (join labelDot labels)).ret = some n :=
        (dnsEncode_some hsize).mpr (by rw [hagain]; exact ⟨hgood, hfits, hlen⟩)
      exact ⟨hsame, by rw [dnsEncode_load hsize hsame, hagain]⟩

theorem dns_name_codec_sample : NameCodec [0x61, labelDot, 0x62] [] dnsMaxName :=
  dns_name_codec _ _ _ (by decide) (by decide)

end Lestra
