import Lestra.Net.Firewall

/-!
# The payload of an IPv4 packet

What `handle_ipv4` (`kernel/net/net.c`) gives to a protocol handler. A frame on a link has at
least 60 bytes, so the bytes behind a short packet are padding; `total_len` says where the
packet ends. The code does not read it: it takes the packet to end with the frame.
-/

namespace Lestra

/-- `ntohs16(ip->total_len)` -/
def ipTotalLen (data : List UInt8) : ℕ := (netU16 data 2).toNat

/-- The bytes that a protocol handler gets. -/
def handedOn (r : Fw × Option FwAction × Option IpCall) : Option (List UInt8) :=
  match r.2.2 with
  | some (.handler _ _ l4) => some l4
  | _ => none

/-- The packet is for this host and for a known protocol, and the firewall accepts it. -/
structure Deliverable (env : NetEnv) (fw : Fw) (data beyond : List UInt8) : Prop where
  forUs : ipForUs env data
  accepted : fw.ensure.table.verdict .input (data ++ beyond) = .accept
  known : ipProto data = ipProtoIcmp ∨ ipHasPorts data

/-- The packet ends behind its header and within the frame. -/
def WellDelimited (data : List UInt8) : Prop :=
  ipHdrLen data ≤ ipTotalLen data ∧ ipTotalLen data ≤ data.length

/-- A handler gets the bytes between the header and the end of the packet; a packet that does
not end in the frame is discarded. -/
structure Delimits (env : NetEnv) (fw : Fw) (data beyond : List UInt8) : Prop where
  exact : WellDelimited data → Deliverable env fw data beyond →
    handedOn (handleIpv4 env fw data beyond) =
      some ((data.drop (ipHdrLen data)).take (ipTotalLen data - ipHdrLen data))
  discarded : ¬ WellDelimited data → handedOn (handleIpv4 env fw data beyond) = none

variable {env : NetEnv} {fw : Fw} {data beyond : List UInt8}

theorem ipHdrLen_le (h : ipForUs env data) : ipHdrLen data ≤ data.length := by
  simp only [ipForUs, Bool.and_eq_true, decide_eq_true_eq] at h
  exact h.1.2

/-- A handler gets all that follows the header in the frame. -/
theorem handedOn_eq (h : Deliverable env fw data beyond) :
    handedOn (handleIpv4 env fw data beyond) = some (data.drop (ipHdrLen data)) := by
  have hknown : (ipProto data == ipProtoIcmp || ipHasPorts data) = true := by
    rcases h.known with hicmp | hports
    · rw [hicmp, beq_self_eq_true, Bool.true_or]
    · rw [hports, Bool.or_true]
  have hverdict : (fwCheck fw (data ++ beyond) .input).2 = .accept := fwCheck_verdict.trans h.accepted
  rw [handleIpv4, if_pos h.forUs]
  dsimp only
  rw [hverdict, hknown]
  rfl

theorem handedOn_none (h : ¬ Deliverable env fw data beyond) :
    handedOn (handleIpv4 env fw data beyond) = none := by
  rw [handleIpv4]
  by_cases hus : ipForUs env data
  · rw [if_pos hus]
    dsimp only
    cases hverdict : (fwCheck fw (data ++ beyond) .input).2 with
    | drop => rfl
    | reject =>
      cases ipHasPorts data with
      | false => rfl
      | true => rfl
    | accept =>
      cases hknown : (ipProto data == ipProtoIcmp || ipHasPorts data) with
      | false => rfl
      | true =>
        rw [Bool.or_eq_true, beq_iff_eq] at hknown
        exact absurd ⟨hus, fwCheck_verdict.symm.trans hverdict, hknown⟩ h
  · rw [if_neg hus]
    rfl

/--
**Padding is data, unless there is none.** A packet that is delivered reaches its handler
with the right bytes exactly if it fills the frame: what follows a shorter packet is handed
on with it, and a packet that claims to be longer is not discarded.
-/
theorem ipv4_delimits_iff (env : NetEnv) (fw : Fw) (data beyond : List UInt8) :
    Delimits env fw data beyond ↔
      (Deliverable env fw data beyond → ipTotalLen data = data.length) := by
  constructor
  · intro h hdeliver
    have hle := ipHdrLen_le hdeliver.forUs
    have hhanded := handedOn_eq hdeliver
    by_cases hwell : WellDelimited data
    · have hexact := h.exact hwell hdeliver
      rw [hhanded, Option.some.injEq] at hexact
      have hlen := congrArg List.length hexact
      rw [List.length_take, List.length_drop] at hlen
      have hfirst := hwell.1
      have hlast := hwell.2
      omega
    · rw [h.discarded hwell] at hhanded
      cases hhanded
  · intro h
    refine ⟨fun hwell hdeliver => ?_, fun hwell => handedOn_none fun hdeliver => ?_⟩
    · rw [handedOn_eq hdeliver, h hdeliver, List.take_of_length_le (by rw [List.length_drop])]
    · exact hwell ⟨h hdeliver ▸ ipHdrLen_le hdeliver.forUs, (h hdeliver).le⟩

/-- A host with the address 10.0.0.2. -/
def plainHost : NetEnv := ⟨true, 0x0A000002, 0xFFFFFF00, 0, 0, fun _ => 0, true⟩

/-- An ACK without data from 10.0.0.1, in a frame that is padded to 60 bytes. -/
def paddedAck : List UInt8 :=
  ipHeader 0x0A000001 0x0A000002 ipProtoTcp 20 0 ++
    tcpSegBytes 0 ⟨80, 1024, 7, 9, tcpAck, []⟩ ++ List.replicate 6 0

/-- The six bytes of padding arrive as the payload of the segment. -/
theorem paddedAck_data : ¬ Delimits plainHost fwInit paddedAck [] ∧
    (handedOn (handleIpv4 plainHost fwInit paddedAck [])).bind tcpParse =
      some ⟨80, 1024, 7, 9, tcpAck, List.replicate 6 0⟩ := by
  have hhanded : handedOn (handleIpv4 plainHost fwInit paddedAck []) =
      some (tcpSegBytes 0 ⟨80, 1024, 7, 9, tcpAck, []⟩ ++ List.replicate 6 0) := by decide
  have hdeliver : Deliverable plainHost fwInit paddedAck [] :=
    ⟨by decide, by decide, .inr (by decide)⟩
  refine ⟨fun h => ?_, by rw [hhanded]; decide⟩
  have hexact := h.exact ⟨by decide, by decide⟩ hdeliver
  rw [hhanded] at hexact
  exact absurd hexact (by decide)

end Lestra
