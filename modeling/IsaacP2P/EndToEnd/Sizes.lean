import IsaacP2P.Client.Outgoing
import IsaacP2P.Relay.Packets

/-!
# The three limits on a packet

`sendPacket` rejects the empty packet only, `ReceiveBuffer` takes packets of at
most 1 MiB, and the relay those of at most 65532 bytes. So the frame of a packet
that `sendPacket` accepted passes both decoders exactly if the packet is within
the relay's limit (`frame_accepted_iff`).
-/

namespace IsaacP2P.EndToEnd

open Client (createSendFrame createSendFrame_eq sendPacket)
open Client.ReceiveBuffer (tryParsePacket)
open Relay (illegalLength readPacketLength)

variable {d : List UInt8}

/-- The receive buffer of the peer library yields exactly the packet, and keeps
what stands behind the frame. -/
def PeerTakes (d : List UInt8) : Prop :=
  ∀ more, tryParsePacket (createSendFrame d ++ more) = (some d, more)

/-- `handle_client_data` finds a legal length at the head of the frame. -/
def RelayTakes (d : List UInt8) : Prop :=
  ∃ b0 b1 b2 b3, createSendFrame d = b0 :: b1 :: b2 :: b3 :: d ∧
    illegalLength (readPacketLength b0 b1 b2 b3) = false

theorem peerTakes_iff (hd : d.length < 2 ^ 32) :
    PeerTakes d ↔ d ≠ [] ∧ d.length ≤ Client.maxPacket := by
  constructor
  · intro h
    have hd' := h []
    rw [List.append_nil, createSendFrame_eq, Client.tryParsePacket_eq] at hd'
    cases hnext : LengthPrefixed.next Client.maxPacket (LengthPrefixed.frame d) with
    | wait => rw [hnext] at hd'; cases hd'
    | bad => rw [hnext] at hd'; cases hd'
    | item p rest =>
      rw [hnext] at hd'
      cases hd'
      exact (LengthPrefixed.next_item hnext).2
  · rintro ⟨h0, hmax⟩ more
    rw [createSendFrame_eq, Client.tryParsePacket_eq,
      LengthPrefixed.next_frame (by simpa using hd) h0 hmax]

theorem frame_header (hd : d.length < 2 ^ 32) :
    ∃ b0 b1 b2 b3, createSendFrame d = b0 :: b1 :: b2 :: b3 :: d ∧
      (readPacketLength b0 b1 b2 b3).toNat = d.length := by
  rw [createSendFrame_eq]
  refine ⟨_, _, _, _, rfl, ?_⟩
  rw [Relay.toNat_readPacketLength]
  exact LittleEndian.decode_encode (w := 4) (by simpa using hd)

theorem relayTakes_iff (hd : d.length < 2 ^ 32) :
    RelayTakes d ↔ d ≠ [] ∧ d.length ≤ Relay.maxPayload := by
  obtain ⟨b0, b1, b2, b3, he, hlen⟩ := frame_header hd
  have hlegal : illegalLength (readPacketLength b0 b1 b2 b3) = false ↔
      d ≠ [] ∧ d.length ≤ Relay.maxPayload := by
    rw [← Bool.not_eq_true, Relay.illegalLength_iff, hlen, not_or, List.length_eq_zero_iff,
      Nat.not_lt]
  rw [← hlegal]
  constructor
  · rintro ⟨c0, c1, c2, c3, he', h⟩
    rw [he] at he'
    cases he'
    exact h
  · intro h
    exact ⟨b0, b1, b2, b3, he, h⟩

/-- A frame the relay does not take makes it close the connection. -/
theorem packetLoop_closes (hd : d.length < 2 ^ 32) (h : ¬ RelayTakes d) {k : Relay.Kernel}
    {f : Relay.Fd} {s : Relay.Server} {c : Relay.Connection} {more : List UInt8}
    (hc : s.gConnections.lookup f = some c) (hbuf : c.recvBuf = createSendFrame d ++ more)
    (n : Nat) : Relay.packetLoop k f (n + 1) s = some (Relay.closeConnection f s) := by
  obtain ⟨b0, b1, b2, b3, he, -⟩ := frame_header hd
  have hill : illegalLength (readPacketLength b0 b1 b2 b3) = true := by
    by_contra hno
    exact h ⟨b0, b1, b2, b3, he, by simpa using hno⟩
  rw [he] at hbuf
  simp [Relay.packetLoop, hc, hbuf, hill]

theorem ne_nil_of_sent {k : Client.Kernel} {m m' : Client.Manager} {peer : Client.PeerID}
    (h : sendPacket k peer (some d) m = (true, m')) : d ≠ [] := by
  rintro rfl
  cases h

/-- **The decoders and `sendPacket` agree on a packet exactly if it is within the
relay's limit.** -/
theorem frame_accepted_iff {k : Client.Kernel} {m m' : Client.Manager} {peer : Client.PeerID}
    (hd : d.length < 2 ^ 32) (h : sendPacket k peer (some d) m = (true, m')) :
    PeerTakes d ∧ RelayTakes d ↔ d.length ≤ 65532 := by
  have h0 := ne_nil_of_sent h
  rw [peerTakes_iff hd, relayTakes_iff hd]
  constructor
  · intro h
    exact h.2.2
  · intro h
    refine ⟨⟨h0, ?_⟩, h0, h⟩
    simp only [Client.maxPacket]
    omega

theorem sendPacket_onePeer {d : List UInt8} (h0 : d ≠ []) (hd : d.length < 2 ^ 32) :
    ∃ m', sendPacket {} 1 (some d) Client.onePeer = (true, m') := by
  have hsize := Client.size_ne_zero (List.length_pos_iff.mpr h0) hd
  have hc : ∃ c, Client.onePeer.mConnections.lookup 1 = some c ∧ c.connected = true :=
    ⟨(Client.onePeer.mConnections.lookup 1).get (by decide +kernel), by simp, by decide +kernel⟩
  obtain ⟨c, hc, hconn⟩ := hc
  have hs := Client.sendPacket_sends {} 1 (some d) Client.onePeer
  generalize hr : sendPacket {} 1 (some d) Client.onePeer = r at hs ⊢
  obtain ⟨b, m'⟩ := r
  cases hs with
  | refused hno => exact absurd ⟨rfl, hsize, hc, hconn⟩ (hno d c)
  | sent _ _ _ _ => exact ⟨_, rfl⟩
  | failed _ hfail => cases hfail

theorem frame_accepted_two :
    (∃ m', sendPacket {} 1 (some [1, 2]) Client.onePeer = (true, m')) ∧
      PeerTakes [1, 2] ∧ RelayTakes [1, 2] := by
  obtain ⟨m', h⟩ := sendPacket_onePeer (d := [1, 2]) (by decide) (by decide)
  exact ⟨⟨m', h⟩, (frame_accepted_iff (by decide) h).mpr (by decide)⟩

/-- `sendPacket` returns true for 65533 bytes, and the relay does not take them. -/
theorem oversized_sent :
    ∃ d m', d = List.replicate 65533 0 ∧ sendPacket {} 1 (some d) Client.onePeer = (true, m') ∧
      ¬ (PeerTakes d ∧ RelayTakes d) := by
  have hlen : (List.replicate 65533 (0 : UInt8)).length = 65533 := List.length_replicate
  obtain ⟨m', h⟩ := sendPacket_onePeer (d := List.replicate 65533 0)
    (by rw [← List.length_pos_iff, hlen]; decide) (by rw [hlen]; decide)
  refine ⟨_, m', rfl, h, fun hboth => ?_⟩
  have := ((relayTakes_iff (by rw [hlen]; decide)).mp hboth.2).2
  rw [hlen] at this
  exact absurd this (by decide)

end IsaacP2P.EndToEnd
