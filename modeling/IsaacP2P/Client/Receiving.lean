import IsaacP2P.Client.Network

/-!
# Taking a packet out of a receive queue

`readPacket` takes the head off the queue of one connection, or leaves the
manager as it is (`Pops`). `P2P_ReadPacket` with the size and the peer that
`P2P_IsPacketAvailable` just reported returns the head packet.
-/

namespace IsaacP2P.Client

variable {υ : Type} {m : Manager} {w : World υ} {peer : PeerID}

/-- What `readPacket` returns and leaves. -/
inductive Pops (m : Manager) : Option (Packet × PeerID) → Manager → Prop where
  | nothing : Pops m none m
  | popped {p : PeerID} {c : Connection} {packet : Packet} {rest : PacketQueue} :
      m.mConnections.lookup p = some c → c.receiveQueue = packet :: rest →
      Pops m (some (packet, p)) (m.setConn p { c with receiveQueue := rest })
  /-- The packet does not fit, and is gone. -/
  | lost {p : PeerID} {c : Connection} {packet : Packet} {rest : PacketQueue} :
      m.mConnections.lookup p = some c → c.receiveQueue = packet :: rest →
      Pops m none (m.setConn p { c with receiveQueue := rest })

theorem Pops.trace_eq {out : Option (Packet × PeerID)} {m' : Manager} (h : Pops m out m') :
    m'.trace = m.trace := by
  cases h <;> rfl

theorem readPacket_pops (peer : PeerID) (buffer : Bool) (bufferSize : UInt32) (m : Manager) :
    Pops m (readPacket peer buffer bufferSize m).1 (readPacket peer buffer bufferSize m).2 := by
  unfold readPacket
  split
  · exact .nothing
  · dsimp only
    split
    · exact .nothing
    · rename_i source _
      cases hc : m.mConnections.lookup source with
      | none => exact .nothing
      | some c =>
        cases hq : c.receiveQueue with
        | nil => simp only [hq, PacketQueue.pop]; exact .nothing
        | cons packet rest =>
          simp only [hq, PacketQueue.pop]
          split
          · exact .lost hc hq
          · exact .popped hc hq

theorem p2pReadPacket_pops (peer : PeerID) (buffer : Bool) (bufferSize : UInt32) (w : World υ) :
    ∃ m, (p2pReadPacket peer buffer bufferSize w).2.2 = { w with mgr := m } ∧
      Pops w.mgr (p2pReadPacket peer buffer bufferSize w).2.1 m := by
  unfold p2pReadPacket
  split
  · exact ⟨w.mgr, rfl, .nothing⟩
  · split
    · exact ⟨w.mgr, rfl, .nothing⟩
    · split
      · exact ⟨w.mgr, rfl, .nothing⟩
      · split
        · exact ⟨w.mgr, rfl, .nothing⟩
        · exact ⟨_, rfl, readPacket_pops peer buffer bufferSize w.mgr⟩

end IsaacP2P.Client
