import IsaacP2P.Client.Decoded
import IsaacP2P.Client.Wire

/-!
# Library to library

Without a relay a process that listens and one that connects have the two ends of
one TCP stream. Whatever the two do, and in whatever order, as long as the link is up,
no frame has overtaken another one and the packets framed are legal, those that have
arrived at one end are the first of those framed at the other (`direct_in_order`).
-/

namespace IsaacP2P.EndToEnd

open Client (PeerID Connection Manager World Callback Kernel Call Leaf InOrder call fresh framed sent
  arrived received createSendFrame createSendFrame_eq maxPacket invalidSocketHandle)
open LengthPrefixed (frame stream)

variable {υ υ' : Type} {cb : Callback υ} {cb' : Callback υ'} {p q : PeerID} {c d : Connection}
  {a b : Manager}

/-- The bytes that come out of the connection `d` of `b` have been put into the
connection `c` of `a`, which is up. -/
structure Joined (a : Manager) (p : PeerID) (c : Connection) (b : Manager) (q : PeerID)
    (d : Connection) : Prop where
  near : a.mConnections.lookup p = some c
  up : c.connected = true
  far : b.mConnections.lookup q = some d
  socket : d.socket ≠ invalidSocketHandle
  stream : received d.socket b.trace <+: sent c.socket a.trace

/-- The frames of what was framed decode, if `P2P_SendPacket` was given legal packets. -/
theorem decodes_framed {ds : List Client.Packet} (hlegal : ∀ d ∈ ds, Client.Packet.Legal d) :
    Streaming.Decodes (stream maxPacket) (ds.flatMap createSendFrame) ds [] := by
  refine Streaming.decodes_flatMap rfl fun d hd more => ?_
  obtain ⟨hne, hmax⟩ := hlegal d hd
  rw [createSendFrame_eq]
  refine LengthPrefixed.next_frame ?_ hne hmax more
  unfold maxPacket at hmax
  omega

theorem Joined.wire (h : Joined a p c b q d) (hsettled : a.Settled) (hwire : a.OnWire)
    (hord : InOrder c.socket a.trace) :
    sent c.socket a.trace ++ c.sendBuffer = (framed c.socket a.trace).flatMap createSendFrame :=
  hwire p c h.near ((hsettled p c h.near).live (.inl h.up)) h.up hord

theorem Joined.arrived_prefix (h : Joined a p c b q d) (hsettled : a.Settled) (hwire : a.OnWire)
    (hparsed : b.Parsed) (hord : InOrder c.socket a.trace)
    (hlegal : ∀ packet ∈ framed c.socket a.trace, Client.Packet.Legal packet) :
    arrived d.socket b.trace <+: framed c.socket a.trace := by
  have hall := h.wire hsettled hwire hord
  have hin : received d.socket b.trace <+:
      (framed c.socket a.trace).flatMap createSendFrame :=
    h.stream.trans (hall ▸ List.prefix_append _ _)
  obtain ⟨ps, rest, hd⟩ := Client.decodes_of_prefix (decodes_framed hlegal) hin
  rw [(hparsed q d h.far h.socket ps rest hd).1]
  refine LengthPrefixed.takes_prefix hd.1 ?_ fun f hf => ?_
  · rwa [← funext createSendFrame_eq]
  · have := (hlegal f hf).2
    unfold maxPacket at this
    omega

theorem Joined.arrived_all (h : Joined a p c b q d) (hsettled : a.Settled) (hwire : a.OnWire)
    (hparsed : b.Parsed) (hord : InOrder c.socket a.trace)
    (hlegal : ∀ packet ∈ framed c.socket a.trace, Client.Packet.Legal packet)
    (hempty : c.sendBuffer = []) (hread : received d.socket b.trace = sent c.socket a.trace) :
    arrived d.socket b.trace = framed c.socket a.trace ∧ d.recvBuffer = [] := by
  have hall := h.wire hsettled hwire hord
  rw [hempty, List.append_nil, ← hread] at hall
  exact hparsed q d h.far h.socket _ _ (hall ▸ decodes_framed hlegal)

/-- **From library to library**: while a link is up, no frame overtakes another one and the
packets are legal, what has arrived at the far end is the beginning of what was framed at
the near one, and all of it once nothing is on the way. -/
theorem direct_in_order {w : World υ} {w' : World υ'} (hcb : Leaf cb) (hcb' : Leaf cb')
    {callback callback' : Bool} {user : υ} {user' : υ'}
    (hw : Runs.Reachable (call cb) (fresh callback user) w)
    (hw' : Runs.Reachable (call cb') (fresh callback' user') w')
    (h : Joined w.mgr p c w'.mgr q d) (hord : InOrder c.socket w.mgr.trace)
    (hlegal : ∀ packet ∈ framed c.socket w.mgr.trace, Client.Packet.Legal packet) :
    arrived d.socket w'.mgr.trace <+: framed c.socket w.mgr.trace ∧
    (c.sendBuffer = [] → received d.socket w'.mgr.trace = sent c.socket w.mgr.trace →
      arrived d.socket w'.mgr.trace = framed c.socket w.mgr.trace ∧ d.recvBuffer = []) := by
  have hsettled := (Client.reachable_sockets hcb hw).settled
  have hwire := Client.reachable_wire hcb hw
  have hparsed : w'.mgr.Parsed :=
    (Client.reachable_keeps hcb' (fun _ _ hs => hs.parsed)
      (fun m hm p c hc => by simp [hm] at hc) hw').2
  exact ⟨h.arrived_prefix hsettled hwire hparsed hord hlegal,
    h.arrived_all hsettled hwire hparsed hord hlegal⟩

/-- Two packets are sent: two bytes of the first go out at once, all else when the
socket is writable again. -/
def nearRun : List (Kernel × Call) :=
  [({}, .initializeManager), ({ socket := fun _ => 7 }, .connect (some ['h']) 80),
    ({ send := fun _ _ => .sent 2 }, .sendPacket 1 (some [1])),
    ({}, .sendPacket 1 (some [2, 3])),
    ({ select := fun _ => { writable := fun _ => true }, send := fun _ _ => .sent 100 },
      .processEvents)]

/-- The listener reads them in two pieces, the first of which ends inside the second length. -/
def farRun : List (Kernel × Call) :=
  [({}, .initializeManager), ({ socket := fun _ => 3 }, .listen 80),
    ({ accept := fun _ => [(9, ['h'], 50000)] }, .processEvents),
    ({ select := fun _ => { readable := fun _ => true },
       recv := fun _ _ => ([[1, 0, 0, 0, 1, 2, 0], [0, 0, 2, 3]], .again) }, .processEvents)]

theorem nearRun_arrived : ∃ w w' d, Runs.run (call Client.ignore) nearRun (fresh true ()) = some w ∧
    Runs.run (call Client.ignore) farRun (fresh true ()) = some w' ∧
    w'.mgr.mConnections.lookup 1 = some d ∧ arrived d.socket w'.mgr.trace = [[1], [2, 3]] := by
  let w := (Runs.run (call Client.ignore) nearRun (fresh true ())).get (by decide +kernel)
  let w' := (Runs.run (call Client.ignore) farRun (fresh true ())).get (by decide +kernel)
  let c := (w.mgr.mConnections.lookup 1).get (by decide +kernel)
  let d := (w'.mgr.mConnections.lookup 1).get (by decide +kernel)
  have hr : Runs.run (call Client.ignore) nearRun (fresh true ()) = some w := by simp [w]
  have hr' : Runs.run (call Client.ignore) farRun (fresh true ()) = some w' := by simp [w']
  have hd : w'.mgr.mConnections.lookup 1 = some d := by simp [d]
  have hj : Joined w.mgr 1 c w'.mgr 1 d :=
    { near := by simp [c]
      up := by decide +kernel
      far := hd
      socket := by decide +kernel
      stream := by decide +kernel }
  obtain ⟨-, hall⟩ := direct_in_order Client.ignore_mute.leaf Client.ignore_mute.leaf ⟨_, hr⟩
    ⟨_, hr'⟩ hj (by decide +kernel) (by unfold Client.Packet.Legal; decide +kernel)
  have hframed : framed c.socket w.mgr.trace = [[1], [2, 3]] := by decide +kernel
  rw [hframed] at hall
  exact ⟨w, w', d, hr, hr', hd, (hall (by decide +kernel) (by decide +kernel)).1⟩

end IsaacP2P.EndToEnd
