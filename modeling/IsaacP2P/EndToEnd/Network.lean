import IsaacP2P.Client.Wire
import IsaacP2P.EndToEnd.Delivery
import IsaacP2P.EndToEnd.Registration
import IsaacP2P.Hook.Posts
import IsaacP2P.Relay.Deliveries

/-!
# The relay and its games

A network is the relay and the processes of any number of games. A move is a step
of one of them, and they come in any order. All that the parties share are the TCP
streams: what one end reads has been sent at the other end (`Sending.up`,
`Receiving.down`).

What a game reads is the beginning of what its connection is owed, and of that the
part from a sender whose link is up, and on whose link no frame overtook another, is a
part, in order, of what the game of the sender posted to this one
(`network_in_order`). Nothing has to be assumed about the other clients, which may be
no games at all.
-/

namespace IsaacP2P.EndToEnd

open Client (PeerID SocketHandle createSendFrame createSendFrame_eq InOrder framed received sent
  arrived maxPacket)
open Hook (CSteamID Message Post Process Input steamIDBytes messageOf onWay returned Gave posted
  longs)
open Relay (Server Fd markOf handled consumed forwarded written deliveries payloadFor maxPayload)
open LengthPrefixed (frame stream)
open Streaming (Decodes)

variable {κ : Type} [DecidableEq κ]

/-! ## Moves -/

structure Network (κ : Type) where
  relay : Server
  game : κ → Process

inductive Move (κ : Type) where
  | relay (i : Relay.Kernel × Relay.Event)
  | game (j : κ) (i : Client.Kernel × Input)

def Network.step : Move κ → Network κ → Option (Network κ)
  | .relay i, n => (Relay.step i n.relay).map fun s => { n with relay := s }
  | .game j i, n =>
    (Hook.step i (n.game j)).map fun w => { n with game := Function.update n.game j w }

structure Network.Reachable (n : Network κ) : Prop where
  relay : Relay.Reachable n.relay
  game : ∀ j, Hook.Reachable (n.game j)

def Move.ofRelay : Move κ → Option (Relay.Kernel × Relay.Event)
  | .relay i => some i
  | .game _ _ => none

def Move.ofGame (j : κ) : Move κ → Option (Client.Kernel × Input)
  | .relay _ => none
  | .game j' i => if j' = j then some i else none

def relayMoves (ms : List (Move κ)) : List (Relay.Kernel × Relay.Event) := ms.filterMap Move.ofRelay

def gameMoves (j : κ) (ms : List (Move κ)) : List (Client.Kernel × Input) :=
  ms.filterMap (Move.ofGame j)

variable {n n' : Network κ} {ms : List (Move κ)} {i j : κ} {p q : PeerID} {h g : SocketHandle}
  {a b f : Fd} {idB : CSteamID}

theorem run_relay (hr : Runs.run Network.step ms n = some n') :
    Runs.run Relay.step (relayMoves ms) n.relay = some n'.relay := by
  refine Runs.run_part (fun m n n' hm => ?_) hr
  cases m with
  | relay i =>
    obtain ⟨s, hs, rfl⟩ := Option.map_eq_some_iff.mp hm
    exact Runs.run_cons_iff.mpr ⟨s, hs, rfl⟩
  | game j i =>
    obtain ⟨w, -, rfl⟩ := Option.map_eq_some_iff.mp hm
    rfl

theorem run_game (j : κ) (hr : Runs.run Network.step ms n = some n') :
    Runs.run Hook.step (gameMoves j ms) (n.game j) = some (n'.game j) := by
  refine @Runs.run_part _ _ Network.step _ _ Hook.step (Network.game · j) (Move.ofGame j)
    (fun m n n' hm => ?_) ms n n' hr
  cases m with
  | relay i =>
    obtain ⟨s, -, rfl⟩ := Option.map_eq_some_iff.mp hm
    rfl
  | game j' i =>
    obtain ⟨w, hw, rfl⟩ := Option.map_eq_some_iff.mp hm
    by_cases hj : j' = j
    · subst hj
      simpa [Move.ofGame] using Runs.run_cons_iff.mpr ⟨w, hw, rfl⟩
    · simp [Move.ofGame, hj, Function.update_of_ne (Ne.symm hj)]

theorem Network.Reachable.run (hn : n.Reachable) (hr : Runs.run Network.step ms n = some n') :
    n'.Reachable := by
  obtain ⟨listenFd, epfd, hstart⟩ := hn.relay
  exact ⟨⟨listenFd, epfd, hstart.run (run_relay hr)⟩, fun j => (hn.game j).run (run_game j hr)⟩

/-! ## Links -/

/-- The entry `p` of the game `j` holds the socket `h` to the relay, where the
connection is `f`. Neither end is closed from `n` to `n'`. -/
structure Linked (n n' : Network κ) (j : κ) (p : PeerID) (h : SocketHandle) (f : Fd) : Prop where
  held : (n.game j).mgr.held (.entry p) = some h
  isOpen : Relay.isOpen f n.relay.trace = true
  near : ∃ new, (n'.game j).mgr.trace = new ++ (n.game j).mgr.trace ∧ Client.Ev.close h ∉ new
  far : ∃ new, n'.relay.trace = new ++ n.relay.trace ∧ Relay.Ev.close f ∉ new

/-- A link on which nothing was sent before `n`. It is up at `n'`, and no frame has
overtaken another one. -/
structure Sending (n n' : Network κ) (j : κ) (p : PeerID) (h : SocketHandle) (f : Fd) : Prop
    extends Linked n n' j p h f where
  new : framed h (n.game j).mgr.trace = []
  connected : ∃ c, (n'.game j).mgr.mConnections.lookup p = some c ∧ c.connected = true
  inOrder : InOrder h (n'.game j).mgr.trace
  up : consumed f n'.relay.trace <+: sent h (n'.game j).mgr.trace

/-- A link on which nothing was received before `n`. It is registered under `id` at `n'`. -/
structure Receiving (n n' : Network κ) (j : κ) (p : PeerID) (h : SocketHandle) (f : Fd)
    (id : CSteamID) : Prop extends Linked n n' j p h f where
  new : received h (n.game j).mgr.trace = [] ∧ (n.game j).user.gHasTcpData = false
  owed : forwarded f n.relay.trace = []
  mark : markOf f n'.relay.trace = some (steamIDBytes id)
  down : received h (n'.game j).mgr.trace <+: written f n'.relay.trace

/-! ## The receiver -/

theorem written_owed {s : Server} (hi : Relay.Inv s) (f : Fd) :
    written f s.trace <+: forwarded f s.trace := by
  cases hc : s.gConnections.lookup f with
  | none => exact hi.closed hc
  | some c => exact ⟨c.sendBuf, hi.out hc⟩

theorem decodes_forwarded {s : Server} (hs : Relay.Reachable s) (f : Fd) :
    Decodes (stream maxPacket) (forwarded f s.trace) ((deliveries f s.trace).map (·.2)) [] := by
  rw [Relay.forwarded_eq, ← List.flatMap_map]
  refine Streaming.decodes_flatMap rfl fun payload hp more => ?_
  obtain ⟨d, hd, rfl⟩ := List.mem_map.mp hp
  obtain ⟨hne, hmax⟩ := Relay.legal_of_delivery hs hd
  unfold maxPayload at hmax
  refine LengthPrefixed.next_frame (by omega) hne ?_ more
  unfold maxPacket
  omega

omit [DecidableEq κ] in
theorem Receiving.arrived_prefix (hb : Receiving n n' j p h b idB) (hn' : n'.Reachable)
    (hheld : (n'.game j).mgr.held (.entry p) = some h) :
    arrived h (n'.game j).mgr.trace <+: (deliveries b n'.relay.trace).map (·.2) := by
  have hi := Relay.reachable_inv hn'.relay
  have howed := decodes_forwarded hn'.relay b
  have hin := hb.down.trans (written_owed hi b)
  obtain ⟨ps, rest, hd⟩ := Client.decodes_of_prefix howed hin
  rw [arrived_eq (hn'.game j) hheld hd]
  refine LengthPrefixed.takes_prefix hd.1 ?_ fun payload hp => ?_
  · rwa [Relay.forwarded_eq, ← List.flatMap_map] at hin
  · obtain ⟨d, hmem, rfl⟩ := List.mem_map.mp hp
    have := (Relay.legal_of_delivery hn'.relay hmem).2
    unfold maxPayload at this
    omega

theorem Receiving.reads (hb : Receiving n n' j p h b idB) (hn : n.Reachable)
    (hr : Runs.run Network.step ms n = some n') :
    ∃ ds, ds <+: deliveries b n'.relay.trace ∧
      Gave (returned (gameMoves j ms) (n.game j)) (ds.filterMap (messageOf ·.2)) := by
  obtain ⟨hquiet, hempty⟩ := quiet_of_new (hn.game j) hb.held hb.new
  obtain ⟨new, ht, hup⟩ := hb.near
  obtain ⟨out, hgave, hh⟩ :=
    Hook.run_hands (p := p) (h := h) (Hook.reachable_sound (hn.game j)) (run_game j hr)
  obtain ⟨hheld, ps, ha, hq⟩ := hh.up hb.held ht hup
  rw [hquiet, List.nil_append] at ha
  rw [Fifo.Passes, hempty, List.nil_append] at hq
  have hall := hb.arrived_prefix (hn.run hr) hheld
  rw [ha, List.prefix_map_iff] at hall
  obtain ⟨ds, hds, rfl⟩ := hall
  have hread : out <+: ds.filterMap (messageOf ·.2) := by
    rw [List.filterMap_map] at hq
    exact ⟨_, hq.symm⟩
  obtain ⟨ds', hds', rfl⟩ := List.prefix_filterMap_iff.mp hread
  exact ⟨ds', hds'.trans hds, hgave⟩

/-! ## A sender -/

/-- A packet that is no registration carries a payload for the target alone. -/
theorem payloadFor_post (m : Post) (target : CSteamID) :
    payloadFor (steamIDBytes target) m.bytes =
      if m.target = target then some (steamIDBytes m.sender ++ m.data) else none := by
  rw [Post.bytes, List.append_assoc, payloadFor_addressed]

theorem payloadFor_short {mark data : List UInt8} (hlen : data.length ≤ 8) :
    payloadFor mark data = none := by
  unfold payloadFor Relay.markSize
  rw [if_neg]
  rintro ⟨-, hne⟩
  exact hne (List.drop_eq_nil_of_le hlen)

theorem payloads_long (ds : List Client.Packet) (mark : List UInt8) :
    ds.filterMap (payloadFor mark) = (ds.filter (8 < ·.length)).filterMap (payloadFor mark) := by
  rw [List.filterMap_filter]
  refine List.filterMap_congr fun d _ => ?_
  by_cases hlen : 8 < d.length
  · simp [hlen]
  · simp [hlen, payloadFor_short (Nat.not_lt.mp hlen)]

theorem messages_posted (posts : List Post) (target : CSteamID) :
    ((posts.map Post.bytes).filterMap (payloadFor (steamIDBytes target))).filterMap messageOf =
      (posts.filter (·.target = target)).map fun m => (m.sender, m.data) := by
  induction posts with
  | nil => rfl
  | cons m posts ih =>
    rw [List.map_cons, List.filterMap_cons, payloadFor_post, List.filter_cons]
    by_cases ht : m.target = target
    · rw [if_pos ht, if_pos (decide_eq_true ht), List.filterMap_cons, messageOf_sent, List.map_cons]
      exact congrArg _ ih
    · rw [if_neg ht, if_neg (by simpa using ht)]
      exact ih

/-- The long packets framed are buffers posted since the link is new. -/
theorem Sending.longs_posted (ha : Sending n n' i q g a) (hn : n.Reachable)
    (hr : Runs.run Network.step ms n = some n') :
    (longs g (n'.game i).mgr.trace).Sublist
      ((posted (gameMoves i ms) (n.game i)).map Post.bytes) := by
  have hnone : longs g (n.game i).mgr.trace = [] := by
    rw [longs, ha.new]
    rfl
  have := Hook.run_posted (Hook.reachable_base (hn.game i)) (run_game i hr) g
  rwa [hnone, List.nil_append] at this

/-- While a link is up, what was sent on it and what waits are the frames made for it. -/
theorem wire_eq {w : Process} (hw : Hook.Reachable w) (hheld : w.mgr.held (.entry q) = some g)
    (hup : w.mgr.up q) (ho : InOrder g w.mgr.trace) :
    ∃ c, w.mgr.mConnections.lookup q = some c ∧
      sent g w.mgr.trace ++ c.sendBuffer = (framed g w.mgr.trace).flatMap frame := by
  obtain ⟨hvalid, c, hc, rfl⟩ := Client.lookup_of_held (Hook.reachable_sound hw).apart.2 hheld
  obtain ⟨d, hd, hup⟩ := hup
  obtain rfl : c = d := Option.some.inj (hc.symm.trans hd)
  have hwire : w.mgr.OnWire := hw.library (fun _ => Client.onWire_of_empty)
    fun _ _ hm hw hs => hs.onWire hm hw
  refine ⟨c, hc, ?_⟩
  rw [← funext createSendFrame_eq]
  exact hwire q c hc hvalid hup ho

theorem Sending.handled_prefix (ha : Sending n n' i q g a) (hn : n.Reachable)
    (hr : Runs.run Network.step ms n = some n') (hopen : Relay.isOpen a n'.relay.trace = true) :
    handled a n'.relay.trace <+: framed g (n'.game i).mgr.trace := by
  have hn' := hn.run hr
  obtain ⟨c₁, hc₁⟩ : ∃ c, n'.relay.gConnections.lookup a = some c :=
    Option.isSome_iff_exists.mp (by rw [← (Relay.reachable_inv hn'.relay).opened]; exact hopen)
  have htakes := (Relay.reachable_intake hn'.relay a c₁ hc₁).1
  obtain ⟨new, ht, hclose⟩ := ha.near
  obtain ⟨out, -, hh⟩ :=
    Hook.run_hands (p := q) (h := g) (Hook.reachable_sound (hn.game i)) (run_game i hr)
  obtain ⟨hheld, -⟩ := hh.up ha.held ht hclose
  obtain ⟨c, -, hall⟩ := wire_eq (hn'.game i) hheld ha.connected ha.inOrder
  refine LengthPrefixed.takes_prefix htakes ?_ fun f hf => Hook.length_framed (hn'.game i) hf
  rw [← hall]
  exact ha.up.trans (List.prefix_append _ _)

/-- **What the receiver is owed by the sender** are messages the sender posted to it. -/
theorem Sending.owed_posted (ha : Sending n n' i q g a) (hb : Receiving n n' j p h b idB)
    (hn : n.Reachable) (hr : Runs.run Network.step ms n = some n') :
    (((deliveries b n'.relay.trace).filter (·.1 = a)).filterMap (messageOf ·.2)).Sublist
      (((posted (gameMoves i ms) (n.game i)).filter (·.target = idB)).map
        fun m => (m.sender, m.data)) := by
  have hl := Relay.reachable_lawful (hn.run hr).relay
  have hhandled := ha.handled_prefix hn hr
  have hmark := hb.mark
  obtain ⟨new, ht, hclose⟩ := ha.far
  obtain ⟨new', ht', hclose'⟩ := hb.far
  obtain rfl : new' = new := List.append_cancel_right (ht'.symm.trans ht)
  rw [ht] at hl hhandled hmark ⊢
  obtain ⟨ps, qs, hps, hqs, -, hsub⟩ :=
    Relay.deliveries_sublist hl ⟨hclose, hclose'⟩ ⟨ha.isOpen, hb.isOpen⟩
  have hnone : deliveries b n.relay.trace = [] := by
    have howed := hb.owed
    rw [Relay.forwarded_eq, List.flatMap_eq_nil_iff] at howed
    refine List.eq_nil_iff_forall_not_mem.mpr fun d hd => ?_
    have := congrArg List.length (howed d hd)
    rw [LengthPrefixed.length_frame, List.length_nil] at this
    omega
  have hps : ps.Sublist (framed g (n'.game i).mgr.trace) := by
    refine List.Sublist.trans ?_
      (hhandled (Relay.stays_open_of_lawful hl ha.isOpen hclose)).sublist
    rw [hps]
    exact List.sublist_append_right ..
  have hpayloads : qs.Sublist
      (((posted (gameMoves i ms) (n.game i)).map Post.bytes).filterMap
        (payloadFor (steamIDBytes idB))) := by
    refine (hsub _ hmark).trans ((hps.filterMap _).trans ?_)
    rw [payloads_long]
    exact (ha.longs_posted hn hr).filterMap _
  rw [hqs, hnone, List.filter_nil, List.nil_append, List.filterMap_map, ← messages_posted]
  exact hpayloads.filterMap _

/-- **Every message of a network comes from who it says, once and in order**, if the link of
that game is up and no frame overtook another on it, however the parties take their turns
and whatever the other clients of the relay do. -/
theorem network_in_order (hn : n.Reachable) (hr : Runs.run Network.step ms n = some n')
    (hb : Receiving n n' j p h b idB) :
    ∃ ds, ds <+: deliveries b n'.relay.trace ∧
      Gave (returned (gameMoves j ms) (n.game j)) (ds.filterMap (messageOf ·.2)) ∧
      ∀ i q g a, Sending n n' i q g a →
        ((ds.filter (·.1 = a)).filterMap (messageOf ·.2)).Sublist
          (((posted (gameMoves i ms) (n.game i)).filter (·.target = idB)).map
            fun m => (m.sender, m.data)) := by
  obtain ⟨ds, hds, hgave⟩ := hb.reads hn hr
  refine ⟨ds, hds, hgave, fun i q g a ha => ?_⟩
  exact ((hds.sublist.filter _).filterMap _).trans (ha.owed_posted hb hn hr)

/-- The relay has accepted the games 1 and 2 on the descriptors 5 and 6. -/
def pairAccepted : Server :=
  (Runs.run Relay.step (pairStart.take 2) (Relay.start 3 4)).get (by decide +kernel)

def pairNetwork : Network Bool where
  relay := pairAccepted
  game _ := attached

theorem pairNetwork_reachable : pairNetwork.Reachable where
  relay := ⟨3, 4, pairStart.take 2, by simp [pairNetwork, pairAccepted]⟩
  game := fun _ => ⟨openKernel, ['r'], 27015, attached, attach_attached, .refl _⟩

/-- The injection thread of the game with the SteamID `id` runs to its end. -/
def injects (j : Bool) (id : CSteamID) : List (Move Bool) :=
  [.game j (openKernel, .hookVTable true), .game j (openKernel, .identify id),
    .game j (openKernel, .register)]

/-- What the game 1 posts to the game 2. -/
def pairPost : Post := { target := 2, sender := 1, data := [9] }

/-- What comes for the game 2 comes in two pieces. -/
def inPieces : Client.Kernel :=
  { openKernel with
    select := fun _ => { readable := fun _ => true }
    recv := fun _ _ => ([[9, 0, 0], [0, 1, 0, 0, 0, 0, 0, 0, 0, 9]], .again) }

/-- Both register, 1 posts to 2, and 2 reads. -/
def pairMoves : List (Move Bool) :=
  injects true 1 ++ injects false 2 ++ (pairStart.drop 2).map .relay ++
  [.game true (openKernel, .send 2 (some [9]) 1),
    .relay ({ read := fun _ => .bytes (frame pairPost.bytes), write := fun _ _ => .wrote 100 },
      { fd := 5, input := true }),
    .game false (inPieces, .pump), .game false (openKernel, .isAvailable),
    .game false (openKernel, .read true 16)]

theorem pairNetwork_reads :
    ∃ ds : List (Fd × List UInt8), ds.length = 1 ∧
      Gave (returned (gameMoves false pairMoves) attached) (ds.filterMap (messageOf ·.2)) ∧
      ((ds.filter (·.1 = (5 : Fd))).filterMap (messageOf ·.2)).Sublist [((1 : CSteamID), [9])] := by
  let n' := (Runs.run Network.step pairMoves pairNetwork).get (by decide +kernel)
  have hr : Runs.run Network.step pairMoves pairNetwork = some n' := by simp [n']
  have hnear : ∀ j, (n'.game j).mgr.trace = (n'.game j).mgr.trace.take
      ((n'.game j).mgr.trace.length - attached.mgr.trace.length) ++ attached.mgr.trace := by
    decide +kernel
  have hfar : n'.relay.trace = n'.relay.trace.take
      (n'.relay.trace.length - pairAccepted.trace.length) ++ pairAccepted.trace := by
    decide +kernel
  have ha : Sending pairNetwork n' true 1 7 5 :=
    { held := by decide +kernel
      isOpen := by decide +kernel
      near := ⟨_, hnear true, by decide +kernel⟩
      far := ⟨_, hfar, by decide +kernel⟩
      new := by decide +kernel
      connected := ⟨((n'.game true).mgr.mConnections.lookup 1).get (by decide +kernel), by simp,
        by decide +kernel⟩
      inOrder := by decide +kernel
      up := by decide +kernel }
  have hb : Receiving pairNetwork n' false 1 7 6 2 :=
    { held := by decide +kernel
      isOpen := by decide +kernel
      near := ⟨_, hnear false, by decide +kernel⟩
      far := ⟨_, hfar, by decide +kernel⟩
      new := by decide +kernel
      owed := by decide +kernel
      mark := by decide +kernel
      down := by decide +kernel }
  obtain ⟨ds, hds, hgave, hfrom⟩ := network_in_order pairNetwork_reachable hr hb
  have hone : deliveries 6 n'.relay.trace = [(5, [1, 0, 0, 0, 0, 0, 0, 0, 9])] := by decide +kernel
  refine ⟨ds, ?_, hgave, ?_⟩
  · have hlen : (returned (gameMoves false pairMoves) attached).length = 1 := by decide +kernel
    have hmsgs := hgave.length_eq.symm.trans hlen
    have hle := List.length_filterMap_le (messageOf ·.2) ds
    have hle' := hds.length_le
    rw [hone, List.length_singleton] at hle'
    omega
  · have hposted : ((posted (gameMoves true pairMoves) attached).filter (·.target = 2)).map
        (fun m => (m.sender, m.data)) = [(1, [9])] := by decide +kernel
    rw [← hposted]
    exact hfrom true 1 7 5 ha

end IsaacP2P.EndToEnd
