import IsaacP2P.EndToEnd.Network

/-!
# Nothing is lost

A link is idle when nothing is under way on it: what was framed at one end has been
read at the other (`Network.IdleUp`, `Network.IdleDown`). Between two states in which
their links are idle, if these stay up and no frame overtakes another one, the games
have read what was posted to them, all of it, once and in the order of each sender
(`network_delivers`), however the parties took their turns and whoever else
registered or left.
-/

namespace IsaacP2P.EndToEnd

open Client (PeerID SocketHandle InOrder framed received sent arrived maxPacket)
open Hook (CSteamID Process steamIDBytes messageOf onWay returned Gave posted longs)
open Relay (Fd markOf handled consumed forwarded written deliveries payloadFor)
open LengthPrefixed (frame stream)
open Streaming (Decodes)

variable {κ : Type} [DecidableEq κ] {n n' : Network κ} {ms : List (Move κ)} {i j : κ}
  {p q : PeerID} {h g : SocketHandle} {a b : Fd} {idB : CSteamID}

/-! ## Idle links -/

/-- The relay has read all that was framed on the socket `g`. -/
structure Network.IdleUp (n : Network κ) (i : κ) (q : PeerID) (g : SocketHandle) (a : Fd) :
    Prop where
  buffer : ∀ c ∈ (n.game i).mgr.mConnections.lookup q, c.sendBuffer = []
  read : consumed a n.relay.trace = sent g (n.game i).mgr.trace

/-- The game has read all that the relay owes `b`. -/
structure Network.IdleDown (n : Network κ) (j : κ) (p : PeerID) (h : SocketHandle) (b : Fd) :
    Prop where
  buffer : ∀ c ∈ n.relay.gConnections.lookup b, c.sendBuf = []
  received : received h (n.game j).mgr.trace = written b n.relay.trace
  read : onWay p (n.game j) = []

/-- The link of a registered client that is still up at `n'`; no frame has overtaken
another one, and nothing is under way at `n` and at `n'`. -/
structure Posting (n n' : Network κ) (i : κ) (q : PeerID) (g : SocketHandle) (a : Fd) : Prop
    extends Linked n n' i q g a where
  registered : markOf a n.relay.trace ≠ none
  connected : (n'.game i).mgr.up q
  inOrder : InOrder g (n'.game i).mgr.trace
  idle : n.IdleUp i q g a ∧ n'.IdleUp i q g a

/-- The link of the client registered under `id`, on which nothing is under way at `n` and
at `n'`. -/
structure Reading (n n' : Network κ) (j : κ) (p : PeerID) (h : SocketHandle) (b : Fd)
    (id : CSteamID) : Prop extends Linked n n' j p h b where
  mark : markOf b n.relay.trace = some (steamIDBytes id)
  idle : n.IdleDown j p h b ∧ n'.IdleDown j p h b

omit [DecidableEq κ] in
theorem Network.IdleUp.handled_eq (hi : n.IdleUp i q g a) (hn : n.Reachable)
    (hopen : Relay.isOpen a n.relay.trace = true)
    (hheld : (n.game i).mgr.held (.entry q) = some g) (hup : (n.game i).mgr.up q)
    (ho : InOrder g (n.game i).mgr.trace) :
    handled a n.relay.trace = framed g (n.game i).mgr.trace := by
  obtain ⟨c₁, hc₁⟩ : ∃ c, n.relay.gConnections.lookup a = some c :=
    Option.isSome_iff_exists.mp (by rw [← (Relay.reachable_inv hn.relay).opened]; exact hopen)
  have hd := Relay.reachable_intake hn.relay a c₁ hc₁
  obtain ⟨c, hc, hall⟩ := wire_eq (hn.game i) hheld hup ho
  rw [hi.buffer c hc, List.append_nil, ← hi.read] at hall
  rw [hall] at hd
  exact (LengthPrefixed.decodes_all hd fun f hf => Hook.length_framed (hn.game i) hf).1

omit [DecidableEq κ] in
theorem Network.IdleDown.arrived_eq (hi : n.IdleDown j p h b) (hn : n.Reachable)
    (hopen : Relay.isOpen b n.relay.trace = true)
    (hheld : (n.game j).mgr.held (.entry p) = some h) :
    arrived h (n.game j).mgr.trace = (deliveries b n.relay.trace).map (·.2) := by
  have hinv := Relay.reachable_inv hn.relay
  obtain ⟨c, hc⟩ : ∃ c, n.relay.gConnections.lookup b = some c :=
    Option.isSome_iff_exists.mp (by rw [← hinv.opened]; exact hopen)
  have hout := hinv.out hc
  rw [hi.buffer c hc, List.append_nil] at hout
  have hd := decodes_forwarded hn.relay b
  rw [← hout, ← hi.received] at hd
  exact EndToEnd.arrived_eq (hn.game j) hheld hd

/-! ## The receiver -/

theorem Reading.reads (hb : Reading n n' j p h b idB) (hn : n.Reachable)
    (hr : Runs.run Network.step ms n = some n') :
    ∃ ds, deliveries b n'.relay.trace = deliveries b n.relay.trace ++ ds ∧
      Gave (returned (gameMoves j ms) (n.game j)) (ds.filterMap (messageOf ·.2)) := by
  have hn' := hn.run hr
  have hl := Relay.reachable_lawful hn'.relay
  obtain ⟨new, ht, hclose⟩ := hb.far
  rw [ht] at hl
  have hopen' := Relay.stays_open_of_lawful hl hb.isOpen hclose
  obtain ⟨ds, hds⟩ := Relay.deliveries_grow hl hb.isOpen hclose
  rw [← ht] at hopen' hds
  refine ⟨ds, hds.symm, ?_⟩
  obtain ⟨new', ht', hup⟩ := hb.near
  obtain ⟨out, hgave, hh⟩ :=
    Hook.run_hands (p := p) (h := h) (Hook.reachable_sound (hn.game j)) (run_game j hr)
  obtain ⟨hheld, ps, ha, hq⟩ := hh.up hb.held ht' hup
  rw [hb.idle.1.arrived_eq hn hb.isOpen hb.held, hb.idle.2.arrived_eq hn' hopen' hheld, ← hds,
    List.map_append] at ha
  obtain rfl := List.append_cancel_left ha
  rw [Fifo.Passes, hb.idle.1.read, hb.idle.2.read, List.nil_append, List.append_nil,
    List.filterMap_map] at hq
  rwa [← hq] at hgave

/-! ## A sender -/

/-- The packets processed in between are those framed, and the long ones are those posted. -/
theorem Posting.processes (ha : Posting n n' i q g a) (hn : n.Reachable)
    (hr : Runs.run Network.step ms n = some n') {ps : List (List UInt8)}
    (hps : handled a n'.relay.trace = handled a n.relay.trace ++ ps) :
    ps.filter (8 < ·.length) = (posted (gameMoves i ms) (n.game i)).map Hook.Post.bytes := by
  have hn' := hn.run hr
  obtain ⟨new, ht, hclose⟩ := ha.near
  obtain ⟨hup, hposts⟩ := Hook.run_posts (hn.game i) (run_game i hr) ha.held ht hclose ha.connected
  obtain ⟨out, -, hh⟩ :=
    Hook.run_hands (p := q) (h := g) (Hook.reachable_sound (hn.game i)) (run_game i hr)
  obtain ⟨hheld, -⟩ := hh.up ha.held ht hclose
  have hopen' : Relay.isOpen a n'.relay.trace = true := by
    have hl := Relay.reachable_lawful hn'.relay
    obtain ⟨new, ht, hclose⟩ := ha.far
    rw [ht] at hl ⊢
    exact Relay.stays_open_of_lawful hl ha.isOpen hclose
  have hframed := ha.idle.2.handled_eq hn' hopen' hheld ha.connected ha.inOrder
  have ho : InOrder g (n.game i).mgr.trace := ha.inOrder.of_suffix ⟨new, ht.symm⟩
  rw [hps, ha.idle.1.handled_eq hn ha.isOpen ha.held hup ho] at hframed
  rw [longs, ← hframed, List.filter_append] at hposts
  exact List.append_cancel_left hposts

/-- **What the receiver is owed by the sender** is what the sender posted to it. -/
theorem Posting.owed (ha : Posting n n' i q g a) (hb : Reading n n' j p h b idB)
    (hn : n.Reachable) (hr : Runs.run Network.step ms n = some n') {ds : List (Fd × List UInt8)}
    (hds : deliveries b n'.relay.trace = deliveries b n.relay.trace ++ ds) :
    (ds.filter (·.1 = a)).filterMap (messageOf ·.2) =
      ((posted (gameMoves i ms) (n.game i)).filter (·.target = idB)).map
        fun m => (m.sender, m.data) := by
  have hn' := hn.run hr
  have hl := Relay.reachable_lawful hn'.relay
  have ho := Relay.reachable_ordered hn'.relay
  have hposts : ∀ ps, handled a n'.relay.trace = handled a n.relay.trace ++ ps →
      ps.filter (8 < ·.length) = _ := fun ps => ha.processes hn hr
  obtain ⟨mark, hmark⟩ := Option.ne_none_iff_exists'.mp ha.registered
  obtain ⟨new, ht, hclose⟩ := ha.far
  obtain ⟨new', ht', hclose'⟩ := hb.far
  obtain rfl : new' = new := List.append_cancel_right (ht'.symm.trans ht)
  rw [ht] at hl ho hds hposts
  have hreg := (Relay.stays_registered hl ha.isOpen hclose hmark).2
  have hreg' := (Relay.stays_registered hl hb.isOpen hclose' hb.mark).2
  obtain ⟨ps, hps, hall⟩ := Relay.deliveries_window ho ⟨hclose, hclose'⟩
    (fun m => ⟨hreg m, hreg' m⟩) ⟨ha.isOpen, hb.isOpen⟩ ha.registered hb.mark
  rw [hds, List.filter_append] at hall
  rw [List.append_cancel_left hall, List.filterMap_map, payloads_long, hposts ps hps,
    ← messages_posted]
  rfl

/-! ## The network -/

/-- **Every message is delivered once**: between two states in which nothing is under way a
game reads what became owed to it, and what is from a game is all that game posted to it, in
its order. -/
theorem network_delivers (hn : n.Reachable) (hr : Runs.run Network.step ms n = some n')
    (hb : Reading n n' j p h b idB) :
    ∃ ds, deliveries b n'.relay.trace = deliveries b n.relay.trace ++ ds ∧
      Gave (returned (gameMoves j ms) (n.game j)) (ds.filterMap (messageOf ·.2)) ∧
      ∀ i q g a, Posting n n' i q g a →
        (ds.filter (·.1 = a)).filterMap (messageOf ·.2) =
          ((posted (gameMoves i ms) (n.game i)).filter (·.target = idB)).map
            fun m => (m.sender, m.data) := by
  obtain ⟨ds, hds, hgave⟩ := hb.reads hn hr
  exact ⟨ds, hds, hgave, fun i q g a ha => ha.owed hb hn hr hds⟩

/-- Both games are registered, and nothing is under way. -/
def pairRegistered : Network Bool :=
  (Runs.run Network.step (pairMoves.take 8) pairNetwork).get (by decide +kernel)

/-- Then 1 posts to 2, and 2 reads. -/
theorem pairRegistered_delivers : ∃ ds : List (Fd × List UInt8),
    Gave (returned (gameMoves false (pairMoves.drop 8)) (pairRegistered.game false))
      (ds.filterMap (messageOf ·.2)) ∧
    (ds.filter (·.1 = (5 : Fd))).filterMap (messageOf ·.2) = [((1 : CSteamID), [9])] := by
  let n' := (Runs.run Network.step (pairMoves.drop 8) pairRegistered).get (by decide +kernel)
  have hr : Runs.run Network.step (pairMoves.drop 8) pairRegistered = some n' := by simp [n']
  have hn : pairRegistered.Reachable :=
    pairNetwork_reachable.run (show Runs.run Network.step (pairMoves.take 8) _ = _ by
      simp [pairRegistered])
  have hnear : ∀ j, (n'.game j).mgr.trace = (n'.game j).mgr.trace.take
      ((n'.game j).mgr.trace.length - (pairRegistered.game j).mgr.trace.length) ++
        (pairRegistered.game j).mgr.trace := by
    decide +kernel
  have hfar : n'.relay.trace = n'.relay.trace.take
      (n'.relay.trace.length - pairRegistered.relay.trace.length) ++
        pairRegistered.relay.trace := by
    decide +kernel
  have ha : Posting pairRegistered n' true 1 7 5 :=
    { held := by decide +kernel
      isOpen := by decide +kernel
      near := ⟨_, hnear true, by decide +kernel⟩
      far := ⟨_, hfar, by decide +kernel⟩
      registered := by decide +kernel
      connected := ⟨((n'.game true).mgr.mConnections.lookup 1).get (by decide +kernel), by simp,
        by decide +kernel⟩
      inOrder := by decide +kernel
      idle := ⟨⟨by decide +kernel, by decide +kernel⟩, ⟨by decide +kernel, by decide +kernel⟩⟩ }
  have hb : Reading pairRegistered n' false 1 7 6 2 :=
    { held := by decide +kernel
      isOpen := by decide +kernel
      near := ⟨_, hnear false, by decide +kernel⟩
      far := ⟨_, hfar, by decide +kernel⟩
      mark := by decide +kernel
      idle := ⟨⟨by decide +kernel, by decide +kernel, by decide +kernel⟩,
        ⟨by decide +kernel, by decide +kernel, by decide +kernel⟩⟩ }
  obtain ⟨ds, -, hgave, hfrom⟩ := network_delivers hn hr hb
  have hposted : ((posted (gameMoves true (pairMoves.drop 8)) (pairRegistered.game true)).filter
      (·.target = 2)).map (fun m => (m.sender, m.data)) = [(1, [9])] := by decide +kernel
  exact ⟨ds, hgave, (hfrom true 1 7 5 ha).trans hposted⟩

end IsaacP2P.EndToEnd
