import IsaacP2P.Client.Steps

/-!
# Entries with and without a socket

An entry of `m_connections` is known by its key, one with a socket waits for no
reconnect, and one without has nothing in its buffers (`Settled`). This holds in
every state of a run (`call_settled`), because a connection loses its socket only
where its buffers are cleared, and is scheduled for a reconnect only after that.
-/

namespace IsaacP2P.Client

variable {υ : Type} {cb : Callback υ} {k : Kernel} {w w' : World υ} {m m' : Manager} {peer : PeerID}
  {g : Guard}

/-- The entry `c` of `peer`. -/
structure Settled (peer : PeerID) (c : Connection) : Prop where
  peerID : c.peerID = peer
  up : c.socket ≠ invalidSocketHandle → c.nextReconnectAtMs = 0
  down : c.socket = invalidSocketHandle → c.Down

def Manager.Settled (m : Manager) : Prop :=
  ∀ p c, m.mConnections.lookup p = some c → Client.Settled p c

/-- Something is in the buffers of connections with a socket only. -/
theorem Settled.live {c : Connection} (h : Settled peer c)
    (hlive : c.connected = true ∨ c.sendBuffer ≠ [] ∨ c.receiveQueue ≠ []) :
    c.socket ≠ invalidSocketHandle := by
  intro hs
  obtain ⟨-, hconn, -, hq, hb⟩ := h.down hs
  simp [hconn, hq, hb] at hlive

theorem Settled.due {c : Connection} {now : UInt64} (h : Settled peer c)
    (hdue : c.reconnectDue now = true) : c.socket = invalidSocketHandle ∧ c.Down := by
  have hnext : c.nextReconnectAtMs ≠ 0 := by
    rintro hz
    simp [Connection.reconnectDue, hz] at hdue
  have hs : c.socket = invalidSocketHandle := by
    by_contra hs
    exact hnext (h.up hs)
  exact ⟨hs, h.down hs⟩

theorem Settled.alters {pending : List PeerID} {c c' : Connection} (h : Settled peer c)
    (ha : Alters peer pending c c') : Settled peer c' := by
  cases ha with
  | same => exact h
  | filled _ _ _ hlive => exact ⟨h.peerID, h.up, fun hs => absurd hs (h.live hlive)⟩
  | failed hlive _ _ =>
    refine ⟨h.peerID, h.up, fun hs => absurd hs (h.live ?_)⟩
    exact hlive.imp_right .inl
  | options _ _ _ =>
    refine ⟨h.peerID, fun _ => rfl, fun hs => ?_⟩
    obtain ⟨h1, h2, h3, h4, h5⟩ := h.down hs
    exact ⟨h1, h2, h3, h4, h5⟩

theorem Settled.of_down {c : Connection} (hp : c.peerID = peer) (h : c.Down) : Settled peer c :=
  ⟨hp, fun hs => absurd h.1 hs, fun _ => h⟩

theorem Manager.Settled.setConn {c c' : Connection} (h : m.Settled)
    (hc : m.mConnections.lookup peer = some c) (hc' : Client.Settled peer c')
    (hm : m'.mConnections = m.mConnections.replace peer c') : m'.Settled := by
  intro p d hd
  rw [hm, AssocList.lookup_replace hc] at hd
  split at hd
  · subst_vars
    cases hd
    exact hc'
  · exact h p d hd

theorem Minor.settled (hm : Minor m m') (h : m.Settled) : m'.Settled := by
  intro p c' hc'
  rcases hm.altered p with ⟨-, hno⟩ | ⟨c, d, hc, hd, ha⟩
  · rw [hc'] at hno
    cases hno
  · rw [hc'] at hd
    cases hd
    exact (h p c hc).alters ha

theorem Minors.settled (hm : Minors m m') (h : m.Settled) : m'.Settled := by
  induction hm with
  | refl => exact h
  | tail _ hs ih => exact hs.settled ih

/-! ## The steps that are not minor -/

theorem Settled.scheduled {c : Connection} (h : Settled peer c)
    (hs : c.socket = invalidSocketHandle) (attempt : UInt32) (next : UInt64) :
    Settled peer (c.scheduled attempt next) :=
  .of_down h.peerID (h.down hs)

theorem Settled.reconnected {c : Connection} {s : SocketHandle} (h : Settled peer c)
    (hs : s ≠ invalidSocketHandle) : Settled peer (c.reconnected s) :=
  ⟨h.peerID, fun _ => rfl, fun hno => absurd hno hs⟩

theorem Settled.made {s : SocketHandle} {ip : Text} {port : UInt16}
    (hs : s ≠ invalidSocketHandle) : Settled peer (.made s peer ip port) :=
  ⟨rfl, fun _ => rfl, fun hno => absurd hno hs⟩

theorem Manager.enter_mConnections (s : SocketHandle) (ip : Text) (port : UInt16) (m : Manager) :
    (m.enter s ip port).mConnections = if m.mNextPeerID ∈ m.mConnections then m.mConnections
      else m.mConnections.insert m.mNextPeerID (.made s m.mNextPeerID ip port) := by
  unfold Manager.enter Manager.emplace allocatePeerID
  split <;> rfl

theorem Manager.enter_lookup (s : SocketHandle) (ip : Text) (port : UInt16) (m : Manager)
    (p : PeerID) :
    (m.enter s ip port).mConnections.lookup p = m.mConnections.lookup p ∨
      p = m.mNextPeerID ∧ m.mConnections.lookup p = none ∧
        (m.enter s ip port).mConnections.lookup p = some (.made s p ip port) := by
  rw [Manager.enter_mConnections]
  split
  · exact .inl rfl
  · rename_i hnew
    by_cases hp : p = m.mNextPeerID
    · subst hp
      exact .inr ⟨rfl, AList.lookup_eq_none.mpr hnew, AList.lookup_insert _⟩
    · exact .inl (AList.lookup_insert_ne hp)

theorem Manager.enter_some {s : SocketHandle} {ip : Text} {port : UInt16} {p : PeerID}
    {c : Connection} (hc : (m.enter s ip port).mConnections.lookup p = some c) :
    m.mConnections.lookup p = some c ∨ c = .made s p ip port := by
  rcases Manager.enter_lookup s ip port m p with he | ⟨-, -, he⟩
  · exact .inl (he ▸ hc)
  · exact .inr (Option.some.inj (hc.symm.trans he))

theorem enter_settled {s : SocketHandle} {ip : Text} {port : UInt16} (h : m.Settled)
    (hs : s ≠ invalidSocketHandle) : (m.enter s ip port).Settled := by
  intro p c hc
  rcases Manager.enter_some hc with hold | rfl
  · exact h p c hold
  · exact .made hs

theorem noted_settled {event : ConnectionEvent} (h : m.Settled) : (m.noted peer event).Settled := by
  intro p c hc
  rw [Manager.noted_mConnections] at hc
  exact h p c hc

theorem erase_settled (h : m.Settled) : (m.erase peer).Settled := by
  intro p c hc
  by_cases hp : p = peer
  · subst hp
    rw [Manager.erase_mConnections, AList.lookup_erase] at hc
    cases hc
  · rw [Manager.erase_mConnections, AList.lookup_erase_ne hp] at hc
    exact h p c hc

theorem Step.settled (hs : Step g m m') (h : m.Settled) : m'.Settled := by
  cases hs with
  | minor hm => exact hm.settled h
  | @entered s e ip port _ hf _ =>
    have hlog : (m.log e).Settled := h
    exact noted_settled (enter_settled hlog (Manager.valid_of_free hf))
  | @reconnected peer c s now hc _ hf _ =>
    have hlog : (m.log (.socket s)).Settled := h
    exact noted_settled
      (hlog.setConn hc ((h peer c hc).reconnected (Manager.valid_of_free hf)) rfl)
  | @tornDown peer c hc _ =>
    have hp : c.down.peerID = peer := (h peer c hc).peerID
    exact h.setConn hc (.of_down hp c.down_Down) (Manager.tearDown_mConnections c _)
  | @scheduled peer c attempt next hc hdown =>
    have hs : c.socket = invalidSocketHandle := by
      rcases hdown with hD | ⟨now, hdue⟩
      · exact hD.1
      · exact ((h peer c hc).due hdue).1
    exact h.setConn hc ((h peer c hc).scheduled hs attempt next) rfl
  | erased _ _ => exact erase_settled h
  | pending _ => exact h

theorem Steps.settled (hs : Steps g m m') (h : m.Settled) : m'.Settled :=
  hs.invariant (fun _ _ hm hs => hs.settled hm) h

theorem shutdown_mConnections (m : Manager) :
    (shutdown m).mConnections = if m.mInitialized then ∅ else m.mConnections := by
  unfold shutdown
  cases m.mInitialized <;> rfl

theorem shutdown_of_uninitialized (hi : m.mInitialized = false) : shutdown m = m := by
  unfold shutdown
  rw [hi]
  rfl

theorem shutdown_settled (h : m.Settled) : (shutdown m).Settled := by
  intro p c hc
  rw [shutdown_mConnections] at hc
  split at hc
  · simp at hc
  · exact h p c hc

theorem call_settled (hcb : Leaf cb) (i : Kernel × Call) (w w' : World υ) (h : w.mgr.Settled)
    (hc : call cb i w = some w') : w'.mgr.Settled := by
  rcases call_free_steps hcb hc with hs | ⟨-, rfl⟩
  · exact hs.settled h
  · exact shutdown_settled h

theorem fresh_settled (callback : Bool) (user : υ) : (fresh callback user).mgr.Settled := by
  intro p c hc
  simp [fresh] at hc

end IsaacP2P.Client
