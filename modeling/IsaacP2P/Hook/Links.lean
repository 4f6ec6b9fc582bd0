import IsaacP2P.Hook.Buffers
import IsaacP2P.Hook.Moves

/-!
# The links of the hooked process

`Base` holds in every state the process can reach (`reachable_base`): the hook
has one connection at most, accepts none, is called back by the library, and a
connection that is up waits for no reconnect. Most moves bring no link up
(`Quiet`), and those keep it for that reason; a link comes up in one way
(`notify_up`).
-/

namespace IsaacP2P.Hook

open Client

variable {k : Kernel} {w w' : Process}

/-- One of the two registration paths served the last link: `g_localSteamID` was
set when it came up, or the injection thread sent its packet since. -/
def covered : List Ev → Bool
  | [] => false
  | .up _ id :: _ => id != 0
  | .registration _ :: _ => true
  | .down _ :: es => covered es
  | .read _ _ :: es => covered es

/-- `InjectionThread` has not set `g_localSteamID` yet. -/
def Globals.Unidentified (s : Globals) : Prop := s.injection = .waiting ∨ s.injection = .hooked

structure Base (w : Process) : Prop where
  callback : w.mgr.mInitialized = true →
    w.mgr.mConnectionCallback = true ∧ w.gUserCallback = true
  listen : w.mgr.mListenSocket = invalidSocketHandle
  valid : ∀ p c, w.mgr.mConnections.lookup p = some c →
    w.mgr.mInitialized = true ∧ p ≠ invalidPeerID
  one : ∀ p q c d, w.mgr.mConnections.lookup p = some c → w.mgr.mConnections.lookup q = some d →
    p = q
  settled : ∀ p c, w.mgr.mConnections.lookup p = some c → c.connected = true →
    c.socket ≠ invalidSocketHandle ∧ c.nextReconnectAtMs = 0
  unset : w.user.Unidentified → w.user.gLocalSteamID = 0 ∧ covered w.user.log = false

/-! ## Changes that bring no link up -/

structure Quiet (w w' : Process) : Prop where
  initialized : w'.mgr.mInitialized = w.mgr.mInitialized
  callback : w'.mgr.mConnectionCallback = w.mgr.mConnectionCallback
  listen : w'.mgr.mListenSocket = w.mgr.mListenSocket
  gUserCallback : w'.gUserCallback = w.gUserCallback
  injection : w'.user.injection = w.user.injection
  id : w'.user.gLocalSteamID = w.user.gLocalSteamID
  covered : covered w'.user.log = covered w.user.log
  conns : ∀ p c', w'.mgr.mConnections.lookup p = some c' → ∃ c,
    w.mgr.mConnections.lookup p = some c ∧ (c'.connected = true → c.connected = true ∧
      c'.socket = c.socket ∧ (c.nextReconnectAtMs = 0 → c'.nextReconnectAtMs = 0))

theorem Base.quiet (hb : Base w) (h : Quiet w w') : Base w' where
  callback hi := by
    rw [h.initialized] at hi
    rw [h.callback, h.gUserCallback]
    exact hb.callback hi
  listen := h.listen.trans hb.listen
  valid p c' hc' := by
    obtain ⟨c, hc, -⟩ := h.conns p c' hc'
    obtain ⟨hi, hp⟩ := hb.valid p c hc
    exact ⟨h.initialized.trans hi, hp⟩
  one p q c' d' hc' hd' := by
    obtain ⟨c, hc, -⟩ := h.conns p c' hc'
    obtain ⟨d, hd, -⟩ := h.conns q d' hd'
    exact hb.one p q c d hc hd
  settled p c' hc' hconn' := by
    obtain ⟨c, hc, hup⟩ := h.conns p c' hc'
    obtain ⟨hconn, hs, hnext⟩ := hup hconn'
    obtain ⟨hv, hz⟩ := hb.settled p c hc hconn
    exact ⟨by rwa [hs], hnext hz⟩
  unset hun := by
    rw [Globals.Unidentified, h.injection] at hun
    rw [h.id, h.covered]
    exact hb.unset hun

theorem Quiet.refl (w : Process) : Quiet w w :=
  ⟨rfl, rfl, rfl, rfl, rfl, rfl, rfl, fun _ c hc => ⟨c, hc, fun h => ⟨h, rfl, fun h => h⟩⟩⟩

theorem Quiet.trans {w₁ : Process} (h : Quiet w w₁) (h' : Quiet w₁ w') : Quiet w w' where
  initialized := h'.initialized.trans h.initialized
  callback := h'.callback.trans h.callback
  listen := h'.listen.trans h.listen
  gUserCallback := h'.gUserCallback.trans h.gUserCallback
  injection := h'.injection.trans h.injection
  id := h'.id.trans h.id
  covered := h'.covered.trans h.covered
  conns p c' hc' := by
    obtain ⟨c₁, hc₁, hup'⟩ := h'.conns p c' hc'
    obtain ⟨c, hc, hup⟩ := h.conns p c₁ hc₁
    refine ⟨c, hc, fun hconn' => ?_⟩
    obtain ⟨hconn₁, hs', hn'⟩ := hup' hconn'
    obtain ⟨hconn, hs, hn⟩ := hup hconn₁
    exact ⟨hconn, hs'.trans hs, fun hz => hn' (hn hz)⟩

theorem quiet_trace (tr : List Client.Ev) (ids : List PeerID) :
    Quiet w { w with mgr := { w.mgr with trace := tr, mPendingRemove := ids } } :=
  ⟨rfl, rfl, rfl, rfl, rfl, rfl, rfl, fun _ c hc => ⟨c, hc, fun h => ⟨h, rfl, fun h => h⟩⟩⟩

/-- An assignment to the entry of a connection; `m` differs from the manager in
its trace and its removals at most. -/
theorem quiet_setConn {peer : PeerID} {c c' : Connection} {m : Manager}
    (hc : w.mgr.mConnections.lookup peer = some c)
    (hm : m = { w.mgr with trace := m.trace, mPendingRemove := m.mPendingRemove })
    (hc' : c'.connected = true → c.connected = true ∧ c'.socket = c.socket ∧
      (c.nextReconnectAtMs = 0 → c'.nextReconnectAtMs = 0)) :
    Quiet w { w with mgr := m.setConn peer c' } := by
  rw [hm]
  refine ⟨rfl, rfl, rfl, rfl, rfl, rfl, rfl, fun p d hd => ?_⟩
  have hcm : ({ w.mgr with trace := m.trace, mPendingRemove := m.mPendingRemove } :
      Manager).mConnections.lookup peer = some c := hc
  rcases Manager.setConn_lookup_some hcm hd with ⟨rfl, rfl⟩ | ⟨-, hd⟩
  · exact ⟨c, hc, hc'⟩
  · exact ⟨d, hd, fun h => ⟨h, rfl, fun h => h⟩⟩

theorem quiet_drop {peer : PeerID} {c : Connection} {m : Manager} (id : PeerID)
    (hc : w.mgr.mConnections.lookup peer = some c)
    (hm : m = { w.mgr with trace := m.trace, mPendingRemove := m.mPendingRemove }) :
    Quiet w { w with mgr := (m.setConn peer { c with connected := false }).pushPending id } := by
  have h : Quiet w { w with mgr := m.setConn peer { c with connected := false } } :=
    quiet_setConn hc hm fun h => by cases h
  exact h.trans (quiet_trace _ _)

/-- A change of variables that have no part in the links. -/
theorem quiet_onHook {f : Globals → Globals} (hinj : (f w.user).injection = w.user.injection)
    (hid : (f w.user).gLocalSteamID = w.user.gLocalSteamID)
    (hcov : Hook.covered (f w.user).log = Hook.covered w.user.log) : Quiet w (onHook f w) :=
  ⟨rfl, rfl, rfl, rfl, hinj, hid, hcov, fun _ c hc => ⟨c, hc, fun h => ⟨h, rfl, fun h => h⟩⟩⟩

theorem sendPacket_quiet (peer : PeerID) (data : Option (List UInt8)) :
    Quiet w { w with mgr := (sendPacket k peer data w.mgr).2 } := by
  have hs := sendPacket_sends k peer data w.mgr
  generalize (sendPacket k peer data w.mgr).1 = b at hs
  generalize (sendPacket k peer data w.mgr).2 = m at hs ⊢
  cases hs with
  | refused _ => exact .refl w
  | sent hf _ _ _ =>
    exact quiet_setConn hf.2.2.1 rfl fun h => ⟨h, rfl, fun h => h⟩
  | failed hf _ => exact quiet_drop peer hf.2.2.1 rfl

theorem p2pSendPacket_quiet (peer : PeerID) (data : Option (List UInt8)) (w : Process) :
    Quiet w (p2pSendPacket k peer data w).2 := by
  rcases p2pSendPacket_cases (k := k) peer data w with he | he
  · rw [he]
    exact .refl w
  · rw [he]
    exact sendPacket_quiet peer _

theorem processWrite_quiet {peer : PeerID} {c : Connection}
    (hc : w.mgr.mConnections.lookup peer = some c) :
    Quiet w (w.onMgr (processWrite k peer c)) := by
  have hw := processWrite_writes (k := k) hc
  unfold World.onMgr
  generalize processWrite k peer c w.mgr = m at hw ⊢
  cases hw with
  | nothing _ => exact .refl w
  | sent _ _ _ => exact quiet_setConn hc rfl fun h => ⟨h, rfl, fun h => h⟩
  | failed _ _ => exact quiet_drop c.peerID hc rfl

theorem Pops.quiet {out : Option (Packet × PeerID)} {m : Manager} (h : Pops w.mgr out m) :
    Quiet w { w with mgr := m } := by
  cases h with
  | nothing => exact .refl w
  | popped hc _ | lost hc _ => exact quiet_setConn hc rfl fun h => ⟨h, rfl, fun h => h⟩

theorem stagePacket_quiet (w : Process) : Quiet w (stagePacket w) := by
  unfold stagePacket
  split
  · exact .refl w
  · rename_i size peer _
    obtain ⟨m, hm, hpop⟩ := p2pReadPacket_pops peer (size != 0) size w
    have hq : Quiet w (p2pReadPacket peer (size != 0) size w).2.2 := by
      rw [hm]
      exact Pops.quiet hpop
    split
    · rename_i w₂ he
      rw [he] at hq
      split
      · exact hq.trans (quiet_onHook rfl rfl rfl)
      · exact hq
    · rename_i w₂ _ he
      rw [he] at hq
      exact hq

theorem readP2PPacket_quiet (pubDest : Bool) (cubDest : UInt32) (w : Process) :
    Quiet w (hookReadP2PPacket pubDest cubDest w).2 := by
  unfold hookReadP2PPacket
  split
  · dsimp only
    refine quiet_onHook ?_ ?_ ?_ <;> rfl
  · exact .refl w

theorem sendP2PPacket_quiet {target : CSteamID} {src : Option (List UInt8)} {cubData : UInt32}
    (h : hookSendP2PPacket k target src cubData w = some w') : Quiet w w' := by
  rcases sendP2PPacket_cases h with ⟨-, d, -, rfl⟩ | ⟨-, rfl⟩
  · exact p2pSendPacket_quiet _ _ w
  · exact .refl _

theorem setAutoReconnect_quiet (peer : PeerID) (enable : Bool) (baseDelayMs maxDelayMs : UInt32)
    (w : Process) : Quiet w (p2pSetAutoReconnect peer enable baseDelayMs maxDelayMs w) := by
  unfold p2pSetAutoReconnect
  split
  · exact .refl w
  · unfold World.onMgr setAutoReconnect
    cases hc : w.mgr.mConnections.lookup peer with
    | none => exact .refl w
    | some c =>
      exact quiet_setConn hc rfl fun h => ⟨h, rfl, fun _ => rfl⟩

/-! ## A link is lost -/

/-- The callback for a lost link: the hook forgets the peer, if it was this one. -/
theorem notify_down {peer : PeerID} (h : notifyConnectionEvent hookCallback k peer .disconnected w =
    some w') : ∃ tr s, w' = { w with mgr := { w.mgr with trace := tr }, user := s } ∧
      (∀ g, framed g tr = framed g w.mgr.trace) ∧ s.injection = w.user.injection ∧
      s.gLocalSteamID = w.user.gLocalSteamID ∧ covered s.log = covered w.user.log := by
  unfold notifyConnectionEvent at h
  split at h
  · unfold hookCallback internalConnectionCallback at h
    split at h
    · simp only [connectionCallback, reduceCtorEq, beq_iff_eq, if_false] at h
      split at h <;> cases h <;> exact ⟨_, _, rfl, fun _ => rfl, rfl, rfl, rfl⟩
    · cases h
      exact ⟨_, w.user, rfl, fun _ => rfl, rfl, rfl, rfl⟩
  · cases h
    exact ⟨w.mgr.trace, w.user, rfl, fun _ => rfl, rfl, rfl, rfl⟩

theorem framed_closeSocket (g h : SocketHandle) (m : Manager) :
    framed g (m.closeSocket h).trace = framed g m.trace := by
  unfold Manager.closeSocket
  split <;> rfl

theorem closeSocket_eq (h : SocketHandle) (m : Manager) :
    m.closeSocket h = { m with trace := (m.closeSocket h).trace } := by
  unfold Manager.closeSocket
  split <;> rfl

/-- Nothing is up afterwards, and nothing was framed. -/
theorem loses_quiet {peer : PeerID} {c : Connection} (hb : Base w)
    (h : Loses hookCallback k peer c w w') :
    Quiet w w' ∧ (∀ p c', w'.mgr.mConnections.lookup p = some c' → c'.connected = false) ∧
      ∀ g, framed g w'.mgr.trace = framed g w.mgr.trace := by
  obtain ⟨hc, m, hn, ha⟩ := h
  obtain ⟨tr, s, rfl, hf, hinj, hid, hcov⟩ := notify_down hn
  have hframed : ∀ g, framed g tr = framed g w.mgr.trace := fun g => by
    rw [hf, World.onMgr_mgr, Manager.setConn_trace, framed_closeSocket]
  rw [World.onMgr, closeSocket_eq] at ha
  have hcm : (w.mgr.setConn peer c.down).mConnections.lookup peer = some c.down :=
    Manager.setConn_lookup_self hc
  -- the entry that is left is down, and the table had no other
  have hdown : ∀ p c', w'.mgr.mConnections.lookup p = some c' →
      p = peer ∧ c'.connected = false := by
    intro p c' hc'
    rcases afterLoss_lookup hcm ha hc' with ⟨rfl, next, rfl⟩ | ⟨hp, hold⟩
    · exact ⟨rfl, rfl⟩
    · change (w.mgr.setConn peer c.down).mConnections.lookup p = some c' at hold
      rw [Manager.setConn_mConnections, AssocList.lookup_replace_ne hp] at hold
      exact absurd (hb.one p peer c' c hold hc) hp
  have hconns : ∀ p c', w'.mgr.mConnections.lookup p = some c' → ∃ c₀,
      w.mgr.mConnections.lookup p = some c₀ ∧ (c'.connected = true → c₀.connected = true ∧
        c'.socket = c₀.socket ∧ (c₀.nextReconnectAtMs = 0 → c'.nextReconnectAtMs = 0)) := by
    intro p c' hc'
    obtain ⟨rfl, hno⟩ := hdown p c' hc'
    refine ⟨c, hc, fun hup => ?_⟩
    rw [hno] at hup
    cases hup
  refine ⟨?_, fun p c' hc' => (hdown p c' hc').2, ?_⟩
  · rcases afterLoss_cases hcm ha with rfl | rfl
    · exact ⟨rfl, rfl, rfl, rfl, hinj, hid, hcov, hconns⟩
    · exact ⟨rfl, rfl, rfl, rfl, hinj, hid, hcov, hconns⟩
  · rcases afterLoss_cases hcm ha with rfl | rfl
    · exact hframed
    · exact hframed

/-! ## A link comes up -/

/-- The process when the callback has noted a new link. -/
def noteUp (peer : PeerID) (w : Process) : Process :=
  onHook (fun s => { s with gConnectedPeer := peer }.note (.up peer s.gLocalSteamID))
    (w.onMgr (·.log (.notify peer .connected)))

/-- The callback for a new link: the registration packet is handed over if
`g_localSteamID` is set. -/
theorem notify_up (hcb : w.mgr.mConnectionCallback = true) (hg : w.gUserCallback = true)
    (peer : PeerID) :
    notifyConnectionEvent hookCallback k peer .connected w =
      some (if w.user.gLocalSteamID != 0 then
          (p2pSendPacket k peer (some (steamIDBytes w.user.gLocalSteamID)) (noteUp peer w)).2
        else noteUp peer w) := by
  have hcall : notifyConnectionEvent hookCallback k peer .connected w =
      connectionCallback k peer true (w.onMgr (·.log (.notify peer .connected))) := by
    unfold notifyConnectionEvent hookCallback internalConnectionCallback
    rw [if_pos hcb, World.onMgr_gUserCallback, if_pos hg]
    rfl
  rw [hcall]
  unfold connectionCallback
  rw [if_pos rfl]
  dsimp only
  rw [World.onMgr_user]
  split <;> rfl

theorem Base.noteUp (hb : Base w) (peer : PeerID) : Base (noteUp peer w) where
  callback := hb.callback
  listen := hb.listen
  valid := hb.valid
  one := hb.one
  settled := hb.settled
  unset hun := by
    have hzero := (hb.unset hun).1
    refine ⟨hzero, ?_⟩
    change (w.user.gLocalSteamID != 0) = false
    rw [hzero]
    rfl

theorem Base.linkUp {peer : PeerID} (hb : Base w) (hinit : w.mgr.mInitialized = true)
    (hn : notifyConnectionEvent hookCallback k peer .connected w = some w') : Base w' := by
  obtain ⟨hcb, hg⟩ := hb.callback hinit
  rw [notify_up hcb hg] at hn
  split at hn
  · cases hn
    exact (hb.noteUp peer).quiet (p2pSendPacket_quiet _ _ _)
  · cases hn
    exact hb.noteUp peer

/-- The process when a connection that was down has the new socket `h`. -/
def redialed (peer : PeerID) (c : Connection) (h : SocketHandle) (w : Process) : Process :=
  w.onMgr fun m => (m.log (.socket h)).setConn peer (c.reconnected h)

theorem Base.redialed_lookup (hb : Base w) {peer p : PeerID} {c c' : Connection}
    {h : SocketHandle} (hc : w.mgr.mConnections.lookup peer = some c)
    (hc' : (redialed peer c h w).mgr.mConnections.lookup p = some c') :
    p = peer ∧ c' = c.reconnected h := by
  have hcm : (w.mgr.log (.socket h)).mConnections.lookup peer = some c := hc
  rcases Manager.setConn_lookup_some hcm hc' with hself | ⟨hne, hold⟩
  · exact hself
  · exact absurd (hb.one p peer c' c hold hc) hne

theorem Base.redialed (hb : Base w) {peer : PeerID} {c : Connection} {h : SocketHandle}
    (hc : w.mgr.mConnections.lookup peer = some c) (hf : w.mgr.free h = true) :
    Base (redialed peer c h w) where
  callback := hb.callback
  listen := hb.listen
  valid p c' hc' := by
    obtain ⟨rfl, -⟩ := hb.redialed_lookup hc hc'
    exact hb.valid p c hc
  one p q c' d' hc' hd' :=
    (hb.redialed_lookup hc hc').1.trans (hb.redialed_lookup hc hd').1.symm
  settled p c' hc' _ := by
    obtain ⟨-, rfl⟩ := hb.redialed_lookup hc hc'
    exact ⟨Manager.valid_of_free hf, rfl⟩
  unset := hb.unset

/-! ## The steps -/

theorem Connection.not_connected_of_due {c : Connection} {now : UInt64}
    (h : c.reconnectDue now = true) : c.connected = false := by
  simp only [Connection.reconnectDue, Bool.and_eq_true, Bool.not_eq_true'] at h
  exact h.1.1.2

theorem dials_eq {m m' : Manager} (h : Dials m invalidSocketHandle m') :
    m' = { m with trace := m'.trace } := by
  cases h with
  | noSocket => rfl
  | refused _ => rfl
  | made hf => exact absurd rfl (Manager.valid_of_free hf)

theorem retryLater_quiet {peer : PeerID} {c : Connection} {m : Manager} {now : UInt64}
    (hc : w.mgr.mConnections.lookup peer = some c) (hdue : c.reconnectDue now = true)
    (hd : Dials w.mgr invalidSocketHandle m) :
    Quiet w { w with mgr := retryLater peer c now m } := by
  have hdown := Connection.not_connected_of_due hdue
  have hm := dials_eq hd
  refine quiet_setConn hc (by rw [hm]) fun h => ?_
  have := hdown.symm.trans h
  cases this

theorem Base.act (hb : Base w) (h : Act hookCallback k w w') : Base w' := by
  cases h with
  | clock _ | select | pending _ => exact hb.quiet (quiet_trace _ _)
  | retry hc hdue hd => exact hb.quiet (retryLater_quiet hc hdue hd)
  | @reconnected peer c h now _ hc _ hf hn =>
    exact (hb.redialed hc hf).linkUp (hb.valid peer c hc).1 hn
  | accepted hl _ _ => exact absurd hb.listen hl
  | parsed hc _ _ _ => exact hb.quiet (quiet_setConn hc rfl fun h => ⟨h, rfl, fun h => h⟩)
  | stopped hc _ _ => exact hb.quiet (quiet_drop _ hc rfl)
  | wrote hc => exact hb.quiet (processWrite_quiet hc)
  | lost _ hl => exact hb.quiet (loses_quiet hb hl).1

theorem Base.shutDown (hb : Base w) (peer : PeerID) : Base (p2pShutdown (onHook (fun s => { s with
    gConnectedPeer := peer, gStopPumpThread := true, tableHooked := false }) w)) where
  callback := nofun
  listen := rfl
  valid := nofun
  one := nofun
  settled := nofun
  unset := hb.unset

theorem Base.move (hb : Base w) (h : Move k w w') : Base w' := by
  cases h with
  | hooked ok hwait =>
    exact ⟨hb.callback, hb.listen, hb.valid, hb.one, hb.settled, fun _ => hb.unset (.inl hwait)⟩
  | identified id _ =>
    exact ⟨hb.callback, hb.listen, hb.valid, hb.one, hb.settled, by rintro (h | h) <;> cases h⟩
  | registered _ =>
    have hdone : Base (onHook (fun s => { s with injection := .done }.note
        (.registration w.user.gLocalSteamID)) w) :=
      ⟨hb.callback, hb.listen, hb.valid, hb.one, hb.settled, by rintro (h | h) <;> cases h⟩
    exact hdone.quiet (p2pSendPacket_quiet _ _ _)
  | act ha => exact hb.act ha
  | staged _ => exact hb.quiet (stagePacket_quiet w)
  | unscheduled peer => exact hb.quiet (setAutoReconnect_quiet peer false 0 0 w)
  | hungUp hl => exact hb.quiet (loses_quiet hb hl).1
  | shutDown peer => exact hb.shutDown peer

theorem step_base {i : Kernel × Input} (hb : Base w) (h : step i w = some w') : Base w' := by
  obtain ⟨k, input⟩ := i
  cases input with
  | send target src cub => exact hb.quiet (sendP2PPacket_quiet (step_send h))
  | read dest cub =>
    rw [step_read h]
    exact hb.quiet (readP2PPacket_quiet dest cub w)
  | _ => exact Moves.invariant (fun _ _ hb hm => hb.move hm) hb (step_moves (by simp) (by simp) h)

/-! ## The start -/

/-- The process when the library is initialised and the callback is set. -/
def readyProcess : Process where
  mgr := { mInitialized := true, mConnectionCallback := true }
  gUserCallback := true
  user := {}

/-- The process when the first connection is entered in the table. -/
def dialed (h : SocketHandle) (ip : Text) (port : UInt16) : Process :=
  readyProcess.onMgr fun m => (m.log (.socket h)).enter h ip port

def firstConnection (h : SocketHandle) (ip : Text) (port : UInt16) : Connection :=
  { socket := h, peerID := 1, remoteIP := ip, remotePort := port, connected := true }

theorem dialed_lookup {h : SocketHandle} {ip : Text} {port : UInt16} {p : PeerID} {c : Connection}
    (hc : (dialed h ip port).mgr.mConnections.lookup p = some c) :
    p = 1 ∧ c = firstConnection h ip port := by
  have he : (dialed h ip port).mgr.mConnections =
      AList.insert 1 (firstConnection h ip port) ∅ := rfl
  rw [he] at hc
  by_cases hp : p = 1
  · subst hp
    rw [AList.lookup_insert] at hc
    cases hc
    exact ⟨rfl, rfl⟩
  · rw [AList.lookup_insert_ne hp] at hc
    cases hc

theorem readyProcess_base : Base readyProcess :=
  ⟨fun _ => ⟨rfl, rfl⟩, rfl, nofun, nofun, nofun, fun _ => ⟨rfl, rfl⟩⟩

theorem dialed_base {h : SocketHandle} (hv : h ≠ invalidSocketHandle) (ip : Text) (port : UInt16) :
    Base (dialed h ip port) where
  callback _ := ⟨rfl, rfl⟩
  listen := rfl
  valid p c hc := by
    obtain ⟨rfl, -⟩ := dialed_lookup hc
    exact ⟨rfl, by decide⟩
  one p q c d hc hd := (dialed_lookup hc).1.trans (dialed_lookup hd).1.symm
  settled p c hc _ := by
    obtain ⟨-, rfl⟩ := dialed_lookup hc
    exact ⟨hv, rfl⟩
  unset _ := ⟨rfl, rfl⟩

/-- **The ways `DllMain` starts**: without a connection, or with the link up and
not covered. -/
theorem attach_cases {ip : Text} {port : UInt16} (h : attach k ip port = some w) :
    (∃ m, Dials readyProcess.mgr invalidSocketHandle m ∧ w = { readyProcess with mgr := m }) ∨
      ∃ sock, sock ≠ invalidSocketHandle ∧
        w = p2pSetAutoReconnect 1 true 500 (10 * 1000) (noteUp 1 (dialed sock ip port)) := by
  unfold attach at h
  cases hk : k.startup with
  | false => simp [p2pInit, initializeManager, hk] at h
  | true =>
    have hinit : p2pInit k { user := ({} : Globals) } =
        (.ok, { readyProcess with gUserCallback := false }) := by
      simp only [p2pInit, initializeManager, hk, Bool.not_true, Bool.false_eq_true, if_false]
      rfl
    rw [hinit] at h
    obtain ⟨⟨r, peer, w₁⟩, hc, h⟩ := Option.bind_eq_some_iff.mp h
    change p2pConnect connectionCallback k (some ip) port true readyProcess = _ at hc
    obtain ⟨⟨peer', w₂⟩, hconn, hc⟩ := Option.bind_eq_some_iff.mp hc
    rcases connect_cases rfl hconn with ⟨rfl, m, hd, rfl⟩ | ⟨sock, hf, rfl, hn⟩
    · cases hc
      cases h
      exact .inl ⟨m, hd, rfl⟩
    · change notifyConnectionEvent hookCallback k 1 .connected (dialed sock ip port) = _ at hn
      have hzero : ((dialed sock ip port).user.gLocalSteamID != 0) = false := rfl
      rw [notify_up rfl rfl 1, hzero, if_neg (by decide)] at hn
      cases hn
      cases hc
      cases h
      exact .inr ⟨sock, Manager.valid_of_free hf, rfl⟩

theorem attach_base {ip : Text} {port : UInt16} (h : attach k ip port = some w) : Base w := by
  rcases attach_cases h with ⟨m, hd, rfl⟩ | ⟨sock, hv, rfl⟩
  · rw [dials_eq hd]
    exact readyProcess_base.quiet (quiet_trace _ _)
  · exact ((dialed_base hv ip port).noteUp 1).quiet (setAutoReconnect_quiet 1 true 500 (10 * 1000) _)

/-- Reached from the start by some run. -/
def Reachable (w : Process) : Prop :=
  ∃ k ip port w₀, attach k ip port = some w₀ ∧ Runs.Reachable step w₀ w

theorem reachable_base (h : Reachable w) : Base w := by
  obtain ⟨k, ip, port, w₀, hstart, hr⟩ := h
  exact hr.invariant (attach_base hstart) fun i w w' hb hs => step_base hb hs

end IsaacP2P.Hook
