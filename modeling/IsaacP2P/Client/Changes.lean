import IsaacP2P.Client.Phases
import IsaacP2P.Client.Receiving

/-!
# What a call changes

`Minor` lists the changes of the manager that make and break no link: events,
changes within one connection, attempts to connect that fail, the listening
socket. Everything else the library does to a connection is one of four things:
it enters one (`Manager.enter`), it reconnects one, it schedules another attempt
(`retryLater`), or it tears one down (`Loses`).

`call` runs one function of the library and `call_does` says which of these a
call is made of. The connection callback may call back to send, to read and to
set options (`Leaf`), which are minor changes too.
-/

namespace IsaacP2P.Client

variable {υ : Type} {cb : Callback υ} {k : Kernel} {w w' : World υ} {m m' : Manager} {peer : PeerID}

/-- An event of a socket's traffic: it obtains, closes and reports nothing. -/
def Ev.traffic : Ev → Bool
  | .socket _ | .accept _ | .close _ | .notify _ _ => false
  | _ => true

/-- An event that accepts no connection and reports none. -/
def Ev.minor : Ev → Bool
  | .accept _ | .notify _ _ => false
  | _ => true

/-- An event of no socket. -/
def Ev.idle : Ev → Bool
  | .clock _ | .select => true
  | _ => false

/-- An event after which the connection on `h` is of no use. -/
def Ev.breaks (h : SocketHandle) : Ev → Bool
  | .send g _ _ .fail => g == h
  | .except g => g == h
  | .recvEnd g => g == h
  | .recvFail g => g == h
  | _ => false

def Manager.logs (new : List Ev) (m : Manager) : Manager := { m with trace := new ++ m.trace }

/-- The call of the connection callback, if it is set. -/
def Manager.noted (peer : PeerID) (event : ConnectionEvent) (m : Manager) : Manager :=
  if m.mConnectionCallback then m.log (.notify peer event) else m

@[simp] theorem Manager.noted_mInitialized {peer : PeerID} (event : ConnectionEvent) (m : Manager) :
    (m.noted peer event).mInitialized = m.mInitialized := by
  unfold Manager.noted
  split <;> rfl
@[simp] theorem Manager.noted_mConnections {peer : PeerID} (event : ConnectionEvent) (m : Manager) :
    (m.noted peer event).mConnections = m.mConnections := by
  unfold Manager.noted
  split <;> rfl
@[simp] theorem Manager.noted_mPendingRemove {peer : PeerID} (event : ConnectionEvent) (m : Manager) :
    (m.noted peer event).mPendingRemove = m.mPendingRemove := by
  unfold Manager.noted
  split <;> rfl
@[simp] theorem Manager.noted_mConnectionCallback {peer : PeerID} (event : ConnectionEvent)
    (m : Manager) :
    (m.noted peer event).mConnectionCallback = m.mConnectionCallback := by
  unfold Manager.noted
  split <;> rfl

/-- Other contents of the buffers of a connection. -/
def Connection.fill (queue : PacketQueue) (recv : ReceiveBuffer) (send : List UInt8)
    (c : Connection) : Connection :=
  { c with receiveQueue := queue, recvBuffer := recv, sendBuffer := send }

/-- The options of `setAutoReconnect`. -/
def Connection.setOptions (enable : Bool) (baseDelayMs maxDelayMs : UInt32) (c : Connection) :
    Connection :=
  { c with
    autoReconnect := enable
    reconnectBaseDelayMs := baseDelayMs
    reconnectMaxDelayMs := maxDelayMs
    reconnectAttempt := 0
    nextReconnectAtMs := 0 }

/-- The entry of a connection just made. -/
def Connection.made (h : SocketHandle) (peer : PeerID) (ip : Text) (port : UInt16) : Connection :=
  { socket := h, peerID := peer, remoteIP := ip, remotePort := port, connected := true }

/-- Another schedule of the attempts to reconnect. -/
def Connection.scheduled (attempt : UInt32) (next : UInt64) (c : Connection) : Connection :=
  { c with reconnectAttempt := attempt, nextReconnectAtMs := next }

/-! ## Minor changes -/

inductive Minor (m : Manager) : Manager → Prop where
  | logged {e : Ev} : e.idle = true → Minor m (m.log e)
  /-- An attempt to connect fails. -/
  | dialed {m' : Manager} : Dials m invalidSocketHandle m' → Minor m m'
  /-- A frame is made, and what the kernel did not take of it waits. -/
  | framed {peer : PeerID} {c : Connection} {d w rest : List UInt8} {len : Int} {r : Sent} :
      m.mConnections.lookup peer = some c → c.connected = true → r.bytes = some w →
      createSendFrame d = w ++ rest →
      Minor m (((m.log (.packet c.socket d)).log
        (.send c.socket (createSendFrame d).length len r)).setConn peer
          { c with sendBuffer := c.sendBuffer ++ rest })
  /-- The kernel takes the front of the send buffer. -/
  | wrote {peer : PeerID} {c : Connection} {w rest : List UInt8} {len : Int} {r : Sent} :
      m.mConnections.lookup peer = some c → c.sendBuffer ≠ [] → r.bytes = some w →
      c.sendBuffer = w ++ rest →
      Minor m ((m.log (.send c.socket c.sendBuffer.length len r)).setConn peer
        { c with sendBuffer := rest })
  /-- `recv()` returns `b`, and the packets `ps` are complete. -/
  | parsed {peer : PeerID} {c : Connection} {b : List UInt8} {ps : List Packet}
      {rest : ReceiveBuffer} :
      m.mConnections.lookup peer = some c → c.connected = true → b ≠ [] →
      Drained (c.recvBuffer ++ b) ps rest →
      Minor m (((m.log (.recv c.socket b)).log (.pushed c.socket ps)).setConn peer
        { c with receiveQueue := c.receiveQueue ++ ps, recvBuffer := rest })
  /-- The application takes a packet. -/
  | popped {peer : PeerID} {c : Connection} {packet : Packet} {rest : PacketQueue} :
      m.mConnections.lookup peer = some c → c.receiveQueue = packet :: rest →
      Minor m (m.setConn peer { c with receiveQueue := rest })
  /-- A connection fails, maybe at the first bytes of a frame. -/
  | failed {peer : PeerID} {c : Connection} {e : Ev} {old : List Ev} {id : PeerID} :
      m.mConnections.lookup peer = some c → c.connected = true ∨ c.sendBuffer ≠ [] →
      e.breaks c.socket = true → (old = [] ∨ ∃ d, old = [.packet c.socket d]) →
      id = peer ∨ id = c.peerID →
      Minor m (((m.logs (e :: old)).setConn peer { c with connected := false }).pushPending id)
  | options {peer : PeerID} {c : Connection} (enable : Bool) (baseDelayMs maxDelayMs : UInt32) :
      m.mConnections.lookup peer = some c →
      Minor m (m.setConn peer (c.setOptions enable baseDelayMs maxDelayMs))
  | initialized : Minor m { m with mInitialized := true }
  | unlistened : Minor m (stopListen m)
  | listening {h : SocketHandle} (port : UInt16) : m.mListenSocket = invalidSocketHandle →
      m.free h = true →
      Minor m { m.log (.socket h) with mListenSocket := h, mListenPort := port }

abbrev Minors : Manager → Manager → Prop := Relation.ReflTransGen Minor

theorem Ev.traffic_of_breaks {e : Ev} {h : SocketHandle} (he : e.breaks h = true) :
    e.traffic = true := by
  cases e <;> first | rfl | cases he

theorem Ev.traffic_of_idle {e : Ev} (he : e.idle = true) : e.traffic = true := by
  cases e <;> first | rfl | cases he

theorem Ev.traffic_of_framing {h : SocketHandle} {old : List Ev}
    (hold : old = [] ∨ ∃ d, old = [.packet h d]) : ∀ e ∈ old, e.traffic = true := by
  rcases hold with rfl | ⟨d, rfl⟩
  · simp
  · simp [Ev.traffic]

theorem sendPacket_minor (k : Kernel) (peer : PeerID) (data : Option (List UInt8)) (m : Manager) :
    Relation.ReflGen Minor m (sendPacket k peer data m).2 := by
  have hs := sendPacket_sends k peer data m
  generalize (sendPacket k peer data m).1 = b at hs
  generalize (sendPacket k peer data m).2 = m' at hs ⊢
  cases hs with
  | refused _ => exact .refl
  | sent hf hr he _ => exact .single (.framed hf.2.2.1 hf.2.2.2 hr he)
  | @failed d c len hf _ =>
    have hbreaks :
        (Ev.send c.socket (createSendFrame d).length len .fail).breaks c.socket = true := by
      simp [Ev.breaks]
    exact .single (.failed hf.2.2.1 (.inl hf.2.2.2) hbreaks (.inr ⟨d, rfl⟩) (.inl rfl))

theorem processWrite_minor {c : Connection} (hc : m.mConnections.lookup peer = some c) :
    Relation.ReflGen Minor m (processWrite k peer c m) := by
  have hw := processWrite_writes (k := k) hc
  generalize processWrite k peer c m = m' at hw ⊢
  cases hw with
  | nothing _ => exact .refl
  | sent hbuf hr he => exact .single (.wrote hc hbuf hr he)
  | @failed len hbuf _ =>
    have hbreaks : (Ev.send c.socket c.sendBuffer.length len .fail).breaks c.socket = true := by
      simp [Ev.breaks]
    exact .single (.failed hc (.inr hbuf) hbreaks (.inl rfl) (.inr rfl))

theorem Pops.minor {out : Option (Packet × PeerID)} (h : Pops m out m') :
    Relation.ReflGen Minor m m' := by
  cases h with
  | nothing => exact .refl
  | popped hc hq | lost hc hq => exact .single (.popped hc hq)

theorem setAutoReconnect_minor (peer : PeerID) (enable : Bool) (baseDelayMs maxDelayMs : UInt32)
    (m : Manager) :
    Relation.ReflGen Minor m (setAutoReconnect peer enable baseDelayMs maxDelayMs m) := by
  unfold setAutoReconnect
  cases hc : m.mConnections.lookup peer with
  | none => exact .refl
  | some c => exact .single (.options enable baseDelayMs maxDelayMs hc)

theorem Serve.minor (h : Serve k m m') : Relation.ReflGen Minor m m' := by
  cases h with
  | parsed hc hconn hb hd => exact .single (.parsed hc hconn hb hd)
  | @stopped peer c e id hc hconn he hid =>
    have hb : e.breaks c.socket = true := by
      rcases he with rfl | rfl | rfl <;> simp [Ev.breaks]
    exact .single (.failed hc (.inl hconn) hb (.inl rfl) hid)
  | wrote hc => exact processWrite_minor hc

theorem Serve.minors (h : Serve k m m') : Minors m m' := h.minor.to_reflTransGen

theorem Manager.openSocket_cases (k : Kernel) (m : Manager) :
    m.openSocket k = (invalidSocketHandle, m.log (.socket invalidSocketHandle)) ∨
      ∃ h, m.free h = true ∧ m.openSocket k = (h, m.log (.socket h)) := by
  unfold Manager.openSocket
  by_cases hf : m.free (k.socket m.trace.length) = true
  · exact .inr ⟨_, hf, if_pos hf⟩
  · exact .inl (if_neg hf)

theorem stopListen_mListenSocket (m : Manager) :
    (stopListen m).mListenSocket = invalidSocketHandle := by
  unfold stopListen
  split
  · rfl
  · rename_i h
    simpa using h

theorem Manager.unlistened_eq (hm : m.mListenSocket = invalidSocketHandle) :
    { m with mListenSocket := invalidSocketHandle } = m := by
  rw [← hm]

theorem listen_minors (k : Kernel) (port : UInt16) (m : Manager) :
    Minors m (listen k port m).2 := by
  unfold listen
  split
  · exact .refl
  · refine .head .unlistened ?_
    have hnone := stopListen_mListenSocket m
    generalize stopListen m = m at hnone ⊢
    rcases Manager.openSocket_cases k m with ho | ⟨h, hf, ho⟩
    · have hm : (m.log (.socket invalidSocketHandle)).mListenSocket = invalidSocketHandle := hnone
      simp only [ho, beq_self_eq_true, if_true, Manager.unlistened_eq hm]
      exact .single (.dialed .noSocket)
    · have hv : (h == invalidSocketHandle) = false := by simpa using Manager.valid_of_free hf
      simp only [ho, hv, Bool.false_eq_true, if_false]
      split
      · have hclosed : { (Manager.closeSocket h { m.log (.socket h) with mListenSocket := h }) with
            mListenSocket := invalidSocketHandle } = (m.log (.socket h)).log (.close h) := by
          rw [Manager.closeSocket, if_pos (by simpa using Manager.valid_of_free hf)]
          exact Manager.unlistened_eq (m := (m.log (.socket h)).log (.close h)) hnone
        rw [hclosed]
        exact .single (.dialed (.refused hf))
      · exact .single (.listening port hnone hf)

/-! ## What a minor change does to an entry -/

/-- The entry `c` of `peer` before a minor change, and after it. -/
inductive Alters (peer : PeerID) (pending : List PeerID) (c : Connection) : Connection → Prop where
  | same : Alters peer pending c c
  /-- Something is put into the buffers or taken out. -/
  | filled (queue : PacketQueue) (recv : ReceiveBuffer) (send : List UInt8) :
      c.connected = true ∨ c.sendBuffer ≠ [] ∨ c.receiveQueue ≠ [] →
      Alters peer pending c (c.fill queue recv send)
  | failed {id : PeerID} : c.connected = true ∨ c.sendBuffer ≠ [] → id ∈ pending →
      id = peer ∨ id = c.peerID → Alters peer pending c { c with connected := false }
  | options (enable : Bool) (baseDelayMs maxDelayMs : UInt32) :
      Alters peer pending c (c.setOptions enable baseDelayMs maxDelayMs)

/-- The entries of two managers, one altered into the other. -/
def Altered (m m' : Manager) : Prop :=
  ∀ p, (m.mConnections.lookup p = none ∧ m'.mConnections.lookup p = none) ∨
    ∃ c c', m.mConnections.lookup p = some c ∧ m'.mConnections.lookup p = some c' ∧
      Alters p m'.mPendingRemove c c'

theorem Altered.of_eq (h : m'.mConnections = m.mConnections) : Altered m m' := by
  intro p
  rw [h]
  cases hc : m.mConnections.lookup p with
  | none => exact .inl ⟨rfl, rfl⟩
  | some c => exact .inr ⟨c, c, rfl, rfl, .same⟩

theorem Altered.of_setConn {c c' : Connection} (hc : m.mConnections.lookup peer = some c)
    (h : m'.mConnections = m.mConnections.replace peer c')
    (ha : Alters peer m'.mPendingRemove c c') : Altered m m' := by
  intro p
  rw [h, AssocList.lookup_replace hc]
  by_cases hp : p = peer
  · subst hp
    exact .inr ⟨c, c', hc, if_pos rfl, ha⟩
  · rw [if_neg hp]
    cases hd : m.mConnections.lookup p with
    | none => exact .inl ⟨rfl, rfl⟩
    | some d => exact .inr ⟨d, d, rfl, rfl, .same⟩

theorem Dials.mConnections_eq {h : SocketHandle} (hd : Dials m h m') :
    m'.mConnections = m.mConnections := by
  cases hd <;> rfl

theorem stopListen_eq (m : Manager) : stopListen m = { m with
    trace := (stopListen m).trace
    mListenSocket := (stopListen m).mListenSocket
    mListenPort := (stopListen m).mListenPort } := by
  unfold stopListen
  split
  · unfold Manager.closeSocket
    split <;> rfl
  · rfl

theorem Minor.altered (h : Minor m m') : Altered m m' := by
  cases h with
  | logged _ => exact .of_eq rfl
  | dialed hd => exact .of_eq hd.mConnections_eq
  | @framed peer c d w rest _ _ hc hconn _ _ =>
    exact .of_setConn hc rfl (.filled c.receiveQueue c.recvBuffer (c.sendBuffer ++ rest)
      (.inl hconn))
  | @wrote peer c w rest _ _ hc hbuf _ _ =>
    exact .of_setConn hc rfl (.filled c.receiveQueue c.recvBuffer rest (.inr (.inl hbuf)))
  | @parsed peer c b ps rest hc hconn _ _ =>
    exact .of_setConn hc rfl (.filled (c.receiveQueue ++ ps) rest c.sendBuffer (.inl hconn))
  | @popped peer c packet rest hc hq =>
    exact .of_setConn hc rfl (.filled rest c.recvBuffer c.sendBuffer (.inr (.inr (by simp [hq]))))
  | failed hc hlive _ _ hid =>
    exact .of_setConn hc rfl (.failed hlive (List.mem_append_right _ (List.mem_singleton.mpr rfl))
      hid)
  | options enable b x hc => exact .of_setConn hc rfl (.options enable b x)
  | initialized => exact .of_eq rfl
  | unlistened =>
    refine .of_eq ?_
    rw [stopListen_eq]
  | listening _ _ _ => exact .of_eq rfl

theorem Ev.minor_of_traffic {e : Ev} (he : e.traffic = true) : e.minor = true := by
  cases e <;> first | rfl | cases he

theorem Minor.events (h : Minor m m') :
    ∃ new, m'.trace = new ++ m.trace ∧ ∀ e ∈ new, e.minor = true := by
  cases h with
  | @logged e he => exact ⟨[e], rfl, by simpa using Ev.minor_of_traffic (Ev.traffic_of_idle he)⟩
  | dialed hd =>
    cases hd with
    | noSocket => exact ⟨[_], rfl, by simp [Ev.minor]⟩
    | refused _ => exact ⟨[_, _], rfl, by simp [Ev.minor]⟩
    | made _ => exact ⟨[_], rfl, by simp [Ev.minor]⟩
  | framed _ _ _ _ => exact ⟨[_, _], rfl, by simp [Ev.minor]⟩
  | wrote _ _ _ _ => exact ⟨[_], rfl, by simp [Ev.minor]⟩
  | parsed _ _ _ _ => exact ⟨[_, _], rfl, by simp [Ev.minor]⟩
  | @failed peer c e old id _ _ he hold _ =>
    refine ⟨e :: old, rfl, fun e' he' => ?_⟩
    rcases List.mem_cons.mp he' with rfl | he'
    · exact Ev.minor_of_traffic (Ev.traffic_of_breaks he)
    · exact Ev.minor_of_traffic (Ev.traffic_of_framing hold e' he')
  | unlistened =>
    unfold stopListen Manager.closeSocket
    split
    · exact ⟨[.close m.mListenSocket], rfl, by simp [Ev.minor]⟩
    · exact ⟨[], rfl, by simp⟩
  | listening _ _ _ => exact ⟨[_], rfl, by simp [Ev.minor]⟩
  | _ => exact ⟨[], rfl, by simp⟩

theorem Minors.entry {P : Connection → Prop}
    (halter : ∀ pending c c', P c → Alters peer pending c c' → P c') (h : Minors m m')
    {c : Connection} (hc : m.mConnections.lookup peer = some c) (hP : P c) :
    ∃ c', m'.mConnections.lookup peer = some c' ∧ P c' := by
  induction h with
  | refl => exact ⟨c, hc, hP⟩
  | tail _ hm ih =>
    obtain ⟨d, hd, hPd⟩ := ih
    rcases hm.altered peer with ⟨hno, -⟩ | ⟨e, e', he, he', ha⟩
    · rw [hd] at hno
      cases hno
    · rw [hd] at he
      cases he
      exact ⟨e', he', halter _ _ _ hPd ha⟩

theorem Minors.lookup_eq_none (h : Minors m m') :
    m'.mConnections.lookup peer = none ↔ m.mConnections.lookup peer = none := by
  induction h with
  | refl => exact Iff.rfl
  | tail _ hm ih =>
    rw [← ih]
    rcases hm.altered peer with ⟨hno, hno'⟩ | ⟨e, e', he, he', -⟩
    · simp [hno, hno']
    · simp [he, he']

/-! ## A connection is torn down -/

/-- There is no socket, and nothing in the buffers. -/
def Connection.Down (c : Connection) : Prop :=
  c.socket = invalidSocketHandle ∧ c.connected = false ∧ c.recvBuffer = [] ∧
    c.receiveQueue = [] ∧ c.sendBuffer = []

theorem Connection.down_Down (c : Connection) : c.down.Down := ⟨rfl, rfl, rfl, rfl, rfl⟩

theorem Connection.Down.alters {pending : List PeerID} {c c' : Connection} (h : c.Down)
    (ha : Alters peer pending c c') : c'.Down := by
  obtain ⟨hs, hconn, hr, hq, hb⟩ := h
  cases ha with
  | same => exact ⟨hs, hconn, hr, hq, hb⟩
  | filled _ _ _ hlive => simp [hconn, hb, hq] at hlive
  | failed hlive _ _ => simp [hconn, hb] at hlive
  | options _ _ _ => exact ⟨hs, hconn, hr, hq, hb⟩

/-! ## Callbacks -/

/-- A call that does not run the connection callback. -/
inductive Poke (k : Kernel) (m : Manager) : Manager → Prop where
  | sendPacket (peer : PeerID) (data : Option (List UInt8)) :
      Poke k m (sendPacket k peer data m).2
  | readPacket (peer : PeerID) (buffer : Bool) (bufferSize : UInt32) :
      Poke k m (readPacket peer buffer bufferSize m).2
  | setAutoReconnect (peer : PeerID) (enable : Bool) (baseDelayMs maxDelayMs : UInt32) :
      Poke k m (setAutoReconnect peer enable baseDelayMs maxDelayMs m)

abbrev Pokes (k : Kernel) : Manager → Manager → Prop := Relation.ReflTransGen (Poke k)

/-- The callback calls back to send, to read and to set options at most. -/
def Leaf (cb : Callback υ) : Prop :=
  ∀ k peer event w w', cb k peer event w = some w' → Pokes k w.mgr w'.mgr

/-- The callback does not call back. -/
def Mute (cb : Callback υ) : Prop :=
  ∀ k peer event w, ∃ user, cb k peer event w = some { w with user := user }

theorem Mute.leaf (h : Mute cb) : Leaf cb := by
  intro k peer event w w' hw
  obtain ⟨user, hu⟩ := h k peer event w
  rw [hw] at hu
  cases hu
  exact .refl

theorem Poke.minor (h : Poke k m m') : Relation.ReflGen Minor m m' := by
  cases h with
  | sendPacket peer data => exact sendPacket_minor k peer data m
  | readPacket peer buffer bufferSize => exact (readPacket_pops peer buffer bufferSize m).minor
  | setAutoReconnect peer enable b x => exact setAutoReconnect_minor peer enable b x m

theorem Pokes.minors (h : Pokes k m m') : Minors m m' := by
  induction h with
  | refl => exact .refl
  | tail _ hp ih => exact ih.trans hp.minor.to_reflTransGen

theorem notify_pokes {event : ConnectionEvent} (hcb : Leaf cb)
    (h : notifyConnectionEvent cb k peer event w = some w') :
    Pokes k (w.mgr.noted peer event) w'.mgr := by
  unfold notifyConnectionEvent at h
  unfold Manager.noted
  split at h
  · rw [if_pos ‹_›]
    exact hcb _ _ _ _ _ h
  · cases h
    rw [if_neg ‹_›]

theorem notify_mute {event : ConnectionEvent} (hcb : Mute cb)
    (h : notifyConnectionEvent cb k peer event w = some w') :
    w'.mgr = w.mgr.noted peer event := by
  unfold notifyConnectionEvent at h
  unfold Manager.noted
  split at h
  · rw [if_pos ‹_›]
    obtain ⟨user, hu⟩ := hcb k peer event (w.onMgr (·.log (.notify peer event)))
    rw [h] at hu
    cases hu
    rfl
  · cases h
    rw [if_neg ‹_›]

/-- The connection `c` of `peer` is closed, and its loss is reported. -/
def Manager.tearDown (peer : PeerID) (c : Connection) (m : Manager) : Manager :=
  ((m.closeSocket c.socket).setConn peer c.down).noted peer .disconnected


theorem Manager.tearDown_mConnections (c : Connection) (m : Manager) :
    (m.tearDown peer c).mConnections = m.mConnections.replace peer c.down := by
  rw [Manager.tearDown, Manager.noted_mConnections, Manager.setConn_mConnections,
    Manager.closeSocket_mConnections]

theorem Loses.reported (hcb : Leaf cb) {c : Connection} (h : Loses cb k peer c w w') :
    w.mgr.mConnections.lookup peer = some c ∧ ∃ v d,
      notifyConnectionEvent cb k peer .disconnected
        (w.onMgr fun m => (m.closeSocket c.socket).setConn peer c.down) = some v ∧
      v.mgr.mConnections.lookup peer = some d ∧ d.Down ∧
      (d.autoReconnect = true ∧ w'.mgr = scheduleReconnect k peer d v.mgr ∨
        d.autoReconnect = false ∧ w'.mgr = v.mgr.erase peer) := by
  obtain ⟨hc, v, hn, ha⟩ := h
  have hp : Pokes k (w.mgr.tearDown peer c) v.mgr := notify_pokes hcb hn
  have hdown : (w.mgr.tearDown peer c).mConnections.lookup peer = some c.down := by
    rw [Manager.tearDown_mConnections, AssocList.lookup_replace_self _ (AssocList.mem_of_lookup hc)]
  obtain ⟨d, hd, hD⟩ := hp.minors.entry (fun _ _ _ h ha => Connection.Down.alters h ha) hdown
    c.down_Down
  refine ⟨hc, v, d, hn, hd, hD, ?_⟩
  unfold afterLoss at ha
  rw [hd, Option.bind_eq_bind, Option.bind_some] at ha
  cases hauto : d.autoReconnect with
  | true =>
    rw [if_pos hauto] at ha
    cases ha
    exact .inl ⟨rfl, rfl⟩
  | false =>
    rw [if_neg (by simp [hauto])] at ha
    split at ha
    · cases ha
    · cases ha
      exact .inr ⟨rfl, rfl⟩

theorem Loses.cases (hcb : Leaf cb) {c : Connection} (h : Loses cb k peer c w w') :
    w.mgr.mConnections.lookup peer = some c ∧ ∃ m d, Pokes k (w.mgr.tearDown peer c) m ∧
      m.mConnections.lookup peer = some d ∧ d.Down ∧
      (d.autoReconnect = true ∧ w'.mgr = scheduleReconnect k peer d m ∨
        d.autoReconnect = false ∧ w'.mgr = m.erase peer) := by
  obtain ⟨hc, v, d, hn, hrest⟩ := h.reported hcb
  exact ⟨hc, v.mgr, d, notify_pokes hcb hn, hrest⟩

end IsaacP2P.Client
