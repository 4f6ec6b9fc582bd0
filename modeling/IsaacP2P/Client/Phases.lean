import IsaacP2P.Client.Outgoing
import Mathlib.Logic.Relation

/-!
# The phases of `processEvents`

A call of `processEvents` retries the connections that are due (`Redial`),
accepts (`Admits`), serves the sockets that are ready (`Serve`), tears down the
connections marked for removal (`Removal`), and retries once more
(`processEvents_phases`).
-/

namespace IsaacP2P.Client

open LengthPrefixed (next stream)

variable {υ : Type} {cb : Callback υ} {k : Kernel} {w w' : World υ} {m : Manager} {peer : PeerID}

/-! ## Connecting -/

/-- What `connectWithTimeout` returns and leaves. -/
inductive Dials (m : Manager) : SocketHandle → Manager → Prop where
  | noSocket : Dials m invalidSocketHandle (m.log (.socket invalidSocketHandle))
  /-- A call on the new socket failed, and it was closed. -/
  | refused {h : SocketHandle} : m.free h = true →
      Dials m invalidSocketHandle ((m.log (.socket h)).log (.close h))
  | made {h : SocketHandle} : m.free h = true → Dials m h (m.log (.socket h))

theorem Manager.valid_of_free {h : SocketHandle} (hf : m.free h = true) :
    h ≠ invalidSocketHandle := by
  simp only [Manager.free, Bool.and_eq_true, bne_iff_ne] at hf
  exact hf.1

theorem Dials.ite {b : Prop} [Decidable b] {x y : SocketHandle × Manager}
    (hx : Dials m x.1 x.2) (hy : Dials m y.1 y.2) :
    Dials m (if b then x else y).1 (if b then x else y).2 := by
  split
  · exact hx
  · exact hy

theorem connectWithTimeout_dials (k : Kernel) (ip : Text) (m : Manager) :
    Dials m (connectWithTimeout k ip m).1 (connectWithTimeout k ip m).2 := by
  unfold connectWithTimeout Manager.openSocket
  by_cases hf : m.free (k.socket m.trace.length) = true
  · have hv := Manager.valid_of_free hf
    have hclose : ∀ m' : Manager, m'.closeSocket (k.socket m.trace.length) =
        m'.log (.close (k.socket m.trace.length)) := fun m' => if_pos (by simpa using hv)
    simp only [if_pos hf, hclose]
    rw [if_neg (by simpa using hv)]
    have hrefused := Dials.refused hf
    have hmade := Dials.made hf
    exact .ite hrefused (.ite hmade (.ite hrefused (.ite hrefused (.ite hrefused
      (.ite hrefused (.ite hrefused hmade))))))
  · simp only [if_neg hf, beq_self_eq_true, if_true]
    exact .noSocket

theorem Dials.of_valid {h : SocketHandle} {m' : Manager} (hd : Dials m h m')
    (hv : h ≠ invalidSocketHandle) : m.free h = true ∧ m' = m.log (.socket h) := by
  cases hd with
  | noSocket => exact absurd rfl hv
  | refused _ => exact absurd rfl hv
  | made hf => exact ⟨hf, rfl⟩

/-- The manager with a new entry for a socket just obtained. -/
def Manager.enter (h : SocketHandle) (ip : Text) (port : UInt16) (m : Manager) : Manager :=
  (allocatePeerID m).2.emplace m.mNextPeerID
    { socket := h, peerID := m.mNextPeerID, remoteIP := ip, remotePort := port, connected := true }

@[simp] theorem Manager.enter_mInitialized (h : SocketHandle) (ip : Text) (port : UInt16)
    (m : Manager) :
    (m.enter h ip port).mInitialized = m.mInitialized := by
  unfold Manager.enter Manager.emplace
  split <;> rfl
@[simp] theorem Manager.enter_mListenSocket (h : SocketHandle) (ip : Text) (port : UInt16)
    (m : Manager) :
    (m.enter h ip port).mListenSocket = m.mListenSocket := by
  unfold Manager.enter Manager.emplace
  split <;> rfl
@[simp] theorem Manager.enter_mNextPeerID (h : SocketHandle) (ip : Text) (port : UInt16)
    (m : Manager) :
    (m.enter h ip port).mNextPeerID = m.mNextPeerID + 1 := by
  unfold Manager.enter Manager.emplace allocatePeerID
  split <;> rfl
@[simp] theorem Manager.enter_mPendingRemove (h : SocketHandle) (ip : Text) (port : UInt16)
    (m : Manager) :
    (m.enter h ip port).mPendingRemove = m.mPendingRemove := by
  unfold Manager.enter Manager.emplace
  split <;> rfl
@[simp] theorem Manager.enter_mConnectionCallback (h : SocketHandle) (ip : Text) (port : UInt16)
    (m : Manager) :
    (m.enter h ip port).mConnectionCallback = m.mConnectionCallback := by
  unfold Manager.enter Manager.emplace
  split <;> rfl
@[simp] theorem Manager.enter_trace (h : SocketHandle) (ip : Text) (port : UInt16)
    (m : Manager) :
    (m.enter h ip port).trace = m.trace := by
  unfold Manager.enter Manager.emplace
  split <;> rfl

theorem connect_cases {ip : Text} {port : UInt16} {out : Option PeerID}
    (hi : w.mgr.mInitialized = true) (h : connect cb k (some ip) port w = some (out, w')) :
    (out = none ∧ ∃ m, Dials w.mgr invalidSocketHandle m ∧ w' = { w with mgr := m }) ∨
      ∃ sock, w.mgr.free sock = true ∧ out = some w.mgr.mNextPeerID ∧
        notifyConnectionEvent cb k w.mgr.mNextPeerID .connected
          (w.onMgr fun m => (m.log (.socket sock)).enter sock ip port) = some w' := by
  have hd := connectWithTimeout_dials k ip w.mgr
  simp only [connect, hi, Bool.not_true, Bool.false_eq_true, if_false] at h
  generalize connectWithTimeout k ip w.mgr = r at hd h
  obtain ⟨sock, m⟩ := r
  dsimp only at hd h
  split at h
  · rename_i hs
    rw [beq_iff_eq] at hs
    cases hs
    cases h
    exact .inl ⟨rfl, m, hd, rfl⟩
  · rename_i hs
    cases hd with
    | noSocket => exact absurd rfl hs
    | refused _ => exact absurd rfl hs
    | made hf =>
      obtain ⟨w₁, hn, he⟩ := Option.map_eq_some_iff.mp h
      cases he
      exact .inr ⟨sock, hf, rfl, hn⟩

/-! ## The steps of each phase -/

/-- The connection `c` of `peer` is torn down, in the two halves around the callback. -/
def Loses (cb : Callback υ) (k : Kernel) (peer : PeerID) (c : Connection) (w w' : World υ) : Prop :=
  w.mgr.mConnections.lookup peer = some c ∧
    ∃ m, notifyConnectionEvent cb k peer .disconnected
        (w.onMgr fun m => (m.closeSocket c.socket).setConn peer c.down) = some m ∧
      afterLoss k peer w.mgr m = some w'

/-- The entry of a connection after a successful reconnect on `h`. -/
def Connection.reconnected (c : Connection) (h : SocketHandle) : Connection :=
  { c with socket := h, connected := true, reconnectAttempt := 0, nextReconnectAtMs := 0 }

/-- One attempt to reconnect, made at `now`. -/
inductive Redial (cb : Callback υ) (k : Kernel) (now : UInt64) (w : World υ) : World υ → Prop where
  | retry {peer : PeerID} {c : Connection} {m : Manager} :
      w.mgr.mConnections.lookup peer = some c → c.reconnectDue now = true →
      Dials w.mgr invalidSocketHandle m →
      Redial cb k now w { w with mgr := retryLater peer c now m }
  | reconnected {peer : PeerID} {c : Connection} {h : SocketHandle} {w' : World υ} :
      w.mgr.mConnections.lookup peer = some c → c.reconnectDue now = true →
      w.mgr.free h = true →
      notifyConnectionEvent cb k peer .connected
        (w.onMgr fun m => (m.log (.socket h)).setConn peer (c.reconnected h)) = some w' →
      Redial cb k now w w'

/-- A connection on `h` from the address `ip`, `port` is accepted. -/
def Admits (cb : Callback υ) (k : Kernel) (h : SocketHandle) (ip : Text) (port : UInt16)
    (w w' : World υ) : Prop :=
  w.mgr.mListenSocket ≠ invalidSocketHandle ∧ w.mgr.free h = true ∧
    notifyConnectionEvent cb k w.mgr.mNextPeerID .connected
      (w.onMgr fun m => (m.log (.accept h)).enter h ip port) = some w'

/-- The loop of `acceptNewConnections` on `calls`, entered in `w`, comes to a
connection on `h` in the state `m`. -/
inductive Accepting (cb : Callback υ) (k : Kernel) (h : SocketHandle) (ip : Text) (port : UInt16) :
    List (SocketHandle × Text × UInt16) → World υ → World υ → Prop where
  | here {rest : List (SocketHandle × Text × UInt16)} {w : World υ} :
      Accepting cb k h ip port ((h, ip, port) :: rest) w w
  | later {h' : SocketHandle} {ip' : Text} {port' : UInt16}
      {rest : List (SocketHandle × Text × UInt16)} {w w₁ m : World υ} :
      Admits cb k h' ip' port' w w₁ → Accepting cb k h ip port rest w₁ m →
      Accepting cb k h ip port ((h', ip', port') :: rest) w m

/-- What is done for a socket that `select()` reports. -/
inductive Serve (k : Kernel) (m : Manager) : Manager → Prop where
  /-- `recv()` returns `b`, and the packets `ps` are complete. -/
  | parsed {peer : PeerID} {c : Connection} {b : List UInt8} {ps : List Packet}
      {rest : ReceiveBuffer} :
      m.mConnections.lookup peer = some c → c.connected = true → b ≠ [] →
      Drained (c.recvBuffer ++ b) ps rest →
      Serve k m (((m.log (.recv c.socket b)).log (.pushed c.socket ps)).setConn peer
        { c with receiveQueue := c.receiveQueue ++ ps, recvBuffer := rest })
  /-- The end of the stream, an error, or an exception. -/
  | stopped {peer : PeerID} {c : Connection} {e : Ev} {id : PeerID} :
      m.mConnections.lookup peer = some c → c.connected = true →
      e = .recvEnd c.socket ∨ e = .recvFail c.socket ∨ e = .except c.socket →
      id = peer ∨ id = c.peerID →
      Serve k m (((m.log e).setConn peer { c with connected := false }).pushPending id)
  | wrote {peer : PeerID} {c : Connection} : m.mConnections.lookup peer = some c →
      Serve k m (processWrite k peer c m)

/-- The rounds of `removeDisconnected`. -/
inductive Removal (cb : Callback υ) (k : Kernel) : List PeerID → World υ → World υ → Prop where
  | done {w : World υ} : Removal cb k [] w w
  | absent {peer : PeerID} {rest : List PeerID} {w w' : World υ} :
      w.mgr.mConnections.lookup peer = none → Removal cb k rest w w' →
      Removal cb k (peer :: rest) w w'
  | lost {peer : PeerID} {rest : List PeerID} {c : Connection} {w m w' : World υ} :
      Loses cb k peer c w m → m.mgr.mPendingRemove = w.mgr.mPendingRemove →
      Removal cb k rest m w' → Removal cb k (peer :: rest) w w'

abbrev Redials (cb : Callback υ) (k : Kernel) (now : UInt64) : World υ → World υ → Prop :=
  Relation.ReflTransGen (Redial cb k now)

abbrev Serves (k : Kernel) : Manager → Manager → Prop := Relation.ReflTransGen (Serve k)

/-! ## Reconnecting and accepting -/

theorem reconnectLoop_redials {now : UInt64} {peers : List PeerID}
    (h : reconnectLoop cb k now peers w = some w') : Redials cb k now w w' := by
  induction peers generalizing w with
  | nil => cases h; exact .refl
  | cons peer rest ih =>
    unfold reconnectLoop at h
    obtain ⟨c, hc, h⟩ := Option.bind_eq_some_iff.mp h
    by_cases hdue : c.reconnectDue now = true
    · have hdials := connectWithTimeout_dials k c.remoteIP w.mgr
      generalize hd : connectWithTimeout k c.remoteIP w.mgr = r at hdials h
      obtain ⟨sock, m⟩ := r
      change Dials w.mgr sock m at hdials
      simp only [hdue, Bool.not_true, Bool.false_eq_true, if_false] at h
      by_cases hs : sock = invalidSocketHandle
      · subst hs
        rw [if_neg (by simp)] at h
        exact .head (.retry hc hdue hdials) (ih h)
      · rw [if_pos (by simpa using hs)] at h
        obtain ⟨w₁, hn, hloop⟩ := Option.bind_eq_some_iff.mp h
        split at hloop
        · cases hloop
        · cases hdials with
          | noSocket => exact absurd rfl hs
          | refused _ => exact absurd rfl hs
          | made hf => exact .head (.reconnected hc hdue hf hn) (ih hloop)
    · simp only [hdue, Bool.not_false, if_true] at h
      exact ih h

/-- The attempts of one call are made at one reading of the clock. -/
theorem attemptReconnects_redials (h : attemptReconnects cb k w = some w') :
    Redials cb k (k.nowMs w.mgr.trace.length)
      (w.onMgr (·.log (.clock (k.nowMs w.mgr.trace.length)))) w' :=
  reconnectLoop_redials h

theorem acceptLoop_rule {P : World υ → Prop} {calls : List (SocketHandle × Text × UInt16)}
    (hstep : ∀ h ip port m m', Accepting cb k h ip port calls w m → P m →
      Admits cb k h ip port m m' → P m')
    (hw : P w) (h : acceptLoop cb k calls w = some w') : P w' := by
  induction calls generalizing w with
  | nil => cases h; exact hw
  | cons call rest ih =>
    obtain ⟨sock, ip, port⟩ := call
    unfold acceptLoop at h
    split at h
    · cases h
      exact hw
    · rename_i hgo
      simp only [Bool.or_eq_true, beq_iff_eq, Bool.not_eq_true', not_or,
        Bool.not_eq_false] at hgo
      obtain ⟨w₁, hn, h⟩ := Option.bind_eq_some_iff.mp h
      have hadm : Admits cb k sock ip port w w₁ := ⟨hgo.1, hgo.2, hn⟩
      exact ih (fun _ _ _ _ _ hat => hstep _ _ _ _ _ (.later hadm hat))
        (hstep _ _ _ _ _ .here hw hadm) h

theorem acceptNewConnections_rule {P : World υ → Prop}
    (hstep : ∀ h ip port m m', Accepting cb k h ip port (k.accept w.mgr.trace.length) w m → P m →
      Admits cb k h ip port m m' → P m')
    (hw : P w) (h : acceptNewConnections cb k w = some w') : P w' := by
  unfold acceptNewConnections at h
  split at h
  · cases h
    exact hw
  · exact acceptLoop_rule hstep hw h

/-! ## Reading and writing -/

theorem readLoop_serves {chunks : List (List UInt8)} {last : RecvEnd} {c : Connection}
    (hc : m.mConnections.lookup peer = some c) (hconn : c.connected = true) :
    Serves k m (readLoop peer chunks last c m) := by
  induction chunks generalizing m c with
  | nil =>
    cases last with
    | again => exact .refl
    | closed => exact .single (.stopped hc hconn (.inl rfl) (.inr rfl))
    | fail => exact .single (.stopped hc hconn (.inr (.inl rfl)) (.inr rfl))
  | cons b bs ih =>
    by_cases hb : b.take recvBufferSize = []
    · have he : readLoop peer (b :: bs) last c m = ((m.log (.recvEnd c.socket)).setConn peer
          { c with connected := false }).pushPending c.peerID := by
        simp only [readLoop, hb, List.isEmpty_nil, if_true, Manager.drop]
      rw [he]
      exact .single (.stopped hc hconn (.inl rfl) (.inr rfl))
    · obtain ⟨ps, rest, hd, hdr⟩ := drain_drained
        (Nat.le_refl (ReceiveBuffer.append (b.take recvBufferSize) c.recvBuffer).length)
        c.receiveQueue
      have hparsed : Serve k m _ := .parsed hc hconn hb hdr
      refine .head hparsed ?_
      have hne : (b.take recvBufferSize).isEmpty = false := by simpa using hb
      simp only [readLoop, hne, Bool.false_eq_true, if_false, hd, List.drop_left]
      exact ih (Manager.setConn_lookup_self hc) hconn

theorem serveConnection_serves (p : Polled) (m : Manager) (peer : PeerID) :
    Serves k m (serveConnection k p m peer) := by
  unfold serveConnection
  cases hc : m.mConnections.lookup peer with
  | none => exact .refl
  | some c =>
    dsimp only
    split
    · exact .refl
    · rename_i hlive
      have hconn : c.connected = true := by
        by_contra hno
        exact hlive (by simp [hno])
      split
      · exact .single (.stopped hc hconn (.inr (.inr rfl)) (.inl rfl))
      · have hread : Serves k m (if p.readable c.socket then processRead k peer c m else m) := by
          cases p.readable c.socket with
          | false => exact .refl
          | true => exact readLoop_serves hc hconn
        generalize (if p.readable c.socket then processRead k peer c m else m) = m' at hread ⊢
        split
        · apply hread.trans
          split
          · exact .refl
          · rename_i c' hc'
            exact .single (.wrote hc')
        · exact hread

theorem serveAll_serves (p : Polled) (peers : List PeerID) (m : Manager) :
    Serves k m (peers.foldl (serveConnection k p) m) := by
  induction peers generalizing m with
  | nil => exact .refl
  | cons peer peers ih => exact (serveConnection_serves p m peer).trans (ih _)

/-! ## Removing -/

theorem entered_of_lookup {old m : Manager}
    (h : ∀ p, old.mConnections.lookup p = none → m.mConnections.lookup p = none) :
    old.entered m = false := by
  rw [Manager.entered, List.any_eq_false]
  intro p hp hnew
  obtain ⟨c, hc⟩ := Option.isSome_iff_exists.mp (AList.lookup_isSome.mpr (AList.mem_keys.mp hp))
  rw [h p (AList.lookup_eq_none.mpr fun hmem => of_decide_eq_true hnew (AList.mem_keys.mp hmem))] at hc
  cases hc

theorem afterLoss_cases {old : Manager} {c : Connection}
    (hc : w.mgr.mConnections.lookup peer = some c) (h : afterLoss k peer old w = some w') :
    w' = w.onMgr (scheduleReconnect k peer c) ∨ w' = w.onMgr (·.erase peer) := by
  unfold afterLoss at h
  rw [hc, Option.bind_eq_bind, Option.bind_some] at h
  split at h
  · cases h
    exact .inl rfl
  · split at h
    · cases h
    · cases h
      exact .inr rfl

/-- What is left in the table: the entry with a new schedule, and the others. -/
theorem afterLoss_lookup {old : Manager} {p : PeerID} {c c' : Connection}
    (hc : w.mgr.mConnections.lookup peer = some c) (h : afterLoss k peer old w = some w')
    (hc' : w'.mgr.mConnections.lookup p = some c') :
    (p = peer ∧ ∃ next, c' = { c with reconnectAttempt := 0, nextReconnectAtMs := next }) ∨
      (p ≠ peer ∧ w.mgr.mConnections.lookup p = some c') := by
  rcases afterLoss_cases hc h with rfl | rfl
  · have hcm : (w.mgr.nowMs k).2.mConnections.lookup peer = some c := hc
    rcases Manager.setConn_lookup_some hcm hc' with ⟨rfl, rfl⟩ | hother
    · exact .inl ⟨rfl, _, rfl⟩
    · exact .inr hother
  · by_cases hp : p = peer
    · subst hp
      rw [World.onMgr_mgr, Manager.erase_mConnections, AList.lookup_erase] at hc'
      cases hc'
    · rw [World.onMgr_mgr, Manager.erase_mConnections, AList.lookup_erase_ne hp] at hc'
      exact .inr ⟨hp, hc'⟩

theorem afterLoss_mPendingRemove {old : Manager} (h : afterLoss k peer old w = some w') :
    w'.mgr.mPendingRemove = w.mgr.mPendingRemove := by
  obtain ⟨c, hc, -⟩ := Option.bind_eq_some_iff.mp h
  rcases afterLoss_cases hc h with rfl | rfl
  · rfl
  · rfl

theorem removeLoop_removal {ids : List PeerID} (h : removeLoop cb k ids w = some w') :
    Removal cb k ids w w' := by
  induction ids generalizing w with
  | nil => cases h; exact .done
  | cons peer rest ih =>
    unfold removeLoop at h
    cases hc : w.mgr.mConnections.lookup peer with
    | none =>
      rw [hc] at h
      exact .absent hc (ih h)
    | some c =>
      simp only [hc] at h
      obtain ⟨w₁, hn, h⟩ := Option.bind_eq_some_iff.mp h
      split at h
      · cases h
      · rename_i hpend
        obtain ⟨w₂, ha, h⟩ := Option.bind_eq_some_iff.mp h
        have hkept : w₂.mgr.mPendingRemove = w.mgr.mPendingRemove := by
          rw [afterLoss_mPendingRemove ha]
          have : w₁.mgr.mPendingRemove = (w.mgr.closeSocket c.socket).mPendingRemove := by
            simpa using hpend
          rw [this, Manager.closeSocket]
          split <;> rfl
        exact .lost ⟨hc, w₁, hn, ha⟩ hkept (ih h)

/-- What holds before the removals and is kept by each holds after them. -/
theorem Removal.invariant {P : List PeerID → World υ → Prop}
    (habsent : ∀ peer rest w, P (peer :: rest) w → w.mgr.mConnections.lookup peer = none → P rest w)
    (hlost : ∀ peer rest c w m, P (peer :: rest) w → Loses cb k peer c w m →
      m.mgr.mPendingRemove = w.mgr.mPendingRemove → P rest m)
    {ids : List PeerID} (h : Removal cb k ids w w') (hw : P ids w) : P [] w' := by
  induction h with
  | done => exact hw
  | absent hc _ ih => exact ih (habsent _ _ _ hw hc)
  | lost hl hp _ ih => exact ih (hlost _ _ _ _ _ hw hl hp)

/-- The removals a call of `removeDisconnected` is asked for, sorted and without
repetitions. -/
def Manager.removals (m : Manager) : List PeerID :=
  (m.mPendingRemove.insertionSort (· ≤ ·)).destutter (· ≠ ·)

theorem Manager.removals_subset (m : Manager) : m.removals ⊆ m.mPendingRemove := fun _ hid =>
  (List.mem_insertionSort (· ≤ ·)).mp ((List.destutter_sublist _ _).subset hid)

theorem Manager.pending_subset_removals (m : Manager) : m.mPendingRemove ⊆ m.removals := by
  have hmem : ∀ (l : List PeerID) (a : PeerID), a :: l ⊆ l.destutter' (· ≠ ·) a := by
    intro l
    induction l with
    | nil => exact fun a => List.Subset.refl _
    | cons b l ih =>
      intro a id hid
      by_cases hab : a ≠ b
      · rw [List.destutter'_cons_pos _ hab]
        exact (List.mem_cons.mp hid).elim (fun h => h ▸ List.mem_cons_self ..)
          fun h => List.mem_cons_of_mem _ (ih b h)
      · rw [List.destutter'_cons_neg _ hab]
        have hab : a = b := by simpa using hab
        subst hab
        exact ih a ((List.mem_cons.mp hid).elim (fun h => h ▸ List.mem_cons_self ..) fun h => h)
  intro id hid
  have hsorted := (List.mem_insertionSort (· ≤ ·)).mpr hid
  unfold Manager.removals
  cases hl : m.mPendingRemove.insertionSort (· ≤ ·) with
  | nil =>
    rw [hl] at hsorted
    cases hsorted
  | cons a l =>
    rw [hl] at hsorted
    exact hmem l a hsorted

theorem Manager.removals_nodup (m : Manager) : m.removals.Nodup := by
  have hsorted : m.removals.Pairwise (· ≤ ·) :=
    (List.pairwise_insertionSort (· ≤ ·) m.mPendingRemove).sublist (List.destutter_sublist _ _)
  have hchain : m.removals.IsChain (· ≠ ·) := List.isChain_destutter _ _
  have hlt : m.removals.IsChain (· < ·) := by
    refine List.isChain_iff_forall_rel_of_append_cons_cons.mpr fun a b l₁ l₂ he => ?_
    have hle := List.isChain_iff_forall_rel_of_append_cons_cons.mp hsorted.isChain he
    have hne := List.isChain_iff_forall_rel_of_append_cons_cons.mp hchain he
    exact UInt32.lt_of_le_of_ne hle hne
  exact hlt.pairwise.imp UInt32.ne_of_lt

def Manager.setPending (ids : List PeerID) (m : Manager) : Manager :=
  { m with mPendingRemove := ids }

theorem removeDisconnected_removal (h : removeDisconnected cb k w = some w') :
    ∃ w₁, Removal cb k w.mgr.removals (w.onMgr fun m => m.setPending m.removals) w₁ ∧
      w' = w₁.onMgr (·.setPending []) := by
  obtain ⟨w₁, hl, h⟩ := Option.bind_eq_some_iff.mp h
  cases h
  exact ⟨w₁, removeLoop_removal hl, rfl⟩

/-! ## The call -/

/-- **The phases of a call**, in their order. -/
structure Phases (cb : Callback υ) (k : Kernel) (w w₁ w₂ : World υ) (m : Manager)
    (w₃ w' : World υ) : Prop where
  redials : attemptReconnects cb k w = some w₁
  accepts : acceptNewConnections cb k w₁ = some w₂
  serves : m = w₂.mgr ∨ Serves k (w₂.mgr.log .select) m
  removal : Removal cb k m.removals { w₂ with mgr := m.setPending m.removals } w₃
  again : attemptReconnects cb k (w₃.onMgr (·.setPending [])) = some w'

/-- What `processEvents` does between accepting and removing. -/
def served (k : Kernel) (m : Manager) : Manager :=
  let readSet := fdSet (fun _ => true) m
  let writeSet := fdSet (fun conn => !conn.sendBuffer.isEmpty) m
  let maxFd := (m.mConnections.entries.filter fun e =>
    e.2.socket != invalidSocketHandle && e.2.connected).foldl (fun fd e => max fd e.2.socket) 0
  if maxFd == 0 then m
  else
    let p : Polled := { readSet, writeSet, selected := k.select m.trace.length }
    let m := m.log .select
    if p.selected.result then m.mConnections.keys.foldl (serveConnection k p) m else m

theorem served_serves (m : Manager) : served k m = m ∨ Serves k (m.log .select) (served k m) := by
  unfold served
  dsimp only
  split
  · exact .inl rfl
  · split
    · exact .inr (serveAll_serves _ _ _)
    · exact .inr .refl

theorem processEvents_eq (hi : w.mgr.mInitialized = true) :
    processEvents cb k w = (attemptReconnects cb k w).bind fun w₁ =>
      (acceptNewConnections cb k w₁).bind fun w₂ =>
        (removeDisconnected cb k (w₂.onMgr (served k))).bind (attemptReconnects cb k) := by
  unfold processEvents
  rw [if_neg (by simp [hi])]
  congr 1
  funext w₁
  congr 1
  funext w₂
  unfold served World.onMgr
  dsimp only
  split
  · rfl
  · split <;> rfl

theorem processEvents_phases (hi : w.mgr.mInitialized = true)
    (h : processEvents cb k w = some w') :
    ∃ w₁ w₂ m w₃, Phases cb k w w₁ w₂ m w₃ w' := by
  rw [processEvents_eq hi] at h
  obtain ⟨w₁, h₁, h⟩ := Option.bind_eq_some_iff.mp h
  obtain ⟨w₂, h₂, h⟩ := Option.bind_eq_some_iff.mp h
  obtain ⟨w₄, h₄, h⟩ := Option.bind_eq_some_iff.mp h
  obtain ⟨w₃, hrem, rfl⟩ := removeDisconnected_removal h₄
  exact ⟨w₁, w₂, served k w₂.mgr, w₃, h₁, h₂, served_serves w₂.mgr, hrem, h⟩

end IsaacP2P.Client
