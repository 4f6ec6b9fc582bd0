import IsaacP2P.Client.Phases

/-!
# What `processEvents` does

`Act` lists the acts `processEvents` is made of: one attempt to reconnect, one
connection accepted, one chunk read, one write, one connection removed, and so
on. `processEvents_acts` says that every call is a sequence of such acts, so an
invariant of the library has one case for each (`Acts.invariant`).
-/

namespace IsaacP2P.Client

open LengthPrefixed (next stream)

variable {υ : Type} {cb : Callback υ} {k : Kernel} {w w' : World υ} {m : Manager} {peer : PeerID}

/-! ## The acts -/

inductive Act (cb : Callback υ) (k : Kernel) (w : World υ) : World υ → Prop where
  | clock (now : UInt64) : Act cb k w (w.onMgr (·.log (.clock now)))
  | select : Act cb k w (w.onMgr (·.log .select))
  | pending {ids : List PeerID} : ids ⊆ w.mgr.mPendingRemove →
      Act cb k w (w.onMgr fun m => { m with mPendingRemove := ids })
  /-- An attempt to reconnect fails. -/
  | retry {peer : PeerID} {c : Connection} {m : Manager} {now : UInt64} :
      w.mgr.mConnections.lookup peer = some c → c.reconnectDue now = true →
      Dials w.mgr invalidSocketHandle m → Act cb k w { w with mgr := retryLater peer c now m }
  | reconnected {peer : PeerID} {c : Connection} {h : SocketHandle} {now : UInt64} {w' : World υ} :
      w.mgr.mConnections.lookup peer = some c → c.reconnectDue now = true →
      w.mgr.free h = true →
      notifyConnectionEvent cb k peer .connected
        (w.onMgr fun m => (m.log (.socket h)).setConn peer (c.reconnected h)) = some w' →
      Act cb k w w'
  | accepted {h : SocketHandle} {ip : Text} {port : UInt16} {w' : World υ} :
      w.mgr.mListenSocket ≠ invalidSocketHandle → w.mgr.free h = true →
      notifyConnectionEvent cb k w.mgr.mNextPeerID .connected
        (w.onMgr fun m => (m.log (.accept h)).enter h ip port) = some w' →
      Act cb k w w'
  /-- `recv()` returns `b`, and the packets `ps` are complete. -/
  | parsed {peer : PeerID} {c : Connection} {b : List UInt8} {ps : List Packet}
      {rest : ReceiveBuffer} :
      w.mgr.mConnections.lookup peer = some c → c.connected = true → b ≠ [] →
      Drained (c.recvBuffer ++ b) ps rest →
      Act cb k w (w.onMgr fun m =>
        ((m.log (.recv c.socket b)).log (.pushed c.socket ps)).setConn peer
          { c with receiveQueue := c.receiveQueue ++ ps, recvBuffer := rest })
  /-- The end of the stream, an error, or an exception. -/
  | stopped {peer : PeerID} {c : Connection} {e : Ev} {id : PeerID} :
      w.mgr.mConnections.lookup peer = some c → c.connected = true →
      e = .recvEnd c.socket ∨ e = .recvFail c.socket ∨ e = .except c.socket →
      Act cb k w (w.onMgr fun m =>
        ((m.log e).setConn peer { c with connected := false }).pushPending id)
  | wrote {peer : PeerID} {c : Connection} : w.mgr.mConnections.lookup peer = some c →
      Act cb k w (w.onMgr (processWrite k peer c))
  | lost {peer : PeerID} {c : Connection} {w' : World υ} : peer ∈ w.mgr.mPendingRemove →
      Loses cb k peer c w w' → Act cb k w w'

abbrev Acts (cb : Callback υ) (k : Kernel) : World υ → World υ → Prop :=
  Relation.ReflTransGen (Act cb k)

theorem Acts.invariant {P : World υ → Prop} (hstep : ∀ w w', P w → Act cb k w w' → P w')
    (hw : P w) (h : Acts cb k w w') : P w' := by
  induction h with
  | refl => exact hw
  | tail _ ha ih => exact hstep _ _ ih ha

/-! ## A call is a sequence of acts -/

theorem Redial.act {now : UInt64} (h : Redial cb k now w w') : Act cb k w w' := by
  cases h with
  | retry hc hdue hd => exact .retry hc hdue hd
  | reconnected hc hdue hf hn => exact .reconnected hc hdue hf hn

theorem Admits.act {h : SocketHandle} {ip : Text} {port : UInt16}
    (ha : Admits cb k h ip port w w') : Act cb k w w' :=
  .accepted ha.1 ha.2.1 ha.2.2

theorem Serve.act {m' : Manager} (h : Serve k m m') (w : World υ) :
    Act cb k { w with mgr := m } { w with mgr := m' } := by
  have hm : ({ w with mgr := m } : World υ).mgr = m := rfl
  cases h with
  | parsed hc hconn hb hd => exact .parsed (w := { w with mgr := m }) hc hconn hb hd
  | stopped hc hconn he _ => exact .stopped (w := { w with mgr := m }) hc hconn he
  | wrote hc => exact .wrote (w := { w with mgr := m }) hc

theorem Serves.acts {m' : Manager} (h : Serves k m m') (w : World υ) :
    Acts cb k { w with mgr := m } { w with mgr := m' } := by
  induction h with
  | refl => exact .refl
  | tail _ hs ih => exact ih.tail (hs.act w)

theorem Removal.acts {ids : List PeerID} (h : Removal cb k ids w w')
    (hids : ids ⊆ w.mgr.mPendingRemove) : Acts cb k w w' := by
  induction h with
  | done => exact .refl
  | absent _ _ ih => exact ih fun _ hid => hids (List.mem_cons_of_mem _ hid)
  | lost hl hp _ ih =>
    refine .head (.lost (hids (List.mem_cons_self ..)) hl) (ih fun id hid => ?_)
    rw [hp]
    exact hids (List.mem_cons_of_mem _ hid)

/-- **Every call of `processEvents` is a sequence of acts.** -/
theorem processEvents_acts (h : processEvents cb k w = some w') : Acts cb k w w' := by
  by_cases hi : w.mgr.mInitialized = true
  · obtain ⟨w₁, w₂, m, w₃, hp⟩ := processEvents_phases hi h
    have hredials : ∀ {now : UInt64} {v v' : World υ}, Redials cb k now v v' → Acts cb k v v' :=
      fun h => Relation.ReflTransGen.mono (fun _ _ h => Redial.act h) _ _ h
    have hattempts : ∀ {v v' : World υ}, attemptReconnects cb k v = some v' → Acts cb k v v' :=
      fun h => .head (.clock _) (hredials (attemptReconnects_redials h))
    have haccepts : Acts cb k w₁ w₂ := acceptNewConnections_rule
      (fun _ _ _ _ _ _ h ha => h.tail ha.act) .refl hp.accepts
    refine (hattempts hp.redials).trans (haccepts.trans ?_)
    have hserves : Acts cb k w₂ { w₂ with mgr := m } := by
      rcases hp.serves with rfl | hs
      · exact .refl
      · exact .head .select (hs.acts w₂)
    refine hserves.trans (.head (.pending m.removals_subset) ?_)
    apply (hp.removal.acts (List.Subset.refl _)).trans
    exact .head (.pending (List.nil_subset _)) (hattempts hp.again)
  · unfold processEvents at h
    rw [if_pos (by simpa using hi)] at h
    cases h
    exact .refl

/-! ## The trace grows -/

theorem closeSocket_suffix (h : SocketHandle) (m : Manager) :
    m.trace <:+ (m.closeSocket h).trace := by
  unfold Manager.closeSocket
  split
  · exact List.suffix_cons _ _
  · exact List.suffix_rfl

theorem Dials.suffix {h : SocketHandle} (hd : Dials w.mgr h m) : w.mgr.trace <:+ m.trace := by
  cases hd with
  | noSocket => exact List.suffix_cons _ _
  | refused _ => exact ⟨[_, _], rfl⟩
  | made _ => exact List.suffix_cons _ _

theorem processWrite_suffix {c : Connection} (hc : m.mConnections.lookup peer = some c) :
    m.trace <:+ (processWrite k peer c m).trace := by
  have hw := processWrite_writes (k := k) hc
  generalize processWrite k peer c m = m' at hw ⊢
  cases hw with
  | nothing _ => exact List.suffix_rfl
  | sent _ _ _ => exact List.suffix_cons _ _
  | failed _ _ => exact List.suffix_cons _ _

section

variable (hcb : ∀ peer e (w w' : World υ), cb k peer e w = some w' → w.mgr.trace <:+ w'.mgr.trace)
include hcb

theorem notify_suffix {event : ConnectionEvent}
    (h : notifyConnectionEvent cb k peer event w = some w') : w.mgr.trace <:+ w'.mgr.trace := by
  unfold notifyConnectionEvent at h
  split at h
  · exact (List.suffix_cons _ _).trans (hcb _ _ _ _ h)
  · cases h
    exact List.suffix_rfl

theorem Loses.suffix {c : Connection} (h : Loses cb k peer c w w') :
    w.mgr.trace <:+ w'.mgr.trace := by
  obtain ⟨-, m, hn, ha⟩ := h
  refine (closeSocket_suffix c.socket w.mgr).trans ((notify_suffix hcb hn).trans ?_)
  obtain ⟨d, hd, -⟩ := Option.bind_eq_some_iff.mp ha
  rcases afterLoss_cases hd ha with rfl | rfl
  · exact List.suffix_cons _ _
  · exact List.suffix_rfl

theorem Act.suffix (h : Act cb k w w') : w.mgr.trace <:+ w'.mgr.trace := by
  cases h with
  | clock _ | select => exact List.suffix_cons _ _
  | pending _ => exact List.suffix_rfl
  | retry _ _ hd => exact hd.suffix
  | reconnected _ _ _ hn => exact (List.suffix_cons _ _).trans (notify_suffix hcb hn)
  | @accepted h ip port _ _ _ hn =>
    refine List.IsSuffix.trans ?_ (notify_suffix hcb hn)
    rw [World.onMgr_mgr, Manager.enter_trace]
    exact List.suffix_cons _ _
  | parsed _ _ _ _ => exact ⟨[_, _], rfl⟩
  | stopped _ _ _ => exact List.suffix_cons _ _
  | wrote hc => exact processWrite_suffix hc
  | lost _ hl => exact hl.suffix hcb

end

/-! ## What the acts leave to the callback -/

section

variable {α : Type} {f : υ → α}
  (hcb : ∀ peer e (w w' : World υ), cb k peer e w = some w' → f w'.user = f w.user)
include hcb

theorem notify_user {event : ConnectionEvent}
    (h : notifyConnectionEvent cb k peer event w = some w') : f w'.user = f w.user := by
  unfold notifyConnectionEvent at h
  split at h
  · have hcall := hcb _ _ _ _ h
    exact hcall
  · cases h
    rfl

theorem Loses.user {c : Connection} (h : Loses cb k peer c w w') : f w'.user = f w.user := by
  obtain ⟨-, m, hn, ha⟩ := h
  have hm := notify_user hcb hn
  obtain ⟨d, hd, -⟩ := Option.bind_eq_some_iff.mp ha
  rcases afterLoss_cases hd ha with rfl | rfl
  · exact hm
  · exact hm

theorem Act.user (h : Act cb k w w') : f w'.user = f w.user := by
  cases h with
  | reconnected _ _ _ hn | accepted _ _ hn =>
    have hcall := notify_user hcb hn
    exact hcall
  | lost _ hl => exact hl.user hcb
  | _ => rfl

end

end IsaacP2P.Client
