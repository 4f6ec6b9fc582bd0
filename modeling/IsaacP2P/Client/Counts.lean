import IsaacP2P.Client.Acts
import IsaacP2P.Client.Backoff
import IsaacP2P.Client.Removals
import IsaacP2P.Client.Unread

/-!
# Counting the peers

`getPeerCount` counts the entries, `getConnectedPeers` lists those that are
connected; they agree while every entry is connected (`counts_agree_iff`). An
entry ceases to be connected where a send fails hard, which `processEvents` sets
right before it returns, and where a lost connection is kept for a reconnect. A
run in which neither happens keeps the two in agreement (`counts_agree`).
-/

namespace IsaacP2P.Client

variable {υ : Type} {cb : Callback υ} {k : Kernel} {w w' : World υ} {m m' m'' : Manager}
  {peer : PeerID} {c c' : Connection} {ids ids' S : List PeerID} {new new' : List Ev}

/-! ## The two queries -/

def AllUp (m : Manager) : Prop := ∀ p c, m.mConnections.lookup p = some c → c.connected = true

/-- With room for all the entries, the two queries return the same number. -/
def CountsAgree (m : Manager) : Prop :=
  ∀ maxCount : UInt32, m.mConnections.entries.length ≤ maxCount.toNat →
    getPeerCount m = UInt32.ofNat (getConnectedPeers true maxCount m).length

theorem allUp_iff : AllUp m ↔ ∀ e ∈ m.mConnections.entries, e.2.connected = true := by
  constructor
  · exact fun h e he => h e.1 e.2 (AList.mem_lookup_iff.mpr he)
  · exact fun h p c hc => h ⟨p, c⟩ (AList.mem_lookup_iff.mp hc)

theorem length_getConnectedPeers {maxCount : UInt32}
    (hmax : m.mConnections.entries.length ≤ maxCount.toNat) :
    (getConnectedPeers true maxCount m).length =
      (m.mConnections.entries.filter (·.2.connected)).length := by
  have hle := List.length_filter_le (fun e => e.2.connected) m.mConnections.entries
  unfold getConnectedPeers
  by_cases h0 : maxCount = 0
  · subst h0
    have hz : (0 : UInt32).toNat = 0 := rfl
    rw [if_pos (by rfl), List.length_nil]
    omega
  · rw [if_neg (by simpa using h0), List.length_take, List.length_map]
    omega

theorem counts_agree_iff {maxCount : UInt32}
    (hmax : m.mConnections.entries.length ≤ maxCount.toNat) :
    getPeerCount m = UInt32.ofNat (getConnectedPeers true maxCount m).length ↔ AllUp m := by
  have hle := List.length_filter_le (fun e => e.2.connected) m.mConnections.entries
  have hlt := maxCount.toNat_lt
  rw [getPeerCount, length_getConnectedPeers hmax, allUp_iff, ← List.length_filter_eq_length_iff,
    ← UInt32.toNat_inj, UInt32.toNat_ofNat', UInt32.toNat_ofNat', Nat.mod_eq_of_lt (by omega),
    Nat.mod_eq_of_lt (by omega)]
  exact eq_comm

theorem AllUp.countsAgree (h : AllUp m) : CountsAgree m := fun _ hmax => (counts_agree_iff hmax).mpr h

/-! ## Connections that fail -/

/-- A connection is of no use after the event. -/
def Ev.fatal : Ev → Bool
  | .send _ _ _ .fail | .except _ | .recvEnd _ | .recvFail _ => true
  | _ => false

theorem Ev.fatal_of_breaks {e : Ev} {s : SocketHandle} (h : e.breaks s = true) :
    e.fatal = true := by
  unfold Ev.breaks at h
  split at h <;> first | rfl | cases h

/-- What is not connected in `m'` was not in `m`, or failed in between and is one of
`ids`, whose removal is requested. -/
structure Downs (ids : List PeerID) (new : List Ev) (m m' : Manager) : Prop where
  pending : m'.mPendingRemove = m.mPendingRemove ++ ids
  events : m'.trace = new ++ m.trace
  entry : ∀ p c', m'.mConnections.lookup p = some c' → c'.connected = true ∨ p ∈ ids ∨
    ∃ c, m.mConnections.lookup p = some c ∧ c.connected = false
  cause : ids ≠ [] → ∃ e ∈ new, e.fatal = true

theorem Connection.up_or_down (c : Connection) : c.connected = true ∨ c.connected = false := by
  cases c.connected <;> simp

theorem Downs.of_eq (hm : m'.mConnections = m.mConnections)
    (hp : m'.mPendingRemove = m.mPendingRemove) (ht : m'.trace = new ++ m.trace) :
    Downs [] new m m' :=
  ⟨by rw [hp, List.append_nil], ht,
    fun _ c' hc' => c'.up_or_down.imp_right fun hdown => .inr ⟨c', hm ▸ hc', hdown⟩,
    fun h => absurd rfl h⟩

theorem Downs.trans (h : Downs ids new m m') (h' : Downs ids' new' m' m'') :
    Downs (ids ++ ids') (new' ++ new) m m'' := by
  refine ⟨by rw [h'.pending, h.pending, List.append_assoc],
    by rw [h'.events, h.events, List.append_assoc], fun p c'' hc'' => ?_, fun hne => ?_⟩
  · rcases h'.entry p c'' hc'' with hup | hin | ⟨c', hc', hdown⟩
    · exact .inl hup
    · exact .inr (.inl (List.mem_append_right _ hin))
    · rcases h.entry p c' hc' with hup | hin | hbefore
      · rw [hdown] at hup
        cases hup
      · exact .inr (.inl (List.mem_append_left _ hin))
      · exact .inr (.inr hbefore)
  · by_cases hids : ids = []
    · have hids' : ids' ≠ [] := fun h0 => hne (by rw [hids, h0]; rfl)
      obtain ⟨e, he, hfatal⟩ := h'.cause hids'
      exact ⟨e, List.mem_append_left _ he, hfatal⟩
    · obtain ⟨e, he, hfatal⟩ := h.cause hids
      exact ⟨e, List.mem_append_right _ he, hfatal⟩

theorem Downs.of_setConn (hc : m.mConnections.lookup peer = some c)
    (hr : m'.mConnections = m.mConnections.replace peer c')
    (hp : m'.mPendingRemove = m.mPendingRemove) (ht : m'.trace = new ++ m.trace)
    (hconn : c'.connected = c.connected) : Downs [] new m m' := by
  refine ⟨by rw [hp, List.append_nil], ht, fun p d hd => ?_, fun h => absurd rfl h⟩
  refine d.up_or_down.imp_right fun hdown => .inr ?_
  rw [hr, AssocList.lookup_replace hc] at hd
  split at hd
  · subst_vars
    cases hd
    exact ⟨c, hc, hconn ▸ hdown⟩
  · exact ⟨d, hd, hdown⟩

theorem Minor.downs (h : Minor m m') (hm : m.Settled) : ∃ ids new, Downs ids new m m' := by
  obtain ⟨new, ht, -⟩ := h.events
  cases h with
  | logged _ => exact ⟨[], new, .of_eq rfl rfl ht⟩
  | dialed hd =>
    refine ⟨[], new, .of_eq hd.mConnections_eq ?_ ht⟩
    cases hd <;> rfl
  | framed hc _ _ _ => exact ⟨[], new, .of_setConn hc rfl rfl ht rfl⟩
  | wrote hc _ _ _ => exact ⟨[], new, .of_setConn hc rfl rfl ht rfl⟩
  | parsed hc _ _ _ => exact ⟨[], new, .of_setConn hc rfl rfl ht rfl⟩
  | popped hc _ => exact ⟨[], new, .of_setConn hc rfl rfl ht rfl⟩
  | @failed peer c e old id hc _ he _ hid =>
    refine ⟨[id], e :: old, rfl, rfl, fun p d hd => ?_, fun _ =>
      ⟨e, List.mem_cons_self .., Ev.fatal_of_breaks he⟩⟩
    have hid' : id = peer := hid.elim (fun h => h) fun h => h.trans (hm peer c hc).peerID
    rcases Manager.setConn_lookup_some (m := m.logs (e :: old)) hc hd with ⟨rfl, -⟩ | ⟨-, hd⟩
    · exact .inr (.inl (List.mem_singleton.mpr hid'.symm))
    · exact d.up_or_down.imp_right fun hdown => .inr ⟨d, hd, hdown⟩
  | options _ _ _ hc => exact ⟨[], new, .of_setConn hc rfl rfl ht rfl⟩
  | initialized => exact ⟨[], new, .of_eq rfl rfl ht⟩
  | unlistened =>
    refine ⟨[], new, .of_eq ?_ ?_ ht⟩
    · rw [stopListen_eq]
    · rw [stopListen_eq]
  | listening _ _ _ => exact ⟨[], new, .of_eq rfl rfl ht⟩

theorem Minors.downs (h : Minors m m') (hm : m.Settled) : ∃ ids new, Downs ids new m m' := by
  induction h with
  | refl => exact ⟨[], [], .of_eq rfl rfl rfl⟩
  | tail hs hone ih =>
    obtain ⟨ids, new, hd⟩ := ih
    obtain ⟨ids', new', hd'⟩ := hone.downs (Minors.settled hs hm)
    exact ⟨_, _, hd.trans hd'⟩

theorem noted_events (peer : PeerID) (event : ConnectionEvent) (m : Manager) :
    ∃ new, (m.noted peer event).trace = new ++ m.trace := by
  unfold Manager.noted
  split
  · exact ⟨[.notify peer event], rfl⟩
  · exact ⟨[], rfl⟩

theorem notify_downs (hcb : Leaf cb) {event : ConnectionEvent}
    (h : notifyConnectionEvent cb k peer event w = some w') (hm : w.mgr.Settled) :
    ∃ ids new, Downs ids new w.mgr w'.mgr := by
  obtain ⟨new, ht⟩ := noted_events peer event w.mgr
  obtain ⟨ids, new', hd⟩ := (notify_pokes hcb h).minors.downs (noted_settled hm)
  have hnoted : Downs [] new w.mgr (w.mgr.noted peer event) :=
    .of_eq (Manager.noted_mConnections event w.mgr) (Manager.noted_mPendingRemove event w.mgr) ht
  exact ⟨_, _, hnoted.trans hd⟩

theorem enter_downs (s : SocketHandle) (ip : Text) (port : UInt16) (m : Manager) :
    Downs [] [] m (m.enter s ip port) := by
  refine ⟨?_, Manager.enter_trace s ip port m, fun p c hc => ?_, fun h => absurd rfl h⟩
  · rw [List.append_nil, Manager.enter_mPendingRemove]
  · rcases Manager.enter_some hc with hold | rfl
    · exact c.up_or_down.imp_right fun hdown => .inr ⟨c, hold, hdown⟩
    · exact .inl rfl

theorem entered_downs (hcb : Leaf cb) {s : SocketHandle} {e : Ev} {ip : Text} {port : UInt16}
    (hf : w.mgr.free s = true) (hm : w.mgr.Settled)
    (h : notifyConnectionEvent cb k w.mgr.mNextPeerID .connected
      (w.onMgr fun m => (m.log e).enter s ip port) = some w') :
    ∃ ids new, Downs ids new w.mgr w'.mgr := by
  have hlog : (w.mgr.log e).Settled := hm
  have hentered : ((w.mgr.log e).enter s ip port).Settled :=
    enter_settled hlog (Manager.valid_of_free hf)
  obtain ⟨ids, new, hd⟩ := notify_downs hcb h hentered
  have hlogged : Downs [] [e] w.mgr (w.mgr.log e) := .of_eq rfl rfl rfl
  exact ⟨_, _, (hlogged.trans (enter_downs s ip port _)).trans hd⟩

theorem Loses.downs (hcb : Leaf cb) (h : Loses cb k peer c w w') (hm : w.mgr.Settled)
    (hgone : w'.mgr.mConnections.lookup peer = none) : ∃ ids new, Downs ids new w.mgr w'.mgr := by
  obtain ⟨hc, m, d, hpokes, hd, hD, hend⟩ := h.cases hcb
  have htorn : (w.mgr.tearDown peer c).Settled :=
    (Step.tornDown (g := {}) hc trivial).settled hm
  obtain ⟨ids, new, hdowns⟩ := hpokes.minors.downs htorn
  obtain ⟨new', ht⟩ : ∃ new', (w.mgr.tearDown peer c).trace = new' ++ w.mgr.trace := by
    obtain ⟨new₁, h₁⟩ := closeSocket_suffix c.socket w.mgr
    obtain ⟨new₂, h₂⟩ :=
      noted_events peer .disconnected ((w.mgr.closeSocket c.socket).setConn peer c.down)
    refine ⟨new₂ ++ new₁, ?_⟩
    rw [Manager.tearDown, h₂, Manager.setConn_trace, ← h₁, List.append_assoc]
  have hw' : w'.mgr = m.erase peer := by
    rcases hend with ⟨-, he⟩ | ⟨-, he⟩
    · have hlog : (m.nowMs k).2.mConnections.lookup peer = some d := hd
      rw [he, scheduleReconnect, Manager.setConn_lookup_self hlog] at hgone
      cases hgone
    · exact he
  refine ⟨ids, new ++ new', ?_, ?_, fun p c' hc' => ?_, fun hne => ?_⟩
  · rw [hw', ← tearDown_mPendingRemove peer c w.mgr]
    exact hdowns.pending
  · rw [hw', Manager.erase_trace, hdowns.events, ht, List.append_assoc]
  · have hp : p ≠ peer := by
      rintro rfl
      rw [hgone] at hc'
      cases hc'
    rw [hw', Manager.erase_mConnections, AList.lookup_erase_ne hp] at hc'
    refine (hdowns.entry p c' hc').imp_right (Or.imp_right ?_)
    rintro ⟨c₀, hc₀, hdown⟩
    rw [Manager.tearDown_mConnections, AssocList.lookup_replace_ne hp] at hc₀
    exact ⟨c₀, hc₀, hdown⟩
  · obtain ⟨e, he, hfatal⟩ := hdowns.cause hne
    exact ⟨e, List.mem_append_left _ he, hfatal⟩

/-- Every entry is connected, or in the list `S` of removals. -/
def Pended (S : List PeerID) (m : Manager) : Prop :=
  ∀ p c, m.mConnections.lookup p = some c → c.connected = true ∨ p ∈ S

theorem AllUp.pended (h : AllUp m) : Pended S m := fun p c hc => .inl (h p c hc)

theorem Pended.allUp (h : Pended [] m) : AllUp m := fun p c hc =>
  (h p c hc).resolve_right List.not_mem_nil

theorem Pended.downs (h : Pended S m) (hd : Downs ids new m m') : Pended (S ++ ids) m' := by
  intro p c' hc'
  rcases hd.entry p c' hc' with hup | hin | ⟨c, hc, hdown⟩
  · exact .inl hup
  · exact .inr (List.mem_append_right _ hin)
  · refine .inr (List.mem_append_left _ ((h p c hc).resolve_left ?_))
    simp [hdown]

theorem Pended.pending (h : Pended m.mPendingRemove m) (hd : Downs ids new m m') :
    Pended m'.mPendingRemove m' := by
  rw [hd.pending]
  exact h.downs hd

theorem Downs.allUp (h : Downs ids new m m') (hm : AllUp m)
    (hno : ∀ e ∈ new, e.fatal = false) : AllUp m' := by
  have hids : ids = [] := by
    by_contra hne
    obtain ⟨e, he, hfatal⟩ := h.cause hne
    rw [hno e he] at hfatal
    cases hfatal
  subst hids
  exact ((AllUp.pended (S := []) hm).downs h).allUp

/-! ## Runs without such a failure -/

theorem AllUp.redials (h : AllUp w.mgr) {now : UInt64} (hr : Redials cb k now w w') : w' = w := by
  cases (Relation.ReflTransGen.cases_head hr) with
  | inl he => exact he.symm
  | inr hone =>
    obtain ⟨v, hone, -⟩ := hone
    have hdue : ∀ p c, w.mgr.mConnections.lookup p = some c → c.reconnectDue now = true → False := by
      intro p c hc hdue
      simp [Connection.reconnectDue, h p c hc] at hdue
    cases hone with
    | retry hc hd _ => exact (hdue _ _ hc hd).elim
    | reconnected hc hd _ _ => exact (hdue _ _ hc hd).elim

theorem AllUp.attemptReconnects (h : AllUp w.mgr) (ha : attemptReconnects cb k w = some w') :
    w' = w.onMgr (·.log (.clock (k.nowMs w.mgr.trace.length))) := by
  have hlog : AllUp (w.mgr.log (.clock (k.nowMs w.mgr.trace.length))) := h
  exact AllUp.redials (w := w.onMgr (·.log (.clock (k.nowMs w.mgr.trace.length)))) hlog
    (attemptReconnects_redials ha)

theorem Removal.append {front rest : List PeerID} {u v : World υ} (h : Removal cb k front u v)
    (h' : Removal cb k rest v w) : Removal cb k (front ++ rest) u w := by
  induction h with
  | done => exact h'
  | absent hc _ ih => exact .absent hc (ih h')
  | lost hl hp _ ih => exact .lost hl hp (ih h')

/-- The call tears down the connection of `peer` in the state `v`. -/
inductive Losing (cb : Callback υ) (k : Kernel) (w : World υ) (peer : PeerID) :
    Call → World υ → Prop where
  | disconnect : Losing cb k w peer (.disconnect peer) w
  | removed {front rest : List PeerID} {u v : World υ} : beforeRemoval cb k w = some u →
      u.mgr.removals = front ++ peer :: rest →
      Removal cb k front (u.onMgr fun m => m.setPending m.removals) v →
      Losing cb k w peer .processEvents v

/-- No connection that is lost has auto-reconnect once the callback has returned; and no
send fails hard, unless in `processEvents`, which deals with that itself. -/
structure Clean (cb : Callback υ) (i : Kernel × Call) (w : World υ) : Prop where
  losses : ∀ peer c v u d, Losing cb i.1 w peer i.2 v → v.mgr.mConnections.lookup peer = some c →
    reportLoss cb i.1 peer c v = some u → u.mgr.mConnections.lookup peer = some d →
    d.autoReconnect = false
  sends : i.2 ≠ .processEvents → ∀ w' new, call cb i w = some w' →
    w'.mgr.trace = new ++ w.mgr.trace → ∀ e ∈ new, e.fatal = false

theorem Loses.gone (hcb : Leaf cb) (h : Loses cb k peer c w w')
    (hflag : ∀ u d, reportLoss cb k peer c w = some u → u.mgr.mConnections.lookup peer = some d →
      d.autoReconnect = false) : w'.mgr.mConnections.lookup peer = none := by
  obtain ⟨-, u, d, hu, hd, -, ⟨hauto, -⟩ | ⟨-, he⟩⟩ := h.reported hcb
  · rw [hflag u d hu hd] at hauto
    cases hauto
  · rw [he, Manager.erase_mConnections]
    exact AList.lookup_erase peer _

/-- A round of `removeDisconnected` that keeps nothing. -/
theorem Loses.pended (hcb : Leaf cb) {rest : List PeerID} (h : Loses cb k peer c w w')
    (hm : w.mgr.Settled) (hp : Pended (peer :: rest) w.mgr)
    (hpend : w'.mgr.mPendingRemove = w.mgr.mPendingRemove)
    (hgone : w'.mgr.mConnections.lookup peer = none) : Pended rest w'.mgr := by
  obtain ⟨ids, new, hd⟩ := h.downs hcb hm hgone
  have hids : ids = [] := by
    have := hd.pending
    rw [hpend] at this
    exact List.append_cancel_left (this.symm.trans (List.append_nil _).symm)
  subst hids
  intro p c' hc'
  refine (hp.downs hd p c' hc').imp_right fun hin => ?_
  rw [List.append_nil] at hin
  apply (List.mem_cons.mp hin).resolve_left
  rintro rfl
  rw [hgone] at hc'
  cases hc'

theorem beforeRemoval_pended (hcb : Leaf cb) (hm : w.mgr.Settled) (hup : AllUp w.mgr)
    (h : beforeRemoval cb k w = some w') :
    w'.mgr.Settled ∧ Pended w'.mgr.mPendingRemove w'.mgr := by
  refine beforeRemoval_rule
    (P := fun v => v.mgr.Settled ∧ Pended v.mgr.mPendingRemove v.mgr) ?_ ?_ ?_ ?_ h
  · intro w₁ ha
    rw [hup.attemptReconnects ha]
    have hlog : AllUp (w.mgr.log (.clock (k.nowMs w.mgr.trace.length))) := hup
    exact ⟨hm, hlog.pended⟩
  · intro s ip port v v' hv hadm _
    obtain ⟨ids, new, hd⟩ := entered_downs hcb hadm.2.1 hv.1 hadm.2.2
    exact ⟨(hadm.steps (g := {}) hcb trivial).settled hv.1, hv.2.pending hd⟩
  · exact fun _ hv => hv
  · intro v m hv hs
    obtain ⟨ids, new, hd⟩ := hs.minors.downs hv.1
    exact ⟨hs.minors.settled hv.1, hv.2.pending hd⟩

theorem processEvents_allUp (hcb : Leaf cb) (hm : w.mgr.Settled) (hup : AllUp w.mgr)
    (hC : Clean cb (k, .processEvents) w) (hi : w.mgr.mInitialized = true)
    (h : processEvents cb k w = some w') : AllUp w'.mgr := by
  obtain ⟨u, v, hclean, hrem, hagain⟩ := processEvents_beforeRemoval hi h
  obtain ⟨hset, hpend⟩ := beforeRemoval_pended hcb hm hup hclean
  obtain ⟨v₁, hr, rfl⟩ := removeDisconnected_removal hrem
  -- what is not connected is still to be removed
  have hend : v₁.mgr.Settled ∧ Pended [] v₁.mgr := by
    have hfront : ∃ front, u.mgr.removals = front ++ u.mgr.removals ∧
        Removal cb k front (u.onMgr fun m => m.setPending m.removals)
          (u.onMgr fun m => m.setPending m.removals) := ⟨[], rfl, .done⟩
    have hstart : Pended u.mgr.removals u.mgr := fun p c hc =>
      (hpend p c hc).imp_right fun hin => u.mgr.pending_subset_removals hin
    have := hr.invariant (P := fun rest v => (v.mgr.Settled ∧ Pended rest v.mgr) ∧
      ∃ front, u.mgr.removals = front ++ rest ∧
        Removal cb k front (u.onMgr fun m => m.setPending m.removals) v) ?_ ?_
        ⟨⟨hset, hstart⟩, hfront⟩
    · exact this.1
    · rintro peer rest v ⟨⟨hs, hp⟩, front, he, hfront⟩ hno
      refine ⟨⟨hs, fun p c hc => (hp p c hc).imp_right fun hin => ?_⟩,
        front ++ [peer], by rw [he, List.append_assoc]; rfl, hfront.append (.absent hno .done)⟩
      apply (List.mem_cons.mp hin).resolve_left
      rintro rfl
      rw [hno] at hc
      cases hc
    · rintro peer rest c v v' ⟨⟨hs, hp⟩, front, he, hfront⟩ hl hkept
      have hgone := hl.gone hcb fun u d =>
        hC.losses peer c v u d (.removed hclean he hfront) hl.1
      exact ⟨⟨(hl.steps (g := {}) hcb trivial).settled hs, hl.pended hcb hs hp hkept hgone⟩,
        front ++ [peer], by rw [he, List.append_assoc]; rfl,
        hfront.append (.lost hl hkept .done)⟩
  have hall : AllUp (v₁.onMgr (·.setPending [])).mgr := hend.2.allUp
  rw [hall.attemptReconnects hagain]
  exact hall

theorem call_allUp (hcb : Leaf cb) (i : Kernel × Call) (w w' : World υ)
    (hw : w.mgr.Settled ∧ AllUp w.mgr) (hC : Clean cb i w) (h : call cb i w = some w') :
    w'.mgr.Settled ∧ AllUp w'.mgr := by
  refine ⟨call_settled hcb i w w' hw.1 h, ?_⟩
  obtain ⟨k, op⟩ := i
  by_cases hop : op = .processEvents
  · subst hop
    cases hi : w.mgr.mInitialized with
    | true => exact processEvents_allUp hcb hw.1 hw.2 hC hi h
    | false =>
      have hsame : some w = some w' := (processEvents_uninitialized hi).symm.trans h
      cases hsame
      exact hw.2
  · have hquiet : ∀ {ids new}, Downs ids new w.mgr w'.mgr → AllUp w'.mgr :=
      fun hd => hd.allUp hw.2 (hC.sends hop w' _ h hd.events)
    cases call_does h with
    | minors hm _ =>
      obtain ⟨ids, new, hd⟩ := Minors.downs hm hw.1
      exact hquiet hd
    | connected hf _ hn _ =>
      obtain ⟨ids, new, hd⟩ := entered_downs hcb hf hw.1 hn
      exact hquiet hd
    | disconnected hl =>
      have hgone := hl.gone hcb fun u d => hC.losses _ _ _ u d .disconnect hl.1
      obtain ⟨ids, new, hd⟩ := hl.downs hcb hw.1 hgone
      exact hquiet hd
    | processed _ _ => exact absurd rfl hop
    | shutdown =>
      intro p c hc
      rw [World.onMgr_mgr, shutdown_mConnections] at hc
      split at hc
      · simp at hc
      · exact hw.2 p c hc

/-- **The counts agree** in every state of a run in which no send of a call fails
hard and no lost connection is kept. -/
theorem counts_agree (hcb : Leaf cb) {callback : Bool} {user : υ} {is : List (Kernel × Call)}
    (hC : Runs.Meets (call cb) (Clean cb) is (fresh callback user))
    (h : Runs.run (call cb) is (fresh callback user) = some w) : CountsAgree w.mgr := by
  have hend := Runs.run_invariant_of_meets (call_allUp hcb)
    ⟨fresh_settled callback user, fun p c hc => by simp [fresh] at hc⟩ hC h
  exact hend.2.countsAgree

/-- Of two peers the first closes the connection. -/
def oneLeavesRun : List (Kernel × Call) :=
  [.initializeManager, .connect (some ['h']) 1, .connect (some ['h']) 1,
    .processEvents].map (calmKernel, ·)

theorem oneLeavesRun_counts :
    ∃ w, Runs.run (call ignore) oneLeavesRun (fresh true ()) = some w ∧ CountsAgree w.mgr ∧
      getPeerCount w.mgr = 1 ∧ getConnectedPeers true 2 w.mgr = [2] := by
  have hlast : (Runs.run (call ignore) oneLeavesRun (fresh true ())).map (fun w =>
      (getPeerCount w.mgr, getConnectedPeers true 2 w.mgr)) = some (1, [2]) := by decide +kernel
  obtain ⟨w, hr, hlast⟩ := Option.map_eq_some_iff.mp hlast
  have hplain : Runs.Meets (call ignore) (fun i v => i.2.tearsNothing = true ∧
      (∀ u ∈ beforeRemoval ignore i.1 v, u.mgr.removals.length ≤ 1 ∧
        ∀ e ∈ u.mgr.mConnections.entries, e.2.autoReconnect = false) ∧
      (i.2 ≠ .processEvents → ∀ v' ∈ call ignore i v, ∀ e ∈ v'.mgr.trace, e.fatal = false))
      oneLeavesRun (fresh true ()) := by decide +kernel
  refine ⟨w, hr, counts_agree ignore_mute.leaf (hplain.imp fun (k, op) v ⟨hop, hone, hev⟩ => ?_) hr,
    congrArg Prod.fst hlast, congrArg Prod.snd hlast⟩
  refine ⟨fun peer c u v' d hlosing hc hrep hd => ?_, fun hne v' new hv' ht e he => ?_⟩
  · dsimp only at hlosing hop
    cases hlosing with
    | disconnect => cases hop
    | @removed front rest u _ hu hids hfront =>
      obtain ⟨hlen, hflag⟩ := hone u hu
      obtain rfl : front = [] := by
        rw [hids, List.length_append, List.length_cons] at hlen
        exact List.eq_nil_of_length_eq_zero (by omega)
      cases hfront
      have hmgr := notify_mute ignore_mute hrep
      rw [hmgr, Manager.noted_mConnections, World.onMgr_mgr, Manager.setConn_mConnections,
        Manager.closeSocket_mConnections, AssocList.lookup_replace_self _
        (AssocList.mem_of_lookup hc)] at hd
      cases hd
      exact hflag ⟨peer, c⟩ (AList.mem_lookup_iff.mp hc)
  · exact hev hne v' hv' e (ht ▸ List.mem_append_left _ he)

/-- A peer with auto-reconnect is disconnected. -/
theorem disconnected_peer_counted :
    ∃ w, Runs.run (call ignore) (droppedRun 500 10000 |>.take 4) (fresh true ()) = some w ∧
      ¬ CountsAgree w.mgr := by
  have hlast : (Runs.run (call ignore) (droppedRun 500 10000 |>.take 4) (fresh true ())).map
      (fun w => (w.mgr.mConnections.entries.length, getPeerCount w.mgr,
        getConnectedPeers true 1 w.mgr)) = some (1, 1, []) := by decide +kernel
  obtain ⟨w, hr, hlast⟩ := Option.map_eq_some_iff.mp hlast
  simp only [Prod.mk.injEq] at hlast
  obtain ⟨hlen, hcount, hpeers⟩ := hlast
  refine ⟨w, hr, fun hagree => ?_⟩
  have h := hagree 1 (by rw [hlen]; decide)
  rw [hcount, hpeers] at h
  cases h

end IsaacP2P.Client
