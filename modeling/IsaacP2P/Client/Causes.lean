import IsaacP2P.Client.Reports
import IsaacP2P.Client.CleanLinks

/-!
# Why a connection is torn down

`broken h` says that since `h` was obtained a call on it has failed, its stream
has ended, or `select()` has reported an exception. A peer in `m_pendingRemove`
has a broken socket or none (`Marked`), so `removeDisconnected` closes broken
sockets only. This rests on `attemptReconnects` giving no new socket to a peer
that is still in the list, which it does not check (`staleRemoval_closes`).
-/

namespace IsaacP2P.Client

variable {υ : Type} {cb : Callback υ} {k : Kernel} {w w' : World υ} {m m' : Manager} {peer : PeerID}
  {s : SocketHandle} {c : Connection} {g : Guard}

/-- Since the socket was obtained something happened that makes it useless. -/
def broken (h : SocketHandle) : List Ev → Bool
  | [] => false
  | .socket g :: tr => if g = h then false else broken h tr
  | .accept g :: tr => if g = h then false else broken h tr
  | e :: tr => e.breaks h || broken h tr

theorem broken_cons {e : Ev} (hno : ¬ e.Obtains s) (tr : List Ev) :
    broken s (e :: tr) = (e.breaks s || broken s tr) := by
  cases e with
  | socket g =>
    have hg : ¬ g = s := fun h => hno (.inl (by rw [h]))
    simp [broken, Ev.breaks, hg]
  | accept g =>
    have hg : ¬ g = s := fun h => hno (.inr (by rw [h]))
    simp [broken, Ev.breaks, hg]
  | _ => rfl

/-- What is broken stays so until the handle is obtained again. -/
theorem broken_append {new tr : List Ev} (hnew : ∀ e ∈ new, ¬ e.Obtains s)
    (h : broken s tr = true) : broken s (new ++ tr) = true := by
  induction new with
  | nil => exact h
  | cons e new ih =>
    rw [List.cons_append, broken_cons (hnew e (List.mem_cons_self ..)),
      ih fun e he => hnew e (List.mem_cons_of_mem _ he), Bool.or_true]

theorem broken_of_breaks {e : Ev} (he : e.breaks s = true) (tr : List Ev) :
    broken s (e :: tr) = true := by
  have hno : ¬ e.Obtains s := by
    rintro (rfl | rfl) <;> cases he
  rw [broken_cons hno, he, Bool.true_or]

/-- The socket of a pending peer is broken. -/
def Marked (m : Manager) : Prop :=
  ∀ p ∈ m.mPendingRemove, ∀ h, m.held (.entry p) = some h → broken h m.trace = true

/-! ## What the steps mark -/

theorem Handles.obtains_free {leaky : Prop} (h : Handles leaky m m') :
    ∃ new, m'.trace = new ++ m.trace ∧
      ∀ e ∈ new, ∀ g, e.Obtains g → g = invalidSocketHandle ∨ m.free g = true := by
  have hquiet : ∀ {new : List Ev}, (∀ e ∈ new, e.quiet = true) → ∀ e ∈ new, ∀ g,
      e.Obtains g → g = invalidSocketHandle ∨ m.free g = true := by
    intro new hq e he g hg
    have hqe := hq e he
    rcases hg with rfl | rfl
    · exact .inl (by simpa [Ev.quiet] using hqe)
    · cases hqe
  have hone : ∀ {e : Ev} {h : SocketHandle}, e.Obtains h → m.free h = true → ∀ g,
      e.Obtains g → g = invalidSocketHandle ∨ m.free g = true := by
    rintro e h (rfl | rfl) hf g (hg | hg) <;> cases hg <;> exact .inr hf
  cases h with
  | keeps new _ ht hq => exact ⟨new, ht, hquiet hq⟩
  | @dials h _ hf ht =>
    refine ⟨[.close h, .socket h], ht, fun e he g hg => ?_⟩
    rcases List.mem_pair.mp he with rfl | rfl
    · rcases hg with hg | hg <;> cases hg
    · exact hone (.inl rfl) hf g hg
  | @obtains p h e new _ hf _ ho ht hq | @loses h e new _ hf _ ho ht hq =>
    refine ⟨new ++ [e], by rw [ht, List.append_assoc]; rfl, fun e' he' => ?_⟩
    rcases List.mem_append.mp he' with he' | he'
    · exact hquiet hq e' he'
    · rw [List.mem_singleton.mp he']
      exact hone ho hf
  | @releases p h new _ _ ht hq =>
    refine ⟨new ++ [Ev.close h], by rw [ht, List.append_assoc]; rfl, fun e' he' => ?_⟩
    rcases List.mem_append.mp he' with he' | he'
    · exact hquiet hq e' he'
    · rw [List.mem_singleton.mp he']
      rintro g (hg | hg) <;> cases hg

theorem Handles.broken {leaky : Prop} (h : Handles leaky m m') (hm : Apart m) {p : Place}
    (hp : m.held p = some s) (hb : broken s m.trace = true) : broken s m'.trace = true := by
  obtain ⟨new, ht, hnew⟩ := h.obtains_free
  rw [ht]
  refine broken_append (fun e he ho => ?_) hb
  have hopen := hm.2.isOpen hp
  rcases hnew e he s ho with rfl | hf
  · simp [opened] at hopen
  · rw [opened_of_free hf] at hopen
    cases hopen

/-- No peer becomes pending, and none that is gets a socket. -/
theorem Marked.mono {leaky : Prop} (h : Marked m) (hm : Apart m) (hs : Handles leaky m m')
    (hpend : m'.mPendingRemove ⊆ m.mPendingRemove)
    (hheld : ∀ p ∈ m'.mPendingRemove, ∀ s, m'.held (.entry p) = some s →
      m.held (.entry p) = some s) : Marked m' := by
  intro p hp s hps
  have hold := hheld p hp s hps
  exact hs.broken hm hold (h p (hpend hp) s hold)

theorem eq_of_holding {h : SocketHandle} (hh : holding h = some s) : h = s := by
  unfold holding at hh
  split at hh
  · cases hh
  · cases hh
    rfl

theorem Minor.marked (h : Minor m m') (hm : Apart m) (hmk : Marked m) : Marked m' := by
  have hh : Handles True m m' := h.handles
  have hkeep : m'.mPendingRemove ⊆ m.mPendingRemove → Marked m' := fun hpend =>
    hmk.mono hm hh hpend fun p _ s hs => (h.altered.held_eq p).symm.trans hs
  cases h with
  | @failed peer c e old id hc _ he hold hid =>
    intro p hp s hs
    have hsame : (((m.logs (e :: old)).setConn peer { c with connected := false }).pushPending
        id).held = m.held := held_same hc rfl rfl rfl
    have hheld : m.held (.entry p) = some s := by
      rw [← hsame]
      exact hs
    rcases List.mem_append.mp hp with hp | hp
    · exact hh.broken hm hheld (hmk p hp s hheld)
    · -- the peer that fails is the one that is marked
      have hpeer : p = peer := by
        rw [List.mem_singleton.mp hp]
        rcases hid with hid | hid
        · exact hid
        · exact hid.trans (hm.1 peer c hc).peerID
      rw [hpeer, held_entry hc] at hheld
      rw [← eq_of_holding hheld]
      exact broken_of_breaks he _
  | dialed hd => exact hkeep (by cases hd <;> exact List.Subset.refl _)
  | unlistened =>
    apply hkeep
    rw [stopListen_eq]
    exact List.Subset.refl _
  | _ => exact hkeep (List.Subset.refl _)

/-- No pending peer gets a new socket, be it under its ID or in its entry. -/
def unmarked : Guard where
  enters m := m.mNextPeerID ∉ m.mPendingRemove
  revives m p := p ∉ m.mPendingRemove

theorem Step.marked (h : Step unmarked m m') (hm : Apart m) (hmk : Marked m) : Marked m' := by
  have hh : Handles True m m' := h.handles (fun _ _ _ => trivial) hm.1
  cases h with
  | minor hmin => exact hmin.marked hm hmk
  | @entered s e ip port he hf hnew =>
    have hnew' : m.mNextPeerID ∉ m.mPendingRemove := hnew
    obtain ⟨-, -, -, hheld⟩ := noted_quiet m.mNextPeerID .connected ((m.log e).enter s ip port)
    have hpend : (((m.log e).enter s ip port).noted m.mNextPeerID .connected).mPendingRemove =
        m.mPendingRemove := by
      rw [Manager.noted_mPendingRemove, Manager.enter_mPendingRemove, Manager.log_mPendingRemove]
    refine hmk.mono hm hh (by rw [hpend]; exact List.Subset.refl _) fun p hp h hs => ?_
    rw [hpend] at hp
    rw [hheld] at hs
    have hp' : p ≠ m.mNextPeerID := fun he => hnew' (he ▸ hp)
    by_cases hin : m.mNextPeerID ∈ m.mConnections
    · have hc := Manager.enter_mConnections s ip port (m.log e)
      rw [if_pos (by exact hin)] at hc
      rw [← hs]
      show (m.mConnections.lookup p).bind _ =
        (((m.log e).enter s ip port).mConnections.lookup p).bind _
      rw [hc]
      rfl
    · rwa [held_enter (Manager.valid_of_free hf) hin,
        Function.update_of_ne (by simpa using hp')] at hs
  | @reconnected peer c s now hc _ hf hno =>
    have hno' : peer ∉ m.mPendingRemove := hno
    obtain ⟨-, -, -, hheld⟩ := noted_quiet peer .connected
      ((m.log (.socket s)).setConn peer (c.reconnected s))
    have hpend : (((m.log (.socket s)).setConn peer (c.reconnected s)).noted peer
        .connected).mPendingRemove = m.mPendingRemove := Manager.noted_mPendingRemove _ _
    refine hmk.mono hm hh (by rw [hpend]; exact List.Subset.refl _) fun p hp h hs => ?_
    rw [hpend] at hp
    have hp' : p ≠ peer := fun he => hno' (he ▸ hp)
    rwa [hheld, held_reconnected (Manager.valid_of_free hf) hc,
      Function.update_of_ne (by simpa using hp')] at hs
  | @tornDown peer c hc _ =>
    obtain ⟨-, -, -, hheld⟩ := noted_quiet peer .disconnected
      ((m.closeSocket c.socket).setConn peer c.down)
    have hpend : (m.tearDown peer c).mPendingRemove = m.mPendingRemove := by
      rw [Manager.tearDown, Manager.noted_mPendingRemove, Manager.setConn_mPendingRemove,
        Manager.closeSocket_mPendingRemove]
    refine hmk.mono hm hh (by rw [hpend]; exact List.Subset.refl _) fun p _ h hs => ?_
    rw [Manager.tearDown, hheld, held_down hc] at hs
    by_cases hp : p = peer
    · subst hp
      rw [Function.update_self] at hs
      cases hs
    · rwa [Function.update_of_ne (by simpa using hp)] at hs
  | @scheduled peer c attempt next hc _ =>
    have hheld : (m.setConn peer (c.scheduled attempt next)).held = m.held :=
      held_same hc rfl rfl rfl
    exact hmk.mono hm hh (List.Subset.refl _) fun p _ h hs => by rwa [hheld] at hs
  | @erased peer c hc hD =>
    have hheld : (m.erase peer).held = m.held := by
      rw [held_erase, ← held_down_entry hc hD.1, Function.update_eq_self]
    exact hmk.mono hm hh (List.Subset.refl _) fun p _ h hs => by rwa [hheld] at hs
  | pending hsub => exact hmk.mono hm hh hsub fun _ _ _ hs => hs

/-! ## The retries before the removals -/

/-- No pending peer is due for a reconnect. -/
def NotDue (now : UInt64) (m : Manager) : Prop :=
  ∀ p ∈ m.mPendingRemove, ∀ c, m.mConnections.lookup p = some c → c.reconnectDue now = false

theorem reconnectDue_of_zero {now : UInt64} (h : c.nextReconnectAtMs = 0) :
    c.reconnectDue now = false := by
  simp [Connection.reconnectDue, h]

theorem Alters.notDue {pending : List PeerID} {c' : Connection} {now : UInt64}
    (h : Alters peer pending c c') (hs : Settled peer c) (hno : c.reconnectDue now = false) :
    c'.reconnectDue now = false := by
  cases h with
  | same => exact hno
  | filled _ _ _ _ => exact hno
  | failed hlive _ _ => exact reconnectDue_of_zero (hs.up (hs.live (hlive.imp_right .inl)))
  | options _ _ _ => exact reconnectDue_of_zero rfl

theorem Minor.notDue {now : UInt64} (h : Minor m m') (hm : m.Settled) (hno : NotDue now m) :
    NotDue now m' := by
  intro p hp c' hc'
  obtain ⟨c, hc, ha⟩ : ∃ c, m.mConnections.lookup p = some c ∧ Alters p m'.mPendingRemove c c' := by
    rcases h.altered p with ⟨-, hnone⟩ | ⟨c, d, hc, hd, ha⟩
    · rw [hc'] at hnone
      cases hnone
    · rw [hc'] at hd
      cases hd
      exact ⟨c, hc, ha⟩
  have hkeep : p ∈ m.mPendingRemove → c'.reconnectDue now = false :=
    fun hp => ha.notDue (hm p c hc) (hno p hp c hc)
  cases h with
  | @failed peer d e old id hd hlive _ _ hid =>
    rcases List.mem_append.mp hp with hp | hp
    · exact hkeep hp
    · have hpeer : p = peer := by
        rw [List.mem_singleton.mp hp]
        rcases hid with hid | hid
        · exact hid
        · exact hid.trans (hm peer d hd).peerID
      subst hpeer
      have hset := hm p d hd
      have hc'' : (((m.logs (e :: old)).setConn p { d with connected := false })).mConnections.lookup
          p = some c' := hc'
      have hd' : (m.logs (e :: old)).mConnections.lookup p = some d := hd
      rw [Manager.setConn_lookup_self hd'] at hc''
      cases hc''
      exact reconnectDue_of_zero (hset.up (hset.live (hlive.imp_right .inl)))
  | dialed hd => exact hkeep (by cases hd <;> exact hp)
  | unlistened =>
    rw [stopListen_eq] at hp
    exact hkeep hp
  | _ => exact hkeep hp

theorem Minors.notDue {now : UInt64} (h : Minors m m') (hm : m.Settled) (hno : NotDue now m) :
    NotDue now m' := by
  induction h with
  | refl => exact hno
  | tail hms hs ih => exact hs.notDue (Minors.settled hms hm) ih

theorem Redial.unmarked_steps (hcb : Leaf cb) {now : UInt64} (h : Redial cb k now w w')
    (hno : NotDue now w.mgr) : Steps unmarked w.mgr w'.mgr :=
  h.steps hcb fun p c hc hdue hp => by
    rw [hno p hp c hc] at hdue
    cases hdue

theorem Redial.notDue (hcb : Leaf cb) {now : UInt64} (h : Redial cb k now w w')
    (hm : w.mgr.Settled) (hno : NotDue now w.mgr) : NotDue now w'.mgr := by
  have hother : ∀ {peer c} {m m' : Manager} {c' : Connection},
      w.mgr.mConnections.lookup peer = some c → c.reconnectDue now = true →
      m.mConnections = w.mgr.mConnections → m.mPendingRemove = w.mgr.mPendingRemove →
      m'.mConnections = m.mConnections.replace peer c' → m'.mPendingRemove = m.mPendingRemove →
      NotDue now m' := by
    intro peer c m m' c' hc hdue hmc hmp hr hp p hpp d hd
    rw [hp, hmp] at hpp
    rw [hr, hmc, AssocList.lookup_replace hc] at hd
    split at hd
    · subst_vars
      rw [hno _ hpp c hc] at hdue
      cases hdue
    · exact hno p hpp d hd
  cases h with
  | @retry peer c m hc hdue hd =>
    exact hother hc hdue hd.mConnections_eq (by cases hd <;> rfl) rfl rfl
  | @reconnected peer c s w' hc hdue hf hn =>
    have hset : ((w.mgr.log (.socket s)).setConn peer (c.reconnected s)).Settled := by
      have hlog : (w.mgr.log (.socket s)).Settled := hm
      exact hlog.setConn hc ((hm peer c hc).reconnected (Manager.valid_of_free hf)) rfl
    have hnd : NotDue now ((w.mgr.log (.socket s)).setConn peer (c.reconnected s)) :=
      hother (m := w.mgr.log (.socket s)) hc hdue rfl rfl rfl rfl
    refine (notify_pokes hcb hn).minors.notDue (noted_settled hset) fun p hp d hd => ?_
    rw [Manager.noted_mPendingRemove] at hp
    rw [Manager.noted_mConnections] at hd
    exact hnd p hp d hd

theorem attemptReconnects_unmarked (hcb : Leaf cb) (hm : w.mgr.Settled)
    (hno : NotDue (k.nowMs w.mgr.trace.length) w.mgr) (h : attemptReconnects cb k w = some w') :
    Steps unmarked w.mgr w'.mgr := by
  have hend := attemptReconnects_rule
    (P := fun v => Steps unmarked w.mgr v.mgr ∧ v.mgr.Settled ∧
      NotDue (k.nowMs w.mgr.trace.length) v.mgr)
    ⟨.single (.minor (.logged rfl)), hm, hno⟩
    (fun v v' hv hr => ⟨hv.1.trans (hr.unmarked_steps hcb hv.2.2),
      (hr.unmarked_steps hcb hv.2.2).settled hv.2.1, hr.notDue hcb hv.2.1 hv.2.2⟩) h
  exact hend.1

/-! ## The removals -/

/-- An event that neither obtains nor closes anything. -/
def Ev.still : Ev → Bool
  | .socket _ | .accept _ | .close _ => false
  | _ => true

theorem Poke.still (h : Poke k m m') :
    ∃ new, m'.trace = new ++ m.trace ∧ ∀ e ∈ new, e.still = true := by
  cases h with
  | sendPacket peer data =>
    have hs := sendPacket_sends k peer data m
    generalize (Client.sendPacket k peer data m).1 = b at hs
    generalize (Client.sendPacket k peer data m).2 = m' at hs ⊢
    cases hs with
    | refused _ => exact ⟨[], rfl, by simp⟩
    | sent _ _ _ _ => exact ⟨[_, _], rfl, by simp [Ev.still]⟩
    | failed _ _ => exact ⟨[_, _], rfl, by simp [Ev.still]⟩
  | readPacket peer buffer size =>
    exact ⟨[], (readPacket_pops peer buffer size m).trace_eq, by simp⟩
  | setAutoReconnect peer enable b x =>
    refine ⟨[], ?_, by simp⟩
    unfold Client.setAutoReconnect
    split <;> rfl

theorem Pokes.still (h : Pokes k m m') :
    ∃ new, m'.trace = new ++ m.trace ∧ ∀ e ∈ new, e.still = true := by
  induction h with
  | refl => exact ⟨[], rfl, by simp⟩
  | tail _ hp ih =>
    obtain ⟨new, ht, hnew⟩ := ih
    obtain ⟨new', ht', hnew'⟩ := hp.still
    exact ⟨new' ++ new, by rw [ht', ht, List.append_assoc],
      List.forall_mem_append.mpr ⟨hnew', hnew⟩⟩

theorem Loses.closes (hcb : Leaf cb) (h : Loses cb k peer c w w') :
    ∃ new, w'.mgr.trace = new ++ (w.mgr.closeSocket c.socket).trace ∧
      ∀ e ∈ new, e.still = true := by
  obtain ⟨-, m, d, hp, -, -, hend⟩ := h.cases hcb
  obtain ⟨new, ht, hnew⟩ := hp.still
  have hnoted : ∃ old, (w.mgr.tearDown peer c).trace =
      old ++ (w.mgr.closeSocket c.socket).trace ∧ ∀ e ∈ old, e.still = true := by
    unfold Manager.tearDown Manager.noted
    split
    · exact ⟨[.notify peer .disconnected], rfl, by simp [Ev.still]⟩
    · exact ⟨[], rfl, by simp⟩
  obtain ⟨old, ho, hold⟩ := hnoted
  have hm : m.trace = (new ++ old) ++ (w.mgr.closeSocket c.socket).trace := by
    rw [ht, ho, List.append_assoc]
  have hstill : ∀ e ∈ new ++ old, e.still = true := List.forall_mem_append.mpr ⟨hnew, hold⟩
  rcases hend with ⟨-, he⟩ | ⟨-, he⟩
  · refine ⟨.clock (k.nowMs m.trace.length) :: (new ++ old), ?_, fun e hmem => ?_⟩
    · rw [he, List.cons_append, ← hm]
      rfl
    · rcases List.mem_cons.mp hmem with rfl | hmem
      · rfl
      · exact hstill e hmem
  · exact ⟨new ++ old, by rw [he, ← hm]; rfl, hstill⟩

/-- Since the trace `old` only broken sockets were closed. -/
def OnlyBroken (old tr : List Ev) : Prop :=
  ∀ h before, (.close h :: before) <:+ tr → old <:+ before → broken h before = true

theorem OnlyBroken.still {old new tr : List Ev} (h : OnlyBroken old tr)
    (hnew : ∀ e ∈ new, e.still = true) : OnlyBroken old (new ++ tr) := by
  induction new with
  | nil => exact h
  | cons e new ih =>
    intro g before hsuf hold
    rcases List.suffix_cons_iff.mp hsuf with he | hsuf
    · cases he
      have := hnew _ (List.mem_cons_self ..)
      cases this
    · exact ih (fun e he => hnew e (List.mem_cons_of_mem _ he)) g before hsuf hold

theorem OnlyBroken.close {old tr : List Ev} (h : OnlyBroken old tr) (hs : broken s tr = true) :
    OnlyBroken old (.close s :: tr) := by
  intro g before hsuf hold
  rcases List.suffix_cons_iff.mp hsuf with he | hsuf
  · cases he
    exact hs
  · exact h g before hsuf hold

theorem not_obtains_of_still {e : Ev} (he : e.still = true) : ¬ e.Obtains s := by
  rintro (rfl | rfl) <;> cases he

/-- **`removeDisconnected` closes broken sockets only**, if the pending peers have
no others. -/
theorem removeDisconnected_onlyBroken (hcb : Leaf cb) (hmk : Marked w.mgr)
    (h : removeDisconnected cb k w = some w') : OnlyBroken w.mgr.trace w'.mgr.trace := by
  obtain ⟨v, hr, rfl⟩ := removeDisconnected_removal h
  have hend := hr.invariant (P := fun rest v => OnlyBroken w.mgr.trace v.mgr.trace ∧ rest.Nodup ∧
      ∀ p ∈ rest, ∀ h, v.mgr.held (.entry p) = some h → broken h v.mgr.trace = true)
    (fun _ _ _ hv _ => ⟨hv.1, hv.2.1.of_cons, fun p hp => hv.2.2 p (List.mem_cons_of_mem _ hp)⟩)
    (fun peer rest c v v' hv hl _ => ?_)
    ⟨fun g before hsuf hold => ?_, w.mgr.removals_nodup,
      fun p hp => hmk p (w.mgr.removals_subset hp)⟩
  · exact hend.1
  · obtain ⟨honly, hnodup, hrest⟩ := hv
    obtain ⟨new, ht, hnew⟩ := hl.closes hcb
    have hclosed : OnlyBroken w.mgr.trace (v.mgr.closeSocket c.socket).trace := by
      unfold Manager.closeSocket
      split
      · rename_i hs
        refine honly.close (hrest peer (List.mem_cons_self ..) c.socket ?_)
        rw [held_entry hl.1, holding_valid (by simpa using hs)]
      · exact honly
    refine ⟨by rw [ht]; exact hclosed.still hnew, hnodup.of_cons, fun p hp s hs => ?_⟩
    have hne : p ≠ peer := fun he => (List.nodup_cons.mp hnodup).1 (he ▸ hp)
    rw [hl.held_of_ne hcb hne] at hs
    have hb := hrest p (List.mem_cons_of_mem _ hp) s hs
    rw [ht]
    refine broken_append (fun e he => not_obtains_of_still (hnew e he)) ?_
    unfold Manager.closeSocket
    split
    · exact hb
    · exact hb
  · have hlen := hsuf.length_le
    have := hold.length_le
    simp only [World.onMgr_mgr, Manager.setPending, List.length_cons] at hlen
    omega

/-! ## Runs -/

/-- Every socket that `removeDisconnected` closes in the call is broken. -/
def TearsForCause (cb : Callback υ) (i : Kernel × Call) (w : World υ) : Prop :=
  i.2 = .processEvents → ∀ v v', beforeRemoval cb i.1 w = some v →
    removeDisconnected cb i.1 v = some v' → OnlyBroken v.mgr.trace v'.mgr.trace

/-- The call gives no new socket to a peer in `m_pendingRemove`: none is due when
`processEvents` begins, and no new ID is in the list. -/
structure Cautious (cb : Callback υ) (i : Kernel × Call) (w : World υ) : Prop where
  fresh : ∀ s ip port m, HandsOut cb i.1 w s ip port i.2 m → m.mNextPeerID ∉ m.mPendingRemove
  due : i.2 = .processEvents → NotDue (i.1.nowMs w.mgr.trace.length) w.mgr

theorem beforeRemoval_unmarked (hcb : Leaf cb) (hm : w.mgr.Settled)
    (hi : Cautious cb (k, .processEvents) w) (h : beforeRemoval cb k w = some w') :
    Steps unmarked w.mgr w'.mgr :=
  beforeRemoval_steps hcb hi.fresh
    (fun _ ha => attemptReconnects_unmarked hcb hm (hi.due rfl) ha) h

theorem call_unmarked (hcb : Leaf cb) {i : Kernel × Call} (hm : w.mgr.Settled)
    (hi : Cautious cb i w) (h : call cb i w = some w') :
    Steps unmarked w.mgr w'.mgr ∨ w' = w.onMgr shutdown := by
  obtain ⟨k, op⟩ := i
  cases call_does h with
  | minors hmin _ => exact .inl hmin.steps
  | connected hf hho hn _ =>
    exact .inl (.head (.entered (.inl rfl) hf (hi.fresh _ _ _ _ hho)) (notify_steps hcb hn))
  | disconnected hl => exact .inl (hl.steps hcb trivial)
  | processed hinit hp =>
    obtain ⟨v, v', hv, hrem, hagain⟩ := processEvents_beforeRemoval hinit hp
    have hfirst := beforeRemoval_unmarked hcb hm hi hv
    have hsecond : Steps unmarked v.mgr v'.mgr :=
      removeDisconnected_steps hcb (fun _ _ => trivial) hrem
    have hempty : v'.mgr.mPendingRemove = [] := by
      obtain ⟨v₁, -, rfl⟩ := removeDisconnected_removal hrem
      rfl
    have hlast := attemptReconnects_unmarked hcb (hsecond.settled (hfirst.settled hm))
      (fun p hp => by rw [hempty] at hp; cases hp) hagain
    exact .inl (hfirst.trans (hsecond.trans hlast))
  | shutdown => exact .inr rfl

theorem Steps.marked (h : Steps unmarked m m') (hm : Apart m) (hmk : Marked m) : Marked m' := by
  have := h.invariant (P := fun v => Apart v ∧ Marked v)
    (fun _ _ hv hs => ⟨hs.apart hv.1, hs.marked hv.1 hv.2⟩) ⟨hm, hmk⟩
  exact this.2

theorem Sockets.apart (h : Sockets m) : Apart m := ⟨h.settled, h.holds⟩

theorem call_marked (hcb : Leaf cb) (i : Kernel × Call) (w w' : World υ)
    (hw : Sockets w.mgr ∧ Marked w.mgr) (hi : Cautious cb i w) (h : call cb i w = some w') :
    Sockets w'.mgr ∧ Marked w'.mgr := by
  refine ⟨call_sockets hcb i w w' hw.1 h, ?_⟩
  rcases call_unmarked hcb hw.1.settled hi h with hs | rfl
  · exact hs.marked hw.1.apart hw.2
  · intro p hp s hs
    obtain ⟨-, -, -, -, hnone⟩ := shutdown_handled True hw.1.ready
    rw [World.onMgr_mgr, hnone] at hs
    cases hs

theorem call_tearsForCause (hcb : Leaf cb) (i : Kernel × Call) (w : World υ)
    (hw : Sockets w.mgr ∧ Marked w.mgr) (hi : Cautious cb i w) : TearsForCause cb i w := by
  obtain ⟨k, op⟩ := i
  intro hop v v' hv hrem
  dsimp only at hop
  subst hop
  exact removeDisconnected_onlyBroken hcb
    ((beforeRemoval_unmarked hcb hw.1.settled hi hv).marked hw.1.apart hw.2) hrem

/-- **A connection is torn down for cause** in every run that gives no new socket
to a peer whose removal is pending. -/
theorem removals_for_cause (hcb : Leaf cb) {callback : Bool} {user : υ}
    {is : List (Kernel × Call)} (hC : Runs.Meets (call cb) (Cautious cb) is (fresh callback user)) :
    Runs.Meets (call cb) (TearsForCause cb) is (fresh callback user) :=
  hC.of_meets (call_marked hcb) (call_tearsForCause hcb)
    ⟨fresh_sockets callback user, fun p hp => by simp [fresh] at hp⟩

instance NotDue.decidable (now : UInt64) (m : Manager) : Decidable (NotDue now m) :=
  List.decidableBAll (fun p => ∀ c ∈ m.mConnections.lookup p, c.reconnectDue now = false)
    m.mPendingRemove

/-- Nobody is waiting to be accepted, and the other end closes the connection on 10. -/
def calmKernel : Kernel where
  nowMs _ := 1000
  socket n := UInt64.ofNat (n + 10)
  select _ := { readable := fun h => h == 10 }
  recv _ h := ([], if h == 10 then .closed else .again)

/-- A connection is lost, and made again. -/
def calmRun : List (Kernel × Call) :=
  [.initializeManager, .connect (some ['h']) 1, .setAutoReconnect 1 true 0 0,
    .processEvents].map (calmKernel, ·)

theorem calmRun_tearsForCause :
    Runs.Meets (call ignore) (TearsForCause ignore) calmRun (fresh true ()) := by
  have hplain : Runs.Meets (call ignore) (fun i v =>
      (∀ w₁ ∈ attemptReconnects ignore i.1 v, i.1.accept w₁.mgr.trace.length = []) ∧
      v.mgr.mPendingRemove = [] ∧ NotDue (i.1.nowMs v.mgr.trace.length) v.mgr) calmRun
      (fresh true ()) := by decide +kernel
  refine removals_for_cause ignore_mute.leaf (hplain.imp fun (k, op) v ⟨hacc, hpend, hdue⟩ => ?_)
  refine ⟨fun s ip port m hho => ?_, fun _ => hdue⟩
  dsimp only at hho hacc
  cases hho with
  | connect _ hd hs =>
    have hdials := connectWithTimeout_dials k ip v.mgr
    rw [hd] at hdials
    have hm : m = v.mgr.log (.socket s) := (hdials.of_valid hs).2
    rw [hm, Manager.log_mPendingRemove, hpend]
    exact List.not_mem_nil
  | accept _ ha hat _ _ =>
    rw [hacc _ ha] at hat
    cases hat

/-- A send fails, the peer is disconnected, and its retry is due. -/
def staleRemoval : List (Kernel × Call) :=
  [(calmKernel, .initializeManager), (calmKernel, .connect (some ['h']) 1),
    (calmKernel, .setAutoReconnect 1 true 0 0),
    ({ calmKernel with send := fun _ _ => .fail }, .sendPacket 1 (some [7])),
    (calmKernel, .disconnect 1)]

/-- The next call gives the peer a new socket, and closes it. -/
theorem staleRemoval_closes :
    ∃ w, Runs.run (call ignore) staleRemoval (fresh true ()) = some w ∧
      ¬ TearsForCause ignore (calmKernel, .processEvents) w := by
  have hlast : (Runs.run (call ignore) staleRemoval (fresh true ())).bind (fun w =>
      (beforeRemoval ignore calmKernel w).bind fun v =>
        (removeDisconnected ignore calmKernel v).map fun v' =>
          decide (v'.mgr.trace = [.clock 1000, .notify 1 .disconnected, .close 18] ++ v.mgr.trace) &&
            !broken 18 v.mgr.trace) = some true := by decide +kernel
  obtain ⟨w, hr, hlast⟩ := Option.bind_eq_some_iff.mp hlast
  obtain ⟨v, hv, hlast⟩ := Option.bind_eq_some_iff.mp hlast
  obtain ⟨v', hrem, hlast⟩ := Option.map_eq_some_iff.mp hlast
  simp only [Bool.and_eq_true, decide_eq_true_eq, Bool.not_eq_true'] at hlast
  refine ⟨w, hr, fun hcause => ?_⟩
  have hb := hcause rfl v v' hv hrem 18 v.mgr.trace ⟨[_, _], hlast.1.symm⟩ List.suffix_rfl
  rw [hlast.2] at hb
  cases hb

end IsaacP2P.Client
