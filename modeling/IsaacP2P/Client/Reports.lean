import IsaacP2P.Client.Sockets

/-!
# What the application is told

`reports p` are the events the connection callback was called with for the peer
`p`. While the callback is set, the last one was `connected` exactly if the entry
of `p` has a socket (`Told`). This breaks where a connection without a socket is
torn down, which `disconnect` and `removeDisconnected` do not check: the loss is
reported again (`doubleDisconnect_reports`).
-/

namespace IsaacP2P.Client

open Alternation (Alternates isOn)

variable {υ : Type} {cb : Callback υ} {k : Kernel} {w w' : World υ} {m m' : Manager} {peer : PeerID}
  {s : SocketHandle} {c : Connection} {g : Guard}

/-- The events reported for the peer, newest first: `true` is `connected`. -/
def reports (peer : PeerID) : List Ev → List Bool
  | [] => []
  | .notify p event :: tr =>
    if p = peer then (event == .connected) :: reports peer tr else reports peer tr
  | _ :: tr => reports peer tr

theorem reports_minor {new : List Ev} (hnew : ∀ e ∈ new, e.minor = true) (tr : List Ev) :
    reports peer (new ++ tr) = reports peer tr := by
  induction new with
  | nil => rfl
  | cons e new ih =>
    have he := hnew e (List.mem_cons_self ..)
    rw [← ih fun e he => hnew e (List.mem_cons_of_mem _ he)]
    cases e with
    | notify p event => cases he
    | _ => rfl

/-- The entry has a socket. -/
def Manager.hasSocket (m : Manager) (peer : PeerID) : Bool := (m.held (.entry peer)).isSome

/-- The reports take turns, and the last of them is up to date. -/
structure Told (m : Manager) : Prop where
  turns : ∀ p, Alternates (reports p m.trace)
  last : m.mConnectionCallback = true → ∀ p, isOn (reports p m.trace) = m.hasSocket p

/-! ## What a step reports -/

theorem Told.same (h : Told m) (hr : ∀ p, reports p m'.trace = reports p m.trace)
    (hh : ∀ p, m'.held (.entry p) = m.held (.entry p))
    (hcb : m'.mConnectionCallback = m.mConnectionCallback) : Told m' where
  turns p := by
    rw [hr]
    exact h.turns p
  last hset p := by
    rw [hr, h.last (hcb ▸ hset) p, Manager.hasSocket, Manager.hasSocket, hh]

/-- A change is reported for the one entry that gets or loses its socket. -/
theorem Told.noted (h : Told m) {event : ConnectionEvent}
    (hr : ∀ p, reports p m'.trace = reports p m.trace)
    (hcb : m'.mConnectionCallback = m.mConnectionCallback)
    (hold : m.hasSocket peer = (event != .connected))
    (hnew : m'.hasSocket peer = (event == .connected))
    (hother : ∀ p, p ≠ peer → m'.hasSocket p = m.hasSocket p) : Told (m'.noted peer event) := by
  have hheld : (m'.noted peer event).hasSocket = m'.hasSocket := by
    obtain ⟨-, -, -, hh⟩ := noted_quiet peer event m'
    funext p
    rw [Manager.hasSocket, hh, Manager.hasSocket]
  cases hset : m.mConnectionCallback with
  | false =>
    have he : m'.noted peer event = m' := by
      rw [Manager.noted, hcb, hset]
      rfl
    rw [he]
    refine ⟨fun p => by rw [hr]; exact h.turns p, fun hs => ?_⟩
    rw [hcb, hset] at hs
    cases hs
  | true =>
    have he : (m'.noted peer event).trace = .notify peer event :: m'.trace := by
      rw [Manager.noted, hcb, hset]
      rfl
    have hrep : ∀ p, reports p (m'.noted peer event).trace =
        if peer = p then (event == .connected) :: reports p m.trace else reports p m.trace := by
      intro p
      rw [he, reports, hr]
    refine ⟨fun p => ?_, fun _ p => ?_⟩
    · rw [hrep]
      split
      · rename_i hp
        subst hp
        refine ⟨?_, h.turns peer⟩
        rw [h.last hset, hold]
        cases event <;> decide
      · exact h.turns p
    · rw [hrep, hheld]
      split
      · rename_i hp
        subst hp
        rw [hnew, Alternation.isOn_cons]
      · rename_i hp
        rw [h.last hset, hother p fun h => hp h.symm]

theorem Altered.held_eq (h : Altered m m') (p : PeerID) :
    m'.held (.entry p) = m.held (.entry p) := by
  rcases h p with ⟨hno, hno'⟩ | ⟨c, c', hc, hc', ha⟩
  · show (m'.mConnections.lookup p).bind _ = (m.mConnections.lookup p).bind _
    rw [hno, hno']
  · rw [held_entry hc, held_entry hc']
    cases ha <;> rfl

theorem Minor.mConnectionCallback (h : Minor m m') :
    m'.mConnectionCallback = m.mConnectionCallback := by
  cases h with
  | dialed hd => cases hd <;> rfl
  | unlistened => rw [stopListen_eq]
  | _ => rfl

theorem Minor.told (h : Minor m m') (ht : Told m) : Told m' := by
  obtain ⟨new, htr, hnew⟩ := h.events
  exact ht.same (fun p => by rw [htr, reports_minor hnew]) h.altered.held_eq h.mConnectionCallback

theorem closeSocket_reports (peer : PeerID) (s : SocketHandle) (m : Manager) :
    reports peer (m.closeSocket s).trace = reports peer m.trace := by
  unfold Manager.closeSocket
  split <;> rfl

/-- An ID that is new, and a socket where one is torn down. -/
def orderly : Guard where
  enters m := m.mNextPeerID ∉ m.mConnections
  tears _ c := c.socket ≠ invalidSocketHandle

/-- **What a step reports.** -/
theorem Step.told (h : Step orderly m m') (hm : m.Settled) (ht : Told m) : Told m' := by
  cases h with
  | minor hmin => exact hmin.told ht
  | @entered s e ip port he hf hnew =>
    have hnew' : m.mNextPeerID ∉ m.mConnections := hnew
    have hheld := @held_enter m s e ip port (Manager.valid_of_free hf) hnew'
    refine ht.noted (fun p => ?_) ?_ ?_ ?_ fun p hp => ?_
    · rw [Manager.enter_trace]
      rcases he with rfl | rfl <;> rfl
    · rw [Manager.enter_mConnectionCallback, Manager.log_mConnectionCallback]
    · rw [Manager.hasSocket, held_none hnew']
      rfl
    · rw [Manager.hasSocket, hheld, Function.update_self]
      rfl
    · rw [Manager.hasSocket, hheld, Function.update_of_ne (by simpa using hp), Manager.hasSocket]
  | @reconnected peer c s now hc hdue hf _ =>
    have hheld := held_reconnected (e := .socket s) (Manager.valid_of_free hf) hc
    refine ht.noted (fun p => rfl) rfl ?_ ?_ fun p hp => ?_
    · rw [Manager.hasSocket, held_down_entry hc ((hm peer c hc).due hdue).1]
      rfl
    · rw [Manager.hasSocket, hheld, Function.update_self]
      rfl
    · rw [Manager.hasSocket, hheld, Function.update_of_ne (by simpa using hp), Manager.hasSocket]
  | @tornDown peer c hc hs =>
    have hs' : c.socket ≠ invalidSocketHandle := hs
    refine ht.noted (fun p => ?_) ?_ ?_ ?_ fun p hp => ?_
    · rw [Manager.setConn_trace, closeSocket_reports]
    · rw [Manager.setConn_mConnectionCallback, Manager.closeSocket_mConnectionCallback]
    · rw [Manager.hasSocket, held_entry hc, holding_valid hs']
      rfl
    · rw [Manager.hasSocket, held_down hc, Function.update_self]
      rfl
    · rw [Manager.hasSocket, held_down hc, Function.update_of_ne (by simpa using hp),
        Manager.hasSocket]
  | @scheduled peer c attempt next hc _ =>
    have hheld : (m.setConn peer (c.scheduled attempt next)).held = m.held :=
      held_same hc rfl rfl rfl
    exact ht.same (fun _ => rfl) (fun p => by rw [hheld]) rfl
  | @erased peer c hc hD =>
    refine ht.same (fun _ => rfl) (fun p => ?_) rfl
    rw [held_erase, ← held_down_entry hc hD.1, Function.update_eq_self]
  | pending _ => exact ht.same (fun _ => rfl) (fun _ => rfl) rfl

/-! ## Removals of connections with a socket -/

theorem Minors.held_eq (h : Minors m m') (p : PeerID) : m'.held (.entry p) = m.held (.entry p) := by
  induction h with
  | refl => rfl
  | tail _ hm ih => rw [hm.altered.held_eq, ih]

theorem Loses.held_of_ne (hcb : Leaf cb) (h : Loses cb k peer c w w') {p : PeerID}
    (hp : p ≠ peer) : w'.mgr.held (.entry p) = w.mgr.held (.entry p) := by
  obtain ⟨hc, m, d, hpokes, hd, -, hend⟩ := h.cases hcb
  have hplace : Place.entry p ≠ Place.entry peer := by simpa using hp
  have htorn : (w.mgr.tearDown peer c).held (.entry p) = w.mgr.held (.entry p) := by
    obtain ⟨-, -, -, hh⟩ := noted_quiet peer .disconnected
      ((w.mgr.closeSocket c.socket).setConn peer c.down)
    rw [Manager.tearDown, hh, held_down hc, Function.update_of_ne hplace]
  rw [← htorn, ← hpokes.minors.held_eq p]
  rcases hend with ⟨-, he⟩ | ⟨-, he⟩
  · have hlog : (m.nowMs k).2.mConnections.lookup peer = some d := hd
    have hheld : (scheduleReconnect k peer d m).held = (m.nowMs k).2.held :=
      held_same hlog rfl rfl rfl
    rw [he, hheld]
    rfl
  · rw [he, held_erase, Function.update_of_ne hplace]

/-- Every pending peer that has an entry has a socket. -/
def Manager.PendingUp (m : Manager) : Prop :=
  ∀ p ∈ m.mPendingRemove, p ∈ m.mConnections → m.hasSocket p = true

theorem removeDisconnected_orderly (hcb : Leaf cb) (hup : w.mgr.PendingUp)
    (h : removeDisconnected cb k w = some w') : Steps orderly w.mgr w'.mgr := by
  obtain ⟨v, hr, rfl⟩ := removeDisconnected_removal h
  -- what is left of the list has sockets, since each loss concerns one entry
  have hend := hr.invariant (P := fun rest v => Steps orderly w.mgr v.mgr ∧ rest.Nodup ∧
      ∀ p ∈ rest, p ∈ v.mgr.mConnections → v.mgr.hasSocket p = true)
    (fun _ _ _ hv _ => ⟨hv.1, hv.2.1.of_cons, fun p hp => hv.2.2 p (List.mem_cons_of_mem _ hp)⟩)
    (fun peer rest c v v' hv hl _ => ?_)
    ⟨.single (.pending w.mgr.removals_subset), w.mgr.removals_nodup,
      fun p hp hin => hup p (w.mgr.removals_subset hp) hin⟩
  · exact hend.1.tail (.pending (List.nil_subset _))
  · obtain ⟨hsteps, hnodup, hrest⟩ := hv
    have hs : c.socket ≠ invalidSocketHandle := by
      have hlive := hrest peer (List.mem_cons_self ..) (AssocList.mem_of_lookup hl.1)
      intro hno
      rw [Manager.hasSocket, held_down_entry hl.1 hno] at hlive
      cases hlive
    refine ⟨hsteps.trans (hl.steps hcb hs), hnodup.of_cons, fun p hp hin => ?_⟩
    have hne : p ≠ peer := fun he => (List.nodup_cons.mp hnodup).1 (he ▸ hp)
    rw [Manager.hasSocket, hl.held_of_ne hcb hne]
    exact hrest p (List.mem_cons_of_mem _ hp) ((hl.sameIDs hcb).keys p hin)

/-! ## Runs -/

/-- The call tears down no connection that has no socket, and takes no ID of an entry. -/
structure Tidy (cb : Callback υ) (i : Kernel × Call) (w : World υ) : Prop where
  fresh : ∀ s ip port m, HandsOut cb i.1 w s ip port i.2 m → m.mNextPeerID ∉ m.mConnections
  disconnect : ∀ p, i.2 = .disconnect p → p ∈ w.mgr.mConnections → w.mgr.hasSocket p = true
  removal : i.2 = .processEvents → ∀ v, beforeRemoval cb i.1 w = some v → v.mgr.PendingUp

theorem call_orderly (hcb : Leaf cb) {i : Kernel × Call} (hno : i.2 ≠ .shutdown)
    (hi : Tidy cb i w) (h : call cb i w = some w') : Steps orderly w.mgr w'.mgr := by
  obtain ⟨k, op⟩ := i
  cases call_does h with
  | minors hm _ => exact hm.steps
  | connected hf hho hn _ =>
    exact .head (.entered (.inl rfl) hf (hi.fresh _ _ _ _ hho)) (notify_steps hcb hn)
  | @disconnected peer c _ hl =>
    refine hl.steps hcb fun hs => ?_
    have hlive := hi.disconnect peer rfl (AssocList.mem_of_lookup hl.1)
    rw [Manager.hasSocket, held_down_entry hl.1 hs] at hlive
    cases hlive
  | processed hinit hp =>
    obtain ⟨v, v', hv, hrem, hagain⟩ := processEvents_beforeRemoval hinit hp
    have hR : ∀ m p, orderly.revives m p := fun _ _ => trivial
    exact (beforeRemoval_steps hcb hi.fresh (fun _ ha => attemptReconnects_steps hcb hR ha)
      hv).trans ((removeDisconnected_orderly hcb (hi.removal rfl v hv) hrem).trans
        (attemptReconnects_steps hcb hR hagain))
  | shutdown => exact absurd rfl hno

theorem fresh_told (callback : Bool) (user : υ) : Told (fresh callback user).mgr :=
  ⟨fun _ => trivial, fun _ _ => by simp [fresh, reports, Manager.hasSocket, Manager.held]⟩

theorem call_told (hcb : Leaf cb) (i : Kernel × Call) (w w' : World υ)
    (hw : w.mgr.Settled ∧ Told w.mgr) (hi : i.2 ≠ .shutdown ∧ Tidy cb i w)
    (h : call cb i w = some w') : w'.mgr.Settled ∧ Told w'.mgr :=
  (call_orderly hcb hi.1 hi.2 h).invariant (P := fun m => m.Settled ∧ Told m)
    (fun _ _ hm hs => ⟨hs.settled hm.1, hs.told hm.1 hm.2⟩) hw

/-- **Connection events alternate** in every run that tears down no connection
without a socket and takes no ID of an entry. -/
theorem reports_alternate (hcb : Leaf cb) {callback : Bool} {user : υ} {is : List (Kernel × Call)}
    (hC : Runs.Meets (call cb) (fun i v => i.2 ≠ .shutdown ∧ Tidy cb i v) is (fresh callback user))
    (h : Runs.run (call cb) is (fresh callback user) = some w) (peer : PeerID) :
    Alternates (reports peer w.mgr.trace) := by
  have hend := Runs.run_invariant_of_meets (call_told hcb)
    ⟨fresh_settled callback user, fresh_told callback user⟩ hC h
  exact hend.2.turns peer

instance Manager.PendingUp.decidable (m : Manager) : Decidable m.PendingUp :=
  List.decidableBAll (fun p => p ∈ m.mConnections → m.hasSocket p = true) m.mPendingRemove

/-- A call other than `disconnect` and `shutdown`. -/
def Call.tearsNothing : Call → Bool
  | .disconnect _ | .shutdown => false
  | _ => true

/-- A connection is lost and made again, and another accepted. -/
theorem lifeRun_reports :
    ∃ w, Runs.run (call ignore) (lifeRun.take 5) (fresh true ()) = some w ∧
      Alternates (reports 1 w.mgr.trace) ∧ reports 1 w.mgr.trace = [true, false, true] := by
  have hlast : (Runs.run (call ignore) (lifeRun.take 5) (fresh true ())).map
      (fun w => reports 1 w.mgr.trace) = some [true, false, true] := by decide +kernel
  obtain ⟨w, hr, hreports⟩ := Option.map_eq_some_iff.mp hlast
  have hproper := (ids_proper_iff ignore_mute.leaf hr).mpr (by decide +kernel)
  have hplain : Runs.Meets (call ignore) (fun i v => i.2.tearsNothing = true ∧
      ∀ v' ∈ beforeRemoval ignore i.1 v, v'.mgr.PendingUp) (lifeRun.take 5) (fresh true ()) := by
    decide +kernel
  have htidy : Runs.Meets (call ignore) (fun i v => i.2 ≠ .shutdown ∧ Tidy ignore i v)
      (lifeRun.take 5) (fresh true ()) := by
    refine (hproper.and hplain).imp fun i v ⟨hp, hop, hup⟩ => ?_
    refine ⟨fun he => ?_, fun s ip port m hho => (hp s ip port m hho).2.1, fun p he => ?_,
      fun _ v' hv' => hup v' hv'⟩
    · rw [he] at hop
      cases hop
    · rw [he] at hop
      cases hop
  exact ⟨w, hr, reports_alternate ignore_mute.leaf htidy hr 1, hreports⟩

/-- A peer that waits for a reconnect is disconnected again. -/
def doubleDisconnect : List (Kernel × Call) :=
  [.initializeManager, .connect (some ['h']) 1, .setAutoReconnect 1 true 500 10000,
    .disconnect 1, .disconnect 1].map (busyKernel, ·)

/-- The loss is reported twice. -/
theorem doubleDisconnect_reports :
    ∃ w, Runs.run (call ignore) doubleDisconnect (fresh true ()) = some w ∧
      reports 1 w.mgr.trace = [false, false, true] ∧ ¬ Alternates (reports 1 w.mgr.trace) := by
  have hlast : (Runs.run (call ignore) doubleDisconnect (fresh true ())).map
      (fun w => reports 1 w.mgr.trace) = some [false, false, true] := by decide +kernel
  obtain ⟨w, hr, hreports⟩ := Option.map_eq_some_iff.mp hlast
  refine ⟨w, hr, hreports, ?_⟩
  rw [hreports]
  decide

end IsaacP2P.Client
