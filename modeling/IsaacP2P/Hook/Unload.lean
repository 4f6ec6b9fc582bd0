import IsaacP2P.Hook.Injected

/-!
# The sockets of the process, and its end

Of all calls that could open a socket the hook makes one `P2P_Connect`; what comes
later is reconnecting. So at any time there is one socket at most, the one of the
only connection (`Owned`), over whatever losses and attempts.

`DllMain` with `DLL_PROCESS_DETACH` waits a second for the threads and unloads
anyway. A call into the library is one step here, so none is under way when the
unload begins: a round of the pump thread that outlasts the second, in a connect
for instance, is not covered. The pump thread starts no further round. Of the other
calls that the injection thread and the game may still make, none opens or uses a
socket or returns a packet, even if the injection thread hooks the table only now
(`unload_closes`).
-/

namespace IsaacP2P.Hook

open Client
open Ownership (Owns)

variable {k : Kernel} {w w' v : Process} {peer : PeerID} {m m' : Manager}

/-! ## One owner for every socket -/

def noEntry : Guard where
  enters _ := False

/-- The open sockets are those that have a place. -/
structure Owned (m : Manager) : Prop where
  settled : m.Settled
  owns : Owns m.held (opened m.trace)

theorem Owned.step (ho : Owned m) (h : Client.Step noEntry m m') : Owned m' :=
  ⟨h.settled ho.settled, (h.handles (fun _ hno _ => hno) ho.settled).owns ho.owns⟩

theorem Owned.steps (ho : Owned m) (h : Steps noEntry m m') : Owned m' :=
  h.invariant (fun _ _ ho hs => ho.step hs) ho

theorem Owned.minor (ho : Owned m) (h : Relation.ReflGen Minor m m') : Owned m' := by
  cases h with
  | refl => exact ho
  | single hm => exact ho.step (.minor hm)

theorem Owned.p2pSendPacket (ho : Owned w.mgr) (peer : PeerID) (data : Option (List UInt8)) :
    Owned (p2pSendPacket k peer data w).2.mgr := by
  rcases p2pSendPacket_cases (k := k) peer data w with he | he
  · rw [he]
    exact ho
  · rw [he]
    exact ho.minor (sendPacket_minor k peer data w.mgr)

theorem Owned.lost (ho : Owned w.mgr) {c : Connection}
    (hl : Loses hookCallback k peer c w w') : Owned w'.mgr :=
  ho.steps (hl.steps hookCallback_reader.leaf trivial)

theorem Owned.act (ho : Owned w.mgr) (hb : Base w) (h : Client.Act hookCallback k w w') :
    Owned w'.mgr := by
  cases h with
  | clock _ | select => exact ho.step (.minor (.logged rfl))
  | pending hids => exact ho.step (.pending hids)
  | retry hc hdue hd =>
    have hr : Redial hookCallback k _ w _ := .retry hc hdue hd
    exact ho.steps (hr.steps hookCallback_reader.leaf fun _ _ _ _ => trivial)
  | reconnected hc hdue hf hn =>
    have hr : Redial hookCallback k _ w _ := .reconnected hc hdue hf hn
    exact ho.steps (hr.steps hookCallback_reader.leaf fun _ _ _ _ => trivial)
  | accepted hl _ _ => exact absurd hb.listen hl
  | parsed hc hconn hne hd => exact ho.step (.minor (.parsed hc hconn hne hd))
  | @stopped peer c e _ hc hconn he =>
    have hs : Serve k w.mgr
        (((w.mgr.log e).setConn peer { c with connected := false }).pushPending peer) :=
      .stopped hc hconn he (.inl rfl)
    obtain ⟨hset, howns⟩ := ho.minor hs.minor
    exact ⟨hset, howns⟩
  | wrote hc => exact ho.minor (processWrite_minor hc)
  | lost _ hl => exact ho.lost hl

theorem Owned.staged (ho : Owned w.mgr) : Owned (stagePacket w).mgr := by
  unfold stagePacket
  split
  · exact ho
  · rename_i size peer _
    obtain ⟨m, hm, hpop⟩ := p2pReadPacket_pops peer (size != 0) size w
    have hread : Owned (p2pReadPacket peer (size != 0) size w).2.2.mgr := by
      rw [hm]
      exact ho.minor hpop.minor
    split
    · rename_i he
      rw [he] at hread
      split <;> exact hread
    · rename_i he
      rw [he] at hread
      exact hread

theorem Owned.unscheduled (ho : Owned w.mgr) (peer : PeerID) (enable : Bool)
    (baseDelayMs maxDelayMs : UInt32) :
    Owned (p2pSetAutoReconnect peer enable baseDelayMs maxDelayMs w).mgr := by
  unfold p2pSetAutoReconnect
  split
  · exact ho
  · exact ho.minor (setAutoReconnect_minor peer enable baseDelayMs maxDelayMs w.mgr)

theorem Owned.closed (ho : Owned w.mgr) (hb : Base w) (h : SocketHandle) :
    opened (p2pShutdown w).mgr.trace h = false := by
  obtain ⟨m, hm, ht, hheld, hnone⟩ := shutdown_handled False hb.ready
  have howns : Owns m.held (opened m.trace) := by
    clear ht hheld
    induction hm with
    | refl => exact ho.owns
    | tail _ hs ih => exact hs.owns ih
  rw [p2pShutdown, ht]
  by_contra hopen
  obtain ⟨p, hp⟩ := howns.owner (Bool.not_eq_false _ ▸ hopen)
  rw [← hheld, hnone] at hp
  cases hp

theorem owned_of_closed (hm : m.mConnections = ∅) (hl : m.mListenSocket = invalidSocketHandle)
    (hclosed : ∀ h, opened m.trace h = false) : Owned m := by
  have hnone : ∀ p, m.held p = none := held_of_empty (by rw [hm]; rfl) hl
  refine ⟨fun p c hc => ?_, ⟨fun {p r} hp => ?_, fun {p q r} hp _ => ?_⟩, fun {r} hr => ?_⟩
  · rw [hm] at hc
    cases hc
  · rw [hnone] at hp
    cases hp
  · rw [hnone] at hp
    cases hp
  · rw [hclosed] at hr
    cases hr

theorem Owned.move (ho : Owned w.mgr) (hb : Base w) (h : Move k w w') : Owned w'.mgr := by
  cases h with
  | hooked _ _ | identified _ _ => exact ho
  | registered _ => exact Owned.p2pSendPacket (w := onHook _ w) ho _ _
  | act ha => exact ho.act hb ha
  | staged _ => exact ho.staged
  | unscheduled peer => exact ho.unscheduled peer false 0 0
  | hungUp hl => exact ho.lost hl
  | shutDown peer =>
    have hb' : Base (onHook (fun s => { s with
        gConnectedPeer := peer, gStopPumpThread := true, tableHooked := false }) w) :=
      hb.quiet (quiet_onHook rfl rfl rfl)
    exact owned_of_closed rfl rfl (Owned.closed (w := onHook _ w) ho hb')

theorem step_owned {i : Kernel × Input} (hb : Base w) (ho : Owned w.mgr) (h : step i w = some w') :
    Owned w'.mgr := by
  obtain ⟨k, input⟩ := i
  cases input with
  | send target src cubData =>
    rcases sendP2PPacket_cases (step_send h) with ⟨-, buf, -, rfl⟩ | ⟨-, rfl⟩
    · exact ho.p2pSendPacket _ _
    · exact ho
  | read pubDest cubDest =>
    rw [step_read h, readP2PPacket_mgr]
    exact ho
  | _ =>
    have := (step_moves (by simp) (by simp) h).invariant
      (P := fun v => Base v ∧ Owned v.mgr)
      (fun _ _ hv hm => ⟨hv.1.move hm, hv.2.move hv.1 hm⟩) ⟨hb, ho⟩
    exact this.2

theorem attach_owned {ip : Text} {port : UInt16} (h : attach k ip port = some w) : Owned w.mgr := by
  have hstart : Owned readyProcess.mgr := owned_of_closed rfl rfl fun h => by simp [opened, isOpen,
    readyProcess]
  rcases attach_cases h with ⟨m, hd, rfl⟩ | ⟨sock, hv, rfl⟩
  · exact hstart.step (.minor (.dialed hd))
  · have hf : readyProcess.mgr.free sock = true := by
      simp [Manager.free, readyProcess, isOpen, hv]
    have hup : Client.Step { enters := fun m => m.mNextPeerID ∉ m.mConnections } readyProcess.mgr
        (noteUp 1 (dialed sock ip port)).mgr :=
      .entered (.inl rfl) hf fun hmem => by cases AList.mem_keys.mp hmem
    have hfirst : Owned (noteUp 1 (dialed sock ip port)).mgr :=
      ⟨hup.settled hstart.settled,
        (hup.handles (fun _ => id) hstart.settled).owns hstart.owns⟩
    exact hfirst.unscheduled 1 true 500 (10 * 1000)

theorem reachable_owned (hw : Reachable w) : Owned w.mgr := by
  obtain ⟨k, ip, port, w₀, hstart, hr⟩ := hw
  have := hr.invariant (P := fun v => Base v ∧ Owned v.mgr) ⟨attach_base hstart, attach_owned hstart⟩
    fun i v v' hv hs => ⟨step_base hv.1 hs, step_owned hv.1 hv.2 hs⟩
  exact this.2

theorem opened_unique (hw : Reachable w) {h h' : SocketHandle}
    (ho : opened w.mgr.trace h = true) (ho' : opened w.mgr.trace h' = true) : h = h' := by
  have hb := reachable_base hw
  have hentry : ∀ {h}, opened w.mgr.trace h = true →
      ∃ p c, w.mgr.mConnections.lookup p = some c ∧ c.socket = h := by
    intro h ho
    obtain ⟨p, hp⟩ := (reachable_owned hw).owns.owner ho
    cases p with
    | listener =>
      have hnone : w.mgr.held .listener = none := by
        change holding w.mgr.mListenSocket = none
        rw [hb.listen, holding_invalid]
      rw [hnone] at hp
      cases hp
    | entry p =>
      obtain ⟨c, hc, hcs⟩ := Option.bind_eq_some_iff.mp hp
      exact ⟨p, c, hc, eq_of_holding hcs⟩
  obtain ⟨p, c, hc, rfl⟩ := hentry ho
  obtain ⟨q, d, hd, rfl⟩ := hentry ho'
  obtain rfl := hb.one p q c d hc hd
  rw [Option.some.inj (hc.symm.trans hd)]

/-! ## After the unload -/

/-- Before the injection thread has hooked the table nothing is staged. -/
def StagedLate (w : Process) : Prop :=
  w.user.injection = .waiting → w.user.tableHooked = false ∧ w.user.gHasTcpData = false

theorem StagedLate.of_phase (hs : StagedLate w) (hp : w'.user.phase = w.user.phase)
    (ht : w.user.tableHooked = true ∨ w'.user.gHasTcpData = w.user.gHasTcpData) :
    StagedLate w' := by
  intro hi
  have hflag : w'.user.tableHooked = w.user.tableHooked := congrArg Prod.fst hp
  have hwhere : w'.user.injection = w.user.injection := congrArg Prod.snd hp
  obtain ⟨hoff, hno⟩ := hs (hwhere.symm.trans hi)
  rcases ht with ht | ht
  · rw [hoff] at ht
    cases ht
  · exact ⟨hflag.trans hoff, ht.trans hno⟩

theorem step_stagedLate {i : Kernel × Input} (hb : Base w) (hs : StagedLate w)
    (h : step i w = some w') : StagedLate w' := by
  obtain ⟨k, input⟩ := i
  cases input with
  | hookVTable ok | identify id =>
    simp only [step] at h
    split at h
    · cases h
      intro hi
      cases hi
    · cases h
  | register =>
    simp only [step] at h
    split at h
    · cases h
      intro hi
      rw [register, p2pSendPacket_user] at hi
      cases hi
    · cases h
  | pump =>
    simp only [step] at h
    split at h
    · have hstage := (runCallbacks_idle hb h).staging
      exact hs.of_phase (runCallbacks_phase h) (.inr (congrArg (·.1) hstage))
    · cases h
  | isAvailable =>
    simp only [step] at h
    split at h
    · obtain ⟨⟨out, v⟩, ha, rfl⟩ := Option.map_eq_some_iff.mp h
      exact hs.of_phase (isAvailable_phase ha) (.inl ‹_›)
    · cases h
  | read pubDest cubDest =>
    simp only [step] at h
    split at h
    · cases h
      exact hs.of_phase (readP2PPacket_phase pubDest cubDest w) (.inl ‹_›)
    · cases h
  | send target src cubData =>
    simp only [step] at h
    split at h
    · exact hs.of_phase (sendP2PPacket_phase h) (.inl ‹_›)
    · cases h
  | detach =>
    have hphase := detach_phase h
    obtain ⟨v, hh, h⟩ := Option.bind_eq_some_iff.mp h
    cases h
    have hstage := (hangUp_idle hb hh).staging
    intro hi
    have hwhere := congrArg Prod.snd hphase
    obtain ⟨-, hno⟩ := hs (hwhere.symm.trans hi)
    exact ⟨rfl, (congrArg (·.1) hstage).trans hno⟩

theorem reachable_stagedLate (hw : Reachable w) : StagedLate w := by
  obtain ⟨k, ip, port, w₀, hstart, hr⟩ := hw
  have hfirst : StagedLate w₀ := by
    intro _
    rcases attach_cases hstart with ⟨m, -, rfl⟩ | ⟨sock, -, rfl⟩
    · exact ⟨rfl, rfl⟩
    · rw [setAutoReconnect_user]
      exact ⟨rfl, rfl⟩
  have := hr.invariant (P := fun v => Base v ∧ StagedLate v) ⟨attach_base hstart, hfirst⟩
    fun i v v' hv hs => ⟨step_base hv.1 hs, step_stagedLate hv.1 hv.2 hs⟩
  exact this.2

/-- The library is down, the pump thread told to end, and what is staged out of reach. -/
structure Off (w : Process) : Prop where
  down : w.mgr.mInitialized = false
  peer : w.user.gConnectedPeer = invalidPeerID
  stopped : w.user.gStopPumpThread = true
  silent : w.user.gHasTcpData = true →
    w.user.tableHooked = false ∧ w.user.injection ≠ .waiting

theorem p2pSendPacket_down (hd : w.mgr.mInitialized = false) (peer : PeerID)
    (data : Option (List UInt8)) : (p2pSendPacket k peer data w).2 = w := by
  simp [p2pSendPacket, hd]

theorem isAvailable_down (hd : w.mgr.mInitialized = false) {out : Option UInt32}
    (h : hookIsP2PPacketAvailable k w = some (out, w')) : w' = w := by
  obtain ⟨v, hr, hv, -⟩ := isAvailable_cases h
  rw [p2pRunCallbacks, if_neg (by simp [hd])] at hr
  cases hr
  rcases hv with ⟨-, rfl⟩ | ⟨-, rfl⟩
  · rfl
  · simp [stagePacket, p2pIsPacketAvailable, hd]

/-- **A step after the unload** leaves the library alone and returns nothing. -/
theorem step_off {i : Kernel × Input} (ho : Off w) (h : step i w = some w') :
    Off w' ∧ w'.mgr.trace = w.mgr.trace ∧ result i w = [] := by
  obtain ⟨k, input⟩ := i
  cases input with
  | hookVTable ok =>
    simp only [step] at h
    split at h
    · rename_i hwait
      cases h
      exact ⟨⟨ho.down, ho.peer, ho.stopped, fun hhas => absurd hwait (ho.silent hhas).2⟩, rfl, rfl⟩
    · cases h
  | identify id =>
    simp only [step] at h
    split at h
    · cases h
      exact ⟨⟨ho.down, ho.peer, ho.stopped, fun hhas =>
        ⟨(ho.silent hhas).1, fun hwait => by cases hwait⟩⟩, rfl, rfl⟩
    · cases h
  | register =>
    simp only [step] at h
    split at h
    · cases h
      have hquiet : register k w = onHook (fun s => { s with injection := .done }.note
          (.registration w.user.gLocalSteamID)) w := p2pSendPacket_down (w := onHook _ w) ho.down _ _
      rw [hquiet]
      exact ⟨⟨ho.down, ho.peer, ho.stopped, fun hhas =>
        ⟨(ho.silent hhas).1, fun hwait => by cases hwait⟩⟩, rfl, rfl⟩
    · cases h
  | pump =>
    simp only [step, ho.stopped, Bool.not_true, Bool.false_eq_true, if_false] at h
    cases h
  | isAvailable =>
    simp only [step] at h
    split at h
    · obtain ⟨⟨out, v⟩, ha, rfl⟩ := Option.map_eq_some_iff.mp h
      rw [isAvailable_down ho.down ha]
      exact ⟨ho, rfl, rfl⟩
    · cases h
  | read pubDest cubDest =>
    simp only [step] at h
    split at h
    · rename_i hhooked
      cases h
      -- the table is hooked, so nothing is staged
      have hno : w.user.gHasTcpData = false := by
        by_contra hhas
        have hfree := (ho.silent (by simpa using hhas)).1
        rw [hhooked] at hfree
        cases hfree
      have hnone : hookReadP2PPacket pubDest cubDest w = (none, w) := by
        simp [hookReadP2PPacket, hno]
      have hresult : result (k, .read pubDest cubDest) w = [] := by simp [result, hnone]
      rw [hnone]
      exact ⟨ho, rfl, hresult⟩
    · cases h
  | send target src cubData =>
    rcases sendP2PPacket_cases (step_send h) with ⟨hpeer, -⟩ | ⟨-, rfl⟩
    · exact absurd ho.peer hpeer
    · exact ⟨ho, rfl, rfl⟩
  | detach =>
    obtain ⟨v, hh, h⟩ := Option.bind_eq_some_iff.mp h
    have hnone : hangUp k w = some w := by simp [hangUp, ho.peer]
    rw [hnone] at hh
    cases hh
    cases h
    refine ⟨⟨rfl, ho.peer, rfl, fun hhas => ⟨rfl, (ho.silent hhas).2⟩⟩, ?_, rfl⟩
    change (shutdown w.mgr).trace = w.mgr.trace
    rw [shutdown_of_uninitialized ho.down]

theorem run_off {is : List (Kernel × Input)} (ho : Off w) (h : Runs.run step is w = some w') :
    w'.mgr.trace = w.mgr.trace ∧ returned is w = [] := by
  induction is generalizing w with
  | nil =>
    cases h
    exact ⟨rfl, rfl⟩
  | cons i is ih =>
    obtain ⟨v, hv, hr⟩ := Runs.run_cons_iff.mp h
    obtain ⟨hoff, ht, hnone⟩ := step_off ho hv
    obtain ⟨ht', hnone'⟩ := ih hoff hr
    refine ⟨ht'.trans ht, ?_⟩
    rw [returned, hnone, hv]
    exact hnone'

theorem detach_off (hb : Base w) (hs : StagedLate w) (h : detach k w = some w') : Off w' := by
  have hphase := congrArg Prod.snd (detach_phase h)
  obtain ⟨v, hh, h⟩ := Option.bind_eq_some_iff.mp h
  cases h
  have hstage := (hangUp_idle hb hh).staging
  refine ⟨rfl, ?_, rfl, fun hhas => ⟨rfl, fun hwait => ?_⟩⟩
  · unfold hangUp at hh
    split at hh
    · obtain ⟨u, -, hh⟩ := Option.bind_eq_some_iff.mp hh
      cases hh
      rfl
    · rename_i hpeer
      cases hh
      change w.user.gConnectedPeer = invalidPeerID
      simpa using hpeer
  · obtain ⟨-, hno⟩ := hs (hphase.symm.trans hwait)
    have hsame : v.user.gHasTcpData = w.user.gHasTcpData := congrArg (·.1) hstage
    have hhas : v.user.gHasTcpData = true := hhas
    rw [hsame, hno] at hhas
    cases hhas

/-- **The unload closes all, and nothing follows it.** One socket at most is open. Behind
an unload none is, and the calls the injection thread and the game still make open and use
none, and return nothing. -/
theorem unload_closes (hw : Reachable w) :
    (∀ h h', opened w.mgr.trace h = true → opened w.mgr.trace h' = true → h = h') ∧
    ∀ k w₁ is w', step (k, .detach) w = some w₁ → Runs.run step is w₁ = some w' →
      (∀ h, opened w'.mgr.trace h = false) ∧ w'.mgr.trace = w₁.mgr.trace ∧ returned is w₁ = [] := by
  refine ⟨fun h h' => opened_unique hw, fun k w₁ is w' hd hr => ?_⟩
  have hone : Runs.run step [(k, .detach)] w = some w₁ := Runs.run_cons_iff.mpr ⟨w₁, hd, rfl⟩
  have hw₁ := hw.run hone
  have hoff := detach_off (reachable_base hw) (reachable_stagedLate hw) hd
  obtain ⟨ht, hnone⟩ := run_off hoff hr
  refine ⟨fun h => ?_, ht, hnone⟩
  rw [ht]
  by_contra hopen
  obtain ⟨p, hp⟩ := (reachable_owned hw₁).owns.owner (Bool.not_eq_false _ ▸ hopen)
  have hb₁ := reachable_base hw₁
  have hheld := held_of_empty (by rw [hb₁.empty hoff.down]; rfl) hb₁.listen p
  rw [hheld] at hp
  cases hp

/-- The injection thread finds the object behind the unload, and the game sends, polls and reads
through the table. -/
def lateThreads : List (Kernel × Input) :=
  [(relayKernel, .hookVTable true), (relayKernel, .identify 1), (relayKernel, .register),
    (relayKernel, .send 2 (some [9]) 1), (relayKernel, .isAvailable), (relayKernel, .read true 16)]

theorem lateThreads_silent : ∃ w₁ w', step (relayKernel, .detach) linked = some w₁ ∧
    Runs.run step lateThreads w₁ = some w' ∧ opened linked.mgr.trace 7 = true ∧
    (∀ h, opened w'.mgr.trace h = false) ∧ returned lateThreads w₁ = [] := by
  let w₁ := (step (relayKernel, .detach) linked).get (by decide +kernel)
  let w' := (Runs.run step lateThreads w₁).get (by decide +kernel)
  have hd : step (relayKernel, .detach) linked = some w₁ := by simp [w₁]
  have hr : Runs.run step lateThreads w₁ = some w' := by simp [w']
  obtain ⟨hclosed, -, hnone⟩ := (unload_closes linked_reachable).2 _ _ _ _ hd hr
  exact ⟨w₁, w', hd, hr, by decide +kernel, hclosed, hnone⟩

end IsaacP2P.Hook
