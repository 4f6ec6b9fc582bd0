import IsaacP2P.Client.Acts
import IsaacP2P.Client.Receiving
import IsaacP2P.Hook.Hook

/-!
# What a step of the hook is made of

A step of the process is a call of `Hook_SendP2PPacket` or `Hook_ReadP2PPacket`,
or a sequence of moves (`step_moves`): the acts of the library, the staging of a
packet, and what the injection thread and `DllMain` do. An invariant of the
process has one case for each.
-/

namespace IsaacP2P.Hook

open Client

variable {k : Kernel} {w w' : Process}

/-- The callback the library calls in the hooked process. -/
abbrev hookCallback : Callback Globals := internalConnectionCallback connectionCallback

inductive Move (k : Kernel) (w : Process) : Process → Prop where
  | hooked (ok : Bool) : w.user.injection = .waiting →
      Move k w (onHook (fun s => { s with injection := .hooked, tableHooked := ok }) w)
  | identified (id : CSteamID) : w.user.injection = .hooked →
      Move k w (onHook (fun s => { s with injection := .identified, gLocalSteamID := id }) w)
  | registered : w.user.injection = .identified → Move k w (register k w)
  | act {w' : Process} : Act hookCallback k w w' → Move k w w'
  | staged : w.user.gHasTcpData = false → Move k w (stagePacket w)
  /-- `DllMain` gives up reconnecting. -/
  | unscheduled (peer : PeerID) : Move k w (p2pSetAutoReconnect peer false 0 0 w)
  | hungUp {peer : PeerID} {c : Connection} {w' : Process} : Loses hookCallback k peer c w w' →
      Move k w w'
  | shutDown (peer : PeerID) : Move k w (p2pShutdown (onHook (fun s => { s with
      gConnectedPeer := peer, gStopPumpThread := true, tableHooked := false }) w))

abbrev Moves (k : Kernel) : Process → Process → Prop := Relation.ReflTransGen (Move k)

theorem Moves.invariant {P : Process → Prop} (hstep : ∀ w w', P w → Move k w w' → P w')
    (hw : P w) (h : Moves k w w') : P w' := by
  induction h with
  | refl => exact hw
  | tail _ hm ih => exact hstep _ _ ih hm

theorem runCallbacks_moves (h : p2pRunCallbacks connectionCallback k w = some w') :
    Moves k w w' := by
  unfold p2pRunCallbacks at h
  split at h
  · exact Relation.ReflTransGen.mono (fun _ _ ha => Move.act ha) _ _ (processEvents_acts h)
  · cases h
    exact .refl

/-- `Hook_IsP2PPacketAvailable` returns true exactly if a packet is staged then. -/
theorem isAvailable_moves {out : Option UInt32}
    (h : hookIsP2PPacketAvailable k w = some (out, w')) :
    Moves k w w' ∧ (out = none ↔ w'.user.gHasTcpData = false) := by
  obtain ⟨w₁, h₁, h⟩ := Option.bind_eq_some_iff.mp h
  have hmoves : Moves k w (if !w₁.user.gHasTcpData then stagePacket w₁ else w₁) := by
    apply (runCallbacks_moves h₁).trans
    split
    · rename_i hno
      exact .single (.staged (by simpa using hno))
    · exact .refl
  dsimp only at h
  generalize (if !w₁.user.gHasTcpData then stagePacket w₁ else w₁) = w₂ at h hmoves
  split at h
  · rename_i hhas
    cases h
    exact ⟨hmoves, by simp [hhas]⟩
  · rename_i hno
    cases h
    exact ⟨hmoves, by simpa using hno⟩

theorem detach_moves (h : detach k w = some w') : Moves k w w' := by
  obtain ⟨w₁, hh, h⟩ := Option.bind_eq_some_iff.mp h
  cases h
  unfold hangUp at hh
  split at hh
  · obtain ⟨w₂, hd, hh⟩ := Option.bind_eq_some_iff.mp hh
    cases hh
    refine .head (.unscheduled w.user.gConnectedPeer) (.tail ?_ (.shutDown (w := w₂) invalidPeerID))
    unfold p2pDisconnect disconnect at hd
    split at hd
    · split at hd
      · cases hd
        exact .refl
      · rename_i c hc
        obtain ⟨m, hn, ha⟩ := Option.bind_eq_some_iff.mp hd
        exact .single (.hungUp ⟨hc, m, hn, ha⟩)
    · cases hd
      exact .refl
  · cases hh
    exact .single (.shutDown w.user.gConnectedPeer)

/-- **A step is a sequence of moves**, unless the game sends or reads a packet. -/
theorem step_moves {i : Kernel × Input} (hsend : ∀ target src cub, i.2 ≠ .send target src cub)
    (hread : ∀ dest cub, i.2 ≠ .read dest cub) (h : step i w = some w') : Moves i.1 w w' := by
  obtain ⟨k, input⟩ := i
  cases input with
  | hookVTable ok =>
    simp only [step] at h
    split at h
    · cases h
      exact .single (.hooked ok ‹_›)
    · cases h
  | identify id =>
    simp only [step] at h
    split at h
    · cases h
      exact .single (.identified id ‹_›)
    · cases h
  | register =>
    simp only [step] at h
    split at h
    · cases h
      exact .single (.registered ‹_›)
    · cases h
  | pump =>
    simp only [step] at h
    split at h
    · exact runCallbacks_moves h
    · cases h
  | isAvailable =>
    simp only [step] at h
    split at h
    · obtain ⟨⟨out, w₂⟩, hr, rfl⟩ := Option.map_eq_some_iff.mp h
      exact (isAvailable_moves hr).1
    · cases h
  | read dest cub => exact absurd rfl (hread dest cub)
  | send target src cub => exact absurd rfl (hsend target src cub)
  | detach => exact detach_moves h

theorem sendP2PPacket_cases {target : CSteamID} {src : Option (List UInt8)} {cubData : UInt32}
    (h : hookSendP2PPacket k target src cubData w = some w') :
    (w.user.gConnectedPeer ≠ invalidPeerID ∧
      ∃ d, sendBufferFor target w.user.gLocalSteamID src cubData = some d ∧
        w' = (p2pSendPacket k w.user.gConnectedPeer (some d) w).2) ∨
      (w.user.gConnectedPeer = invalidPeerID ∧ w' = w) := by
  unfold hookSendP2PPacket at h
  dsimp only at h
  split at h
  · rename_i hpeer
    obtain ⟨d, hd, h⟩ := Option.bind_eq_some_iff.mp h
    cases h
    exact .inl ⟨by simpa using hpeer, d, hd, rfl⟩
  · rename_i hpeer
    cases h
    exact .inr ⟨by simpa using hpeer, rfl⟩

theorem step_send {target : CSteamID} {src : Option (List UInt8)} {cubData : UInt32}
    (h : step (k, .send target src cubData) w = some w') :
    hookSendP2PPacket k target src cubData w = some w' := by
  simp only [step] at h
  split at h
  · exact h
  · cases h

theorem step_read {pubDest : Bool} {cubDest : UInt32}
    (h : step (k, .read pubDest cubDest) w = some w') :
    w' = (hookReadP2PPacket pubDest cubDest w).2 := by
  simp only [step] at h
  split at h
  · cases h
    rfl
  · cases h

/-! ## The trace grows -/

theorem p2pSendPacket_cases (peer : PeerID) (data : Option (List UInt8)) (w : Process) :
    (p2pSendPacket k peer data w).2 = w ∨
      (p2pSendPacket k peer data w).2 = w.onMgr fun m => (sendPacket k peer data m).2 := by
  unfold p2pSendPacket
  split
  · exact .inl rfl
  · split
    · exact .inl rfl
    · split
      · exact .inl rfl
      · split
        · exact .inl rfl
        · exact .inr rfl

/-- The callback of the hook leaves the staged packet alone, and sends the
registration at most. -/
theorem hookCallback_cases {peer : PeerID} {e : ConnectionEvent}
    (h : hookCallback k peer e w = some w') :
    ∃ f : Globals → Globals,
      (∀ s, (f s).gHasTcpData = s.gHasTcpData ∧ (f s).gTcpRecvSteamID = s.gTcpRecvSteamID ∧
        (f s).gTcpRecvBuffer = s.gTcpRecvBuffer) ∧
      (w' = onHook f w ∨
        w' = (p2pSendPacket k peer (some (steamIDBytes w.user.gLocalSteamID)) (onHook f w)).2) := by
  unfold hookCallback internalConnectionCallback connectionCallback at h
  split at h
  · split at h
    · dsimp only at h
      split at h <;> cases h
      · exact ⟨fun s => { s with gConnectedPeer := peer }.note (.up peer w.user.gLocalSteamID),
          fun _ => ⟨rfl, rfl, rfl⟩, .inr rfl⟩
      · exact ⟨fun s => { s with gConnectedPeer := peer }.note (.up peer w.user.gLocalSteamID),
          fun _ => ⟨rfl, rfl, rfl⟩, .inl rfl⟩
    · dsimp only at h
      split at h <;> cases h
      · exact ⟨fun s => { s.note (.down peer) with gConnectedPeer := invalidPeerID },
          fun _ => ⟨rfl, rfl, rfl⟩, .inl rfl⟩
      · exact ⟨(·.note (.down peer)), fun _ => ⟨rfl, rfl, rfl⟩, .inl rfl⟩
  · cases h
    exact ⟨id, fun _ => ⟨rfl, rfl, rfl⟩, .inl rfl⟩

theorem stagePacket_trace (w : Process) : (stagePacket w).mgr.trace = w.mgr.trace := by
  unfold stagePacket
  split
  · rfl
  · rename_i size peer _
    obtain ⟨m, hm, hpop⟩ := p2pReadPacket_pops peer (size != 0) size w
    have htrace : (p2pReadPacket peer (size != 0) size w).2.2.mgr.trace = w.mgr.trace := by
      rw [hm]
      exact hpop.trace_eq
    split
    · rename_i he
      rw [he] at htrace
      split <;> exact htrace
    · rename_i he
      rw [he] at htrace
      exact htrace

theorem setAutoReconnect_trace (peer : PeerID) (enable : Bool) (baseDelayMs maxDelayMs : UInt32)
    (w : Process) :
    (p2pSetAutoReconnect peer enable baseDelayMs maxDelayMs w).mgr.trace = w.mgr.trace := by
  unfold p2pSetAutoReconnect
  split
  · rfl
  · unfold World.onMgr setAutoReconnect
    dsimp only
    split <;> rfl

end IsaacP2P.Hook
