import IsaacP2P.Client.Arrivals
import IsaacP2P.Client.Reading
import IsaacP2P.Hook.Links

/-!
# The packets on their way to the game

A packet that has arrived waits in the queue of the connection, then in the one
place `Hook_IsP2PPacketAvailable` stages it in, until `Hook_ReadP2PPacket` returns
it. `Turn` says what a step may do to it; every step but a read is one
(`step_turn`). So what the game reads, followed by what is on the way, is what
arrived (`delivered_once`).
-/

namespace IsaacP2P.Hook

open Client
open Fifo (Passes)

variable {k : Kernel} {w w' : Process} {p : PeerID} {h : SocketHandle}

/-- The sender of a packet and what it sent. -/
abbrev Message := CSteamID × List UInt8

/-- What the game gets of a packet: nothing, if it is too short for a `CSteamID`. -/
def messageOf (packet : Packet) : Option Message :=
  if 8 ≤ packet.length then some (steamIDOf (packet.take 8), packet.drop 8) else none

def Globals.staged (s : Globals) : List Message :=
  if s.gHasTcpData then [(s.gTcpRecvSteamID, s.gTcpRecvBuffer)] else []

/-- What has arrived from `p` and the game has not read. -/
def onWay (p : PeerID) (w : Process) : List Message :=
  w.user.staged ++ (w.mgr.unread p).filterMap messageOf

/-- As long as the connection of `p` keeps its socket `h`, the messages `out`
leave at the front and what arrives enters at the end. -/
def Hands (p : PeerID) (h : SocketHandle) (out : List Message) (w w' : Process) : Prop :=
  ∃ new, w'.mgr.trace = new ++ w.mgr.trace ∧ (w.mgr.held (.entry p) = some h →
    Client.Ev.close h ∈ new ∨ w'.mgr.held (.entry p) = some h ∧
      ∃ ps, arrived h w'.mgr.trace = arrived h w.mgr.trace ++ ps ∧
        Passes (ps.filterMap messageOf) out (onWay p w) (onWay p w'))

theorem Hands.refl (w : Process) : Hands p h [] w w :=
  ⟨[], rfl, fun hheld => .inr ⟨hheld, [], (List.append_nil _).symm, .refl _⟩⟩

theorem Hands.trans {w'' : Process} {out out' : List Message} (hw : Hands p h out w w')
    (hw' : Hands p h out' w' w'') : Hands p h (out ++ out') w w'' := by
  obtain ⟨new, ht, hr⟩ := hw
  obtain ⟨new', ht', hr'⟩ := hw'
  refine ⟨new' ++ new, by rw [ht', ht, List.append_assoc], fun hheld => ?_⟩
  rcases hr hheld with hclose | ⟨hmid, ps, ha, hq⟩
  · exact .inl (List.mem_append_right _ hclose)
  · rcases hr' hmid with hclose | ⟨hend, ps', ha', hq'⟩
    · exact .inl (List.mem_append_left _ hclose)
    · refine .inr ⟨hend, ps ++ ps', by rw [ha', ha, List.append_assoc], ?_⟩
      rw [List.filterMap_append]
      exact hq.trans hq'

theorem Hands.up {out : List Message} {new : List Client.Ev} (hw : Hands p h out w w')
    (hheld : w.mgr.held (.entry p) = some h) (ht : w'.mgr.trace = new ++ w.mgr.trace)
    (hup : Client.Ev.close h ∉ new) : w'.mgr.held (.entry p) = some h ∧
      ∃ ps, arrived h w'.mgr.trace = arrived h w.mgr.trace ++ ps ∧
        Passes (ps.filterMap messageOf) out (onWay p w) (onWay p w') := by
  obtain ⟨new', ht', hr⟩ := hw
  obtain rfl : new' = new := List.append_cancel_right (ht'.symm.trans ht)
  exact (hr hheld).resolve_left hup

/-! ## What a step does to them -/

/-- The variables a packet is staged in. -/
def Globals.staging (s : Globals) : Bool × CSteamID × List UInt8 :=
  (s.gHasTcpData, s.gTcpRecvSteamID, s.gTcpRecvBuffer)

theorem Globals.staged_eq {s s' : Globals} (hs : s'.staging = s.staging) :
    s'.staged = s.staged := by
  simp only [staging, Prod.mk.injEq] at hs
  obtain ⟨hhas, hid, hbuf⟩ := hs
  simp only [staged, hhas, hid, hbuf]

/-- What every state of the process has. -/
structure Sound (w : Process) : Prop where
  base : Base w
  apart : Apart w.mgr
  legal : w.mgr.Legal
  fits : w.user.gTcpRecvBuffer.length ≤ maxPacket

/-- The library takes no packet, and the hook stages none. -/
structure Idle (w w' : Process) : Prop where
  base : Base w'
  steps : Sparing False w.mgr w'.mgr
  staging : w'.user.staging = w.user.staging

theorem Idle.trans {w'' : Process} (hi : Idle w w') (hi' : Idle w' w'') : Idle w w'' :=
  ⟨hi'.base, hi.steps.trans hi'.steps, hi'.staging.trans hi.staging⟩

/-- What a step other than a read does to the packets. -/
inductive Turn (w : Process) : Process → Prop where
  | idle {w' : Process} : Idle w w' → Turn w w'
  | polled {v : Process} : Idle w v → v.user.gHasTcpData = false → Turn w (stagePacket v)
  /-- `P2P_Shutdown` closes all. -/
  | closed {v w' : Process} : Idle w v → Base w' → w'.mgr = { trace := (shutdown v.mgr).trace } →
      w'.user.staging = v.user.staging → Turn w w'

/-- The message is put in the place. -/
def Globals.stage (msg : Message) (s : Globals) : Globals :=
  { s with gTcpRecvSteamID := msg.1, gTcpRecvBuffer := msg.2, gHasTcpData := true }

theorem Base.empty (hb : Base w) (hi : w.mgr.mInitialized = false) : w.mgr.mConnections = ∅ := by
  refine AList.ext (List.eq_nil_iff_forall_not_mem.mpr fun e he => ?_)
  have := (hb.valid e.1 e.2 (AList.mem_lookup_iff.mpr he)).1
  rw [hi] at this
  cases this

theorem Base.ready (hb : Base w) : Ready w.mgr := fun hi => ⟨hb.empty hi, hb.listen⟩

theorem stagePacket_cases (hb : Base w) (hl : w.mgr.Legal) :
    (stagePacket w = w ∧ ∀ q, w.mgr.unread q = []) ∨ ∃ q c packet rest,
      w.mgr.mConnections.lookup q = some c ∧ c.receiveQueue = packet :: rest ∧
      stagePacket w = (match messageOf packet with
        | some msg => onHook (·.stage msg)
        | none => id) (w.onMgr (·.setConn q { c with receiveQueue := rest })) := by
  unfold stagePacket
  cases ha : p2pIsPacketAvailable invalidPeerID w with
  | none =>
    refine .inl ⟨rfl, fun q => ?_⟩
    unfold p2pIsPacketAvailable at ha
    split at ha
    · rename_i hi
      exact unread_of_none (by rw [hb.empty (by simpa using hi)]; rfl)
    · exact unread_of_unavailable ha q
  | some e =>
    obtain ⟨size, q⟩ := e
    have hi : w.mgr.mInitialized = true := by
      by_contra hno
      simp [p2pIsPacketAvailable, hno] at ha
    rw [p2pIsPacketAvailable, if_neg (by simp [hi])] at ha
    obtain ⟨c, packet, rest, hh, rfl⟩ := isPacketAvailable_some ha
    have hc := selected_lookup hh.selected
    have hlegal : packet.Legal := hl q c hc packet (by rw [hh.queue]; exact List.mem_cons_self ..)
    have hsize : packet.size ≠ 0 := by simpa using hlegal.size_ne_zero
    have hq : Head q w.mgr q c packet rest := by
      refine ⟨?_, hh.queue⟩
      rw [selected, if_neg (by simpa using (hb.valid q c hc).2), hc]
      rfl
    have hread := p2pReadPacket_done hi hsize hq (UInt32.le_refl _)
    have hlen : packet.size ≥ 8 ↔ 8 ≤ packet.length := by
      have hmax := hlegal.2
      simp only [maxPacket] at hmax
      rw [ge_iff_le, UInt32.le_iff_toNat_le, (copied_eq (by omega)).2]
      rfl
    refine .inr ⟨q, c, packet, rest, hc, hh.queue, ?_⟩
    have hbuffer : (packet.size != 0) = true := by simpa using hsize
    simp only [hbuffer, hread, messageOf, hlen]
    split <;> rfl

theorem messageOf_length {packet : Packet} {msg : Message} (hm : messageOf packet = some msg) :
    msg.2.length ≤ packet.length := by
  unfold messageOf at hm
  split at hm
  · cases hm
    exact (List.length_drop ..).trans_le (Nat.sub_le _ _)
  · cases hm

theorem Idle.sound (hi : Idle w w') (hs : Sound w) : Sound w' := by
  refine ⟨hi.base, hi.steps.apart hs.apart, hi.steps.legal hs.apart hs.legal, ?_⟩
  have hbuf : w'.user.gTcpRecvBuffer = w.user.gTcpRecvBuffer := congrArg (·.2.2) hi.staging
  rw [hbuf]
  exact hs.fits

theorem Idle.hands (hi : Idle w w') (hs : Sound w) : Hands p h [] w w' := by
  obtain ⟨new, ht, hr⟩ := hi.steps.receives hs.apart
  refine ⟨new, ht, fun hheld => (hr hheld).imp_right fun ⟨hheld', ps, ha, hq⟩ => ?_⟩
  refine ⟨hheld', ps, ha, ?_⟩
  rw [onWay, onWay, Globals.staged_eq hi.staging]
  exact (Passes.refl w.user.staged).pipe (hq.filterMap messageOf)

/-- The packet leaves the queue and enters the place, which is empty. -/
theorem stagePacket_sound (hs : Sound w) (hno : w.user.gHasTcpData = false) :
    Sound (stagePacket w) ∧ Hands p h [] w (stagePacket w) := by
  have hb := hs.base.quiet (stagePacket_quiet w)
  rcases stagePacket_cases hs.base hs.legal with ⟨he, -⟩ | ⟨q, c, packet, rest, hc, hq, he⟩
  · rw [he]
    exact ⟨hs, .refl w⟩
  · rw [he] at hb ⊢
    have hstep : Step {} w.mgr (w.mgr.setConn q { c with receiveQueue := rest }) :=
      .minor (.popped hc hq)
    have hapart := hstep.apart hs.apart
    have hlegal := hstep.legal hs.apart hs.legal
    have hheld : (w.mgr.setConn q { c with receiveQueue := rest }).held = w.mgr.held :=
      held_same hc rfl rfl rfl
    have hnone : w.user.staged = [] := by simp [Globals.staged, hno]
    -- the entry of `p` is the one read from, or there is no entry of `p`
    have hpass : w.mgr.held (.entry p) = some h → Passes [] [packet] (w.mgr.unread p)
        ((w.mgr.setConn q { c with receiveQueue := rest }).unread p) := by
      intro hp
      obtain ⟨-, d, hd, -⟩ := lookup_of_held hs.apart.2 hp
      obtain rfl := hs.base.one p q d c hd hc
      exact (popped_receives hc hq).2
    cases hm : messageOf packet with
    | none =>
      rw [hm] at hb
      refine ⟨⟨hb, hapart, hlegal, hs.fits⟩, [], rfl, fun hp => .inr ⟨?_, [], ?_, ?_⟩⟩
      · exact (congrFun hheld _).trans hp
      · exact (List.append_nil _).symm
      · have hsame := (hpass hp).filterMap messageOf
        simp only [List.filterMap_cons, hm, List.filterMap_nil] at hsame
        exact (Passes.refl w.user.staged).pipe hsame
    | some msg =>
      rw [hm] at hb
      refine ⟨⟨hb, hapart, hlegal, ?_⟩, [], rfl, fun hp => .inr ⟨?_, [], ?_, ?_⟩⟩
      · have hmem : packet ∈ c.receiveQueue := hq ▸ List.mem_cons_self ..
        exact (messageOf_length hm).trans (hs.legal q c hc packet hmem).2
      · exact (congrFun hheld _).trans hp
      · exact (List.append_nil _).symm
      · have hout := (hpass hp).filterMap messageOf
        simp only [List.filterMap_cons, hm, List.filterMap_nil] at hout
        have hin : Passes [msg] [] w.user.staged [msg] := by
          rw [hnone]
          exact .enter [msg] []
        exact hin.pipe hout

/-- **A step that is no read**: what is on the way stays, and what arrives is
added. -/
theorem Turn.sound (ht : Turn w w') (hs : Sound w) : Sound w' ∧ Hands p h [] w w' := by
  cases ht with
  | idle hi => exact ⟨hi.sound hs, hi.hands hs⟩
  | @polled v hi hno =>
    obtain ⟨hs', hh⟩ := stagePacket_sound (p := p) (h := h) (hi.sound hs) hno
    exact ⟨hs', (hi.hands hs).trans hh⟩
  | @closed v _ hi hb hmgr hst =>
    have hempty : w'.mgr.mConnections = ∅ := by rw [hmgr]
    have hnone : ∀ q, w'.mgr.held q = none :=
      held_of_empty (by rw [hempty]; rfl) (by rw [hmgr])
    have hbuf : w'.user.gTcpRecvBuffer = w.user.gTcpRecvBuffer :=
      congrArg (·.2.2) (hst.trans hi.staging)
    refine ⟨⟨hb, ⟨?_, ?_, ?_⟩, ?_, by rw [hbuf]; exact hs.fits⟩, ?_⟩
    · intro q c hc
      rw [hempty] at hc
      cases hc
    · intro q s hq
      rw [hnone] at hq
      cases hq
    · intro q q' s hq
      rw [hnone] at hq
      cases hq
    · intro q c hc
      rw [hempty] at hc
      cases hc
    · have hr : Receives p h w.mgr (shutdown v.mgr) :=
        (hi.steps.receives hs.apart).trans (shutdown_receives hi.base.ready)
      obtain ⟨new, ht, hclose⟩ := hr
      refine ⟨new, by rw [hmgr, ← ht], fun hheld => .inl ((hclose hheld).resolve_right ?_)⟩
      obtain ⟨-, -, -, -, hgone⟩ := shutdown_handled True hi.base.ready
      rw [hgone]
      rintro ⟨hno, -⟩
      cases hno

/-! ## The steps -/

theorem p2pSendPacket_user (peer : PeerID) (data : Option (List UInt8)) (w : Process) :
    (p2pSendPacket k peer data w).2.user = w.user := by
  rcases p2pSendPacket_cases (k := k) peer data w with he | he
  · rw [he]
  · rw [he, World.onMgr_user]

theorem p2pSendPacket_sparing (peer : PeerID) (data : Option (List UInt8)) (w : Process) :
    Sparing False w.mgr (p2pSendPacket k peer data w).2.mgr := by
  rcases p2pSendPacket_cases (k := k) peer data w with he | he
  · rw [he]
  · rw [he]
    exact (Poke.sendPacket peer data).sparing (.inr (sendPacket_spares k peer data w.mgr))

theorem hookCallback_reader : Reader False hookCallback := by
  intro k peer e w w' hcall
  obtain ⟨f, -, rfl | rfl⟩ := hookCallback_cases hcall
  · exact .refl
  · rcases p2pSendPacket_cases (k := k) peer (some (steamIDBytes w.user.gLocalSteamID))
      (onHook f w) with he | he
    · rw [he]
      exact .refl
    · rw [he]
      exact .single ⟨.sendPacket peer _, .inr (sendPacket_spares k peer _ w.mgr)⟩

theorem hookCallback_staging (peer : PeerID) (e : ConnectionEvent) (w w' : Process)
    (hcall : hookCallback k peer e w = some w') : w'.user.staging = w.user.staging := by
  obtain ⟨f, hf, hw⟩ := hookCallback_cases hcall
  have huser : w'.user = f w.user := by
    rcases hw with rfl | rfl
    · rfl
    · exact p2pSendPacket_user ..
  rw [huser]
  simp only [Globals.staging, hf]

theorem runCallbacks_idle (hb : Base w) (hr : p2pRunCallbacks connectionCallback k w = some w') :
    Idle w w' := by
  have hb' := Moves.invariant (fun _ _ hb hm => hb.move hm) hb (runCallbacks_moves hr)
  unfold p2pRunCallbacks at hr
  split at hr
  · rename_i hi
    refine ⟨hb', processEvents_sparing hookCallback_reader hi hr, ?_⟩
    exact Acts.invariant (P := fun v => v.user.staging = w.user.staging)
      (fun v v' hv ha => (ha.user (f := Globals.staging) hookCallback_staging).trans hv) rfl
      (processEvents_acts hr)
  · cases hr
    exact ⟨hb', .refl, rfl⟩

theorem setAutoReconnect_idle (hb : Base w) (peer : PeerID) (enable : Bool)
    (baseDelayMs maxDelayMs : UInt32) :
    Idle w (p2pSetAutoReconnect peer enable baseDelayMs maxDelayMs w) := by
  refine ⟨hb.quiet (setAutoReconnect_quiet peer enable baseDelayMs maxDelayMs w), ?_, ?_⟩
  · unfold p2pSetAutoReconnect
    split
    · exact .refl
    · exact (Poke.setAutoReconnect (k := {}) peer enable baseDelayMs maxDelayMs).sparing
        (.inr (setAutoReconnect_spares peer enable baseDelayMs maxDelayMs w.mgr))
  · unfold p2pSetAutoReconnect
    split <;> rfl

theorem disconnect_idle {peer : PeerID} (hb : Base w)
    (hd : p2pDisconnect connectionCallback k peer w = some w') : Idle w w' := by
  unfold p2pDisconnect disconnect at hd
  split at hd
  · split at hd
    · cases hd
      exact ⟨hb, .refl, rfl⟩
    · rename_i c hc
      obtain ⟨m, hn, ha⟩ := Option.bind_eq_some_iff.mp hd
      have hl : Loses hookCallback k peer c w w' := ⟨hc, m, hn, ha⟩
      exact ⟨hb.quiet (loses_quiet hb hl).1, hl.sparing hookCallback_reader,
        hl.user (f := Globals.staging) hookCallback_staging⟩
  · cases hd
    exact ⟨hb, .refl, rfl⟩

theorem hangUp_idle (hb : Base w) (hh : hangUp k w = some w') : Idle w w' := by
  unfold hangUp at hh
  split at hh
  · obtain ⟨v, hd, hh⟩ := Option.bind_eq_some_iff.mp hh
    cases hh
    have hoff := setAutoReconnect_idle hb w.user.gConnectedPeer false 0 0
    have hdown := hoff.trans (disconnect_idle hoff.base hd)
    exact ⟨hdown.base.quiet (quiet_onHook rfl rfl rfl), hdown.steps, hdown.staging⟩
  · cases hh
    exact ⟨hb, .refl, rfl⟩

theorem isAvailable_cases {out : Option UInt32} (ha : hookIsP2PPacketAvailable k w = some (out, w')) :
    ∃ v, p2pRunCallbacks connectionCallback k w = some v ∧
      (v.user.gHasTcpData = true ∧ w' = v ∨ v.user.gHasTcpData = false ∧ w' = stagePacket v) ∧
      out = if w'.user.gHasTcpData then some (UInt32.ofNat w'.user.gTcpRecvBuffer.length)
        else none := by
  obtain ⟨v, hr, ha⟩ := Option.bind_eq_some_iff.mp ha
  have hnext : ∀ v', (if v'.user.gHasTcpData then
      some (some (UInt32.ofNat v'.user.gTcpRecvBuffer.length), v') else some (none, v')) =
        some (out, w') → w' = v' ∧ out = if w'.user.gHasTcpData then
          some (UInt32.ofNat w'.user.gTcpRecvBuffer.length) else none := by
    intro v' h
    split at h
    · rename_i hhas
      cases h
      exact ⟨rfl, by rw [if_pos hhas]⟩
    · rename_i hno
      cases h
      exact ⟨rfl, by rw [if_neg hno]⟩
  obtain ⟨hw', hout⟩ := hnext _ ha
  refine ⟨v, hr, ?_, hout⟩
  cases hhas : v.user.gHasTcpData with
  | true =>
    rw [hhas] at hw'
    exact .inl ⟨rfl, hw'⟩
  | false =>
    rw [hhas] at hw'
    exact .inr ⟨rfl, hw'⟩

theorem isAvailable_turn (hb : Base w) {out : Option UInt32}
    (ha : hookIsP2PPacketAvailable k w = some (out, w')) :
    Turn w w' ∧ out = if w'.user.gHasTcpData then
      some (UInt32.ofNat w'.user.gTcpRecvBuffer.length) else none := by
  obtain ⟨v, hr, hv, hout⟩ := isAvailable_cases ha
  have hi := runCallbacks_idle hb hr
  rcases hv with ⟨-, rfl⟩ | ⟨hno, rfl⟩
  · exact ⟨.idle hi, hout⟩
  · exact ⟨.polled hi hno, hout⟩

theorem step_turn {i : Kernel × Input} (hb : Base w) (hread : ∀ dest cub, i.2 ≠ .read dest cub)
    (hs : step i w = some w') : Turn w w' := by
  have hb' : Base w' := step_base hb hs
  obtain ⟨k, input⟩ := i
  cases input with
  | hookVTable ok =>
    simp only [step] at hs
    split at hs
    · cases hs
      exact .idle ⟨hb', .refl, rfl⟩
    · cases hs
  | identify id =>
    simp only [step] at hs
    split at hs
    · cases hs
      exact .idle ⟨hb', .refl, rfl⟩
    · cases hs
  | register =>
    simp only [step] at hs
    split at hs
    · cases hs
      refine .idle ⟨hb', p2pSendPacket_sparing _ _ (onHook _ w), ?_⟩
      rw [register, p2pSendPacket_user]
      rfl
    · cases hs
  | pump =>
    simp only [step] at hs
    split at hs
    · exact .idle (runCallbacks_idle hb hs)
    · cases hs
  | isAvailable =>
    simp only [step] at hs
    split at hs
    · obtain ⟨⟨out, v⟩, ha, rfl⟩ := Option.map_eq_some_iff.mp hs
      exact (isAvailable_turn hb ha).1
    · cases hs
  | read dest cub => exact absurd rfl (hread dest cub)
  | send target src cub =>
    rcases sendP2PPacket_cases (step_send hs) with ⟨-, d, -, rfl⟩ | ⟨-, rfl⟩
    · refine .idle ⟨hb', p2pSendPacket_sparing _ _ w, ?_⟩
      rw [p2pSendPacket_user]
    · exact .idle ⟨hb', .refl, rfl⟩
  | detach =>
    obtain ⟨v, hh, hs⟩ := Option.bind_eq_some_iff.mp hs
    cases hs
    exact .closed (hangUp_idle hb hh) hb' rfl rfl

/-! ## Reads -/

/-- The result of a read that returns the message; `pubDest` says whether there
is a buffer. -/
structure Gives (pubDest : Bool) (r : ReadResult) (msg : Message) : Prop where
  steamID : r.steamID = msg.1
  size : r.size.toNat = msg.2.length
  copied : r.copied = if pubDest then msg.2 else []

/-- What a step returns to the game, if it is a read that returns true. -/
def result (i : Kernel × Input) (w : Process) : List (Bool × ReadResult) :=
  match i.2 with
  | .read pubDest cubDest => ((hookReadP2PPacket pubDest cubDest w).1.map (pubDest, ·)).toList
  | _ => []

def returned : List (Kernel × Input) → Process → List (Bool × ReadResult)
  | [], _ => []
  | i :: is, w => result i w ++ ((step i w).map (returned is)).getD []

/-- The results are those of the messages, one by one. -/
abbrev Gave (results : List (Bool × ReadResult)) (out : List Message) : Prop :=
  List.Forall₂ (fun x msg => Gives x.1 x.2 msg) results out

theorem readP2PPacket_gives (hs : Sound w) (pubDest : Bool) (cubDest : UInt32) :
    Gave ((hookReadP2PPacket pubDest cubDest w).1.map (pubDest, ·)).toList w.user.staged ∧
      (hookReadP2PPacket pubDest cubDest w).2.user.staged = [] := by
  unfold hookReadP2PPacket
  cases hhas : w.user.gHasTcpData with
  | false => simp [Globals.staged, hhas]
  | true =>
    have hlen := hs.fits
    simp only [maxPacket] at hlen
    have hsize :
        (UInt32.ofNat w.user.gTcpRecvBuffer.length).toNat = w.user.gTcpRecvBuffer.length := by
      rw [UInt32.toNat_ofNat', Nat.mod_eq_of_lt (by omega)]
    rw [if_pos rfl, Globals.staged, if_pos hhas]
    refine ⟨.cons ⟨rfl, hsize, ?_⟩ .nil, rfl⟩
    dsimp only
    rw [hsize, List.take_length]
    cases pubDest with
    | false => rfl
    | true =>
      split
      · rfl
      · rename_i hno
        have hzero : UInt32.ofNat w.user.gTcpRecvBuffer.length = 0 := by simpa using hno
        rw [hzero] at hsize
        exact (List.length_eq_zero_iff.mp hsize.symm).symm

theorem readP2PPacket_mgr (pubDest : Bool) (cubDest : UInt32) (w : Process) :
    (hookReadP2PPacket pubDest cubDest w).2.mgr = w.mgr := by
  unfold hookReadP2PPacket
  split <;> rfl

theorem read_sound (hs : Sound w) (pubDest : Bool) (cubDest : UInt32) :
    Sound (hookReadP2PPacket pubDest cubDest w).2 ∧
      Hands p h w.user.staged w (hookReadP2PPacket pubDest cubDest w).2 := by
  have hb := hs.base.quiet (readP2PPacket_quiet pubDest cubDest w)
  have hempty := (readP2PPacket_gives hs pubDest cubDest).2
  have hmgr := readP2PPacket_mgr pubDest cubDest w
  refine ⟨⟨hb, by rw [hmgr]; exact hs.apart, by rw [hmgr]; exact hs.legal, ?_⟩, [], by rw [hmgr]; rfl,
    fun hheld => .inr ⟨by rw [hmgr]; exact hheld, [], ?_, ?_⟩⟩
  · unfold hookReadP2PPacket
    split
    · exact Nat.zero_le _
    · exact hs.fits
  · rw [hmgr, List.append_nil]
  · rw [onWay, onWay, hempty, hmgr]
    exact .leave w.user.staged _

/-! ## Runs -/

/-- **A step**: the message a read returns leaves at the front. -/
theorem step_hands {i : Kernel × Input} (hs : Sound w) (hi : step i w = some w') :
    Sound w' ∧ ∃ out, Gave (result i w) out ∧ Hands p h out w w' := by
  obtain ⟨k, input⟩ := i
  cases input with
  | read pubDest cubDest =>
    rw [step_read hi]
    obtain ⟨hs', hh⟩ := read_sound (p := p) (h := h) hs pubDest cubDest
    exact ⟨hs', _, (readP2PPacket_gives hs pubDest cubDest).1, hh⟩
  | _ =>
    obtain ⟨hs', hh⟩ := (step_turn hs.base (by simp) hi).sound (p := p) (h := h) hs
    exact ⟨hs', [], .nil, hh⟩

theorem run_hands {is : List (Kernel × Input)} (hs : Sound w)
    (hr : Runs.run step is w = some w') :
    ∃ out, Gave (returned is w) out ∧ Hands p h out w w' := by
  induction is generalizing w with
  | nil =>
    cases hr
    exact ⟨[], .nil, .refl _⟩
  | cons i is ih =>
    obtain ⟨v, hi, hr⟩ := Runs.run_cons_iff.mp hr
    obtain ⟨hs', out, hgave, hh⟩ := step_hands (p := p) (h := h) hs hi
    obtain ⟨out', hgave', hh'⟩ := ih hs' hr
    refine ⟨out ++ out', ?_, hh.trans hh'⟩
    rw [returned, hi]
    exact List.rel_append hgave hgave'

theorem attach_steps {ip : Text} {port : UInt16} (ha : attach k ip port = some w) :
    Steps {} readyProcess.mgr w.mgr ∧ w.user.gTcpRecvBuffer = [] := by
  rcases attach_cases ha with ⟨m, hd, rfl⟩ | ⟨sock, hv, rfl⟩
  · exact ⟨.single (.minor (.dialed hd)), rfl⟩
  · have hf : readyProcess.mgr.free sock = true := by
      simp [Manager.free, readyProcess, isOpen, hv]
    have hup : Step {} readyProcess.mgr (noteUp 1 (dialed sock ip port)).mgr :=
      .entered (.inl rfl) hf trivial
    have hbase := (dialed_base hv ip port).noteUp 1
    have hset := setAutoReconnect_idle hbase 1 true 500 (10 * 1000)
    exact ⟨.head hup hset.steps.steps, congrArg (·.2.2) hset.staging⟩

theorem readyProcess_apart : Apart readyProcess.mgr := by
  have hnone : ∀ q, readyProcess.mgr.held q = none := held_of_empty rfl rfl
  refine ⟨nofun, ?_, ?_⟩
  · intro q s hq
    rw [hnone] at hq
    cases hq
  · intro q q' s hq
    rw [hnone] at hq
    cases hq

theorem attach_sound {ip : Text} {port : UInt16} (ha : attach k ip port = some w) : Sound w := by
  obtain ⟨hsteps, hbuf⟩ := attach_steps ha
  obtain ⟨hapart, hlegal⟩ := hsteps.invariant (P := fun m => Apart m ∧ m.Legal)
    (fun _ _ hm hs => ⟨hs.apart hm.1, hs.legal hm.1 hm.2⟩) ⟨readyProcess_apart, nofun⟩
  exact ⟨attach_base ha, hapart, hlegal, by rw [hbuf]; exact Nat.zero_le _⟩

theorem Reachable.run {is : List (Kernel × Input)} (hw : Reachable w)
    (hr : Runs.run step is w = some w') : Reachable w' := by
  obtain ⟨k, ip, port, w₀, hstart, hreach⟩ := hw
  exact ⟨k, ip, port, w₀, hstart, Runs.Reachable.run hreach hr⟩

theorem reachable_sound (hw : Reachable w) : Sound w := by
  obtain ⟨k, ip, port, w₀, hstart, hr⟩ := hw
  exact hr.invariant (attach_sound hstart) fun i w w' hs hi =>
    (step_hands (p := 0) (h := 0) hs hi).1

/-- What is staged stays, until it is read. -/
theorem Turn.keeps (ht : Turn w w') (hhas : w.user.gHasTcpData = true) :
    w'.user.staging = w.user.staging := by
  cases ht with
  | idle hi => exact hi.staging
  | polled hi hno =>
    have hsame := congrArg (·.1) hi.staging
    have := hsame.symm.trans hno
    rw [show w.user.staging.1 = w.user.gHasTcpData from rfl, hhas] at this
    cases this
  | closed hi _ _ hst => exact hst.trans hi.staging

theorem run_keeps {is : List (Kernel × Input)} (hs : Sound w)
    (hr : Runs.run step is w = some w') (hhas : w.user.gHasTcpData = true)
    (hno : ∀ i ∈ is, ∀ dest cub, i.2 ≠ .read dest cub) : w'.user.staging = w.user.staging := by
  induction is generalizing w with
  | nil =>
    cases hr
    rfl
  | cons i is ih =>
    obtain ⟨v, hi, hr⟩ := Runs.run_cons_iff.mp hr
    have hst := (step_turn hs.base (hno i (List.mem_cons_self ..)) hi).keeps hhas
    have hhas' : v.user.gHasTcpData = true := (congrArg (·.1) hst).trans hhas
    exact (ih (step_hands (p := 0) (h := 0) hs hi).1 hr hhas'
      fun j hj => hno j (List.mem_cons_of_mem _ hj)).trans hst

/-- **Every packet is delivered once, in order.** As long as the connection of `p`
is not closed, what the game reads, followed by the packet that is staged and by
those in the queue, is what was on the way and what arrives, each split into its
`CSteamID` and the rest. And a read returns the size announced last. -/
theorem delivered_once (hw : Reachable w) :
    (∀ p h is w' new, w.mgr.held (.entry p) = some h → Runs.run step is w = some w' →
      w'.mgr.trace = new ++ w.mgr.trace → Client.Ev.close h ∉ new →
      w'.mgr.held (.entry p) = some h ∧ (∀ q, q ≠ p → w'.mgr.unread q = []) ∧
      ∃ ps out, arrived h w'.mgr.trace = arrived h w.mgr.trace ++ ps ∧
        Gave (returned is w) out ∧
        out ++ w'.user.staged ++ (w'.mgr.unread p).filterMap messageOf =
          w.user.staged ++ (w.mgr.unread p).filterMap messageOf ++ ps.filterMap messageOf) ∧
    ∀ k size v is w', hookIsP2PPacketAvailable k w = some (some size, v) →
      Runs.run step is v = some w' → (∀ i ∈ is, ∀ dest cub, i.2 ≠ .read dest cub) →
      ∀ pubDest cubDest, ∃ r, (hookReadP2PPacket pubDest cubDest w').1 = some r ∧ r.size = size := by
  have hs := reachable_sound hw
  refine ⟨fun p h is w' new hheld hr ht hup => ?_, fun k size v is w' ha hr hno pubDest cubDest => ?_⟩
  · obtain ⟨out, hgave, hh⟩ := run_hands (p := p) (h := h) hs hr
    obtain ⟨hheld', ps, ha, hq⟩ := hh.up hheld ht hup
    have hs' : Sound w' := Runs.run_invariant
      (fun _ _ _ hs hi => (step_hands (p := 0) (h := 0) hs hi).1) hs hr
    refine ⟨hheld', fun q hqp => ?_, ps, out, ha, hgave, ?_⟩
    · obtain ⟨-, c, hc, -⟩ := lookup_of_held hs'.apart.2 hheld'
      cases hd : w'.mgr.mConnections.lookup q with
      | none => exact unread_of_none hd
      | some d => exact absurd (hs'.base.one q p d c hd hc) hqp
    · rw [List.append_assoc]
      exact hq.symm
  · obtain ⟨hturn, hout⟩ := isAvailable_turn hs.base ha
    have hhas : v.user.gHasTcpData = true := by
      by_contra hno
      rw [if_neg hno] at hout
      cases hout
    rw [if_pos hhas] at hout
    have hst := run_keeps (hturn.sound (p := 0) (h := 0) hs).1 hr hhas hno
    simp only [Globals.staging, Prod.mk.injEq] at hst
    obtain ⟨hhas', -, hbuf⟩ := hst
    unfold hookReadP2PPacket
    rw [if_pos (hhas'.trans hhas), hbuf]
    exact ⟨_, rfl, (Option.some.inj hout).symm⟩

/-- The relay sends a packet of two bytes from 5, and one too short for the game. -/
def relayKernel : Client.Kernel where
  socket _ := 7
  select _ := { readable := fun _ => true }
  recv _ _ :=
    ([LengthPrefixed.frame [5, 0, 0, 0, 0, 0, 0, 0, 8, 9] ++ LengthPrefixed.frame [1]], .again)

/-- The process behind `DllMain`, connected to that relay. -/
def linked : Process := (attach relayKernel ['r'] 27015).get (by decide +kernel)

theorem linked_reachable : Reachable linked :=
  ⟨relayKernel, ['r'], 27015, linked, by simp [linked], .refl _⟩

/-- The game polls twice and reads once; packets arrive at each poll. -/
def gameRun : List (Kernel × Input) :=
  [(relayKernel, .hookVTable true), (relayKernel, .isAvailable), (relayKernel, .isAvailable),
    (relayKernel, .read true 1024)]

theorem gameRun_delivered : ∃ w, Runs.run step gameRun linked = some w ∧
    ∃ out, Gave (returned gameRun linked) out ∧
      out ++ w.user.staged ++ (w.mgr.unread 1).filterMap messageOf = [(5, [8, 9]), (5, [8, 9])] := by
  let w := (Runs.run step gameRun linked).get (by decide +kernel)
  have hr : Runs.run step gameRun linked = some w := by simp [w]
  have hend : w.mgr.trace = w.mgr.trace.take (w.mgr.trace.length - linked.mgr.trace.length) ++
      linked.mgr.trace := by decide +kernel
  obtain ⟨-, -, ps, out, ha, hgave, hq⟩ := (delivered_once linked_reachable).1 1 7 gameRun w _
    (by decide +kernel) hr hend (by decide +kernel)
  refine ⟨w, hr, out, hgave, ?_⟩
  have hps : ps = [[5, 0, 0, 0, 0, 0, 0, 0, 8, 9], [1], [5, 0, 0, 0, 0, 0, 0, 0, 8, 9], [1]] := by
    have harrived : arrived 7 w.mgr.trace =
        [[5, 0, 0, 0, 0, 0, 0, 0, 8, 9], [1], [5, 0, 0, 0, 0, 0, 0, 0, 8, 9], [1]] := by
      decide +kernel
    have hnone : arrived 7 linked.mgr.trace = [] := by decide +kernel
    rw [harrived, hnone] at ha
    exact ha.symm
  rw [hq, hps]
  decide +kernel

/-! ## The buffer of the game -/

/-- **A read stays inside the buffer exactly if nothing larger is staged.** The
size stored is the number of bytes copied then, as always. -/
theorem read_inside_iff (hw : Reachable w) (cubDest : UInt32) :
    (∀ r, (hookReadP2PPacket true cubDest w).1 = some r →
      r.copied.length ≤ cubDest.toNat ∧ r.size.toNat = r.copied.length) ↔
    (w.user.gHasTcpData = true → w.user.gTcpRecvBuffer.length ≤ cubDest.toNat) := by
  have hgave := (readP2PPacket_gives (reachable_sound hw) true cubDest).1
  constructor
  · intro hin hhas
    rw [Globals.staged, if_pos hhas] at hgave
    cases hr : (hookReadP2PPacket true cubDest w).1 with
    | none =>
      rw [hr] at hgave
      cases hgave
    | some r =>
      rw [hr] at hgave
      cases hgave with
      | cons hg _ =>
        have hcopied : r.copied = w.user.gTcpRecvBuffer := hg.copied
        rw [← hcopied]
        exact (hin r hr).1
  · intro hle r hr
    cases hhas : w.user.gHasTcpData with
    | false =>
      rw [hookReadP2PPacket, if_neg (by simp [hhas])] at hr
      cases hr
    | true =>
      rw [hr, Globals.staged, if_pos hhas] at hgave
      cases hgave with
      | cons hg _ =>
        have hcopied : r.copied = w.user.gTcpRecvBuffer := hg.copied
        rw [hcopied]
        exact ⟨hle hhas, hg.size⟩

theorem read_inside_staged : ∃ w, Runs.run step (gameRun.take 2) linked = some w ∧
    (∀ r, (hookReadP2PPacket true 2 w).1 = some r →
      r.copied.length ≤ 2 ∧ r.size.toNat = r.copied.length) := by
  let w := (Runs.run step (gameRun.take 2) linked).get (by decide +kernel)
  have hr : Runs.run step (gameRun.take 2) linked = some w := by simp [w]
  exact ⟨w, hr, (read_inside_iff (linked_reachable.run hr) 2).mpr (by decide +kernel)⟩

/-- The game offers one byte, and two are copied. -/
theorem read_overruns : ¬ ∀ (w : Process) (cubDest : UInt32) (r : ReadResult), Reachable w →
    (hookReadP2PPacket true cubDest w).1 = some r →
    r.copied.length ≤ cubDest.toNat ∧ r.size.toNat = r.copied.length := by
  intro hall
  let w := (Runs.run step (gameRun.take 2) linked).get (by decide +kernel)
  have hr : Runs.run step (gameRun.take 2) linked = some w := by simp [w]
  have hread : (hookReadP2PPacket true 1 w).1 = some ⟨[8, 9], 2, 5⟩ := by decide +kernel
  have := (hall w 1 _ (linked_reachable.run hr) hread).1
  exact absurd this (by decide)

end IsaacP2P.Hook
