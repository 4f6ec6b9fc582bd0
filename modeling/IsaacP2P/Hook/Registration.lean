import IsaacP2P.Hook.Links

/-!
# Which frame is first on a link

Two paths hand over the registration packet: `ConnectionCallback`, for a link
that comes up once `g_localSteamID` is set, and `InjectionThread`, once, on the
link that is up then. `covered` says that one of them has served the link.

The invariant `Inv` says that a link is covered exactly if a frame was made for
it, and that the first frame on every socket is the registration packet. Every
step keeps it but one: a packet of the game on a link that is not covered.
-/

namespace IsaacP2P.Hook

open Client

variable {k : Kernel} {w w' : Process}

/-- On every socket the first frame handed over is the registration packet. -/
def FirstFrameOk (w : Process) : Prop :=
  ∀ h p ps, framed h w.mgr.trace = p :: ps → p = steamIDBytes w.user.gLocalSteamID

structure Inv (w : Process) : Prop where
  base : Base w
  known : ∀ p c, w.mgr.mConnections.lookup p = some c → c.connected = true →
    w.user.gConnectedPeer = p
  first : FirstFrameOk w
  linked : ∀ p c, w.mgr.mConnections.lookup p = some c → c.connected = true →
    (covered w.user.log = true ↔ framed c.socket w.mgr.trace ≠ [])
  silent : w.user.Unidentified → ∀ h, framed h w.mgr.trace = []

/-! ## Changes that frame nothing -/

/-- No link comes up, and no packet is framed. -/
structure Calm (w w' : Process) : Prop extends Quiet w w' where
  up : ∀ p c', w'.mgr.mConnections.lookup p = some c' → c'.connected = true →
    w'.user.gConnectedPeer = w.user.gConnectedPeer ∧
      framed c'.socket w'.mgr.trace = framed c'.socket w.mgr.trace
  framed : ∀ h, framed h w'.mgr.trace = framed h w.mgr.trace ∨ framed h w'.mgr.trace = []

theorem Quiet.calm (hq : Quiet w w') (hpeer : w'.user.gConnectedPeer = w.user.gConnectedPeer)
    (hf : ∀ h, framed h w'.mgr.trace = framed h w.mgr.trace) : Calm w w' :=
  { hq with up := fun _ _ _ _ => ⟨hpeer, hf _⟩, framed := fun h => .inl (hf h) }

/-- If nothing is up it does not matter whom the hook takes for its peer. -/
theorem Quiet.calm_down (hq : Quiet w w')
    (hdown : ∀ p c', w'.mgr.mConnections.lookup p = some c' → c'.connected = false)
    (hf : ∀ h, framed h w'.mgr.trace = framed h w.mgr.trace ∨ framed h w'.mgr.trace = []) :
    Calm w w' :=
  { hq with
    up := fun p c' hc' hconn => by rw [hdown p c' hc'] at hconn; cases hconn
    framed := hf }

theorem Inv.calm (hi : Inv w) (h : Calm w w') : Inv w' where
  base := hi.base.quiet h.toQuiet
  known p c' hc' hconn := by
    obtain ⟨c, hc, hup⟩ := h.conns p c' hc'
    exact (h.up p c' hc' hconn).1.trans (hi.known p c hc (hup hconn).1)
  first g p ps hf := by
    rw [h.id]
    rcases h.framed g with hsame | hnil
    · exact hi.first g p ps (hsame ▸ hf)
    · rw [hnil] at hf
      cases hf
  linked p c' hc' hconn := by
    obtain ⟨c, hc, hup⟩ := h.conns p c' hc'
    obtain ⟨hconn', hs, -⟩ := hup hconn
    rw [h.covered, (h.up p c' hc' hconn).2, hs]
    exact hi.linked p c hc hconn'
  silent hun g := by
    rw [Globals.Unidentified, h.injection] at hun
    rcases h.framed g with hsame | hnil
    · rw [hsame]
      exact hi.silent hun g
    · exact hnil

/-! ## A packet is handed over -/

theorem p2pSendPacket_eq (hb : Base w) (peer : PeerID) (d : List UInt8) :
    (p2pSendPacket k peer (some d) w).2 =
      { w with mgr := (sendPacket k peer (some d) w.mgr).2 } := by
  cases hc : w.mgr.mConnections.lookup peer with
  | some c =>
    obtain ⟨hi, hp⟩ := hb.valid peer c hc
    rw [p2pSendPacket, if_neg (by simp [hi]), if_neg (by simpa using hp)]
    dsimp only
    split
    · rename_i hsize
      simp only [sendPacket, if_pos hsize]
    · rfl
  | none =>
    have hsame : (sendPacket k peer (some d) w.mgr).2 = w.mgr := by
      unfold sendPacket
      dsimp only
      split
      · rfl
      · rw [hc]
    rcases p2pSendPacket_cases (k := k) peer (some d) w with he | he
    · rw [he, hsame]
    · rw [he]
      rfl

/-- What a packet for the peer does to the books: nothing, or one more frame on
the socket of the connection that is up. -/
theorem sendPacket_framed (peer : PeerID) {d : List UInt8} (hsize : UInt32.ofNat d.length ≠ 0)
    (m : Manager) :
    ((∀ c, m.mConnections.lookup peer = some c → c.connected = false) ∧
        (sendPacket k peer (some d) m).2 = m) ∨
      ∃ c, m.mConnections.lookup peer = some c ∧ c.connected = true ∧
        ∀ g, framed g (sendPacket k peer (some d) m).2.trace =
          if c.socket = g then framed g m.trace ++ [d] else framed g m.trace := by
  have hs := sendPacket_sends k peer (some d) m
  generalize (sendPacket k peer (some d) m).1 = b at hs
  generalize (sendPacket k peer (some d) m).2 = m' at hs ⊢
  cases hs with
  | refused hno =>
    refine .inl ⟨fun c hc => ?_, rfl⟩
    by_contra hconn
    exact hno d c ⟨rfl, hsize, hc, by simpa using hconn⟩
  | sent hf _ _ _ | failed hf _ =>
    obtain ⟨hd, -, hc, hconn⟩ := hf
    cases hd
    exact .inr ⟨_, hc, hconn, fun _ => rfl⟩

/-- **A packet for the link that is up**: it may be the first frame only if it is
the registration packet, and the link is covered then. -/
theorem Base.post (hb : Base w) (hfirst : FirstFrameOk w)
    (hsilent : w.user.Unidentified → ∀ h, framed h w.mgr.trace = []) {peer : PeerID}
    {d : List UInt8} (hsize : UInt32.ofNat d.length ≠ 0)
    (hpeer : ∀ p c, w.mgr.mConnections.lookup p = some c → c.connected = true →
      p = peer ∧ w.user.gConnectedPeer = p)
    (hcov : ∀ c, w.mgr.mConnections.lookup peer = some c → c.connected = true →
      covered w.user.log = true ∧
        (framed c.socket w.mgr.trace = [] → d = steamIDBytes w.user.gLocalSteamID)) :
    Inv (p2pSendPacket k peer (some d) w).2 := by
  have hq := p2pSendPacket_quiet (k := k) peer (some d) w
  rw [p2pSendPacket_eq hb] at hq ⊢
  rcases sendPacket_framed (k := k) peer hsize w.mgr
    with ⟨hdown, hsame⟩ | ⟨c, hc, hconn, hf⟩
  · rw [hsame]
    refine ⟨hb, fun p c hc hconn => (hpeer p c hc hconn).2, hfirst, fun p c hc hconn => ?_, hsilent⟩
    obtain ⟨rfl, -⟩ := hpeer p c hc hconn
    have := (hdown c hc).symm.trans hconn
    cases this
  · obtain ⟨hup, hreg⟩ := hcov c hc hconn
    -- an entry that is up afterwards is the one the packet was framed for
    have hsocket : ∀ p c', (sendPacket k peer (some d) w.mgr).2.mConnections.lookup p = some c' →
        c'.connected = true → w.user.gConnectedPeer = p ∧ c'.socket = c.socket := by
      intro p c' hc' hconn'
      obtain ⟨c₀, hc₀, hup₀⟩ := hq.conns p c' hc'
      obtain ⟨hconn₀, hs, -⟩ := hup₀ hconn'
      obtain ⟨rfl, hp⟩ := hpeer p c₀ hc₀ hconn₀
      rw [hc] at hc₀
      cases hc₀
      exact ⟨hp, hs⟩
    refine ⟨hb.quiet hq, fun p c' hc' hconn' => (hsocket p c' hc' hconn').1, fun g x xs hx => ?_,
      fun p c' hc' hconn' => ?_, fun hun => ?_⟩
    · rw [hf] at hx
      split at hx
      · rename_i hg
        subst hg
        cases hold : framed c.socket w.mgr.trace with
        | nil =>
          rw [hold] at hx
          cases hx
          exact hreg hold
        | cons y ys =>
          rw [hold] at hx
          cases hx
          exact hfirst _ _ _ hold
      · exact hfirst g x xs hx
    · change covered w.user.log = true ↔ _
      rw [(hsocket p c' hc' hconn').2, hf, if_pos rfl]
      simp [hup]
    · have := (hb.unset hun).2
      rw [hup] at this
      cases this

/-- **A link that comes up on a fresh socket**: its first frame, if there is one
yet, is the registration packet. -/
theorem Base.linkUp_inv {peer : PeerID} (hb : Base w) (hinit : w.mgr.mInitialized = true)
    (hfirst : FirstFrameOk w) (hsilent : w.user.Unidentified → ∀ h, framed h w.mgr.trace = [])
    (hentry : ∀ p c, w.mgr.mConnections.lookup p = some c →
      p = peer ∧ framed c.socket w.mgr.trace = [])
    (hn : notifyConnectionEvent hookCallback k peer .connected w = some w') : Inv w' := by
  have hb' := hb.linkUp hinit hn
  obtain ⟨hcb, hg⟩ := hb.callback hinit
  rw [notify_up hcb hg] at hn
  have hcov : covered (Hook.noteUp peer w).user.log = (w.user.gLocalSteamID != 0) := rfl
  have hknown : ∀ p c, (Hook.noteUp peer w).mgr.mConnections.lookup p = some c → c.connected = true →
      p = peer ∧ (Hook.noteUp peer w).user.gConnectedPeer = p := by
    intro p c hc _
    obtain ⟨rfl, -⟩ := hentry p c hc
    exact ⟨rfl, rfl⟩
  split at hn
  · rename_i hset
    cases hn
    exact (hb.noteUp peer).post hfirst hsilent (by rw [length_steamIDBytes]; decide)
      hknown fun c hc _ => ⟨hcov.trans hset, fun _ => rfl⟩
  · rename_i hzero
    cases hn
    refine ⟨hb', fun p c hc hconn => (hknown p c hc hconn).2, hfirst, fun p c hc _ => ?_, hsilent⟩
    have hnil : framed c.socket (Hook.noteUp peer w).mgr.trace = [] := (hentry p c hc).2
    rw [hcov, hnil]
    simpa using hzero

theorem Inv.reconnected (hi : Inv w) {peer : PeerID} {c : Connection} {h : SocketHandle}
    (hc : w.mgr.mConnections.lookup peer = some c) (hfree : w.mgr.free h = true)
    (hn : notifyConnectionEvent hookCallback k peer .connected (redialed peer c h w) = some w') :
    Inv w' := by
  have hframed : ∀ g, framed g (redialed peer c h w).mgr.trace =
      if h = g then [] else framed g w.mgr.trace := fun _ => rfl
  refine (hi.base.redialed hc hfree).linkUp_inv (hi.base.valid peer c hc).1 (fun g x xs hx => ?_)
    (fun hun g => ?_) (fun p c₂ hc₂ => ?_) hn
  · rw [hframed] at hx
    split at hx
    · cases hx
    · exact hi.first g x xs hx
  · rw [hframed, hi.silent hun g, ite_self]
  · obtain ⟨rfl, rfl⟩ := hi.base.redialed_lookup hc hc₂
    exact ⟨rfl, by rw [hframed]; exact if_pos rfl⟩

/-! ## The steps -/

theorem Inv.act (hi : Inv w) (h : Act hookCallback k w w') : Inv w' := by
  cases h with
  | clock _ | select | pending _ =>
    exact hi.calm ((quiet_trace _ _).calm rfl fun _ => rfl)
  | @retry peer c m now hc hdue hd =>
    have hq := retryLater_quiet hc hdue hd
    refine hi.calm (hq.calm_down (fun p c' hc' => ?_) fun g => ?_)
    · obtain ⟨c₀, hc₀, hup⟩ := hq.conns p c' hc'
      obtain rfl := hi.base.one p peer c₀ c hc₀ hc
      rw [hc] at hc₀
      cases hc₀
      by_contra hconn
      have := (Connection.not_connected_of_due hdue).symm.trans (hup (by simpa using hconn)).1
      cases this
    · cases hd with
      | noSocket => by_cases hg : invalidSocketHandle = g <;> simp [retryLater, framed, hg]
      | @refused h _ => by_cases hg : h = g <;> simp [retryLater, framed, hg]
      | made hf => exact absurd rfl (Manager.valid_of_free hf)
  | reconnected hc _ hf hn => exact hi.reconnected hc hf hn
  | accepted hl _ _ => exact absurd hi.base.listen hl
  | parsed hc _ _ _ =>
    refine hi.calm (Quiet.calm (quiet_setConn hc rfl ?_) rfl fun _ => rfl)
    exact fun h => ⟨h, rfl, fun h => h⟩
  | @stopped peer c e id hc _ he =>
    refine hi.calm ((quiet_drop _ hc rfl).calm rfl fun g => ?_)
    rcases he with rfl | rfl | rfl <;> rfl
  | @wrote peer c hc =>
    refine hi.calm ((processWrite_quiet hc).calm rfl fun g => ?_)
    have hw := processWrite_writes (k := k) hc
    rw [World.onMgr_mgr]
    generalize processWrite k peer c w.mgr = m at hw
    cases hw <;> rfl
  | lost _ hl =>
    obtain ⟨hq, hdown, hf⟩ := loses_quiet hi.base hl
    exact hi.calm (hq.calm_down hdown fun g => .inl (hf g))

theorem stagePacket_peer (w : Process) :
    (stagePacket w).user.gConnectedPeer = w.user.gConnectedPeer := by
  unfold stagePacket
  split
  · rfl
  · rename_i size peer _
    obtain ⟨m, hm, -⟩ := p2pReadPacket_pops peer (size != 0) size w
    have hpeer : (p2pReadPacket peer (size != 0) size w).2.2.user.gConnectedPeer =
        w.user.gConnectedPeer := by rw [hm]
    split
    · rename_i he
      rw [he] at hpeer
      split <;> exact hpeer
    · rename_i he
      rw [he] at hpeer
      exact hpeer

theorem shutdown_framed (m : Manager) (h : SocketHandle) :
    framed h (shutdown m).trace = framed h m.trace := by
  have hfold : ∀ (es : List (Sigma fun _ : PeerID => Connection)) (m : Manager),
      framed h (es.foldl (fun m e => m.closeSocket e.2.socket) m).trace = framed h m.trace := by
    intro es
    induction es with
    | nil => exact fun _ => rfl
    | cons e es ih => exact fun m => (ih _).trans (framed_closeSocket h e.2.socket m)
  unfold shutdown
  split
  · rfl
  · dsimp only
    rw [hfold]
    unfold stopListen
    split
    · exact framed_closeSocket h _ m
    · rfl

theorem Inv.register (hi : Inv w) : Inv (register k w) := by
  have hb : Base (onHook (fun s => { s with injection := .done }.note
      (.registration w.user.gLocalSteamID)) w) :=
    ⟨hi.base.callback, hi.base.listen, hi.base.valid, hi.base.one, hi.base.settled,
      by rintro (h | h) <;> cases h⟩
  refine hb.post hi.first (by rintro (h | h) <;> cases h) (by rw [length_steamIDBytes]; decide)
    (fun p c hc hconn => ?_) fun c _ _ => ⟨rfl, fun _ => rfl⟩
  have := hi.known p c hc hconn
  exact ⟨this.symm, this⟩

theorem Inv.move (hi : Inv w) (h : Move k w w') : Inv w' := by
  have hb := hi.base.move h
  cases h with
  | hooked ok hwait =>
    exact ⟨hb, hi.known, hi.first, hi.linked, fun _ => hi.silent (.inl hwait)⟩
  | identified id hhooked =>
    have hsilent := hi.silent (.inr hhooked)
    refine ⟨hb, hi.known, fun g p ps hf => ?_, hi.linked, fun _ => hsilent⟩
    rw [onHook_mgr, hsilent g] at hf
    cases hf
  | registered _ => exact hi.register
  | act ha => exact hi.act ha
  | staged _ =>
    refine hi.calm ((stagePacket_quiet w).calm (stagePacket_peer w) fun g => ?_)
    rw [stagePacket_trace]
  | unscheduled peer =>
    refine hi.calm ((setAutoReconnect_quiet peer false 0 0 w).calm ?_ fun g => ?_)
    · unfold p2pSetAutoReconnect
      split <;> rfl
    · rw [setAutoReconnect_trace]
  | hungUp hl =>
    obtain ⟨hq, hdown, hf⟩ := loses_quiet hi.base hl
    exact hi.calm (hq.calm_down hdown fun g => .inl (hf g))
  | shutDown peer =>
    refine ⟨hb, nofun, fun g p ps hf => ?_, nofun, fun hun g => ?_⟩
    · exact hi.first g p ps (by rw [← shutdown_framed]; exact hf)
    · exact (shutdown_framed w.mgr g).trans (hi.silent hun g)

theorem Inv.sendP2PPacket (hi : Inv w) {target : CSteamID} {src : Option (List UInt8)}
    {cubData : UInt32}
    (hcov : ∀ c, w.mgr.mConnections.lookup w.user.gConnectedPeer = some c →
      c.connected = true → covered w.user.log = true)
    (h : hookSendP2PPacket k target src cubData w = some w') : Inv w' := by
  rcases sendP2PPacket_cases h with ⟨-, d, hd, rfl⟩ | ⟨-, rfl⟩
  · obtain ⟨h16, hlt⟩ := length_sendBufferFor hd
    refine hi.base.post hi.first hi.silent (size_ne_zero (by omega) hlt) (fun p c hc hconn => ?_)
      fun c hc hconn => ⟨hcov c hc hconn, fun hnil => ?_⟩
    · have := hi.known p c hc hconn
      exact ⟨this.symm, this⟩
    · exact absurd hnil ((hi.linked _ c hc hconn).mp (hcov c hc hconn))
  · exact hi

/-! ## The start -/

theorem attach_inv {ip : Text} {port : UInt16} (h : attach k ip port = some w) : Inv w := by
  have hb := attach_base h
  rcases attach_cases h with ⟨m, hd, rfl⟩ | ⟨sock, hv, rfl⟩
  · have hnil : ∀ g, framed g m.trace = [] := by
      intro g
      cases hd with
      | noSocket | refused _ => simp [framed, readyProcess]
      | made hf => exact absurd rfl (Manager.valid_of_free hf)
    have hm := dials_eq hd
    refine ⟨hb, fun p c hc => ?_, fun g p ps hf => ?_, fun p c hc => ?_, fun _ => hnil⟩
    · rw [hm] at hc
      cases hc
    · rw [hnil] at hf
      cases hf
    · rw [hm] at hc
      cases hc
  · have hnil : ∀ g, framed g (dialed sock ip port).mgr.trace = [] := by
      intro g
      change (if sock = g then [] else []) = _
      rw [ite_self]
    have hi : Inv (noteUp 1 (dialed sock ip port)) := by
      refine (dialed_base hv ip port).linkUp_inv (k := k) rfl (fun g p ps hf => ?_)
        (fun _ => hnil) (fun p c hc => ⟨(dialed_lookup hc).1, hnil _⟩) (notify_up rfl rfl 1)
      rw [hnil] at hf
      cases hf
    exact hi.calm ((setAutoReconnect_quiet 1 true 500 (10 * 1000) _).calm rfl fun _ => rfl)

/-! ## Runs -/

/-- A packet of the game that finds the link up finds it covered. -/
def sendCovered (i : Kernel × Input) (w : Process) : Bool :=
  match i.2, w.mgr.mConnections.lookup w.user.gConnectedPeer with
  | .send _ _ _, some c => !c.connected || covered w.user.log
  | _, _ => true

theorem step_inv {i : Kernel × Input} (hi : Inv w) (hC : sendCovered i w = true)
    (h : step i w = some w') : Inv w' := by
  obtain ⟨k, input⟩ := i
  cases input with
  | send target src cubData =>
    refine hi.sendP2PPacket (fun c hc hconn => ?_) (step_send h)
    simpa [sendCovered, hc, hconn] using hC
  | read dest cub =>
    rw [step_read h]
    refine hi.calm ((readP2PPacket_quiet dest cub w).calm ?_ fun g => ?_)
    all_goals
      unfold hookReadP2PPacket
      split <;> rfl
  | _ => exact Moves.invariant (fun _ _ hi hm => hi.move hm) hi (step_moves (by simp) (by simp) h)

/-- A packet of the game on a link that is not covered is its first frame, and
too long for a registration packet. -/
theorem not_first_of_not_covered {i : Kernel × Input} (hi : Inv w)
    (hC : sendCovered i w = false) (h : step i w = some w') : ¬ FirstFrameOk w' := by
  obtain ⟨k, input⟩ := i
  cases input with
  | send target src cubData =>
    cases hc : w.mgr.mConnections.lookup w.user.gConnectedPeer with
    | none => simp [sendCovered, hc] at hC
    | some c =>
      simp only [sendCovered, hc, Bool.or_eq_false_iff, Bool.not_eq_false'] at hC
      obtain ⟨hconn, hcov⟩ := hC
      have hnil : framed c.socket w.mgr.trace = [] := by
        by_contra hne
        have := (hi.linked _ c hc hconn).mpr hne
        rw [hcov] at this
        cases this
      obtain ⟨-, hp⟩ := hi.base.valid _ c hc
      obtain ⟨-, d, hd, rfl⟩ := (sendP2PPacket_cases (step_send h)).resolve_right fun hno => hp hno.1
      obtain ⟨h16, hlt⟩ := length_sendBufferFor hd
      rw [p2pSendPacket_eq hi.base]
      have hone : framed c.socket (sendPacket k w.user.gConnectedPeer (some d) w.mgr).2.trace =
          [d] := by
        rcases sendPacket_framed (k := k) w.user.gConnectedPeer
          (size_ne_zero (d := d) (by omega) hlt) w.mgr with ⟨hdown, -⟩ | ⟨c', hc', -, hf⟩
        · have := (hdown c hc).symm.trans hconn
          cases this
        · rw [hc] at hc'
          cases hc'
          rw [hf, if_pos rfl, hnil, List.nil_append]
      intro hfirst
      have := congrArg List.length (hfirst c.socket d [] hone)
      rw [length_steamIDBytes] at this
      omega
  | _ => simp [sendCovered] at hC

/-- Every step leads to a state in which the first frames are right. -/
def KeepsFirst (i : Kernel × Input) (w : Process) : Prop :=
  ∀ w', step i w = some w' → FirstFrameOk w'

/-- **The first frame on every socket is the registration packet throughout a run
exactly if every packet of the game that finds the link up finds it covered.** -/
theorem first_iff_covered {is : List (Kernel × Input)} (hi : Inv w)
    (hrun : (Runs.run step is w).isSome) :
    Runs.Meets step (fun i w => sendCovered i w = true) is w ↔
      Runs.Meets step KeepsFirst is w := by
  induction is generalizing w with
  | nil => exact Iff.rfl
  | cons i is ih =>
    obtain ⟨w', hr⟩ := Option.isSome_iff_exists.mp hrun
    obtain ⟨m, hm, hr⟩ := Runs.run_cons_iff.mp hr
    have hrest : ∀ hi' : Inv m, _ := fun hi' => ih hi' (by rw [hr]; rfl)
    constructor
    · rintro ⟨hC, hall⟩
      refine ⟨fun w₁ h₁ => (step_inv hi hC h₁).first, fun w₁ h₁ => ?_⟩
      rw [hm] at h₁
      cases h₁
      exact (hrest (step_inv hi hC hm)).mp (hall m hm)
    · rintro ⟨hF, hall⟩
      have hC : sendCovered i w = true := by
        by_contra hno
        exact not_first_of_not_covered hi (by simpa using hno) hm (hF m hm)
      refine ⟨hC, fun w₁ h₁ => ?_⟩
      rw [hm] at h₁
      cases h₁
      exact (hrest (step_inv hi hC hm)).mpr (hall m hm)

end IsaacP2P.Hook
