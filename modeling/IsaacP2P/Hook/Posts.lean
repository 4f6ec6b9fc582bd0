import IsaacP2P.Client.Wire
import IsaacP2P.Hook.Registration
import IsaacP2P.Hook.Staging

/-!
# What the game posts

The frames the library makes for the hook are registrations of eight bytes and
the buffers of `Hook_SendP2PPacket`, which have sixteen at least (`longs`). So
the long packets framed on a socket are among those the game had posted, in the
order it posted them, whatever the threads did in between (`run_posted`). While a
link stays up they are all that the game posts (`run_posts`).
-/

namespace IsaacP2P.Hook

open Client

variable {k : Kernel} {w w' : Process} {p peer : PeerID} {s : SocketHandle}

/-- What a call of `Hook_SendP2PPacket` puts into its buffer. -/
structure Post where
  target : CSteamID
  /-- `g_localSteamID` at the call. -/
  sender : CSteamID
  data : List UInt8
  deriving DecidableEq

def Post.bytes (m : Post) : List UInt8 := steamIDBytes m.target ++ steamIDBytes m.sender ++ m.data

def postedBy (i : Kernel × Input) (w : Process) : List Post :=
  match i.2 with
  | .send target src cubData =>
    (sendBufferFor target w.user.gLocalSteamID src cubData).toList.map fun buf =>
      { target, sender := w.user.gLocalSteamID, data := buf.drop 16 }
  | _ => []

/-- The calls of the game in a run. -/
def posted : List (Kernel × Input) → Process → List Post
  | [], _ => []
  | i :: is, w => postedBy i w ++ ((step i w).map (posted is)).getD []

/-! ## The buffer -/

theorem take_memcpy {buf src buf' : List UInt8} {off : Nat} (h : memcpy buf off src = some buf') :
    buf'.take off = buf.take off ∧ buf'.take (off + src.length) = buf.take off ++ src := by
  obtain ⟨hle, rfl⟩ := memcpy_eq_some h
  have hoff : (buf.take off).length = off := by
    rw [List.length_take]
    omega
  constructor
  · rw [List.append_assoc]
    exact List.take_left' hoff
  · refine List.take_left' ?_
    rw [List.length_append, hoff]

theorem take_sendBufferFor {target localID : CSteamID} {src : Option (List UInt8)}
    {cubData : UInt32} {buf : List UInt8}
    (h : sendBufferFor target localID src cubData = some buf) :
    buf.take 16 = steamIDBytes target ++ steamIDBytes localID := by
  unfold sendBufferFor at h
  obtain ⟨b₁, h₁, h⟩ := Option.bind_eq_some_iff.mp h
  obtain ⟨b₂, h₂, h⟩ := Option.bind_eq_some_iff.mp h
  have ht₁ := (take_memcpy h₁).2
  have ht₂ := (take_memcpy h₂).2
  rw [length_steamIDBytes] at ht₁ ht₂
  rw [ht₁] at ht₂
  split at h
  · cases h
    exact ht₂
  · split at h
    · cases h
      exact ht₂
    · split at h
      · cases h
      · exact (take_memcpy h).1.trans ht₂

theorem postedBy_send {target : CSteamID} {src : Option (List UInt8)} {cubData : UInt32}
    {buf : List UInt8} (h : sendBufferFor target w.user.gLocalSteamID src cubData = some buf) :
    (postedBy (k, .send target src cubData) w).map Post.bytes = [buf] := by
  simp only [postedBy, h, Option.toList_some, List.map_cons, List.map_nil, Post.bytes]
  rw [← take_sendBufferFor h, List.take_append_drop]

theorem length_postedBy {i : Kernel × Input} {m : Post} (hm : m ∈ postedBy i w) :
    m.bytes.length < 2 ^ 32 := by
  obtain ⟨k, input⟩ := i
  cases input with
  | send target src cubData =>
    obtain ⟨buf, hbuf, -⟩ := List.mem_map.mp hm
    have hsome := Option.mem_toList.mp hbuf
    have hmem := List.mem_map_of_mem (f := Post.bytes) hm
    rw [postedBy_send hsome, List.mem_singleton] at hmem
    rw [hmem]
    exact (length_sendBufferFor hsome).2
  | _ => cases hm

theorem length_posted {is : List (Kernel × Input)} {m : Post} (hm : m ∈ posted is w) :
    m.bytes.length < 2 ^ 32 := by
  induction is generalizing w with
  | nil => cases hm
  | cons i is ih =>
    rw [posted, List.mem_append] at hm
    rcases hm with hm | hm
    · exact length_postedBy hm
    · cases hs : step i w with
      | none =>
        rw [hs] at hm
        cases hm
      | some v =>
        rw [hs] at hm
        exact ih hm

/-! ## What a step frames -/

/-- The packets framed that are no registrations. -/
def longs (s : SocketHandle) (tr : List Client.Ev) : List Packet :=
  (framed s tr).filter (8 < ·.length)

/-- No buffer of the game is framed. -/
def Unposted (w w' : Process) : Prop :=
  ∀ s, (longs s w'.mgr.trace).Sublist (longs s w.mgr.trace)

theorem Unposted.trans {w'' : Process} (h : Unposted w w') (h' : Unposted w' w'') :
    Unposted w w'' := fun s => (h' s).trans (h s)

theorem Unposted.of_framed (h : ∀ s, framed s w'.mgr.trace = framed s w.mgr.trace ∨
    framed s w'.mgr.trace = []) : Unposted w w' := by
  intro s
  unfold longs
  rcases h s with he | he
  · rw [he]
  · rw [he]
    exact List.nil_sublist _

theorem sendPacket_longs (peer : PeerID) (d : Packet) (m : Manager) (s : SocketHandle) :
    (longs s (sendPacket k peer (some d) m).2.trace).Sublist
      (longs s m.trace ++ [d].filter (8 < ·.length)) := by
  have hs := sendPacket_sends k peer (some d) m
  generalize (sendPacket k peer (some d) m).1 = b at hs
  generalize (sendPacket k peer (some d) m).2 = m' at hs ⊢
  cases hs with
  | refused _ => exact List.sublist_append_left ..
  | @sent d' c len r _ _ hf _ _ _ | @failed d' c len hf _ =>
    obtain ⟨hd, -, -, -⟩ := hf
    cases hd
    change ((framed s (.packet c.socket d :: m.trace)).filter (8 < ·.length)).Sublist _
    rw [framed]
    split
    · rw [List.filter_append]
      exact List.Sublist.refl _
    · exact List.sublist_append_left ..

theorem p2pSendPacket_longs (peer : PeerID) (d : Packet) (w : Process) (s : SocketHandle) :
    (longs s (p2pSendPacket k peer (some d) w).2.mgr.trace).Sublist
      (longs s w.mgr.trace ++ [d].filter (8 < ·.length)) := by
  rcases p2pSendPacket_cases (k := k) peer (some d) w with he | he
  · rw [he]
    exact List.sublist_append_left ..
  · rw [he]
    exact sendPacket_longs peer d w.mgr s

theorem registration_unposted (peer : PeerID) (id : CSteamID) (w : Process) :
    Unposted w (p2pSendPacket k peer (some (steamIDBytes id)) w).2 := by
  intro s
  have hshort : [steamIDBytes id].filter (8 < ·.length) = [] := by simp
  have := p2pSendPacket_longs (k := k) peer (steamIDBytes id) w s
  rwa [hshort, List.append_nil] at this

theorem notify_unposted {event : ConnectionEvent}
    (h : notifyConnectionEvent hookCallback k peer event w = some w') : Unposted w w' := by
  unfold notifyConnectionEvent at h
  split at h
  · obtain ⟨f, -, rfl | rfl⟩ := hookCallback_cases h
    · exact .of_framed fun _ => .inl rfl
    · exact registration_unposted _ _ (onHook f (w.onMgr (·.log (.notify peer event))))
  · cases h
    exact .of_framed fun _ => .inl rfl

theorem act_unposted (hb : Base w) (h : Act hookCallback k w w') : Unposted w w' := by
  cases h with
  | clock _ | select | pending _ | parsed _ _ _ _ => exact .of_framed fun _ => .inl rfl
  | @retry peer c m now _ _ hd =>
    refine .of_framed fun s => ?_
    cases hd with
    | noSocket => by_cases hs : invalidSocketHandle = s <;> simp [retryLater, framed, hs]
    | @refused h _ => by_cases hs : h = s <;> simp [retryLater, framed, hs]
    | made hf => exact absurd rfl (Manager.valid_of_free hf)
  | @reconnected peer c h now _ hc _ hf hn =>
    refine Unposted.trans (.of_framed fun s => ?_) (notify_unposted hn)
    by_cases hs : h = s <;> simp [framed, hs]
  | accepted hl _ _ => exact absurd hb.listen hl
  | stopped _ _ he =>
    refine .of_framed fun s => .inl ?_
    rcases he with rfl | rfl | rfl <;> rfl
  | @wrote peer c hc =>
    refine .of_framed fun s => .inl ?_
    have hw := processWrite_writes (k := k) hc
    rw [World.onMgr_mgr]
    generalize processWrite k peer c w.mgr = m at hw
    cases hw <;> rfl
  | lost _ hl => exact .of_framed fun s => .inl ((loses_quiet hb hl).2.2 s)

theorem move_unposted (hb : Base w) (h : Move k w w') : Unposted w w' := by
  cases h with
  | hooked _ _ | identified _ _ => exact .of_framed fun _ => .inl rfl
  | registered _ => exact registration_unposted _ _ (onHook _ w)
  | act ha => exact act_unposted hb ha
  | staged _ => exact .of_framed fun s => .inl (by rw [stagePacket_trace])
  | unscheduled peer => exact .of_framed fun s => .inl (by rw [setAutoReconnect_trace])
  | hungUp hl => exact .of_framed fun s => .inl ((loses_quiet hb hl).2.2 s)
  | shutDown peer => exact .of_framed fun s => .inl (shutdown_framed w.mgr s)

theorem moves_unposted (hb : Base w) (h : Moves k w w') : Unposted w w' := by
  have := h.invariant (P := fun v => Base v ∧ Unposted w v)
    (fun _ _ hv hm => ⟨hv.1.move hm, hv.2.trans (move_unposted hv.1 hm)⟩)
    ⟨hb, fun _ => List.Sublist.refl _⟩
  exact this.2

/-- **One step** frames the buffer it was called with, at most. -/
theorem step_posted {i : Kernel × Input} (hb : Base w) (h : step i w = some w')
    (s : SocketHandle) : (longs s w'.mgr.trace).Sublist
      (longs s w.mgr.trace ++ (postedBy i w).map Post.bytes) := by
  obtain ⟨k, input⟩ := i
  cases input with
  | send target src cubData =>
    rcases sendP2PPacket_cases (step_send h) with ⟨-, buf, hbuf, rfl⟩ | ⟨-, rfl⟩
    · rw [postedBy_send hbuf]
      exact (p2pSendPacket_longs _ buf w s).trans
        ((List.Sublist.refl _).append List.filter_sublist)
    · exact List.sublist_append_left ..
  | read pubDest cubDest =>
    rw [step_read h, readP2PPacket_mgr]
    exact List.sublist_append_left ..
  | _ =>
    have hmoves := moves_unposted hb (step_moves (by simp) (by simp) h) s
    exact hmoves.trans (List.sublist_append_left ..)

/-- **A whole run**: the buffers framed are among those posted, in their order. -/
theorem run_posted {is : List (Kernel × Input)} (hb : Base w)
    (h : Runs.run step is w = some w') (s : SocketHandle) :
    (longs s w'.mgr.trace).Sublist (longs s w.mgr.trace ++ (posted is w).map Post.bytes) := by
  induction is generalizing w with
  | nil =>
    cases h
    exact List.sublist_append_left ..
  | cons i is ih =>
    obtain ⟨v, hv, hr⟩ := Runs.run_cons_iff.mp h
    have hrest := ih (step_base hb hv) hr
    rw [posted, hv, Option.map_some, Option.getD_some, List.map_append, ← List.append_assoc]
    exact hrest.trans ((step_posted hb hv s).append (List.Sublist.refl _))

theorem attach_framed {ip : Text} {port : UInt16} (h : attach k ip port = some w)
    (s : SocketHandle) : framed s w.mgr.trace = [] := by
  have hwait : w.user.injection = .waiting := by
    rcases attach_cases h with ⟨m, -, rfl⟩ | ⟨sock, -, rfl⟩
    · rfl
    · rw [(setAutoReconnect_quiet 1 true 500 (10 * 1000) _).injection]
      rfl
  exact (attach_inv h).silent (.inl hwait) s

theorem length_framed (hw : Reachable w) {d : Packet} (hd : d ∈ framed s w.mgr.trace) :
    d.length < 2 ^ 32 := by
  obtain ⟨k, ip, port, w₀, hstart, is, hr⟩ := hw
  by_cases hlen : 8 < d.length
  · have hsub := run_posted (attach_base hstart) hr s
    rw [longs, longs, attach_framed hstart, List.filter_nil, List.nil_append] at hsub
    obtain ⟨m, hm, rfl⟩ := List.mem_map.mp
      (hsub.subset (List.mem_filter.mpr ⟨hd, by simpa using hlen⟩))
    exact length_posted hm
  · omega

/-! ## The peer of the hook -/

/-- The link that is up is that of `g_connectedPeer`. -/
def Known (w : Process) : Prop := ∀ p, w.mgr.up p → w.user.gConnectedPeer = p

theorem Known.quiet (hk : Known w) (hq : Quiet w w')
    (hpeer : w'.user.gConnectedPeer = w.user.gConnectedPeer) : Known w' := by
  intro p ⟨c', hc', hup'⟩
  obtain ⟨c, hc, hup⟩ := hq.conns p c' hc'
  exact hpeer.trans (hk p ⟨c, hc, (hup hup').1⟩)

theorem known_of_down
    (hdown : ∀ p c, w.mgr.mConnections.lookup p = some c → c.connected = false) : Known w := by
  intro p ⟨c, hc, hup⟩
  rw [hdown p c hc] at hup
  cases hup

theorem known_of_empty (hempty : w.mgr.mConnections = ∅) : Known w := by
  refine known_of_down fun p c hc => ?_
  rw [hempty] at hc
  cases hc

theorem act_known (hb : Base w) (hk : Known w) (h : Act hookCallback k w w') : Known w' := by
  cases h with
  | clock _ | select | pending _ => exact hk.quiet (quiet_trace _ _) rfl
  | retry hc hdue hd => exact hk.quiet (retryLater_quiet hc hdue hd) rfl
  | @reconnected peer c h now _ hc _ hf hn =>
    obtain ⟨hcb, hg⟩ := hb.callback (hb.valid peer c hc).1
    have hn := (notify_up (w := redialed peer c h w) hcb hg peer).symm.trans hn
    have hknown : Known (noteUp peer (redialed peer c h w)) := fun p ⟨d, hd, _⟩ =>
      (hb.redialed_lookup hc hd).1.symm
    split at hn
    · cases hn
      exact hknown.quiet (p2pSendPacket_quiet _ _ _) (by rw [p2pSendPacket_user])
    · cases hn
      exact hknown
  | accepted hl _ _ => exact absurd hb.listen hl
  | parsed hc _ _ _ => exact hk.quiet (quiet_setConn hc rfl fun h => ⟨h, rfl, fun h => h⟩) rfl
  | stopped hc _ _ => exact hk.quiet (quiet_drop _ hc rfl) rfl
  | wrote hc => exact hk.quiet (processWrite_quiet hc) rfl
  | lost _ hl => exact known_of_down (loses_quiet hb hl).2.1

theorem move_known (hb : Base w) (hk : Known w) (h : Move k w w') : Known w' := by
  cases h with
  | hooked _ _ | identified _ _ => exact hk
  | registered _ =>
    have hdone : Known (onHook (fun s => { s with injection := .done }.note
        (.registration w.user.gLocalSteamID)) w) := hk
    exact hdone.quiet (p2pSendPacket_quiet _ _ _)
      (congrArg Globals.gConnectedPeer (p2pSendPacket_user _ _ _))
  | act ha => exact act_known hb hk ha
  | staged _ => exact hk.quiet (stagePacket_quiet w) (stagePacket_peer w)
  | unscheduled peer =>
    refine hk.quiet (setAutoReconnect_quiet peer false 0 0 w) ?_
    unfold p2pSetAutoReconnect
    split <;> rfl
  | hungUp hl => exact known_of_down (loses_quiet hb hl).2.1
  | shutDown _ => exact known_of_empty rfl

theorem step_known {i : Kernel × Input} (hb : Base w) (hk : Known w) (h : step i w = some w') :
    Known w' := by
  obtain ⟨k, input⟩ := i
  cases input with
  | send target src cubData =>
    refine hk.quiet (sendP2PPacket_quiet (step_send h)) ?_
    rcases sendP2PPacket_cases (step_send h) with ⟨-, d, -, rfl⟩ | ⟨-, rfl⟩
    · rw [p2pSendPacket_user]
    · rfl
  | read pubDest cubDest =>
    rw [step_read h]
    refine hk.quiet (readP2PPacket_quiet pubDest cubDest w) ?_
    unfold hookReadP2PPacket
    split <;> rfl
  | _ =>
    have := (step_moves (by simp) (by simp) h).invariant (P := fun v => Base v ∧ Known v)
      (fun _ _ hv hm => ⟨hv.1.move hm, move_known hv.1 hv.2 hm⟩) ⟨hb, hk⟩
    exact this.2

theorem attach_known {ip : Text} {port : UInt16} (h : attach k ip port = some w) : Known w := by
  rcases attach_cases h with ⟨m, hd, rfl⟩ | ⟨sock, -, rfl⟩
  · exact known_of_empty (by rw [dials_eq hd]; rfl)
  · have hknown : Known (noteUp 1 (dialed sock ip port)) := fun p ⟨c, hc, _⟩ =>
      (dialed_lookup hc).1.symm
    exact hknown.quiet (setAutoReconnect_quiet 1 true 500 (10 * 1000) _) rfl

theorem reachable_known (h : Reachable w) : Known w := by
  obtain ⟨k, ip, port, w₀, hstart, hr⟩ := h
  have := hr.invariant (P := fun v => Base v ∧ Known v) ⟨attach_base hstart, attach_known hstart⟩
    fun i v v' hv hs => ⟨step_base hv.1 hs, step_known hv.1 hv.2 hs⟩
  exact this.2

/-! ## While a link is up -/

/-- If `p` holds the socket `s`, it is closed, or `p` still holds it, and the buffers of `posts`
are framed on it if its link is up in the end. -/
def Frames (p : PeerID) (s : SocketHandle) (posts : List Post) (w w' : Process) : Prop :=
  ∃ new, w'.mgr.trace = new ++ w.mgr.trace ∧ (w.mgr.held (.entry p) = some s →
    Client.Ev.close s ∈ new ∨ w'.mgr.held (.entry p) = some s ∧ (w'.mgr.up p → w.mgr.up p ∧
      (longs s w.mgr.trace ++ posts.map Post.bytes).Sublist (longs s w'.mgr.trace)))

theorem Frames.trans {posts posts' : List Post} {w'' : Process} (hf : Frames p s posts w w')
    (hf' : Frames p s posts' w' w'') : Frames p s (posts ++ posts') w w'' := by
  obtain ⟨new, ht, hr⟩ := hf
  obtain ⟨new', ht', hr'⟩ := hf'
  refine ⟨new' ++ new, by rw [ht', ht, List.append_assoc], fun hheld => ?_⟩
  rcases hr hheld with hclose | ⟨hmid, hup⟩
  · exact .inl (List.mem_append_right _ hclose)
  · rcases hr' hmid with hclose | ⟨hend, hup'⟩
    · exact .inl (List.mem_append_left _ hclose)
    · refine .inr ⟨hend, fun h => ?_⟩
      obtain ⟨hmid', hsub'⟩ := hup' h
      obtain ⟨hstart, hsub⟩ := hup hmid'
      rw [List.map_append, ← List.append_assoc]
      exact ⟨hstart, (hsub.append (List.Sublist.refl _)).trans hsub'⟩

theorem frames_of_grows (hg : Client.Grows p s w.mgr w'.mgr) : Frames p s [] w w' := by
  obtain ⟨new, ht, hr⟩ := hg
  refine ⟨new, ht, fun hheld => (hr hheld).imp_right fun ⟨hheld', hf, hup⟩ => ?_⟩
  refine ⟨hheld', fun h => ⟨hup h, ?_⟩⟩
  rw [List.map_nil, List.append_nil]
  exact (hf.filter _).sublist

theorem Turn.grows (ht : Turn w w') (hs : Sound w) : Client.Grows p s w.mgr w'.mgr := by
  cases ht with
  | idle hi => exact hi.steps.steps.grows hs.apart
  | @polled v hi _ =>
    have hv := hi.sound hs
    refine (hi.steps.steps.grows hs.apart).trans ?_
    rcases stagePacket_cases hv.base hv.legal with ⟨he, -⟩ | ⟨q, c, packet, rest, hc, hq, he⟩
    · rw [he]
      exact .refl p s v.mgr
    · have hstep : Step {} v.mgr (v.mgr.setConn q { c with receiveQueue := rest }) :=
        .minor (.popped hc hq)
      rw [he]
      cases messageOf packet with
      | none => exact hstep.grows hv.apart
      | some msg => exact hstep.grows hv.apart
  | @closed v _ hi _ hmgr _ =>
    obtain ⟨new, ht, hclose⟩ : Receives p s w.mgr (shutdown v.mgr) :=
      (hi.steps.receives hs.apart).trans (shutdown_receives hi.base.ready)
    refine ⟨new, by rw [hmgr, ← ht], fun hheld => .inl ((hclose hheld).resolve_right ?_)⟩
    obtain ⟨-, -, -, -, hgone⟩ := shutdown_handled True hi.base.ready
    rw [hgone]
    rintro ⟨hno, -⟩
    cases hno

/-- A call that finds the link up gets its buffer framed. -/
theorem send_frames {target : CSteamID} {src : Option (List UInt8)} {cubData : UInt32}
    (hs : Sound w) (hk : Known w) (h : hookSendP2PPacket k target src cubData w = some w') :
    Frames p s (postedBy (k, .send target src cubData) w) w w' := by
  rcases sendP2PPacket_cases h with ⟨-, buf, hbuf, rfl⟩ | ⟨hno, rfl⟩
  · obtain ⟨new, ht, hr⟩ : Client.Grows p s w.mgr
        (p2pSendPacket k w.user.gConnectedPeer (some buf) w).2.mgr :=
      (p2pSendPacket_sparing _ _ w).steps.grows hs.apart
    refine ⟨new, ht, fun hheld => (hr hheld).imp_right fun ⟨hheld', _, hup⟩ => ?_⟩
    refine ⟨hheld', fun hend => ⟨hup hend, ?_⟩⟩
    obtain ⟨c, hc, hconn⟩ := hup hend
    obtain ⟨-, d, hd, hsock⟩ := lookup_of_held hs.apart.2 hheld
    obtain rfl : c = d := Option.some.inj (hc.symm.trans hd)
    obtain ⟨h16, hlt⟩ := length_sendBufferFor hbuf
    rw [hk p ⟨c, hc, hconn⟩, p2pSendPacket_eq hs.base, postedBy_send hbuf]
    rcases sendPacket_framed (k := k) p (size_ne_zero (by omega) hlt) w.mgr
      with ⟨hdown, -⟩ | ⟨d, hd, -, hf⟩
    · have := (hdown c hc).symm.trans hconn
      cases this
    · obtain rfl : c = d := Option.some.inj (hc.symm.trans hd)
      have hlong : [buf].filter (8 < ·.length) = [buf] := by
        simp
        omega
      rw [longs, longs, hf, if_pos hsock, List.filter_append, hlong]
  · refine ⟨[], rfl, fun hheld => .inr ⟨hheld, fun hup => ?_⟩⟩
    obtain ⟨c, hc, -⟩ := id hup
    exact absurd ((hk p hup).symm.trans hno) (hs.base.valid p c hc).2

theorem step_frames {i : Kernel × Input} (hs : Sound w) (hk : Known w) (h : step i w = some w') :
    Frames p s (postedBy i w) w w' := by
  obtain ⟨k, input⟩ := i
  cases input with
  | send target src cubData => exact send_frames hs hk (step_send h)
  | read pubDest cubDest =>
    rw [step_read h]
    refine frames_of_grows ?_
    rw [readP2PPacket_mgr]
    exact .refl p s w.mgr
  | _ => exact frames_of_grows ((step_turn hs.base (by simp) h).grows hs)

theorem run_frames {is : List (Kernel × Input)} (hw : Reachable w)
    (hr : Runs.run step is w = some w') : Frames p s (posted is w) w w' := by
  induction is generalizing w with
  | nil =>
    cases hr
    exact frames_of_grows (.refl p s _)
  | cons i is ih =>
    obtain ⟨v, hi, hr⟩ := Runs.run_cons_iff.mp hr
    have hstep := step_frames (p := p) (s := s) (reachable_sound hw) (reachable_known hw) hi
    have hone : Runs.run step [i] w = some v := Runs.run_cons_iff.mpr ⟨v, hi, rfl⟩
    rw [posted, hi]
    exact hstep.trans (ih (hw.run hone) hr)

/-- **While a link stays up**, the buffers framed on its socket are those posted. -/
theorem run_posts {is : List (Kernel × Input)} {new : List Client.Ev} (hw : Reachable w)
    (hr : Runs.run step is w = some w') (hheld : w.mgr.held (.entry p) = some s)
    (ht : w'.mgr.trace = new ++ w.mgr.trace) (hclose : Client.Ev.close s ∉ new)
    (hup : w'.mgr.up p) :
    w.mgr.up p ∧ longs s w'.mgr.trace = longs s w.mgr.trace ++ (posted is w).map Post.bytes := by
  obtain ⟨new', ht', hf⟩ := run_frames (p := p) (s := s) hw hr
  obtain rfl : new' = new := List.append_cancel_right (ht'.symm.trans ht)
  obtain ⟨hstart, hsub⟩ := ((hf hheld).resolve_left hclose).2 hup
  exact ⟨hstart, (run_posted (reachable_base hw) hr s).antisymm hsub⟩

end IsaacP2P.Hook
