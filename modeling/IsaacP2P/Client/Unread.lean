import IsaacP2P.Client.Causes

/-!
# Packets that are not read yet

What is in the receive queue of an entry is what the application can read of it
(`available_unread`). A call of `processEvents` keeps that and adds what it
parses (`Follows`), as long as it does not close the connection; a connection
whose stream ends is closed in the call in which `recv()` returns 0, and what
is unread of it is gone (`unread_kept`).
-/

namespace IsaacP2P.Client

variable {υ : Type} {cb : Callback υ} {k : Kernel} {w w' : World υ} {m m' : Manager} {peer : PeerID}
  {s : SocketHandle} {c : Connection} {g : Guard} {reads : Prop}

/-! ## What can be read -/

/-- The parser lets the packet through. -/
def Packet.Legal (p : Packet) : Prop := p ≠ [] ∧ p.length ≤ maxPacket

def Manager.unread (m : Manager) (peer : PeerID) : PacketQueue :=
  match m.mConnections.lookup peer with
  | none => []
  | some c => c.receiveQueue

/-- The application finds these packets of `peer` one after another, reads each
into a buffer of the size it is told, and then finds no more. -/
def Available (peer : PeerID) : List Packet → Manager → Prop
  | [], m => isPacketAvailable peer m = none
  | packet :: rest, m =>
    isPacketAvailable peer m = some (packet.size, peer) ∧
      (readPacket peer true packet.size m).1 = some (packet, peer) ∧
      Available peer rest (readPacket peer true packet.size m).2

theorem unread_of_lookup (hc : m.mConnections.lookup peer = some c) :
    m.unread peer = c.receiveQueue := by
  unfold Manager.unread
  rw [hc]

theorem unread_of_none (hc : m.mConnections.lookup peer = none) : m.unread peer = [] := by
  unfold Manager.unread
  rw [hc]

theorem isPacketAvailable_eq (hp : peer ≠ invalidPeerID) (m : Manager) :
    isPacketAvailable peer m = (PacketQueue.peek (m.unread peer)).map (·, peer) := by
  unfold isPacketAvailable Manager.unread
  rw [if_pos (by simpa using hp)]
  cases m.mConnections.lookup peer <;> rfl

theorem Packet.Legal.size_ne_zero {p : Packet} (h : p.Legal) : (p.size == 0) = false := by
  obtain ⟨hne, hmax⟩ := h
  have hpos : p.length ≠ 0 := by simpa using hne
  have hsize : p.size.toNat = p.length := by
    rw [Packet.size, UInt32.toNat_ofNat']
    simp only [maxPacket] at hmax
    omega
  rw [beq_eq_false_iff_ne]
  intro h0
  rw [h0] at hsize
  exact hpos hsize.symm

theorem readPacket_head {packet : Packet} {rest : PacketQueue} (hp : peer ≠ invalidPeerID)
    (hc : m.mConnections.lookup peer = some c) (hq : c.receiveQueue = packet :: rest)
    (hl : packet.Legal) : readPacket peer true packet.size m =
      (some (packet, peer), m.setConn peer { c with receiveQueue := rest }) := by
  unfold readPacket
  rw [if_neg (by simp [hl.size_ne_zero]), if_pos (by simpa using hp)]
  simp only [hc, hq, PacketQueue.pop]
  rw [if_neg (UInt32.lt_irrefl _)]

/-- **The queue is what the application can read.** -/
theorem available_unread (hp : peer ≠ invalidPeerID) (hl : ∀ packet ∈ m.unread peer, packet.Legal) :
    Available peer (m.unread peer) m := by
  generalize hq : m.unread peer = queue at hl
  induction queue generalizing m with
  | nil =>
    show isPacketAvailable peer m = none
    rw [isPacketAvailable_eq hp, hq]
    rfl
  | cons packet rest ih =>
    obtain ⟨c, hc⟩ : ∃ c, m.mConnections.lookup peer = some c := by
      cases hc : m.mConnections.lookup peer with
      | none =>
        rw [unread_of_none hc] at hq
        cases hq
      | some c => exact ⟨c, rfl⟩
    have hqc : c.receiveQueue = packet :: rest := by rw [← unread_of_lookup hc, hq]
    have hread := readPacket_head hp hc hqc (hl packet (List.mem_cons_self ..))
    refine ⟨?_, by rw [hread], ?_⟩
    · rw [isPacketAvailable_eq hp, hq]
      rfl
    · rw [hread]
      refine ih (unread_of_lookup (Manager.setConn_lookup_self hc)) fun p hmem => ?_
      exact hl p (List.mem_cons_of_mem _ hmem)

/-! ## The packets are legal -/

def Manager.Legal (m : Manager) : Prop :=
  ∀ p c, m.mConnections.lookup p = some c → ∀ packet ∈ c.receiveQueue, packet.Legal

theorem Manager.Legal.unread (h : m.Legal) (peer : PeerID) :
    ∀ packet ∈ m.unread peer, packet.Legal := by
  cases hc : m.mConnections.lookup peer with
  | none => simp [unread_of_none hc]
  | some c =>
    rw [unread_of_lookup hc]
    exact h peer c hc

theorem Takes.legal {bs rest : List UInt8} {ps : List Packet}
    (h : Streaming.Takes (LengthPrefixed.stream maxPacket) bs ps rest) :
    ∀ p ∈ ps, Packet.Legal p := by
  induction h with
  | nil => simp
  | item hi _ ih =>
    obtain ⟨-, hne, hmax⟩ := LengthPrefixed.next_item hi
    exact List.forall_mem_cons.mpr ⟨⟨hne, hmax⟩, ih⟩

theorem Drained.legal {buf rest : ReceiveBuffer} {ps : List Packet} (h : Drained buf ps rest) :
    ∀ p ∈ ps, Packet.Legal p := by
  cases h with
  | waits hd => exact Takes.legal hd.1
  | cleared ht _ => exact Takes.legal ht

theorem Evolves.legal {new : List Ev} {c' : Connection} (he : Evolves c new c')
    (h : ∀ p ∈ c.receiveQueue, Packet.Legal p) : ∀ p ∈ c'.receiveQueue, Packet.Legal p := by
  cases he with
  | parsed hd =>
    intro p hp
    exact (List.mem_append.mp hp).elim (h p) (hd.legal p)
  | popped hq => exact fun p hp => h p (hq ▸ List.mem_cons_of_mem _ hp)
  | _ => exact h

theorem Step.legal (h : Step g m m') (hm : Apart m) (hl : m.Legal) : m'.Legal := by
  obtain ⟨new, -, horg⟩ := h.origins hm
  intro p c' hc'
  by_cases hs : c'.socket = invalidSocketHandle
  · obtain ⟨-, -, -, hq, -⟩ := (h.settled hm.1 p c' hc').down hs
    simp [hq]
  · cases horg p c' hc' hs with
    | evolved hc he _ _ => exact he.legal (hl p _ hc)
    | linked _ _ hempty _ _ => simp [hempty.2.2]

theorem Manager.legal_of_empty (m : Manager) (h : m.mConnections = ∅) : m.Legal := by
  intro p c hc
  simp [h] at hc

/-! ## What a step leaves unread -/

/-- No packet of a connection is taken. -/
def Spares (m m' : Manager) : Prop :=
  ∀ p c c', m.mConnections.lookup p = some c → m'.mConnections.lookup p = some c' →
    c'.socket ≠ invalidSocketHandle → c.receiveQueue <+: c'.receiveQueue

/-- What became of the packets of the connection `c'` of `p`. Packets may be read in
between if `reads` holds. -/
inductive Queued (reads : Prop) (m m' : Manager) (p : PeerID) (c' : Connection) : Prop where
  /-- The connection was there before, and `ps` arrived. -/
  | kept {c : Connection} {ps read : List Packet} : m.mConnections.lookup p = some c →
      c.socket = c'.socket → arrived c'.socket m'.trace = arrived c'.socket m.trace ++ ps →
      c.receiveQueue ++ ps = read ++ c'.receiveQueue → reads ∨ read = [] → Queued reads m m' p c'
  | made {read : List Packet} : arrived c'.socket m'.trace = read ++ c'.receiveQueue →
      reads ∨ read = [] → Queued reads m m' p c'

/-- Of every connection that has arrived what is unread or was read. -/
def Follows (reads : Prop) (m m' : Manager) : Prop :=
  ∀ p c', m'.mConnections.lookup p = some c' → c'.socket ≠ invalidSocketHandle →
    Queued reads m m' p c'

theorem Follows.refl (m : Manager) : Follows reads m m := fun _ c' hc' _ =>
  @Queued.kept _ _ _ _ _ c' [] [] hc' rfl (List.append_nil _).symm (List.append_nil _) (.inr rfl)

theorem Follows.trans {m'' : Manager} (h : Follows reads m m') (h' : Follows reads m' m'') :
    Follows reads m m'' := by
  intro p c'' hc'' hs
  cases h' p c'' hc'' hs with
  | made hq hr => exact .made hq hr
  | @kept c' ps' read' hc' hs' ha' hq' hr' =>
    have hread : ∀ {read : List Packet}, reads ∨ read = [] → reads ∨ read ++ read' = [] := by
      rintro read (hok | rfl)
      · exact .inl hok
      · exact hr'
    cases h p c' hc' (hs' ▸ hs) with
    | @kept c ps read hc hsc ha hq hr =>
      refine @Queued.kept _ _ _ _ _ c (ps ++ ps') (read ++ read') hc (hsc.trans hs') ?_ ?_ (hread hr)
      · rw [ha', ← hs', ha, List.append_assoc]
      · rw [← List.append_assoc, hq, List.append_assoc, hq', List.append_assoc]
    | @made read hq hr =>
      refine @Queued.made _ _ _ _ _ (read ++ read') ?_ (hread hr)
      rw [ha', ← hs', hq, List.append_assoc, hq', List.append_assoc]

theorem arrived_skip {new tr : List Ev} (hnew : ∀ e ∈ new, e.on s = false) :
    arrived s (new ++ tr) = arrived s tr := by
  induction new with
  | nil => rfl
  | cons e new ih =>
    rw [List.cons_append, (streams_skip (hnew e (List.mem_cons_self ..)) _).2.1]
    exact ih fun e he => hnew e (List.mem_cons_of_mem _ he)

/-- Packets arrive at the end of the queue, or the head of it is read. -/
theorem Evolves.queued {new : List Ev} {c' : Connection} (h : Evolves c new c') (tr : List Ev) :
    ∃ ps read, arrived c.socket (new ++ tr) = arrived c.socket tr ++ ps ∧
      c.receiveQueue ++ ps = read ++ c'.receiveQueue ∧
      (c.receiveQueue <+: c'.receiveQueue → read = []) := by
  cases h with
  | @parsed b ps rest _ =>
    refine ⟨ps, [], ?_, rfl, fun _ => rfl⟩
    simp [arrived]
  | @popped packet rest hq =>
    refine ⟨[], [packet], (List.append_nil _).symm, ?_, fun hsub => ?_⟩
    · rw [List.append_nil, hq]
      rfl
    · have hlen := hsub.length_le
      rw [hq] at hlen
      simp at hlen
  | @failed e old he hold =>
    refine ⟨[], [], ?_, List.append_nil _, fun _ => rfl⟩
    rw [List.append_nil, List.cons_append, (streams_breaks he _).2.1]
    rcases hold with rfl | ⟨d, rfl⟩ <;> rfl
  | @framed d w rest len r hr hsplit | @wrote w rest len r hr hsplit =>
    refine ⟨[], [], ?_, List.append_nil _, fun _ => rfl⟩
    cases r <;> exact (List.append_nil _).symm
  | _ => exact ⟨[], [], (List.append_nil _).symm, List.append_nil _, fun _ => rfl⟩

theorem Origins.follows (h : Origins m m') (hsp : reads ∨ Spares m m') : Follows reads m m' := by
  obtain ⟨new, ht, horg⟩ := h
  intro p c' hc' hs
  cases horg p c' hc' hs with
  | @evolved c late mid hc he hnew hlate =>
    obtain ⟨ps, read, ha, hq, hread⟩ := he.queued m.trace
    refine .kept hc he.socket_eq.symm ?_ hq (hsp.imp_right fun hsp => hread (hsp p c c' hc hc' hs))
    rw [ht, hnew, List.append_assoc, arrived_skip hlate, he.socket_eq, ha]
  | @linked e late _ he hempty hnew hlate =>
    refine @Queued.made _ _ _ _ _ [] ?_ (.inr rfl)
    rw [ht, hnew, List.append_assoc, arrived_skip hlate, hempty.2.2]
    rcases he with rfl | rfl <;> simp [arrived]

/-! ## What is left unread in a call -/

/-- The callback calls back to send, to read and to set options at most, and it
takes packets only if `reads` holds. -/
def Reader (reads : Prop) (cb : Callback υ) : Prop :=
  ∀ k peer event w w', cb k peer event w = some w' →
    Relation.ReflTransGen (fun m m' => Poke k m m' ∧ (reads ∨ Spares m m')) w.mgr w'.mgr

theorem Reader.leaf (h : Reader reads cb) : Leaf cb := fun k peer event w w' hw =>
  Relation.ReflTransGen.mono (fun _ _ hp => hp.1) _ _ (h k peer event w w' hw)

theorem Mute.reader (h : Mute cb) : Reader reads cb := by
  intro k peer event w w' hw
  obtain ⟨user, hu⟩ := h k peer event w
  rw [hw] at hu
  cases hu
  exact .refl

theorem Spares.of_eq (hc : m'.mConnections = m.mConnections) : Spares m m' := by
  intro p c c' hp hp' _
  rw [hc, hp] at hp'
  cases hp'
  exact List.prefix_rfl

theorem Spares.replace {c' : Connection} (hc : m.mConnections.lookup peer = some c)
    (hr : m'.mConnections = m.mConnections.replace peer c')
    (hq : c'.socket ≠ invalidSocketHandle → c.receiveQueue <+: c'.receiveQueue) :
    Spares m m' := by
  intro p d d' hd hd' hs
  rw [hr, AssocList.lookup_replace hc] at hd'
  split at hd'
  · rename_i hp
    subst hp
    rw [hc] at hd
    cases hd
    cases hd'
    exact hq hs
  · rw [hd] at hd'
    cases hd'
    exact List.prefix_rfl

theorem Spares.noted {event : ConnectionEvent} (h : Spares m m') :
    Spares m (m'.noted peer event) := by
  intro p c c' hc hc'
  rw [Manager.noted_mConnections] at hc'
  exact h p c c' hc hc'

theorem Spares.erase (m : Manager) (peer : PeerID) : Spares m (m.erase peer) := by
  intro p c c' hc hc' _
  by_cases hp : p = peer
  · rw [hp, Manager.erase_mConnections, AList.lookup_erase] at hc'
    cases hc'
  · rw [Manager.erase_mConnections, AList.lookup_erase_ne hp, hc] at hc'
    cases hc'
    exact List.prefix_rfl

theorem Spares.enter {e : Ev} {ip : Text} {port : UInt16} :
    Spares m ((m.log e).enter s ip port) := by
  intro p c c' hc hc' _
  rcases Manager.enter_lookup s ip port (m.log e) p with he | ⟨-, hno, -⟩
  · rw [he, Manager.log_mConnections, hc] at hc'
    cases hc'
    exact List.prefix_rfl
  · rw [Manager.log_mConnections, hc] at hno
    cases hno

theorem Serve.spares (h : Serve k m m') : Spares m m' := by
  cases h with
  | parsed hc _ _ _ => exact .replace hc rfl fun _ => List.prefix_append _ _
  | stopped hc _ _ _ => exact .replace hc rfl fun _ => List.prefix_rfl
  | @wrote peer c hc =>
    have hw := processWrite_writes (k := k) hc
    generalize processWrite k peer c m = m' at hw ⊢
    cases hw with
    | nothing _ => exact .of_eq rfl
    | sent _ _ _ | failed _ _ => exact .replace hc rfl fun _ => List.prefix_rfl

/-- What holds of the sockets goes on, and so do the packets. -/
def Carries (reads : Prop) (m m' : Manager) : Prop := Apart m → Apart m' ∧ Follows reads m m'

theorem Carries.refl (m : Manager) : Carries reads m m := fun hm => ⟨hm, .refl m⟩

theorem Carries.trans {m'' : Manager} (h : Carries reads m m') (h' : Carries reads m' m'') :
    Carries reads m m'' := fun hm =>
  have hmid := h hm
  have hend := h' hmid.1
  ⟨hend.1, hmid.2.trans hend.2⟩

theorem Step.carries (h : Step g m m') (hsp : reads ∨ Spares m m') : Carries reads m m' :=
  fun hm => ⟨h.apart hm, (h.origins hm).follows hsp⟩

/-- Steps that take no packet, unless `reads` holds. -/
abbrev Sparing (reads : Prop) : Manager → Manager → Prop :=
  Relation.ReflTransGen fun m m' => Step {} m m' ∧ (reads ∨ Spares m m')

theorem Sparing.carries (h : Sparing reads m m') : Carries reads m m' := by
  induction h with
  | refl => exact .refl _
  | tail _ hs ih => exact ih.trans (hs.1.carries hs.2)

theorem Step.sparing (h : Step {} m m') (hsp : reads ∨ Spares m m') : Sparing reads m m' :=
  .single ⟨h, hsp⟩

theorem Poke.sparing (h : Poke k m m') (hsp : reads ∨ Spares m m') : Sparing reads m m' := by
  rcases (Relation.reflGen_iff _ _ _).mp h.minor with rfl | hmin
  · exact .refl
  · exact (Step.minor hmin).sparing hsp

theorem notify_sparing (hcb : Reader reads cb) {event : ConnectionEvent}
    (h : notifyConnectionEvent cb k peer event w = some w') :
    Sparing reads (w.mgr.noted peer event) w'.mgr := by
  have hp : Relation.ReflTransGen (fun m m' => Poke k m m' ∧ (reads ∨ Spares m m'))
      (w.mgr.noted peer event) w'.mgr := by
    unfold notifyConnectionEvent at h
    unfold Manager.noted
    split at h
    · rw [if_pos ‹_›]
      exact hcb _ _ _ _ _ h
    · cases h
      rw [if_neg ‹_›]
  clear h
  generalize w.mgr.noted peer event = m, w'.mgr = m' at hp ⊢
  induction hp with
  | refl => exact .refl
  | tail _ hs ih => exact ih.trans (hs.1.sparing hs.2)

theorem Redial.sparing (hcb : Reader reads cb) {now : UInt64} (h : Redial cb k now w w') :
    Sparing reads w.mgr w'.mgr := by
  cases h with
  | @retry peer c m hc hdue hd =>
    have hm : m.mConnections.lookup peer = some c := by rw [hd.mConnections_eq, hc]
    have hdial : Step {} w.mgr m := .minor (.dialed hd)
    have hretry : Step {} m (retryLater peer c now m) := .scheduled _ _ hm (.inr ⟨now, hdue⟩)
    exact (hdial.sparing (.inr (.of_eq hd.mConnections_eq))).trans
      (hretry.sparing (.inr (.replace hm rfl fun _ => List.prefix_rfl)))
  | @reconnected peer c s w' hc hdue hf hn =>
    have hup : Step {} w.mgr (((w.mgr.log (.socket s)).setConn peer (c.reconnected s)).noted
        peer .connected) := .reconnected hc hdue hf trivial
    have hsp : Spares w.mgr ((w.mgr.log (.socket s)).setConn peer (c.reconnected s)) :=
      .replace hc rfl fun _ => List.prefix_rfl
    exact (hup.sparing (.inr hsp.noted)).trans (notify_sparing hcb hn)

theorem attemptReconnects_sparing (hcb : Reader reads cb)
    (h : attemptReconnects cb k w = some w') : Sparing reads w.mgr w'.mgr := by
  refine attemptReconnects_rule (P := fun v => Sparing reads w.mgr v.mgr) ?_ ?_ h
  · have hlog : Step {} w.mgr (w.mgr.nowMs k).2 := .minor (.logged rfl)
    exact hlog.sparing (.inr (.of_eq rfl))
  · exact fun _ _ hv hr => hv.trans (hr.sparing hcb)

theorem Admits.sparing (hcb : Reader reads cb) {ip : Text} {port : UInt16}
    (h : Admits cb k s ip port w w') : Sparing reads w.mgr w'.mgr :=
  have hin : Step {} w.mgr (((w.mgr.log (.accept s)).enter s ip port).noted
      w.mgr.mNextPeerID .connected) := .entered (.inr rfl) h.2.1 trivial
  (hin.sparing (.inr Spares.enter.noted)).trans (notify_sparing hcb h.2.2)

theorem Serve.sparing (h : Serve k m m') : Sparing reads m m' := by
  have hsp := h.spares
  rcases (Relation.reflGen_iff _ _ _).mp h.minor with rfl | hmin
  · exact .refl
  · exact (Step.minor hmin).sparing (.inr hsp)

theorem Loses.sparing (hcb : Reader reads cb) (h : Loses cb k peer c w w') :
    Sparing reads w.mgr w'.mgr := by
  obtain ⟨hc, v, d, hn, hd, hD, hend⟩ := h.reported hcb.leaf
  have hdown : Step {} w.mgr (w.mgr.tearDown peer c) := .tornDown hc trivial
  have hsp : Spares w.mgr (w.mgr.tearDown peer c) :=
    .replace hc (Manager.tearDown_mConnections c _) fun hno => absurd rfl hno
  refine (hdown.sparing (.inr hsp)).trans ((notify_sparing hcb hn).trans ?_)
  rcases hend with ⟨-, he⟩ | ⟨-, he⟩
  · rw [he]
    have hlog : Step {} v.mgr (v.mgr.nowMs k).2 := .minor (.logged rfl)
    have hd' : (v.mgr.nowMs k).2.mConnections.lookup peer = some d := hd
    have hwait : Step {} (v.mgr.nowMs k).2 (scheduleReconnect k peer d v.mgr) :=
      .scheduled _ _ hd' (.inl hD)
    exact (hlog.sparing (.inr (.of_eq rfl))).trans
      (hwait.sparing (.inr (.replace hd' rfl fun _ => List.prefix_rfl)))
  · rw [he]
    have herase : Step {} v.mgr (v.mgr.erase peer) := .erased hd hD
    exact herase.sparing (.inr (.erase _ _))

theorem pending_sparing {ids : List PeerID} (h : ids ⊆ m.mPendingRemove) :
    Sparing reads m (m.setPending ids) :=
  have hp : Step {} m (m.setPending ids) := .pending h
  hp.sparing (.inr (.of_eq rfl))

theorem processEvents_sparing (hcb : Reader reads cb) (hi : w.mgr.mInitialized = true)
    (h : processEvents cb k w = some w') : Sparing reads w.mgr w'.mgr := by
  refine processEvents_rule (P := fun v => Sparing reads w.mgr v.mgr)
    (R := fun _ v => Sparing reads w.mgr v.mgr) (Q := fun v => Sparing reads w.mgr v.mgr)
    ?_ ?_ ?_ ?_ ?_ ?_ ?_ ?_ hi h
  · exact fun _ ha => attemptReconnects_sparing hcb ha
  · exact fun _ _ _ _ _ hv ha _ => hv.trans (ha.sparing hcb)
  · have hsel : ∀ m : Manager, Step {} m (m.log .select) := fun _ => .minor (.logged rfl)
    exact fun v hv => hv.trans ((hsel v.mgr).sparing (.inr (.of_eq rfl)))
  · exact fun _ _ hv hs => hv.trans hs.sparing
  · exact fun v hv => hv.trans (pending_sparing v.mgr.removals_subset)
  · exact fun _ _ _ hv _ => hv
  · exact fun _ _ _ _ _ hv hl _ => hv.trans (hl.sparing hcb)
  · exact fun v _ hv ha => hv.trans ((pending_sparing (List.nil_subset _)).trans
      (attemptReconnects_sparing hcb ha))

/-- **What a call keeps of the packets.** -/
theorem processEvents_carries (hcb : Reader reads cb) (hi : w.mgr.mInitialized = true)
    (h : processEvents cb k w = some w') : Carries reads w.mgr w'.mgr :=
  (processEvents_sparing hcb hi h).carries

/-! ## Which connections a call closes -/

/-- A socket stays in its entry, or is closed and leaves it. -/
theorem Handles.stays {leaky : Prop} (h : Handles leaky m m') (hm : Apart m) {p : Place}
    (hp : m.held p = some s) : ∃ new, m'.trace = new ++ m.trace ∧
      (m'.held p = some s → Ev.close s ∉ new) := by
  have hopen := hm.2.isOpen hp
  have hquiet : ∀ {new : List Ev}, (∀ e ∈ new, e.quiet = true) → Ev.close s ∉ new :=
    fun hq hmem => by cases hq _ hmem
  have hobtain : ∀ {e : Ev} {h : SocketHandle}, e.Obtains h → Ev.close s ≠ e := by
    rintro e h (rfl | rfl) hno <;> cases hno
  cases h with
  | keeps new _ ht hq => exact ⟨new, ht, fun _ => hquiet hq⟩
  | @dials h _ hf ht =>
    refine ⟨[.close h, .socket h], ht, fun _ hmem => ?_⟩
    have hs : s = h := by simpa using hmem
    rw [hs, opened_of_free hf] at hopen
    cases hopen
  | @obtains _ h e new _ _ _ he ht hq | @loses h e new _ _ _ he ht hq =>
    refine ⟨new ++ [e], by rw [ht, List.append_assoc]; rfl, fun _ hmem => ?_⟩
    rcases List.mem_append.mp hmem with hmem | hmem
    · exact hquiet hq hmem
    · exact hobtain he (List.mem_singleton.mp hmem)
  | @releases q h new hq' hh ht hq =>
    refine ⟨new ++ [Ev.close h], by rw [ht, List.append_assoc]; rfl, fun hp' hmem => ?_⟩
    rcases List.mem_append.mp hmem with hmem | hmem
    · exact hquiet hq hmem
    · have hs : s = h := by simpa using hmem
      have hpq : p = q := hm.2.inj hp (hs ▸ hq')
      rw [hh, hpq, Function.update_self] at hp'
      cases hp'

theorem Step.held_of (h : Step g m m') (hm : m.Settled) (p : PeerID) :
    m'.held (.entry p) = m.held (.entry p) ∨ m.held (.entry p) = none ∨
      ∃ m c, g.tears m c := by
  cases h with
  | minor hmin => exact .inl (hmin.altered.held_eq p)
  | @entered s e ip port _ hf _ =>
    obtain ⟨-, -, -, hheld⟩ := noted_quiet m.mNextPeerID .connected ((m.log e).enter s ip port)
    rw [hheld]
    by_cases hin : m.mNextPeerID ∈ m.mConnections
    · refine .inl ?_
      show (((m.log e).enter s ip port).mConnections.lookup p).bind _ = _
      rw [Manager.enter_mConnections, if_pos (by exact hin)]
      rfl
    · rw [held_enter (Manager.valid_of_free hf) hin]
      by_cases hp : p = m.mNextPeerID
      · exact .inr (.inl (hp ▸ held_none hin))
      · exact .inl (Function.update_of_ne (by simpa using hp) _ _)
  | @reconnected peer c s now hc hdue hf _ =>
    obtain ⟨-, -, -, hheld⟩ := noted_quiet peer .connected
      ((m.log (.socket s)).setConn peer (c.reconnected s))
    rw [hheld, held_reconnected (Manager.valid_of_free hf) hc]
    by_cases hp : p = peer
    · exact .inr (.inl (hp ▸ held_down_entry hc ((hm peer c hc).due hdue).1))
    · exact .inl (Function.update_of_ne (by simpa using hp) _ _)
  | tornDown _ ht => exact .inr (.inr ⟨_, _, ht⟩)
  | @scheduled peer c attempt next hc _ =>
    have hheld : (m.setConn peer (c.scheduled attempt next)).held = m.held :=
      held_same hc rfl rfl rfl
    exact .inl (congrFun hheld _)
  | @erased peer c hc hD =>
    rw [held_erase]
    by_cases hp : p = peer
    · exact .inr (.inl (hp ▸ held_down_entry hc hD.1))
    · exact .inl (Function.update_of_ne (by simpa using hp) _ _)
  | pending _ => exact .inl rfl

/-- The sockets of the entries stay where they are. -/
def Stays (m m' : Manager) : Prop :=
  ∃ new, m'.trace = new ++ m.trace ∧ ∀ p s, m.held (.entry p) = some s →
    m'.held (.entry p) = some s ∧ Ev.close s ∉ new

theorem Stays.trans {m'' : Manager} (h : Stays m m') (h' : Stays m' m'') : Stays m m'' := by
  obtain ⟨new, ht, hk⟩ := h
  obtain ⟨new', ht', hk'⟩ := h'
  refine ⟨new' ++ new, by rw [ht', ht, List.append_assoc], fun p s hp => ?_⟩
  obtain ⟨hmid, hno⟩ := hk p s hp
  obtain ⟨hend, hno'⟩ := hk' p s hmid
  exact ⟨hend, fun hmem => (List.mem_append.mp hmem).elim hno' hno⟩

theorem Steps.stays (hg : ∀ m c, ¬ g.tears m c) (h : Steps g m m') (hm : Apart m) :
    Stays m m' := by
  have hend := h.invariant (P := fun v => Apart v ∧ Stays m v) (fun v v' hv hs => ?_)
    ⟨hm, [], rfl, fun _ _ hp => ⟨hp, by simp⟩⟩
  · exact hend.2
  · refine ⟨hs.apart hv.1, hv.2.trans ?_⟩
    have hh : Handles True v v' := hs.handles (fun _ _ _ => trivial) hv.1.1
    obtain ⟨new, ht, -⟩ := hh.kept
    refine ⟨new, ht, fun p s hp => ?_⟩
    have hp' : v'.held (.entry p) = some s := by
      rcases hs.held_of hv.1.1 p with he | hno | ⟨m, c, ht⟩
      · rw [he, hp]
      · rw [hp] at hno
        cases hno
      · exact absurd ht (hg m c)
    obtain ⟨new', ht', hno⟩ := hh.stays hv.1 hp
    have hsame : new' = new := List.append_cancel_right (ht'.symm.trans ht)
    exact ⟨hp', hsame ▸ hno hp'⟩

/-! ## Which streams end -/

/-- No stream ends, no removal is forgotten, and no packet is parsed. -/
structure Tame (m m' : Manager) : Prop where
  pending : m.mPendingRemove ⊆ m'.mPendingRemove
  events : ∃ new, m'.trace = new ++ m.trace ∧ ∀ s, Ev.recvEnd s ∉ new
  unread : ∀ p, m'.unread p <:+ m.unread p

theorem Tame.refl (m : Manager) : Tame m m :=
  ⟨List.Subset.refl _, ⟨[], rfl, by simp⟩, fun _ => List.suffix_rfl⟩

theorem Tame.trans {m'' : Manager} (h : Tame m m') (h' : Tame m' m'') : Tame m m'' := by
  obtain ⟨new, ht, hno⟩ := h.events
  obtain ⟨new', ht', hno'⟩ := h'.events
  refine ⟨List.Subset.trans h.pending h'.pending,
    ⟨new' ++ new, by rw [ht', ht, List.append_assoc], ?_⟩, fun p => (h'.unread p).trans (h.unread p)⟩
  exact fun s hmem => (List.mem_append.mp hmem).elim (hno' s) (hno s)

theorem Tame.of_eq (new : List Ev) (hc : m'.mConnections = m.mConnections)
    (hp : m'.mPendingRemove = m.mPendingRemove) (ht : m'.trace = new ++ m.trace)
    (hno : ∀ s, Ev.recvEnd s ∉ new) : Tame m m' := by
  refine ⟨by rw [hp]; exact List.Subset.refl _, ⟨new, ht, hno⟩, fun p => ?_⟩
  unfold Manager.unread
  rw [hc]

theorem Tame.replace (c' : Connection) (new : List Ev) (hc : m.mConnections.lookup peer = some c)
    (hr : m'.mConnections = m.mConnections.replace peer c')
    (hp : m.mPendingRemove ⊆ m'.mPendingRemove) (ht : m'.trace = new ++ m.trace)
    (hno : ∀ s, Ev.recvEnd s ∉ new) (hq : c'.receiveQueue <:+ c.receiveQueue) : Tame m m' := by
  refine ⟨hp, ⟨new, ht, hno⟩, fun p => ?_⟩
  by_cases hpeer : p = peer
  · subst hpeer
    have hc' : m'.mConnections.lookup p = some c' := by
      rw [hr, AssocList.lookup_replace hc, if_pos rfl]
    rw [unread_of_lookup hc, unread_of_lookup hc']
    exact hq
  · unfold Manager.unread
    rw [hr, AssocList.lookup_replace hc, if_neg hpeer]

theorem Poke.tame (h : Poke k m m') : Tame m m' := by
  cases h with
  | sendPacket peer data =>
    have hs := sendPacket_sends k peer data m
    generalize (Client.sendPacket k peer data m).1 = b at hs
    generalize (Client.sendPacket k peer data m).2 = m' at hs ⊢
    cases hs with
    | refused _ => exact .refl m
    | @sent d c len r _ _ hf _ _ _ =>
      exact .replace _ [.send c.socket (createSendFrame d).length len r, .packet c.socket d]
        hf.2.2.1 rfl (List.Subset.refl _) rfl (by simp) List.suffix_rfl
    | @failed d c len hf _ =>
      exact .replace _ [.send c.socket (createSendFrame d).length len .fail, .packet c.socket d]
        hf.2.2.1 rfl (List.subset_append_left _ _) rfl (by simp) List.suffix_rfl
  | readPacket peer buffer bufferSize =>
    have hp := readPacket_pops peer buffer bufferSize m
    generalize (Client.readPacket peer buffer bufferSize m).1 = out at hp
    generalize (Client.readPacket peer buffer bufferSize m).2 = m' at hp ⊢
    cases hp with
    | nothing => exact .refl m
    | popped hc hq | lost hc hq =>
      exact .replace _ [] hc rfl (List.Subset.refl _) rfl (by simp) (hq ▸ List.suffix_cons _ _)
  | setAutoReconnect peer enable b x =>
    unfold Client.setAutoReconnect
    cases hc : m.mConnections.lookup peer with
    | none => exact .refl m
    | some c => exact .replace _ [] hc rfl (List.Subset.refl _) rfl (by simp) List.suffix_rfl

theorem noted_tame (peer : PeerID) (event : ConnectionEvent) (m : Manager) :
    Tame m (m.noted peer event) := by
  unfold Manager.noted
  split
  · exact .of_eq [.notify peer event] rfl rfl rfl (by simp)
  · exact .refl m

theorem notify_tame (hcb : Leaf cb) {event : ConnectionEvent}
    (h : notifyConnectionEvent cb k peer event w = some w') : Tame w.mgr w'.mgr := by
  have hp := notify_pokes hcb h
  generalize w'.mgr = m' at hp ⊢
  induction hp with
  | refl => exact noted_tame peer event w.mgr
  | tail _ hs ih => exact ih.trans hs.tame

theorem Redial.tame (hcb : Leaf cb) {now : UInt64} (h : Redial cb k now w w') :
    Tame w.mgr w'.mgr := by
  cases h with
  | @retry peer c m hc _ hd =>
    have hdial : Tame w.mgr m := by
      cases hd with
      | noSocket => exact .of_eq [_] rfl rfl rfl (by simp)
      | refused _ => exact .of_eq [_, _] rfl rfl rfl (by simp)
      | made _ => exact .of_eq [_] rfl rfl rfl (by simp)
    have hm : m.mConnections.lookup peer = some c := by rw [hd.mConnections_eq, hc]
    exact hdial.trans (.replace _ [] hm rfl (List.Subset.refl _) rfl (by simp) List.suffix_rfl)
  | @reconnected peer c s w' hc _ _ hn =>
    have hup : Tame w.mgr ((w.mgr.log (.socket s)).setConn peer (c.reconnected s)) :=
      .replace _ [.socket s] hc rfl (List.Subset.refl _) rfl (by simp) List.suffix_rfl
    exact hup.trans (notify_tame hcb hn)

theorem attemptReconnects_tame (hcb : Leaf cb) (h : attemptReconnects cb k w = some w') :
    Tame w.mgr w'.mgr := by
  refine attemptReconnects_rule (P := fun v => Tame w.mgr v.mgr) ?_ ?_ h
  · exact .of_eq [.clock _] rfl rfl rfl (by simp)
  · exact fun _ _ hv hr => hv.trans (hr.tame hcb)

theorem Admits.tame (hcb : Leaf cb) {ip : Text} {port : UInt16}
    (h : Admits cb k s ip port w w') : Tame w.mgr w'.mgr := by
  suffices henter : Tame w.mgr ((w.mgr.log (.accept s)).enter s ip port) from
    henter.trans (notify_tame hcb h.2.2)
  refine ⟨?_, ⟨[.accept s], Manager.enter_trace .., by simp⟩, fun p => ?_⟩
  · rw [Manager.enter_mPendingRemove]
    exact List.Subset.refl _
  · unfold Manager.unread
    rcases Manager.enter_lookup s ip port (w.mgr.log (.accept s)) p with he | ⟨-, hno, he⟩
    · rw [he]
      exact List.suffix_rfl
    · rw [he]
      exact List.nil_suffix

theorem Loses.tame (hcb : Leaf cb) (h : Loses cb k peer c w w') :
    Tame w.mgr w'.mgr ∧ w'.mgr.unread peer = [] := by
  obtain ⟨hc, v, d, hn, hd, hD, hend⟩ := h.reported hcb
  have hdown : Tame w.mgr ((w.mgr.closeSocket c.socket).setConn peer c.down) := by
    refine .replace c.down (if c.socket != invalidSocketHandle then [.close c.socket] else []) hc
      ?_ ?_ ?_ ?_
      List.nil_suffix
    · rw [Manager.setConn_mConnections, Manager.closeSocket_mConnections]
    · rw [Manager.setConn_mPendingRemove, Manager.closeSocket_mPendingRemove]
      exact List.Subset.refl _
    · rw [Manager.setConn_trace, Manager.closeSocket]
      split <;> rfl
    · intro s
      split <;> simp
  have hv := hdown.trans (notify_tame hcb hn)
  rcases hend with ⟨-, he⟩ | ⟨-, he⟩
  · rw [he]
    have hlog : (v.mgr.nowMs k).2.mConnections.lookup peer = some d := hd
    have hwait : Tame v.mgr (scheduleReconnect k peer d v.mgr) :=
      .replace _ [.clock _] hd rfl (List.Subset.refl _) rfl (by simp) List.suffix_rfl
    refine ⟨hv.trans hwait, ?_⟩
    exact (unread_of_lookup (Manager.setConn_lookup_self hlog)).trans hD.2.2.2.1
  · rw [he]
    have hnone : (v.mgr.erase peer).mConnections.lookup peer = none :=
      AList.lookup_erase _ _
    have herase : Tame v.mgr (v.mgr.erase peer) := by
      refine ⟨List.Subset.refl _, ⟨[], rfl, by simp⟩, fun p => ?_⟩
      by_cases hp : p = peer
      · rw [hp, unread_of_none hnone]
        exact List.nil_suffix
      · unfold Manager.unread
        rw [Manager.erase_mConnections, AList.lookup_erase_ne hp]
    exact ⟨hv.trans herase, unread_of_none hnone⟩

/-- A connection whose stream ended is pending. -/
def Ending (m m' : Manager) : Prop :=
  m.mPendingRemove ⊆ m'.mPendingRemove ∧ ∃ new, m'.trace = new ++ m.trace ∧
    ∀ s, Ev.recvEnd s ∈ new → ∃ p ∈ m'.mPendingRemove, m'.held (.entry p) = some s

theorem Tame.ending (h : Tame m m') : Ending m m' := by
  obtain ⟨new, ht, hno⟩ := h.events
  exact ⟨h.pending, new, ht, fun s hmem => absurd hmem (hno s)⟩

theorem Ending.trans {m'' : Manager} (h : Ending m m') (h' : Ending m' m'') (hs : Stays m' m'') :
    Ending m m'' := by
  obtain ⟨hsub, new, ht, hend⟩ := h
  obtain ⟨hsub', new', ht', hend'⟩ := h'
  refine ⟨List.Subset.trans hsub hsub', new' ++ new, by rw [ht', ht, List.append_assoc],
    fun s hmem => ?_⟩
  rcases List.mem_append.mp hmem with hmem | hmem
  · exact hend' s hmem
  · obtain ⟨p, hp, hps⟩ := hend s hmem
    obtain ⟨_, _, hk⟩ := hs
    exact ⟨p, hsub' hp, (hk p s hps).1⟩

theorem Serve.ending (h : Serve k m m') (hm : m.Settled) : Ending m m' := by
  cases h with
  | @parsed peer c b ps rest _ _ _ _ =>
    exact ⟨List.Subset.refl _, [.pushed c.socket ps, .recv c.socket b], rfl, by simp⟩
  | @stopped peer c e id hc hconn he hid =>
    refine ⟨List.subset_append_left _ _, [e], rfl, fun s hmem => ?_⟩
    have hsame : (((m.log e).setConn peer { c with connected := false }).pushPending id).held =
        m.held := held_same hc rfl rfl rfl
    have hpeer : id = peer := by
      rcases hid with hid | hid
      · exact hid
      · exact hid.trans (hm peer c hc).peerID
    have hs : s = c.socket := by
      rcases he with rfl | rfl | rfl
      · simpa using hmem
      · simp at hmem
      · simp at hmem
    refine ⟨peer, ?_, ?_⟩
    · rw [hpeer]
      exact List.mem_append_right _ (List.mem_singleton.mpr rfl)
    · rw [hsame, held_entry hc, hs, holding_valid ((hm peer c hc).live (.inl hconn))]
  | @wrote peer c hc =>
    have hw := processWrite_writes (k := k) hc
    generalize processWrite k peer c m = m' at hw ⊢
    cases hw with
    | nothing _ => exact ⟨List.Subset.refl _, [], rfl, by simp⟩
    | sent _ _ _ => exact ⟨List.Subset.refl _, [_], rfl, by simp⟩
    | failed _ _ => exact ⟨List.subset_append_left _ _, [_], rfl, by simp⟩

/-! ## A call of `processEvents` -/

/-- Nothing is torn down. -/
def lasting : Guard where
  tears _ _ := False

/-- Up to the removals every socket stays in its entry. -/
def Serving (m m' : Manager) : Prop := Apart m' ∧ Stays m m' ∧ Ending m m'

theorem Serving.next {m'' : Manager} (h : Serving m m') (hs : Steps lasting m' m'')
    (he : Ending m' m'') : Serving m m'' := by
  obtain ⟨hap, hst, hen⟩ := h
  have hstays : Stays m' m'' := hs.stays (fun _ _ hno => hno) hap
  have hap' : Apart m'' := hs.invariant (fun _ _ hm hs => hs.apart hm) hap
  exact ⟨hap', hst.trans hstays, hen.trans he hstays⟩

theorem beforeRemoval_serving (hcb : Leaf cb) (hm : Apart w.mgr)
    (h : beforeRemoval cb k w = some w') : Serving w.mgr w'.mgr := by
  have hrefl : Serving w.mgr w.mgr :=
    ⟨hm, ⟨[], rfl, fun _ _ hp => ⟨hp, by simp⟩⟩, (Tame.refl w.mgr).ending⟩
  refine beforeRemoval_rule (P := fun v => Serving w.mgr v.mgr) ?_ ?_ ?_ ?_ h
  · intro w₁ ha
    have hs : Steps lasting w.mgr w₁.mgr := attemptReconnects_steps hcb (fun _ _ => trivial) ha
    exact hrefl.next hs (attemptReconnects_tame hcb ha).ending
  · intro s ip port v v' hv ha _
    have hs : Steps lasting v.mgr v'.mgr := ha.steps hcb trivial
    exact hv.next hs (ha.tame hcb).ending
  · intro v hv
    have hs : Step lasting v.mgr (v.mgr.log .select) := .minor (.logged rfl)
    have ht : Tame v.mgr (v.mgr.log .select) := .of_eq [.select] rfl rfl rfl (by simp)
    exact hv.next (.single hs) ht.ending
  · exact fun v m hv hs => hv.next hs.minors.steps (hs.ending hv.1.1)

/-- During the removals a socket is in its entry, or closed and nothing is left
unread; and the streams that ended are closed or still on the list `rest`. -/
def Closing (m : Manager) (rest : List PeerID) (m' : Manager) : Prop :=
  Apart m' ∧ ∃ new, m'.trace = new ++ m.trace ∧
    (∀ p s, m.held (.entry p) = some s →
      (m'.held (.entry p) = some s ∧ Ev.close s ∉ new) ∨ (Ev.close s ∈ new ∧ m'.unread p = [])) ∧
    ∀ s, Ev.recvEnd s ∈ new → Ev.close s ∈ new ∨ ∃ p ∈ rest, m'.held (.entry p) = some s

theorem Serving.closing (h : Serving m m') : Closing m m'.mPendingRemove m' := by
  obtain ⟨hap, ⟨new, ht, hk⟩, -, new', ht', hend⟩ := h
  have hsame : new' = new := List.append_cancel_right (ht'.symm.trans ht)
  exact ⟨hap, new, ht, fun p s hp => .inl (hk p s hp), fun s hs => .inr (hend s (hsame ▸ hs))⟩

theorem Loses.events (hcb : Leaf cb) (h : Loses cb k peer c w w') :
    ∃ new, w'.mgr.trace = new ++ w.mgr.trace ∧ (∀ s, Ev.recvEnd s ∉ new) ∧
      ∀ s, s ≠ invalidSocketHandle → (Ev.close s ∈ new ↔ s = c.socket) := by
  obtain ⟨new, ht, hno⟩ := (h.tame hcb).1.events
  obtain ⟨after, hafter, hstill⟩ := h.closes hcb
  refine ⟨new, ht, hno, fun s hs => ?_⟩
  have hclose : Ev.close s ∉ after := fun hmem => by cases hstill _ hmem
  by_cases hc : c.socket = invalidSocketHandle
  · have hnew : new = after := by
      refine List.append_cancel_right (ht.symm.trans ?_)
      rw [hafter, Manager.closeSocket, if_neg (by simp [hc])]
    rw [hnew]
    exact ⟨fun hmem => absurd hmem hclose, fun he => absurd (he.trans hc) hs⟩
  · have hnew : new = after ++ [.close c.socket] := by
      refine List.append_cancel_right (ht.symm.trans ?_)
      rw [hafter, Manager.closeSocket, if_pos (by simpa using hc), List.append_assoc]
      rfl
    rw [hnew, List.mem_append, List.mem_singleton]
    exact ⟨fun hmem => Ev.close.inj (hmem.resolve_left hclose), fun he => .inr (by rw [he])⟩

theorem Closing.lost (hcb : Leaf cb) {rest : List PeerID} {v v' : World υ}
    (h : Closing m (peer :: rest) v.mgr) (hl : Loses cb k peer c v v') :
    Closing m rest v'.mgr := by
  obtain ⟨hap, new, ht, hk, hend⟩ := h
  obtain ⟨late, hlate, hnoend, hclose⟩ := hl.events hcb
  obtain ⟨htame, hempty⟩ := hl.tame hcb
  have hvalid : ∀ {p s}, v.mgr.held p = some s → s ≠ invalidSocketHandle := by
    rintro p s hp rfl
    have := hap.2.isOpen hp
    simp [opened] at this
  have hpeer : ∀ {s}, v.mgr.held (.entry peer) = some s → Ev.close s ∈ late := by
    intro s hp
    apply (hclose s (hvalid hp)).mpr
    rw [held_entry hl.1] at hp
    exact (eq_of_holding hp).symm
  have hap' : Apart v'.mgr := by
    have hs : Steps {} v.mgr v'.mgr := hl.steps hcb trivial
    exact hs.invariant (fun _ _ hm hs => hs.apart hm) hap
  refine ⟨hap', late ++ new, by rw [hlate, ht, List.append_assoc], fun p s hp => ?_,
    fun s hmem => ?_⟩
  · rcases hk p s hp with ⟨hheld, hno⟩ | ⟨hmem, hq⟩
    · by_cases hpp : p = peer
      · subst hpp
        exact .inr ⟨List.mem_append_left _ (hpeer hheld), hempty⟩
      · refine .inl ⟨(hl.held_of_ne hcb hpp).trans hheld, fun hmem => ?_⟩
        rcases List.mem_append.mp hmem with hmem | hmem
        · have hs := (hclose s (hvalid hheld)).mp hmem
          have hother : v.mgr.held (.entry peer) = some s := by
            rw [held_entry hl.1, ← hs, holding_valid (hvalid hheld)]
          exact hpp (Place.entry.inj (hap.2.inj hheld hother))
        · exact hno hmem
    · refine .inr ⟨List.mem_append_right _ hmem, ?_⟩
      have hsuf := htame.unread p
      rw [hq] at hsuf
      exact List.suffix_nil.mp hsuf
  · rcases List.mem_append.mp hmem with hmem | hmem
    · exact absurd hmem (hnoend s)
    · rcases hend s hmem with hc | ⟨p, hp, hheld⟩
      · exact .inl (List.mem_append_right _ hc)
      · by_cases hpp : p = peer
        · subst hpp
          exact .inl (List.mem_append_left _ (hpeer hheld))
        · refine .inr ⟨p, (List.mem_cons.mp hp).resolve_left hpp, ?_⟩
          exact (hl.held_of_ne hcb hpp).trans hheld

theorem Closing.next {m'' : Manager} {rest : List PeerID} (h : Closing m rest m')
    (hs : Steps lasting m' m'') (ht : Tame m' m'') : Closing m rest m'' := by
  obtain ⟨hap, new, htr, hk, hend⟩ := h
  obtain ⟨late, hlate, hstay⟩ := hs.stays (fun _ _ hno => hno) hap
  obtain ⟨late', hlate', hnoend⟩ := ht.events
  have hsame : late' = late := List.append_cancel_right (hlate'.symm.trans hlate)
  refine ⟨hs.invariant (fun _ _ hm hs => hs.apart hm) hap, late ++ new,
    by rw [hlate, htr, List.append_assoc], fun p s hp => ?_, fun s hmem => ?_⟩
  · rcases hk p s hp with ⟨hheld, hno⟩ | ⟨hmem, hq⟩
    · obtain ⟨hheld', hno'⟩ := hstay p s hheld
      exact .inl ⟨hheld', fun hmem => (List.mem_append.mp hmem).elim hno' hno⟩
    · refine .inr ⟨List.mem_append_right _ hmem, ?_⟩
      have hsuf := ht.unread p
      rw [hq] at hsuf
      exact List.suffix_nil.mp hsuf
  · rcases List.mem_append.mp hmem with hmem | hmem
    · exact absurd hmem (hsame ▸ hnoend s)
    · rcases hend s hmem with hc | ⟨p, hp, hheld⟩
      · exact .inl (List.mem_append_right _ hc)
      · exact .inr ⟨p, hp, (hstay p s hheld).1⟩

theorem processEvents_closing (hcb : Leaf cb) (hm : Apart w.mgr) (hi : w.mgr.mInitialized = true)
    (h : processEvents cb k w = some w') : Closing w.mgr [] w'.mgr := by
  obtain ⟨v, v', hclean, hrem, hagain⟩ := processEvents_beforeRemoval hi h
  have hserving := beforeRemoval_serving hcb hm hclean
  obtain ⟨v₁, hr, rfl⟩ := removeDisconnected_removal hrem
  have hall : Closing w.mgr v.mgr.removals (v.mgr.setPending v.mgr.removals) := by
    obtain ⟨hap, new, ht, hk, hend⟩ := hserving.closing
    refine ⟨hap, new, ht, hk, fun s hs => (hend s hs).imp_right ?_⟩
    exact fun ⟨p, hp, hheld⟩ => ⟨p, v.mgr.pending_subset_removals hp, hheld⟩
  have hnone := hr.invariant (P := fun rest v => Closing w.mgr rest v.mgr) ?_
    (fun _ _ _ _ _ hc hl _ => hc.lost hcb hl) hall
  · have hs : Steps lasting (v₁.mgr.setPending []) w'.mgr :=
      attemptReconnects_steps hcb (fun _ _ => trivial) hagain
    have hall : Closing w.mgr [] (v₁.mgr.setPending []) := hnone
    exact hall.next hs (attemptReconnects_tame hcb hagain)
  · rintro peer rest v ⟨hap, new, ht, hk, hend⟩ hno
    refine ⟨hap, new, ht, hk, fun s hs => (hend s hs).imp_right fun ⟨p, hp, hheld⟩ => ⟨p, ?_, hheld⟩⟩
    apply (List.mem_cons.mp hp).resolve_left
    rintro rfl
    rw [held_none (AList.lookup_eq_none.mp hno)] at hheld
    cases hheld

/-- **What a call of `processEvents` leaves unread**, in every state a run leads to.
What has arrived on a connection is unread or was read; what is unread can be
read; a connection whose stream ended is closed; and a connection that is closed
leaves nothing to read. -/
theorem unread_kept (hcb : Reader reads cb) {callback : Bool} {user : υ}
    (h : Runs.Reachable (call cb) (fresh callback user) w)
    (hp : call cb (k, .processEvents) w = some w') :
    Follows reads w.mgr w'.mgr ∧
      (∀ p, p ≠ invalidPeerID → Available p (w'.mgr.unread p) w'.mgr) ∧
      ∃ new, w'.mgr.trace = new ++ w.mgr.trace ∧ (∀ s, Ev.recvEnd s ∈ new → Ev.close s ∈ new) ∧
        ∀ p s, w.mgr.held (.entry p) = some s →
          (w'.mgr.held (.entry p) = some s ∧ Ev.close s ∉ new) ∨
            (Ev.close s ∈ new ∧ w'.mgr.unread p = []) := by
  have hstep : ∀ m m', Step {} m m' → Apart m → m.Legal → m'.Legal := fun _ _ hs => hs.legal
  have hw := reachable_keeps hcb.leaf hstep Manager.legal_of_empty h
  have hw' := call_keeps hcb.leaf hstep Manager.legal_of_empty (k, .processEvents) w w' hw hp
  have hread : ∀ p, p ≠ invalidPeerID → Available p (w'.mgr.unread p) w'.mgr :=
    fun p hne => available_unread hne (hw'.2.unread p)
  cases hi : w.mgr.mInitialized with
  | true =>
    have hclosing := processEvents_closing hcb.leaf hw.1.apart hi hp
    obtain ⟨-, new, ht, hk, hend⟩ := hclosing
    refine ⟨(processEvents_carries hcb hi hp hw.1.apart).2, hread, new, ht, fun s hs => ?_, hk⟩
    exact (hend s hs).resolve_right (by simp)
  | false =>
    obtain rfl := Option.some.inj ((processEvents_uninitialized hi).symm.trans hp)
    exact ⟨.refl _, hread, [], rfl, by simp, fun p s hp => .inl ⟨hp, by simp⟩⟩

/-- The other end of the connection on 10 sends the packet `[7]`. -/
def packetKernel : Kernel := { calmKernel with recv := fun _ _ => ([[1, 0, 0, 0, 7]], .again) }

/-- A peer is connected. -/
def onePeerRun : List (Kernel × Call) :=
  [.initializeManager, .connect (some ['h']) 1].map (packetKernel, ·)

theorem onePeerRun_kept :
    ∃ w w', Runs.run (call ignore) onePeerRun (fresh true ()) = some w ∧
      call ignore (packetKernel, .processEvents) w = some w' ∧ Follows False w.mgr w'.mgr ∧
      Available 1 [[7]] w'.mgr := by
  have hlast : (Runs.run (call ignore) onePeerRun (fresh true ())).bind (fun w =>
      (call ignore (packetKernel, .processEvents) w).map fun w' => w'.mgr.unread 1) =
        some [[7]] := by decide +kernel
  obtain ⟨w, hr, hlast⟩ := Option.bind_eq_some_iff.mp hlast
  obtain ⟨w', hp, hq⟩ := Option.map_eq_some_iff.mp hlast
  have hcb : Reader False ignore := ignore_mute.reader
  obtain ⟨hfollows, havail, -⟩ := unread_kept hcb ⟨_, hr⟩ hp
  refine ⟨w, w', hr, hp, hfollows, ?_⟩
  rw [← hq]
  exact havail 1 (by decide)

/-- It sends the packet and closes the connection. -/
def farewellKernel : Kernel :=
  { calmKernel with recv := fun _ _ => ([[1, 0, 0, 0, 7]], .closed) }

/-- The packet is parsed, and after the call there is nothing to read. -/
theorem farewell_lost :
    ∃ w w', Runs.run (call ignore) onePeerRun (fresh true ()) = some w ∧
      call ignore (farewellKernel, .processEvents) w = some w' ∧
      Ev.pushed 10 [[7]] ∈ w'.mgr.trace ∧ Ev.recvEnd 10 ∈ w'.mgr.trace ∧
      isPacketAvailable 1 w'.mgr = none ∧ (readPacket 1 true 65536 w'.mgr).1 = none := by
  have hlast : (Runs.run (call ignore) onePeerRun (fresh true ())).bind (fun w =>
      (call ignore (farewellKernel, .processEvents) w).map fun w' =>
        decide (Ev.pushed 10 [[7]] ∈ w'.mgr.trace) && decide (Ev.recvEnd 10 ∈ w'.mgr.trace) &&
          (isPacketAvailable 1 w'.mgr == none) && ((readPacket 1 true 65536 w'.mgr).1 == none)) =
      some true := by decide +kernel
  obtain ⟨w, hr, hlast⟩ := Option.bind_eq_some_iff.mp hlast
  obtain ⟨w', hp, hlast⟩ := Option.map_eq_some_iff.mp hlast
  simp only [Bool.and_eq_true, decide_eq_true_eq, beq_iff_eq] at hlast
  obtain ⟨⟨⟨hpush, hend⟩, havail⟩, hread⟩ := hlast
  exact ⟨w, w', hr, hp, hpush, hend, havail, hread⟩

end IsaacP2P.Client
