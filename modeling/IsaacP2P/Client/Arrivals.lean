import IsaacP2P.Client.Unread
import IsaacP2P.Lib.Fifo

/-!
# What arrives on a connection that stays up

As long as the socket of an entry is not closed the entry keeps it, and what
arrives on it is appended to its queue (`Receives`). The steps of the library
have this property one by one, if they take no packet, and so has a call of
`processEvents` (`processEvents_receives`).
-/

namespace IsaacP2P.Client

open Fifo (Passes)

variable {υ : Type} {cb : Callback υ} {k : Kernel} {w w' : World υ} {m m' : Manager} {peer : PeerID}
  {s : SocketHandle} {c : Connection}

/-- If `peer` holds the socket `s`, it is closed, or `peer` still holds it and has
what arrived on it. -/
def Receives (peer : PeerID) (s : SocketHandle) (m m' : Manager) : Prop :=
  ∃ new, m'.trace = new ++ m.trace ∧ (m.held (.entry peer) = some s → Ev.close s ∈ new ∨
    m'.held (.entry peer) = some s ∧ ∃ ps, arrived s m'.trace = arrived s m.trace ++ ps ∧
      Passes ps [] (m.unread peer) (m'.unread peer))

theorem Receives.refl (m : Manager) : Receives peer s m m :=
  ⟨[], rfl, fun hheld => .inr ⟨hheld, [], (List.append_nil _).symm, .refl _⟩⟩

theorem Receives.trans {m'' : Manager} (h : Receives peer s m m') (h' : Receives peer s m' m'') :
    Receives peer s m m'' := by
  obtain ⟨new, ht, hr⟩ := h
  obtain ⟨new', ht', hr'⟩ := h'
  refine ⟨new' ++ new, by rw [ht', ht, List.append_assoc], fun hheld => ?_⟩
  rcases hr hheld with hclose | ⟨hmid, ps, ha, hq⟩
  · exact .inl (List.mem_append_right _ hclose)
  · rcases hr' hmid with hclose | ⟨hend, ps', ha', hq'⟩
    · exact .inl (List.mem_append_left _ hclose)
    · exact .inr ⟨hend, ps ++ ps', by rw [ha', ha, List.append_assoc], hq.trans hq'⟩

theorem lookup_of_held (hm : Ownership.Holds m.held (opened m.trace))
    (hheld : m.held (.entry peer) = some s) :
    s ≠ invalidSocketHandle ∧ ∃ c, m.mConnections.lookup peer = some c ∧ c.socket = s := by
  have hs : s ≠ invalidSocketHandle := by
    rintro rfl
    have := hm.isOpen hheld
    simp [opened] at this
  obtain ⟨c, hc, hcs⟩ := Option.bind_eq_some_iff.mp hheld
  exact ⟨hs, c, hc, eq_of_holding hcs⟩

/-- **One step** that takes no packet. The entry cannot have its socket anew,
since it had it before. -/
theorem Step.receives (h : Step {} m m') (hm : Apart m) (hsp : Spares m m') :
    Receives peer s m m' := by
  obtain ⟨new, ht, horg⟩ := h.origins hm
  have hh : Handles True m m' := h.handles (fun _ _ _ => trivial) hm.1
  obtain ⟨new', ht', hkept⟩ := hh.kept
  obtain rfl : new' = new := List.append_cancel_right (ht'.symm.trans ht)
  refine ⟨new', ht, fun hheld => ?_⟩
  rcases hkept _ _ hheld with hheld' | hclose
  · obtain ⟨hs, c', hc', rfl⟩ := lookup_of_held (h.apart hm).2 hheld'
    cases horg peer c' hc' hs with
    | @evolved c late mid hc he hnew hlate =>
      obtain ⟨ps, read, ha, hq, hread⟩ := he.queued m.trace
      obtain rfl := hread (hsp peer c c' hc hc' hs)
      refine .inr ⟨hheld', ps, ?_, ?_⟩
      · rw [ht, hnew, List.append_assoc, arrived_skip hlate, he.socket_eq, ha]
      · rw [unread_of_lookup hc, unread_of_lookup hc']
        exact hq
    | linked hno _ _ _ _ =>
      rw [hheld] at hno
      cases hno
  · exact .inl hclose

theorem Sparing.steps {reads : Prop} (h : Sparing reads m m') : Steps {} m m' :=
  Relation.ReflTransGen.mono (fun _ _ hs => hs.1) _ _ h

theorem Sparing.apart {reads : Prop} (h : Sparing reads m m') (hm : Apart m) : Apart m' :=
  (h.carries hm).1

/-- **A sequence of steps.** -/
theorem Sparing.receives (h : Sparing False m m') (hm : Apart m) : Receives peer s m m' := by
  induction h with
  | refl => exact .refl m
  | tail hmid hs ih =>
    exact ih.trans (hs.1.receives (Sparing.apart hmid hm) (hs.2.resolve_left id))

theorem Sparing.legal {reads : Prop} (h : Sparing reads m m') (hm : Apart m) (hl : m.Legal) :
    m'.Legal := by
  have hend : Apart m' ∧ m'.Legal := by
    induction h with
    | refl => exact ⟨hm, hl⟩
    | tail _ hs ih => exact ⟨hs.1.apart ih.1, hs.1.legal ih.1 ih.2⟩
  exact hend.2

theorem popped_receives {packet : Packet} {rest : PacketQueue}
    (hc : m.mConnections.lookup peer = some c) (hq : c.receiveQueue = packet :: rest) :
    Step {} m (m.setConn peer { c with receiveQueue := rest }) ∧
      Passes [] [packet] (m.unread peer)
        ((m.setConn peer { c with receiveQueue := rest }).unread peer) := by
  refine ⟨.minor (.popped hc hq), ?_⟩
  rw [unread_of_lookup hc, unread_of_lookup (Manager.setConn_lookup_self hc), hq]
  exact .leave [packet] rest

theorem sendPacket_spares (k : Kernel) (peer : PeerID) (data : Option (List UInt8)) (m : Manager) :
    Spares m (sendPacket k peer data m).2 := by
  have hs := sendPacket_sends k peer data m
  generalize (sendPacket k peer data m).1 = b at hs
  generalize (sendPacket k peer data m).2 = m' at hs ⊢
  cases hs with
  | refused _ => exact .of_eq rfl
  | sent hf _ _ _ | failed hf _ => exact .replace hf.2.2.1 rfl fun _ => List.prefix_rfl

theorem setAutoReconnect_spares (peer : PeerID) (enable : Bool) (baseDelayMs maxDelayMs : UInt32)
    (m : Manager) : Spares m (setAutoReconnect peer enable baseDelayMs maxDelayMs m) := by
  unfold setAutoReconnect
  cases hc : m.mConnections.lookup peer with
  | none => exact .of_eq rfl
  | some c => exact .replace hc rfl fun _ => List.prefix_rfl

theorem shutdown_receives (hr : Ready m) : Receives peer s m (shutdown m) := by
  obtain ⟨m₂, hm₂, ht, hh, hnone⟩ := shutdown_handled True hr
  obtain ⟨new, hnew, hkept⟩ := hm₂.kept
  refine ⟨new, ht.trans hnew, fun hheld => .inl ?_⟩
  refine (hkept _ _ hheld).resolve_left fun hheld' => ?_
  rw [← hh, hnone] at hheld'
  cases hheld'

end IsaacP2P.Client
