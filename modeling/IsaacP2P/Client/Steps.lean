import IsaacP2P.Client.Calls

/-!
# The steps of a call

What the library does is a sequence of minor changes and of five others: a
connection is entered, reconnected, torn down, scheduled for a reconnect, or
erased. A `Guard` says what is known of the manager where an ID is taken, where
a connection is torn down, and where one is reconnected, so that one induction
over the steps serves both what holds in every run and what holds in the runs
that meet a condition.
-/

namespace IsaacP2P.Client

variable {υ : Type} {cb : Callback υ} {k : Kernel} {w w' : World υ} {m m' : Manager} {peer : PeerID}

structure Guard where
  enters : Manager → Prop := fun _ => True
  tears : Manager → Connection → Prop := fun _ _ => True
  revives : Manager → PeerID → Prop := fun _ _ => True

variable {g : Guard}

inductive Step (g : Guard) (m : Manager) : Manager → Prop where
  | minor {m' : Manager} : Minor m m' → Step g m m'
  /-- A connection just made is entered, and reported. -/
  | entered {h : SocketHandle} {e : Ev} {ip : Text} {port : UInt16} :
      e = .socket h ∨ e = .accept h → m.free h = true → g.enters (m.log e) →
      Step g m (((m.log e).enter h ip port).noted m.mNextPeerID .connected)
  | reconnected {peer : PeerID} {c : Connection} {h : SocketHandle} {now : UInt64} :
      m.mConnections.lookup peer = some c → c.reconnectDue now = true → m.free h = true →
      g.revives m peer →
      Step g m (((m.log (.socket h)).setConn peer (c.reconnected h)).noted peer .connected)
  | tornDown {peer : PeerID} {c : Connection} :
      m.mConnections.lookup peer = some c → g.tears m c → Step g m (m.tearDown peer c)
  /-- After a loss, or after a failed attempt. -/
  | scheduled {peer : PeerID} {c : Connection} (attempt : UInt32) (next : UInt64) :
      m.mConnections.lookup peer = some c → c.Down ∨ (∃ now, c.reconnectDue now = true) →
      Step g m (m.setConn peer (c.scheduled attempt next))
  | erased {peer : PeerID} {c : Connection} :
      m.mConnections.lookup peer = some c → c.Down → Step g m (m.erase peer)
  | pending {ids : List PeerID} : ids ⊆ m.mPendingRemove → Step g m (m.setPending ids)

abbrev Steps (g : Guard) : Manager → Manager → Prop := Relation.ReflTransGen (Step g)

/-- The induction rule for the steps. -/
theorem Steps.invariant {P : Manager → Prop} (hstep : ∀ m m', P m → Step g m m' → P m')
    (h : Steps g m m') (hm : P m) : P m' := by
  induction h with
  | refl => exact hm
  | tail _ hs ih => exact hstep _ _ ih hs

/-! ## The steps of each part -/

theorem Minors.steps (h : Minors m m') : Steps g m m' :=
  Relation.ReflTransGen.mono (fun _ _ hm => .minor hm) _ _ h

theorem notify_steps (hcb : Leaf cb) {event : ConnectionEvent}
    (h : notifyConnectionEvent cb k peer event w = some w') :
    Steps g (w.mgr.noted peer event) w'.mgr :=
  (notify_pokes hcb h).minors.steps

theorem Admits.steps (hcb : Leaf cb) {s : SocketHandle} {ip : Text} {port : UInt16}
    (h : Admits cb k s ip port w w') (hE : g.enters (w.mgr.log (.accept s))) :
    Steps g w.mgr w'.mgr :=
  .head (.entered (.inr rfl) h.2.1 hE) (notify_steps hcb h.2.2)

theorem Redial.steps (hcb : Leaf cb) {now : UInt64} (h : Redial cb k now w w')
    (hR : ∀ p c, w.mgr.mConnections.lookup p = some c → c.reconnectDue now = true →
      g.revives w.mgr p) : Steps g w.mgr w'.mgr := by
  cases h with
  | @retry peer c m hc hdue hd =>
    have hm : m.mConnections.lookup peer = some c := by rw [hd.mConnections_eq, hc]
    exact .head (.minor (.dialed hd)) (.single (.scheduled _ _ hm (.inr ⟨now, hdue⟩)))
  | reconnected hc hdue hf hn =>
    exact .head (.reconnected hc hdue hf (hR _ _ hc hdue)) (notify_steps hcb hn)

theorem Redials.steps (hcb : Leaf cb) (hR : ∀ m p, g.revives m p) {now : UInt64}
    (h : Redials cb k now w w') : Steps g w.mgr w'.mgr := by
  induction h with
  | refl => exact .refl
  | tail _ hr ih => exact ih.trans (hr.steps hcb fun _ _ _ _ => hR _ _)

theorem attemptReconnects_steps (hcb : Leaf cb) (hR : ∀ m p, g.revives m p)
    (h : attemptReconnects cb k w = some w') : Steps g w.mgr w'.mgr :=
  .head (.minor (.logged rfl)) (Redials.steps hcb hR (attemptReconnects_redials h))

theorem Loses.steps (hcb : Leaf cb) {c : Connection} (h : Loses cb k peer c w w')
    (hT : g.tears w.mgr c) : Steps g w.mgr w'.mgr := by
  obtain ⟨hc, m, d, hp, hd, hD, hend⟩ := h.cases hcb
  refine .head (.tornDown hc hT) (hp.minors.steps.trans ?_)
  rcases hend with ⟨-, he⟩ | ⟨-, he⟩
  · rw [he]
    have hlog : (m.nowMs k).2.mConnections.lookup peer = some d := hd
    exact .head (.minor (.logged rfl)) (.single (.scheduled _ _ hlog (.inl hD)))
  · rw [he]
    exact .single (.erased hd hD)

theorem removeDisconnected_steps (hcb : Leaf cb) (hT : ∀ m c, g.tears m c)
    (h : removeDisconnected cb k w = some w') : Steps g w.mgr w'.mgr := by
  obtain ⟨v, hr, rfl⟩ := removeDisconnected_removal h
  have hv : Steps g w.mgr v.mgr :=
    hr.invariant (P := fun _ v => Steps g w.mgr v.mgr) (fun _ _ _ hv _ => hv)
      (fun _ _ _ _ _ hv hl _ => hv.trans (hl.steps hcb (hT _ _)))
      (.single (.pending w.mgr.removals_subset))
  exact hv.tail (.pending (List.nil_subset _))

/-! ## The steps of a call -/

theorem beforeRemoval_steps (hcb : Leaf cb)
    (hE : ∀ s ip port m, HandsOut cb k w s ip port .processEvents m → g.enters m)
    (hfirst : ∀ w₁, attemptReconnects cb k w = some w₁ → Steps g w.mgr w₁.mgr)
    (h : beforeRemoval cb k w = some w') : Steps g w.mgr w'.mgr := by
  refine beforeRemoval_rule (P := fun v => Steps g w.mgr v.mgr) hfirst ?_ ?_ ?_ h
  · exact fun _ _ _ _ _ hv ha hho => hv.trans (ha.steps hcb (hE _ _ _ _ hho))
  · exact fun _ hv => hv.tail (.minor (.logged rfl))
  · exact fun _ _ hv hs => hv.trans hs.minors.steps

theorem processEvents_steps (hcb : Leaf cb)
    (hE : ∀ s ip port m, HandsOut cb k w s ip port .processEvents m → g.enters m)
    (hT : ∀ m c, g.tears m c) (hR : ∀ m p, g.revives m p) (hi : w.mgr.mInitialized = true)
    (h : processEvents cb k w = some w') : Steps g w.mgr w'.mgr := by
  obtain ⟨v, v', hclean, hrem, hagain⟩ := processEvents_beforeRemoval hi h
  exact (beforeRemoval_steps hcb hE (fun _ ha => attemptReconnects_steps hcb hR ha) hclean).trans
    ((removeDisconnected_steps hcb hT hrem).trans (attemptReconnects_steps hcb hR hagain))

theorem call_steps (hcb : Leaf cb) {op : Call}
    (hE : ∀ s ip port m, HandsOut cb k w s ip port op m → g.enters m)
    (hT : ∀ m c, g.tears m c) (hR : ∀ m p, g.revives m p)
    (h : call cb (k, op) w = some w') :
    Steps g w.mgr w'.mgr ∨ op = .shutdown ∧ w' = w.onMgr shutdown := by
  cases call_does h with
  | minors hm _ => exact .inl hm.steps
  | connected hf hho hn _ =>
    exact .inl (.head (.entered (.inl rfl) hf (hE _ _ _ _ hho)) (notify_steps hcb hn))
  | disconnected hl => exact .inl (hl.steps hcb (hT _ _))
  | processed hi hp => exact .inl (processEvents_steps hcb hE hT hR hi hp)
  | shutdown => exact .inr ⟨rfl, rfl⟩

theorem call_free_steps (hcb : Leaf cb) {i : Kernel × Call} (h : call cb i w = some w') :
    Steps {} w.mgr w'.mgr ∨ i.2 = .shutdown ∧ w' = w.onMgr shutdown :=
  call_steps hcb (fun _ _ _ _ _ => trivial) (fun _ _ => trivial) (fun _ _ => trivial) h

end IsaacP2P.Client
