import IsaacP2P.Lib.CappedDoubling
import IsaacP2P.Client.Acts
import IsaacP2P.Client.PeerIDs

/-!
# The delays between the attempts to reconnect

`Outage` follows a peer with auto-reconnect from a loss through the attempts
that fail, whatever else the library does in between, and lists the delays that
were scheduled. The doubling loop tests the cap after a doubling only, and the
delay after a loss is not capped at all, so the delays obey the law of the
capped doubling exactly if the base delay does not exceed the largest one
(`backoff_lawful_iff`). Every entry that is scheduled in some state of a run is
in such an outage, and due at the end of the last delay, counted from a reading
of the clock in the log (`reachable_outage`).
-/

namespace IsaacP2P.Client

open CappedDoubling (capped law)

variable {υ : Type} {cb : Callback υ} {k : Kernel} {w w' : World υ} {m m' : Manager}
  {peer : PeerID} {c c' : Connection} {base max : UInt32} {waits : List UInt64} {g : Guard}

/-! ## Outages -/

/-- `nextReconnectAtMs`, counted from `now`. -/
def Manager.wait (now : UInt64) (peer : PeerID) (m : Manager) : UInt64 :=
  match m.mConnections.lookup peer with
  | none => 0
  | some c => c.nextReconnectAtMs - now

/-- Nothing is changed of what the next attempt depends on. -/
structure Connection.SameSchedule (c c' : Connection) : Prop where
  autoReconnect : c'.autoReconnect = c.autoReconnect
  base : c'.reconnectBaseDelayMs = c.reconnectBaseDelayMs
  max : c'.reconnectMaxDelayMs = c.reconnectMaxDelayMs
  attempt : c'.reconnectAttempt = c.reconnectAttempt
  next : c'.nextReconnectAtMs = c.nextReconnectAtMs

/-- `peer` has gone down, and the attempts to reconnect it have failed since.
`waits` are the delays scheduled, the first one after the loss. -/
inductive Outage (peer : PeerID) (base max : UInt32) : List UInt64 → Manager → Prop where
  | lost {k : Kernel} {m : Manager} {c : Connection} :
      m.mConnections.lookup peer = some c → c.Down → c.autoReconnect = true →
      c.reconnectBaseDelayMs = base → c.reconnectMaxDelayMs = max →
      Outage peer base max [(scheduleReconnect k peer c m).wait (k.nowMs m.trace.length) peer]
        (scheduleReconnect k peer c m)
  | failed {waits : List UInt64} {m m' : Manager} {c : Connection} {now : UInt64} :
      Outage peer base max waits m → m.mConnections.lookup peer = some c →
      c.reconnectDue now = true → Dials m invalidSocketHandle m' →
      Outage peer base max (waits ++ [(retryLater peer c now m').wait now peer])
        (retryLater peer c now m')
  | other {waits : List UInt64} {m m' : Manager} {c c' : Connection} :
      Outage peer base max waits m → m.mConnections.lookup peer = some c →
      m'.mConnections.lookup peer = some c' → c.SameSchedule c' → Outage peer base max waits m'

/-- The delays follow the law, hence never exceed `max` and never decrease. -/
def Lawful (base max : UInt32) (waits : List UInt64) : Prop :=
  (∀ k wait, waits[k]? = some wait → wait.toNat = law base.toNat max.toNat k) ∧
    (∀ wait ∈ waits, wait.toNat ≤ max.toNat) ∧ waits.Pairwise (· ≤ ·)

/-! ## The delays -/

theorem backoffDelay_toNat {cap delay : UInt64} (hcap : cap.toNat < 2 ^ 32)
    (hdelay : delay.toNat < 2 ^ 32) (n : Nat) :
    (backoffDelay cap n delay).toNat = capped cap.toNat n delay.toNat := by
  induction n generalizing delay with
  | zero => rfl
  | succ n ih =>
    -- the doubled delay is below 2^33, so it does not wrap
    have hdouble : (delay * 2).toNat = delay.toNat * 2 := by
      have htwo : (2 : UInt64).toNat = 2 := rfl
      rw [UInt64.toNat_mul, htwo]
      omega
    have hge : delay * 2 ≥ cap ↔ cap.toNat ≤ delay.toNat * 2 := by
      rw [ge_iff_le, UInt64.le_iff_toNat_le, hdouble]
    simp only [backoffDelay, capped]
    by_cases hc : cap.toNat ≤ delay.toNat * 2
    · rw [if_pos (hge.mpr hc), if_pos hc]
    · rw [if_neg (fun h => hc (hge.mp h)), if_neg hc, ih (by omega), hdouble]

theorem wait_scheduleReconnect (hc : m.mConnections.lookup peer = some c) :
    (scheduleReconnect k peer c m).wait (k.nowMs m.trace.length) peer =
      c.reconnectBaseDelayMs.toUInt64 := by
  unfold Manager.wait scheduleReconnect
  dsimp only
  rw [Manager.setConn_lookup_self (by exact hc)]
  show k.nowMs m.trace.length + c.reconnectBaseDelayMs.toUInt64 - k.nowMs m.trace.length = _
  rw [UInt64.add_comm, UInt64.add_sub_cancel]

theorem wait_retryLater {now : UInt64} (hc : m.mConnections.lookup peer = some c) :
    (retryLater peer c now m).wait now peer = backoffDelay c.reconnectMaxDelayMs.toUInt64
      c.reconnectAttempt.toNat c.reconnectBaseDelayMs.toUInt64 := by
  unfold Manager.wait retryLater
  dsimp only
  rw [Manager.setConn_lookup_self hc]
  dsimp only
  rw [UInt64.add_comm, UInt64.add_sub_cancel]

/-- The attempts are counted, up to the largest number there is. -/
theorem Outage.entry (h : Outage peer base max waits m) :
    ∃ c, m.mConnections.lookup peer = some c ∧ c.reconnectBaseDelayMs = base ∧
      c.reconnectMaxDelayMs = max ∧ waits ≠ [] ∧
      (c.reconnectAttempt.toNat + 1 = waits.length ∨
        32 ≤ c.reconnectAttempt.toNat ∧ 32 < waits.length) := by
  induction h with
  | @lost k m c hc _ _ hb hx =>
    exact ⟨_, Manager.setConn_lookup_self (by exact hc), hb, hx, List.cons_ne_nil _ _, .inl rfl⟩
  | @failed waits m m' c now _ hc _ hd ih =>
    obtain ⟨c', hc', hb, hx, -, hcount⟩ := ih
    cases hc.symm.trans hc'
    have hm' : m'.mConnections.lookup peer = some c := by rw [hd.mConnections_eq, hc]
    refine ⟨_, Manager.setConn_lookup_self hm', hb, hx, by simp, ?_⟩
    dsimp only
    rw [List.length_append, List.length_singleton]
    by_cases hmax : c.reconnectAttempt = 0xFFFFFFFF
    · rw [if_pos (by simpa using hmax)]
      have : (0xFFFFFFFF : UInt32).toNat = 4294967295 := rfl
      rw [hmax, this] at hcount
      rw [hmax, this]
      omega
    · rw [if_neg (by simpa using hmax)]
      have hlt : c.reconnectAttempt.toNat < 4294967295 := by
        have := c.reconnectAttempt.toNat_lt
        have hne : c.reconnectAttempt.toNat ≠ (0xFFFFFFFF : UInt32).toNat :=
          fun he => hmax (UInt32.toNat_inj.mp he)
        have : (0xFFFFFFFF : UInt32).toNat = 4294967295 := rfl
        omega
      have hsucc : (c.reconnectAttempt + 1).toNat = c.reconnectAttempt.toNat + 1 := by
        rw [UInt32.toNat_add]
        have : (1 : UInt32).toNat = 1 := rfl
        omega
      rw [hsucc]
      omega
  | other _ hc hc' hs ih =>
    obtain ⟨d, hd, hb, hx, hne, hcount⟩ := ih
    cases hc.symm.trans hd
    exact ⟨_, hc', hs.base.trans hb, hs.max.trans hx, hne, hs.attempt ▸ hcount⟩

/-- The delay after the loss is the base delay, capped or not. -/
theorem Outage.first (h : Outage peer base max waits m) : waits[0]? = some base.toUInt64 := by
  induction h with
  | lost hc _ _ hb _ => simp [wait_scheduleReconnect hc, hb]
  | failed hO _ _ _ ih =>
    have hpos : 0 < _ := List.length_pos_iff.mpr hO.entry.choose_spec.2.2.2.1
    rw [List.getElem?_append_left hpos]
    exact ih
  | other _ _ _ _ ih => exact ih

theorem Outage.law_eq (h : Outage peer base max waits m) (hle : base ≤ max) :
    ∀ k wait, waits[k]? = some wait → wait.toNat = law base.toNat max.toNat k := by
  have hle' : base.toNat ≤ max.toNat := UInt32.le_iff_toNat_le.mp hle
  induction h with
  | lost hc _ _ hb _ =>
    intro k wait hk
    rw [wait_scheduleReconnect hc, hb] at hk
    cases k with
    | zero =>
      cases hk
      rw [UInt32.toNat_toUInt64, law, Nat.min_eq_left hle']
    | succ k => cases hk
  | @failed waits m m' c now hO hc _ hd ih =>
    intro k wait hk
    obtain ⟨c', hc', hb, hx, hne, hcount⟩ := hO.entry
    cases hc.symm.trans hc'
    have hm' : m'.mConnections.lookup peer = some c := by rw [hd.mConnections_eq, hc]
    rcases Nat.lt_or_ge k waits.length with hlt | hge
    · rw [List.getElem?_append_left hlt] at hk
      exact ih k wait hk
    · obtain rfl : k = waits.length := by
        have := (List.getElem?_eq_some_iff.mp hk).1
        rw [List.length_append, List.length_singleton] at this
        omega
      rw [List.getElem?_concat_length, wait_retryLater hm', hb, hx] at hk
      cases hk
      obtain ⟨n, hn⟩ := Nat.exists_eq_succ_of_ne_zero (List.length_pos_iff.mpr hne).ne'
      have hmax := max.toNat_lt
      have hbase := base.toNat_lt
      rw [backoffDelay_toNat (by rw [UInt32.toNat_toUInt64]; omega)
        (by rw [UInt32.toNat_toUInt64]; omega), UInt32.toNat_toUInt64, UInt32.toNat_toUInt64,
        CappedDoubling.capped_of_le hle', hn, law]
      rcases hcount with hcount | ⟨hlarge, hlong⟩
      · rw [show c.reconnectAttempt.toNat = n by omega]
      · exact CappedDoubling.min_two_pow (show max.toNat ≤ 2 ^ 32 by omega) hlarge (by omega)
  | other _ _ _ _ ih => exact ih

/-- **The back-off law** holds in every outage of a peer exactly if its base delay
is not larger than its largest delay. -/
theorem backoff_lawful_iff (h : Outage peer base max waits m) :
    Lawful base max waits ↔ base ≤ max := by
  constructor
  · rintro ⟨hlaw, -, -⟩
    have hfirst := hlaw 0 _ h.first
    rw [UInt32.toNat_toUInt64, law] at hfirst
    exact UInt32.le_iff_toNat_le.mpr (hfirst ▸ Nat.min_le_right _ _)
  · intro hle
    have hlaw := h.law_eq hle
    refine ⟨hlaw, fun wait hwait => ?_, ?_⟩
    · obtain ⟨k, hk⟩ := List.mem_iff_getElem?.mp hwait
      rw [hlaw k wait hk]
      exact CappedDoubling.law_le _ _ k
    · rw [List.pairwise_iff_getElem]
      intro i j hi hj hij
      rw [UInt64.le_iff_toNat_le, hlaw i _ (List.getElem?_eq_getElem hi),
        hlaw j _ (List.getElem?_eq_getElem hj)]
      exact CappedDoubling.law_mono _ _ (Nat.le_of_lt hij)

/-! ## Runs -/

theorem Connection.SameSchedule.refl (c : Connection) : c.SameSchedule c :=
  ⟨rfl, rfl, rfl, rfl, rfl⟩

/-- The peer is in an outage, and waits for the end of the last delay of it, counted from a
time the clock showed. -/
def InOutage (peer : PeerID) (c : Connection) (m : Manager) : Prop :=
  ∃ waits wait now, Outage peer c.reconnectBaseDelayMs c.reconnectMaxDelayMs waits m ∧
    waits.getLast? = some wait ∧ .clock now ∈ m.trace ∧ c.nextReconnectAtMs = now + wait

theorem InOutage.same (h : InOutage peer c m) (hc : m.mConnections.lookup peer = some c)
    (hc' : m'.mConnections.lookup peer = some c') (hs : c.SameSchedule c')
    (ht : m.trace <:+ m'.trace) : InOutage peer c' m' := by
  obtain ⟨waits, wait, now, hO, hlast, hclock, hnext⟩ := h
  refine ⟨waits, wait, now, ?_, hlast, ht.subset hclock, hs.next.trans hnext⟩
  rw [hs.base, hs.max]
  exact hO.other hc hc' hs

/-- Every entry that is scheduled is in an outage. -/
def Scheduled (m : Manager) : Prop :=
  ∀ peer c, m.mConnections.lookup peer = some c → c.nextReconnectAtMs ≠ 0 → InOutage peer c m

theorem Scheduled.of_eq (h : Scheduled m) (hm : m'.mConnections = m.mConnections)
    (ht : m.trace <:+ m'.trace) : Scheduled m' := by
  intro p c hc hnext
  have hold : m.mConnections.lookup p = some c := hm ▸ hc
  exact (h p c hold hnext).same hold hc (.refl c) ht

theorem Scheduled.log (h : Scheduled m) (e : Ev) : Scheduled (m.log e) :=
  h.of_eq rfl (List.suffix_cons _ _)

theorem Scheduled.setConn (h : Scheduled m) (hc : m.mConnections.lookup peer = some c)
    (hm : m'.mConnections = m.mConnections.replace peer c') (ht : m.trace <:+ m'.trace)
    (hO : c'.nextReconnectAtMs ≠ 0 → InOutage peer c' m') : Scheduled m' := by
  intro p d hd hnext
  have hlook := AssocList.lookup_replace hc c' p
  rw [← hm] at hlook
  split at hlook
  · subst_vars
    rw [hlook] at hd
    cases hd
    exact hO hnext
  · have hold : m.mConnections.lookup p = some d := hlook ▸ hd
    exact (h p d hold hnext).same hold hd (.refl d) ht

theorem Scheduled.same (h : Scheduled m) (hc : m.mConnections.lookup peer = some c)
    (hm : m'.mConnections = m.mConnections.replace peer c') (ht : m.trace <:+ m'.trace)
    (hs : c.SameSchedule c') : Scheduled m' := by
  refine h.setConn hc hm ht fun hnext => ?_
  have hc' : m'.mConnections.lookup peer = some c' := by
    rw [hm, AssocList.lookup_replace_self _ (AssocList.mem_of_lookup hc)]
  exact (h peer c hc (hs.next ▸ hnext)).same hc hc' hs ht

theorem Minor.suffix (hm : Minor m m') : m.trace <:+ m'.trace := by
  obtain ⟨new, ht, -⟩ := hm.events
  exact ⟨new, ht.symm⟩

theorem Minors.suffix (hm : Minors m m') : m.trace <:+ m'.trace := by
  induction hm with
  | refl => exact List.suffix_rfl
  | tail _ hs ih => exact ih.trans hs.suffix

theorem Leaf.suffix (hcb : Leaf cb) (peer : PeerID) (e : ConnectionEvent) (w w' : World υ)
    (h : cb k peer e w = some w') : w.mgr.trace <:+ w'.mgr.trace :=
  (hcb _ _ _ _ _ h).minors.suffix

theorem Minor.scheduled (hm : Minor m m') (h : Scheduled m) : Scheduled m' := by
  intro p c' hc' hnext
  rcases hm.altered p with ⟨-, hno⟩ | ⟨c, d, hc, hd, ha⟩
  · rw [hc'] at hno
    cases hno
  · cases hc'.symm.trans hd
    have hsame : c.SameSchedule c' → InOutage p c' m' := fun hs =>
      (h p c hc (hs.next ▸ hnext)).same hc hc' hs hm.suffix
    cases ha with
    | same => exact hsame (.refl _)
    | filled _ _ _ _ => exact hsame ⟨rfl, rfl, rfl, rfl, rfl⟩
    | failed _ _ _ => exact hsame ⟨rfl, rfl, rfl, rfl, rfl⟩
    | options _ _ _ => exact absurd rfl hnext

theorem Minors.scheduled (hm : Minors m m') (h : Scheduled m) : Scheduled m' := by
  induction hm with
  | refl => exact h
  | tail _ hs ih => exact hs.scheduled ih

theorem enter_scheduled {s : SocketHandle} {ip : Text} {port : UInt16} (h : Scheduled m) :
    Scheduled (m.enter s ip port) := by
  intro p c hc hnext
  rcases Manager.enter_lookup s ip port m p with he | ⟨-, -, he⟩
  · have hold : m.mConnections.lookup p = some c := he ▸ hc
    exact (h p c hold hnext).same hold hc (.refl c)
      (by rw [Manager.enter_trace])
  · cases he.symm.trans hc
    exact absurd rfl hnext

theorem erase_scheduled (h : Scheduled m) : Scheduled (m.erase peer) := by
  intro p c hc hnext
  by_cases hp : p = peer
  · subst hp
    rw [Manager.erase_mConnections, AList.lookup_erase] at hc
    cases hc
  · have hm : (m.erase peer).mConnections.lookup p = m.mConnections.lookup p := by
      rw [Manager.erase_mConnections, AList.lookup_erase_ne hp]
    have hold : m.mConnections.lookup p = some c := hm ▸ hc
    exact (h p c hold hnext).same hold hc (.refl c) List.suffix_rfl

theorem noted_scheduled {event : ConnectionEvent} (h : Scheduled m) :
    Scheduled (m.noted peer event) := by
  unfold Manager.noted
  split
  · exact h.log _
  · exact h

theorem notify_scheduled (hcb : Leaf cb) {event : ConnectionEvent}
    (h : notifyConnectionEvent cb k peer event w = some w') (hw : Scheduled w.mgr) :
    Scheduled w'.mgr :=
  (notify_pokes hcb h).minors.scheduled (noted_scheduled hw)

/-- One attempt to reconnect goes on with the outage, or ends it. -/
theorem Redial.scheduled (hcb : Leaf cb) {now : UInt64} (h : Redial cb k now w w')
    (hw : Scheduled w.mgr) (hclock : .clock now ∈ w.mgr.trace) : Scheduled w'.mgr := by
  cases h with
  | @retry peer c m hc hdue hd =>
    have hm : m.mConnections = w.mgr.mConnections := hd.mConnections_eq
    have hcm : m.mConnections.lookup peer = some c := by rw [hm, hc]
    refine (hw.of_eq hm hd.suffix).setConn hcm rfl List.suffix_rfl fun _ => ?_
    have hnext : c.nextReconnectAtMs ≠ 0 := by
      intro hz
      simp [Connection.reconnectDue, hz] at hdue
    obtain ⟨waits, -, -, hO, -⟩ := hw peer c hc hnext
    refine ⟨_, _, now, hO.failed hc hdue hd, List.getLast?_concat, hd.suffix.subset hclock, ?_⟩
    rw [wait_retryLater hcm]
  | @reconnected peer c s _ hc hdue hf hn =>
    exact notify_scheduled hcb hn ((hw.log (.socket s)).setConn hc rfl List.suffix_rfl
      fun hnext => absurd rfl hnext)

theorem attemptReconnects_scheduled (hcb : Leaf cb) (h : attemptReconnects cb k w = some w')
    (hw : Scheduled w.mgr) : Scheduled w'.mgr := by
  have hall : ∀ {now : UInt64} {u v : World υ}, Redials cb k now u v → Scheduled u.mgr →
      .clock now ∈ u.mgr.trace → Scheduled v.mgr ∧ .clock now ∈ v.mgr.trace := by
    intro now u v hr hu hclock
    induction hr with
    | refl => exact ⟨hu, hclock⟩
    | tail _ hone ih =>
      exact ⟨hone.scheduled hcb ih.1 ih.2, (hone.act.suffix hcb.suffix).subset ih.2⟩
  exact (hall (attemptReconnects_redials h) (hw.log _) (List.mem_cons_self ..)).1

theorem Loses.scheduled (hcb : Leaf cb) (h : Loses cb k peer c w w') (hw : Scheduled w.mgr) :
    Scheduled w'.mgr := by
  obtain ⟨hc, m, d, hp, hd, hD, hend⟩ := h.cases hcb
  have hclosed : Scheduled (w.mgr.closeSocket c.socket) :=
    hw.of_eq (Manager.closeSocket_mConnections _ _) (closeSocket_suffix _ _)
  have hdown : Scheduled (w.mgr.tearDown peer c) := by
    have hcc : (w.mgr.closeSocket c.socket).mConnections.lookup peer = some c := by
      rw [Manager.closeSocket_mConnections, hc]
    exact noted_scheduled (hclosed.same hcc rfl List.suffix_rfl ⟨rfl, rfl, rfl, rfl, rfl⟩)
  have hm := hp.minors.scheduled hdown
  rcases hend with ⟨hauto, he⟩ | ⟨-, he⟩
  · rw [he]
    have hdlog : (m.nowMs k).2.mConnections.lookup peer = some d := hd
    refine (hm.log _).setConn hdlog rfl List.suffix_rfl fun _ =>
      ⟨_, _, k.nowMs m.trace.length, .lost hd hD hauto rfl rfl, rfl, List.mem_cons_self .., ?_⟩
    rw [wait_scheduleReconnect hd]
    rfl
  · rw [he]
    exact erase_scheduled hm

theorem call_scheduled (hcb : Leaf cb) (i : Kernel × Call) (w w' : World υ)
    (hw : Scheduled w.mgr) (h : call cb i w = some w') : Scheduled w'.mgr := by
  obtain ⟨k, op⟩ := i
  cases call_does h with
  | minors hm _ => exact hm.scheduled hw
  | @connected s ip port _ hf _ hn _ =>
    exact notify_scheduled hcb hn (enter_scheduled (hw.log _))
  | disconnected hl => exact hl.scheduled hcb hw
  | processed hi hp =>
    refine processEvents_rule (P := fun v => Scheduled v.mgr) (R := fun _ v => Scheduled v.mgr)
      (Q := fun v => Scheduled v.mgr) ?_ ?_ ?_ ?_ ?_ ?_ ?_ ?_ hi hp
    · exact fun _ h₁ => attemptReconnects_scheduled hcb h₁ hw
    · intro s _ _ v _ hv hadm _
      exact notify_scheduled hcb hadm.2.2 (enter_scheduled (hv.log _))
    · exact fun _ hv => hv.log _
    · exact fun _ _ hv hs => hs.minors.scheduled hv
    · exact fun _ hv => hv.of_eq rfl List.suffix_rfl
    · exact fun _ _ _ hv _ => hv
    · exact fun _ _ _ _ _ hv hl _ => hl.scheduled hcb hv
    · intro v _ hv hagain
      have hend : Scheduled (v.onMgr (·.setPending [])).mgr := hv.of_eq rfl List.suffix_rfl
      exact attemptReconnects_scheduled hcb hagain hend
  | shutdown =>
    intro p c hc hnext
    rw [World.onMgr_mgr, shutdown_mConnections] at hc
    split at hc
    · simp at hc
    · rename_i hi
      rw [World.onMgr_mgr, shutdown_of_uninitialized (by simpa using hi)]
      exact hw p c hc hnext

/-- **Every schedule is part of an outage**, in every state a run leads to, and the attempt
it is for is due when the last delay of that outage is over. -/
theorem reachable_outage (hcb : Leaf cb) {callback : Bool} {user : υ}
    (h : Runs.Reachable (call cb) (fresh callback user) w) : Scheduled w.mgr :=
  h.invariant (fun p c hc => by simp [fresh] at hc) (call_scheduled hcb)

/-- The clock stands still at `now`. -/
def clockKernel (now : UInt64) : Kernel where
  nowMs _ := now
  socket n := UInt64.ofNat (n + 10)

/-- A connection with auto-reconnect is dropped, and cannot be made again. -/
def droppedRun (baseDelayMs maxDelayMs : UInt32) : List (Kernel × Call) :=
  [(clockKernel 1000, .initializeManager), (clockKernel 1000, .connect (some ['h']) 1),
    (clockKernel 1000, .setAutoReconnect 1 true baseDelayMs maxDelayMs),
    (clockKernel 1000, .disconnect 1),
    ({ clockKernel 2000 with inetPton := fun _ => false }, .processEvents)]

theorem dropped_outage (base max : UInt32)
    (hlast : (Runs.run (call ignore) (droppedRun base max) (fresh true ())).map
      (fun w => (w.mgr.mConnections.lookup 1).map fun c =>
        (c.reconnectBaseDelayMs, c.reconnectMaxDelayMs, c.nextReconnectAtMs)) =
      some (some (base, max, 2500))) :
    ∃ w waits, Runs.run (call ignore) (droppedRun base max) (fresh true ()) = some w ∧
      Outage 1 base max waits w.mgr := by
  obtain ⟨w, hr, hlast⟩ := Option.map_eq_some_iff.mp hlast
  obtain ⟨c, hc, hlast⟩ := Option.map_eq_some_iff.mp hlast
  simp only [Prod.mk.injEq] at hlast
  obtain ⟨hbase, hmax, hnext⟩ := hlast
  obtain ⟨waits, -, -, hO, -⟩ :=
    reachable_outage ignore_mute.leaf ⟨_, hr⟩ 1 c hc (by rw [hnext]; decide)
  rw [hbase, hmax] at hO
  exact ⟨w, waits, hr, hO⟩

theorem backoff_lawful_dropped :
    ∃ w waits, Runs.run (call ignore) (droppedRun 500 10000) (fresh true ()) = some w ∧
      Outage 1 500 10000 waits w.mgr ∧ Lawful 500 10000 waits := by
  obtain ⟨w, waits, hr, hO⟩ := dropped_outage 500 10000 (by decide +kernel)
  exact ⟨w, waits, hr, hO, (backoff_lawful_iff hO).mpr (by decide)⟩

/-- With a largest delay of 100 ms the delay after the loss is 500 ms. -/
theorem backoff_overshoots :
    ∃ w waits, Runs.run (call ignore) (droppedRun 500 100) (fresh true ()) = some w ∧
      Outage 1 500 100 waits w.mgr ∧ ¬ Lawful 500 100 waits := by
  obtain ⟨w, waits, hr, hO⟩ := dropped_outage 500 100 (by decide +kernel)
  refine ⟨w, waits, hr, hO, fun hlaw => ?_⟩
  have hfirst := hlaw.1 0 _ hO.first
  revert hfirst
  decide

end IsaacP2P.Client
