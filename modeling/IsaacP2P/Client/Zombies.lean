import IsaacP2P.Client.Causes

/-!
# No peer is forgotten

An entry that is down is waited for: its removal is pending, or it is scheduled
for a reconnect (`Accounted`). `nextReconnectAtMs = 0` means that it is not
scheduled, so the invariant needs a clock whose readings, plus a delay of 32
bits, are not zero (`Kernel.Clocked`); and it breaks where `setAutoReconnect`
clears the schedule of an entry that waits for its retry (`forgotten_peer`).
-/

namespace IsaacP2P.Client

variable {υ : Type} {cb : Callback υ} {k : Kernel} {w w' : World υ} {m m' : Manager} {peer : PeerID}
  {s : SocketHandle} {c c' : Connection} {S S' : List PeerID}

/-- The entry is scheduled for a retry. -/
def Connection.Waits (c : Connection) : Prop :=
  c.autoReconnect = true ∧ c.nextReconnectAtMs ≠ 0

/-- Every entry is connected, in the list `S` of removals, or scheduled for a retry. -/
def Manager.Accounted (S : List PeerID) (m : Manager) : Prop :=
  ∀ p c, m.mConnections.lookup p = some c → c.connected = true ∨ p ∈ S ∨ c.Waits

/-! ## The clock -/

/-- No reading of the clock, plus a delay of 32 bits, is zero. -/
def Kernel.Clocked (k : Kernel) : Prop :=
  ∀ n, k.nowMs n ≠ 0 ∧ (k.nowMs n).toNat + 2 ^ 32 ≤ 2 ^ 64

theorem Kernel.Clocked.add_ne_zero (hk : k.Clocked) (n : Nat) {delay : UInt64}
    (hd : delay.toNat < 2 ^ 32) : k.nowMs n + delay ≠ 0 := by
  obtain ⟨hz, hlt⟩ := hk n
  intro h
  have hsum := congrArg UInt64.toNat h
  have hpos : (k.nowMs n).toNat ≠ 0 := fun h0 => hz (UInt64.toNat_inj.mp h0)
  rw [UInt64.toNat_add, Nat.mod_eq_of_lt (by omega), UInt64.toNat_zero] at hsum
  omega

theorem toNat_toUInt64_lt (d : UInt32) : d.toUInt64.toNat < 2 ^ 32 := by
  rw [UInt32.toNat_toUInt64]
  exact d.toNat_lt

theorem backoffDelay_lt {maxDelay : UInt64} (hmax : maxDelay.toNat < 2 ^ 32) (attempt : Nat)
    {delay : UInt64} (hd : delay.toNat < 2 ^ 32) :
    (backoffDelay maxDelay attempt delay).toNat < 2 ^ 32 := by
  induction attempt generalizing delay with
  | zero => exact hd
  | succ attempt ih =>
    unfold backoffDelay
    dsimp only
    split
    · exact hmax
    · rename_i hlt
      apply ih
      have hle : (delay * 2).toNat < maxDelay.toNat := by
        rw [ge_iff_le, UInt64.le_iff_toNat_le] at hlt
        omega
      omega

/-! ## What keeps the entries accounted for -/

theorem Manager.Accounted.mono (h : m.Accounted S) (hS : S ⊆ S') : m.Accounted S' := by
  intro p c hc
  rcases h p c hc with hconn | hp | hwait
  · exact .inl hconn
  · exact .inr (.inl (hS hp))
  · exact .inr (.inr hwait)

theorem Manager.Accounted.of_eq (h : m.Accounted S) (hc : m'.mConnections = m.mConnections) :
    m'.Accounted S := by
  intro p c hp
  rw [hc] at hp
  exact h p c hp

theorem Manager.Accounted.replace (h : m.Accounted S)
    (hc : m.mConnections.lookup peer = some c)
    (hr : m'.mConnections = m.mConnections.replace peer c')
    (hc' : c.connected = true ∨ peer ∈ S ∨ c.Waits → c'.connected = true ∨ peer ∈ S ∨ c'.Waits) :
    m'.Accounted S := by
  intro p d hd
  rw [hr, AssocList.lookup_replace hc] at hd
  split at hd
  · rename_i hp
    subst hp
    cases hd
    exact hc' (h p c hc)
  · exact h p d hd

theorem Manager.Accounted.fail (h : m.Accounted S) (hc : m.mConnections.lookup peer = some c)
    (hr : m'.mConnections = m.mConnections.replace peer c') (hp : peer ∈ S') (hS : S ⊆ S') :
    m'.Accounted S' :=
  (h.mono hS).replace hc hr fun _ => .inr (.inl hp)

theorem sendPacket_accounted {data : Option (List UInt8)} (h : m.Accounted m.mPendingRemove) :
    (sendPacket k peer data m).2.Accounted (sendPacket k peer data m).2.mPendingRemove := by
  have hs := sendPacket_sends k peer data m
  generalize (sendPacket k peer data m).1 = b at hs
  generalize (sendPacket k peer data m).2 = m' at hs ⊢
  cases hs with
  | refused _ => exact h
  | sent hf _ _ _ => exact h.replace hf.2.2.1 rfl fun hok => hok
  | failed hf _ =>
    exact h.fail hf.2.2.1 rfl (List.mem_append_right _ (List.mem_singleton.mpr rfl))
      (List.subset_append_left _ _)

theorem Serve.accounted (hs : Serve k m m') (hm : m.Settled)
    (h : m.Accounted m.mPendingRemove) : m'.Accounted m'.mPendingRemove := by
  cases hs with
  | parsed hc _ _ _ => exact h.replace hc rfl fun hok => hok
  | @stopped peer c e id hc _ _ hid =>
    have hpeer : id = peer := by
      rcases hid with hid | hid
      · exact hid
      · exact hid.trans (hm peer c hc).peerID
    subst hpeer
    exact h.fail hc rfl (List.mem_append_right _ (List.mem_singleton.mpr rfl))
      (List.subset_append_left _ _)
  | @wrote peer c hc =>
    have hw := processWrite_writes (k := k) hc
    generalize processWrite k peer c m = m' at hw ⊢
    cases hw with
    | nothing _ => exact h
    | sent _ _ _ => exact h.replace hc rfl fun hok => hok
    | failed _ _ =>
      refine h.fail hc rfl ?_ (List.subset_append_left _ _)
      rw [← (hm peer c hc).peerID]
      exact List.mem_append_right _ (List.mem_singleton.mpr rfl)

theorem noted_accounted {event : ConnectionEvent} (h : m.Accounted S) :
    (m.noted peer event).Accounted S :=
  h.of_eq (Manager.noted_mConnections event m)

theorem enter_accounted {ip : Text} {port : UInt16} (h : m.Accounted S) :
    (m.enter s ip port).Accounted S := by
  intro p c hc
  rcases Manager.enter_some hc with hold | rfl
  · exact h p c hold
  · exact .inl rfl

theorem Redial.accounted (hcb : Mute cb) {n : Nat} (hk : k.Clocked)
    (hr : Redial cb k (k.nowMs n) w w') (h : w.mgr.Accounted w.mgr.mPendingRemove) :
    w'.mgr.Accounted w'.mgr.mPendingRemove := by
  cases hr with
  | @retry peer c m hc hdue hd =>
    have hm : m.Accounted m.mPendingRemove := by
      have hpend : m.mPendingRemove = w.mgr.mPendingRemove := by cases hd <;> rfl
      rw [hpend]
      exact h.of_eq hd.mConnections_eq
    have hmc : m.mConnections.lookup peer = some c := by rw [hd.mConnections_eq, hc]
    refine hm.replace hmc rfl fun _ => .inr (.inr ⟨?_, ?_⟩)
    · simp only [Connection.reconnectDue, Bool.and_eq_true] at hdue
      exact hdue.1.1.1
    · exact hk.add_ne_zero n (backoffDelay_lt (toNat_toUInt64_lt _) _ (toNat_toUInt64_lt _))
  | @reconnected peer c s w' hc _ _ hn =>
    have hmgr := notify_mute hcb hn
    have hconn : ((w.mgr.log (.socket s)).setConn peer (c.reconnected s)).Accounted
        w.mgr.mPendingRemove := by
      have hlog : (w.mgr.log (.socket s)).Accounted w.mgr.mPendingRemove := h
      exact hlog.replace hc rfl fun _ => .inl rfl
    rw [hmgr, Manager.noted_mPendingRemove]
    exact noted_accounted hconn

theorem attemptReconnects_accounted (hcb : Mute cb) (hk : k.Clocked)
    (h : w.mgr.Accounted w.mgr.mPendingRemove) (ha : attemptReconnects cb k w = some w') :
    w'.mgr.Accounted w'.mgr.mPendingRemove :=
  attemptReconnects_rule (P := fun v => v.mgr.Accounted v.mgr.mPendingRemove) h
    (fun _ _ hv hr => hr.accounted hcb hk hv) ha

theorem Loses.accounted (hcb : Mute cb) (hk : k.Clocked) (hl : Loses cb k peer c w w')
    (h : w.mgr.Accounted (peer :: S)) : w'.mgr.Accounted S := by
  obtain ⟨hc, v, hn, ha⟩ := hl
  have hv : v.mgr = w.mgr.tearDown peer c := notify_mute hcb hn
  have hd : v.mgr.mConnections.lookup peer = some c.down := by
    rw [hv, Manager.tearDown_mConnections,
      AssocList.lookup_replace_self _ (AssocList.mem_of_lookup hc)]
  have hother : ∀ {p d}, p ≠ peer → v.mgr.mConnections.lookup p = some d →
      d.connected = true ∨ p ∈ S ∨ d.Waits := by
    intro p d hp hpd
    rw [hv, Manager.tearDown_mConnections, AssocList.lookup_replace_ne hp] at hpd
    rcases h p d hpd with hok | hin | hok
    · exact .inl hok
    · exact .inr (.inl ((List.mem_cons.mp hin).resolve_left hp))
    · exact .inr (.inr hok)
  unfold afterLoss at ha
  rw [hd, Option.bind_eq_bind, Option.bind_some] at ha
  intro p e hpe
  split at ha
  · rename_i hauto
    cases ha
    have hlog : (v.mgr.nowMs k).2.mConnections.lookup peer = some c.down := hd
    rcases Manager.setConn_lookup_some hlog hpe with ⟨rfl, rfl⟩ | ⟨hp, hpe⟩
    · exact .inr (.inr ⟨hauto, hk.add_ne_zero _ (toNat_toUInt64_lt _)⟩)
    · exact hother hp hpe
  · split at ha
    · cases ha
    · cases ha
      have hp : p ≠ peer := by
        rintro rfl
        rw [World.onMgr_mgr, Manager.erase_mConnections, AList.lookup_erase] at hpe
        cases hpe
      rw [World.onMgr_mgr, Manager.erase_mConnections, AList.lookup_erase_ne hp] at hpe
      exact hother hp hpe

theorem Mute.notify_pending (hcb : Mute cb) {event : ConnectionEvent}
    (hn : notifyConnectionEvent cb k peer event w = some w') :
    w'.mgr.mPendingRemove = w.mgr.mPendingRemove := by
  rw [notify_mute hcb hn, Manager.noted_mPendingRemove]

theorem Admits.accounted (hcb : Mute cb) {ip : Text} {port : UInt16}
    (ha : Admits cb k s ip port w w') (h : w.mgr.Accounted w.mgr.mPendingRemove) :
    w'.mgr.Accounted w'.mgr.mPendingRemove := by
  have hlog : (w.mgr.log (.accept s)).Accounted w.mgr.mPendingRemove := h
  rw [hcb.notify_pending ha.2.2, World.onMgr_mgr, Manager.enter_mPendingRemove,
    notify_mute hcb ha.2.2]
  exact noted_accounted (enter_accounted hlog)

theorem processEvents_accounted (hcb : Mute cb) (hk : k.Clocked) (hi : w.mgr.mInitialized = true)
    (hm : w.mgr.Settled) (h : w.mgr.Accounted w.mgr.mPendingRemove)
    (hp : processEvents cb k w = some w') : w'.mgr.Accounted w'.mgr.mPendingRemove := by
  -- the list of removals shrinks with every loss that is dealt with
  refine processEvents_rule
    (P := fun v => v.mgr.Settled ∧ v.mgr.Accounted v.mgr.mPendingRemove)
    (R := fun rest v => v.mgr.Accounted rest)
    (Q := fun v => v.mgr.Accounted v.mgr.mPendingRemove) ?_ ?_ ?_ ?_ ?_ ?_ ?_ ?_ hi hp
  · intro w₁ ha
    exact ⟨(attemptReconnects_steps (g := {}) hcb.leaf (fun _ _ => trivial) ha).settled hm,
      attemptReconnects_accounted hcb hk h ha⟩
  · intro s ip port v v' hv ha _
    exact ⟨(ha.steps (g := {}) hcb.leaf trivial).settled hv.1, ha.accounted hcb hv.2⟩
  · exact fun _ hv => hv
  · exact fun _ _ hv hs => ⟨hs.minors.settled hv.1, hs.accounted hv.1 hv.2⟩
  · exact fun v hv => hv.2.mono v.mgr.pending_subset_removals
  · intro peer rest v hv hnone p c hc
    rcases hv p c hc with hok | hin | hok
    · exact .inl hok
    · refine .inr (.inl ((List.mem_cons.mp hin).resolve_left fun he => ?_))
      rw [he, hnone] at hc
      cases hc
    · exact .inr (.inr hok)
  · exact fun _ _ _ _ _ hv hl _ => hl.accounted hcb hk hv
  · exact fun _ _ hv ha => attemptReconnects_accounted hcb hk hv ha

/-! ## Runs -/

/-- The peer whose options the call changes. -/
def Call.configured : Call → Option PeerID
  | .setAutoReconnect peer _ _ _ => some peer
  | _ => none

/-- `setAutoReconnect` is called for an entry that is connected or about to be
removed, or for none. -/
def Attentive (i : Kernel × Call) (w : World υ) : Prop :=
  ∀ peer ∈ i.2.configured, ∀ c ∈ w.mgr.mConnections.lookup peer,
    c.connected = true ∨ peer ∈ w.mgr.mPendingRemove

instance Attentive.decidable (i : Kernel × Call) (w : World υ) : Decidable (Attentive i w) :=
  match he : i.2.configured with
  | none => isTrue fun _ h => absurd h (by simp [he])
  | some peer => decidable_of_iff (∀ c ∈ w.mgr.mConnections.lookup peer,
      c.connected = true ∨ peer ∈ w.mgr.mPendingRemove) (by simp [Attentive, he])

/-- The table and the list of removals are left alone. -/
def SameTable (m m' : Manager) : Prop :=
  m'.mConnections = m.mConnections ∧ m'.mPendingRemove = m.mPendingRemove

theorem SameTable.accounted (hs : SameTable m m') (h : m.Accounted m.mPendingRemove) :
    m'.Accounted m'.mPendingRemove := by
  rw [hs.2]
  exact h.of_eq hs.1

theorem stopListen_table (m : Manager) : SameTable m (stopListen m) := by
  rw [stopListen_eq]
  exact ⟨rfl, rfl⟩

theorem listen_table (k : Kernel) (port : UInt16) (m : Manager) :
    SameTable m (listen k port m).2 := by
  unfold listen
  split
  · exact ⟨rfl, rfl⟩
  · obtain ⟨hc, hp⟩ := stopListen_table m
    generalize stopListen m = m' at hc hp
    have hopen : SameTable m (m'.openSocket k).2 := by
      unfold Manager.openSocket
      dsimp only
      split <;> exact ⟨hc, hp⟩
    dsimp only
    split
    · exact hopen
    · split
      · unfold Manager.closeSocket
        split <;> exact hopen
      · exact hopen

theorem initializeManager_table (k : Kernel) (m : Manager) :
    SameTable m (initializeManager k m).2 := by
  unfold initializeManager
  split
  · exact ⟨rfl, rfl⟩
  · split <;> exact ⟨rfl, rfl⟩

theorem connect_accounted (hcb : Mute cb) {ip : Option Text} {port : UInt16} {out : Option PeerID}
    (hacc : w.mgr.Accounted w.mgr.mPendingRemove) (h : connect cb k ip port w = some (out, w')) :
    w'.mgr.Accounted w'.mgr.mPendingRemove := by
  cases ip with
  | none =>
    cases h
    exact hacc
  | some ip =>
    cases hi : w.mgr.mInitialized with
    | false =>
      unfold connect at h
      simp only [hi, Bool.not_false, if_true] at h
      cases h
      exact hacc
    | true =>
      rcases connect_cases hi h with ⟨-, m, hd, rfl⟩ | ⟨s, -, -, hn⟩
      · have hs : SameTable w.mgr m := ⟨hd.mConnections_eq, by cases hd <;> rfl⟩
        exact hs.accounted hacc
      · have hlog : (w.mgr.log (.socket s)).Accounted w.mgr.mPendingRemove := hacc
        rw [hcb.notify_pending hn, World.onMgr_mgr, Manager.enter_mPendingRemove,
          notify_mute hcb hn]
        exact noted_accounted (enter_accounted hlog)

theorem setAutoReconnect_accounted {enable : Bool} {b x : UInt32}
    (hacc : m.Accounted m.mPendingRemove)
    (hi : ∀ c ∈ m.mConnections.lookup peer, c.connected = true ∨ peer ∈ m.mPendingRemove) :
    (setAutoReconnect peer enable b x m).Accounted
      (setAutoReconnect peer enable b x m).mPendingRemove := by
  unfold setAutoReconnect
  cases hc : m.mConnections.lookup peer with
  | none => exact hacc
  | some c =>
    refine hacc.replace hc rfl fun _ => ?_
    exact (hi c hc).imp_right .inl

theorem readPacket_accounted {buffer : Bool} {size : UInt32}
    (hacc : m.Accounted m.mPendingRemove) :
    (readPacket peer buffer size m).2.Accounted (readPacket peer buffer size m).2.mPendingRemove := by
  have hp := readPacket_pops peer buffer size m
  generalize (readPacket peer buffer size m).1 = out at hp
  generalize (readPacket peer buffer size m).2 = m' at hp ⊢
  cases hp with
  | nothing => exact hacc
  | popped hc _ | lost hc _ => exact hacc.replace hc rfl fun hok => hok

theorem call_accounted (hcb : Mute cb) (i : Kernel × Call) (w w' : World υ)
    (hw : w.mgr.Settled ∧ w.mgr.Accounted w.mgr.mPendingRemove)
    (hi : i.1.Clocked ∧ Attentive i w) (h : call cb i w = some w') :
    w'.mgr.Settled ∧ w'.mgr.Accounted w'.mgr.mPendingRemove := by
  refine ⟨call_settled hcb.leaf i w w' hw.1 h, ?_⟩
  obtain ⟨k, op⟩ := i
  obtain ⟨hset, hacc⟩ := hw
  cases op with
  | initializeManager =>
    cases h
    exact (initializeManager_table k w.mgr).accounted hacc
  | listen port =>
    cases h
    exact (listen_table k port w.mgr).accounted hacc
  | stopListen =>
    cases h
    exact (stopListen_table w.mgr).accounted hacc
  | connect ip port =>
    obtain ⟨⟨out, w₁⟩, hconn, rfl⟩ := Option.map_eq_some_iff.mp h
    exact connect_accounted hcb hacc hconn
  | disconnect peer =>
    unfold call disconnect at h
    dsimp only at h
    split at h
    · cases h
      exact hacc
    · rename_i c hc
      obtain ⟨v, hn, ha⟩ := Option.bind_eq_some_iff.mp h
      have hl : Loses cb k peer c w w' := ⟨hc, v, hn, ha⟩
      have hpend : w'.mgr.mPendingRemove = w.mgr.mPendingRemove := by
        rw [afterLoss_mPendingRemove ha, hcb.notify_pending hn, World.onMgr_mgr,
          Manager.setConn_mPendingRemove, Manager.closeSocket_mPendingRemove]
      rw [hpend]
      exact hl.accounted hcb hi.1 (hacc.mono (List.subset_cons_self _ _))
  | setAutoReconnect peer enable b x =>
    cases h
    exact setAutoReconnect_accounted hacc (hi.2 peer rfl)
  | sendPacket peer data =>
    cases h
    exact sendPacket_accounted hacc
  | readPacket peer buffer size =>
    cases h
    exact readPacket_accounted hacc
  | processEvents =>
    cases hinit : w.mgr.mInitialized with
    | false =>
      have he : some w = some w' := (processEvents_uninitialized hinit).symm.trans h
      cases he
      exact hacc
    | true => exact processEvents_accounted hcb hi.1 hinit hset hacc h
  | shutdown =>
    cases h
    intro p c hc
    rw [World.onMgr_mgr, shutdown_mConnections] at hc
    split at hc
    · simp at hc
    · rename_i hno
      rw [World.onMgr_mgr, shutdown_of_uninitialized (by simpa using hno)]
      exact hacc p c hc

/-- **No zombie peers** in every run in which the options of an entry are changed
only while it is connected or about to be removed. -/
theorem no_zombies (hcb : Mute cb) {callback : Bool} {user : υ} {is : List (Kernel × Call)}
    (hclock : ∀ i ∈ is, i.1.Clocked)
    (hC : Runs.Meets (call cb) Attentive is (fresh callback user))
    (h : Runs.run (call cb) is (fresh callback user) = some w) :
    w.mgr.Accounted w.mgr.mPendingRemove := by
  have hclocked : Runs.Meets (call cb) (fun i _ => i.1.Clocked) is (fresh callback user) :=
    Runs.meets_of_forall hclock _
  have hboth := hclocked.and hC
  have hend := Runs.run_invariant_of_meets (call_accounted hcb)
    ⟨fresh_settled callback user, fun p c hc => by simp [fresh] at hc⟩ hboth h
  exact hend.2

theorem calmRun_accounted :
    ∃ w, Runs.run (call ignore) calmRun (fresh true ()) = some w ∧
      w.mgr.Accounted w.mgr.mPendingRemove := by
  obtain ⟨w, hr⟩ : ∃ w, Runs.run (call ignore) calmRun (fresh true ()) = some w :=
    Option.isSome_iff_exists.mp (by decide +kernel)
  have hclock : ∀ i ∈ calmRun, i.1.Clocked := by
    intro i hi n
    obtain ⟨op, -, rfl⟩ := List.mem_map.mp hi
    show (1000 : UInt64) ≠ 0 ∧ (1000 : UInt64).toNat + 2 ^ 32 ≤ 2 ^ 64
    decide
  exact ⟨w, hr, no_zombies ignore_mute hclock (by decide +kernel) hr⟩

/-- A peer is disconnected, and its options are set again while it waits for its retry. -/
def forgetfulRun : List (Kernel × Call) :=
  [.initializeManager, .connect (some ['h']) 1, .setAutoReconnect 1 true 500 10000,
    .disconnect 1, .setAutoReconnect 1 true 500 10000].map (calmKernel, ·)

/-- It is neither removed nor ever retried. -/
theorem forgotten_peer :
    ∃ w c, Runs.run (call ignore) forgetfulRun (fresh true ()) = some w ∧
      w.mgr.mConnections.lookup 1 = some c ∧ c.connected = false ∧ c.autoReconnect = true ∧
      c.nextReconnectAtMs = 0 ∧ w.mgr.mPendingRemove = [] ∧
      ¬ w.mgr.Accounted w.mgr.mPendingRemove := by
  have hlast : (Runs.run (call ignore) forgetfulRun (fresh true ())).bind (fun w =>
      (w.mgr.mConnections.lookup 1).map fun c => !c.connected && c.autoReconnect &&
        c.nextReconnectAtMs == 0 && w.mgr.mPendingRemove == []) = some true := by
    decide +kernel
  obtain ⟨w, hr, hlast⟩ := Option.bind_eq_some_iff.mp hlast
  obtain ⟨c, hc, hlast⟩ := Option.map_eq_some_iff.mp hlast
  simp only [Bool.and_eq_true, Bool.not_eq_true', beq_iff_eq] at hlast
  obtain ⟨⟨⟨hconn, hauto⟩, hnext⟩, hpend⟩ := hlast
  refine ⟨w, c, hr, hc, hconn, hauto, hnext, hpend, fun hacc => ?_⟩
  rcases hacc 1 c hc with h | h | h
  · rw [hconn] at h
    cases h
  · rw [hpend] at h
    cases h
  · exact h.2 hnext

end IsaacP2P.Client
