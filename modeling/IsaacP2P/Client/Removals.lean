import IsaacP2P.Client.Causes
import IsaacP2P.Client.Network

/-!
# Removals requested during the removals

The connection callback runs inside the loop of `removeDisconnected` over
`m_pendingRemove`, and a send that fails there appends to that vector.
`removeLoop` takes every `push_back` for the end of the loop's iterators, which is
what the standard says of the end iterator. `removeLoopIn` is more patient: while
the elements fit into the capacity of the vector the loop goes on over the
elements it began with, and only a reallocation leaves it with dangling iterators.

In either reading a peer whose send fails is torn down in the call only if it was
on the list when the loop began, since the list is cleared afterwards
(`removals_kept_iff`).
-/

namespace IsaacP2P.Client

variable {υ : Type} {cb : Callback υ} {k : Kernel} {w w' : World υ} {m m' m'' : Manager}
  {peer : PeerID} {c : Connection}

/-! ## The capacity of the vector -/

/-- A round of the removals up to the report of the loss. -/
def reportLoss (cb : Callback υ) (k : Kernel) (peer : PeerID) (conn : Connection) (w : World υ) :
    Option (World υ) :=
  notifyConnectionEvent cb k peer .disconnected
    (w.onMgr fun m => (m.closeSocket conn.socket).setConn peer conn.down)

/-- The elements `now` of the vector are the `old` ones, or some were appended
within its capacity. -/
def inPlace (capacity : Nat) (old now : List PeerID) : Bool :=
  now == old || (old.isPrefixOf now && now.length ≤ capacity)

/-- The loop of `removeDisconnected` over a vector of this capacity. -/
def removeLoopIn (capacity : Nat) (cb : Callback υ) (k : Kernel) :
    List PeerID → World υ → Option (World υ)
  | [], w => some w
  | peer :: rest, w =>
    match w.mgr.mConnections.lookup peer with
    | none => removeLoopIn capacity cb k rest w
    | some conn => do
      let w' ← reportLoss cb k peer conn w
      if !inPlace capacity w.mgr.mPendingRemove w'.mgr.mPendingRemove then none
      else do
        let w' ← afterLoss k peer w.mgr w'
        removeLoopIn capacity cb k rest w'

def removeDisconnectedIn (capacity : Nat) (cb : Callback υ) (k : Kernel) (w : World υ) :
    Option (World υ) := do
  let ids := w.mgr.removals
  let w ← removeLoopIn capacity cb k ids (w.onMgr (·.setPending ids))
  some (w.onMgr (·.setPending []))

theorem inPlace_zero (old now : List PeerID) : inPlace 0 old now = (now == old) := by
  rw [Bool.eq_iff_iff]
  simp only [inPlace, Bool.or_eq_true, Bool.and_eq_true, beq_iff_eq, List.isPrefixOf_iff_prefix,
    decide_eq_true_eq, Nat.le_zero, List.length_eq_zero_iff]
  refine ⟨fun h => h.elim id fun ⟨hpre, hnil⟩ => ?_, .inl⟩
  rw [hnil] at hpre ⊢
  exact (List.prefix_nil.mp hpre).symm

theorem inPlace_append (capacity : Nat) (old more : List PeerID) :
    inPlace capacity old (old ++ more) = true ↔
      more = [] ∨ old.length + more.length ≤ capacity := by
  simp [inPlace]

/-- A full vector. -/
theorem removeLoopIn_zero (ids : List PeerID) (w : World υ) :
    removeLoopIn 0 cb k ids w = removeLoop cb k ids w := by
  induction ids generalizing w with
  | nil => rfl
  | cons peer rest ih =>
    unfold removeLoopIn removeLoop
    cases w.mgr.mConnections.lookup peer with
    | none => exact ih w
    | some conn =>
      dsimp only
      rw [reportLoss]
      refine congrArg (Option.bind _) (funext fun w' => ?_)
      have hrest : removeLoopIn 0 cb k rest = removeLoop cb k rest := funext ih
      rw [inPlace_zero, hrest]
      rfl

theorem removeDisconnectedIn_zero : removeDisconnectedIn 0 cb k w = removeDisconnected cb k w :=
  congrArg (Option.bind · _) (removeLoopIn_zero w.mgr.removals _)

/-! ## Callbacks that only send -/

/-- A call of `P2P_SendPacket`, or a change of the application's own state. -/
inductive Sending (k : Kernel) (w : World υ) : World υ → Prop where
  | sent (peer : PeerID) (data : Option (List UInt8)) : Sending k w (p2pSendPacket k peer data w).2
  | own (user : υ) : Sending k w { w with user := user }

/-- The callback calls back to send at most, and returns. -/
def SendsOnly (cb : Callback υ) : Prop :=
  ∀ k peer event w, ∃ w', cb k peer event w = some w' ∧ Relation.ReflTransGen (Sending k) w w'

/-- The sends between `m` and `m'` failed hard for the peers `failed`, one after another. -/
structure Fails (failed : List PeerID) (m m' : Manager) : Prop where
  pending : m'.mPendingRemove = m.mPendingRemove ++ failed
  live : ∀ p ∈ failed, ∃ c, m.mConnections.lookup p = some c ∧ c.connected = true
  table : ∀ p, m.mConnections.lookup p = none ∧ m'.mConnections.lookup p = none ∨
    ∃ c c', m.mConnections.lookup p = some c ∧ m'.mConnections.lookup p = some c' ∧
      (c.connected = false → c'.connected = false)
  events : ∃ new, m'.trace = new ++ m.trace ∧ ∀ p event, Ev.notify p event ∉ new
  callback : m'.mConnectionCallback = m.mConnectionCallback

theorem Fails.refl (m : Manager) : Fails [] m m := by
  refine ⟨(List.append_nil _).symm, by simp, fun p => ?_, ⟨[], rfl, by simp⟩, rfl⟩
  cases hc : m.mConnections.lookup p with
  | none => exact .inl ⟨rfl, rfl⟩
  | some c => exact .inr ⟨c, c, rfl, rfl, id⟩

theorem Fails.up {failed : List PeerID} (h : Fails failed m m') {p : PeerID} {c' : Connection}
    (hc' : m'.mConnections.lookup p = some c') (hup : c'.connected = true) :
    ∃ c, m.mConnections.lookup p = some c ∧ c.connected = true := by
  rcases h.table p with ⟨-, hno⟩ | ⟨c, d, hc, hd, hdown⟩
  · rw [hc'] at hno
    cases hno
  · rw [hc'] at hd
    cases hd
    refine ⟨c, hc, ?_⟩
    by_contra hno
    rw [hdown (by simpa using hno)] at hup
    cases hup

theorem Fails.trans {f₁ f₂ : List PeerID} (h : Fails f₁ m m') (h' : Fails f₂ m' m'') :
    Fails (f₁ ++ f₂) m m'' := by
  obtain ⟨new, ht, hno⟩ := h.events
  obtain ⟨new', ht', hno'⟩ := h'.events
  refine ⟨by rw [h'.pending, h.pending, List.append_assoc], fun p hp => ?_, fun p => ?_,
    ⟨new' ++ new, by rw [ht', ht, List.append_assoc], fun p event hmem => ?_⟩,
    h'.callback.trans h.callback⟩
  · rcases List.mem_append.mp hp with hp | hp
    · exact h.live p hp
    · obtain ⟨c', hc', hup⟩ := h'.live p hp
      exact h.up hc' hup
  · rcases h.table p with ⟨hno, hmid⟩ | ⟨c, c', hc, hmid, hdown⟩
    · rcases h'.table p with ⟨-, hend⟩ | ⟨d, -, hd, -, -⟩
      · exact .inl ⟨hno, hend⟩
      · rw [hmid] at hd
        cases hd
    · rcases h'.table p with ⟨hd, -⟩ | ⟨d, d', hd, hend, hdown'⟩
      · rw [hmid] at hd
        cases hd
      · rw [hmid] at hd
        cases hd
        exact .inr ⟨c, d', hc, hend, fun hup => hdown' (hdown hup)⟩
  · exact (List.mem_append.mp hmem).elim (hno' p event) (hno p event)

theorem Fails.replace {failed : List PeerID} {c' : Connection} (new : List Ev)
    (hc : m.mConnections.lookup peer = some c)
    (hr : m'.mConnections = m.mConnections.replace peer c')
    (hp : m'.mPendingRemove = m.mPendingRemove ++ failed)
    (hlive : ∀ p ∈ failed, p = peer ∧ c.connected = true)
    (hdown : c.connected = false → c'.connected = false) (ht : m'.trace = new ++ m.trace)
    (hno : ∀ p event, Ev.notify p event ∉ new)
    (hcb : m'.mConnectionCallback = m.mConnectionCallback) : Fails failed m m' := by
  refine ⟨hp, fun p hmem => ?_, fun p => ?_, ⟨new, ht, hno⟩, hcb⟩
  · obtain ⟨rfl, hup⟩ := hlive p hmem
    exact ⟨c, hc, hup⟩
  · rw [hr, AssocList.lookup_replace hc]
    by_cases hpp : p = peer
    · subst hpp
      exact .inr ⟨c, c', hc, if_pos rfl, hdown⟩
    · rw [if_neg hpp]
      cases hd : m.mConnections.lookup p with
      | none => exact .inl ⟨rfl, rfl⟩
      | some d => exact .inr ⟨d, d, rfl, rfl, id⟩

theorem sendPacket_fails (k : Kernel) (peer : PeerID) (data : Option (List UInt8)) (m : Manager) :
    ∃ failed, Fails failed m (sendPacket k peer data m).2 := by
  have hs := sendPacket_sends k peer data m
  generalize (sendPacket k peer data m).1 = b at hs
  generalize (sendPacket k peer data m).2 = m' at hs ⊢
  cases hs with
  | refused _ => exact ⟨[], .refl m⟩
  | @sent d c len r w rest hf _ _ _ =>
    exact ⟨[], .replace [.send c.socket (createSendFrame d).length len r, .packet c.socket d]
      hf.2.2.1 rfl (List.append_nil _).symm (by simp) id rfl (by simp) rfl⟩
  | @failed d c len hf _ =>
    exact ⟨[peer], .replace [.send c.socket (createSendFrame d).length len .fail,
      .packet c.socket d] hf.2.2.1 rfl rfl (fun p hp => ⟨List.mem_singleton.mp hp, hf.2.2.2⟩)
      (fun _ => rfl) rfl (by simp) rfl⟩

theorem Sending.fails (h : Sending k w w') : ∃ failed, Fails failed w.mgr w'.mgr := by
  cases h with
  | own user => exact ⟨[], .refl _⟩
  | sent peer data =>
    unfold p2pSendPacket
    split
    · exact ⟨[], .refl _⟩
    · split
      · exact ⟨[], .refl _⟩
      · cases data with
        | none => exact ⟨[], .refl _⟩
        | some bytes =>
          dsimp only
          split
          · exact ⟨[], .refl _⟩
          · exact sendPacket_fails k peer (some bytes) w.mgr

theorem SendsOnly.fails (hcb : SendsOnly cb) (k : Kernel) (peer : PeerID) (event : ConnectionEvent)
    (w : World υ) : ∃ w' failed, cb k peer event w = some w' ∧ Fails failed w.mgr w'.mgr := by
  obtain ⟨w', hw', hs⟩ := hcb k peer event w
  have hfails : ∃ failed, Fails failed w.mgr w'.mgr := by
    clear hw'
    induction hs with
    | refl => exact ⟨[], .refl _⟩
    | tail _ hone ih =>
      obtain ⟨f₁, h₁⟩ := ih
      obtain ⟨f₂, h₂⟩ := hone.fails
      exact ⟨f₁ ++ f₂, h₁.trans h₂⟩
  obtain ⟨failed, hf⟩ := hfails
  exact ⟨w', failed, hw', hf⟩

/-! ## The rounds of the loop -/

/-- A round tears down the connection of `peer`, and the sends of the callback fail
hard for the peers `failed`. -/
structure Round (peer : PeerID) (failed : List PeerID) (m m' : Manager) : Prop where
  pending : m'.mPendingRemove = m.mPendingRemove ++ failed
  live : ∀ p ∈ failed, p ≠ peer ∧ ∃ c, m.mConnections.lookup p = some c ∧ c.connected = true
  down : ∀ c, m'.mConnections.lookup peer = some c → c.connected = false
  table : ∀ p, p ≠ peer → m.mConnections.lookup p = none ∧ m'.mConnections.lookup p = none ∨
    ∃ c c', m.mConnections.lookup p = some c ∧ m'.mConnections.lookup p = some c' ∧
      (c.connected = false → c'.connected = false)
  events : m.mConnectionCallback = true → ∃ new, m'.trace = new ++ m.trace ∧
    ∀ p, Ev.notify p .disconnected ∈ new ↔ p = peer
  callback : m'.mConnectionCallback = m.mConnectionCallback

theorem tearDown_callback (peer : PeerID) (c : Connection) (m : Manager) :
    (m.tearDown peer c).mConnectionCallback = m.mConnectionCallback := by
  rw [Manager.tearDown, Manager.noted_mConnectionCallback, Manager.setConn_mConnectionCallback,
    Manager.closeSocket_mConnectionCallback]

theorem tearDown_mPendingRemove (peer : PeerID) (c : Connection) (m : Manager) :
    (m.tearDown peer c).mPendingRemove = m.mPendingRemove := by
  rw [Manager.tearDown, Manager.noted_mPendingRemove, Manager.setConn_mPendingRemove,
    Manager.closeSocket_mPendingRemove]

theorem tearDown_events (peer : PeerID) (c : Connection) (hm : m.mConnectionCallback = true) :
    ∃ new, (m.tearDown peer c).trace = new ++ m.trace ∧
      ∀ p, Ev.notify p .disconnected ∈ new ↔ p = peer := by
  have hset : ((m.closeSocket c.socket).setConn peer c.down).mConnectionCallback = true := by
    rw [Manager.setConn_mConnectionCallback, Manager.closeSocket_mConnectionCallback, hm]
  unfold Manager.tearDown Manager.noted
  rw [if_pos hset, Manager.log_trace, Manager.setConn_trace, Manager.closeSocket]
  split
  · exact ⟨[.notify peer .disconnected, .close c.socket], rfl, by simp⟩
  · exact ⟨[.notify peer .disconnected], rfl, by simp⟩

theorem reportLoss_fails (hcb : SendsOnly cb) (peer : PeerID) (c : Connection) (w : World υ) :
    ∃ v failed, reportLoss cb k peer c w = some v ∧ Fails failed (w.mgr.tearDown peer c) v.mgr ∧
      (w.mgr.mConnectionCallback = false → failed = []) := by
  have hflag : ((w.mgr.closeSocket c.socket).setConn peer c.down).mConnectionCallback =
      w.mgr.mConnectionCallback := by
    rw [Manager.setConn_mConnectionCallback, Manager.closeSocket_mConnectionCallback]
  unfold reportLoss notifyConnectionEvent Manager.tearDown Manager.noted
  rw [World.onMgr_mgr, hflag]
  cases w.mgr.mConnectionCallback with
  | false => exact ⟨_, [], rfl, .refl _, fun _ => rfl⟩
  | true =>
    obtain ⟨v, failed, hv, hf⟩ := hcb.fails k peer .disconnected
      ((w.onMgr fun m => (m.closeSocket c.socket).setConn peer c.down).onMgr
        (·.log (.notify peer .disconnected)))
    exact ⟨v, failed, hv, hf, fun h => by cases h⟩

/-- **A round of the loop.** -/
theorem removal_round (hcb : SendsOnly cb) (hc : w.mgr.mConnections.lookup peer = some c) :
    ∃ v v' failed, reportLoss cb k peer c w = some v ∧ afterLoss k peer w.mgr v = some v' ∧
      v.mgr.mPendingRemove = w.mgr.mPendingRemove ++ failed ∧ Round peer failed w.mgr v'.mgr ∧
      (w.mgr.mConnectionCallback = false → failed = []) := by
  obtain ⟨v, failed, hv, hf, hmute⟩ := reportLoss_fails (k := k) hcb peer c w
  have hdown : (w.mgr.tearDown peer c).mConnections.lookup peer = some c.down := by
    rw [Manager.tearDown_mConnections, AssocList.lookup_replace_self _ (AssocList.mem_of_lookup hc)]
  have hother : ∀ p, p ≠ peer →
      (w.mgr.tearDown peer c).mConnections.lookup p = w.mgr.mConnections.lookup p := fun p hp => by
    rw [Manager.tearDown_mConnections, AssocList.lookup_replace_ne hp]
  obtain ⟨d, hd, hdconn⟩ : ∃ d, v.mgr.mConnections.lookup peer = some d ∧ d.connected = false := by
    rcases hf.table peer with ⟨hno, -⟩ | ⟨e, d, he, hd, hdn⟩
    · rw [hdown] at hno
      cases hno
    · rw [hdown] at he
      cases he
      exact ⟨d, hd, hdn rfl⟩
  have hpend : v.mgr.mPendingRemove = w.mgr.mPendingRemove ++ failed := by
    rw [hf.pending, tearDown_mPendingRemove]
  have hkeys : w.mgr.entered v.mgr = false := by
    refine entered_of_lookup fun p hno => ?_
    have hne : p ≠ peer := by
      rintro rfl
      rw [hc] at hno
      cases hno
    rcases hf.table p with ⟨-, hnone⟩ | ⟨e, -, he, -⟩
    · exact hnone
    · rw [hother p hne, hno] at he
      cases he
  obtain ⟨v', hv'⟩ : ∃ v', afterLoss k peer w.mgr v = some v' := by
    unfold afterLoss
    rw [hd, Option.bind_eq_bind, Option.bind_some, hkeys]
    split
    · exact ⟨_, rfl⟩
    · exact ⟨_, rfl⟩
  refine ⟨v, v', failed, hv, hv', hpend, ?_, hmute⟩
  have hlast : (∀ e, v'.mgr.mConnections.lookup peer = some e → e.connected = false) ∧
      (∀ p, p ≠ peer → v'.mgr.mConnections.lookup p = v.mgr.mConnections.lookup p) ∧
      (∃ new, v'.mgr.trace = new ++ v.mgr.trace ∧ ∀ p event, Ev.notify p event ∉ new) ∧
      v'.mgr.mConnectionCallback = v.mgr.mConnectionCallback := by
    rcases afterLoss_cases hd hv' with rfl | rfl
    · have hd' : (v.mgr.nowMs k).2.mConnections.lookup peer = some d := hd
      refine ⟨fun e he => ?_, fun p hp => ?_, ⟨[.clock _], rfl, by simp⟩, rfl⟩
      · have he' := (Manager.setConn_lookup_self hd').symm.trans he
        cases he'
        exact hdconn
      · exact AssocList.lookup_replace_ne hp _
    · refine ⟨fun e he => ?_, fun p hp => ?_, ⟨[], rfl, by simp⟩, rfl⟩
      · rw [World.onMgr_mgr, Manager.erase_mConnections, AList.lookup_erase] at he
        cases he
      · exact AList.lookup_erase_ne hp
  obtain ⟨hself, hsame, ⟨late, hlate, hnolate⟩, hflag⟩ := hlast
  obtain ⟨mid, hmid, hnomid⟩ := hf.events
  refine ⟨?_, fun p hp => ?_, hself, fun p hp => ?_, fun hset => ?_, ?_⟩
  · rw [afterLoss_mPendingRemove hv', hpend]
  · obtain ⟨e, he, hup⟩ := hf.live p hp
    have hne : p ≠ peer := by
      rintro rfl
      rw [hdown] at he
      cases he
      cases hup
    exact ⟨hne, e, (hother p hne) ▸ he, hup⟩
  · rw [hsame p hp, ← hother p hp]
    exact hf.table p
  · obtain ⟨first, hfirst, hnote⟩ := tearDown_events peer c hset
    refine ⟨late ++ (mid ++ first), ?_, fun p => ?_⟩
    · rw [hlate, hmid, hfirst, List.append_assoc, List.append_assoc]
    · rw [List.mem_append, List.mem_append, hnote p]
      exact ⟨fun h => (h.resolve_left (hnolate p _)).resolve_left (hnomid p _),
        fun h => .inr (.inr h)⟩
  · rw [hflag, hf.callback, tearDown_callback]

/-! ## The loop -/

/-- The peers for which the sends of the callback fail hard in the loop, in order:
each such send appends its peer to the vector. -/
def hardFailures (cb : Callback υ) (k : Kernel) : List PeerID → World υ → List PeerID
  | [], _ => []
  | peer :: rest, w =>
    match w.mgr.mConnections.lookup peer with
    | none => hardFailures cb k rest w
    | some conn =>
      match reportLoss cb k peer conn w with
      | none => []
      | some v =>
        v.mgr.mPendingRemove.drop w.mgr.mPendingRemove.length ++
          match afterLoss k peer w.mgr v with
          | none => []
          | some v' => hardFailures cb k rest v'

theorem hardFailures_absent {rest : List PeerID} (hc : w.mgr.mConnections.lookup peer = none) :
    hardFailures cb k (peer :: rest) w = hardFailures cb k rest w := by
  rw [hardFailures, hc]

theorem hardFailures_round {rest failed : List PeerID} {v v' : World υ}
    (hc : w.mgr.mConnections.lookup peer = some c) (hv : reportLoss cb k peer c w = some v)
    (hv' : afterLoss k peer w.mgr v = some v')
    (hp : v.mgr.mPendingRemove = w.mgr.mPendingRemove ++ failed) :
    hardFailures cb k (peer :: rest) w = failed ++ hardFailures cb k rest v' := by
  rw [hardFailures, hc]
  dsimp only
  rw [hv]
  dsimp only
  rw [hv', hp, List.drop_left]

theorem removeLoopIn_round {capacity : Nat} {rest failed : List PeerID} {v v' : World υ}
    (hc : w.mgr.mConnections.lookup peer = some c) (hv : reportLoss cb k peer c w = some v)
    (hv' : afterLoss k peer w.mgr v = some v')
    (hp : v.mgr.mPendingRemove = w.mgr.mPendingRemove ++ failed) :
    removeLoopIn capacity cb k (peer :: rest) w =
      if failed = [] ∨ w.mgr.mPendingRemove.length + failed.length ≤ capacity then
        removeLoopIn capacity cb k rest v' else none := by
  rw [removeLoopIn, hc]
  dsimp only
  rw [hv, Option.bind_eq_bind, Option.bind_some, hp]
  have hfit := inPlace_append capacity w.mgr.mPendingRemove failed
  by_cases hcond : failed = [] ∨ w.mgr.mPendingRemove.length + failed.length ≤ capacity
  · rw [if_pos hcond, hfit.mpr hcond, hv']
    rfl
  · rw [if_neg hcond, Bool.eq_false_iff.mpr fun h => hcond (hfit.mp h)]
    rfl

theorem hardFailures_live (hcb : SendsOnly cb) {ids : List PeerID} {p : PeerID}
    (hp : p ∈ hardFailures cb k ids w) :
    ∃ c, w.mgr.mConnections.lookup p = some c ∧ c.connected = true := by
  induction ids generalizing w with
  | nil => cases hp
  | cons peer rest ih =>
    cases hc : w.mgr.mConnections.lookup peer with
    | none =>
      rw [hardFailures_absent hc] at hp
      exact ih hp
    | some c =>
      obtain ⟨v, v', failed, hv, hv', hpend, hr, -⟩ := removal_round (k := k) hcb hc
      rw [hardFailures_round hc hv hv' hpend] at hp
      rcases List.mem_append.mp hp with hp | hp
      · exact (hr.live p hp).2
      · obtain ⟨c', hc', hup⟩ := ih hp
        have hne : p ≠ peer := by
          rintro rfl
          rw [hr.down c' hc'] at hup
          cases hup
        rcases hr.table p hne with ⟨-, hno⟩ | ⟨d, d', hd, hd', hdn⟩
        · rw [hc'] at hno
          cases hno
        · rw [hc'] at hd'
          cases hd'
          refine ⟨d, hd, ?_⟩
          by_contra hno
          rw [hdn (by simpa using hno)] at hup
          cases hup

theorem hardFailures_muted (hcb : SendsOnly cb) (hset : w.mgr.mConnectionCallback = false)
    (ids : List PeerID) : hardFailures cb k ids w = [] := by
  induction ids generalizing w with
  | nil => rfl
  | cons peer rest ih =>
    cases hc : w.mgr.mConnections.lookup peer with
    | none =>
      rw [hardFailures_absent hc]
      exact ih hset
    | some c =>
      obtain ⟨v, v', failed, hv, hv', hpend, hr, hmute⟩ := removal_round (k := k) hcb hc
      rw [hardFailures_round hc hv hv' hpend, hmute hset, List.nil_append]
      exact ih (hr.callback.trans hset)

theorem removeLoopIn_isSome (hcb : SendsOnly cb) (capacity : Nat) (ids : List PeerID) :
    (removeLoopIn capacity cb k ids w).isSome = true ↔
      hardFailures cb k ids w = [] ∨
        w.mgr.mPendingRemove.length + (hardFailures cb k ids w).length ≤ capacity := by
  induction ids generalizing w with
  | nil => simp [removeLoopIn, hardFailures]
  | cons peer rest ih =>
    cases hc : w.mgr.mConnections.lookup peer with
    | none =>
      have hloop : removeLoopIn capacity cb k (peer :: rest) w =
          removeLoopIn capacity cb k rest w := by
        rw [removeLoopIn, hc]
      rw [hardFailures_absent hc, hloop]
      exact ih
    | some c =>
      obtain ⟨v, v', failed, hv, hv', hpend, hr, -⟩ := removal_round (k := k) hcb hc
      have hlen := congrArg List.length hr.pending
      rw [List.length_append] at hlen
      rw [hardFailures_round hc hv hv' hpend, removeLoopIn_round hc hv hv' hpend]
      have hrest := ih (w := v')
      rw [hlen] at hrest
      simp only [List.append_eq_nil_iff, List.length_append]
      by_cases hcond : failed = [] ∨ w.mgr.mPendingRemove.length + failed.length ≤ capacity
      · rw [if_pos hcond, hrest]
        rcases hcond with rfl | hcond
        · simp
        · constructor
          · rintro (he | he)
            · exact .inr (by rw [he]; simpa using hcond)
            · exact .inr (by omega)
          · rintro (⟨-, he⟩ | he)
            · exact .inl he
            · exact .inr (by omega)
      · rw [if_neg hcond]
        simp only [Option.isSome_none, Bool.false_eq_true, false_iff, not_or, not_and, not_le]
        push Not at hcond
        exact ⟨fun he => absurd he hcond.1, by omega⟩

theorem removeLoopIn_reports (hcb : SendsOnly cb) {capacity : Nat} {ids : List PeerID}
    (hset : w.mgr.mConnectionCallback = true) (h : removeLoopIn capacity cb k ids w = some w') :
    ∃ new, w'.mgr.trace = new ++ w.mgr.trace ∧ ∀ p, Ev.notify p .disconnected ∈ new ↔
      p ∈ ids ∧ w.mgr.mConnections.lookup p ≠ none := by
  induction ids generalizing w with
  | nil =>
    cases h
    exact ⟨[], rfl, by simp⟩
  | cons peer rest ih =>
    cases hc : w.mgr.mConnections.lookup peer with
    | none =>
      rw [removeLoopIn, hc] at h
      obtain ⟨new, ht, hnew⟩ := ih hset h
      refine ⟨new, ht, fun p => (hnew p).trans ?_⟩
      refine and_congr_left fun hp => ?_
      have hne : p ≠ peer := fun he => hp (he ▸ hc)
      simp [hne]
    | some c =>
      obtain ⟨v, v', failed, hv, hv', hpend, hr, -⟩ := removal_round (k := k) hcb hc
      rw [removeLoopIn_round hc hv hv' hpend] at h
      split at h
      · obtain ⟨new, ht, hnew⟩ := ih (hr.callback.trans hset) h
        obtain ⟨first, hfirst, hnote⟩ := hr.events hset
        refine ⟨new ++ first, by rw [ht, hfirst, List.append_assoc], fun p => ?_⟩
        rw [List.mem_append, hnew p, hnote p, List.mem_cons]
        by_cases hp : p = peer
        · subst hp
          exact ⟨fun _ => ⟨.inl rfl, by rw [hc]; simp⟩, fun _ => .inr rfl⟩
        · have hsame : v'.mgr.mConnections.lookup p = none ↔ w.mgr.mConnections.lookup p = none := by
            rcases hr.table p hp with ⟨h₁, h₂⟩ | ⟨d, d', h₁, h₂, -⟩
            · simp [h₁, h₂]
            · simp [h₁, h₂]
          simp [hp, hsame]
      · cases h

/-! ## The call -/

/-- The peers for which the sends of the callback fail hard during `removeDisconnected`. -/
def failedSends (cb : Callback υ) (k : Kernel) (w : World υ) : List PeerID :=
  hardFailures cb k w.mgr.removals (w.onMgr fun m => m.setPending m.removals)

/-- A peer whose send fails is torn down only if it was on the list. -/
theorem failedSends_reported (hcb : SendsOnly cb) {capacity : Nat}
    (h : removeDisconnectedIn capacity cb k w = some w') {p : PeerID}
    (hp : p ∈ failedSends cb k w) :
    (∃ new, w'.mgr.trace = new ++ w.mgr.trace ∧ Ev.notify p .disconnected ∈ new) ↔
      p ∈ w.mgr.mPendingRemove := by
  obtain ⟨v, hv, h⟩ := Option.bind_eq_some_iff.mp h
  cases h
  have hset : w.mgr.mConnectionCallback = true := by
    by_contra hno
    have hoff : w.mgr.mConnectionCallback = false := by simpa using hno
    have hnil := hardFailures_muted (k := k) hcb
      (w := w.onMgr fun m => m.setPending m.removals) hoff w.mgr.removals
    rw [failedSends, hnil] at hp
    cases hp
  obtain ⟨new, ht, hnew⟩ := removeLoopIn_reports hcb
    (w := w.onMgr fun m => m.setPending m.removals) hset hv
  obtain ⟨c, hc, -⟩ := hardFailures_live hcb hp
  have hin : p ∈ w.mgr.removals ↔ p ∈ w.mgr.mPendingRemove :=
    ⟨fun h => w.mgr.removals_subset h, fun h => w.mgr.pending_subset_removals h⟩
  rw [← hin]
  constructor
  · rintro ⟨new', ht', hmem⟩
    have hsame : new' = new := List.append_cancel_right (ht'.symm.trans ht)
    exact ((hnew p).mp (hsame ▸ hmem)).1
  · refine fun hmem => ⟨new, ht, (hnew p).mpr ⟨hmem, ?_⟩⟩
    rw [hc]
    simp

/-- By the standard the call is defined only if no send fails hard. -/
theorem removeDisconnected_isSome (hcb : SendsOnly cb) (k : Kernel) (w : World υ) :
    (removeDisconnected cb k w).isSome = true ↔ failedSends cb k w = [] := by
  have hloop := removeLoopIn_isSome (k := k) hcb 0 w.mgr.removals
    (w := w.onMgr fun m => m.setPending m.removals)
  have hclear : ∀ (o : Option (World υ)) (f : World υ → World υ),
      (o.bind fun v => some (f v)).isSome = o.isSome := fun o f => by cases o <;> rfl
  have hsome : (removeDisconnectedIn 0 cb k w).isSome =
      (removeLoopIn 0 cb k w.mgr.removals (w.onMgr fun m => m.setPending m.removals)).isSome :=
    hclear _ _
  rw [← removeDisconnectedIn_zero, hsome]
  refine hloop.trans ⟨fun h => h.elim id fun hlen => ?_, .inl⟩
  exact List.length_eq_zero_iff.mp (Nat.le_zero.mp (le_trans (Nat.le_add_left _ _) hlen))

/-- **When no removal request is lost**: every peer whose send fails hard in the
callback is on the list already, and what is appended fits into the vector. -/
theorem removals_kept_iff (hcb : SendsOnly cb) (capacity : Nat) (k : Kernel) (w : World υ) :
    (∃ w', removeDisconnectedIn capacity cb k w = some w' ∧ ∀ p ∈ failedSends cb k w,
      (∃ new, w'.mgr.trace = new ++ w.mgr.trace ∧ Ev.notify p .disconnected ∈ new) ∨
        p ∈ w'.mgr.mPendingRemove) ↔
      failedSends cb k w ⊆ w.mgr.mPendingRemove ∧ (failedSends cb k w = [] ∨
        w.mgr.removals.length + (failedSends cb k w).length ≤ capacity) := by
  have hloop := removeLoopIn_isSome (k := k) hcb capacity w.mgr.removals
    (w := w.onMgr fun m => m.setPending m.removals)
  constructor
  · rintro ⟨w', h, hkept⟩
    obtain ⟨v, hv, he⟩ := Option.bind_eq_some_iff.mp h
    refine ⟨fun p hp => ?_, hloop.mp (Option.isSome_iff_exists.mpr ⟨v, hv⟩)⟩
    rcases hkept p hp with htorn | hlisted
    · exact (failedSends_reported hcb h hp).mp htorn
    · cases he
      cases hlisted
  · rintro ⟨hsub, hfits⟩
    obtain ⟨v, hv⟩ := Option.isSome_iff_exists.mp (hloop.mpr hfits)
    have h : removeDisconnectedIn capacity cb k w = some (v.onMgr (·.setPending [])) :=
      Option.bind_eq_some_iff.mpr ⟨v, hv, rfl⟩
    exact ⟨_, h, fun p hp => .inl ((failedSends_reported hcb h hp).mpr (hsub hp))⟩

/-- A callback that tells the peer 2 of every loss. -/
def alarm : Callback Unit := fun k _ event w =>
  if event = .disconnected then some (p2pSendPacket k 2 (some [7]) w).2 else some w

theorem alarm_sendsOnly : SendsOnly alarm := by
  intro k peer event w
  unfold alarm
  split
  · exact ⟨_, rfl, .single (.sent 2 (some [7]))⟩
  · exact ⟨_, rfl, .refl⟩

/-- Two peers are connected; the first will close its connection. -/
def twoPeersRun : List (Kernel × Call) :=
  [.initializeManager, .connect (some ['h']) 1, .connect (some ['h']) 2].map (calmKernel, ·)

theorem twoPeersRun_kept :
    ∃ w v, Runs.run (call alarm) twoPeersRun (fresh true ()) = some w ∧
      beforeRemoval alarm calmKernel w = some v ∧ v.mgr.mPendingRemove = [1] ∧
      ∃ w', removeDisconnectedIn 1 alarm calmKernel v = some w' ∧
        ∀ p ∈ failedSends alarm calmKernel v,
          (∃ new, w'.mgr.trace = new ++ v.mgr.trace ∧ Ev.notify p .disconnected ∈ new) ∨
            p ∈ w'.mgr.mPendingRemove := by
  have hlast : (Runs.run (call alarm) twoPeersRun (fresh true ())).bind (fun w =>
      (beforeRemoval alarm calmKernel w).map fun v =>
        (v.mgr.mPendingRemove == [1]) && (failedSends alarm calmKernel v == [])) = some true := by
    decide +kernel
  obtain ⟨w, hr, hlast⟩ := Option.bind_eq_some_iff.mp hlast
  obtain ⟨v, hv, hlast⟩ := Option.map_eq_some_iff.mp hlast
  simp only [Bool.and_eq_true, beq_iff_eq] at hlast
  obtain ⟨hpend, hfails⟩ := hlast
  refine ⟨w, v, hr, hv, hpend, (removals_kept_iff alarm_sendsOnly 1 calmKernel v).mpr ?_⟩
  rw [hfails]
  exact ⟨List.nil_subset _, .inl rfl⟩

/-- Nothing can be sent. -/
def deafKernel : Kernel := { calmKernel with send := fun _ _ => .fail }

/-- The send to the peer 2 fails while the peer 1 is torn down. A full vector leaves
the loop with dangling iterators; in one with a place to spare the request is
cleared, and the peer 2 stays, dead and not listed. -/
theorem request_lost :
    ∃ w v v', Runs.run (call alarm) twoPeersRun (fresh true ()) = some w ∧
      beforeRemoval alarm deafKernel w = some v ∧ v.mgr.mPendingRemove = [1] ∧
      failedSends alarm deafKernel v = [2] ∧ removeDisconnected alarm deafKernel v = none ∧
      removeDisconnectedIn 2 alarm deafKernel v = some v' ∧
      Ev.notify 2 .disconnected ∉ v'.mgr.trace ∧ v'.mgr.mPendingRemove = [] ∧
      (v'.mgr.mConnections.lookup 2).map (·.connected) = some false := by
  have hlast : (Runs.run (call alarm) twoPeersRun (fresh true ())).bind (fun w =>
      (beforeRemoval alarm deafKernel w).bind fun v =>
        (removeDisconnectedIn 2 alarm deafKernel v).map fun v' =>
          (v.mgr.mPendingRemove == [1]) && (failedSends alarm deafKernel v == [2]) &&
            (removeDisconnected alarm deafKernel v).isNone &&
            !decide (Ev.notify 2 .disconnected ∈ v'.mgr.trace) &&
            (v'.mgr.mPendingRemove == []) &&
            ((v'.mgr.mConnections.lookup 2).map (·.connected) == some false)) = some true := by
    decide +kernel
  obtain ⟨w, hr, hlast⟩ := Option.bind_eq_some_iff.mp hlast
  obtain ⟨v, hv, hlast⟩ := Option.bind_eq_some_iff.mp hlast
  obtain ⟨v', hv', hlast⟩ := Option.map_eq_some_iff.mp hlast
  simp only [Bool.and_eq_true, beq_iff_eq, Bool.not_eq_true', decide_eq_false_iff_not,
    Option.isNone_iff_eq_none] at hlast
  obtain ⟨⟨⟨⟨⟨hpend, hfails⟩, hnone⟩, hquiet⟩, hclear⟩, hdead⟩ := hlast
  exact ⟨w, v, v', hr, hv, hpend, hfails, hnone, hv', hquiet, hclear, hdead⟩

end IsaacP2P.Client
