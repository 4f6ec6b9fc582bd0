import IsaacP2P.Client.Changes
import IsaacP2P.Lib.Runs

/-!
# Runs of the library

`call` is one call of a function of the library, and a run is one call after
another. `call_does` says in four cases what a call does; for the last,
`processEvents_rule` is the induction rule over the steps of its phases.

`HandsOut` is the moment at which `connect` or `acceptNewConnections` takes a
new peer ID for a socket.
-/

namespace IsaacP2P.Client

variable {υ : Type} {cb : Callback υ} {k : Kernel} {w w' : World υ} {m : Manager}

inductive Call where
  | initializeManager
  | listen (port : UInt16)
  | stopListen
  | connect (ip : Option Text) (port : UInt16)
  | disconnect (peer : PeerID)
  | setAutoReconnect (peer : PeerID) (enable : Bool) (baseDelayMs maxDelayMs : UInt32)
  | sendPacket (peer : PeerID) (data : Option (List UInt8))
  | readPacket (peer : PeerID) (buffer : Bool) (bufferSize : UInt32)
  | processEvents
  | shutdown
  deriving DecidableEq

def call (cb : Callback υ) (i : Kernel × Call) (w : World υ) : Option (World υ) :=
  match i.2 with
  | .initializeManager => some (w.onMgr fun m => (Client.initializeManager i.1 m).2)
  | .listen port => some (w.onMgr fun m => (listen i.1 port m).2)
  | .stopListen => some (w.onMgr stopListen)
  | .connect ip port => (connect cb i.1 ip port w).map (·.2)
  | .disconnect peer => disconnect cb i.1 peer w
  | .setAutoReconnect peer enable baseDelayMs maxDelayMs =>
    some (w.onMgr (setAutoReconnect peer enable baseDelayMs maxDelayMs))
  | .sendPacket peer data => some (w.onMgr fun m => (sendPacket i.1 peer data m).2)
  | .readPacket peer buffer bufferSize =>
    some (w.onMgr fun m => (readPacket peer buffer bufferSize m).2)
  | .processEvents => processEvents cb i.1 w
  | .shutdown => some (w.onMgr shutdown)

/-- A manager just made, with or without a connection callback. -/
def fresh (callback : Bool) (user : υ) : World υ :=
  { mgr := { mConnectionCallback := callback }, user }

/-! ## The moment an ID is taken -/

/-- In the call a connection on `h` to the address `ip`, `port` is about to be
entered into `m`, under the ID `m.mNextPeerID`. -/
inductive HandsOut (cb : Callback υ) (k : Kernel) (w : World υ) (h : SocketHandle) (ip : Text)
    (port : UInt16) : Call → Manager → Prop where
  | connect {m : Manager} : w.mgr.mInitialized = true →
      connectWithTimeout k ip w.mgr = (h, m) → h ≠ invalidSocketHandle →
      HandsOut cb k w h ip port (.connect (some ip) port) m
  | accept {w₁ m : World υ} : w.mgr.mInitialized = true →
      attemptReconnects cb k w = some w₁ →
      Accepting cb k h ip port (k.accept w₁.mgr.trace.length) w₁ m →
      m.mgr.mListenSocket ≠ invalidSocketHandle → m.mgr.free h = true →
      HandsOut cb k w h ip port .processEvents (m.mgr.log (.accept h))

/-! ## Counting the IDs -/

def Ev.isAccept : Ev → Bool
  | .accept _ => true
  | _ => false

/-- How many connections were accepted. -/
def accepts (tr : List Ev) : Nat := tr.countP Ev.isAccept

/-- How many IDs the call hands out: one if `connect` succeeds, and one for each
connection `processEvents` accepts. -/
def allocations (cb : Callback υ) (i : Kernel × Call) (w : World υ) : Nat :=
  match i.2 with
  | .connect ip port =>
    match connect cb i.1 ip port w with
    | some (some _, _) => 1
    | _ => 0
  | .processEvents =>
    match processEvents cb i.1 w with
    | some w' => accepts w'.mgr.trace - accepts w.mgr.trace
    | none => 0
  | _ => 0

/-- How many IDs the calls of a run hand out. -/
def allocated (cb : Callback υ) : List (Kernel × Call) → World υ → Nat
  | [], _ => 0
  | i :: is, w =>
    allocations cb i w + match call cb i w with
      | some w' => allocated cb is w'
      | none => 0

/-! ## What a call does -/

inductive Does (cb : Callback υ) (k : Kernel) (w : World υ) : Call → World υ → Prop where
  | minors {op : Call} {m : Manager} : Minors w.mgr m → allocations cb (k, op) w = 0 →
      Does cb k w op { w with mgr := m }
  | connected {h : SocketHandle} {ip : Text} {port : UInt16} {w' : World υ} :
      w.mgr.free h = true →
      HandsOut cb k w h ip port (.connect (some ip) port) (w.mgr.log (.socket h)) →
      notifyConnectionEvent cb k w.mgr.mNextPeerID .connected
        (w.onMgr fun m => (m.log (.socket h)).enter h ip port) = some w' →
      allocations cb (k, .connect (some ip) port) w = 1 →
      Does cb k w (.connect (some ip) port) w'
  | disconnected {peer : PeerID} {c : Connection} {w' : World υ} :
      Loses cb k peer c w w' → Does cb k w (.disconnect peer) w'
  | processed {w' : World υ} : w.mgr.mInitialized = true → processEvents cb k w = some w' →
      Does cb k w .processEvents w'
  | shutdown : Does cb k w .shutdown (w.onMgr shutdown)

theorem World.onMgr_eq (f : Manager → Manager) (w : World υ) :
    w.onMgr f = { w with mgr := f w.mgr } := rfl

theorem processEvents_uninitialized (hi : w.mgr.mInitialized = false) :
    processEvents cb k w = some w := by
  unfold processEvents
  rw [if_pos (by simp [hi])]

theorem connect_does {ip : Option Text} {port : UInt16}
    (h : call cb (k, .connect ip port) w = some w') : Does cb k w (.connect ip port) w' := by
  obtain ⟨⟨out, w₁⟩, hconn, rfl⟩ := Option.map_eq_some_iff.mp h
  have hnone : out = none → allocations cb (k, .connect ip port) w = 0 := by
    rintro rfl
    simp only [allocations, hconn]
  have hsome : ∀ id, out = some id → allocations cb (k, .connect ip port) w = 1 := by
    rintro id rfl
    simp only [allocations, hconn]
  cases ip with
  | none =>
    cases hconn
    exact .minors .refl (hnone rfl)
  | some ip =>
    by_cases hi : w.mgr.mInitialized = true
    · unfold connect at hconn
      simp only [hi, Bool.not_true, Bool.false_eq_true, if_false] at hconn
      have hd := connectWithTimeout_dials k ip w.mgr
      have hout : ∀ {s m}, connectWithTimeout k ip w.mgr = (s, m) → s ≠ invalidSocketHandle →
          HandsOut cb k w s ip port (.connect (some ip) port) m := .connect hi
      generalize connectWithTimeout k ip w.mgr = r at hd hout hconn
      obtain ⟨sock, m⟩ := r
      dsimp only at hd hconn
      split at hconn
      · rename_i hs
        rw [beq_iff_eq] at hs
        subst hs
        cases hconn
        exact .minors (.single (.dialed hd)) (hnone rfl)
      · rename_i hs
        have hs : sock ≠ invalidSocketHandle := by simpa using hs
        obtain ⟨w₂, hn, he⟩ := Option.map_eq_some_iff.mp hconn
        cases he
        cases hd with
        | noSocket => exact absurd rfl hs
        | refused _ => exact absurd rfl hs
        | made hf => exact .connected hf (hout rfl hs) hn (hsome _ rfl)
    · unfold connect at hconn
      simp only [Bool.not_eq_true] at hi
      simp only [hi, Bool.not_false, if_true] at hconn
      cases hconn
      exact .minors .refl (hnone rfl)

/-- **What a call of the library does.** -/
theorem call_does {op : Call} (h : call cb (k, op) w = some w') : Does cb k w op w' := by
  cases op with
  | initializeManager =>
    cases h
    unfold Client.initializeManager
    rw [World.onMgr_eq]
    dsimp only
    split
    · exact .minors .refl rfl
    · split
      · exact .minors .refl rfl
      · exact .minors (.single .initialized) rfl
  | listen port =>
    cases h
    exact .minors (listen_minors k port w.mgr) rfl
  | stopListen =>
    cases h
    exact .minors (.single .unlistened) rfl
  | connect ip port => exact connect_does h
  | disconnect peer =>
    change disconnect cb k peer w = some w' at h
    unfold disconnect at h
    split at h
    · cases h
      exact .minors .refl rfl
    · rename_i c hc
      obtain ⟨m, hn, ha⟩ := Option.bind_eq_some_iff.mp h
      exact .disconnected ⟨hc, m, hn, ha⟩
  | setAutoReconnect peer enable b x =>
    cases h
    exact .minors (setAutoReconnect_minor peer enable b x w.mgr).to_reflTransGen rfl
  | sendPacket peer data =>
    cases h
    exact .minors (sendPacket_minor k peer data w.mgr).to_reflTransGen rfl
  | readPacket peer buffer bufferSize =>
    cases h
    exact .minors (readPacket_pops peer buffer bufferSize w.mgr).minor.to_reflTransGen rfl
  | processEvents =>
    change processEvents cb k w = some w' at h
    by_cases hi : w.mgr.mInitialized = true
    · exact .processed hi h
    · have hp : processEvents cb k w = some w := processEvents_uninitialized (by simpa using hi)
      rw [hp] at h
      cases h
      exact .minors .refl (by simp [allocations, hp])
  | shutdown =>
    cases h
    exact .shutdown

/-! ## The rule for `processEvents` -/

theorem attemptReconnects_rule {P : World υ → Prop}
    (hclock : P (w.onMgr (·.log (.clock (k.nowMs w.mgr.trace.length)))))
    (hredial : ∀ v v', P v → Redial cb k (k.nowMs w.mgr.trace.length) v v' → P v')
    (h : attemptReconnects cb k w = some w') : P w' := by
  have hr := attemptReconnects_redials h
  clear h
  induction hr with
  | refl => exact hclock
  | tail _ hs ih => exact hredial _ _ ih hs

/-- The state in which a call of `processEvents` comes to `removeDisconnected`. -/
def beforeRemoval (cb : Callback υ) (k : Kernel) (w : World υ) : Option (World υ) :=
  if !w.mgr.mInitialized then none
  else (attemptReconnects cb k w).bind fun w₁ =>
    (acceptNewConnections cb k w₁).map (·.onMgr (served k))

theorem beforeRemoval_cases {v : World υ} (h : beforeRemoval cb k w = some v) :
    w.mgr.mInitialized = true ∧ ∃ w₁ w₂, attemptReconnects cb k w = some w₁ ∧
      acceptNewConnections cb k w₁ = some w₂ ∧ v = w₂.onMgr (served k) := by
  unfold beforeRemoval at h
  split at h
  · cases h
  · rename_i hi
    obtain ⟨w₁, h₁, h⟩ := Option.bind_eq_some_iff.mp h
    obtain ⟨w₂, h₂, rfl⟩ := Option.map_eq_some_iff.mp h
    exact ⟨by simpa using hi, w₁, w₂, h₁, h₂, rfl⟩

/-- The induction rule for what comes before `removeDisconnected`. -/
theorem beforeRemoval_rule {v : World υ} {P : World υ → Prop}
    (hfirst : ∀ w₁, attemptReconnects cb k w = some w₁ → P w₁)
    (henter : ∀ h ip port v v', P v → Admits cb k h ip port v v' →
      HandsOut cb k w h ip port .processEvents (v.mgr.log (.accept h)) → P v')
    (hselect : ∀ v, P v → P (v.onMgr (·.log .select)))
    (hserve : ∀ v m, P v → Serve k v.mgr m → P { v with mgr := m })
    (h : beforeRemoval cb k w = some v) : P v := by
  obtain ⟨hi, w₁, w₂, h₁, h₂, rfl⟩ := beforeRemoval_cases h
  have hP : P w₂ := acceptNewConnections_rule (P := P)
    (fun h ip port v v' hat hv hadm =>
      henter h ip port v v' hv hadm (.accept hi h₁ hat hadm.1 hadm.2.1)) (hfirst w₁ h₁) h₂
  rcases served_serves (k := k) w₂.mgr with he | hs
  · rw [World.onMgr, he]
    exact hP
  · rw [World.onMgr]
    generalize served k w₂.mgr = m at hs
    induction hs with
    | refl => exact hselect _ hP
    | @tail b c _ hs ih => exact hserve { w₂ with mgr := b } c ih hs

theorem processEvents_beforeRemoval (hi : w.mgr.mInitialized = true)
    (h : processEvents cb k w = some w') : ∃ v v', beforeRemoval cb k w = some v ∧
      removeDisconnected cb k v = some v' ∧ attemptReconnects cb k v' = some w' := by
  rw [processEvents_eq hi] at h
  obtain ⟨w₁, h₁, h⟩ := Option.bind_eq_some_iff.mp h
  obtain ⟨w₂, h₂, h⟩ := Option.bind_eq_some_iff.mp h
  obtain ⟨w₃, h₃, h⟩ := Option.bind_eq_some_iff.mp h
  refine ⟨_, w₃, ?_, h₃, h⟩
  rw [beforeRemoval, if_neg (by simp [hi]), h₁, Option.bind_some, h₂, Option.map_some]

/-- **The induction rule**: `P` holds while connections are accepted and served,
`R` during the removals, and what the last attempts make of that is `Q`. -/
theorem processEvents_rule {P Q : World υ → Prop} {R : List PeerID → World υ → Prop}
    (hfirst : ∀ w₁, attemptReconnects cb k w = some w₁ → P w₁)
    (henter : ∀ h ip port v v', P v → Admits cb k h ip port v v' →
      HandsOut cb k w h ip port .processEvents (v.mgr.log (.accept h)) → P v')
    (hselect : ∀ v, P v → P (v.onMgr (·.log .select)))
    (hserve : ∀ v m, P v → Serve k v.mgr m → P { v with mgr := m })
    (hbegin : ∀ v, P v → R v.mgr.removals (v.onMgr fun m => m.setPending m.removals))
    (habsent : ∀ peer rest v, R (peer :: rest) v → v.mgr.mConnections.lookup peer = none → R rest v)
    (hlost : ∀ peer rest c v v', R (peer :: rest) v → Loses cb k peer c v v' →
      v'.mgr.mPendingRemove = v.mgr.mPendingRemove → R rest v')
    (hlast : ∀ v v', R [] v → attemptReconnects cb k (v.onMgr (·.setPending [])) = some v' → Q v')
    (hi : w.mgr.mInitialized = true) (h : processEvents cb k w = some w') : Q w' := by
  obtain ⟨v, v', hclean, hrem, hagain⟩ := processEvents_beforeRemoval hi h
  have hP : P v := beforeRemoval_rule hfirst henter hselect hserve hclean
  obtain ⟨v₁, hr, rfl⟩ := removeDisconnected_removal hrem
  exact hlast v₁ w' (hr.invariant habsent hlost (hbegin v hP)) hagain

end IsaacP2P.Client
