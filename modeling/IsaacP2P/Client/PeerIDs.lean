import IsaacP2P.Client.Settled

/-!
# Peer IDs

`connect` and `acceptNewConnections` take the next value of a 32-bit counter for
an ID, whatever it is. `Numbered n` is the state of the counter and the table
after `n` IDs have been handed out: until the counter wraps, all keys lie below
it. So the IDs of a run are valid and new as long as there are at most
`2 ^ 32 - 1` of them, and no longer (`ids_proper_iff`).
-/

namespace IsaacP2P.Client

variable {υ : Type} {cb : Callback υ} {k : Kernel} {w w' : World υ} {m m' : Manager} {peer : PeerID}
  {s : SocketHandle} {ip : Text} {port : UInt16}
  {g : Guard}

/-! ## Changes of the counter and of the keys -/

/-- No ID is handed out. -/
structure SameIDs (m m' : Manager) : Prop where
  counter : m'.mNextPeerID = m.mNextPeerID
  accepts : accepts m'.trace = accepts m.trace
  keys : ∀ p ∈ m'.mConnections, p ∈ m.mConnections

theorem SameIDs.refl (m : Manager) : SameIDs m m := ⟨rfl, rfl, fun _ hp => hp⟩

theorem SameIDs.trans {m'' : Manager} (h : SameIDs m m') (h' : SameIDs m' m'') : SameIDs m m'' :=
  ⟨h'.counter.trans h.counter, h'.accepts.trans h.accepts, fun p hp => h.keys p (h'.keys p hp)⟩

theorem Altered.keys (h : Altered m m') (p : PeerID) (hp : p ∈ m'.mConnections) :
    p ∈ m.mConnections := by
  rcases h p with ⟨-, hno⟩ | ⟨c, -, hc, -, -⟩
  · exact absurd hp (AList.lookup_eq_none.mp hno)
  · exact AssocList.mem_of_lookup hc

theorem accepts_cons {e : Ev} (he : e.isAccept = false) (tr : List Ev) :
    accepts (e :: tr) = accepts tr := by
  simp [accepts, he]

theorem accepts_append {new : List Ev} (h : ∀ e ∈ new, e.isAccept = false) (tr : List Ev) :
    accepts (new ++ tr) = accepts tr := by
  induction new with
  | nil => rfl
  | cons e new ih =>
    rw [List.cons_append, accepts_cons (h e (List.mem_cons_self ..))]
    exact ih fun e he => h e (List.mem_cons_of_mem _ he)

theorem Ev.minor_isAccept {e : Ev} (h : e.minor = true) : e.isAccept = false := by
  cases e <;> first | rfl | cases h

theorem closeSocket_sameIDs (h : SocketHandle) (m : Manager) : SameIDs m (m.closeSocket h) := by
  unfold Manager.closeSocket
  split
  · exact ⟨rfl, rfl, fun _ hp => hp⟩
  · exact .refl m

theorem Minor.sameIDs (h : Minor m m') : SameIDs m m' := by
  obtain ⟨new, ht, hnew⟩ := h.events
  refine ⟨?_, ?_, h.altered.keys⟩
  · cases h with
    | dialed hd => cases hd <;> rfl
    | unlistened => rw [stopListen_eq]
    | _ => rfl
  · rw [ht]
    exact accepts_append (fun e he => Ev.minor_isAccept (hnew e he)) m.trace

theorem Minors.sameIDs (h : Minors m m') : SameIDs m m' := by
  induction h with
  | refl => exact .refl m
  | tail _ hs ih => exact ih.trans hs.sameIDs

theorem noted_sameIDs (event : ConnectionEvent) (m : Manager) : SameIDs m (m.noted peer event) := by
  unfold Manager.noted
  split
  · exact ⟨rfl, rfl, fun _ hp => hp⟩
  · exact .refl m

theorem notify_sameIDs (hcb : Leaf cb) {event : ConnectionEvent}
    (h : notifyConnectionEvent cb k peer event w = some w') : SameIDs w.mgr w'.mgr :=
  (noted_sameIDs event w.mgr).trans (notify_pokes hcb h).minors.sameIDs

theorem setConn_sameIDs (c : Connection) (m : Manager) : SameIDs m (m.setConn peer c) :=
  ⟨rfl, rfl, fun _ hp => AList.mem_replace.mp hp⟩

/-- IDs are handed out where connections are entered, and nowhere else. -/
theorem Step.sameIDs (hg : ∀ m, ¬ g.enters m) (h : Step g m m') : SameIDs m m' := by
  cases h with
  | minor hm => exact hm.sameIDs
  | entered _ _ hE => exact absurd hE (hg _)
  | @reconnected peer c s now _ _ _ _ =>
    have hlog : SameIDs m (m.log (.socket s)) := ⟨rfl, rfl, fun _ hp => hp⟩
    exact (hlog.trans (setConn_sameIDs _ _)).trans (noted_sameIDs _ _)
  | @tornDown peer c _ _ =>
    exact ((closeSocket_sameIDs c.socket m).trans (setConn_sameIDs _ _)).trans (noted_sameIDs _ _)
  | scheduled _ _ _ _ => exact setConn_sameIDs _ m
  | erased _ _ => exact ⟨rfl, rfl, fun _ hp => (AList.mem_erase.mp hp).2⟩
  | pending _ => exact ⟨rfl, rfl, fun _ hp => hp⟩

theorem Steps.sameIDs (hg : ∀ m, ¬ g.enters m) (h : Steps g m m') : SameIDs m m' :=
  h.invariant (fun _ _ hm hs => hm.trans (hs.sameIDs hg)) (.refl m)

theorem attemptReconnects_sameIDs (hcb : Leaf cb) (h : attemptReconnects cb k w = some w') :
    SameIDs w.mgr w'.mgr :=
  (attemptReconnects_steps (g := { enters := fun _ => False }) hcb (fun _ _ => trivial) h).sameIDs
    fun _ => id

theorem Loses.sameIDs (hcb : Leaf cb) {c : Connection} (h : Loses cb k peer c w w') :
    SameIDs w.mgr w'.mgr :=
  (h.steps (g := { enters := fun _ => False }) hcb trivial).sameIDs fun _ => id

theorem Removal.sameIDs (hcb : Leaf cb) {ids : List PeerID} (h : Removal cb k ids w w') :
    SameIDs w.mgr w'.mgr :=
  h.invariant (P := fun _ v => SameIDs w.mgr v.mgr) (fun _ _ _ hv _ => hv)
    (fun _ _ _ _ _ hv hl _ => hv.trans (hl.sameIDs hcb)) (.refl _)

theorem Serves.sameIDs (h : Serves k m m') : SameIDs m m' := by
  induction h with
  | refl => exact .refl m
  | tail _ hs ih => exact ih.trans hs.minors.sameIDs

theorem shutdown_sameIDs (m : Manager) : SameIDs m (shutdown m) := by
  have hfold : ∀ (es : List (Sigma fun _ : PeerID => Connection)) (m : Manager),
      SameIDs m (es.foldl (fun m e => m.closeSocket e.2.socket) m) := by
    intro es
    induction es with
    | nil => exact .refl
    | cons e es ih => exact fun m => (closeSocket_sameIDs e.2.socket m).trans (ih _)
  unfold shutdown
  split
  · exact .refl m
  · have h := (Minor.unlistened (m := m)).sameIDs.trans (hfold (stopListen m).mConnections.entries _)
    exact ⟨h.counter, h.accepts, fun _ hp => by simp at hp⟩

/-! ## The counter -/

/-- After `n` IDs: the counter, and the keys as long as it has not wrapped. -/
structure Numbered (n : Nat) (m : Manager) : Prop where
  counter : m.mNextPeerID = UInt32.ofNat (n + 1)
  keys : n < 2 ^ 32 → ∀ p ∈ m.mConnections, 0 < p.toNat ∧ p.toNat ≤ n

theorem Numbered.same {n : Nat} (h : Numbered n m) (hs : SameIDs m m') : Numbered n m' :=
  ⟨hs.counter.trans h.counter, fun hn p hp => h.keys hn p (hs.keys p hp)⟩

theorem Numbered.toNat_next {n : Nat} (h : Numbered n m) (hn : n + 1 < 2 ^ 32) :
    m.mNextPeerID.toNat = n + 1 := by
  rw [h.counter, UInt32.toNat_ofNat', Nat.mod_eq_of_lt hn]

theorem Numbered.enter {n : Nat} (h : Numbered n m) : Numbered (n + 1) (m.enter s ip port) where
  counter := by
    rw [Manager.enter_mNextPeerID, h.counter]
    exact (UInt32.ofNat_add _ _).symm
  keys hn p hp := by
    have hkeys := h.keys (by omega)
    rw [Manager.enter_mConnections] at hp
    split at hp
    · have := hkeys p hp
      omega
    · rcases (AList.mem_insert _).mp hp with rfl | hp
      · rw [h.toNat_next hn]
        omega
      · have := hkeys p hp
        omega

/-- The new ID is valid and nobody's, and its entry holds the socket. -/
def Proper (m : Manager) (s : SocketHandle) (ip : Text) (port : UInt16) : Prop :=
  m.mNextPeerID ≠ invalidPeerID ∧ m.mNextPeerID ∉ m.mConnections ∧
    ∃ c, (m.enter s ip port).mConnections.lookup m.mNextPeerID = some c ∧ c.socket = s

theorem enter_lookup_self (hnew : m.mNextPeerID ∉ m.mConnections) :
    (m.enter s ip port).mConnections.lookup m.mNextPeerID =
      some (.made s m.mNextPeerID ip port) := by
  rw [Manager.enter_mConnections, if_neg hnew, AList.lookup_insert]

theorem Numbered.not_mem {n : Nat} (h : Numbered n m) (hn : n + 1 < 2 ^ 32) :
    m.mNextPeerID ∉ m.mConnections := by
  intro hmem
  have hk := h.keys (by omega) _ hmem
  rw [h.toNat_next hn] at hk
  omega

/-- Until the counter wraps an ID is proper; the one at which it wraps is not. -/
theorem Numbered.proper_iff {n : Nat} (h : Numbered n m) (hn : n < 2 ^ 32) :
    Proper m s ip port ↔ n + 1 < 2 ^ 32 := by
  constructor
  · intro hp
    by_contra hlt
    apply hp.1
    rw [h.counter, show n + 1 = 2 ^ 32 by omega]
    rfl
  · intro hlt
    refine ⟨fun h0 => ?_, h.not_mem hlt, _, enter_lookup_self (h.not_mem hlt), rfl⟩
    have := h.toNat_next hlt
    rw [h0] at this
    exact absurd this (by simp [invalidPeerID])

/-! ## What a call hands out -/

/-- `n` IDs have been handed out more than before `w`. -/
def Counted (n : Nat) (w v : World υ) : Prop :=
  ∃ j, accepts v.mgr.trace = accepts w.mgr.trace + j ∧ Numbered (n + j) v.mgr

theorem Counted.same {n : Nat} {v v' : World υ} (h : Counted n w v) (hs : SameIDs v.mgr v'.mgr) :
    Counted n w v' := by
  obtain ⟨j, hj, hn⟩ := h
  exact ⟨j, hs.accepts.trans hj, hn.same hs⟩

theorem Admits.counts (hcb : Leaf cb) (h : Admits cb k s ip port w w') :
    accepts w'.mgr.trace = accepts w.mgr.trace + 1 ∧
      ∀ n, Numbered n w.mgr → Numbered (n + 1) w'.mgr := by
  have hs := notify_sameIDs hcb h.2.2
  have hlog : SameIDs ((w.mgr.log (.accept s)).enter s ip port) w'.mgr := hs
  refine ⟨?_, fun n hn => ?_⟩
  · rw [hlog.accepts, Manager.enter_trace]
    exact List.countP_cons_of_pos rfl
  · have hn' : Numbered n (w.mgr.log (.accept s)) := ⟨hn.counter, hn.keys⟩
    exact hn'.enter.same hlog

theorem Admits.counted (hcb : Leaf cb) {n : Nat} {v v' : World υ}
    (h : Admits cb k s ip port v v') (hv : Counted n w v) : Counted n w v' := by
  obtain ⟨j, hj, hn⟩ := hv
  obtain ⟨hacc, hnext⟩ := h.counts hcb
  exact ⟨j + 1, by omega, hnext _ hn⟩

theorem processEvents_counted (hcb : Leaf cb) {n : Nat} (hn : Numbered n w.mgr)
    (hi : w.mgr.mInitialized = true) (h : processEvents cb k w = some w') : Counted n w w' := by
  have hstart : Counted n w w := ⟨0, rfl, hn⟩
  refine processEvents_rule (P := Counted n w) (R := fun _ => Counted n w) (Q := Counted n w)
    ?_ ?_ ?_ ?_ ?_ ?_ ?_ ?_ hi h
  · exact fun _ ha => hstart.same (attemptReconnects_sameIDs hcb ha)
  · exact fun _ _ _ _ _ hv ha _ => ha.counted hcb hv
  · exact fun _ hv => hv.same ⟨rfl, rfl, fun _ hp => hp⟩
  · exact fun _ _ hv hs => hv.same hs.minors.sameIDs
  · exact fun _ hv => hv.same ⟨rfl, rfl, fun _ hp => hp⟩
  · exact fun _ _ _ hv _ => hv
  · exact fun _ _ _ _ _ hv hl _ => hv.same (hl.sameIDs hcb)
  · intro v v' hv ha
    have hv' : Counted n w (v.onMgr (·.setPending [])) := hv.same ⟨rfl, rfl, fun _ hp => hp⟩
    exact hv'.same (attemptReconnects_sameIDs hcb ha)

theorem call_numbered (hcb : Leaf cb) {i : Kernel × Call} {n : Nat} (hn : Numbered n w.mgr)
    (h : call cb i w = some w') : Numbered (n + allocations cb i w) w'.mgr := by
  obtain ⟨k, op⟩ := i
  cases call_does h with
  | minors hm h0 =>
    rw [h0]
    exact hn.same hm.sameIDs
  | @connected s ip port _ _ _ hconn h1 =>
    rw [h1]
    have hn' : Numbered n (w.mgr.log (.socket s)) := ⟨hn.counter, hn.keys⟩
    exact hn'.enter.same (notify_sameIDs hcb hconn)
  | disconnected hl => exact hn.same (hl.sameIDs hcb)
  | processed hi hp =>
    obtain ⟨j, hj, hnj⟩ := processEvents_counted hcb hn hi hp
    have hj' : allocations cb (k, .processEvents) w = j := by
      simp only [allocations, hp]
      omega
    rwa [hj']
  | shutdown => exact hn.same (shutdown_sameIDs w.mgr)

/-! ## The moments at which an ID is handed out -/

theorem Accepting.counted (hcb : Leaf cb) {n : Nat} {calls : List (SocketHandle × Text × UInt16)}
    {v v' : World υ} (h : Accepting cb k s ip port calls v v') (hv : Counted n w v) :
    Counted n w v' := by
  induction h with
  | here => exact hv
  | later ha _ ih => exact ih (ha.counted hcb hv)

theorem Accepting.listening {calls : List (SocketHandle × Text × UInt16)} {v : World υ}
    (h : Accepting cb k s ip port calls w v) (hv : v.mgr.mListenSocket ≠ invalidSocketHandle) :
    w.mgr.mListenSocket ≠ invalidSocketHandle := by
  cases h with
  | here => exact hv
  | later ha _ => exact ha.1

/-- A loop that comes to a connection goes on from there. -/
theorem Accepting.continues {calls : List (SocketHandle × Text × UInt16)} {v : World υ}
    (h : Accepting cb k s ip port calls w v) (hloop : acceptLoop cb k calls w = some w') :
    ∃ rest, acceptLoop cb k ((s, ip, port) :: rest) v = some w' := by
  induction h with
  | here => exact ⟨_, hloop⟩
  | @later h' ip' port' rest w₀ w₁ m ha _ ih =>
    obtain ⟨hl, hf, hn⟩ := ha
    apply ih
    unfold acceptLoop at hloop
    rw [if_neg (by simp [hl, hf])] at hloop
    obtain ⟨w₂, hn₂, hloop⟩ := Option.bind_eq_some_iff.mp hloop
    have hsame : w₂ = w₁ := Option.some.inj (hn₂.symm.trans hn)
    rwa [hsame] at hloop

theorem acceptLoop_accepts_lt (hcb : Leaf cb) {rest : List (SocketHandle × Text × UInt16)}
    (hl : w.mgr.mListenSocket ≠ invalidSocketHandle) (hf : w.mgr.free s = true)
    (h : acceptLoop cb k ((s, ip, port) :: rest) w = some w') :
    accepts w.mgr.trace < accepts w'.mgr.trace := by
  unfold acceptLoop at h
  rw [if_neg (by simp [hl, hf])] at h
  obtain ⟨w₁, hn, h⟩ := Option.bind_eq_some_iff.mp h
  have hadm : Admits cb k s ip port w w₁ := ⟨hl, hf, hn⟩
  have hle : accepts w₁.mgr.trace ≤ accepts w'.mgr.trace :=
    acceptLoop_rule (P := fun v => accepts w₁.mgr.trace ≤ accepts v.mgr.trace)
      (fun _ _ _ _ _ _ hv ha => by have := (ha.counts hcb).1; omega) (Nat.le_refl _) h
  have := (hadm.counts hcb).1
  omega

/-- The ID is the one `connect` stores and reports, for the entry it makes. -/
theorem connect_reports (hi : w.mgr.mInitialized = true)
    (hd : connectWithTimeout k ip w.mgr = (s, m)) (hs : s ≠ invalidSocketHandle) :
    connect cb k (some ip) port w = (notifyConnectionEvent cb k m.mNextPeerID .connected
      { w with mgr := m.enter s ip port }).map (some m.mNextPeerID, ·) := by
  unfold Client.connect
  have hvalid : (s == invalidSocketHandle) = false := by simpa using hs
  simp only [hi, hd, hvalid, Bool.not_true, Bool.false_eq_true, if_false]
  rfl

theorem HandsOut.numbered (hcb : Leaf cb) {op : Call} {n : Nat} (hn : Numbered n w.mgr)
    (h : HandsOut cb k w s ip port op m) (hc : call cb (k, op) w = some w') :
    ∃ j, Numbered (n + j) m ∧ j + 1 ≤ allocations cb (k, op) w := by
  cases h with
  | connect hi hd hs =>
    refine ⟨0, ?_, ?_⟩
    · have hdials := connectWithTimeout_dials k ip w.mgr
      rw [hd] at hdials
      obtain ⟨-, rfl⟩ : _ ∧ m = w.mgr.log (.socket s) := hdials.of_valid hs
      exact hn.same ⟨rfl, rfl, fun _ hp => hp⟩
    · obtain ⟨⟨out, w₁⟩, hconn, -⟩ := Option.map_eq_some_iff.mp hc
      have hout := hconn
      rw [connect_reports hi hd hs] at hout
      obtain ⟨w₂, -, he⟩ := Option.map_eq_some_iff.mp hout
      cases he
      simp only [allocations, hconn]
      omega
  | @accept w₁ v hi ha hat hl hf =>
    have hp : processEvents cb k w = some w' := hc
    obtain ⟨w₁', w₂, m', w₃, hph⟩ := processEvents_phases hi hp
    obtain rfl : w₁ = w₁' := Option.some.inj (ha.symm.trans hph.redials)
    obtain ⟨j, hj, hnj⟩ := hat.counted hcb
      (Counted.same ⟨0, rfl, hn⟩ (attemptReconnects_sameIDs hcb ha))
    refine ⟨j, ⟨hnj.counter, hnj.keys⟩, ?_⟩
    -- the loop is entered, since it comes to this connection
    have hloop : acceptLoop cb k (k.accept w₁.mgr.trace.length) w₁ = some w₂ := by
      have hl₁ := hat.listening hl
      have := hph.accepts
      unfold acceptNewConnections at this
      rwa [if_neg (by simpa using hl₁)] at this
    obtain ⟨rest, hrest⟩ := hat.continues hloop
    have hlt := acceptLoop_accepts_lt hcb hl hf hrest
    have hserve : SameIDs w₂.mgr m' := by
      rcases hph.serves with rfl | hs
      · exact .refl _
      · have hlog : SameIDs w₂.mgr (w₂.mgr.log .select) := ⟨rfl, rfl, fun _ hp => hp⟩
        exact hlog.trans hs.sameIDs
    have hend : accepts w'.mgr.trace = accepts w₂.mgr.trace :=
      (attemptReconnects_sameIDs hcb hph.again).accepts.trans
        ((hph.removal.sameIDs hcb).accepts.trans hserve.accepts)
    simp only [allocations, hp]
    omega

/-! ## Runs -/

/-- Every ID the call hands out is proper. -/
def HandsProper (cb : Callback υ) (i : Kernel × Call) (w : World υ) : Prop :=
  ∀ s ip port m, HandsOut cb i.1 w s ip port i.2 m → Proper m s ip port

theorem call_proper_iff (hcb : Leaf cb) {i : Kernel × Call} {n : Nat} (hn : Numbered n w.mgr)
    (hlt : n < 2 ^ 32) (h : call cb i w = some w') :
    HandsProper cb i w ↔ n + allocations cb i w < 2 ^ 32 := by
  obtain ⟨k, op⟩ := i
  constructor
  · intro hp
    cases call_does h with
    | minors _ h0 => omega
    | @connected s _ _ _ _ hho _ h1 =>
      have hn' : Numbered n (w.mgr.log (.socket s)) := ⟨hn.counter, hn.keys⟩
      rw [h1]
      exact (hn'.proper_iff hlt).mp (hp _ _ _ _ hho)
    | disconnected _ => exact hlt
    | processed hi hpe =>
      let P : World υ → Prop := fun v => ∃ j, accepts v.mgr.trace = accepts w.mgr.trace + j ∧
        Numbered (n + j) v.mgr ∧ n + j < 2 ^ 32
      have hsame : ∀ v v' : World υ, P v → SameIDs v.mgr v'.mgr → P v' := by
        rintro v v' ⟨j, hj, hnj, hlt⟩ hs
        exact ⟨j, hs.accepts.trans hj, hnj.same hs, hlt⟩
      have hstart : P w := ⟨0, rfl, hn, hlt⟩
      have hend : P w' := by
        refine processEvents_rule (P := P) (R := fun _ => P) (Q := P)
          ?_ ?_ ?_ ?_ ?_ ?_ ?_ ?_ hi hpe
        · exact fun _ ha => hsame _ _ hstart (attemptReconnects_sameIDs hcb ha)
        · rintro s ip port v v' ⟨j, hj, hnj, hlt⟩ hadm hho
          have hlog : Numbered (n + j) (v.mgr.log (.accept s)) := ⟨hnj.counter, hnj.keys⟩
          have hnext := (hlog.proper_iff hlt).mp (hp _ _ _ _ hho)
          obtain ⟨hacc, hcount⟩ := hadm.counts hcb
          exact ⟨j + 1, by omega, hcount _ hnj, hnext⟩
        · exact fun _ hv => hsame _ _ hv ⟨rfl, rfl, fun _ hp => hp⟩
        · exact fun _ _ hv hs => hsame _ _ hv hs.minors.sameIDs
        · exact fun _ hv => hsame _ _ hv ⟨rfl, rfl, fun _ hp => hp⟩
        · exact fun _ _ _ hv _ => hv
        · exact fun _ _ _ _ _ hv hl _ => hsame _ _ hv (hl.sameIDs hcb)
        · intro v v' hv ha
          have hv' : P (v.onMgr (·.setPending [])) := hsame _ _ hv ⟨rfl, rfl, fun _ hp => hp⟩
          exact hsame _ _ hv' (attemptReconnects_sameIDs hcb ha)
      obtain ⟨j, hj, -, hlt⟩ := hend
      simp only [allocations, hpe]
      omega
    | shutdown => exact hlt
  · intro hsum s ip port m hho
    obtain ⟨j, hnj, hle⟩ := HandsOut.numbered hcb hn hho h
    dsimp only at hle
    exact (hnj.proper_iff (by omega)).mpr (by omega)

theorem run_proper_iff (hcb : Leaf cb) {is : List (Kernel × Call)} {n : Nat}
    (hn : Numbered n w.mgr) (hlt : n < 2 ^ 32) (h : Runs.run (call cb) is w = some w') :
    Runs.Meets (call cb) (HandsProper cb) is w ↔ n + allocated cb is w < 2 ^ 32 := by
  induction is generalizing w n with
  | nil => exact ⟨fun _ => hlt, fun _ => trivial⟩
  | cons i is ih =>
    obtain ⟨m, hm, hr⟩ := Runs.run_cons_iff.mp h
    have hone := call_proper_iff hcb hn hlt hm
    simp only [Runs.Meets, allocated, hm, Option.some.injEq, forall_eq']
    constructor
    · rintro ⟨hp, hrest⟩
      have := (ih (call_numbered hcb hn hm) (hone.mp hp) hr).mp hrest
      omega
    · intro hsum
      have hlt' : n + allocations cb i w < 2 ^ 32 := by omega
      exact ⟨hone.mpr hlt', (ih (call_numbered hcb hn hm) hlt' hr).mpr (by omega)⟩

theorem fresh_numbered (callback : Bool) (user : υ) : Numbered 0 (fresh callback user).mgr :=
  ⟨rfl, fun _ p hp => by simp [fresh] at hp⟩

/-- **Peer IDs are valid and unique in a run if and only if it hands out fewer
than `2 ^ 32` of them.** -/
theorem ids_proper_iff (hcb : Leaf cb) {callback : Bool} {user : υ} {is : List (Kernel × Call)}
    (h : Runs.run (call cb) is (fresh callback user) = some w) :
    Runs.Meets (call cb) (HandsProper cb) is (fresh callback user) ↔
      allocated cb is (fresh callback user) < 2 ^ 32 := by
  have := run_proper_iff hcb (fresh_numbered callback user) (by omega) h
  rwa [Nat.zero_add] at this

/-! ## The wrap -/

def ignore : Callback Unit := fun _ _ _ w => some w

theorem ignore_mute : Mute ignore := fun _ _ _ w => ⟨w.user, rfl⟩

/-- Every `socket()` returns the handle 7. -/
def oneSocket : Kernel := { socket := fun _ => 7 }

/-- `n` times a peer is connected and disconnected again. -/
def comeAndGo (n : Nat) : List (Kernel × Call) :=
  (oneSocket, .initializeManager) :: (List.range n).flatMap fun i =>
    [(oneSocket, .connect (some ['h']) 1), (oneSocket, .disconnect (UInt32.ofNat (i + 1)))]

/-- Nobody is connected, and the next ID is `id`. -/
def idle (id : PeerID) (tr : List Ev) : World Unit :=
  { mgr := { mInitialized := true, mNextPeerID := id, trace := tr }, user := () }

/-- The peer `id` is connected. -/
def busy (id : PeerID) (tr : List Ev) : World Unit :=
  { mgr :=
      { mInitialized := true
        mNextPeerID := id + 1
        mConnections := (∅ : AList fun _ : PeerID => Connection).insert id (.made 7 id ['h'] 1)
        trace := .socket 7 :: tr }
    user := () }

section

variable {id : PeerID} {tr : List Ev} (htr : isOpen 7 tr = false)
include htr

theorem idle_dials :
    connectWithTimeout oneSocket ['h'] (idle id tr).mgr = (7, (idle id tr).mgr.log (.socket 7)) := by
  have hf : (idle id tr).mgr.free 7 = true := by
    rw [Manager.free, idle, htr]
    rfl
  have ho : (idle id tr).mgr.openSocket oneSocket = (7, (idle id tr).mgr.log (.socket 7)) :=
    if_pos hf
  simp only [connectWithTimeout, ho]
  rfl

theorem idle_connect :
    call ignore (oneSocket, .connect (some ['h']) 1) (idle id tr) = some (busy id tr) := by
  unfold call connect
  simp only [idle_dials htr]
  rfl

omit htr in
theorem busy_disconnect :
    call ignore (oneSocket, .disconnect id) (busy id tr) =
      some (idle (id + 1) (.close 7 :: .socket 7 :: tr)) := by
  let c := Connection.made 7 id ['h'] 1
  let torn := (busy id tr).onMgr fun m => (m.log (.close 7)).setConn id c.down
  have hc : (busy id tr).mgr.mConnections.lookup id = some c := AList.lookup_insert _
  have hdown : torn.mgr.mConnections.lookup id = some c.down := Manager.setConn_lookup_self hc
  have hd : call ignore (oneSocket, .disconnect id) (busy id tr) =
      afterLoss oneSocket id (busy id tr).mgr torn := by
    unfold call disconnect
    simp only [hc]
    rfl
  have hkeys : (busy id tr).mgr.entered torn.mgr = false := by
    refine entered_of_lookup fun p hno => ?_
    have hne : p ≠ id := by
      rintro rfl
      rw [hc] at hno
      cases hno
    exact (AssocList.lookup_replace_ne hne _).trans hno
  rw [hd, afterLoss, hdown]
  show (if (busy id tr).mgr.entered torn.mgr then none else some (torn.onMgr (·.erase id))) = _
  rw [hkeys, if_neg Bool.false_ne_true]
  simp only [torn, World.onMgr, Manager.erase, Manager.setConn, Manager.log, busy, idle,
    AssocList.erase_singleton]

end

theorem comeAndGo_idle (n : Nat) : ∃ tr, isOpen 7 tr = false ∧
    Runs.run (call ignore) (comeAndGo n) (fresh false ()) = some (idle (UInt32.ofNat (n + 1)) tr) := by
  induction n with
  | zero => exact ⟨[], rfl, rfl⟩
  | succ n ih =>
    obtain ⟨tr, htr, hr⟩ := ih
    refine ⟨Ev.close 7 :: Ev.socket 7 :: tr, rfl, ?_⟩
    have hsplit : comeAndGo (n + 1) = comeAndGo n ++ [(oneSocket, .connect (some ['h']) 1),
        (oneSocket, .disconnect (UInt32.ofNat (n + 1)))] := by
      simp [comeAndGo, List.range_succ]
    rw [hsplit, Runs.run_append, hr, Option.bind_some, Runs.run_cons_iff]
    refine ⟨_, idle_connect htr, ?_⟩
    rw [Runs.run_cons_iff]
    refine ⟨_, busy_disconnect, ?_⟩
    rw [Runs.run_nil, UInt32.ofNat_add (n + 1) 1]
    rfl

theorem comeAndGo_proper :
    Runs.Meets (call ignore) (HandsProper ignore) (comeAndGo 1) (fresh false ()) := by
  obtain ⟨tr, -, hr⟩ := comeAndGo_idle 1
  exact (ids_proper_iff ignore_mute.leaf hr).mpr (by decide +kernel)

/-- The ID that is handed out after `2 ^ 32 - 1` others is invalid. -/
theorem comeAndGo_improper : ∃ is w i, Runs.run (call ignore) is (fresh false ()) = some w ∧
    ¬ HandsProper ignore i w := by
  obtain ⟨tr, htr, hr⟩ := comeAndGo_idle (2 ^ 32 - 1)
  refine ⟨_, _, (oneSocket, .connect (some ['h']) 1), hr, fun hp => ?_⟩
  have := hp 7 ['h'] 1 _ (.connect rfl (idle_dials htr) (by decide))
  exact this.1 rfl

end IsaacP2P.Client
