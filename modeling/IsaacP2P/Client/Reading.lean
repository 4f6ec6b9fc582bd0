import IsaacP2P.Client.Receiving
import IsaacP2P.Client.Unread

/-!
# Reading packets

`selected` is the entry a call for a peer reads from. `isPacketAvailable` and
`readPacket` each look for it by themselves; they find the same one
(`isPacketAvailable_selected`, `readPacket_selected`), so that `P2P_ReadPacket`
alone is exact: it returns the packet at the head, or changes nothing
(`p2pReadPacket_exact`).

The hook pumps from a thread of its own, and only the single calls of the
manager exclude each other. `Threads` is the game thread in `P2P_ReadPacket`
beside the pump thread. What `readPacket` takes out of a queue reaches the
caller exactly if it still finds a packet that fits (`reads_lossless_iff`).
-/

namespace IsaacP2P.Client

variable {υ : Type} {m : Manager} {w : World υ} {peer source : PeerID} {c : Connection}
  {packet : Packet} {rest : PacketQueue} {bufferSize : UInt32}

/-! ## The entry a call reads from -/

/-- The entry of `peer`, or the first one with a packet waiting. -/
def selected (peer : PeerID) (m : Manager) : Option (PeerID × Connection) :=
  if peer == invalidPeerID then
    (m.mConnections.entries.find? fun e => !e.2.receiveQueue.isEmpty).map fun e => (e.1, e.2)
  else (m.mConnections.lookup peer).map (peer, ·)

/-- `packet` is the head of the queue selected, which is that of `source`. -/
structure Head (peer : PeerID) (m : Manager) (source : PeerID) (c : Connection) (packet : Packet)
    (rest : PacketQueue) : Prop where
  selected : selected peer m = some (source, c)
  queue : c.receiveQueue = packet :: rest

theorem selected_lookup (h : selected peer m = some (source, c)) :
    m.mConnections.lookup source = some c := by
  unfold selected at h
  split at h
  · obtain ⟨e, he, heq⟩ := Option.map_eq_some_iff.mp h
    cases heq
    exact AList.mem_lookup_iff.mpr (List.mem_of_find?_eq_some he)
  · obtain ⟨d, hd, heq⟩ := Option.map_eq_some_iff.mp h
    cases heq
    exact hd

theorem selected_waiting (h : selected invalidPeerID m = some (source, c)) :
    c.receiveQueue ≠ [] := by
  unfold selected at h
  rw [if_pos (by rfl)] at h
  obtain ⟨e, he, heq⟩ := Option.map_eq_some_iff.mp h
  cases heq
  have hsome := List.find?_some he
  simpa using hsome

theorem firstWaiting_selected (m : Manager) : firstWaiting m =
    (selected invalidPeerID m).bind fun e => (PacketQueue.peek e.2.receiveQueue).map (·, e.1) := by
  unfold firstWaiting selected
  rw [if_pos (by rfl)]
  induction m.mConnections.entries with
  | nil => rfl
  | cons e es ih =>
    cases hq : e.2.receiveQueue with
    | nil =>
      simp only [List.findSome?_cons, List.find?_cons, hq, PacketQueue.peek, Option.map_none,
        List.isEmpty_nil, Bool.not_true]
      exact ih
    | cons packet rest =>
      simp only [List.findSome?_cons, List.find?_cons, hq, PacketQueue.peek, Option.map_some,
        List.isEmpty_cons, Bool.not_false, Option.bind_some]

theorem isPacketAvailable_selected (peer : PeerID) (m : Manager) : isPacketAvailable peer m =
    (selected peer m).bind fun e => (PacketQueue.peek e.2.receiveQueue).map (·, e.1) := by
  unfold isPacketAvailable
  by_cases hp : peer = invalidPeerID
  · subst hp
    rw [if_neg (by simp), firstWaiting_selected]
  · rw [if_pos (by simpa using hp)]
    unfold selected
    rw [if_neg (by simpa using hp)]
    cases m.mConnections.lookup peer <;> rfl

theorem isPacketAvailable_head (h : Head peer m source c packet rest) :
    isPacketAvailable peer m = some (packet.size, source) := by
  rw [isPacketAvailable_selected, h.selected]
  simp only [Option.bind_some, h.queue, PacketQueue.peek, Option.map_some]

theorem isPacketAvailable_some {size : UInt32} (h : isPacketAvailable peer m = some (size, source)) :
    ∃ c packet rest, Head peer m source c packet rest ∧ packet.size = size := by
  rw [isPacketAvailable_selected] at h
  obtain ⟨⟨p, c⟩, hs, h⟩ := Option.bind_eq_some_iff.mp h
  cases hq : c.receiveQueue with
  | nil => rw [hq] at h; cases h
  | cons packet rest =>
    rw [hq] at h
    cases h
    exact ⟨c, packet, rest, ⟨hs, hq⟩, rfl⟩

theorem isPacketAvailable_none (h : isPacketAvailable peer m = none) :
    ¬ Head peer m source c packet rest := by
  intro hh
  rw [isPacketAvailable_head hh] at h
  cases h

/-- Nothing is announced of any connection only if no packet waits. -/
theorem unread_of_unavailable (h : isPacketAvailable invalidPeerID m = none) (peer : PeerID) :
    m.unread peer = [] := by
  cases hc : m.mConnections.lookup peer with
  | none => exact unread_of_none hc
  | some c =>
    rw [unread_of_lookup hc]
    by_contra hne
    have hmem : (⟨peer, c⟩ : (_ : PeerID) × Connection) ∈ m.mConnections.entries :=
      AList.mem_lookup_iff.mp hc
    cases hf : m.mConnections.entries.find? fun e => !e.2.receiveQueue.isEmpty with
    | none =>
      have := List.find?_eq_none.mp hf _ hmem
      exact hne (by simpa using this)
    | some e =>
      have hs : selected invalidPeerID m = some (e.1, e.2) := by
        rw [selected, if_pos (by rfl), hf]
        rfl
      obtain ⟨packet, rest, hq⟩ := List.exists_cons_of_ne_nil (selected_waiting hs)
      exact isPacketAvailable_none h ⟨hs, hq⟩

theorem source_selected (peer : PeerID) (m : Manager) :
    (if peer != invalidPeerID then some peer else (firstWaiting m).map (·.2)).bind
      (fun p => (m.mConnections.lookup p).map (p, ·)) = selected peer m := by
  by_cases hp : peer = invalidPeerID
  · subst hp
    rw [if_neg (by simp), firstWaiting_selected]
    cases hs : selected invalidPeerID m with
    | none => rfl
    | some e =>
      obtain ⟨source, c⟩ := e
      obtain ⟨packet, rest, hq⟩ := List.exists_cons_of_ne_nil (selected_waiting hs)
      simp only [Option.bind_some, hq, PacketQueue.peek, Option.map_some, selected_lookup hs]
  · rw [if_pos (by simpa using hp), selected, if_neg (by simpa using hp)]
    rfl

theorem readPacket_selected (hsize : bufferSize ≠ 0) (peer : PeerID) (m : Manager) :
    readPacket peer true bufferSize m = match selected peer m with
      | none => (none, m)
      | some (source, c) => match c.receiveQueue with
        | [] => (none, m)
        | packet :: rest =>
          (if packet.size > bufferSize then none else some (packet, source),
            m.setConn source { c with receiveQueue := rest }) := by
  rw [← source_selected]
  unfold readPacket
  rw [if_neg (by simpa using hsize)]
  cases (if peer != invalidPeerID then some peer else (firstWaiting m).map (·.2)) with
  | none => rfl
  | some p =>
    simp only [Option.bind_some]
    cases m.mConnections.lookup p with
    | none => rfl
    | some c =>
      simp only [Option.map_some]
      cases c.receiveQueue with
      | nil => rfl
      | cons packet rest =>
        simp only [PacketQueue.pop]
        split <;> rfl

/-- The head of the queue is gone, whether it fits or not. -/
theorem readPacket_takes (hsize : bufferSize ≠ 0) (h : Head peer m source c packet rest) :
    readPacket peer true bufferSize m =
      (if packet.size > bufferSize then none else some (packet, source),
        m.setConn source { c with receiveQueue := rest }) := by
  rw [readPacket_selected hsize, h.selected]
  simp only [h.queue]

/-! ## One thread -/

/-- `memcpy(buffer, packet.data.data(), packet.size())` -/
def copied (packet : Packet) : List UInt8 := packet.take packet.size.toNat

/-- What `P2P_ReadPacket` returns and leaves. -/
inductive Reads (peer : PeerID) (bufferSize : UInt32) (w : World υ) :
    P2PResult × Option (Packet × PeerID) × World υ → Prop where
  | done {source : PeerID} {c : Connection} {packet : Packet} {rest : PacketQueue} :
      Head peer w.mgr source c packet rest → packet.size ≤ bufferSize →
      Reads peer bufferSize w (.ok, some (packet, source),
        w.onMgr (·.setConn source { c with receiveQueue := rest }))
  | empty : (∀ source c packet rest, ¬ Head peer w.mgr source c packet rest) →
      Reads peer bufferSize w (.errorNoPacket, none, w)
  | tooSmall {source : PeerID} {c : Connection} {packet : Packet} {rest : PacketQueue} :
      Head peer w.mgr source c packet rest → bufferSize < packet.size →
      Reads peer bufferSize w (.errorBufferTooSmall, none, w)

theorem p2pReadPacket_reads (hi : w.mgr.mInitialized = true) (hsize : bufferSize ≠ 0) :
    Reads peer bufferSize w (p2pReadPacket peer true bufferSize w) := by
  unfold p2pReadPacket
  rw [if_neg (by simp [hi]), if_neg (by simpa using hsize)]
  cases ha : isPacketAvailable peer w.mgr with
  | none => exact .empty fun _ _ _ _ => isPacketAvailable_none ha
  | some e =>
    obtain ⟨size, source⟩ := e
    obtain ⟨c, packet, rest, hh, rfl⟩ := isPacketAvailable_some ha
    by_cases hbig : packet.size > bufferSize
    · simp only [if_pos hbig]
      exact .tooSmall hh hbig
    · simp only [if_neg hbig, readPacket_takes hsize hh, Option.isNone_some]
      exact .done hh (UInt32.not_lt.mp hbig)

theorem Head.unique {source' : PeerID} {c' : Connection} {packet' : Packet} {rest' : PacketQueue}
    (h : Head peer m source c packet rest) (h' : Head peer m source' c' packet' rest') :
    source = source' ∧ c = c' ∧ packet = packet' ∧ rest = rest' := by
  have hs := h.selected.symm.trans h'.selected
  cases hs
  have hq := h.queue.symm.trans h'.queue
  cases hq
  exact ⟨rfl, rfl, rfl, rfl⟩

theorem p2pReadPacket_done (hi : w.mgr.mInitialized = true) (hsize : bufferSize ≠ 0)
    (hh : Head peer w.mgr source c packet rest) (hfits : packet.size ≤ bufferSize) :
    p2pReadPacket peer true bufferSize w =
      (.ok, some (packet, source), w.onMgr (·.setConn source { c with receiveQueue := rest })) := by
  have hreads : Reads peer bufferSize w (p2pReadPacket peer true bufferSize w) :=
    p2pReadPacket_reads hi hsize
  generalize p2pReadPacket peer true bufferSize w = r at hreads
  cases hreads with
  | done hh' _ =>
    obtain ⟨rfl, rfl, rfl, rfl⟩ := hh.unique hh'
    rfl
  | empty hnone => exact absurd hh (hnone _ _ _ _)
  | tooSmall hh' hbig =>
    obtain ⟨rfl, rfl, rfl, rfl⟩ := hh.unique hh'
    exact absurd hbig (UInt32.not_lt.mpr hfits)

theorem copied_eq (hlen : packet.length < 2 ^ 32) :
    copied packet = packet ∧ packet.size.toNat = packet.length := by
  have hsize : packet.size.toNat = packet.length := by
    rw [Packet.size, UInt32.toNat_ofNat', Nat.mod_eq_of_lt hlen]
  exact ⟨by rw [copied, hsize, List.take_length], hsize⟩

/-- **`P2P_ReadPacket` is exact.** It succeeds if and only if the selected queue
has a packet that fits, and then removes this packet only and returns it with
what `P2P_IsPacketAvailable` reports. Otherwise nothing changes, so that a call
with a buffer that is large enough still gets the packet. -/
theorem p2pReadPacket_exact (hi : w.mgr.mInitialized = true) (hsize : bufferSize ≠ 0) :
    ((p2pReadPacket peer true bufferSize w).1 = .ok ↔
      ∃ source c packet rest, Head peer w.mgr source c packet rest ∧ packet.size ≤ bufferSize) ∧
    (∀ source c packet rest, Head peer w.mgr source c packet rest →
      p2pIsPacketAvailable peer w = some (packet.size, source) ∧
        (packet.length < 2 ^ 32 → copied packet = packet ∧ packet.size.toNat = packet.length) ∧
        ∀ size, size ≠ 0 → packet.size ≤ size → p2pReadPacket peer true size w =
          (.ok, some (packet, source),
            w.onMgr (·.setConn source { c with receiveQueue := rest }))) ∧
    ((p2pReadPacket peer true bufferSize w).1 ≠ .ok →
      ((p2pReadPacket peer true bufferSize w).1 = .errorNoPacket ∨
        (p2pReadPacket peer true bufferSize w).1 = .errorBufferTooSmall) ∧
        (p2pReadPacket peer true bufferSize w).2 = (none, w)) := by
  have hreads : Reads peer bufferSize w (p2pReadPacket peer true bufferSize w) :=
    p2pReadPacket_reads hi hsize
  refine ⟨⟨fun hok => ?_, ?_⟩, ?_, fun hno => ?_⟩
  · generalize p2pReadPacket peer true bufferSize w = r at hreads hok
    cases hreads with
    | done hh hfits => exact ⟨_, _, _, _, hh, hfits⟩
    | empty => cases hok
    | tooSmall => cases hok
  · rintro ⟨source, c, packet, rest, hh, hfits⟩
    rw [p2pReadPacket_done hi hsize hh hfits]
  · intro source c packet rest hh
    refine ⟨?_, copied_eq, fun size hs hfits => p2pReadPacket_done hi hs hh hfits⟩
    rw [p2pIsPacketAvailable, if_neg (by simp [hi]), isPacketAvailable_head hh]
  · generalize p2pReadPacket peer true bufferSize w = r at hreads hno
    cases hreads with
    | done => exact absurd rfl hno
    | empty => exact ⟨.inl rfl, rfl⟩
    | tooSmall => exact ⟨.inr rfl, rfl⟩

/-- Two peers; the second has sent a packet. -/
def oneWaiting : World Unit where
  mgr :=
    { mInitialized := true
      mConnections := (∅ : AList fun _ : PeerID => Connection)
        |>.insert 2 { socket := 11, peerID := 2, connected := true, receiveQueue := [[7]] }
        |>.insert 1 { socket := 10, peerID := 1, connected := true } }
  user := ()

theorem p2pReadPacket_exact_one :
    (p2pReadPacket invalidPeerID true 1 oneWaiting).1 = .ok ∧
      (p2pReadPacket 1 true 1 oneWaiting).2 = (none, oneWaiting) := by
  refine ⟨(p2pReadPacket_exact rfl (by decide)).1.mpr ?_,
    ((p2pReadPacket_exact rfl (by decide)).2.2 (by decide)).2⟩
  exact ⟨2, _, [7], [], ⟨rfl, rfl⟩, by decide⟩

/-! ## Two threads -/

/-- `P2P_ReadPacket` up to its call of `readPacket`: the error it returns, or
`none` when it goes on. -/
def checkRead (peer : PeerID) (buffer : Bool) (bufferSize : UInt32) (w : World υ) :
    Option P2PResult :=
  if !w.mgr.mInitialized then some .errorNotInitialized
  else if !buffer || bufferSize == 0 then some .errorInvalidParam
  else
    match isPacketAvailable peer w.mgr with
    | none => some .errorNoPacket
    | some (packetSize, _) => if packetSize > bufferSize then some .errorBufferTooSmall else none

/-- The rest of `P2P_ReadPacket`. -/
def finishRead (peer : PeerID) (buffer : Bool) (bufferSize : UInt32) (w : World υ) :
    P2PResult × Option (Packet × PeerID) × World υ :=
  let (packet, m) := readPacket peer buffer bufferSize w.mgr
  (if packet.isNone then .errorNoPacket else .ok, packet, { w with mgr := m })

theorem p2pReadPacket_eq (peer : PeerID) (buffer : Bool) (bufferSize : UInt32) (w : World υ) :
    p2pReadPacket peer buffer bufferSize w = match checkRead peer buffer bufferSize w with
      | some error => (error, none, w)
      | none => finishRead peer buffer bufferSize w := by
  unfold p2pReadPacket checkRead
  split
  · rfl
  · split
    · rfl
    · cases isPacketAvailable peer w.mgr with
      | none => rfl
      | some e =>
        dsimp only
        split <;> rfl

structure ReadCall where
  peer : PeerID
  buffer : Bool
  bufferSize : UInt32
  deriving DecidableEq

/-- `reading` is the call that has checked the size and not read yet. -/
structure Threads (υ : Type) where
  world : World υ
  reading : Option ReadCall := none

inductive ThreadStep where
  /-- The pump thread calls `P2P_RunCallbacks`. -/
  | runCallbacks (k : Kernel)
  | check (call : ReadCall)
  | finish

def Threads.step (user : UserCallback υ) : ThreadStep → Threads υ → Option (Threads υ)
  | .runCallbacks k, s => (p2pRunCallbacks user k s.world).map fun w => { s with world := w }
  | .check call, s =>
    if s.reading.isSome then none
    else match checkRead call.peer call.buffer call.bufferSize s.world with
      | some _ => some s
      | none => some { s with reading := some call }
  | .finish, s => s.reading.map fun call =>
    { world := (finishRead call.peer call.buffer call.bufferSize s.world).2.2 }

/-- A step that reads returns with `P2P_OK` what it takes out of the queues. -/
def Lossless : ThreadStep → Threads υ → Prop
  | .finish, s => ∀ call, s.reading = some call →
    let out := finishRead call.peer call.buffer call.bufferSize s.world
    ∀ p, s.world.mgr.unread p =
      (match out with
        | (.ok, some (packet, source), _) => if source = p then [packet] else []
        | _ => []) ++ out.2.2.mgr.unread p
  | _, _ => True

/-- The packet a step is about to read fits into the buffer. -/
def Fits : ThreadStep → Threads υ → Prop
  | .finish, s => ∀ call, s.reading = some call → ∀ source c packet rest,
    Head call.peer s.world.mgr source c packet rest → packet.size ≤ call.bufferSize
  | _, _ => True

/-- The call between its two halves has passed the tests of its arguments. -/
def Threads.Checked (s : Threads υ) : Prop :=
  ∀ call, s.reading = some call → call.buffer = true ∧ call.bufferSize ≠ 0

theorem checkRead_none {buffer : Bool} (h : checkRead peer buffer bufferSize w = none) :
    buffer = true ∧ bufferSize ≠ 0 := by
  unfold checkRead at h
  split at h
  · cases h
  · split at h
    · cases h
    · rename_i hargs
      simpa using hargs

theorem Threads.step_checked {user : UserCallback υ} (i : ThreadStep) (s s' : Threads υ)
    (hs : s.Checked) (h : Threads.step user i s = some s') : s'.Checked := by
  cases i with
  | runCallbacks k =>
    obtain ⟨w', -, rfl⟩ := Option.map_eq_some_iff.mp h
    exact hs
  | check call =>
    simp only [Threads.step] at h
    split at h
    · cases h
    · split at h
      · cases h
        exact hs
      · rename_i hcheck
        cases h
        intro call' hcall
        cases hcall
        exact checkRead_none hcheck
  | finish =>
    obtain ⟨call, -, rfl⟩ := Option.map_eq_some_iff.mp h
    intro call' hcall
    cases hcall

theorem readPacket_nothing (hsize : bufferSize ≠ 0)
    (hnone : ∀ source c packet rest, ¬ Head peer m source c packet rest) :
    readPacket peer true bufferSize m = (none, m) := by
  rw [readPacket_selected hsize]
  cases hs : selected peer m with
  | none => rfl
  | some e =>
    obtain ⟨source, c⟩ := e
    cases hq : c.receiveQueue with
    | nil => simp only [hq]
    | cons packet rest => exact absurd ⟨hs, hq⟩ (hnone source c packet rest)

theorem Head.unread_tail (h : Head peer m source c packet rest) (p : PeerID) :
    m.unread p = (if source = p then [packet] else []) ++
      (m.setConn source { c with receiveQueue := rest }).unread p := by
  have hc := selected_lookup h.selected
  by_cases hp : source = p
  · subst hp
    rw [if_pos rfl, unread_of_lookup hc, unread_of_lookup (Manager.setConn_lookup_self hc), h.queue]
    rfl
  · rw [if_neg hp, List.nil_append]
    unfold Manager.unread
    rw [Manager.setConn_mConnections, AssocList.lookup_replace_ne (Ne.symm hp)]

/-- **One read**: nothing is lost exactly if the packet at the head fits. -/
theorem finish_lossless_iff {s : Threads υ} (hs : s.Checked) :
    Lossless .finish s ↔ Fits .finish s := by
  refine forall_congr' fun call => imp_congr_right fun hcall => ?_
  obtain ⟨hbuffer, hsize⟩ := hs call hcall
  rw [hbuffer]
  by_cases hh : ∃ source c packet rest, Head call.peer s.world.mgr source c packet rest
  · obtain ⟨source, c, packet, rest, hh⟩ := hh
    have hread := readPacket_takes hsize hh
    have hunread := hh.unread_tail
    simp only [finishRead, hread]
    constructor
    · intro hkept source' c' packet' rest' hh'
      obtain ⟨rfl, rfl, rfl, rfl⟩ := hh.unique hh'
      by_contra hbig
      have hbig' : packet.size > call.bufferSize := UInt32.not_le.mp hbig
      have h := hkept source
      simp only [if_pos hbig', Option.isNone_none, if_true, List.nil_append] at h
      rw [hunread source, if_pos rfl] at h
      simp at h
    · intro hfits p
      have hle := hfits _ _ _ _ hh
      simp only [if_neg (UInt32.not_lt.mpr hle), Option.isNone_some, Bool.false_eq_true, if_false]
      exact hunread p
  · have hnone : ∀ source c packet rest, ¬ Head call.peer s.world.mgr source c packet rest :=
      fun source c packet rest h => hh ⟨source, c, packet, rest, h⟩
    simp only [finishRead, readPacket_nothing hsize hnone, Option.isNone_none, if_true,
      List.nil_append]
    exact ⟨fun _ source c packet rest h => absurd h (hnone _ _ _ _), fun _ p => trivial⟩

/-- **Reads against the pump thread**: in a run every packet taken out of a queue
reaches the caller exactly if at every read the packet at the head fits. -/
theorem reads_lossless_iff (user : UserCallback υ) (is : List ThreadStep) (w : World υ) :
    Runs.Meets (Threads.step user) Lossless is { world := w } ↔
      Runs.Meets (Threads.step user) Fits is { world := w } := by
  refine Runs.meets_congr (P := Threads.Checked) Threads.step_checked (fun i s hs => ?_) ?_
  · cases i with
    | finish => exact finish_lossless_iff hs
    | _ => exact Iff.rfl
  · intro call hcall
    cases hcall

/-- An application without reaction. -/
def quietUser : UserCallback Unit := fun _ _ _ w => some w

/-- The peer behind every socket sends `bytes`. -/
def sendingKernel (bytes : List UInt8) : Kernel :=
  { calmKernel with
    select := fun _ => { readable := fun _ => true }
    recv := fun _ _ => ([bytes], .again) }

/-- A packet of one byte fits when it is announced. Then the connection is lost
and made again, and the packet read is one of two bytes. -/
def overtakenRead : List ThreadStep :=
  [.runCallbacks (sendingKernel [1, 0, 0, 0, 7]), .check ⟨1, true, 1⟩, .runCallbacks calmKernel,
    .runCallbacks (sendingKernel [2, 0, 0, 0, 8, 9])]

theorem read_loses_packet :
    ¬ ∀ (user : UserCallback Unit) (is : List ThreadStep) (w : World Unit),
      Runs.Reachable (call (internalConnectionCallback user)) (fresh true ()) w →
        Runs.Meets (Threads.step user) Lossless is { world := w } := by
  intro h
  have hrun : (Runs.run (call (internalConnectionCallback quietUser)) (calmRun.take 3)
      (fresh true ())).bind (fun w =>
        (Runs.run (Threads.step quietUser) overtakenRead { world := w }).map fun s =>
          (s.reading, s.world.mgr.unread 1,
            (finishRead 1 true 1 s.world).1, (finishRead 1 true 1 s.world).2.2.mgr.unread 1)) =
      some (some ⟨1, true, 1⟩, [[8, 9]], .errorNoPacket, []) := by decide +kernel
  obtain ⟨w, hw, hrun⟩ := Option.bind_eq_some_iff.mp hrun
  obtain ⟨s, hs, hlast⟩ := Option.map_eq_some_iff.mp hrun
  simp only [Prod.mk.injEq] at hlast
  obtain ⟨hreading, hbefore, hres, hafter⟩ := hlast
  have hmeets := (h quietUser (overtakenRead ++ [.finish]) w ⟨_, hw⟩).append _ hs
  have hkept := hmeets.1 _ hreading 1
  rw [hbefore] at hkept
  generalize hout : finishRead 1 true 1 s.world = out at hres hafter hkept
  obtain ⟨res, packet, w'⟩ := out
  dsimp only at hres hafter hkept
  subst hres
  rw [hafter] at hkept
  cases hkept

end IsaacP2P.Client
