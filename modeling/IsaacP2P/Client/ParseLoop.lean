import IsaacP2P.Client.Parsing
import IsaacP2P.Client.Unread

/-!
# The parse loop is bounded

`DrainRun` is the drain loop of `processRead` with no bound on its rounds, and
with the buffers it finds. Whatever bytes are in the buffer, the loop ends
(`exists_drainRun`); what it leaves, it waits behind, so the buffer is shorter
than the longest frame before each chunk (`parseChunks_waits`), whether the bytes
before were legal frames, cleared with an illegal header or the beginning of a
frame.
-/

namespace IsaacP2P.Client

open LengthPrefixed (next)
open ReceiveBuffer

variable {buf rest : ReceiveBuffer} {ps q : PacketQueue} {held : List ReceiveBuffer}
  {chunk : List UInt8} {n : Nat}

/-- The drain loop, entered with `buf`: the packets it pushes, the buffers it calls
`tryParsePacket` on, and the buffer it leaves. -/
inductive DrainRun : ReceiveBuffer → List Packet → List ReceiveBuffer → ReceiveBuffer → Prop where
  | stop {buf rest : ReceiveBuffer} : tryParsePacket buf = (none, rest) →
      DrainRun buf [] [buf] rest
  | push {buf buf' rest : ReceiveBuffer} {p : Packet} {ps : List Packet}
      {held : List ReceiveBuffer} : tryParsePacket buf = (some p, buf') →
      DrainRun buf' ps held rest → DrainRun buf (p :: ps) (buf :: held) rest

/-- A header with a legal length, and fewer bytes behind it than the length says. -/
def Incomplete : ReceiveBuffer → Prop
  | b0 :: b1 :: b2 :: b3 :: data =>
    let packetSize : UInt32 :=
      b0.toUInt32 ||| (b1.toUInt32 <<< 8) ||| (b2.toUInt32 <<< 16) ||| (b3.toUInt32 <<< 24)
    packetSize ≠ 0 ∧ packetSize ≤ maxPacketSize ∧ data.length < packetSize.toNat
  | _ => False

/-- The drain loop behind `chunk` leads from the queue and the buffer `s` to `s'`,
within the bounds. -/
def DrainsWithin (chunk : List UInt8) (s s' : PacketQueue × ReceiveBuffer) : Prop :=
  ∃ ps held, DrainRun (append chunk s.2) ps held s'.2 ∧ s'.1 = s.1 ++ ps ∧
    (∀ p ∈ ps, 1 ≤ p.length ∧ p.length ≤ 1048576) ∧
    (s'.2.length < 4 ∨ Incomplete s'.2) ∧ s'.2.length < 4 + 1048576 ∧
    ∀ b ∈ held, b.length < 4 + 1048576 + 65536

/-! ## The loop -/

/-- A round that pushes a packet takes five bytes off the buffer at least. -/
theorem tryParsePacket_some {p : Packet} (h : tryParsePacket buf = (some p, rest)) :
    next maxPacket buf = .item p rest ∧ rest.length + 5 ≤ buf.length := by
  have he := tryParsePacket_eq buf
  rw [h] at he
  cases hnext : next maxPacket buf with
  | wait => rw [hnext] at he; cases he
  | bad => rw [hnext] at he; cases he
  | item p' rest' =>
    rw [hnext] at he
    cases he
    obtain ⟨hbuf, h0, -⟩ := LengthPrefixed.next_item hnext
    have hpos : 0 < p.length := List.length_pos_iff.mpr h0
    have hlen := congrArg List.length hbuf
    rw [List.length_append, LengthPrefixed.length_frame] at hlen
    exact ⟨rfl, by omega⟩

/-- **The loop ends**, on any bytes. -/
theorem exists_drainRun (buf : ReceiveBuffer) : ∃ ps held rest, DrainRun buf ps held rest := by
  induction hn : buf.length using Nat.strong_induction_on generalizing buf with
  | _ n ih =>
    cases h : tryParsePacket buf with
    | mk out rest =>
      cases out with
      | none => exact ⟨[], [buf], rest, .stop h⟩
      | some p =>
        have hshort := (tryParsePacket_some h).2
        obtain ⟨ps, held, rest', hrun⟩ := ih rest.length (by omega) rest rfl
        exact ⟨p :: ps, buf :: held, rest', .push h hrun⟩

/-- The bound `drain` has on its rounds is never met. -/
theorem DrainRun.drain_eq (h : DrainRun buf ps held rest) (hn : buf.length ≤ n) (q : PacketQueue) :
    drain n q buf = (q ++ ps, rest) := by
  induction h generalizing n q with
  | @stop buf rest h =>
    cases n with
    | zero =>
      obtain rfl : buf = [] := List.length_eq_zero_iff.mp (by omega)
      cases h
      rw [drain, List.append_nil]
    | succ n => simp only [drain, h, List.append_nil]
  | @push buf buf' rest p ps held h _ ih =>
    have hshort := (tryParsePacket_some h).2
    obtain ⟨n, rfl⟩ : ∃ m, n = m + 1 := ⟨n - 1, by omega⟩
    simp only [drain, h]
    rw [ih (by omega), PacketQueue.push, List.append_assoc]
    rfl

theorem DrainRun.drained (h : DrainRun buf ps held rest) : Drained buf ps rest := by
  obtain ⟨ps', rest', he, hd⟩ := drain_drained (Nat.le_refl buf.length) []
  rw [h.drain_eq (Nat.le_refl _), List.nil_append, List.nil_append] at he
  cases he
  exact hd

/-- One round for each packet and one more, five bytes at least for each packet. -/
theorem DrainRun.rounds (h : DrainRun buf ps held rest) :
    held.length = ps.length + 1 ∧ 5 * ps.length ≤ buf.length := by
  induction h with
  | stop _ => simp
  | push h _ ih =>
    have hshort := (tryParsePacket_some h).2
    simp only [List.length_cons]
    omega

theorem DrainRun.held_le (h : DrainRun buf ps held rest) : ∀ b ∈ held, b.length ≤ buf.length := by
  induction h with
  | stop _ => simp
  | @push buf buf' rest p ps held h _ ih =>
    have hshort := (tryParsePacket_some h).2
    refine List.forall_mem_cons.mpr ⟨Nat.le_refl _, fun b hb => ?_⟩
    have := ih b hb
    omega

/-! ## What is left -/

theorem waits_iff : next maxPacket buf = .wait ↔ buf.length < 4 ∨ Incomplete buf := by
  match buf with
  | b0 :: b1 :: b2 :: b3 :: data =>
    have hd := LittleEndian.decode_four b0 b1 b2 b3
    simp only [Incomplete, next, ← hd]
    generalize b0.toUInt32 ||| (b1.toUInt32 <<< 8) ||| (b2.toUInt32 <<< 16) |||
      (b3.toUInt32 <<< 24) = packetSize
    have hmax : maxPacketSize.toNat = maxPacket := rfl
    have hzero : packetSize = 0 ↔ packetSize.toNat = 0 := by
      rw [← UInt32.toNat_inj]
      rfl
    rw [UInt32.le_iff_toNat_le, hmax, Ne, hzero]
    have hlen : ¬ (b0 :: b1 :: b2 :: b3 :: data).length < 4 := by simp
    by_cases hlegal : packetSize.toNat = 0 ∨ maxPacket < packetSize.toNat
    · rw [if_pos hlegal]
      constructor
      · intro h
        cases h
      · intro h
        omega
    · rw [if_neg hlegal]
      by_cases hshort : data.length < packetSize.toNat
      · rw [if_pos hshort]
        exact iff_of_true rfl (.inr ⟨by omega, by omega, hshort⟩)
      · rw [if_neg hshort]
        constructor
        · intro h
          cases h
        · intro h
          omega
  | [] | [_] | [_, _] | [_, _, _] => simp [next]

theorem length_lt_of_waits (h : next maxPacket buf = .wait) : buf.length < 4 + 1048576 := by
  have := LengthPrefixed.length_of_wait h
  simp only [maxPacket] at this
  omega

theorem Drained.waits_rest (h : Drained buf ps rest) : next maxPacket rest = .wait := by
  cases h with
  | waits hd => exact hd.2
  | cleared _ _ => rfl

/-- **One chunk** behind a buffer that waits: the loop ends, pushes legal packets
and leaves a buffer that waits. -/
theorem parseChunk_bounded (hw : next maxPacket buf = .wait)
    (hchunk : chunk.length ≤ recvBufferSize) (q : PacketQueue) :
    DrainsWithin chunk (q, buf) (parseChunk (q, buf) chunk) := by
  obtain ⟨ps, held, rest, hrun⟩ := exists_drainRun (append chunk buf)
  have hd := hrun.drained
  have hrest := hd.waits_rest
  have he : parseChunk (q, buf) chunk = (q ++ ps, rest) := hrun.drain_eq (Nat.le_refl _) q
  rw [he]
  refine ⟨ps, held, hrun, rfl, fun p hp => ?_, waits_iff.mp hrest, length_lt_of_waits hrest,
    fun b hb => ?_⟩
  · obtain ⟨h0, hmax⟩ := hd.legal p hp
    exact ⟨List.length_pos_iff.mpr h0, hmax⟩
  · have hbuf := length_lt_of_waits hw
    have hle := hrun.held_le b hb
    rw [append, List.length_append] at hle
    simp only [recvBufferSize] at hchunk
    omega

/-- Between two chunks the buffer waits, whatever the chunks were. -/
theorem parseChunks_waits (chunks : List (List UInt8)) (hw : next maxPacket buf = .wait)
    (q : PacketQueue) : next maxPacket (parseChunks chunks (q, buf)).2 = .wait := by
  induction chunks generalizing q buf with
  | nil => exact hw
  | cons chunk chunks ih =>
    obtain ⟨ps, rest, he, hd⟩ := parseChunk_drained q buf chunk
    show next maxPacket (parseChunks chunks (parseChunk (q, buf) chunk)).2 = .wait
    rw [he]
    exact ih hd.waits_rest (q ++ ps)

theorem parseChunks_bounded {chunks front back : List (List UInt8)}
    (hw : next maxPacket buf = .wait) (hchunks : ∀ b ∈ chunks, b.length ≤ recvBufferSize)
    (hsplit : chunks = front ++ chunk :: back) (q : PacketQueue) :
    DrainsWithin chunk (parseChunks front (q, buf)) (parseChunks (front ++ [chunk]) (q, buf)) := by
  have hlen : chunk.length ≤ recvBufferSize := hchunks chunk (by rw [hsplit]; simp)
  have hstep : parseChunks (front ++ [chunk]) (q, buf) =
      parseChunk (parseChunks front (q, buf)) chunk := by
    rw [parseChunks, List.foldl_append]
    rfl
  rw [hstep]
  exact parseChunk_bounded (parseChunks_waits front hw q) hlen (parseChunks front (q, buf)).1

/-- **The parse loop is bounded for any input**: however the bytes of a peer are
cut, the drain loop of every chunk ends, pushes packets of 1 to 1048576 bytes and
leaves less than a header or an incomplete frame with a legal one. -/
theorem parse_loop_bounded {chunks front back : List (List UInt8)}
    (hchunks : ∀ b ∈ chunks, b.length ≤ recvBufferSize) (hsplit : chunks = front ++ chunk :: back) :
    DrainsWithin chunk (parseChunks front ([], [])) (parseChunks (front ++ [chunk]) ([], [])) :=
  parseChunks_bounded rfl hchunks hsplit []

/-- An illegal header, and a packet cut in two with another one behind it. -/
def hostileChunks : List (List UInt8) := [[0, 0, 0, 0, 9], [1, 0, 0], [0, 7, 1, 0, 16, 0]]

theorem hostileChunks_bounded :
    parseChunks hostileChunks ([], []) = ([[7]], []) ∧
      ∃ held, DrainRun [1, 0, 0, 0, 7, 1, 0, 16, 0] [[7]] held [] ∧
        ∀ b ∈ held, b.length < 4 + 1048576 + 65536 := by
  have hparse : parseChunks hostileChunks ([], []) = ([[7]], []) := by decide +kernel
  have hfront : parseChunks [[0, 0, 0, 0, 9], [1, 0, 0]] ([], []) = ([], [1, 0, 0]) := by
    decide +kernel
  have hsplit : hostileChunks = [[0, 0, 0, 0, 9], [1, 0, 0]] ++ [0, 7, 1, 0, 16, 0] :: [] := rfl
  obtain ⟨ps, held, hrun, he, -, -, -, hheld⟩ := parse_loop_bounded (by decide) hsplit
  rw [← hsplit, hparse, hfront] at hrun he
  cases he
  exact ⟨hparse, held, hrun, hheld⟩

/-! ## Runs -/

section

variable {υ : Type} {cb : Callback υ} {w : World υ} {m m' : Manager} {g : Guard} {peer : PeerID}
  {c c' : Connection} {new : List Ev}

/-- No packet can be parsed off the receive buffer. -/
def Connection.AtRest (c : Connection) : Prop := next maxPacket c.recvBuffer = .wait

def Manager.AtRest (m : Manager) : Prop :=
  ∀ p c, m.mConnections.lookup p = some c → c.AtRest

theorem Evolves.atRest (he : Evolves c new c') (h : c.AtRest) : c'.AtRest := by
  cases he with
  | parsed hd => exact hd.waits_rest
  | _ => exact h

theorem Connection.AtRest.of_nil (h : c.recvBuffer = []) : c.AtRest := by
  rw [Connection.AtRest, h]
  rfl

theorem Step.atRest (h : Step g m m') (hm : Apart m) (hw : m.AtRest) : m'.AtRest := by
  obtain ⟨new, -, horg⟩ := h.origins hm
  intro p c' hc'
  by_cases hs : c'.socket = invalidSocketHandle
  · exact .of_nil ((h.settled hm.1 p c' hc').down hs).2.2.1
  · cases horg p c' hc' hs with
    | evolved hc he _ _ => exact he.atRest (hw p _ hc)
    | linked _ _ hempty _ _ => exact .of_nil hempty.2.1

/-- **In every state a run leads to** every receive buffer waits, so what the next
`recv()` calls of its connection return is parsed within the bounds. -/
theorem processRead_bounded (hcb : Leaf cb) {callback : Bool} {user : υ}
    (h : Runs.Reachable (call cb) (fresh callback user) w)
    (hc : w.mgr.mConnections.lookup peer = some c) :
    (c.recvBuffer.length < 4 ∨ Incomplete c.recvBuffer) ∧
      ∀ chunks, (∀ b ∈ chunks, b ≠ [] ∧ b.length ≤ recvBufferSize) →
        (readLoop peer chunks .again c w.mgr).mConnections.lookup peer = some { c with
          receiveQueue := (parseChunks chunks (c.receiveQueue, c.recvBuffer)).1
          recvBuffer := (parseChunks chunks (c.receiveQueue, c.recvBuffer)).2 } ∧
        ∀ front chunk back, chunks = front ++ chunk :: back →
          DrainsWithin chunk (parseChunks front (c.receiveQueue, c.recvBuffer))
            (parseChunks (front ++ [chunk]) (c.receiveQueue, c.recvBuffer)) := by
  have hrest : w.mgr.AtRest :=
    (reachable_keeps hcb (fun _ _ hs => hs.atRest) (fun m hm p c hc => by simp [hm] at hc) h).2
  have hw := hrest peer c hc
  refine ⟨waits_iff.mp hw, fun chunks hchunks => ⟨readLoop_entry hc hchunks, ?_⟩⟩
  intro front chunk back hsplit
  exact parseChunks_bounded hw (fun b hb => (hchunks b hb).2) hsplit c.receiveQueue

end

end IsaacP2P.Client
