import IsaacP2P.Client.Outgoing

/-!
# Parsing a stream in chunks

`processRead` appends what each `recv()` returns to the receive buffer and
drains the buffer before the next one. `parseChunks` is that loop on the queue
and the buffer alone (`readLoop_entry`).

On a stream of legal frames the cuts do not matter (`stream_round_trip`). On any
other stream they do, since the parser clears whatever is buffered with an
illegal header: two cuts give the same packets and the same rest exactly if the
stream has no illegal header, or ends with it (`cuts_agree_iff`).
-/

namespace IsaacP2P.Client

open LengthPrefixed (frame next stream)
open Streaming (Takes Decodes)

variable {peer : PeerID} {m : Manager} {c : Connection} {bs : List UInt8}
  {chunks : List (List UInt8)}

/-! ## The loop -/

/-- `append`, then the drain loop. -/
def parseChunk (s : PacketQueue × ReceiveBuffer) (chunk : List UInt8) :
    PacketQueue × ReceiveBuffer :=
  let buf := ReceiveBuffer.append chunk s.2
  ReceiveBuffer.drain buf.length s.1 buf

def parseChunks (chunks : List (List UInt8)) (s : PacketQueue × ReceiveBuffer) :
    PacketQueue × ReceiveBuffer := chunks.foldl parseChunk s

namespace ReceiveBuffer

/-- `tryParsePacket` clears the buffer. -/
def clears : ReceiveBuffer → Bool
  | b0 :: b1 :: b2 :: b3 :: _ =>
    let packetSize : UInt32 :=
      b0.toUInt32 ||| (b1.toUInt32 <<< 8) ||| (b2.toUInt32 <<< 16) ||| (b3.toUInt32 <<< 24)
    packetSize == 0 || packetSize > maxPacketSize
  | _ => false

/-- The buffers `tryParsePacket` finds in the drain loop, one for each round. -/
def examined : Nat → ReceiveBuffer → List ReceiveBuffer
  | 0, _ => []
  | n + 1, buf => buf :: match tryParsePacket buf with
    | (some _, rest) => examined n rest
    | (none, _) => []

end ReceiveBuffer

open ReceiveBuffer

/-- The same for the loop over the chunks. -/
def examinedIn : List (List UInt8) → ReceiveBuffer → List ReceiveBuffer
  | [], _ => []
  | chunk :: chunks, buf =>
    examined ((append chunk buf).length + 1) (append chunk buf) ++
      examinedIn chunks (parseChunk ([], buf) chunk).2

/-- **The loop of `processRead`** parses what `recv()` returns chunk by chunk. -/
theorem readLoop_entry (hc : m.mConnections.lookup peer = some c)
    (hchunks : ∀ b ∈ chunks, b ≠ [] ∧ b.length ≤ recvBufferSize) :
    (readLoop peer chunks .again c m).mConnections.lookup peer = some { c with
      receiveQueue := (parseChunks chunks (c.receiveQueue, c.recvBuffer)).1
      recvBuffer := (parseChunks chunks (c.receiveQueue, c.recvBuffer)).2 } := by
  induction chunks generalizing c m with
  | nil => exact hc
  | cons b chunks ih =>
    obtain ⟨hne, hlen⟩ := hchunks b (List.mem_cons_self ..)
    have htake : b.take recvBufferSize = b := List.take_of_length_le hlen
    have hempty : b.isEmpty = false := by simpa using hne
    rw [readLoop]
    simp only [htake, hempty, Bool.false_eq_true, if_false]
    exact ih (Manager.setConn_lookup_self (by exact hc))
      fun b' hb' => hchunks b' (List.mem_cons_of_mem _ hb')

/-! ## One chunk -/

theorem clears_iff {buf : ReceiveBuffer} : buf.clears = true ↔ next maxPacket buf = .bad := by
  match buf with
  | b0 :: b1 :: b2 :: b3 :: data =>
    have he := tryParsePacket_eq (b0 :: b1 :: b2 :: b3 :: data)
    simp only [tryParsePacket] at he
    rw [clears]
    constructor
    · intro h
      rw [if_pos h] at he
      cases hn : next maxPacket (b0 :: b1 :: b2 :: b3 :: data) with
      | wait => rw [hn] at he; cases he
      | bad => rfl
      | item p rest => rw [hn] at he; cases he
    · intro h
      by_contra hno
      rw [if_neg hno, h] at he
      split at he <;> cases he
  | [] | [_] | [_, _] | [_, _, _] => simp [clears, next]

theorem drain_append (n : Nat) (q : PacketQueue) (buf : ReceiveBuffer) :
    drain n q buf = (q ++ (drain n [] buf).1, (drain n [] buf).2) := by
  induction n generalizing q buf with
  | zero => simp [drain]
  | succ n ih =>
    simp only [drain]
    cases tryParsePacket buf with
    | mk out rest =>
      cases out with
      | none => simp
      | some p =>
        dsimp only
        rw [ih (PacketQueue.push p q), ih (PacketQueue.push p [])]
        simp [PacketQueue.push, List.append_assoc]

theorem parseChunks_append (chunks : List (List UInt8)) (q : PacketQueue) (buf : ReceiveBuffer) :
    parseChunks chunks (q, buf) =
      (q ++ (parseChunks chunks ([], buf)).1, (parseChunks chunks ([], buf)).2) := by
  induction chunks generalizing q buf with
  | nil => simp [parseChunks]
  | cons b chunks ih =>
    have hstep : ∀ s, parseChunks (b :: chunks) s = parseChunks chunks (parseChunk s b) :=
      fun _ => rfl
    have hone : parseChunk (q, buf) b =
        (q ++ (parseChunk ([], buf) b).1, (parseChunk ([], buf) b).2) := drain_append _ q _
    rw [hstep, hstep, hone, ih, ih (parseChunk ([], buf) b).1, List.append_assoc]

theorem parseChunk_drained (q : PacketQueue) (buf : ReceiveBuffer) (chunk : List UInt8) :
    ∃ ps rest, parseChunk (q, buf) chunk = (q ++ ps, rest) ∧ Drained (buf ++ chunk) ps rest :=
  drain_drained (Nat.le_refl _) q

theorem examined_takes {n : Nat} {buf r : ReceiveBuffer} (h : r ∈ examined n buf) :
    ∃ ps, Takes (stream maxPacket) buf ps r := by
  induction n generalizing buf with
  | zero => cases h
  | succ n ih =>
    have he := tryParsePacket_eq buf
    rw [examined] at h
    rcases List.mem_cons.mp h with rfl | h
    · exact ⟨[], .nil _⟩
    · cases hn : next maxPacket buf with
      | wait => rw [he, hn] at h; cases h
      | bad => rw [he, hn] at h; cases h
      | item p rest =>
        rw [he, hn] at h
        obtain ⟨ps, ht⟩ := ih h
        exact ⟨p :: ps, .item hn ht⟩

/-! ## Streams without an illegal header -/

variable {seen rest buf : List UInt8} {ps q : List Packet}

theorem decodes_of_prefix (h : Decodes (stream maxPacket) bs ps rest) (hs : seen <+: bs) :
    ∃ q buf, Decodes (stream maxPacket) seen q buf := by
  obtain ⟨more, rfl⟩ := hs
  obtain ⟨q, buf, -, hd⟩ := drain_drained (Nat.le_refl seen.length) []
  cases hd with
  | waits hd => exact ⟨_, _, hd⟩
  | cleared ht hbad =>
    exact absurd ((stream maxPacket).bad_append more hbad) ((ht.append more).not_bad h)

/-- **One more chunk of a stream that decodes**: the packets complete by then are
pushed, and the buffer is the rest. -/
theorem parseChunk_decodes {chunk : List UInt8} {q' : List Packet} {buf' : List UInt8}
    (h : Decodes (stream maxPacket) seen q buf)
    (h' : Decodes (stream maxPacket) (seen ++ chunk) q' buf') :
    parseChunk (q, buf) chunk = (q', buf') ∧
      ∀ r ∈ examined ((append chunk buf).length + 1) (append chunk buf), r.clears = false := by
  have happ := h.1.append chunk
  constructor
  · obtain ⟨ps, rest, he, hd⟩ := parseChunk_drained q buf chunk
    rw [he]
    cases hd with
    | waits hd =>
      obtain ⟨rfl, rfl⟩ := Decodes.unique ⟨happ.trans hd.1, hd.2⟩ h'
      rfl
    | cleared ht hbad => exact absurd hbad ((happ.trans ht).not_bad h')
  · intro r hr
    obtain ⟨ps, ht⟩ := examined_takes hr
    have hgood := (happ.trans ht).not_bad h'
    rw [← Bool.not_eq_true, clears_iff]
    exact hgood

theorem parseChunks_decodes (h : Decodes (stream maxPacket) seen q buf)
    (hend : Decodes (stream maxPacket) (seen ++ chunks.flatten) ps rest) :
    parseChunks chunks (q, buf) = (ps, rest) ∧ ∀ r ∈ examinedIn chunks buf, r.clears = false := by
  induction chunks generalizing seen q buf with
  | nil =>
    rw [List.flatten_nil, List.append_nil] at hend
    obtain ⟨rfl, rfl⟩ := h.unique hend
    exact ⟨rfl, by simp [examinedIn]⟩
  | cons chunk chunks ih =>
    rw [List.flatten_cons, ← List.append_assoc] at hend
    obtain ⟨q', buf', h'⟩ := decodes_of_prefix hend (List.prefix_append _ _)
    obtain ⟨hone, hgood⟩ := parseChunk_decodes h h'
    obtain ⟨hall, hrest⟩ := ih h' hend
    have hbuf : (parseChunk ([], buf) chunk).2 = buf' := by
      have happ : parseChunk (q, buf) chunk =
          (q ++ (parseChunk ([], buf) chunk).1, (parseChunk ([], buf) chunk).2) :=
        drain_append _ q _
      rw [hone] at happ
      exact (congrArg Prod.snd happ).symm
    refine ⟨?_, fun r hr => ?_⟩
    · show parseChunks chunks (parseChunk (q, buf) chunk) = _
      rw [hone, hall]
    · rw [examinedIn, hbuf] at hr
      exact (List.mem_append.mp hr).elim (hgood r) (hrest r)

theorem decodes_nil : Decodes (stream maxPacket) [] [] [] := ⟨.nil _, rfl⟩

/-! ## The round trip -/

/-- The payloads whose frames lie within the first `n` bytes. -/
def complete : List Packet → Nat → List Packet
  | [], _ => []
  | p :: ps, n =>
    if (createSendFrame p).length ≤ n then p :: complete ps (n - (createSendFrame p).length) else []

theorem complete_decodes {payloads : List Packet}
    (hlegal : ∀ p ∈ payloads, 1 ≤ p.length ∧ p.length ≤ 1048576)
    (hs : seen <+: payloads.flatMap createSendFrame) :
    ∃ rest, Decodes (stream maxPacket) seen (complete payloads seen.length) rest := by
  induction payloads generalizing seen with
  | nil =>
    obtain rfl := List.prefix_nil.mp hs
    exact ⟨[], decodes_nil⟩
  | cons p ps ih =>
    obtain ⟨h1, hmax⟩ := hlegal p (List.mem_cons_self ..)
    have h0 : p ≠ [] := List.length_pos_iff.mp h1
    have hp : p.length < 256 ^ 4 := by omega
    rw [List.flatMap_cons] at hs
    by_cases hlen : (createSendFrame p).length ≤ seen.length
    · have hfront : createSendFrame p <+: seen :=
        List.prefix_of_prefix_length_le (List.prefix_append _ _) hs hlen
      obtain ⟨more, rfl⟩ := hfront
      have hmore := (List.prefix_append_right_inj _).mp hs
      obtain ⟨rest, ht, hw⟩ := ih (fun p' hp' => hlegal p' (List.mem_cons_of_mem _ hp')) hmore
      have hitem : next maxPacket (createSendFrame p ++ more) = .item p more := by
        rw [createSendFrame_eq]
        exact LengthPrefixed.next_frame hp h0 hmax more
      refine ⟨rest, ?_, hw⟩
      rw [complete, if_pos hlen, List.length_append, Nat.add_sub_cancel_left]
      exact .item hitem ht
    · have hshort : seen <+: createSendFrame p :=
        List.prefix_of_prefix_length_le hs (List.prefix_append _ _) (by omega)
      rw [createSendFrame_eq] at hshort hlen
      refine ⟨seen, ?_, LengthPrefixed.next_of_prefix hp h0 hmax hshort (by omega)⟩
      rw [complete, createSendFrame_eq, if_neg hlen]
      exact .nil _

/-- **The round trip of the client codec**: however the frames of the payloads
are cut, exactly the payloads are pushed, each when its frame is complete; the
buffer is never cleared and is empty at the end. -/
theorem stream_round_trip {payloads : List Packet}
    (hlegal : ∀ p ∈ payloads, 1 ≤ p.length ∧ p.length ≤ 1048576)
    (hcut : chunks.flatten = payloads.flatMap createSendFrame) :
    parseChunks chunks ([], []) = (payloads, []) ∧
      (∀ buf ∈ examinedIn chunks [], buf.clears = false) ∧
      ∀ front back, chunks = front ++ back →
        (parseChunks front ([], [])).1 = complete payloads front.flatten.length := by
  have hall : Decodes (stream maxPacket) ([] ++ chunks.flatten) payloads [] := by
    rw [List.nil_append, hcut]
    refine Streaming.decodes_flatMap rfl fun p hp more => ?_
    obtain ⟨h1, hmax⟩ := hlegal p hp
    rw [createSendFrame_eq]
    exact LengthPrefixed.next_frame (by omega) (List.length_pos_iff.mp h1) hmax more
  obtain ⟨hparse, hgood⟩ := parseChunks_decodes decodes_nil hall
  refine ⟨hparse, hgood, fun front back hchunks => ?_⟩
  have hprefix : front.flatten <+: payloads.flatMap createSendFrame := by
    rw [← hcut, hchunks, List.flatten_append]
    exact List.prefix_append _ _
  obtain ⟨rest, hd⟩ := complete_decodes hlegal hprefix
  have hd' : Decodes (stream maxPacket) ([] ++ front.flatten)
      (complete payloads front.flatten.length) rest := hd
  rw [(parseChunks_decodes decodes_nil hd').1]

/-- Two payloads, cut inside a header, inside a payload and between two frames. -/
theorem stream_round_trip_two :
    parseChunks [[1, 0], [0, 0, 7, 2, 0, 0, 0, 8], [9]] ([], []) = ([[7], [8, 9]], []) := by
  have hcut : [[1, 0], [0, 0, 7, 2, 0, 0, 0, 8], [9]].flatten =
      [[7], [8, 9]].flatMap createSendFrame := by decide +kernel
  exact (stream_round_trip (by decide) hcut).1

/-! ## Any stream -/

/-- The chunks are what `recv()` can return of the stream. -/
def Cut (bs : List UInt8) (chunks : List (List UInt8)) : Prop :=
  chunks.flatten = bs ∧ ∀ b ∈ chunks, b ≠ [] ∧ b.length ≤ recvBufferSize

/-- No frame of the stream has an illegal header, or that header is the end. -/
def Intact (bs : List UInt8) : Prop :=
  ∀ ps r, Takes (stream maxPacket) bs ps r → ReceiveBuffer.clears r = true → r.length = 4

theorem Cut.append {bs' : List UInt8} {chunks' : List (List UInt8)} (h : Cut bs chunks)
    (h' : Cut bs' chunks') : Cut (bs ++ bs') (chunks ++ chunks') := by
  refine ⟨by rw [List.flatten_append, h.1, h'.1], fun b hb => ?_⟩
  exact (List.mem_append.mp hb).elim (h.2 b) (h'.2 b)

theorem cut_single (h0 : bs ≠ []) (hlen : bs.length ≤ recvBufferSize) : Cut bs [bs] := by
  refine ⟨List.flatten_singleton, fun b hb => ?_⟩
  obtain rfl := List.mem_singleton.mp hb
  exact ⟨h0, hlen⟩

theorem exists_cut (bs : List UInt8) : ∃ chunks, Cut bs chunks := by
  induction bs with
  | nil => exact ⟨[], rfl, by simp⟩
  | cons b bs ih =>
    obtain ⟨chunks, hc⟩ := ih
    exact ⟨[b] :: chunks, (cut_single (List.cons_ne_nil b []) (by simp [recvBufferSize])).append hc⟩

/-- An illegal header at the very end is complete with the last chunk only. -/
theorem parseChunks_bad_end {r : List UInt8} (hcut : Cut bs chunks)
    (ht : Takes (stream maxPacket) bs ps r) (hbad : next maxPacket r = .bad)
    (hr : r.length = 4) : parseChunks chunks ([], []) = (ps, []) := by
  obtain ⟨hflat, hchunks⟩ := hcut
  rcases List.eq_nil_or_concat chunks with rfl | ⟨front, last, rfl⟩
  · have hbs := LengthPrefixed.takes_eq ht
    rw [← hflat, List.flatten_nil] at hbs
    have hnil := (List.append_eq_nil_iff.mp hbs.symm).2
    rw [hnil] at hr
    cases hr
  · rw [List.concat_eq_append] at hflat hchunks ⊢
    rw [List.flatten_append, List.flatten_singleton] at hflat
    have hlast : 0 < last.length :=
      List.length_pos_iff.mpr (hchunks last (by simp)).1
    obtain ⟨q, buf, -, hd⟩ := drain_drained (Nat.le_refl front.flatten.length) []
    cases hd with
    | cleared ht' hbad' =>
      exfalso
      have htake := ht'.append last
      rw [hflat] at htake
      have hsame := (htake.bad_unique ((stream maxPacket).bad_append last hbad') ht hbad).2
      obtain ⟨head, data, hsplit, hhead, -⟩ := LengthPrefixed.next_bad hbad'
      have := congrArg List.length hsame
      rw [hsplit, List.length_append, List.length_append, hhead, hr] at this
      omega
    | waits hd =>
      have hd' : Decodes (stream maxPacket) ([] ++ front.flatten) q buf := hd
      have hfront := (parseChunks_decodes decodes_nil hd').1
      have hstep : parseChunks (front ++ [last]) ([], []) = parseChunk (q, buf) last := by
        rw [parseChunks, List.foldl_append]
        exact congrArg (fun s => parseChunk s last) hfront
      obtain ⟨ps', rest, he, hd''⟩ := parseChunk_drained q buf last
      have htake := hd.1.append last
      rw [hflat] at htake
      rw [hstep, he]
      cases hd'' with
      | waits hd'' => exact absurd hbad (ht.not_bad ⟨htake.trans hd''.1, hd''.2⟩)
      | cleared ht'' hbad'' =>
        rw [((htake.trans ht'').bad_unique hbad'' ht hbad).1]

theorem parseChunks_intact (h : Intact bs) (hcut : Cut bs chunks) :
    Drained bs (parseChunks chunks ([], [])).1 (parseChunks chunks ([], [])).2 := by
  obtain ⟨ps, rest, -, hd⟩ := drain_drained (Nat.le_refl bs.length) []
  cases hd with
  | waits hd =>
    have hd' : Decodes (stream maxPacket) ([] ++ chunks.flatten) ps rest := by
      rw [List.nil_append, hcut.1]
      exact hd
    rw [(parseChunks_decodes decodes_nil hd').1]
    exact .waits hd
  | cleared ht hbad =>
    rw [parseChunks_bad_end hcut ht hbad (h _ _ ht (clears_iff.mpr hbad))]
    exact .cleared ht hbad

theorem Drained.unique {qs : List Packet} {left : ReceiveBuffer} (h : Drained bs ps rest)
    (h' : Drained bs qs left) : ps = qs ∧ rest = left := by
  cases h with
  | waits hd =>
    cases h' with
    | waits hd' => exact hd.unique hd'
    | cleared ht hbad => exact absurd hbad (ht.not_bad hd)
  | cleared ht hbad =>
    cases h' with
    | waits hd' => exact absurd hbad (ht.not_bad hd')
    | cleared ht' hbad' => exact ⟨(ht.bad_unique hbad ht' hbad').1, rfl⟩

/-- Up to an illegal header, an intact stream is as long as what is made of it. -/
theorem Drained.length_eq (h : Drained bs ps rest) (hi : Intact bs) :
    bs.length = (ps.flatMap LengthPrefixed.frame).length + rest.length ∨
      bs.length = (ps.flatMap LengthPrefixed.frame).length + rest.length + 4 := by
  cases h with
  | waits hd =>
    left
    rw [← List.length_append, ← LengthPrefixed.takes_eq hd.1]
  | cleared ht hbad =>
    right
    have hlen := congrArg List.length (LengthPrefixed.takes_eq ht)
    rw [List.length_append, hi _ _ ht (clears_iff.mpr hbad)] at hlen
    exact hlen

theorem parseChunk_bad {r chunk : List UInt8} (q : List Packet)
    (hbad : next maxPacket (r ++ chunk) = .bad) : parseChunk (q, r) chunk = (q, []) := by
  obtain ⟨ps, rest, he, hd⟩ := parseChunk_drained q r chunk
  obtain ⟨rfl, rfl⟩ := hd.unique (.cleared (.nil _) hbad)
  rw [he, List.append_nil]

/-- An illegal header clears the bytes `extra` that are read with it, and the
parser goes on with the next chunk. -/
theorem parseChunks_after_bad {head : List UInt8} {front : List (List UInt8)}
    (hfront : parseChunks front ([], []) = (ps, [])) (hbad : next maxPacket head = .bad)
    (extra : List UInt8) (cs : List (List UInt8)) :
    parseChunks (front ++ (head ++ extra) :: cs) ([], []) =
      (ps ++ (parseChunks cs ([], [])).1, (parseChunks cs ([], [])).2) := by
  have hclear : parseChunk (ps, []) (head ++ extra) = (ps, []) :=
    parseChunk_bad ps ((stream maxPacket).bad_append extra hbad)
  rw [parseChunks, List.foldl_append]
  show parseChunks cs (parseChunk (parseChunks front ([], [])) (head ++ extra)) = _
  rw [hfront, hclear, parseChunks_append]

/-- **Cuts that do not matter**: however the stream is cut, the packets pushed
and the rest are the same exactly if no byte follows an illegal header. -/
theorem cuts_agree_iff (bs : List UInt8) :
    (∀ chunks chunks', Cut bs chunks → Cut bs chunks' →
      parseChunks chunks ([], []) = parseChunks chunks' ([], [])) ↔ Intact bs := by
  constructor
  · intro hagree
    induction hn : bs.length using Nat.strong_induction_on generalizing bs with
    | _ n ih =>
      intro ps r ht hclears
      by_contra hr
      have hbad := clears_iff.mp hclears
      obtain ⟨head, data, rfl, hhead, hbad'⟩ := LengthPrefixed.next_bad hbad
      cases data with
      | nil => exact hr (by rw [List.append_nil]; exact hhead)
      | cons x back =>
        have hbs := LengthPrefixed.takes_eq ht
        obtain ⟨front, hf⟩ := exists_cut (ps.flatMap LengthPrefixed.frame)
        have hdecodes : parseChunks front ([], []) = (ps, []) := by
          have hd := LengthPrefixed.decodes_frames (by decide) ht
          rw [← hf.1] at hd
          exact (parseChunks_decodes decodes_nil hd).1
        have hcut : ∀ extra {back' cs}, extra.length ≤ 1 → Cut back' cs →
            extra ++ back' = x :: back → Cut bs (front ++ (head ++ extra) :: cs) := by
          intro extra back' cs hextra hcs he
          have hne : head ++ extra ≠ [] := by
            intro h0
            have := congrArg List.length h0
            rw [List.length_append, hhead] at this
            simp at this
          have hlen : (head ++ extra).length ≤ recvBufferSize := by
            rw [List.length_append, hhead]
            simp only [recvBufferSize]
            omega
          have := hf.append ((cut_single hne hlen).append hcs)
          rw [List.append_assoc, he, ← hbs] at this
          exact this
        -- all cuts of `x :: back` and of `back` agree
        have hsame : ∀ cs cs', Cut (x :: back) cs → Cut back cs' →
            parseChunks cs ([], []) = parseChunks cs' ([], []) := by
          intro cs cs' hcs hcs'
          have h := hagree _ _ (hcut [] (by simp) hcs rfl)
            (hcut [x] (by simp) hcs' rfl)
          rw [parseChunks_after_bad hdecodes hbad' [] cs,
            parseChunks_after_bad hdecodes hbad' [x] cs', Prod.mk.injEq] at h
          exact Prod.ext (List.append_cancel_left h.1) h.2
        obtain ⟨cs, hcs⟩ := exists_cut (x :: back)
        obtain ⟨cs', hcs'⟩ := exists_cut back
        have hlong : (x :: back).length < n := by
          rw [← hn, hbs]
          simp only [List.length_append, hhead, List.length_cons]
          omega
        have hlonger : back.length < n := Nat.lt_of_le_of_lt (Nat.le_succ _) hlong
        have hintact : Intact (x :: back) := ih _ hlong _
          (fun _ _ h h' => (hsame _ _ h hcs').trans (hsame _ _ h' hcs').symm) rfl
        have hintact' : Intact back := ih _ hlonger _
          (fun _ _ h h' => (hsame _ _ hcs h).symm.trans (hsame _ _ hcs h')) rfl
        have hlen := (parseChunks_intact hintact hcs).length_eq hintact
        have hlen' := (parseChunks_intact hintact' hcs').length_eq hintact'
        rw [hsame _ _ hcs hcs', List.length_cons] at hlen
        omega
  · intro h chunks chunks' hc hc'
    obtain ⟨h1, h2⟩ := (parseChunks_intact h hc).unique (parseChunks_intact h hc')
    exact Prod.ext h1 h2

/-- A header of length 0, and a packet of one byte. Cut behind the header, the
packet arrives; read with it, it is cleared away. -/
theorem cuts_disagree :
    ¬ ∀ bs chunks chunks', Cut bs chunks → Cut bs chunks' →
      parseChunks chunks ([], []) = parseChunks chunks' ([], []) := by
  intro h
  have := h [0, 0, 0, 0, 1, 0, 0, 0, 7] [[0, 0, 0, 0], [1, 0, 0, 0, 7]]
    [[0, 0, 0, 0, 1, 0, 0, 0, 7]] ⟨by decide, by decide⟩ ⟨by decide, by decide⟩
  revert this
  decide +kernel

end IsaacP2P.Client
