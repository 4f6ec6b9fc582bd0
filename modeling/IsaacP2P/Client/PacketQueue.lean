import IsaacP2P.Lib.LengthPrefixed
import Mathlib.Data.UInt

/-!
# Packets off a TCP stream

`PacketQueue` and `ReceiveBuffer` of `packet_queue.cpp`. A packet is its bytes,
a queue the list of its packets, oldest first, and a receive buffer the bytes
not parsed yet. `drain` is the loop around `tryParsePacket` in `processRead`.

`drain_drained` says what the loop does in terms of the decoder
`LengthPrefixed.stream`: it takes the complete packets off the buffer, and
clears what is left if that starts with an illegal length.
-/

namespace IsaacP2P.Client

open LengthPrefixed (next stream)
open Streaming (Takes Decodes)

abbrev Packet := List UInt8

abbrev PacketQueue := List Packet

abbrev ReceiveBuffer := List UInt8

def Packet.size (p : Packet) : UInt32 := UInt32.ofNat p.length

namespace PacketQueue

def push (p : Packet) (q : PacketQueue) : PacketQueue := q ++ [p]

def pop : PacketQueue → Option (Packet × PacketQueue)
  | [] => none
  | p :: q => some (p, q)

/-- The size of the packet at the head. -/
def peek : PacketQueue → Option UInt32
  | [] => none
  | p :: _ => some p.size

end PacketQueue

namespace ReceiveBuffer

def headerSize : UInt32 := 4
def maxPacketSize : UInt32 := 1024 * 1024

def append (data : List UInt8) (buf : ReceiveBuffer) : ReceiveBuffer := buf ++ data

/-- The packet parsed, if any, and the buffer behind it. -/
def tryParsePacket (buf : ReceiveBuffer) : Option Packet × ReceiveBuffer :=
  match buf with
  | b0 :: b1 :: b2 :: b3 :: data =>
    let packetSize : UInt32 :=
      b0.toUInt32 ||| (b1.toUInt32 <<< 8) ||| (b2.toUInt32 <<< 16) ||| (b3.toUInt32 <<< 24)
    if packetSize == 0 || packetSize > maxPacketSize then (none, [])
    else
      let totalSize := headerSize + packetSize
      if buf.length < totalSize.toNat then (none, buf)
      else (some (data.take packetSize.toNat), buf.drop totalSize.toNat)
  | _ => (none, buf)

/-- `while (recvBuffer.tryParsePacket(packet)) receiveQueue.push(packet)`. Each
round takes at least five bytes off the buffer, so its length bounds the rounds. -/
def drain : Nat → PacketQueue → ReceiveBuffer → PacketQueue × ReceiveBuffer
  | 0, q, buf => (q, buf)
  | n + 1, q, buf =>
    match tryParsePacket buf with
    | (some p, rest) => drain n (q.push p) rest
    | (none, rest) => (q, rest)

end ReceiveBuffer

/-! ## The parser as a decoder -/

/-- The longest packet a receive buffer lets through. -/
def maxPacket : Nat := 1048576

open ReceiveBuffer

theorem tryParsePacket_eq (buf : ReceiveBuffer) :
    tryParsePacket buf = match next maxPacket buf with
      | .wait => (none, buf)
      | .bad => (none, [])
      | .item p rest => (some p, rest) := by
  match buf with
  | b0 :: b1 :: b2 :: b3 :: data =>
    have hd := LittleEndian.decode_four b0 b1 b2 b3
    simp only [tryParsePacket, next, ← hd]
    generalize b0.toUInt32 ||| (b1.toUInt32 <<< 8) ||| (b2.toUInt32 <<< 16) |||
      (b3.toUInt32 <<< 24) = len
    have hbad : (len == 0 || len > maxPacketSize) = true ↔ len.toNat = 0 ∨ maxPacket < len.toNat := by
      have hmax : maxPacketSize.toNat = maxPacket := rfl
      rw [Bool.or_eq_true, beq_iff_eq, decide_eq_true_eq, gt_iff_lt, UInt32.lt_iff_toNat_lt, hmax,
        ← UInt32.toNat_inj]
      rfl
    by_cases hlen : len.toNat = 0 ∨ maxPacket < len.toNat
    · rw [if_pos (hbad.mpr hlen), if_pos hlen]
    · have htotal : (headerSize + len).toNat = 4 + len.toNat := by
        have : headerSize.toNat = 4 := rfl
        rw [UInt32.toNat_add, this]
        simp only [maxPacket] at hlen
        omega
      rw [if_neg (fun h => hlen (hbad.mp h)), if_neg hlen, htotal]
      have hdrop : (b0 :: b1 :: b2 :: b3 :: data).drop (4 + len.toNat) = data.drop len.toNat := by
        rw [Nat.add_comm]
        rfl
      simp only [List.length_cons, hdrop]
      by_cases hshort : data.length < len.toNat
      · rw [if_pos (by omega), if_pos hshort]
      · rw [if_neg (by omega), if_neg hshort]
  | [] | [_] | [_, _] | [_, _, _] => rfl

/-- The packets `ps` were taken off `buf`; `rest` is what the parser waits
behind, or empty if it came upon an illegal length. -/
inductive Drained (buf : ReceiveBuffer) : List Packet → ReceiveBuffer → Prop where
  | waits {ps : List Packet} {rest : ReceiveBuffer} :
      Decodes (stream maxPacket) buf ps rest → Drained buf ps rest
  | cleared {ps : List Packet} {r : ReceiveBuffer} :
      Takes (stream maxPacket) buf ps r → next maxPacket r = .bad → Drained buf ps []

theorem Drained.item {buf rest buf' : ReceiveBuffer} {p : Packet} {ps : List Packet}
    (hp : next maxPacket buf = .item p rest) (h : Drained rest ps buf') :
    Drained buf (p :: ps) buf' := by
  cases h with
  | waits hd => exact .waits ⟨.item hp hd.1, hd.2⟩
  | cleared ht hbad => exact .cleared (.item hp ht) hbad

/-- **The drain loop takes every complete packet.** -/
theorem drain_drained {n : Nat} {buf : ReceiveBuffer} (hn : buf.length ≤ n) (q : PacketQueue) :
    ∃ ps rest, drain n q buf = (q ++ ps, rest) ∧ Drained buf ps rest := by
  induction n generalizing buf q with
  | zero =>
    obtain rfl : buf = [] := List.length_eq_zero_iff.mp (by omega)
    exact ⟨[], [], by rw [drain, List.append_nil], .waits ⟨.nil _, rfl⟩⟩
  | succ n ih =>
    have he := tryParsePacket_eq buf
    simp only [drain, he]
    cases hnext : next maxPacket buf with
    | wait => exact ⟨[], buf, by rw [List.append_nil], .waits ⟨.nil _, hnext⟩⟩
    | bad => exact ⟨[], [], by rw [List.append_nil], .cleared (.nil _) hnext⟩
    | item p rest =>
      obtain ⟨hbuf, -, -⟩ := LengthPrefixed.next_item hnext
      have hlen : rest.length ≤ n := by
        rw [hbuf, List.length_append, LengthPrefixed.length_frame] at hn
        omega
      obtain ⟨ps, rest', hd, hdr⟩ := ih hlen (PacketQueue.push p q)
      refine ⟨p :: ps, rest', ?_, hdr.item hnext⟩
      show drain n (PacketQueue.push p q) rest = _
      rw [hd, PacketQueue.push, List.append_assoc]
      rfl

end IsaacP2P.Client
