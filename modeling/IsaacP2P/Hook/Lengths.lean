import IsaacP2P.Client.Outgoing
import IsaacP2P.Hook.Buffers

/-!
# Lengths on the way to `send()`

The hook adds the sixteen bytes of its header to a 32-bit length, and the library
hands the length of a buffer to `send()` as an `int`. The buffer of the hook has
the right size up to `2 ^ 32 - 17` bytes of data, and the argument of `send()` is
the number of bytes up to `2 ^ 31 - 1` of them (`lengths_exact_iff`).
-/

namespace IsaacP2P.Hook

open Client

/-! ## The buffer of the hook -/

theorem memcpy_inside (buf : List UInt8) (off : Nat) (src : List UInt8)
    (h : off + src.length ≤ buf.length) : ∃ buf', memcpy buf off src = some buf' :=
  ⟨_, if_neg (by omega)⟩

/-- **The buffer has sixteen bytes and those of the data, all copies staying
inside, exactly if the sum does not wrap.** -/
theorem sendBufferFor_exact_iff {target localID : CSteamID} {src : Option (List UInt8)}
    {cubData : UInt32} (hsrc : ∀ bytes, src = some bytes → cubData.toNat ≤ bytes.length) :
    (∃ buf, sendBufferFor target localID src cubData = some buf ∧
      buf.length = 16 + cubData.toNat) ↔ cubData.toNat + 16 < 2 ^ 32 := by
  constructor
  · rintro ⟨buf, hbuf, hlen⟩
    have := (length_sendBufferFor hbuf).2
    omega
  · intro hfits
    have htotal : (8 + 8 + cubData).toNat = 16 + cubData.toNat := by
      rw [UInt32.toNat_add, show (8 + 8 : UInt32).toNat = 16 from rfl, Nat.mod_eq_of_lt (by omega)]
    have hlen : (List.replicate (16 + cubData.toNat) (0 : UInt8)).length = 16 + cubData.toNat :=
      List.length_replicate
    obtain ⟨b₁, h₁⟩ := memcpy_inside (List.replicate (16 + cubData.toNat) 0) 0
      (steamIDBytes target) (by rw [hlen, length_steamIDBytes]; omega)
    have hl₁ := (length_memcpy h₁).trans hlen
    obtain ⟨b₂, h₂⟩ := memcpy_inside b₁ 8 (steamIDBytes localID)
      (by rw [hl₁, length_steamIDBytes]; omega)
    have hl₂ := (length_memcpy h₂).trans hl₁
    simp only [sendBufferFor, htotal, h₁, h₂, Option.bind_eq_bind, Option.bind_some]
    cases src with
    | none => exact ⟨b₂, rfl, hl₂⟩
    | some bytes =>
      have henough := hsrc bytes rfl
      by_cases hzero : cubData = 0
      · exact ⟨b₂, if_pos hzero, hl₂⟩
      · have htake : (bytes.take cubData.toNat).length = cubData.toNat := by
          rw [List.length_take, Nat.min_eq_left henough]
        obtain ⟨b₃, h₃⟩ := memcpy_inside b₂ 16 (bytes.take cubData.toNat)
          (by rw [hl₂, htake])
        refine ⟨b₃, ?_, (length_memcpy h₃).trans hl₂⟩
        simp only [if_neg hzero, if_neg (Nat.not_lt.mpr henough)]
        exact h₃

/-! ## The argument of `send()` -/

theorem bmod_eq_self_iff (n : Nat) : Int.bmod n (2 ^ 32) = n ↔ n < 2 ^ 31 := by
  constructor
  · intro h
    have hlt : Int.bmod n (2 ^ 32) < ((2 ^ 32 : Nat) + 1) / 2 := Int.bmod_lt (by decide)
    rw [h] at hlt
    omega
  · intro h
    exact Int.bmod_eq_of_le (by omega) (by omega)

theorem send_exact_iff {h : SocketHandle} {size : Nat} {len : Int} {r : Sent} {tr : List Client.Ev} :
    (∃ r', Client.Ev.send h size len r :: tr = .send h size size r' :: tr) ↔ len = size := by
  constructor
  · rintro ⟨r', he⟩
    injection he with he
    injection he
  · rintro rfl
    exact ⟨r, rfl⟩

/-- **No length wraps or is truncated** exactly within these bounds: on the data
in the hook, on the frame in `sendPacket`, on the buffer in `processWrite`. -/
theorem lengths_exact_iff (k : Kernel) (peer : PeerID) :
    (∀ (target localID : CSteamID) (src : Option (List UInt8)) (cubData : UInt32),
      (∀ bytes, src = some bytes → cubData.toNat ≤ bytes.length) →
      ((∃ buf, sendBufferFor target localID src cubData = some buf ∧
        buf.length = 16 + cubData.toNat) ↔ cubData.toNat + 16 < 2 ^ 32)) ∧
    (∀ (d : List UInt8) (m : Manager) (c : Connection),
      Frames peer (some d) m d c →
      ((∃ r, (sendPacket k peer (some d) m).2.trace =
        .send c.socket (createSendFrame d).length (createSendFrame d).length r ::
          .packet c.socket d :: m.trace) ↔ d.length + 4 < 2 ^ 31)) ∧
    ∀ (c : Connection) (m : Manager), c.sendBuffer ≠ [] →
      ((∃ r, (processWrite k peer c m).trace =
        .send c.socket c.sendBuffer.length c.sendBuffer.length r :: m.trace) ↔
          c.sendBuffer.length < 2 ^ 31) := by
  refine ⟨fun _ _ _ _ hsrc => sendBufferFor_exact_iff hsrc, fun d m c hf => ?_,
    fun c m hne => ?_⟩
  · obtain ⟨r, hsend⟩ := @sendPacket_send k m peer d c hf
    rw [hsend, ← length_createSendFrame, ← bmod_eq_self_iff, send_exact_iff]
  · obtain ⟨r, hsend⟩ := @processWrite_send k m peer c hne
    rw [hsend, ← bmod_eq_self_iff, send_exact_iff]

/-- A connection with a byte left to send. -/
def waitingConnection : Connection :=
  { socket := 7, peerID := 1, connected := true, sendBuffer := [3] }

def waitingManager : Manager where
  mInitialized := true
  mConnections := (∅ : AList fun _ : PeerID => Connection).insert 1 waitingConnection

theorem lengths_exact_small :
    (∃ buf, sendBufferFor 2 1 (some [9]) 1 = some buf ∧ buf.length = 16 + (1 : UInt32).toNat) ∧
    (∃ r, (sendPacket {} 1 (some [9]) waitingManager).2.trace =
      .send 7 (createSendFrame [9]).length (createSendFrame [9]).length r ::
        .packet 7 [9] :: waitingManager.trace) ∧
    ∃ r, (processWrite {} 1 waitingConnection waitingManager).trace =
      .send 7 [(3 : UInt8)].length [(3 : UInt8)].length r :: waitingManager.trace := by
  refine ⟨((lengths_exact_iff {} 1).1 2 1 (some [9]) 1 ?_).mpr (by decide),
    ((lengths_exact_iff {} 1).2.1 [9] waitingManager waitingConnection ?_).mpr (by decide),
    ((lengths_exact_iff {} 1).2.2 waitingConnection waitingManager (by decide)).mpr (by decide)⟩
  · intro bytes he
    cases he
    decide
  · exact ⟨rfl, by decide, rfl, rfl⟩

/-- `0xFFFFFFF0` bytes: the sum is 0, and the first copy is behind the end. -/
theorem sendBufferFor_wraps : ¬ ∀ (target localID : CSteamID) (src : Option (List UInt8))
    (cubData : UInt32), (∀ bytes, src = some bytes → cubData.toNat ≤ bytes.length) →
    ∃ buf, sendBufferFor target localID src cubData = some buf ∧
      buf.length = 16 + cubData.toNat := by
  intro hall
  obtain ⟨buf, hbuf, -⟩ := hall 2 1 none 0xFFFFFFF0 (by simp)
  have hnone : sendBufferFor 2 1 none 0xFFFFFFF0 = none := by decide
  rw [hnone] at hbuf
  cases hbuf

end IsaacP2P.Hook
