import IsaacP2P.Client.Outgoing
import IsaacP2P.Client.Receiving
import IsaacP2P.Hook.Hook

/-!
# The buffers of the hook

`sendBufferFor` has sixteen bytes of header, and fails where the 32-bit total
wraps; `steamIDOf` undoes `steamIDBytes`.
-/

namespace IsaacP2P.Hook

open Client

@[simp] theorem length_steamIDBytes (id : CSteamID) : (steamIDBytes id).length = 8 :=
  LittleEndian.length_encode 8 id.toNat

theorem steamIDOf_bytes (id : CSteamID) : steamIDOf (steamIDBytes id) = id := by
  rw [steamIDOf, steamIDBytes, LittleEndian.decode_encode (by exact id.toNat_lt), UInt64.ofNat_toNat]

theorem steamIDBytes_inj {id id' : CSteamID} (h : steamIDBytes id = steamIDBytes id') : id = id' := by
  rw [← steamIDOf_bytes id, h, steamIDOf_bytes]

theorem memcpy_eq_some {buf src buf' : List UInt8} {off : Nat} (h : memcpy buf off src = some buf') :
    off + src.length ≤ buf.length ∧ buf' = buf.take off ++ src ++ buf.drop (off + src.length) := by
  unfold memcpy at h
  split at h
  · cases h
  · cases h
    exact ⟨by omega, rfl⟩

theorem length_memcpy {buf src buf' : List UInt8} {off : Nat} (h : memcpy buf off src = some buf') :
    buf'.length = buf.length := by
  obtain ⟨hle, rfl⟩ := memcpy_eq_some h
  simp only [List.length_append, List.length_take, List.length_drop]
  omega

/-- A buffer that was built has its header, and its length did not wrap. -/
theorem length_sendBufferFor {target localID : CSteamID} {src : Option (List UInt8)}
    {cubData : UInt32} {buf : List UInt8}
    (h : sendBufferFor target localID src cubData = some buf) :
    16 ≤ buf.length ∧ buf.length < 2 ^ 32 := by
  unfold sendBufferFor at h
  obtain ⟨b₁, h₁, h⟩ := Option.bind_eq_some_iff.mp h
  obtain ⟨b₂, h₂, h⟩ := Option.bind_eq_some_iff.mp h
  have hl₁ := length_memcpy h₁
  have hl₂ := length_memcpy h₂
  have hle := (memcpy_eq_some h₂).1
  rw [length_steamIDBytes] at hle
  rw [List.length_replicate] at hl₁
  have hlt := (8 + 8 + cubData).toNat_lt
  have hbuf : buf.length = b₂.length := by
    split at h
    · cases h
      rfl
    · split at h
      · cases h
        rfl
      · split at h
        · cases h
        · exact length_memcpy h
  omega

theorem sendBufferFor_eq {payload : List UInt8} (hlen : payload.length < 2 ^ 32 - 16)
    (target localID : CSteamID) :
    sendBufferFor target localID (some payload) (UInt32.ofNat payload.length) =
      some (steamIDBytes target ++ steamIDBytes localID ++ payload) := by
  have hcub : (UInt32.ofNat payload.length).toNat = payload.length := by
    rw [UInt32.toNat_ofNat', Nat.mod_eq_of_lt (by omega)]
  have htotal : (8 + 8 + UInt32.ofNat payload.length).toNat = 16 + payload.length := by
    rw [UInt32.toNat_add, hcub, show (8 + 8 : UInt32).toNat = 16 from rfl, Nat.mod_eq_of_lt (by omega)]
  have h₁ : memcpy (List.replicate (16 + payload.length) 0) 0 (steamIDBytes target) =
      some (steamIDBytes target ++ List.replicate (8 + payload.length) 0) := by
    rw [memcpy, if_neg (by simp; omega)]
    simp only [List.take_zero, List.nil_append, Nat.zero_add, length_steamIDBytes,
      List.drop_replicate]
    congr 3
    omega
  have h₂ : memcpy (steamIDBytes target ++ List.replicate (8 + payload.length) 0) 8
      (steamIDBytes localID) = some (steamIDBytes target ++ steamIDBytes localID ++
        List.replicate payload.length 0) := by
    rw [memcpy, if_neg (by simp; omega)]
    have htake : (steamIDBytes target ++ List.replicate (8 + payload.length) 0).take 8 =
        steamIDBytes target := List.take_left' (length_steamIDBytes target)
    have hdrop : (steamIDBytes target ++ List.replicate (8 + payload.length) 0).drop
        (8 + (steamIDBytes localID).length) = List.replicate payload.length 0 := by
      rw [← List.drop_drop, List.drop_left' (length_steamIDBytes target), length_steamIDBytes,
        List.drop_replicate]
      congr 1
      omega
    rw [htake, hdrop]
  simp only [sendBufferFor, htotal, h₁, h₂, hcub, Option.bind_eq_bind, Option.bind_some,
    Nat.lt_irrefl, if_false]
  have hhead : (steamIDBytes target ++ steamIDBytes localID).length = 16 := by
    simp only [List.length_append, length_steamIDBytes]
  cases payload with
  | nil => rfl
  | cons b bs =>
    rw [if_neg (size_ne_zero (by simp) (by omega)), List.take_length, memcpy,
      if_neg (by simp; omega), List.take_left' hhead, ← List.drop_drop, List.drop_left' hhead]
    simp

end IsaacP2P.Hook
