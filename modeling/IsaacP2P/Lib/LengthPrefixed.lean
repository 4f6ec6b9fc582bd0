import IsaacP2P.Lib.LittleEndian
import IsaacP2P.Lib.Streaming

/-!
# Packets behind a four-byte length

`frame p` is the packet `p` behind its length, low byte first. `stream max`
is the decoder that accepts the lengths from 1 to `max`; any other length is
bad input.
-/

namespace LengthPrefixed

open Streaming LittleEndian

/-- The four-byte length of `p`, then `p`. -/
def frame (p : List UInt8) : List UInt8 := encode 4 p.length ++ p

/-- What stands at the head of a buffer. -/
def next (max : Nat) : List UInt8 → Verdict (List UInt8) UInt8
  | b0 :: b1 :: b2 :: b3 :: data =>
    let len := decode [b0, b1, b2, b3]
    if len = 0 ∨ max < len then .bad
    else if data.length < len then .wait
    else .item (data.take len) (data.drop len)
  | _ => .wait

/-- The decoder of packets of at most `max` bytes. -/
def stream (max : Nat) : Decoder (List UInt8) UInt8 where
  next := next max
  item_append {buf x rest} more h := by
    match buf with
    | b0 :: b1 :: b2 :: b3 :: data =>
      simp only [next, List.cons_append, List.length_append] at h ⊢
      split at h
      · cases h
      · rw [if_neg ‹_›]
        split at h
        · cases h
        · rename_i hlen
          cases h
          rw [if_neg (by omega), List.take_append_of_le_length (by omega),
            List.drop_append_of_le_length (by omega)]
    | [] | [_] | [_, _] | [_, _, _] => cases h
  bad_append {buf} more h := by
    match buf with
    | b0 :: b1 :: b2 :: b3 :: data =>
      simp only [next, List.cons_append] at h ⊢
      split at h
      · rw [if_pos ‹_›]
      · split at h <;> cases h
    | [] | [_] | [_, _] | [_, _, _] => cases h

@[simp] theorem stream_next (max : Nat) : (stream max).next = next max := rfl

@[simp] theorem length_frame (p : List UInt8) : (frame p).length = 4 + p.length := by
  rw [frame, List.length_append, length_encode]

theorem next_nil (max : Nat) : next max [] = .wait := rfl

theorem next_encode (max n : Nat) (hn : n < 256 ^ 4) (data : List UInt8) :
    next max (encode 4 n ++ data) =
      if n = 0 ∨ max < n then .bad
      else if data.length < n then .wait
      else .item (data.take n) (data.drop n) := by
  have hd := decode_encode hn
  simp only [encode, List.cons_append, List.nil_append, next] at hd ⊢
  rw [hd]

/-- A frame in front of a stream is read back if its length is legal. -/
theorem next_frame {max : Nat} {p : List UInt8} (hp : p.length < 256 ^ 4) (h0 : p ≠ [])
    (hmax : p.length ≤ max) (more : List UInt8) : next max (frame p ++ more) = .item p more := by
  have hne : p.length ≠ 0 := by simpa using h0
  rw [frame, List.append_assoc, next_encode max _ hp, if_neg (by omega),
    if_neg (by rw [List.length_append]; omega), List.take_left, List.drop_left]

theorem next_item {max : Nat} {buf p rest : List UInt8} (h : next max buf = .item p rest) :
    buf = frame p ++ rest ∧ p ≠ [] ∧ p.length ≤ max := by
  match buf with
  | b0 :: b1 :: b2 :: b3 :: data =>
    simp only [next] at h
    split at h
    · cases h
    · rename_i hlegal
      split at h
      · cases h
      · rename_i hlen
        cases h
        have hp : (data.take (decode [b0, b1, b2, b3])).length = decode [b0, b1, b2, b3] := by
          rw [List.length_take]
          omega
        have he : encode 4 (decode [b0, b1, b2, b3]) = [b0, b1, b2, b3] :=
          encode_decode [b0, b1, b2, b3]
        refine ⟨?_, ?_, by omega⟩
        · rw [frame, hp, he, List.append_assoc, List.take_append_drop]
          rfl
        · intro h0
          rw [h0] at hp
          simp only [List.length_nil] at hp
          omega
  | [] | [_] | [_, _] | [_, _, _] => cases h

theorem takes_eq {max : Nat} {bs rest : List UInt8} {ps : List (List UInt8)}
    (h : Takes (stream max) bs ps rest) : bs = ps.flatMap frame ++ rest := by
  induction h with
  | nil => rfl
  | item hi _ ih =>
    obtain ⟨hbuf, -, -⟩ := next_item hi
    rw [hbuf, ih, List.flatMap_cons, List.append_assoc]

theorem takes_legal {max : Nat} {bs rest : List UInt8} {ps : List (List UInt8)}
    (h : Takes (stream max) bs ps rest) : ∀ p ∈ ps, p ≠ [] ∧ p.length ≤ max := by
  induction h with
  | nil => intro p hp; cases hp
  | item hi _ ih =>
    intro p hp
    rcases List.mem_cons.mp hp with rfl | hp
    · exact (next_item hi).2
    · exact ih p hp

theorem decodes_frames {max : Nat} {bs rest : List UInt8} {ps : List (List UInt8)}
    (hmax : max < 256 ^ 4) (h : Takes (stream max) bs ps rest) :
    Decodes (stream max) (ps.flatMap frame) ps [] := by
  refine decodes_flatMap rfl fun p hp more => ?_
  obtain ⟨h0, hle⟩ := takes_legal h p hp
  exact next_frame (by omega) h0 hle more

/-- A frame of any length whose packet is read back is that of the packet. -/
theorem item_of_frame {max : Nat} {f p more rest : List UInt8} (hf : f.length < 256 ^ 4)
    (h : next max (frame f ++ more) = .item p rest) : p = f ∧ rest = more := by
  rw [frame, List.append_assoc, next_encode max _ hf] at h
  split at h
  · cases h
  · rw [if_neg (by rw [List.length_append]; omega), List.take_left, List.drop_left] at h
    cases h
    exact ⟨rfl, rfl⟩

/-- What is taken off the beginning of a stream of frames is the beginning of what was framed,
whether the lengths are legal or not. -/
theorem takes_prefix {max : Nat} {bs rest : List UInt8} {ps fs : List (List UInt8)}
    (h : Takes (stream max) bs ps rest) (hbs : bs <+: fs.flatMap frame)
    (hlen : ∀ f ∈ fs, f.length < 256 ^ 4) : ps <+: fs := by
  induction h generalizing fs with
  | nil => exact List.nil_prefix
  | @item bs rest r p ps hi _ ih =>
    obtain ⟨more, hmore⟩ := hbs
    cases fs with
    | nil =>
      have := congrArg List.length hmore
      rw [(next_item hi).1] at this
      simp only [List.flatMap_nil, List.length_append, length_frame, List.length_nil] at this
      omega
    | cons f fs =>
      obtain ⟨hf, hfs⟩ := List.forall_mem_cons.mp hlen
      have hhead := (stream max).item_append more hi
      rw [hmore, List.flatMap_cons] at hhead
      obtain ⟨rfl, hrest⟩ := item_of_frame hf hhead
      exact List.cons_prefix_cons.mpr ⟨rfl, ih ⟨more, hrest⟩ hfs⟩

/-- If a decoder gets through a stream of frames, it has found each of them. -/
theorem decodes_all {max : Nat} {rest : List UInt8} {ps fs : List (List UInt8)}
    (h : Decodes (stream max) (fs.flatMap frame) ps rest) (hlen : ∀ f ∈ fs, f.length < 256 ^ 4) :
    ps = fs ∧ rest = [] := by
  obtain ⟨ht, hw⟩ := h
  obtain ⟨more, rfl⟩ := takes_prefix ht List.prefix_rfl hlen
  have hrest : more.flatMap frame = rest := by
    have := takes_eq ht
    rw [List.flatMap_append] at this
    exact List.append_cancel_left this
  cases more with
  | nil => exact ⟨(List.append_nil _).symm, hrest.symm⟩
  | cons f more =>
    -- a frame that is there is not waited for
    have hf := hlen f (List.mem_append_right _ (List.mem_cons_self ..))
    rw [← hrest, List.flatMap_cons, frame, List.append_assoc, stream_next,
      next_encode max _ hf, List.take_left, List.drop_left] at hw
    split at hw
    · cases hw
    · rw [if_neg (by rw [List.length_append]; omega)] at hw
      cases hw

/-- The beginning of a legal frame is waited behind. -/
theorem next_of_prefix {max : Nat} {p bs : List UInt8} (hp : p.length < 256 ^ 4) (h0 : p ≠ [])
    (hmax : p.length ≤ max) (hbs : bs <+: frame p) (hlen : bs.length < (frame p).length) :
    next max bs = .wait := by
  obtain ⟨more, hmore⟩ := hbs
  rw [length_frame] at hlen
  match bs with
  | b0 :: b1 :: b2 :: b3 :: data =>
    have hhead : [b0, b1, b2, b3] = encode 4 p.length ∧ data ++ more = p := by
      have hsplit : [b0, b1, b2, b3] ++ (data ++ more) = encode 4 p.length ++ p := hmore
      exact List.append_inj hsplit (by rw [length_encode]; rfl)
    have hne : p.length ≠ 0 := by simpa using h0
    simp only [List.length_cons] at hlen
    rw [next, hhead.1, decode_encode hp, if_neg (by omega), if_pos (by omega)]
  | [] | [_] | [_, _] | [_, _, _] => rfl

theorem next_bad {max : Nat} {buf : List UInt8} (h : next max buf = .bad) :
    ∃ head data, buf = head ++ data ∧ head.length = 4 ∧ next max head = .bad := by
  match buf with
  | b0 :: b1 :: b2 :: b3 :: data =>
    refine ⟨[b0, b1, b2, b3], data, rfl, rfl, ?_⟩
    simp only [next] at h ⊢
    split at h
    · rw [if_pos ‹_›]
    · split at h <;> cases h
  | [] | [_] | [_, _] | [_, _, _] => cases h

theorem length_of_wait {max : Nat} {buf : List UInt8} (h : next max buf = .wait) :
    buf.length < 4 + max ∨ buf.length < 4 := by
  match buf with
  | b0 :: b1 :: b2 :: b3 :: data =>
    simp only [next] at h
    split at h
    · cases h
    · split at h
      · simp only [List.length_cons]
        omega
      · cases h
  | [] | [_] | [_, _] | [_, _, _] => simp

end LengthPrefixed
