import Mathlib.Data.List.Basic

/-!
# Arrays filled from the front

An array of `cap` elements of which the first `len` are filled. An access names
the elements it is for and has no result unless all of them are filled; `fill`
stores behind them what there is room for. The lemmas say what each operation
makes of the `contents`.
-/

/-- The elements behind the first `len` are whatever was stored there before. -/
structure FilledArray (β : Type*) (cap : Nat) where
  array : List β
  len : Nat
  size : array.length = cap
  fits : len ≤ cap

namespace FilledArray

variable {β : Type*} {cap : Nat}

def contents (a : FilledArray β cap) : List β := a.array.take a.len

def blank (cap : Nat) (x : β) : FilledArray β cap where
  array := List.replicate cap x
  len := 0
  size := List.length_replicate
  fits := Nat.zero_le cap

def get (i : Nat) (a : FilledArray β cap) : Option β :=
  if i < a.len then a.array[i]? else none

def slice (off n : Nat) (a : FilledArray β cap) : Option (List β) :=
  if off + n ≤ a.len then some ((a.array.drop off).take n) else none

/-- Store behind the filled part, up to the end of the array. -/
def fill (xs : List β) (a : FilledArray β cap) : FilledArray β cap where
  array := a.array.take a.len ++ xs.take (cap - a.len) ++
    a.array.drop (a.len + (xs.take (cap - a.len)).length)
  len := a.len + (xs.take (cap - a.len)).length
  size := by
    have := a.size
    have := a.fits
    simp only [List.length_append, List.length_take, List.length_drop]
    omega
  fits := by
    have := a.fits
    simp only [List.length_take]
    omega

/-- `memmove` of `n` elements from `src` to `dst`, within the filled part. -/
def move (dst src n : Nat) (a : FilledArray β cap) : Option (FilledArray β cap) :=
  if h : src + n ≤ a.len ∧ dst + n ≤ a.len then
    some
      { array := a.array.take dst ++ (a.array.drop src).take n ++ a.array.drop (dst + n)
        len := a.len
        size := by
          have := a.size
          have := a.fits
          simp only [List.length_append, List.length_take, List.length_drop]
          omega
        fits := a.fits }
  else none

/-- Keep the first `n` elements at most. -/
def truncate (n : Nat) (a : FilledArray β cap) : FilledArray β cap where
  array := a.array
  len := min n a.len
  size := a.size
  fits := Nat.le_trans (Nat.min_le_right _ _) a.fits

variable {a b : FilledArray β cap}

@[simp] theorem length_contents (a : FilledArray β cap) : a.contents.length = a.len := by
  have := a.size
  have := a.fits
  rw [contents, List.length_take]
  omega

@[simp] theorem contents_blank (x : β) : (blank cap x).contents = [] := rfl

theorem get_eq (i : Nat) (a : FilledArray β cap) : a.get i = a.contents[i]? := by
  rw [get, contents]
  split
  · rw [List.getElem?_take_of_lt ‹_›]
  · rw [List.getElem?_take_eq_none (by omega)]

theorem slice_eq {off n : Nat} (h : off + n ≤ a.len) :
    a.slice off n = some ((a.contents.drop off).take n) := by
  rw [slice, if_pos h, contents, List.drop_take, List.take_take, Nat.min_eq_left (by omega)]

theorem slice_take {off n m : Nat} (h : off + n ≤ a.len) (hm : m ≤ n) :
    a.slice off m = some (((a.contents.drop off).take n).take m) := by
  rw [slice_eq (by omega), List.take_take, Nat.min_eq_left hm]

theorem slice_drop {off n m : Nat} (h : off + n ≤ a.len) (hm : m ≤ n) :
    a.slice (off + m) (n - m) = some (((a.contents.drop off).take n).drop m) := by
  rw [slice_eq (by omega), List.drop_take, List.drop_drop]

theorem contents_fill (xs : List β) (a : FilledArray β cap) :
    (a.fill xs).contents = a.contents ++ xs.take (cap - a.len) := by
  have hlen : (a.contents ++ xs.take (cap - a.len)).length = (a.fill xs).len := by
    rw [List.length_append, length_contents, fill]
  exact List.take_left' hlen

theorem contents_truncate (n : Nat) (a : FilledArray β cap) :
    (a.truncate n).contents = a.contents.take n := by
  rw [contents, contents, truncate, List.take_take]

theorem move_eq {dst src n : Nat} (h : src + n ≤ a.len ∧ dst + n ≤ a.len) :
    ∃ b, a.move dst src n = some b ∧ b.len = a.len ∧
      b.array = a.array.take dst ++ (a.array.drop src).take n ++ a.array.drop (dst + n) :=
  ⟨_, dif_pos h, rfl, rfl⟩

/-- The filled part behind `n` moved to the front. -/
theorem move_front {n : Nat} (h : n ≤ a.len) :
    ∃ b, a.move 0 n (a.len - n) = some b ∧ b.len = a.len ∧
      b.contents.take (a.len - n) = a.contents.drop n := by
  obtain ⟨b, hb, hlen, harray⟩ := move_eq (a := a)
    (show n + (a.len - n) ≤ a.len ∧ 0 + (a.len - n) ≤ a.len by omega)
  refine ⟨b, hb, hlen, ?_⟩
  have hmoved : ((a.array.drop n).take (a.len - n)).length = a.len - n := by
    have := a.size
    have := a.fits
    rw [List.length_take, List.length_drop]
    omega
  rw [contents, contents, hlen, harray, List.take_take, Nat.min_eq_left (by omega),
    List.drop_take, List.take_zero, List.nil_append]
  exact List.take_left' hmoved

end FilledArray
