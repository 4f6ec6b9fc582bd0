import Mathlib.Data.List.Basic
import Mathlib.Logic.Function.Basic

/-!
# A memory of blocks

A heap maps block numbers to blocks of cells. `Op` is an operation on it: a cell
is written, a block comes or goes; `step` fails outside the blocks there are.

`withdraw o w n` is the heap without the block `n` and with the first cell of
`o` back at `w`. Operations that spare these do the same whether the patch is
there or not (`step_withdraw`), so a patch can be taken out after any number of
them as if it had never been there.
-/

namespace Blocks

variable {ω : Type*}

abbrev Heap (ω : Type*) := Nat → Option (List ω)

def load (h : Heap ω) (b i : Nat) : Option ω := (h b).bind (·[i]?)

inductive Op (ω : Type*) where
  | store (b i : Nat) (w : ω)
  | new (b : Nat) (cells : List ω)
  | delete (b : Nat)

def Op.block : Op ω → Nat
  | .store b _ _ | .new b _ | .delete b => b

def Op.words : Op ω → List ω
  | .store _ _ w => [w]
  | .new _ cells => cells
  | .delete _ => []

def step : Op ω → Heap ω → Option (Heap ω)
  | .store b i w, h => do
    let cells ← h b
    if i < cells.length then some (Function.update h b (some (cells.set i w))) else none
  | .new b cells, h => if (h b).isNone then some (Function.update h b (some cells)) else none
  | .delete b, h => if (h b).isSome then some (Function.update h b none) else none

/-- The operation is on another block than `n`, and on `o` it only writes behind the
first cell. -/
def Op.spares (o n : Nat) (op : Op ω) : Bool :=
  op.block != n && (op.block != o ||
    match op with
    | .store _ i _ => i != 0
    | _ => false)

theorem step_other {op : Op ω} {h h' : Heap ω} (hs : step op h = some h') {b : Nat}
    (hb : op.block ≠ b) : h' b = h b := by
  cases op with
  | store c i w =>
    obtain ⟨cells, -, hs⟩ := Option.bind_eq_some_iff.mp hs
    split at hs
    · cases hs
      exact Function.update_of_ne (Ne.symm hb) _ _
    · cases hs
  | new c cells | delete c =>
    simp only [step] at hs
    split at hs
    · cases hs
      exact Function.update_of_ne (Ne.symm hb) _ _
    · cases hs

theorem step_store {b i : Nat} {w : ω} {h h' : Heap ω} (hs : step (.store b i w) h = some h') :
    ∃ cells, h b = some cells ∧ i < cells.length ∧ h' b = some (cells.set i w) := by
  obtain ⟨cells, hcells, hs⟩ := Option.bind_eq_some_iff.mp hs
  split at hs
  · cases hs
    exact ⟨cells, hcells, ‹_›, Function.update_self ..⟩
  · cases hs

theorem step_new {b : Nat} {cells : List ω} {h h' : Heap ω}
    (hs : step (.new b cells) h = some h') : h b = none ∧ h' b = some cells := by
  simp only [step] at hs
  split at hs
  · cases hs
    exact ⟨Option.isNone_iff_eq_none.mp ‹_›, Function.update_self ..⟩
  · cases hs

theorem mem_of_step {op : Op ω} {h h' : Heap ω} (hs : step op h = some h') {b : Nat}
    {cells : List ω} (hb : h' b = some cells) {w : ω} (hw : w ∈ cells) :
    w ∈ op.words ∨ ∃ cells', h b = some cells' ∧ w ∈ cells' := by
  by_cases hblock : op.block = b
  · subst hblock
    cases op with
    | store c i x =>
      obtain ⟨old, hold, hs⟩ := Option.bind_eq_some_iff.mp hs
      split at hs
      · cases hs
        rw [show Op.block (.store c i x) = c from rfl, Function.update_self] at hb
        cases hb
        rcases List.mem_or_eq_of_mem_set hw with hw | rfl
        · exact .inr ⟨old, hold, hw⟩
        · exact .inl (List.mem_singleton_self _)
      · cases hs
    | new c new =>
      simp only [step] at hs
      split at hs
      · cases hs
        rw [show Op.block (.new c new) = c from rfl, Function.update_self] at hb
        cases hb
        exact .inl hw
      · cases hs
    | delete c =>
      simp only [step] at hs
      split at hs
      · cases hs
        rw [show Op.block (.delete c : Op ω) = c from rfl, Function.update_self] at hb
        cases hb
      · cases hs
  · exact .inr ⟨cells, (step_other hs hblock).symm.trans hb, hw⟩

/-! ## A patch -/

/-- The heap without the block `n`, the first cell of `o` back at `w`. -/
def withdraw (o : Nat) (w : ω) (n : Nat) (h : Heap ω) : Heap ω := fun b =>
  if b = n then none
  else if b = o then (h o).map (·.set 0 w)
  else h b

theorem withdraw_other {o n b : Nat} (hn : b ≠ n) (ho : b ≠ o) (w : ω) (h : Heap ω) :
    withdraw o w n h b = h b := by
  rw [withdraw, if_neg hn, if_neg ho]

theorem withdraw_object {o n : Nat} (hn : o ≠ n) (w : ω) (h : Heap ω) :
    withdraw o w n h o = (h o).map (·.set 0 w) := by
  rw [withdraw, if_neg hn, if_pos rfl]

/-- A block set in the patched heap is set in the heap without the patch. -/
theorem withdraw_update {o n b : Nat} (hn : b ≠ n) (ho : b ≠ o) (w : ω) (h : Heap ω)
    (cells : Option (List ω)) :
    withdraw o w n (Function.update h b cells) = Function.update (withdraw o w n h) b cells := by
  funext c
  by_cases hc : c = b
  · subst hc
    rw [withdraw_other hn ho, Function.update_self, Function.update_self]
  · rw [Function.update_of_ne hc]
    by_cases hcn : c = n
    · rw [withdraw, if_pos hcn, withdraw, if_pos hcn]
    · by_cases hco : c = o
      · subst hco
        rw [withdraw_object hcn, withdraw_object hcn, Function.update_of_ne hc]
      · rw [withdraw_other hcn hco, withdraw_other hcn hco, Function.update_of_ne hc]

/-- **Withdrawing a patch commutes** with the operations that spare it. -/
theorem step_withdraw {o n : Nat} {op : Op ω} (hspares : op.spares o n = true) (hon : o ≠ n) (w : ω)
    (h : Heap ω) : step op (withdraw o w n h) = (step op h).map (withdraw o w n) := by
  simp only [Op.spares, Bool.and_eq_true, bne_iff_ne, Bool.or_eq_true] at hspares
  obtain ⟨hn, ho⟩ := hspares
  by_cases hblock : op.block = o
  · cases op with
    | store b i x =>
      obtain rfl : b = o := hblock
      have hi : i ≠ 0 := by simpa [Op.block] using ho
      simp only [step, withdraw_object hon]
      cases hcells : h b with
      | none => rfl
      | some cells =>
        simp only [Option.map_some, Option.bind_eq_bind, Option.bind_some, List.length_set]
        split
        · refine congrArg some (funext fun c => ?_)
          by_cases hc : c = b
          · subst hc
            rw [withdraw_object hon, Function.update_self, Function.update_self, Option.map_some,
              List.set_comm _ _ hi]
          · rw [Function.update_of_ne hc, withdraw, withdraw, Function.update_of_ne hc,
              if_neg hc, if_neg hc]
        · rfl
    | new _ _ | delete _ => simp [hblock] at ho
  · cases op with
    | store b i x =>
      have hb : b ≠ o := hblock
      have hn : b ≠ n := hn
      simp only [step, withdraw_other hn hb]
      cases h b with
      | none => rfl
      | some cells =>
        simp only [Option.bind_eq_bind, Option.bind_some]
        split
        · exact congrArg some (withdraw_update hn hb w h _).symm
        · rfl
    | new b _ | delete b =>
      have hb : b ≠ o := hblock
      have hn : b ≠ n := hn
      simp only [step, withdraw_other hn hb]
      split
      · exact congrArg some (withdraw_update hn hb w h _).symm
      · rfl

theorem load_withdraw {o n b i : Nat} (hn : b ≠ n) (hi : b ≠ o ∨ i ≠ 0) (w : ω) (h : Heap ω) :
    load (withdraw o w n h) b i = load h b i := by
  by_cases ho : b = o
  · subst ho
    rw [load, withdraw_object hn, load]
    cases h b with
    | none => rfl
    | some cells =>
      exact List.getElem?_set_ne (Ne.symm (hi.resolve_left (absurd rfl))) 
  · rw [load, withdraw_other hn ho, load]

theorem load_withdraw_first {o n : Nat} (hon : o ≠ n) {x : ω} (w : ω) {h : Heap ω}
    (hx : load h o 0 = some x) : load (withdraw o w n h) o 0 = some w := by
  obtain ⟨cells, hcells, hfirst⟩ := Option.bind_eq_some_iff.mp hx
  obtain ⟨hlt, -⟩ := List.getElem?_eq_some_iff.mp hfirst
  rw [load, withdraw_object hon, hcells, Option.map_some, Option.bind_some,
    List.getElem?_set_self hlt]

theorem load_of_spares {o n : Nat} {op : Op ω} (hspares : op.spares o n = true) {h h' : Heap ω}
    (hs : step op h = some h') : load h' o 0 = load h o 0 := by
  simp only [Op.spares, Bool.and_eq_true, bne_iff_ne, Bool.or_eq_true] at hspares
  by_cases hblock : op.block = o
  · have ho := hspares.2.resolve_left (absurd hblock)
    cases op with
    | store b i x =>
      obtain rfl : b = o := hblock
      obtain ⟨cells, hcells, hs⟩ := Option.bind_eq_some_iff.mp hs
      split at hs
      · cases hs
        rw [load, Function.update_self, load, hcells]
        exact List.getElem?_set_ne (by simpa using ho)
      · cases hs
    | new _ _ | delete _ => cases ho
  · rw [load, step_other hs hblock, load]

/-- What is done to the block `n` is not seen without it. -/
theorem withdraw_step {o n : Nat} {op : Op ω} (hblock : op.block = n) (hon : o ≠ n) (w : ω)
    {h h' : Heap ω} (hs : step op h = some h') : withdraw o w n h' = withdraw o w n h := by
  funext b
  by_cases hb : b = n
  · rw [withdraw, if_pos hb, withdraw, if_pos hb]
  · simp only [withdraw, if_neg hb, step_other hs (hblock.trans_ne (Ne.symm hb)),
      step_other hs (hblock.trans_ne (Ne.symm hon))]

/-- Nor is what is written into the first cell of `o`. -/
theorem withdraw_store {o n : Nat} (x w : ω) {h h' : Heap ω} (hs : step (.store o 0 x) h = some h') :
    withdraw o w n h' = withdraw o w n h := by
  obtain ⟨cells, hcells, hs⟩ := Option.bind_eq_some_iff.mp hs
  split at hs
  · cases hs
    funext b
    by_cases hb : b = n
    · rw [withdraw, if_pos hb, withdraw, if_pos hb]
    · by_cases ho : b = o
      · subst ho
        rw [withdraw_object hb, withdraw_object hb, Function.update_self, hcells, Option.map_some,
          Option.map_some, List.set_set]
      · rw [withdraw_other hb ho, withdraw_other hb ho, Function.update_of_ne ho]
  · cases hs

theorem withdraw_self {o n : Nat} {w : ω} {h : Heap ω} (hn : h n = none)
    (hw : load h o 0 = some w) : withdraw o w n h = h := by
  funext b
  by_cases hb : b = n
  · rw [withdraw, if_pos hb, hb, hn]
  · by_cases ho : b = o
    · subst ho
      obtain ⟨cells, hcells, hfirst⟩ := Option.bind_eq_some_iff.mp hw
      rw [withdraw_object hb, hcells, Option.map_some]
      obtain ⟨hlt, rfl⟩ := List.getElem?_eq_some_iff.mp hfirst
      rw [List.set_getElem_self]
    · rw [withdraw_other hb ho]

/-- Taking the patch out: the first cell is written back, and the block deleted. -/
theorem step_store_delete {o n : Nat} (hon : o ≠ n) {w x : ω} {cells : List ω} {h : Heap ω}
    (hx : load h o 0 = some x) (hn : h n = some cells) :
    (step (.store o 0 w) h).bind (step (.delete n)) = some (withdraw o w n h) := by
  obtain ⟨old, hold, hfirst⟩ := Option.bind_eq_some_iff.mp hx
  obtain ⟨hlt, -⟩ := List.getElem?_eq_some_iff.mp hfirst
  simp only [step, hold, Option.bind_eq_bind, Option.bind_some, if_pos hlt]
  rw [if_pos (by rw [Function.update_of_ne (Ne.symm hon), hn]; rfl)]
  refine congrArg some (funext fun b => ?_)
  by_cases hb : b = n
  · subst hb
    rw [Function.update_self, withdraw, if_pos rfl]
  · rw [Function.update_of_ne hb]
    by_cases ho : b = o
    · subst ho
      rw [Function.update_self, withdraw_object hon, hold, Option.map_some]
    · rw [Function.update_of_ne ho, withdraw_other hb ho]

end Blocks
