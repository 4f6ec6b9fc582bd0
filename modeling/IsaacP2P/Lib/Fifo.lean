import Mathlib.Data.List.Basic

/-!
# What passes a queue

`Passes ins outs q q'` is the balance of a queue that went from `q` to `q'`: what
was in it, followed by what came in, is what went out, followed by what is left.
Nothing is lost, doubled or reordered. Balances compose in time (`Passes.trans`)
and along a pipeline (`Passes.pipe`), and survive a stage that converts the items
or drops some (`Passes.filterMap`).
-/

namespace Fifo

variable {α β : Type*} {ins ins' mid outs outs' q q' q'' a a' b b' : List α}

def Passes (ins outs q q' : List α) : Prop := q ++ ins = outs ++ q'

theorem Passes.refl (q : List α) : Passes [] [] q q := List.append_nil q

theorem Passes.enter (ins q : List α) : Passes ins [] q (q ++ ins) := rfl

theorem Passes.leave (outs q : List α) : Passes [] outs (outs ++ q) q := List.append_nil _

theorem Passes.trans (h : Passes ins outs q q') (h' : Passes ins' outs' q' q'') :
    Passes (ins ++ ins') (outs ++ outs') q q'' := by
  unfold Passes at *
  rw [← List.append_assoc, h, List.append_assoc, h', List.append_assoc]

theorem Passes.pipe (h : Passes mid outs a a') (h' : Passes ins mid b b') :
    Passes ins outs (a ++ b) (a' ++ b') := by
  unfold Passes at *
  rw [List.append_assoc, h', ← List.append_assoc, h, List.append_assoc]

theorem Passes.filterMap (f : α → Option β) (h : Passes ins outs q q') :
    Passes (ins.filterMap f) (outs.filterMap f) (q.filterMap f) (q'.filterMap f) := by
  unfold Passes at *
  rw [← List.filterMap_append, h, List.filterMap_append]

end Fifo
