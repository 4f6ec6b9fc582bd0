import IsaacP2P.Lib.Runs
import Mathlib.Logic.Function.Basic

/-!
# Addressed exchange

Members join a board, claim an address that nobody holds, post messages to
addresses and leave. A message goes into the inbox of the member that holds the
address at that moment; if there is none it is dropped.

What a member receives from another one is a subsequence of what that one posted
(`inbox_sublist`), and a member that holds its address throughout receives
everything posted to it, in the order of posting (`inbox_of_held`).
-/

namespace Exchange

variable {I A M : Type*}

structure Board (I A M : Type*) where
  /-- The members, with the address each holds. -/
  members : I → Option (Option A)
  /-- What a member received since it joined, with the senders. -/
  inbox : I → List (I × M)

@[ext] theorem Board.ext {b c : Board I A M} (hm : b.members = c.members)
    (hi : b.inbox = c.inbox) : b = c := by
  cases b
  cases c
  simp_all

def empty : Board I A M := ⟨fun _ => none, fun _ => []⟩

def Board.addr (b : Board I A M) (i : I) : Option A := (b.members i).join

inductive Act (I A M : Type*) where
  | join (i : I)
  | claim (i : I) (a : A)
  | post (i : I) (a : A) (m : M)
  | leave (i : I)

section

variable [DecidableEq I]

def Board.setMember (b : Board I A M) (i : I) (e : Option (Option A)) : Board I A M :=
  { b with members := Function.update b.members i e }

def Board.clearInbox (b : Board I A M) (i : I) : Board I A M :=
  { b with inbox := Function.update b.inbox i [] }

theorem addr_setMember (b : Board I A M) (i : I) (e : Option (Option A)) (j : I) :
    (b.setMember i e).addr j = if j = i then e.join else b.addr j := by
  show (Function.update b.members i e j).join = _
  rw [Function.update_apply]
  split <;> rfl

end

variable [DecidableEq I] [DecidableEq A]

def Board.deliver (b : Board I A M) (i : I) (a : A) (m : M) : Board I A M :=
  { b with inbox := fun j => b.inbox j ++ if b.addr j = some a then [(i, m)] else [] }

open Classical in
/-- Joining takes a newcomer, claiming a member without an address and an address
without a holder, posting a member with an address. -/
noncomputable def step : Act I A M → Board I A M → Option (Board I A M)
  | .join i, b => if b.members i = none then some ((b.setMember i (some none)).clearInbox i) else none
  | .claim i a, b =>
    if b.members i = some none ∧ ∀ j, b.addr j ≠ some a then some (b.setMember i (some (some a)))
    else none
  | .post i a m, b => if b.addr i ≠ none then some (b.deliver i a m) else none
  | .leave i, b => some (b.setMember i none)

variable {b b' : Board I A M} {i j : I} {a : A} {m : M}

theorem step_join (h : b.members i = none) :
    step (.join i) b = some ((b.setMember i (some none)).clearInbox i) := if_pos h

theorem step_claim (h : b.members i = some none) (hfree : ∀ j, b.addr j ≠ some a) :
    step (.claim i a) b = some (b.setMember i (some (some a))) := if_pos ⟨h, hfree⟩

theorem step_post (h : b.addr i ≠ none) : step (.post i a m) b = some (b.deliver i a m) := if_pos h

/-- The steps there are, with the guards they passed. -/
inductive Steps (b : Board I A M) : Act I A M → Board I A M → Prop where
  | join (i : I) : b.members i = none → Steps b (.join i) ((b.setMember i (some none)).clearInbox i)
  | claim (i : I) (a : A) : b.members i = some none → (∀ j, b.addr j ≠ some a) →
      Steps b (.claim i a) (b.setMember i (some (some a)))
  | post (i : I) (a : A) (m : M) : b.addr i ≠ none → Steps b (.post i a m) (b.deliver i a m)
  | leave (i : I) : Steps b (.leave i) (b.setMember i none)

theorem steps_of_step {act : Act I A M} (h : step act b = some b') : Steps b act b' := by
  cases act with
  | join i =>
    obtain ⟨hn, ⟨⟩⟩ := Option.ite_none_right_eq_some.mp h
    exact .join i hn
  | claim i a =>
    obtain ⟨⟨hn, hfree⟩, ⟨⟩⟩ := Option.ite_none_right_eq_some.mp h
    exact .claim i a hn hfree
  | post i a m =>
    obtain ⟨hn, ⟨⟩⟩ := Option.ite_none_right_eq_some.mp h
    exact .post i a m hn
  | leave i =>
    cases h
    exact .leave i

/-! ## What is received -/

def fromMember (i : I) (l : List (I × M)) : List M :=
  l.filterMap fun p => if p.1 = i then some p.2 else none

def posts (i : I) (acts : List (Act I A M)) : List M :=
  acts.filterMap fun
    | .post j _ m => if j = i then some m else none
    | _ => none

/-- The messages posted to an address, with the senders. -/
def postsTo (a : A) (acts : List (Act I A M)) : List (I × M) :=
  acts.filterMap fun
    | .post j a' m => if a' = a then some (j, m) else none
    | _ => none

theorem fromMember_append (i : I) (l l' : List (I × M)) :
    fromMember i (l ++ l') = fromMember i l ++ fromMember i l' := List.filterMap_append

theorem step_sublist {act : Act I A M} (h : step act b = some b') (i j : I) :
    (fromMember i (b'.inbox j)).Sublist (fromMember i (b.inbox j) ++ posts i [act]) := by
  cases steps_of_step h with
  | join k hn =>
    show (fromMember i (Function.update b.inbox k [] j)).Sublist _
    rw [Function.update_apply]
    split
    · exact List.nil_sublist _
    · exact List.sublist_append_left ..
  | claim | leave => exact List.sublist_append_left ..
  | post k a m hn =>
    have hone : fromMember i [(k, m)] = posts i [Act.post k a m] := by
      by_cases hk : k = i <;> simp [fromMember, posts, hk]
    show (fromMember i (b.inbox j ++ if b.addr j = some a then [(k, m)] else [])).Sublist _
    rw [fromMember_append]
    refine (List.Sublist.refl _).append ?_
    split
    · rw [hone]
    · exact List.nil_sublist _

/-- **What a member received from another one is a subsequence of what that one
posted**: nothing is reordered, repeated or made up. -/
theorem inbox_sublist {acts : List (Act I A M)} (h : Runs.run step acts b = some b') (i j : I) :
    (fromMember i (b'.inbox j)).Sublist (fromMember i (b.inbox j) ++ posts i acts) := by
  induction acts generalizing b with
  | nil =>
    cases h
    exact List.sublist_append_left ..
  | cons act acts ih =>
    obtain ⟨c, hc, hr⟩ := Runs.run_cons_iff.mp h
    have hcons : posts i (act :: acts) = posts i [act] ++ posts i acts :=
      List.filterMap_append (l := [act])
    calc (fromMember i (b'.inbox j)).Sublist (fromMember i (c.inbox j) ++ posts i acts) := ih hr
      _ |>.Sublist (fromMember i (b.inbox j) ++ posts i [act] ++ posts i acts) :=
        (step_sublist hc i j).append (List.Sublist.refl _)
      _ = _ := by rw [hcons, List.append_assoc]

/-- While a member keeps its address, one act adds what is posted to it. -/
theorem step_of_held {act : Act I A M} (h : step act b = some b') (hj : b.addr j = some a)
    (hstay : act ≠ .leave j) :
    b'.addr j = some a ∧ b'.inbox j = b.inbox j ++ postsTo a [act] := by
  have hmember : b.members j = some (some a) := Option.join_eq_some_iff.mp hj
  have hother : ∀ k e, j ≠ k → (b.setMember k e).addr j = some a := by
    intro k e hne
    rw [addr_setMember, if_neg hne, hj]
  cases steps_of_step h with
  | join k hn =>
    have hne : j ≠ k := by
      rintro rfl
      rw [hmember] at hn
      cases hn
    refine ⟨hother k _ hne, ?_⟩
    show Function.update b.inbox k [] j = _
    rw [Function.update_of_ne hne]
    exact (List.append_nil _).symm
  | claim k a' hn hfree =>
    have hne : j ≠ k := by
      rintro rfl
      rw [hmember] at hn
      cases hn
    exact ⟨hother k _ hne, (List.append_nil _).symm⟩
  | post k a' m hn =>
    refine ⟨hj, ?_⟩
    show b.inbox j ++ (if b.addr j = some a' then [(k, m)] else []) = _
    rw [hj]
    by_cases ha : a' = a
    · simp [postsTo, ha]
    · simp [postsTo, ha, Ne.symm ha]
  | leave k =>
    have hne : j ≠ k := by
      rintro rfl
      exact hstay rfl
    exact ⟨hother k _ hne, (List.append_nil _).symm⟩

/-- **A member that holds its address throughout receives everything posted to
it**, in the order of posting, and nothing else. -/
theorem inbox_of_held {acts : List (Act I A M)} (h : Runs.run step acts b = some b')
    (hj : b.addr j = some a) (hstay : Act.leave j ∉ acts) :
    b'.addr j = some a ∧ b'.inbox j = b.inbox j ++ postsTo a acts := by
  induction acts generalizing b with
  | nil =>
    cases h
    exact ⟨hj, (List.append_nil _).symm⟩
  | cons act acts ih =>
    obtain ⟨c, hc, hr⟩ := Runs.run_cons_iff.mp h
    obtain ⟨hcj, hci⟩ := step_of_held hc hj fun he => hstay (by simp [he])
    obtain ⟨hbj, hbi⟩ := ih hr hcj fun hm => hstay (List.mem_cons_of_mem _ hm)
    have hcons : postsTo a (act :: acts) = postsTo a [act] ++ postsTo a acts :=
      List.filterMap_append (l := [act])
    exact ⟨hbj, by rw [hbi, hci, hcons, List.append_assoc]⟩

end Exchange
