import Mathlib.Data.List.Basic

/-!
# Incremental decoders of a stream

A `Decoder` looks at the head of a buffer and answers that it has to wait for
more input, that the input is bad, or that an item is complete; more input
behind a complete item or a bad head changes neither answer.

* `Takes D bs xs rest`: the items `xs` can be taken off the front of `bs`,
  leaving `rest`; `Decodes` says in addition that no further item is complete.
* `Feeds D act s bs xs s' r`: a consumer in state `s` takes the items of `bs`
  one by one with `act` and ends in `s'`, having taken `xs`; `r` is the rest it
  waits behind, or `none` when the input was bad or `act` told it to stop.

`Decodes` and `Feeds` are functions of the input (`Decodes.unique`,
`Feeds.unique`), and the input may be cut anywhere (`Takes.append`,
`Feeds.append`, `Feeds.stopped`): how a stream was segmented on its way does not
matter to the consumer.
-/

namespace Streaming

/-- What a decoder finds at the head of its buffer. -/
inductive Verdict (α β : Type*) where
  | wait
  | bad
  | item (x : α) (rest : List β)

structure Decoder (α β : Type*) where
  next : List β → Verdict α β
  item_append : ∀ {buf x rest} (more : List β), next buf = .item x rest →
    next (buf ++ more) = .item x (rest ++ more)
  bad_append : ∀ {buf} (more : List β), next buf = .bad → next (buf ++ more) = .bad

variable {α β σ : Type*} {D : Decoder α β}

/-- The items `xs` can be taken off the front of `bs`, leaving `rest`. -/
inductive Takes (D : Decoder α β) : List β → List α → List β → Prop where
  | nil (bs : List β) : Takes D bs [] bs
  | item {bs rest r : List β} {x : α} {xs : List α} : D.next bs = .item x rest →
      Takes D rest xs r → Takes D bs (x :: xs) r

/-- The stream `bs` holds the complete items `xs` and the incomplete `rest`. -/
def Decodes (D : Decoder α β) (bs : List β) (xs : List α) (rest : List β) : Prop :=
  Takes D bs xs rest ∧ D.next rest = .wait

theorem Takes.trans {bs r r' : List β} {xs ys : List α} (h : Takes D bs xs r)
    (h' : Takes D r ys r') : Takes D bs (xs ++ ys) r' := by
  induction h with
  | nil => exact h'
  | item hi _ ih => exact .item hi (ih h')

theorem Takes.snoc {bs r r' : List β} {xs : List α} {x : α} (h : Takes D bs xs r)
    (hx : D.next r = .item x r') : Takes D bs (xs ++ [x]) r' :=
  h.trans (.item hx (.nil _))

theorem Takes.append {bs r : List β} {xs : List α} (h : Takes D bs xs r) (more : List β) :
    Takes D (bs ++ more) xs (r ++ more) := by
  induction h with
  | nil => exact .nil _
  | item hi _ ih => exact .item (D.item_append more hi) ih

theorem Decodes.unique {bs r r' : List β} {xs ys : List α} (h : Decodes D bs xs r)
    (h' : Decodes D bs ys r') : xs = ys ∧ r = r' := by
  obtain ⟨ht, hw⟩ := h
  obtain ⟨ht', hw'⟩ := h'
  induction ht generalizing ys with
  | nil =>
    cases ht' with
    | nil => exact ⟨rfl, rfl⟩
    | item hi _ => rw [hw] at hi; cases hi
  | item hi _ ih =>
    cases ht' with
    | nil => rw [hi] at hw'; cases hw'
    | item hi' ht'' =>
      rw [hi] at hi'
      cases hi'
      obtain ⟨rfl, rfl⟩ := ih hw ht''
      exact ⟨rfl, rfl⟩

theorem Takes.not_bad {bs r r' : List β} {xs ys : List α} (h : Takes D bs xs r)
    (hd : Decodes D bs ys r') : D.next r ≠ .bad := by
  obtain ⟨ht, hw⟩ := hd
  induction h generalizing ys with
  | nil =>
    intro hbad
    cases ht with
    | nil => rw [hw] at hbad; cases hbad
    | item hi _ => rw [hi] at hbad; cases hbad
  | item hi _ ih =>
    cases ht with
    | nil => rw [hi] at hw; cases hw
    | item hi' ht' =>
      rw [hi] at hi'
      cases hi'
      exact ih ht'

theorem Takes.bad_unique {bs r r' : List β} {xs ys : List α} (h : Takes D bs xs r)
    (hbad : D.next r = .bad) (h' : Takes D bs ys r') (hbad' : D.next r' = .bad) :
    xs = ys ∧ r = r' := by
  induction h generalizing ys with
  | nil =>
    cases h' with
    | nil => exact ⟨rfl, rfl⟩
    | item hi _ => rw [hbad] at hi; cases hi
  | item hi _ ih =>
    cases h' with
    | nil => rw [hi] at hbad'; cases hbad'
    | item hi' ht' =>
      rw [hi] at hi'
      cases hi'
      obtain ⟨rfl, rfl⟩ := ih hbad ht'
      exact ⟨rfl, rfl⟩

/-- The encodings of a list of items hold exactly these items. -/
theorem decodes_flatMap {enc : α → List β} {xs : List α} (hnil : D.next [] = .wait)
    (henc : ∀ x ∈ xs, ∀ more, D.next (enc x ++ more) = .item x more) :
    Decodes D (xs.flatMap enc) xs [] := by
  refine ⟨?_, hnil⟩
  induction xs with
  | nil => exact .nil _
  | cons x xs ih =>
    rw [List.flatMap_cons]
    exact .item (henc x (List.mem_cons_self ..) _)
      (ih fun y hy => henc y (List.mem_cons_of_mem _ hy))

/-! ## Consumers -/

/-- A consumer in state `s` takes the items `xs` off the front of `bs`. -/
inductive Feeds (D : Decoder α β) (act : α → σ → σ × Bool) :
    σ → List β → List α → σ → Option (List β) → Prop where
  | wait {s : σ} {bs : List β} : D.next bs = .wait → Feeds D act s bs [] s (some bs)
  | bad {s : σ} {bs : List β} : D.next bs = .bad → Feeds D act s bs [] s none
  | item {s s' s'' : σ} {bs rest : List β} {x : α} {xs : List α} {r : Option (List β)} :
      D.next bs = .item x rest → act x s = (s', true) → Feeds D act s' rest xs s'' r →
      Feeds D act s bs (x :: xs) s'' r
  | stop {s s' : σ} {bs rest : List β} {x : α} : D.next bs = .item x rest →
      act x s = (s', false) → Feeds D act s bs [x] s' none

variable {act : α → σ → σ × Bool}

theorem Feeds.unique {s s₁ s₂ : σ} {bs : List β} {xs ys : List α} {r₁ r₂ : Option (List β)}
    (h₁ : Feeds D act s bs xs s₁ r₁) (h₂ : Feeds D act s bs ys s₂ r₂) :
    xs = ys ∧ s₁ = s₂ ∧ r₁ = r₂ := by
  induction h₁ generalizing ys with
  | wait hn => cases h₂ <;> simp_all
  | bad hn => cases h₂ <;> simp_all
  | stop hn ha => cases h₂ <;> simp_all
  | item hn ha _ ih =>
    cases h₂ with
    | item hn' ha' h' =>
      rw [hn] at hn'
      cases hn'
      rw [ha] at ha'
      cases ha'
      obtain ⟨rfl, hs, hr⟩ := ih h'
      exact ⟨rfl, hs, hr⟩
    | _ => simp_all

/-- A consumer that waits goes on with what arrives behind the rest. -/
theorem Feeds.append {s s' s'' : σ} {bs r : List β} {xs ys : List α} {r' : Option (List β)}
    (h : Feeds D act s bs xs s' (some r)) (more : List β)
    (h' : Feeds D act s' (r ++ more) ys s'' r') : Feeds D act s (bs ++ more) (xs ++ ys) s'' r' := by
  generalize hr : some r = o at h
  induction h with
  | wait => cases hr; exact h'
  | bad => cases hr
  | stop => cases hr
  | item hn ha _ ih => exact .item (D.item_append more hn) ha (ih h' hr)

theorem Feeds.stopped {s s' : σ} {bs : List β} {xs : List α} (h : Feeds D act s bs xs s' none)
    (more : List β) : Feeds D act s (bs ++ more) xs s' none := by
  generalize hr : (none : Option (List β)) = o at h
  induction h with
  | wait => cases hr
  | bad hn => exact .bad (D.bad_append more hn)
  | stop hn ha => exact .stop (D.item_append more hn) ha
  | item hn ha _ ih => exact .item (D.item_append more hn) ha (ih hr)

/-! ## The consumer as a function -/

/-- Take items until the input is short or bad, or `act` says stop; the first
argument bounds the rounds. -/
def feed (D : Decoder α β) (act : α → σ → σ × Bool) : Nat → σ → List β → σ × Option (List β)
  | 0, s, bs => (s, some bs)
  | n + 1, s, bs =>
    match D.next bs with
    | .wait => (s, some bs)
    | .bad => (s, none)
    | .item x rest =>
      match act x s with
      | (s', true) => feed D act n s' rest
      | (s', false) => (s', none)

/-- An item takes something off the buffer, so its length bounds the rounds. -/
theorem Feeds.feed_eq (hlen : ∀ {bs x rest}, D.next bs = .item x rest → rest.length < bs.length)
    {s s' : σ} {bs : List β} {xs : List α} {r : Option (List β)} (h : Feeds D act s bs xs s' r)
    {n : Nat} (hn : bs.length < n) : feed D act n s bs = (s', r) := by
  induction h generalizing n with
  | wait hw =>
    obtain ⟨n, rfl⟩ := Nat.exists_eq_add_of_lt hn
    simp only [feed, hw]
  | bad hb =>
    obtain ⟨n, rfl⟩ := Nat.exists_eq_add_of_lt hn
    simp only [feed, hb]
  | stop hx ha =>
    obtain ⟨n, rfl⟩ := Nat.exists_eq_add_of_lt hn
    simp only [feed, hx, ha]
  | item hx ha _ ih =>
    obtain ⟨n, rfl⟩ := Nat.exists_eq_add_of_lt hn
    have := hlen hx
    simp only [feed, hx, ha]
    exact ih (by omega)

end Streaming
