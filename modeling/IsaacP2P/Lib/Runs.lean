import Mathlib.Data.List.Basic

/-!
# Runs of a partial step function

`run step is s` takes the inputs `is` one after another from `s`; it is `none`
as soon as one step has no next state. `Reachable step init s` says that some
run leads from `init` to `s`. `Meets step C is s` says that every step of the
run satisfies `C` at the state it is taken in.

`run_invariant` and `run_invariant_of_meets` are the two induction rules: a
predicate kept by every step, or by every step that satisfies `C`, is kept by
the run. `run_variant` bounds a measure by the steps that lower it.
`run_simulates` carries a run over to a machine that takes the same steps on
what the states stand for, `run_part` to a part of the machine.
-/

namespace Runs

variable {ι σ : Type*} {step : ι → σ → Option σ}

/-- Take the inputs one after another. -/
def run (step : ι → σ → Option σ) : List ι → σ → Option σ
  | [], s => some s
  | i :: is, s => (step i s).bind (run step is)

/-- Some run leads from `init` to `s`. -/
def Reachable (step : ι → σ → Option σ) (init s : σ) : Prop := ∃ is, run step is init = some s

/-- Every step of the run satisfies `C` where it is taken. -/
def Meets (step : ι → σ → Option σ) (C : ι → σ → Prop) : List ι → σ → Prop
  | [], _ => True
  | i :: is, s => C i s ∧ ∀ s', step i s = some s' → Meets step C is s'

@[simp] theorem run_nil (s : σ) : run step [] s = some s := rfl

theorem run_cons_iff {i : ι} {is : List ι} {s s' : σ} :
    run step (i :: is) s = some s' ↔ ∃ m, step i s = some m ∧ run step is m = some s' :=
  Option.bind_eq_some_iff

theorem run_append (is js : List ι) (s : σ) :
    run step (is ++ js) s = (run step is s).bind (run step js) := by
  induction is generalizing s with
  | nil => rfl
  | cons i is ih =>
    simp only [List.cons_append, run]
    cases step i s with
    | none => rfl
    | some m => exact ih m

/-- A condition that can be decided at every step can be decided along a run. -/
instance Meets.decidable {C : ι → σ → Prop} [∀ i s, Decidable (C i s)] :
    (is : List ι) → (s : σ) → Decidable (Meets step C is s)
  | [], _ => .isTrue trivial
  | i :: is, s =>
    match hs : step i s with
    | none => decidable_of_iff (C i s)
        ⟨fun h => ⟨h, fun m hm => by rw [hs] at hm; cases hm⟩, fun h => h.1⟩
    | some m =>
      have := Meets.decidable (C := C) is m
      decidable_of_iff (C i s ∧ Meets step C is m)
        ⟨fun h => ⟨h.1, fun m' hm => by rw [hs] at hm; cases hm; exact h.2⟩,
          fun h => ⟨h.1, h.2 m hs⟩⟩

theorem Meets.append {C : ι → σ → Prop} (is : List ι) {js : List ι} {s m : σ}
    (h : Meets step C (is ++ js) s) (hr : run step is s = some m) : Meets step C js m := by
  induction is generalizing s with
  | nil => cases hr; exact h
  | cons i is ih =>
    obtain ⟨m', hm', hr⟩ := run_cons_iff.mp hr
    exact ih (h.2 m' hm') hr

/-- Two conditions that agree under an invariant are met by the same runs. -/
theorem meets_congr {P : σ → Prop} {C C' : ι → σ → Prop}
    (hstep : ∀ i s s', P s → step i s = some s' → P s') (hC : ∀ i s, P s → (C i s ↔ C' i s))
    {is : List ι} {s : σ} (hs : P s) : Meets step C is s ↔ Meets step C' is s := by
  induction is generalizing s with
  | nil => exact Iff.rfl
  | cons i is ih =>
    exact and_congr (hC i s hs)
      (forall_congr' fun m => imp_congr_right fun hm => ih (hstep i s m hs hm))

/-- A run has a next state at every step exactly if it has an end. -/
theorem meets_isSome_iff {is : List ι} {s : σ} :
    Meets step (fun i s => (step i s).isSome) is s ↔ (run step is s).isSome := by
  induction is generalizing s with
  | nil => simp [Meets]
  | cons i is ih =>
    simp only [Meets, run]
    cases step i s with
    | none => simp
    | some m => simp [ih]

/-- **Step rule, run rule**: what every step keeps, every run keeps. -/
theorem run_invariant {P : σ → Prop} (hstep : ∀ i s s', P s → step i s = some s' → P s')
    {is : List ι} {s s' : σ} (hs : P s) (h : run step is s = some s') : P s' := by
  induction is generalizing s with
  | nil => cases h; exact hs
  | cons i is ih =>
    obtain ⟨m, hm, hr⟩ := run_cons_iff.mp h
    exact ih (hstep i s m hs hm) hr

theorem run_invariant_of_meets {P : σ → Prop} {C : ι → σ → Prop}
    (hstep : ∀ i s s', P s → C i s → step i s = some s' → P s')
    {is : List ι} {s s' : σ} (hs : P s) (hC : Meets step C is s)
    (h : run step is s = some s') : P s' := by
  induction is generalizing s with
  | nil => cases h; exact hs
  | cons i is ih =>
    obtain ⟨m, hm, hr⟩ := run_cons_iff.mp h
    exact ih (hstep i s m hs hC.1 hm) (hC.2 m hm) hr

/-- Steps that satisfy one condition satisfy what it implies under the invariant
it keeps. -/
theorem Meets.of_meets {P : σ → Prop} {C D : ι → σ → Prop}
    (hstep : ∀ i s s', P s → C i s → step i s = some s' → P s') (hD : ∀ i s, P s → C i s → D i s)
    {is : List ι} {s : σ} (hs : P s) (hC : Meets step C is s) : Meets step D is s := by
  induction is generalizing s with
  | nil => trivial
  | cons i is ih =>
    exact ⟨hD i s hs hC.1, fun m hm => ih (hstep i s m hs hC.1 hm) (hC.2 m hm)⟩

theorem Meets.and {C D : ι → σ → Prop} {is : List ι} {s : σ} (hC : Meets step C is s)
    (hD : Meets step D is s) : Meets step (fun i s => C i s ∧ D i s) is s := by
  induction is generalizing s with
  | nil => trivial
  | cons i is ih => exact ⟨⟨hC.1, hD.1⟩, fun m hm => ih (hC.2 m hm) (hD.2 m hm)⟩

theorem meets_of_forall {C : ι → Prop} {is : List ι} (h : ∀ i ∈ is, C i) (s : σ) :
    Meets step (fun i _ => C i) is s := by
  induction is generalizing s with
  | nil => trivial
  | cons i is ih =>
    exact ⟨h i (List.mem_cons_self ..), fun m _ => ih (fun j hj => h j (List.mem_cons_of_mem _ hj)) m⟩

theorem Meets.imp {C D : ι → σ → Prop} (h : ∀ i s, C i s → D i s) {is : List ι} {s : σ}
    (hC : Meets step C is s) : Meets step D is s :=
  hC.of_meets (P := fun _ => True) (fun _ _ _ _ _ _ => trivial) (fun i s _ => h i s) trivial

/-- A property that stays broken once a step breaks it holds at the end of a run
exactly if every step satisfies the condition that keeps it. -/
theorem run_iff_meets {P Q : σ → Prop} {C : ι → σ → Prop}
    (hstep : ∀ i s s', P s → step i s = some s' → P s')
    (hkeep : ∀ i s s', P s → step i s = some s' → (Q s' ↔ Q s ∧ C i s))
    {is : List ι} {s s' : σ} (hs : P s) (h : run step is s = some s') :
    Q s' ↔ Q s ∧ Meets step C is s := by
  induction is generalizing s with
  | nil =>
    cases h
    exact (and_iff_left trivial).symm
  | cons i is ih =>
    obtain ⟨m, hm, hr⟩ := run_cons_iff.mp h
    have hrest : Meets step C (i :: is) s ↔ C i s ∧ Meets step C is m := by
      simp only [Meets, hm, Option.some.injEq, forall_eq']
    rw [ih (hstep i s m hs hm) hr, hkeep i s m hs hm, hrest, and_assoc]

/-! ## Counted steps -/

/-- How many steps of the run satisfy `C` where they are taken. -/
def count (step : ι → σ → Option σ) (C : ι → σ → Bool) : List ι → σ → Nat
  | [], _ => 0
  | i :: is, s => (C i s).toNat + (step i s).elim 0 (count step C is)

/-- **Variant rule**: a measure that no step raises and every step counted lowers,
unless it is zero, falls by the number of steps counted. -/
theorem run_variant {P : σ → Prop} {C : ι → σ → Bool} {D : ι → σ → Prop} {μ : σ → Nat}
    (hstep : ∀ i s s', P s → D i s → step i s = some s' →
      P s' ∧ μ s' ≤ μ s ∧ (C i s = true → μ s ≠ 0 → μ s' < μ s))
    {is : List ι} {s s' : σ} (hs : P s) (hD : Meets step D is s) (h : run step is s = some s') :
    P s' ∧ μ s' ≤ μ s - count step C is s := by
  induction is generalizing s with
  | nil =>
    cases h
    exact ⟨hs, Nat.le_refl _⟩
  | cons i is ih =>
    obtain ⟨m, hm, hr⟩ := run_cons_iff.mp h
    obtain ⟨hp, hle, hlt⟩ := hstep i s m hs hD.1 hm
    obtain ⟨hp', hle'⟩ := ih hp (hD.2 m hm) hr
    refine ⟨hp', ?_⟩
    simp only [count, hm, Option.elim_some]
    cases hC : C i s with
    | false =>
      simp only [Bool.toNat_false]
      omega
    | true =>
      have := hlt hC
      simp only [Bool.toNat_true]
      omega

theorem Reachable.refl (s : σ) : Reachable step s s := ⟨[], rfl⟩

theorem Reachable.run {a b c : σ} {is : List ι} (h : Reachable step a b)
    (hr : run step is b = some c) : Reachable step a c := by
  obtain ⟨js, hj⟩ := h
  exact ⟨js ++ is, by rw [run_append, hj]; exact hr⟩

theorem Reachable.invariant {P : σ → Prop} {init s : σ} (h : Reachable step init s)
    (hinit : P init) (hstep : ∀ i s s', P s → step i s = some s' → P s') : P s := by
  obtain ⟨is, hr⟩ := h
  exact run_invariant hstep hinit hr

/-- A run of a machine whose steps are steps of another one is a run of that one. -/
theorem run_simulates {τ : Type*} {step' : ι → τ → Option τ} {abs : σ → τ} {P : σ → Prop}
    (hstep : ∀ i s s', P s → step i s = some s' → step' i (abs s) = some (abs s') ∧ P s')
    {is : List ι} {s s' : σ} (hs : P s) (h : run step is s = some s') :
    run step' is (abs s) = some (abs s') ∧ P s' := by
  induction is generalizing s with
  | nil =>
    cases h
    exact ⟨rfl, hs⟩
  | cons i is ih =>
    obtain ⟨m, hm, hr⟩ := run_cons_iff.mp h
    obtain ⟨hm', hp⟩ := hstep i s m hs hm
    obtain ⟨hr', hp'⟩ := ih hp hr
    exact ⟨run_cons_iff.mpr ⟨abs m, hm', hr'⟩, hp'⟩

/-- A machine that does on the images what this one does runs as this one does. -/
theorem run_image {τ : Type*} {step' : ι → τ → Option τ} {abs : σ → τ} {P : σ → Prop}
    (hkeep : ∀ i s s', P s → step i s = some s' → P s')
    (hstep : ∀ i s, P s → step' i (abs s) = (step i s).map abs)
    {is : List ι} {s : σ} (hs : P s) : run step' is (abs s) = (run step is s).map abs := by
  induction is generalizing s with
  | nil => rfl
  | cons i is ih =>
    simp only [run, hstep i s hs]
    cases hm : step i s with
    | none => rfl
    | some m => exact ih (hkeep i s m hs hm)

/-- A part of a machine runs by itself if each step either is one of its own or leaves it alone. -/
theorem run_part {κ τ : Type*} {step' : κ → τ → Option τ} {part : σ → τ} {own : ι → Option κ}
    (hstep : ∀ i s s', step i s = some s' → run step' (own i).toList (part s) = some (part s'))
    {is : List ι} {s s' : σ} (h : run step is s = some s') :
    run step' (is.filterMap own) (part s) = some (part s') := by
  induction is generalizing s with
  | nil =>
    cases h
    rfl
  | cons i is ih =>
    obtain ⟨m, hm, hr⟩ := run_cons_iff.mp h
    have hown : (i :: is).filterMap own = (own i).toList ++ is.filterMap own := by
      cases ho : own i <;> simp [ho]
    rw [hown, run_append, hstep i s m hm]
    exact ih hr

theorem Reachable.simulates {τ : Type*} {step' : ι → τ → Option τ} {abs : σ → τ} {P : σ → Prop}
    (hstep : ∀ i s s', P s → step i s = some s' → step' i (abs s) = some (abs s') ∧ P s')
    {init s : σ} (h : Reachable step init s) (hinit : P init) :
    Reachable step' (abs init) (abs s) ∧ P s := by
  obtain ⟨is, hr⟩ := h
  obtain ⟨hr', hp⟩ := run_simulates hstep hinit hr
  exact ⟨⟨is, hr'⟩, hp⟩

end Runs
