import Mathlib.Data.List.AList
import Mathlib.Data.Set.Card

/-!
# Association lists updated in place

`AList.replace` writes a value at a key that is present and keeps the order of
the entries, as an assignment through a reference into a map does. These are
its lookup lemmas, its algebra, and the number of entries after an erasure or
an insertion. `total` adds up a measure of the values.
-/

namespace AssocList

open List

variable {κ υ : Type*} [DecidableEq κ]

theorem kreplace_cons_self (a : κ) (b c : υ) (l : List (Sigma fun _ : κ => υ)) :
    kreplace a b (⟨a, c⟩ :: l) = ⟨a, b⟩ :: l :=
  lookmap_cons_some _ _ (by simp)

theorem kreplace_cons_ne {a k : κ} (h : a ≠ k) (b c : υ) (l : List (Sigma fun _ : κ => υ)) :
    kreplace a b (⟨k, c⟩ :: l) = ⟨k, c⟩ :: kreplace a b l :=
  lookmap_cons_none _ _ (by simp [h])

theorem dlookup_skip {a k : κ} (h : a ≠ k) (c : υ) (l : List (Sigma fun _ : κ => υ)) :
    dlookup a (⟨k, c⟩ :: l) = dlookup a l :=
  dlookup_cons_ne l ⟨k, c⟩ h

theorem dlookup_kreplace_self {a : κ} {b : υ} {l : List (Sigma fun _ : κ => υ)}
    (h : a ∈ l.keys) : (kreplace a b l).dlookup a = some b := by
  induction l with
  | nil => simp at h
  | cons p l ih =>
    obtain ⟨k, c⟩ := p
    by_cases hk : a = k
    · subst hk
      rw [kreplace_cons_self, dlookup_cons_eq]
    · rw [kreplace_cons_ne hk, dlookup_skip hk]
      exact ih (by simpa [hk] using h)

theorem dlookup_kreplace_ne {a k : κ} (h : k ≠ a) (b : υ) (l : List (Sigma fun _ : κ => υ)) :
    (kreplace a b l).dlookup k = l.dlookup k := by
  induction l with
  | nil => rfl
  | cons p l ih =>
    obtain ⟨j, c⟩ := p
    by_cases ha : a = j
    · subst ha
      rw [kreplace_cons_self, dlookup_skip h, dlookup_skip h]
    · rw [kreplace_cons_ne ha]
      by_cases hk : k = j
      · subst hk
        rw [dlookup_cons_eq, dlookup_cons_eq]
      · rw [dlookup_skip hk, dlookup_skip hk, ih]

theorem kreplace_kreplace (a : κ) (b c : υ) (l : List (Sigma fun _ : κ => υ)) :
    kreplace a c (kreplace a b l) = kreplace a c l := by
  induction l with
  | nil => rfl
  | cons p l ih =>
    obtain ⟨k, d⟩ := p
    by_cases hk : a = k
    · subst hk
      simp only [kreplace_cons_self]
    · simp only [kreplace_cons_ne hk, ih]

variable {m : AList fun _ : κ => υ}

theorem mem_of_lookup {a : κ} {b : υ} (h : m.lookup a = some b) : a ∈ m :=
  AList.lookup_isSome.mp (by rw [h]; rfl)

theorem exists_lookup {a : κ} (h : a ∈ m) : ∃ b, m.lookup a = some b :=
  Option.isSome_iff_exists.mp (AList.lookup_isSome.mpr h)

theorem lookup_replace_self {a : κ} (b : υ) (h : a ∈ m) : (m.replace a b).lookup a = some b :=
  dlookup_kreplace_self h

@[simp] theorem lookup_replace_ne {a k : κ} (h : k ≠ a) (b : υ) :
    (m.replace a b).lookup k = m.lookup k :=
  dlookup_kreplace_ne h b m.entries

theorem lookup_replace {a : κ} {c : υ} (h : m.lookup a = some c) (b : υ) (k : κ) :
    (m.replace a b).lookup k = if k = a then some b else m.lookup k := by
  by_cases hk : k = a
  · subst hk
    rw [if_pos rfl, lookup_replace_self b (mem_of_lookup h)]
  · rw [if_neg hk, lookup_replace_ne hk]

@[simp] theorem replace_replace (a : κ) (b c : υ) : (m.replace a b).replace a c = m.replace a c :=
  AList.ext (kreplace_kreplace a b c m.entries)

theorem replace_self {a : κ} {b : υ} (h : m.lookup a = some b) : m.replace a b = m :=
  AList.ext (kreplace_self m.nodupKeys (AList.mem_lookup_iff.mp h))

@[simp] theorem length_replace (a : κ) (b : υ) :
    (m.replace a b).entries.length = m.entries.length := by
  have h := congrArg List.length (AList.keys_replace a b m)
  simpa [AList.keys, List.keys] using h

theorem length_erase_le (a : κ) : (m.erase a).entries.length ≤ m.entries.length := by
  have h := congrArg List.length (AList.keys_erase a m)
  have hle := List.length_erase_le (a := a) (l := m.keys)
  simp only [AList.keys, List.keys, List.length_map] at h hle
  omega

theorem length_insert {a : κ} (h : a ∉ m) (b : υ) :
    (m.insert a b).entries.length = m.entries.length + 1 := by
  rw [AList.entries_insert_of_notMem h]
  rfl

theorem ncard_lookup (m : AList fun _ : κ => υ) :
    Set.ncard {a | m.lookup a ≠ none} = m.entries.length := by
  have hset : {a | m.lookup a ≠ none} = ↑m.keys.toFinset := by
    ext a
    simp [AList.lookup_eq_none, AList.mem_keys]
  have hnodup : m.keys.Nodup := m.nodupKeys
  rw [hset, Set.ncard_coe_finset, List.toFinset_card_of_nodup hnodup]
  exact List.length_map ..

theorem erase_singleton (a : κ) (b c : υ) :
    (((∅ : AList fun _ : κ => υ).insert a b).replace a c).erase a = ∅ := by
  apply AList.ext
  show kerase a (kreplace a c ((∅ : AList fun _ : κ => υ).insert a b).entries) = []
  rw [AList.entries_insert_of_notMem (AList.notMem_empty a), AList.empty_entries,
    kreplace_cons_self]
  exact List.kerase_cons_eq rfl

/-! ## Totals -/

/-- What the values in the map add up to. -/
def total (v : υ → Nat) (m : AList fun _ : κ => υ) : Nat := (m.entries.map fun e => v e.2).sum

variable {v : υ → Nat}

theorem total_replace {a : κ} {b : υ} (h : m.lookup a = some b) (c : υ) :
    total v (m.replace a c) + v b = total v m + v c := by
  have hlist : ∀ l : List (Sigma fun _ : κ => υ), l.dlookup a = some b →
      ((kreplace a c l).map fun e => v e.2).sum + v b = (l.map fun e => v e.2).sum + v c := by
    intro l hl
    induction l with
    | nil => cases hl
    | cons e l ih =>
      obtain ⟨k, d⟩ := e
      by_cases hk : a = k
      · subst hk
        rw [dlookup_cons_eq] at hl
        cases hl
        simp only [kreplace_cons_self, List.map_cons, List.sum_cons]
        omega
      · have := ih (by rwa [dlookup_skip hk] at hl)
        simp only [kreplace_cons_ne hk, List.map_cons, List.sum_cons]
        omega
  exact hlist m.entries h

theorem total_erase {a : κ} {b : υ} (h : m.lookup a = some b) :
    total v (m.erase a) + v b = total v m := by
  have hlist : ∀ l : List (Sigma fun _ : κ => υ), l.dlookup a = some b →
      ((kerase a l).map fun e => v e.2).sum + v b = (l.map fun e => v e.2).sum := by
    intro l hl
    induction l with
    | nil => cases hl
    | cons e l ih =>
      obtain ⟨k, d⟩ := e
      by_cases hk : a = k
      · subst hk
        rw [dlookup_cons_eq] at hl
        cases hl
        rw [show kerase a (⟨a, b⟩ :: l) = l from kerase_cons_eq rfl, List.map_cons, List.sum_cons,
          Nat.add_comm]
      · have := ih (by rwa [dlookup_skip hk] at hl)
        rw [kerase_cons_ne hk, List.map_cons, List.sum_cons, List.map_cons, List.sum_cons]
        omega
  exact hlist m.entries h

theorem total_insert {a : κ} (h : a ∉ m) (b : υ) :
    total v (m.insert a b) = total v m + v b := by
  rw [total, AList.entries_insert_of_notMem h, List.map_cons, List.sum_cons, Nat.add_comm]
  rfl

end AssocList
