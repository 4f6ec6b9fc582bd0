import IsaacP2P.Relay.Exchange

/-!
# What one connection is owed from another

While the connections of `a` and `b` both stay open, `a` may have been registered
before or may register now, and so may `b`; others come, register and go. What `b`
is owed from `a` of that time is a part, in order, of the payloads for its mark
among the packets `a` had processed (`deliveries_sublist`). Once registered a
connection stays so (`stays_registered`).
-/

namespace IsaacP2P.Relay

open LengthPrefixed (next)

variable {s s' : Server} {a b f : Fd} {tr new : List Ev} {mark : List UInt8}

/-! ## Packets are legal -/

/-- Every packet processed is one that the limit lets pass. -/
def LegalPackets (s : Server) : Prop :=
  ∀ d ∈ packets s.trace, d.2 ≠ [] ∧ d.2.length ≤ maxPayload

theorem packets_flushedState {c : Connection} {buf w rest : List UInt8} {failed : Bool}
    (hF : Flushed f buf w rest failed new) :
    packets (flushedState f c rest failed new s).trace = packets s.trace := by
  have hout := packets_output hF.output s.trace
  rw [flushedState_trace]
  cases failed with
  | false => exact hout
  | true => exact hout

theorem Outcome.packets_eq {k : Kernel} {c : Connection} {p : List UInt8} {more : Bool}
    (h : Outcome k a c p s more s') : packets s'.trace = packets s.trace ++ [(a, p)] := by
  cases h with
  | wrongLength _ _ | taken _ _ _ | dropped _ _ | registers _ _ _ => rfl
  | forwards _ _ _ _ _ _ hF =>
    rw [packets_flushedState hF]
    rfl

theorem legalPackets_kept : Kept LegalPackets where
  read _ _ _ hs := hs
  recv _ _ _ hs := hs
  outcome {_ a _ p _ _ _ _} _ _ hnext h hs := by
    intro d hd
    rw [h.packets_eq, List.mem_append] at hd
    rcases hd with hd | hd
    · exact hs d hd
    · obtain rfl := List.mem_singleton.mp hd
      exact (LengthPrefixed.next_item hnext).2
  flushed _ _ hF hs := by
    unfold LegalPackets
    rwa [packets_flushedState hF]
  close f _ hs := by
    unfold LegalPackets
    rwa [closeConnection_trace]
  accepts {_ s s'} _ h hs := by
    cases h with
    | nothing _ | accepted _ => exact hs
    | refused _ _ hnew => rcases hnew with rfl | ⟨ok, rfl⟩ <;> exact hs

theorem reachable_legalPackets (h : Reachable s) : LegalPackets s :=
  legalPackets_kept.reachable (fun _ _ _ hd => nomatch hd) h

theorem packet_of_delivery {d : Fd × List UInt8} (h : d ∈ deliveries b tr) :
    ∃ data, (d.1, data) ∈ packets tr ∧ d.2 ≠ [] ∧ d.2.length ≤ data.length := by
  induction tr with
  | nil => cases h
  | cons e tr ih =>
    have hold : ∀ {ps : List (Fd × List UInt8)}, d ∈ deliveries b tr →
        ∃ data, (d.1, data) ∈ packets tr ++ ps ∧ d.2 ≠ [] ∧ d.2.length ≤ data.length := by
      intro ps hd
      obtain ⟨data, hmem, hrest⟩ := ih hd
      exact ⟨data, List.mem_append_left _ hmem, hrest⟩
    cases e with
    | accept g =>
      rw [deliveries] at h
      split at h
      · cases h
      · exact ih h
    | packet g data =>
      rw [deliveries] at h
      split at h
      · rcases List.mem_append.mp h with h | h
        · exact hold h
        · obtain ⟨p, hp, rfl⟩ := List.mem_map.mp h
          rw [Option.mem_toList, payloadFor] at hp
          obtain ⟨⟨-, hne⟩, ⟨⟩⟩ := Option.ite_none_right_eq_some.mp hp
          exact ⟨data, List.mem_append_right _ (List.mem_singleton.mpr rfl), hne,
            by rw [List.length_drop]; omega⟩
      · exact hold h
    | _ => exact ih h

theorem legal_of_delivery (h : Reachable s) {d : Fd × List UInt8}
    (hd : d ∈ deliveries b s.trace) : d.2 ≠ [] ∧ d.2.length ≤ maxPayload := by
  obtain ⟨data, hmem, hne, hle⟩ := packet_of_delivery hd
  exact ⟨hne, hle.trans (reachable_legalPackets h _ hmem).2⟩

/-! ## Open at the same time -/

theorem stays_open_of_lawful (hl : Lawful (new ++ tr)) (hopen : isOpen f tr = true)
    (hclose : .close f ∉ new) : isOpen f (new ++ tr) = true := by
  induction new with
  | nil => exact hopen
  | cons e new ih =>
    have ih := ih (lawful_tail hl) fun h => hclose (List.mem_cons_of_mem _ h)
    cases e with
    | accept g =>
      by_cases hg : g = f
      · simp [isOpen, hg]
      · simpa [isOpen, hg] using ih
    | close g =>
      have hg : g ≠ f := by
        rintro rfl
        exact hclose (List.mem_cons_self ..)
      simpa [isOpen, hg] using ih
    | _ => exact ih

theorem stays_registered (hl : Lawful (new ++ tr)) (hopen : isOpen f tr = true)
    (hclose : .close f ∉ new) (hm : markOf f tr = some mark) :
    markOf f (new ++ tr) = some mark ∧ ∀ m, .register f m ∉ new := by
  induction new with
  | nil => exact ⟨hm, fun _ h => by cases h⟩
  | cons e new ih =>
    have hclose' : .close f ∉ new := fun h => hclose (List.mem_cons_of_mem _ h)
    have hl' := lawful_tail hl
    obtain ⟨hmark, hreg⟩ := ih hl' hclose'
    cases e with
    | accept g =>
      have hg : g ≠ f := by
        rintro rfl
        have := (stays_open_of_lawful hl' hopen hclose').symm.trans hl.1
        cases this
      exact ⟨by simpa [markOf, hg] using hmark, by simpa using hreg⟩
    | close g =>
      have hg : g ≠ f := by
        rintro rfl
        exact hclose (List.mem_cons_self ..)
      exact ⟨by simpa [markOf, hg] using hmark, by simpa using hreg⟩
    | register g m =>
      have hg : g ≠ f := by
        rintro rfl
        have := hmark.symm.trans hl.1.2.1
        cases this
      exact ⟨by simpa [markOf, hg] using hmark, by simpa [Ne.symm hg] using hreg⟩
    | _ => exact ⟨hmark, by simpa using hreg⟩

theorem deliveries_grow (hl : Lawful (new ++ tr)) (hopen : isOpen b tr = true)
    (hclose : .close b ∉ new) : deliveries b tr <+: deliveries b (new ++ tr) := by
  induction new with
  | nil => exact List.prefix_rfl
  | cons e new ih =>
    have hl' := lawful_tail hl
    have hclose' : .close b ∉ new := fun h => hclose (List.mem_cons_of_mem _ h)
    have ih := ih hl' hclose'
    cases e with
    | accept g =>
      have hg : g ≠ b := by
        rintro rfl
        have := (stays_open_of_lawful hl' hopen hclose').symm.trans hl.1
        cases this
      simpa [deliveries, hg] using ih
    | packet g data =>
      rw [List.cons_append, deliveries]
      split
      · exact ih.trans (List.prefix_append _ _)
      · exact ih
    | _ => exact ih

/-- What a packet of `g` adds to what `b` is owed from `a`. -/
def added (a b g : Fd) (data : List UInt8) (tr : List Ev) : List (List UInt8) :=
  if g = a ∧ markOf a tr ≠ none then ((markOf b tr).bind (payloadFor · data)).toList else []

theorem deliveries_packet (g : Fd) (data : List UInt8) :
    (deliveries b (.packet g data :: tr)).filter (·.1 = a) =
      (deliveries b tr).filter (·.1 = a) ++ (added a b g data tr).map (a, ·) := by
  unfold added
  rw [deliveries]
  by_cases hg : g = a
  · subst hg
    cases markOf g tr with
    | none => simp
    | some m =>
      cases markOf b tr with
      | none => simp
      | some mark => cases payloadFor mark data <;> simp
  · rw [if_neg fun h => hg h.1, List.map_nil, List.append_nil]
    split
    · rename_i mark _ _
      rw [List.filter_append]
      cases payloadFor mark data <;> simp [hg]
    · rfl

/-- **The packets of a sender**: what the receiver is owed by `a` grows by payloads for its
mark among the packets `a` had processed, in their order, once it has a mark. -/
theorem deliveries_sublist (hl : Lawful (new ++ tr)) (hclose : .close a ∉ new ∧ .close b ∉ new)
    (hopen : isOpen a tr = true ∧ isOpen b tr = true) :
    ∃ ps qs, handled a (new ++ tr) = handled a tr ++ ps ∧
      (deliveries b (new ++ tr)).filter (·.1 = a) =
        (deliveries b tr).filter (·.1 = a) ++ qs.map (a, ·) ∧
      (markOf b (new ++ tr) = none → qs = []) ∧
      ∀ mark, markOf b (new ++ tr) = some mark → qs.Sublist (ps.filterMap (payloadFor mark)) := by
  induction new with
  | nil => exact ⟨[], [], by simp, by simp, fun _ => rfl, fun _ _ => List.nil_sublist _⟩
  | cons e new ih =>
    have hl' := lawful_tail hl
    have hclose' : .close a ∉ new ∧ .close b ∉ new :=
      ⟨fun h => hclose.1 (List.mem_cons_of_mem _ h), fun h => hclose.2 (List.mem_cons_of_mem _ h)⟩
    obtain ⟨ps, qs, hh, hd, hnone, hsome⟩ := ih hl' hclose'
    cases e with
    | accept g =>
      have hne : ∀ {f}, isOpen f (new ++ tr) = true → g ≠ f := by
        rintro f hf rfl
        have := hf.symm.trans hl.1
        cases this
      have hga := hne (stays_open_of_lawful hl' hopen.1 hclose'.1)
      have hgb := hne (stays_open_of_lawful hl' hopen.2 hclose'.2)
      refine ⟨ps, qs, ?_, ?_, ?_, ?_⟩
      · simpa [handled, hga] using hh
      · simpa [deliveries, hgb] using hd
      · simpa [markOf, hgb] using hnone
      · simpa [markOf, hgb] using hsome
    | close g =>
      have hgb : g ≠ b := by
        rintro rfl
        exact hclose.2 (List.mem_cons_self ..)
      refine ⟨ps, qs, hh, hd, ?_, ?_⟩
      · simpa [markOf, hgb] using hnone
      · simpa [markOf, hgb] using hsome
    | register g m =>
      by_cases hgb : g = b
      · subst hgb
        obtain rfl := hnone hl.1.2.1
        exact ⟨ps, [], hh, hd, fun _ => rfl, fun _ _ => List.nil_sublist _⟩
      · refine ⟨ps, qs, hh, hd, ?_, ?_⟩
        · simpa [markOf, hgb] using hnone
        · simpa [markOf, hgb] using hsome
    | packet g data =>
      refine ⟨ps ++ (if g = a then [data] else []), qs ++ added a b g data (new ++ tr), ?_, ?_,
        fun hno => ?_, fun mark hmark => ?_⟩
      · by_cases hg : g = a <;> simp [handled, hg, hh]
      · rw [List.cons_append, deliveries_packet, hd, List.map_append, List.append_assoc]
      · have hno : markOf b (new ++ tr) = none := hno
        rw [hnone hno, added, hno]
        simp
      · have hmark : markOf b (new ++ tr) = some mark := hmark
        rw [List.filterMap_append, added, hmark, Option.bind_some]
        refine (hsome mark hmark).append ?_
        by_cases hg : g = a
        · cases hp : payloadFor mark data <;> cases markOf a (new ++ tr) <;> simp [hg, hp]
        · simp [hg]
    | _ => exact ⟨ps, qs, hh, hd, hnone, hsome⟩

end IsaacP2P.Relay
