import BlockNotation.Modifier.Analysis
import Mathlib.Data.Finset.Card
import Mathlib.Data.String.Basic
import Mathlib.Logic.Function.Iterate

/-!
# Which classifier decides

Of the classifiers that accept a label, the first of each key decides (`classifyLabel_exact`): its
category is the one under the key and its flag is the one that counts. All others lose, and each
that loses is one report.
-/

namespace BlockNotation

namespace Classification

variable {key key' : String} {value : Category} {entries : List (String × Category)}

theorem mem_insertEntry {entry : String × Category} : ∀ {entries : List (String × Category)},
    entry ∈ insertEntry key value entries ↔ entry = (key, value) ∨ entry ∈ entries
  | [] => by simp [insertEntry]
  | e :: entries => by
    simp only [insertEntry]
    split
    · simp
    · simp only [List.mem_cons, mem_insertEntry]
      tauto

theorem lookup_cons_of_ne (h : key ≠ key') :
    ((key', value) :: entries).lookup key = entries.lookup key := by
  rw [List.lookup_cons, beq_false_of_ne h]

/-- A key that entries do not have is not the first of theirs. -/
theorem ne_of_lookup_cons (h : ((key', value) :: entries).lookup key = none) : key ≠ key' := by
  rintro rfl
  rw [List.lookup_cons_self] at h
  cases h

theorem lookup_insertEntry : ∀ {entries : List (String × Category)},
    entries.lookup key = none →
      (insertEntry key value entries).lookup key' =
        if key' = key then some value else entries.lookup key'
  | [], _ => by
    by_cases h : key' = key
    · simp [insertEntry, h]
    · simp [insertEntry, h, lookup_cons_of_ne h]
  | (k, v) :: entries, hnew => by
    have hk := ne_of_lookup_cons hnew
    rw [lookup_cons_of_ne hk] at hnew
    simp only [insertEntry]
    split
    · by_cases h : key' = key
      · simp [h]
      · simp [h, lookup_cons_of_ne h]
    · by_cases h : key' = k
      · simp [h, hk.symm]
      · simp [lookup_cons_of_ne h, lookup_insertEntry hnew]

/-- A new key leaves the entries in order. -/
theorem sorted_insertEntry : ∀ {entries : List (String × Category)},
    entries.Pairwise (·.1 < ·.1) → entries.lookup key = none →
      (insertEntry key value entries).Pairwise (·.1 < ·.1)
  | [], _, _ => List.pairwise_singleton _ _
  | (k, v) :: entries, hsorted, hnew => by
    have hk := ne_of_lookup_cons hnew
    rw [lookup_cons_of_ne hk] at hnew
    obtain ⟨hhead, htail⟩ := List.pairwise_cons.1 hsorted
    simp only [insertEntry]
    split
    · rename_i hlt
      exact List.pairwise_cons.2 ⟨List.forall_mem_cons.2 ⟨hlt, fun e he => hlt.trans (hhead e he)⟩,
        hsorted⟩
    · rename_i hge
      refine List.pairwise_cons.2 ⟨fun e he => ?_, sorted_insertEntry htail hnew⟩
      rcases mem_insertEntry.1 he with rfl | he
      · exact lt_of_le_of_ne (not_lt.1 hge) hk.symm
      · exact hhead e he

theorem set_of_get?_eq_none {c : Classification} {list : Bool} (h : c.get? key = none) :
    c.set key value list = ⟨insertEntry key value c.entries, c.list || list⟩ := by
  simp [set, isSet, h]

theorem get?_set_of_get?_eq_none {c : Classification} {list : Bool} (h : c.get? key = none) :
    (c.set key value list).get? key' = if key' = key then some value else c.get? key' := by
  rw [set_of_get?_eq_none h]
  exact lookup_insertEntry h

end Classification

/-- The classifiers of a registry that accept a label, in the order in which they are asked. -/
def Registry.accepting (r : Registry) (label : String) : List Classifier :=
  r.classifiers.filter (·.accepts (lowercase label))

/-- The first of some classifiers with a key. -/
def Classifier.first? (cs : List Classifier) (key : String) : Option Classifier :=
  cs.find? (·.key = key)

/-- The number of some classifiers without their distinct keys: how many of them are not the first
of their key. -/
def Classifier.losses (cs : List Classifier) : Nat :=
  cs.length - (cs.map Classifier.key).toFinset.card

variable {σ : Type} [Sink σ]

/-- A sink after `n` reports of a conflict about `context`. -/
def Sink.conflicts (context : Span) (n : Nat) (sink : σ) : σ :=
  (fun s => Sink.report s context conflictMessage)^[n] sink

theorem Sink.conflicts_succ (context : Span) (n : Nat) (sink : σ) :
    Sink.conflicts context (n + 1) sink =
      Sink.report (Sink.conflicts context n sink) context conflictMessage :=
  Function.iterate_succ_apply' _ _ _

/-- A classification and a sink are what classifiers that all accept a label make of it: the first
of each key decides. -/
structure Decided (context : Span) (sink : σ) (cs : List Classifier)
    (state : Classification × σ) : Prop where
  /-- Entries stand by increasing key, so no key stands twice. -/
  sorted : state.1.entries.Pairwise (·.1 < ·.1)
  /-- The category under a key is that of the first classifier with the key. There is none without
  such a classifier. -/
  category : ∀ key, state.1.get? key = (Classifier.first? cs key).map Classifier.category
  /-- The block gives a list if one of the first classifiers of a key says so. -/
  list : state.1.list = true ↔ ∃ key c, Classifier.first? cs key = some c ∧ c.list = true
  /-- Every classifier that is not the first of its key is reported. -/
  reports : state.2 = Sink.conflicts context (Classifier.losses cs) sink

namespace Classifier

variable {cs : List Classifier} {c d : Classifier} {key : String}

theorem first?_append : first? (cs ++ [c]) key =
    (first? cs key).or (if c.key = key then some c else none) := by
  by_cases h : c.key = key <;> simp [first?, List.find?_append, h]

theorem first?_eq_none_iff : first? cs key = none ↔ key ∉ (cs.map Classifier.key).toFinset := by
  simp [first?, List.find?_eq_none]

/-- A classifier whose key is taken is the first of no key. -/
theorem first?_append_of_taken (h : first? cs c.key = some d) :
    first? (cs ++ [c]) key = first? cs key := by
  rw [first?_append]
  by_cases hkey : c.key = key
  · subst hkey
    simp [h]
  · simp [hkey]

theorem losses_append_of_taken (h : first? cs c.key = some d) :
    losses (cs ++ [c]) = losses cs + 1 := by
  have hmem : c.key ∈ (cs.map Classifier.key).toFinset := by
    by_contra hnot
    rw [first?_eq_none_iff.2 hnot] at h
    cases h
  have hkeys : ((cs ++ [c]).map Classifier.key).toFinset = (cs.map Classifier.key).toFinset := by
    rw [List.map_append, List.toFinset_append]
    simpa using hmem
  have hle := List.toFinset_card_le (cs.map Classifier.key)
  rw [List.length_map] at hle
  rw [losses, losses, hkeys, List.length_append, List.length_singleton]
  omega

theorem losses_append_of_free (h : first? cs c.key = none) :
    losses (cs ++ [c]) = losses cs := by
  have hcard : ((cs ++ [c]).map Classifier.key).toFinset.card =
      (cs.map Classifier.key).toFinset.card + 1 := by
    rw [← Finset.card_insert_of_notMem (first?_eq_none_iff.1 h)]
    congr 1
    ext key
    simp
  rw [losses, losses, hcard, List.length_append, List.length_singleton, Nat.add_sub_add_right]

/-- A classifier whose key is not taken is the first of that key. -/
theorem first?_append_of_free (h : first? cs c.key = none) :
    first? (cs ++ [c]) key = if key = c.key then some c else first? cs key := by
  rw [first?_append]
  by_cases hkey : c.key = key
  · subst hkey
    simp [h]
  · simp [hkey, Ne.symm hkey]

end Classifier

namespace Decided

variable {context : Span} {sink : σ} {cs : List Classifier} {c d : Classifier}
  {state : Classification × σ} {text : String}

theorem nil (context : Span) (sink : σ) : Decided context sink [] (.empty, sink) where
  sorted := List.Pairwise.nil
  category _ := rfl
  list := by simp [Classification.empty, Classifier.first?]
  reports := rfl

theorem isSet_iff (h : Decided context sink cs state) {key : String} :
    state.1.isSet key = true ↔ (Classifier.first? cs key).isSome = true := by
  rw [Classification.isSet, h.category, Option.isSome_map]

/-- A classifier that loses changes nothing and is reported. -/
theorem lose (h : Decided context sink cs state) (hd : Classifier.first? cs c.key = some d) :
    Decided context sink (cs ++ [c])
      (state.1, Sink.report state.2 context conflictMessage) where
  sorted := h.sorted
  category key := by rw [Classifier.first?_append_of_taken hd, h.category]
  list := by simp only [Classifier.first?_append_of_taken hd, h.list]
  reports := by rw [Classifier.losses_append_of_taken hd, Sink.conflicts_succ, h.reports]

/-- A classifier that is the first of its key decides about the key. -/
theorem win (h : Decided context sink cs state) (hd : Classifier.first? cs c.key = none) :
    Decided context sink (cs ++ [c]) (state.1.set c.key c.category c.list, state.2) := by
  have hget : state.1.get? c.key = none := by rw [h.category, hd, Option.map_none]
  refine ⟨?_, fun key => ?_, ?_, ?_⟩
  · rw [Classification.set_of_get?_eq_none hget]
    exact Classification.sorted_insertEntry h.sorted hget
  · rw [Classification.get?_set_of_get?_eq_none hget, Classifier.first?_append_of_free hd]
    by_cases hkey : key = c.key
    · simp [hkey]
    · simpa [hkey] using h.category key
  · rw [Classification.set_of_get?_eq_none hget, Bool.or_eq_true, h.list]
    simp only [Classifier.first?_append_of_free hd]
    constructor
    · rintro (⟨key, e, he, hlist⟩ | hlist)
      · have hkey : key ≠ c.key := by
          rintro rfl
          rw [hd] at he
          cases he
        exact ⟨key, e, by rw [if_neg hkey, he], hlist⟩
      · exact ⟨c.key, c, if_pos rfl, hlist⟩
    · rintro ⟨key, e, he, hlist⟩
      split at he
      · cases he
        exact .inr hlist
      · exact .inl ⟨key, e, he, hlist⟩
  · rw [Classifier.losses_append_of_free hd]
    exact h.reports

/-- Asking one more classifier that accepts the label. -/
theorem ask (h : Decided context sink cs state) (hc : c.accepts text = true) :
    Decided context sink (cs ++ [c]) (Registry.ask text context state c) := by
  have hif : Registry.ask text context state c =
      if state.1.isSet c.key then (state.1, Sink.report state.2 context conflictMessage)
      else (state.1.set c.key c.category c.list, state.2) := by
    simp [Registry.ask, hc]
  rw [hif]
  cases hd : Classifier.first? cs c.key with
  | some d =>
    rw [if_pos (h.isSet_iff.2 (by rw [hd]; rfl))]
    exact h.lose hd
  | none =>
    rw [if_neg (by rw [h.isSet_iff, hd]; simp)]
    exact h.win hd

theorem foldl_ask (hcs : ∀ c ∈ cs, c.accepts text = true) :
    Decided context sink cs (cs.foldl (Registry.ask text context) (.empty, sink)) := by
  induction cs using List.reverseRecOn with
  | nil => exact nil context sink
  | append_singleton cs c ih =>
    rw [List.foldl_append]
    exact (ih fun d hd => hcs d (List.mem_append_left _ hd)).ask (hcs c (by simp))

end Decided

namespace Registry

/-- Classifiers that refuse a label might as well not be there. -/
theorem foldl_ask_filter (text : String) (context : Span) (cs : List Classifier)
    (state : Classification × σ) : cs.foldl (ask text context) state =
      (cs.filter (·.accepts text)).foldl (ask text context) state := by
  rw [List.foldl_filter]
  congr 1
  funext state c
  by_cases h : c.accepts text = true <;> simp [ask, h]

theorem decided_classifyLabel (r : Registry) (label : String) (context : Span) (sink : σ) :
    Decided context sink (r.accepting label) (r.classifyLabel (some label) context sink) := by
  rw [classifyLabel, foldl_ask_filter]
  exact Decided.foldl_ask fun c hc => (List.mem_filter.1 hc).2

/-- A classification says about every key what the first classifier of the key says that accepts
the label in lower case, and nothing about other keys. The block gives a list if one of these
classifiers says so. Every further classifier that accepts the label is one report of a conflict
about the context, whatever it would have said. Without a modifier nothing is said and nothing is
reported. -/
theorem classifyLabel_exact (r : Registry) (context : Span) (sink : σ) :
    r.classifyLabel none context sink = (.empty, sink) ∧
    ∀ label, Decided context sink (r.accepting label)
      (r.classifyLabel (some label) context sink) :=
  ⟨rfl, fun label => r.decided_classifyLabel label context sink⟩

/-- A classifier that would have said the same again is reported too, and its flag does not
count. -/
example : classifyLabel ⟨[(Classifier.ofCategory "a" .pen).matchingEnding "list",
      ((Classifier.ofCategory "b" .pen).marksList).matchingBeginning "MY"]⟩ (some "My List") ⟨3, 10⟩
      (WarningLog.empty 0) =
    (⟨[(categoryKey, .pen)], false⟩, ⟨0, [⟨conflictMessage, ⟨3, 10⟩, 0⟩]⟩) := by
  decide +kernel

end Registry

end BlockNotation
