import BlockNotation.Proofs.Modifier.Log
import Mathlib.Data.List.Flatten

/-!
# Further classifiers only add

Classifiers that are added to a registry are asked after all others, so they find every key that
was set still set and can only set more (`Classification.ExtendedBy`), and the warnings they leave
come after those that were there. This is shown of one classifier, carried over several, and then
from block to block through a script (`extension_conservative`).
-/

namespace BlockNotation

/-- The registry with further classifiers, each asked after all before it. -/
def Registry.addAll (r : Registry) (extra : List Classifier) : Registry := extra.foldl add r

theorem Registry.classifiers_addAll (r : Registry) (extra : List Classifier) :
    (r.addAll extra).classifiers = r.classifiers ++ extra := by
  unfold addAll
  induction extra generalizing r with
  | nil => exact (List.append_nil _).symm
  | cons c extra ih =>
    rw [List.foldl_cons, ih]
    exact List.append_assoc r.classifiers [c] extra

theorem Classification.sublist_insertEntry (key : String) (value : Category) :
    ∀ entries : List (String × Category), entries.Sublist (insertEntry key value entries)
  | [] => List.nil_sublist _
  | entry :: entries => by
    unfold insertEntry
    split
    · exact List.sublist_cons_self _ _
    · exact (sublist_insertEntry key value entries).cons_cons entry

/-- The classification `d` says all that `c` says. What it says besides comes from the classifiers
`extra`. -/
structure Classification.ExtendedBy (extra : List Classifier) (c d : Classification) : Prop where
  /-- Entries stay, in their order. -/
  entries : c.entries.Sublist d.entries
  /-- A key that is set keeps its category. -/
  get? : ∀ key value, c.get? key = some value → d.get? key = some value
  list : c.list = true → d.list = true
  gained : ∀ entry ∈ d.entries, entry ∈ c.entries ∨ ∃ e ∈ extra, entry = (e.key, e.category)

namespace Classification.ExtendedBy

variable {c d d' : Classification} {extra later : List Classifier}

theorem refl (extra : List Classifier) (c : Classification) : c.ExtendedBy extra c :=
  ⟨List.Sublist.refl _, fun _ _ h => h, fun h => h, fun _ h => .inl h⟩

theorem trans (h : c.ExtendedBy extra d) (h' : d.ExtendedBy later d') :
    c.ExtendedBy (extra ++ later) d' where
  entries := h.entries.trans h'.entries
  get? key value hget := h'.get? key value (h.get? key value hget)
  list hlist := h'.list (h.list hlist)
  gained entry hentry := by
    rcases h'.gained entry hentry with hd | ⟨e, he, rfl⟩
    · rcases h.gained entry hd with hc | ⟨e, he, rfl⟩
      · exact .inl hc
      · exact .inr ⟨e, List.mem_append_left _ he, rfl⟩
    · exact .inr ⟨e, List.mem_append_right _ he, rfl⟩

/-- A classifier whose key is free adds one entry, and perhaps the mark of a list. -/
theorem set {e : Classifier} (h : c.isSet e.key = false) :
    c.ExtendedBy [e] (c.set e.key e.category e.list) := by
  have hfree : c.get? e.key = none := by simpa [isSet] using h
  rw [set_of_get?_eq_none hfree]
  refine ⟨sublist_insertEntry _ _ _, fun key value hget => ?_, fun hlist => ?_,
    fun entry hentry => ?_⟩
  · have hne : key ≠ e.key := by
      rintro rfl
      rw [hfree] at hget
      cases hget
    exact ((lookup_insertEntry hfree).trans (if_neg hne)).trans hget
  · simp [hlist]
  · rcases mem_insertEntry.1 hentry with rfl | hentry
    · exact .inr ⟨e, List.mem_singleton_self e, rfl⟩
    · exact .inl hentry

end Classification.ExtendedBy

namespace Registry

variable (text : String) (context : Span)

/-- One more classifier extends the classification and leaves the earlier warnings in front. -/
theorem ask_extends (state : Classification × WarningLog) (e : Classifier) :
    state.1.ExtendedBy [e] (ask text context state e).1 ∧
      state.2.warnings <+: (ask text context state e).2.warnings := by
  unfold ask
  split
  · exact ⟨.refl _ _, List.prefix_rfl⟩
  · split
    · exact ⟨.refl _ _, List.prefix_append _ _⟩
    · rename_i hfree
      exact ⟨.set (by simpa using hfree), List.prefix_rfl⟩

theorem foldl_ask_extends : ∀ (extra : List Classifier) (state : Classification × WarningLog),
    state.1.ExtendedBy extra (extra.foldl (ask text context) state).1 ∧
      state.2.warnings <+: (extra.foldl (ask text context) state).2.warnings
  | [], state => ⟨.refl _ _, List.prefix_rfl⟩
  | e :: extra, state => by
    obtain ⟨hstep, hprefix⟩ := ask_extends text context state e
    obtain ⟨hrun, hprefix'⟩ := foldl_ask_extends extra (ask text context state e)
    exact ⟨hstep.trans hrun, hprefix.trans hprefix'⟩

variable (r : Registry) (extra : List Classifier)

/-- Added classifiers take a block up where the others left it. -/
theorem classify_addAll (a : Atomic) (log : WarningLog) :
    (r.classify a log).1.ExtendedBy extra ((r.addAll extra).classify a log).1 ∧
      (r.classify a log).2.warnings <+: ((r.addAll extra).classify a log).2.warnings := by
  unfold classify
  cases a.modifier with
  | none => exact ⟨.refl _ _, List.prefix_rfl⟩
  | some m =>
    simp only [Option.map_some, classifyLabel, classifiers_addAll, List.foldl_append]
    exact foldl_ask_extends _ _ _ _

/-- Further classifiers leave every block of a script all it had: each key with its category, and
the mark of a list. What a block gains is under keys of theirs, and the warnings that there were
are among the new ones in their old order. -/
theorem extension_conservative (code : Code) (log : WarningLog) :
    (r.analyse code log).1.map Prod.fst = code.atomicBlocks ∧
    List.Forall₂ (fun before after => before.1 = after.1 ∧ before.2.ExtendedBy extra after.2)
      (r.analyse code log).1 ((r.addAll extra).analyse code log).1 ∧
    (r.analyse code log).2.warnings.Sublist ((r.addAll extra).analyse code log).2.warnings := by
  have hrun : ∀ r : Registry, r.analyse code log = (code.atomicBlocks.map fun a =>
      (a, (r.classify a (WarningLog.empty 0)).1), log.extend
        (code.atomicBlocks.flatMap fun a => newWarnings (r.classify a) log.sourceId)) := by
    intro r
    rw [analyse, classifyAll_eq_inTurn, inTurn_eq_fresh r.appends_entry _ _ 0]
    rfl
  rw [hrun r, hrun (r.addAll extra)]
  refine ⟨?_, ?_, ?_⟩
  · simp [Function.comp_def]
  · rw [List.forall₂_map_left_iff, List.forall₂_map_right_iff, List.forall₂_same]
    exact fun a _ => ⟨rfl, (r.classify_addAll extra a (.empty 0)).1⟩
  · refine List.Sublist.append_left (List.Sublist.flatMap_right _ fun a _ => ?_) log.warnings
    exact (r.classify_addAll extra a (.empty log.sourceId)).2.sublist

end Registry

end BlockNotation
