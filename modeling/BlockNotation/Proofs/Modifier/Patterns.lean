import BlockNotation.Modifier.Classifier
import Mathlib.Data.List.TakeWhile

/-!
# Patterns and labels spelled alike

A pattern and a label are put in lower case apart from each other, and what becomes of a capital
sigma depends on the text around it. So the lower case of a part of a text is that part of the
lower case of the text, unless a capital sigma ends a word in the one and not in the other
(`lowerBetween_eq_iff`).

An exact pattern therefore always accepts its own spelling. One for the beginning of a label does
not if it ends with a final sigma and the word goes on behind it, and one for the end does not if
its sigma has a word in front of it only in the label (`pattern_covers_iff`).
-/

namespace BlockNotation

/-- The lower case of a text between two others. The one before it is given in reverse. -/
def lowerBetween (before after : List Char) : List Char → List Char
  | [] => []
  | c :: cs =>
    (if c = 'Σ' then [if meetsCased before && !meetsCased (cs ++ after) then 'ς' else 'σ']
      else lowerChar c) ++ lowerBetween (c :: before) after cs

theorem lowerAfter_eq : ∀ (before cs : List Char), lowerAfter before cs = lowerBetween before [] cs
  | _, [] => rfl
  | before, c :: cs => by
    rw [lowerAfter, lowerBetween, List.append_nil, lowerAfter_eq (c :: before) cs]

theorem toList_lowercase (s : String) : (lowercase s).toList = lowerBetween [] [] s.toList := by
  rw [lowercase, String.toList_ofList, lowerAfter_eq]

theorem lowerBetween_append : ∀ (before after cs ds : List Char),
    lowerBetween before after (cs ++ ds) =
      lowerBetween before (ds ++ after) cs ++ lowerBetween (cs.reverse ++ before) after ds
  | _, _, [], _ => rfl
  | before, after, c :: cs, ds => by
    rw [List.cons_append, lowerBetween, lowerBetween, lowerBetween_append (c :: before) after cs ds,
      List.append_assoc cs ds after, List.reverse_cons, List.append_assoc cs.reverse [c] before,
      List.singleton_append, List.append_assoc]

/-- What stands around a text does not change the length of its lower case. -/
theorem length_lowerBetween : ∀ (before before' after after' cs : List Char),
    (lowerBetween before after cs).length = (lowerBetween before' after' cs).length
  | _, _, _, _, [] => rfl
  | before, before', after, after', c :: cs => by
    have ih := length_lowerBetween (c :: before) (c :: before') after after' cs
    rw [lowerBetween, lowerBetween, List.length_append, List.length_append, ih]
    split <;> rfl

/-- The lower case of a text depends on what stands around it only in the sigmas that end a word. -/
theorem lowerBetween_eq_iff : ∀ {before before' after after' cs : List Char},
    lowerBetween before after cs = lowerBetween before' after' cs ↔
      ∀ l r, cs = l ++ 'Σ' :: r →
        (meetsCased (l.reverse ++ before) && !meetsCased (r ++ after)) =
          (meetsCased (l.reverse ++ before') && !meetsCased (r ++ after'))
  | _, _, _, _, [] => by simp [lowerBetween]
  | before, before', after, after', c :: cs => by
    have hlater : (∀ l r, c :: cs = l ++ 'Σ' :: r →
          (meetsCased (l.reverse ++ before) && !meetsCased (r ++ after)) =
            (meetsCased (l.reverse ++ before') && !meetsCased (r ++ after'))) ↔
        (c = 'Σ' → (meetsCased before && !meetsCased (cs ++ after)) =
          (meetsCased before' && !meetsCased (cs ++ after'))) ∧
        lowerBetween (c :: before) after cs = lowerBetween (c :: before') after' cs := by
      rw [lowerBetween_eq_iff]
      constructor
      · refine fun h => ⟨?_, fun l r hcs => ?_⟩
        · rintro rfl
          exact h [] cs rfl
        · simpa using h (c :: l) r (by rw [hcs, List.cons_append])
      · rintro ⟨hhead, htail⟩ (_ | ⟨d, l⟩) r hcs
        · obtain ⟨rfl, rfl⟩ := List.cons.inj hcs
          exact hhead rfl
        · obtain ⟨rfl, rfl⟩ := List.cons.inj hcs
          simpa using htail l r rfl
    rw [hlater, lowerBetween, lowerBetween]
    by_cases hc : c = 'Σ'
    · rw [if_pos hc, if_pos hc, List.singleton_append, List.singleton_append, List.cons.injEq]
      refine and_congr_left fun _ => ⟨fun h _ => ?_, fun h => by rw [h hc]⟩
      generalize (meetsCased before && !meetsCased (cs ++ after)) = b at h ⊢
      generalize (meetsCased before' && !meetsCased (cs ++ after')) = b' at h ⊢
      revert h
      cases b <;> cases b' <;> decide
    · rw [if_neg hc, if_neg hc, List.append_cancel_left_eq]
      exact ⟨fun h => ⟨fun hs => absurd hs hc, h⟩, And.right⟩

/-- Is a text looked past as a whole? -/
def Ignorable (cs : List Char) : Prop := ∀ c ∈ cs, caseIgnorableRanges.holds c = true

theorem meetsCased_of_ignorable {cs : List Char} (h : Ignorable cs) (ds : List Char) :
    meetsCased (cs ++ ds) = meetsCased ds := by
  rw [meetsCased, meetsCased, List.dropWhile_append_of_pos h]

theorem meetsCased_append {cs : List Char} (h : ¬Ignorable cs) (ds : List Char) :
    meetsCased (cs ++ ds) = meetsCased cs := by
  obtain ⟨c, hc, hnot⟩ : ∃ c ∈ cs, caseIgnorableRanges.holds c = false := by
    simpa [Ignorable] using h
  obtain ⟨d, rest, hrest⟩ : ∃ d rest, cs.dropWhile caseIgnorableRanges.holds = d :: rest := by
    refine List.exists_cons_of_ne_nil fun hnil => ?_
    rw [List.dropWhile_eq_nil_iff] at hnil
    rw [hnil c hc] at hnot
    cases hnot
  rw [meetsCased, meetsCased, List.dropWhile_append, hrest, List.isEmpty_cons,
    if_neg Bool.false_ne_true]
  rfl

theorem meetsCased_eq_false_of_ignorable {cs : List Char} (h : Ignorable cs) :
    meetsCased cs = false := by
  rw [← List.append_nil cs, meetsCased_of_ignorable h]
  rfl

/-- The last word of a text ends with a capital sigma, with a letter before it. -/
def EndsInSigma (cs : List Char) : Prop :=
  ∃ l r, cs = l ++ 'Σ' :: r ∧ meetsCased l.reverse = true ∧ Ignorable r

/-- The first word of a text is a capital sigma on its own. -/
def BeginsWithLoneSigma (cs : List Char) : Prop :=
  ∃ l r, cs = l ++ 'Σ' :: r ∧ Ignorable l ∧ meetsCased r = false

/-- The lower case of the beginning of a text is what the lower case of the text begins with, unless
a word that ends there with a sigma goes on. -/
theorem lowerBetween_prefix_iff {p r : List Char} :
    lowerBetween [] [] p <+: lowerBetween [] [] (p ++ r) ↔
      ¬(EndsInSigma p ∧ meetsCased r = true) := by
  have hsame : lowerBetween [] [] p <+: lowerBetween [] [] (p ++ r) ↔
      lowerBetween [] [] p = lowerBetween [] r p := by
    rw [lowerBetween_append, List.append_nil]
    have hlength := length_lowerBetween [] [] [] r p
    exact ⟨fun h => (List.prefix_of_prefix_length_le h (List.prefix_append _ _) hlength.le)
      |>.eq_of_length hlength, fun h => h ▸ List.prefix_append _ _⟩
  rw [hsame, lowerBetween_eq_iff]
  constructor
  · rintro h ⟨⟨l, q, hp, hl, hq⟩, hr⟩
    have hsigma := h l q hp
    rw [List.append_nil, List.append_nil, meetsCased_of_ignorable hq, hl, hr,
      meetsCased_eq_false_of_ignorable hq] at hsigma
    cases hsigma
  · intro h l q hp
    rw [List.append_nil, List.append_nil]
    by_cases hq : Ignorable q
    · rw [meetsCased_of_ignorable hq, meetsCased_eq_false_of_ignorable hq]
      by_cases hl : meetsCased l.reverse = true
      · have hr : meetsCased r = false := by
          simpa using fun hr => h ⟨⟨l, q, hp, hl, hq⟩, hr⟩
        rw [hr]
      · rw [Bool.not_eq_true] at hl
        rw [hl, Bool.false_and, Bool.false_and]
    · rw [meetsCased_append hq]

/-- The lower case of the end of a text is what the lower case of the text ends with, unless a lone
sigma there has a word before it. -/
theorem lowerBetween_suffix_iff {p r : List Char} :
    lowerBetween [] [] p <:+ lowerBetween [] [] (r ++ p) ↔
      ¬(BeginsWithLoneSigma p ∧ meetsCased r.reverse = true) := by
  have hsame : lowerBetween [] [] p <:+ lowerBetween [] [] (r ++ p) ↔
      lowerBetween [] [] p = lowerBetween r.reverse [] p := by
    rw [lowerBetween_append, List.append_nil, List.append_nil]
    have hlength := length_lowerBetween [] r.reverse [] [] p
    exact ⟨fun h => (List.suffix_of_suffix_length_le h (List.suffix_append _ _) hlength.le)
      |>.eq_of_length hlength, fun h => h ▸ List.suffix_append _ _⟩
  rw [hsame, lowerBetween_eq_iff]
  constructor
  · rintro h ⟨⟨l, q, hp, hl, hq⟩, hr⟩
    have hignorable : Ignorable l.reverse := fun c hc => hl c (List.mem_reverse.mp hc)
    have hsigma := h l q hp
    rw [List.append_nil, List.append_nil, meetsCased_of_ignorable hignorable,
      meetsCased_eq_false_of_ignorable hignorable, hq, hr] at hsigma
    cases hsigma
  · intro h l q hp
    rw [List.append_nil, List.append_nil]
    by_cases hl : Ignorable l.reverse
    · rw [meetsCased_of_ignorable hl, meetsCased_eq_false_of_ignorable hl]
      by_cases hq : meetsCased q = true
      · rw [hq, Bool.not_true, Bool.and_false, Bool.and_false]
      · have hr : meetsCased r.reverse = false := by
          refine Bool.eq_false_iff.mpr fun hr => h ⟨⟨l, q, hp, ?_, Bool.eq_false_iff.mpr hq⟩, hr⟩
          exact fun c hc => hl c (List.mem_reverse.mpr hc)
        rw [hr]
    · rw [meetsCased_append hl]

/-! ## Classifiers with one pattern -/

section

variable {name : String} {category : Category} {word text : String}

theorem accepts_matchingExactly : ((Classifier.ofCategory name category).matchingExactly
    word).accepts text = true ↔ text = lowercase word := by
  simp [Classifier.accepts, Classifier.matchingExactly, Classifier.withMatcher,
    Classifier.ofCategory, Matcher.accepts]

theorem accepts_matchingBeginning : ((Classifier.ofCategory name category).matchingBeginning
    word).accepts text = true ↔ (lowercase word).toList <+: text.toList := by
  simp [Classifier.accepts, Classifier.matchingBeginning, Classifier.withMatcher,
    Classifier.ofCategory, Matcher.accepts]

theorem accepts_matchingEnding : ((Classifier.ofCategory name category).matchingEnding
    word).accepts text = true ↔ (lowercase word).toList <:+ text.toList := by
  simp [Classifier.accepts, Classifier.matchingEnding, Classifier.withMatcher,
    Classifier.ofCategory, Matcher.accepts]

end

/-- A classifier with one pattern accepts a label that is, begins with or ends with the pattern as
it is spelled, except for a capital sigma at the inner end of the pattern: one that ends the last
word of the pattern while the label goes on with letters, or one that is the first word of the
pattern on its own while the label has letters before it. -/
theorem pattern_covers_iff (name : String) (category : Category) (p r : String) :
    ((Classifier.ofCategory name category).matchingExactly p).accepts (lowercase p) = true ∧
      (((Classifier.ofCategory name category).matchingBeginning p).accepts
          (lowercase (p ++ r)) = true ↔
        ¬(EndsInSigma p.toList ∧ meetsCased r.toList = true)) ∧
      (((Classifier.ofCategory name category).matchingEnding p).accepts
          (lowercase (r ++ p)) = true ↔
        ¬(BeginsWithLoneSigma p.toList ∧ meetsCased r.toList.reverse = true)) := by
  refine ⟨accepts_matchingExactly.mpr rfl, ?_, ?_⟩
  · rw [accepts_matchingBeginning, toList_lowercase, toList_lowercase, String.toList_append,
      lowerBetween_prefix_iff]
  · rw [accepts_matchingEnding, toList_lowercase, toList_lowercase, String.toList_append,
      lowerBetween_suffix_iff]

/-- A pattern for the beginning of a label that does not accept a label that begins with it. -/
theorem not_covered_sigma :
    ¬∀ (name : String) (category : Category) (p r : String),
      ((Classifier.ofCategory name category).matchingBeginning p).accepts
        (lowercase (p ++ r)) = true := fun h =>
  absurd (h "greek" .pen "ΑΣ" "Α") (by decide +kernel)

end BlockNotation
