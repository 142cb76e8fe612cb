import BlockNotation.Proofs.Token.Lookahead
import Mathlib.Data.List.TakeWhile

/-!
# Tokens in front of another text

When one text may stand for another (`Replaces`), the token in front of it stays the same
(`lexeme_replace`). Only a semicolon takes up a line feed behind it wherever there is one.

A text that is blank up to its end, a line feed or a comment may stand for any other
(`Breaks.replaces`).
-/

namespace BlockNotation

/-! ## Keywords -/

theorem repeatUntilLength_isSome {cs : List Char} : (repeatUntilLength cs).isSome ↔
    startsWithWord cs "repeat".toList ∧ untilAhead (cs.drop 6) := by
  unfold repeatUntilLength untilAhead
  split <;> simp_all

theorem not_untilAhead_of_startsUnit {cs : List Char} (h : startsUnit cs) : ¬untilAhead cs := by
  rcases cs with _ | ⟨c, cs⟩
  · cases h
  · have hc : (c = ' ' || c = '\t') = false := by
      by_contra hblank
      simp only [Bool.not_eq_false, Bool.or_eq_true, decide_eq_true_eq] at hblank
      rcases hblank with rfl | rfl <;> simp [startsUnit_cons, isBlank] at h
    simp [untilAhead, hc]

/-- Texts that begin with the same words have the same keyword, except that `until` may follow on
`repeat` in one of them. -/
theorem keywordAt_congr {cs ds : List Char}
    (hwords : ∀ word ∈ keywordWords, startsWithWord cs word = startsWithWord ds word)
    (huntil : repeatUntilLength cs = repeatUntilLength ds) : keywordAt cs = keywordAt ds := by
  have hspell : ∀ word : String, word.toList ∈ keywordWords →
      spellingLength word cs = spellingLength word ds := by
    intro word hmem
    rw [spellingLength, spellingLength, hwords _ hmem]
  simp only [keywordAt, keywordSpellings, List.findSome?_cons, List.findSome?_nil, huntil,
    hspell "forever" (by decide), hspell "end" (by decide), hspell "repeat" (by decide),
    hspell "if" (by decide), hspell "else" (by decide), hspell "then" (by decide)]

theorem spellingLength_eq_none_iff {word : String} {cs : List Char} :
    spellingLength word cs = none ↔ ¬startsWithWord cs word.toList := by
  simp [spellingLength]

theorem keywordAt_eq_none_iff {cs : List Char} :
    keywordAt cs = none ↔ ∀ word ∈ keywordWords, ¬startsWithWord cs word := by
  constructor
  · intro h
    have hwords : keywordWords =
        ["forever", "end", "repeat", "if", "else", "then"].map String.toList := by decide
    simp only [keywordAt, keywordSpellings, List.findSome?_eq_none_iff, List.forall_mem_cons,
      Option.map_eq_none_iff, spellingLength_eq_none_iff] at h
    obtain ⟨hforever, hend, -, hrepeat, hif, helse, hthen, -⟩ := h
    simp only [hwords, List.forall_mem_map, List.forall_mem_cons]
    exact ⟨hforever, hend, hrepeat, hif, helse, hthen, by simp⟩
  · intro h
    by_contra hne
    obtain ⟨⟨k, n⟩, hk⟩ := Option.ne_none_iff_exists'.1 hne
    rcases keywordAt_spells hk with ⟨word, hmem, -, hstarts, -⟩ | ⟨-, hn⟩
    · exact h word hmem hstarts
    · exact h _ (by decide) (repeatUntilLength_isSome.1 (by simp [hn])).1

theorem keywordAt_of_repeat {cs : List Char} (h : startsWithWord cs "repeat".toList) :
    keywordAt cs = match repeatUntilLength cs with
      | some n => some (.repeatUntilWord, n)
      | none => some (.repeatWord, 6) := by
  have hword : spellingLength "repeat" cs = some 6 := if_pos h
  obtain ⟨c, rest, rfl, hc, -⟩ := startsWithWord_cons (w := 'r') h
  have hforever : spellingLength "forever" (c :: rest) = none := by
    simp [spellingLength, startsWithWord, hc]
  have hend : spellingLength "end" (c :: rest) = none := by
    simp [spellingLength, startsWithWord, hc]
  simp only [keywordAt, keywordSpellings, List.findSome?_cons, hforever, hend, hword,
    Option.map_none, Option.map_some]
  cases repeatUntilLength (c :: rest) <;> rfl

theorem takeWhile_replace {p : Char → Bool} {x r : List Char} (r' : List Char)
    (h : ((x ++ r).takeWhile p).length < x.length) :
    (x ++ r').takeWhile p = (x ++ r).takeWhile p := by
  rw [takeWhile_append_of_length_le h.le] at h
  rw [List.takeWhile_append, if_neg h.ne, List.takeWhile_append, if_neg h.ne]

theorem repeatUntilLength_replace {x r : List Char} {n : Nat} (r' : List Char)
    (h : repeatUntilLength (x ++ r) = some n) (hn : n ≤ x.length) :
    repeatUntilLength (x ++ r') = some n := by
  obtain ⟨gap, hgap, hne, hrepeat, huntil, rfl⟩ := repeatUntilLength_cases h
  rw [List.drop_append_of_le_length (by omega)] at hgap huntil
  have hlen : gap < (x.drop 6).length := by rw [List.length_drop]; omega
  have hgap' : ((x.drop 6 ++ r').takeWhile fun c => c = ' ' || c = '\t').length = gap := by
    rw [takeWhile_replace r' (hgap ▸ hlen), hgap]
  have hsix : "repeat".toList.length = 6 := by decide
  have hfive : "until".toList.length = 5 := by decide
  unfold repeatUntilLength
  rw [startsWithWord_append_of_le r (by omega)] at hrepeat
  rw [startsWithWord_append_of_le r' (by omega), if_pos hrepeat,
    List.drop_append_of_le_length (by omega)]
  rw [List.drop_append_of_le_length hlen.le,
    startsWithWord_append_of_le r (by rw [List.length_drop, List.length_drop]; omega)] at huntil
  simp only [hgap']
  rw [List.drop_append_of_le_length hlen.le,
    startsWithWord_append_of_le r' (by rw [List.length_drop, List.length_drop]; omega), huntil,
    if_pos (by simpa using hne)]

theorem gapLength_of_startsUnit {cs : List Char} (h : startsUnit cs) : gapLength cs = 0 := by
  by_contra hgap
  exact not_startsUnit_of_gap hgap h

/-- The spaces and tabs between `repeat` and `until` are a gap. -/
theorem gapLength_of_until {cs : List Char} {gap : Nat}
    (hgap : gap = (cs.takeWhile fun c => c = ' ' || c = '\t').length)
    (huntil : startsWithWord (cs.drop gap) "until".toList) : gapLength cs = gap := by
  have hunit : startsUnit (cs.drop gap) :=
    startsUnit_of_startsWithWord (w := 'u') (by decide) huntil
  have hblank : ∀ c ∈ (cs.drop gap).head?, isBlank c = false := by
    intro c hc
    obtain ⟨rest, hrest⟩ := List.head?_eq_some_iff.1 hc
    have := gapLength_of_startsUnit hunit
    rw [hrest, gapLength_cons] at this
    by_contra hnot
    simp [hnot] at this
  have htake : ∀ c ∈ cs.take gap, isBlank c := by
    intro c hc
    have := of_mem_take hgap.le hc
    simp_all [isBlank]
  have hle : gap ≤ cs.length := hgap ▸ (List.takeWhile_prefix _).length_le
  rw [← List.take_append_drop gap cs, gapLength_append hblank, gapLength,
    List.takeWhile_eq_self_iff.2 htake, List.length_take, Nat.min_eq_left hle]

/-- A label that begins with a keyword takes up the label text right behind it too. -/
theorem keyword_add_word_le {operators : Bool} {cs : List Char} {k : Kind} {m l : Nat}
    (hk : keywordAt cs = some (k, m)) (hl : labelLength operators cs = some l) :
    m + wordLength (cs.drop m) ≤ l := by
  have hlower : ∀ word ∈ "until".toList :: keywordWords, word.all Char.isLower := by decide
  unfold labelLength at hl
  split at hl
  swap
  · cases hl
  cases hl
  rcases keywordAt_spells hk with ⟨word, hmem, -, hstarts, rfl⟩ | ⟨-, hn⟩
  · rw [wordLength_of_startsWithWord (hlower word (.tail _ hmem)) hstarts]
    omega
  · obtain ⟨gap, hgap, hne, hrepeat, huntil, rfl⟩ := repeatUntilLength_cases hn
    have hgaps := gapLength_of_until hgap huntil
    have hnext : afterGap (cs.drop 6) = (cs.drop 6).drop gap := by rw [afterGap_eq_drop, hgaps]
    have hword : wordLength cs = 6 := by
      rw [wordLength_of_startsWithWord (hlower _ (by decide)) hrepeat]
      change 6 + wordLength (cs.drop 6) = 6
      rw [wordLength_eq_zero_iff.2 (not_startsUnit_of_gap (hgaps ▸ hne))]
    have hahead : WordAhead (cs.drop 6) := by
      refine ⟨hgaps ▸ hne, ?_, ?_⟩ <;> rw [hnext]
      · exact startsUnit_of_startsWithWord (w := 'u') (by decide) huntil
      · obtain ⟨c, rest, hrest, hc, -⟩ := startsWithWord_cons (w := 'u') huntil
        simp [closesClause, hrest, startsWithWord, hc]
    have hfive : wordLength ((cs.drop 6).drop gap) = 5 + wordLength (cs.drop (6 + gap + 5)) := by
      rw [wordLength_of_startsWithWord (hlower _ (by decide)) huntil, List.drop_drop,
        List.drop_drop]
      rfl
    rw [hword, labelTail_of_wordAhead operators hahead, hgaps, hnext, hfive]
    omega

section Stop

variable {x r r' : List Char} (hr : ¬startsUnit r) (hr' : ¬startsUnit r')

include hr hr'

theorem startsWithWord_replace {word : List Char} (hmem : word ∈ keywordWords) :
    startsWithWord (x ++ r) word = startsWithWord (x ++ r') word := by
  have hlower : ∀ word ∈ keywordWords, word.all Char.isLower := by decide
  rw [startsWithWord_append hr x (hlower word hmem), startsWithWord_append hr' x (hlower word hmem)]

theorem keywordAt_replace_none (h : keywordAt (x ++ r) = none) : keywordAt (x ++ r') = none := by
  rw [keywordAt_eq_none_iff] at h ⊢
  intro word hmem
  rw [← startsWithWord_replace hr hr' hmem]
  exact h word hmem

theorem keywordAt_replace {k : Kind} {n : Nat} (h : keywordAt (x ++ r) = some (k, n))
    (hn : n ≤ x.length)
    (huntil : untilAhead ((x ++ r').drop n) → untilAhead ((x ++ r).drop n)) :
    keywordAt (x ++ r') = some (k, n) := by
  refine (keywordAt_congr (fun word => startsWithWord_replace hr hr') ?_).symm.trans h
  by_cases hrepeat : startsWithWord (x ++ r) "repeat".toList
  · have hrepeat' := hrepeat
    rw [startsWithWord_replace hr hr' (by decide)] at hrepeat'
    rw [keywordAt_of_repeat hrepeat] at h
    rcases hlength : repeatUntilLength (x ++ r) with _ | m <;> rw [hlength] at h <;> cases h
    · have hnone : ¬(repeatUntilLength (x ++ r)).isSome := by simp [hlength]
      rw [eq_comm, ← Option.not_isSome_iff_eq_none, repeatUntilLength_isSome]
      rw [repeatUntilLength_isSome] at hnone
      exact fun hboth => hnone ⟨hrepeat, huntil hboth.2⟩
    · exact (repeatUntilLength_replace r' hlength hn).symm
  · have hrepeat' := hrepeat
    rw [startsWithWord_replace hr hr' (by decide)] at hrepeat'
    rw [repeatUntilLength, if_neg hrepeat, repeatUntilLength, if_neg hrepeat']

end Stop

/-! ## Tokens -/

section Token

variable {operators : Bool} {x r r' : List Char} {k : Kind} (h : Replaces operators r r')

include h

theorem Replaces.not_startsUnit (hr : ¬startsUnit r) : ¬startsUnit r' := fun hs => hr (h.unit hs)

/-- The label text that is left of a label begins in front of `r'` too. -/
theorem startsUnit_replace {y : List Char} (hr : ¬startsUnit r)
    (hle : wordLength (y ++ r) ≤ y.length) (hstart : startsUnit (y ++ r)) :
    startsUnit (y ++ r') := by
  rcases y with _ | ⟨c, y⟩
  · exact absurd hstart hr
  · by_cases hc : c = '\\'
    · subst hc
      rcases y with _ | ⟨d, y⟩
      · rcases r with _ | ⟨d, r⟩
        · cases hstart
        · simp [wordLength] at hle
      · simp [startsUnit_cons]
    · exact h.joint_append y hc hstart

theorem keywordLexeme_replace
    (hx : keywordLexeme operators (x ++ r) = some (k, x.length)) :
    keywordLexeme operators (x ++ r') = some (k, x.length) := by
  unfold keywordLexeme at hx ⊢
  split at hx
  · cases hx
  next k' m hk =>
  split at hx
  · next hstart =>
    obtain ⟨l, hl, hx⟩ := Option.map_eq_some_iff.1 hx
    cases hx
    have hr : ¬startsUnit r := by simpa using not_startsUnit_drop_labelLength hl
    have hle := keyword_add_word_le hk hl
    rw [List.drop_append_of_le_length (by omega)] at hstart hle
    have hstart' : startsUnit (x.drop m ++ r') :=
      startsUnit_replace h hr (by rw [List.length_drop]; omega) hstart
    have hk' : keywordAt (x ++ r') = some (k', m) := by
      refine keywordAt_replace hr (h.not_startsUnit hr) hk (by omega) fun huntil => ?_
      rw [List.drop_append_of_le_length (by omega)] at huntil
      exact absurd huntil (not_untilAhead_of_startsUnit hstart')
    rw [hk']
    simp only
    rw [List.drop_append_of_le_length (by omega), if_pos hstart', labelLength_replace h hl]
    rfl
  · next hstop =>
    cases hx
    rw [List.drop_left] at hstop
    have hk' : keywordAt (x ++ r') = some (k, x.length) := by
      refine keywordAt_replace hstop (h.not_startsUnit hstop) hk le_rfl fun huntil => ?_
      rw [List.drop_left] at huntil ⊢
      exact h.repeats huntil
    rw [hk']
    simp only
    rw [List.drop_left, if_neg (h.not_startsUnit hstop)]

theorem numberLexeme_replace (hne : x ≠ []) (hr : ¬startsUnit r)
    (hx : numberLexeme operators (x ++ r) = some (k, x.length)) :
    numberLexeme operators (x ++ r') = some (k, x.length) := by
  unfold numberLexeme at hx ⊢
  obtain ⟨m, hm, hx⟩ := Option.map_eq_some_iff.1 hx
  obtain ⟨l, hl, hml⟩ := le_labelLength operators hm
  have hlen : l = x.length := by grind
  subst hlen
  rw [hl] at hx
  rw [numberLength_append hr hne] at hm
  rw [numberLength_append (h.not_startsUnit hr) hne, hm, labelLength_replace h hl]
  exact congrArg some hx

omit h in
/-- No label text begins where a word ends. -/
theorem not_startsUnit_drop_wordLexeme {cs : List Char} {n : Nat}
    (hn : wordLexeme operators cs = some (k, n)) : ¬startsUnit (cs.drop n) := by
  rcases wordLexeme_cases hn with hl | ⟨-, hstop⟩
  · exact not_startsUnit_drop_labelLength hl
  · exact hstop

theorem wordLexeme_replace (hne : x ≠ [])
    (hx : wordLexeme operators (x ++ r) = some (k, x.length)) :
    wordLexeme operators (x ++ r') = some (k, x.length) := by
  have hr : ¬startsUnit r := by simpa using not_startsUnit_drop_wordLexeme hx
  have hr' := h.not_startsUnit hr
  simp only [wordLexeme, Option.orElse_eq_orElse, Option.orElse_eq_or, Option.or_eq_some_iff]
    at hx ⊢
  rcases hx with hx | ⟨hnumber, hx⟩
  · exact .inl (numberLexeme_replace h hne hr hx)
  · refine .inr ⟨?_, ?_⟩
    · rw [numberLexeme, Option.map_eq_none_iff] at hnumber ⊢
      rwa [numberLength_append hr' hne, ← numberLength_append hr hne]
    rcases hx with hx | ⟨hkeyword, hx⟩
    · exact .inl (keywordLexeme_replace h hx)
    · obtain ⟨l, hl, hx⟩ := Option.map_eq_some_iff.1 hx
      cases hx
      refine .inr ⟨?_, by rw [labelLength_replace h hl]; rfl⟩
      rw [keywordLexeme, keywordAt_replace_none hr hr' (keywordAt_eq_none hkeyword hl)]

omit h in
theorem closedLength_append_of_eq {close : Char} {x : List Char} {n : Nat} (r : List Char)
    (hx : closedLength close x = some n) : closedLength close (x ++ r) = some n := by
  fun_induction closedLength close x generalizing n with
  | case1 => cases hx
  | case2 rest => rwa [List.cons_append, closedLength_here]
  | case3 => cases hx
  | case4 => cases hx
  | case5 d rest hd hclose ih =>
    obtain ⟨m, hm, rfl⟩ := Option.map_eq_some_iff.1 hx
    rw [List.cons_append, List.cons_append, closedLength_escaped (Ne.symm hclose) hd, ih hm]
    rfl
  | case6 d rest hd hb ih =>
    obtain ⟨m, hm, rfl⟩ := Option.map_eq_some_iff.1 hx
    rw [List.cons_append, closedLength_plain hd hb, ih hm]
    rfl

omit h in
theorem closedLength_replace {close : Char} {n : Nat} {s : List Char}
    (hx : closedLength close (x ++ r) = some n) (hn : n ≤ x.length) :
    closedLength close (x ++ s) = some n :=
  closedLength_append_of_eq s (closedLength_append hx hn)

omit h in
theorem length_takeWhile_append {p : Char → Bool} {y : List Char}
    (hy : y.length ≤ ((y ++ r).takeWhile p).length) (s : List Char) :
    ((y ++ s).takeWhile p).length = y.length + (s.takeWhile p).length := by
  have hall : ∀ d ∈ y, p d := by
    intro d hd
    have hmem : d ∈ (y ++ r).take y.length := by rwa [List.take_left]
    exact of_mem_take hy hmem
  rw [List.takeWhile_append_of_pos hall, List.length_append]

theorem colorLength_replace {y : List Char}
    (hy : colorLength ('#' :: (y ++ r)) = some (y.length + 1)) :
    colorLength ('#' :: (y ++ r')) = some (y.length + 1) := by
  have hcolor := h.color
  have hle : y.length ≤ ((y ++ r).takeWhile isHexDigit).length := by
    unfold colorLength at hy
    grind
  have hdigits := length_takeWhile_append hle
  simp only [colorLength, hdigits] at hy ⊢
  split at hy
  · rw [if_pos (by simp at hy; omega)]
    exact hy
  · rw [if_neg (by omega)]
    split at hy
    · rw [if_pos (by simp at hy; omega)]
      exact hy
    · cases hy

theorem identifierLength_replace {y : List Char}
    (hy : identifierLength ('@' :: (y ++ r)) = some (y.length + 1)) :
    identifierLength ('@' :: (y ++ r')) = some (y.length + 1) := by
  have hname := h.name
  have hle : y.length ≤ ((y ++ r).takeWhile fun c => c.isAlphanum || c = '_').length := by
    unfold identifierLength at hy
    grind
  have hrun := length_takeWhile_append hle
  simp only [identifierLength, hrun] at hy ⊢
  split at hy
  · cases hy
  · simp only [Option.some.injEq] at hy
    rw [if_neg (by omega)]
    simp only [Option.some.injEq]
    omega

omit h in
theorem delimiterLength_replace {y : List Char}
    (hsemicolon : y = [] → (afterGap r').head? ≠ some '\n')
    (hy : delimiterLength (';' :: (y ++ r)) = some (y.length + 1)) :
    delimiterLength (';' :: (y ++ r')) = some (y.length + 1) := by
  simp only [delimiterLength, Option.some.injEq] at hy ⊢
  split at hy
  · next hhead =>
    obtain ⟨z, hz, -, hall⟩ := afterGap_replace (x := y) (r := r) (by omega)
    obtain ⟨d, z, rfl⟩ := List.exists_cons_of_ne_nil hz
    rw [(hall r).2] at hhead
    rw [(hall r').2, (hall r').1, if_pos (by simpa using hhead), hy]
  · obtain rfl : y = [] := List.eq_nil_of_length_eq_zero (by omega)
    rw [List.nil_append, if_neg (hsemicolon rfl), List.length_nil]

/-- A mark in front of `r` is the same in front of `r'`, except that a semicolon may take up a line
feed. -/
theorem markLexeme_replace (hsemicolon : x = [';'] → (afterGap r').head? ≠ some '\n')
    (hx : markLexeme (x ++ r) = some (k, x.length)) (hne : x ≠ []) :
    markLexeme (x ++ r') = some (k, x.length) := by
  rcases x with _ | ⟨c, y⟩
  · exact absurd rfl hne
  rw [List.cons_append] at hx
  unfold markLexeme at hx
  split at hx
  case h_1 heq | h_2 heq | h_3 heq =>
    cases heq
    obtain ⟨m, hm, hx⟩ := Option.map_eq_some_iff.1 hx
    simp only [Prod.mk.injEq, List.length_cons, Nat.add_right_cancel_iff] at hx
    obtain ⟨rfl, rfl⟩ := hx
    simp [markLexeme, closedLength_replace (s := r') hm le_rfl]
  case h_4 heq =>
    cases heq
    obtain ⟨m, hm, hx⟩ := Option.map_eq_some_iff.1 hx
    cases hx
    simp [markLexeme, colorLength_replace h hm]
  case h_5 heq =>
    cases heq
    obtain ⟨m, hm, hx⟩ := Option.map_eq_some_iff.1 hx
    cases hx
    simp [markLexeme, identifierLength_replace h hm]
  case h_6 heq =>
    cases heq
    obtain ⟨m, hm, hx⟩ := Option.map_eq_some_iff.1 hx
    obtain ⟨rfl, hlen⟩ := Prod.mk.inj hx
    simp [markLexeme, delimiterLength_replace (by simpa using hsemicolon) (hlen ▸ hm)]
  case h_7 heq =>
    cases heq
    exact hx
  case h_8 tail heq =>
    injection heq with hc heq
    rcases y with _ | ⟨d, y⟩
    · cases hx
    · injection heq with hd heq
      rw [hc, hd]
      exact hx
  case h_9 =>
    obtain ⟨d, rest, heq, hd, hlen⟩ := bracketLexeme_head hx
    injection heq with hc heq
    rw [← hc] at hd
    simp only [List.mem_cons, List.not_mem_nil, or_false] at hd
    rcases hd with rfl | rfl | rfl | rfl | rfl | rfl <;> exact hx

omit h in
theorem startsUnit_of_wordLexeme {cs : List Char} {n : Nat}
    (hn : wordLexeme operators cs = some (k, n)) : startsUnit cs := by
  rcases wordLexeme_cases hn with hl | ⟨hk, -⟩
  · unfold labelLength at hl
    split at hl
    · assumption
    · cases hl
  · exact startsUnit_of_keywordAt (by simp [hk])

omit h in
theorem not_startsUnit_of_markLexeme {cs : List Char} {n : Nat}
    (hn : markLexeme cs = some (k, n)) : ¬startsUnit cs := by
  unfold markLexeme at hn
  split at hn
  case h_9 =>
    obtain ⟨c, rest, rfl, hc, -⟩ := bracketLexeme_head hn
    simp only [List.mem_cons, List.not_mem_nil, or_false] at hc
    rcases hc with rfl | rfl | rfl | rfl | rfl | rfl <;>
      simp [startsUnit_cons, isBlank, isStructural]
  all_goals simp [startsUnit_cons, isBlank, isStructural]

/-- A token in front of `r` is the same in front of `r'`, except that a semicolon may take up a line
feed. -/
theorem lexeme_replace (hsemicolon : x = [';'] → (afterGap r').head? ≠ some '\n')
    (hx : lexeme operators (x ++ r) = some (k, x.length)) :
    lexeme operators (x ++ r') = some (k, x.length) := by
  have hne : x ≠ [] := List.length_pos_iff.1 (lexeme_pos hx)
  by_cases hstart : startsUnit (x ++ r)
  · rw [lexeme_of_startsUnit hstart] at hx
    have hword := wordLexeme_replace h hne hx
    rwa [lexeme_of_startsUnit (startsUnit_of_wordLexeme hword)]
  · rw [lexeme_of_not_startsUnit hstart] at hx
    have hmark := markLexeme_replace h hsemicolon hx hne
    rwa [lexeme_of_not_startsUnit (not_startsUnit_of_markLexeme hmark)]

end Token

theorem triviaLength_of_lexeme {operators : Bool} {cs : List Char} {k : Kind} {n : Nat}
    (h : lexeme operators cs = some (k, n)) : triviaLength cs = none := by
  by_cases hstart : startsUnit cs
  · rcases cs with _ | ⟨c, rest⟩
    · cases hstart
    · have hcomment : c = '/' → opensComment (c :: rest) = false := by
        rintro rfl
        simpa [startsUnit_cons, isBlank, isStructural] using hstart
      unfold triviaLength
      rw [if_neg (not_not.2 (gapLength_of_startsUnit hstart))]
      split <;> simp_all [opensComment]
  · rw [lexeme_of_not_startsUnit hstart] at h
    unfold markLexeme at h
    split at h
    case h_9 =>
      obtain ⟨c, rest, rfl, hc, -⟩ := bracketLexeme_head h
      simp only [List.mem_cons, List.not_mem_nil, or_false] at hc
      rcases hc with rfl | rfl | rfl | rfl | rfl | rfl <;>
        simp [triviaLength, gapLength_cons, isBlank]
    all_goals simp [triviaLength, gapLength_cons, isBlank]

theorem tokensFrom_nil (depth : Nat) (place : Place) : tokensFrom depth place [] = .ok [] := by
  simp [tokensFrom]

/-- Reading takes a token and goes on behind it. -/
theorem tokensFrom_append {depth : Nat} {place : Place} {x r : List Char} {k : Kind}
    (h : lexeme (depth ≠ 0) (x ++ r) = some (k, x.length)) : tokensFrom depth place (x ++ r) =
      (tokensFrom (angleDepth depth k) (place.after x) r).map (Token.ofText k place x :: ·) := by
  rw [tokensFrom_of_lexeme (triviaLength_of_lexeme h) h, List.take_left, List.drop_left]

/-- Reading skips trivia and goes on behind it. -/
theorem tokensFrom_append_trivia {depth : Nat} {place : Place} {x r : List Char}
    (h : triviaLength (x ++ r) = some x.length) :
    tokensFrom depth place (x ++ r) = tokensFrom depth (place.after x) r := by
  rw [tokensFrom_of_trivia h, List.take_left, List.drop_left]

theorem tokensFrom_of_blank {depth : Nat} {place : Place} {c : Char} (hc : isBlank c)
    (cs : List Char) :
    tokensFrom depth place (c :: cs) = tokensFrom depth (place.step c) cs := by
  have hgap : gapLength (c :: cs) = gapLength cs + 1 := by rw [gapLength_cons, if_pos hc]
  have htrivia : triviaLength (c :: cs) = some (gapLength cs + 1) := by simp [triviaLength, hgap]
  rw [tokensFrom_of_trivia htrivia, List.take_succ_cons, List.drop_succ_cons, Place.after_cons]
  by_cases hzero : gapLength cs = 0
  · rw [hzero, List.take_zero, List.drop_zero, Place.after_nil]
  · have htrivia' : triviaLength cs = some (gapLength cs) := by simp [triviaLength, hzero]
    rw [← tokensFrom_of_trivia htrivia']

theorem newline_not_startsUnit (b : List Char) : ¬startsUnit ('\n' :: b) := by
  simp [startsUnit_cons, isBlank]

theorem lexeme_lineFeed (operators : Bool) (b : List Char) :
    lexeme operators ('\n' :: b) = some (.delimiter, 1) := by
  rw [lexeme_of_not_startsUnit (newline_not_startsUnit b)]
  rfl

theorem tokensFrom_newline (depth : Nat) (place : Place) (b : List Char) :
    tokensFrom depth place ('\n' :: b) =
      (tokensFrom depth (place.step '\n') b).map (.ofText .delimiter place ['\n'] :: ·) :=
  tokensFrom_append (x := ['\n']) (lexeme_lineFeed _ b)

theorem lexeme_semicolon (operators : Bool) (r : List Char) : lexeme operators (';' :: r) =
    some (.delimiter, if (afterGap r).head? = some '\n' then gapLength r + 2 else 1) := by
  rw [lexeme_of_not_startsUnit (by simp [startsUnit_cons, isBlank, isStructural])]
  rfl

/-- A text is read to its end from some stand: trivia and tokens are split off until nothing is
left. -/
inductive Scans : Nat → Place → List Char → List Token → Prop where
  | done {depth : Nat} {place : Place} : Scans depth place [] []
  | skip {depth : Nat} {place : Place} {x r : List Char} {ts : List Token}
      (trivia : triviaLength (x ++ r) = some x.length)
      (later : Scans depth (place.after x) r ts) : Scans depth place (x ++ r) ts
  | take {depth : Nat} {place : Place} {x r : List Char} {k : Kind} {ts : List Token}
      (token : lexeme (depth ≠ 0) (x ++ r) = some (k, x.length))
      (later : Scans (angleDepth depth k) (place.after x) r ts) :
      Scans depth place (x ++ r) (Token.ofText k place x :: ts)

theorem tokensFrom_ok_iff {depth : Nat} {place : Place} {cs : List Char} {ts : List Token} :
    tokensFrom depth place cs = .ok ts ↔ Scans depth place cs ts := by
  constructor
  · intro h
    fun_induction tokensFrom depth place cs generalizing ts with
    | case1 =>
      cases h
      exact .done
    | case2 depth place cs hne n hn ih =>
      have hscans := ih h
      obtain ⟨x, r, rfl, rfl⟩ : ∃ x r, cs = x ++ r ∧ n = x.length :=
        ⟨_, _, (List.take_append_drop n cs).symm, by simp [triviaLength_le hn]⟩
      rw [List.take_left, List.drop_left] at hscans
      exact .skip hn hscans
    | case3 => cases h
    | case4 depth place cs hne hn k n hk ih =>
      obtain ⟨x, r, rfl, rfl⟩ : ∃ x r, cs = x ++ r ∧ n = x.length :=
        ⟨_, _, (List.take_append_drop n cs).symm, by simp [lexeme_le hk]⟩
      rw [List.take_left, List.drop_left] at h ih
      cases hrun : tokensFrom (angleDepth depth k) (place.after x) r with
      | error e => rw [hrun] at h; cases h
      | ok later =>
        rw [hrun] at h
        cases h
        exact .take hk (ih hrun)
  · intro h
    induction h with
    | done => exact tokensFrom_nil _ _
    | skip trivia _ ih => rw [tokensFrom_append_trivia trivia, ih]
    | take token _ ih =>
      rw [tokensFrom_append token, ih]
      rfl

/-! ## Breaks -/

/-- A text that ends every token in front of it: blank up to its end, a line feed, or something that
is neither label text nor an operator. -/
structure Breaks (r : List Char) : Prop where
  head : ∀ c ∈ r.head?, isBlank c ∨ c = '\n'
  next : ¬startsUnit (afterGap r)
  operator : ∀ c ∈ (afterGap r).head?, c ≠ '<' ∧ c ≠ '>'

namespace Breaks

theorem nil : Breaks [] where
  head := by simp
  next := by simp [afterGap, startsUnit, unitLength]
  operator := by simp [afterGap]

variable {r : List Char} (h : Breaks r)

include h

theorem head_eq_false {p : Char → Bool} (hp : [' ', '\t', '\r', '\n'].all fun c => !p c) :
    ∀ c ∈ r.head?, p c = false := by
  intro c hc
  have hblank := h.head c hc
  simp only [isBlank, Bool.or_eq_true, decide_eq_true_eq] at hblank
  rcases hblank with ((rfl | rfl) | rfl) | rfl <;> simp_all

theorem takeWhile_eq_nil {p : Char → Bool} (hp : [' ', '\t', '\r', '\n'].all fun c => !p c) :
    r.takeWhile p = [] := by
  simpa using takeWhile_append_of_head (h.head_eq_false hp) []

theorem not_startsUnit : ¬startsUnit r := by
  rcases r with _ | ⟨c, r⟩
  · simp [startsUnit, unitLength]
  · have hblank := h.head c rfl
    simp only [isBlank, Bool.or_eq_true, decide_eq_true_eq] at hblank
    rcases hblank with ((rfl | rfl) | rfl) | rfl <;> simp [startsUnit_cons, isBlank]

theorem labelTail_eq_zero (operators : Bool) : labelTail operators r = 0 := by
  rw [labelTail_eq_zero_iff]
  refine ⟨fun hword => h.next hword.2.1, ?_⟩
  rintro ⟨-, -, hop⟩
  rcases hnext : afterGap r with _ | ⟨c, rest⟩
  · rw [hnext] at hop
    cases hop
  · have hc := h.operator c (by simp [hnext])
    rw [hnext, startsOperator_cons] at hop
    simp_all

theorem not_untilAhead : ¬untilAhead r := by
  intro huntil
  simp only [untilAhead, Bool.and_eq_true] at huntil
  have hgap := gapLength_of_until rfl huntil.2
  refine h.next ?_
  rw [afterGap_eq_drop, hgap]
  exact startsUnit_of_startsWithWord (w := 'u') (by decide) huntil.2

/-- A break may stand for any text. -/
theorem replaces (operators : Bool) (s : List Char) : Replaces operators s r where
  unit := fun hs => absurd hs h.not_startsUnit
  joint := by
    intro c hc hstart
    have hcolon : r.head? ≠ some ':' := fun hr => by
      simpa using h.head_eq_false (p := fun c => c = ':') (by decide) _ hr
    have hslash : r.head? ≠ some '/' := fun hr => by
      simpa using h.head_eq_false (p := fun c => c = '/') (by decide) _ hr
    have hstar : r.head? ≠ some '*' := fun hr => by
      simpa using h.head_eq_false (p := fun c => c = '*') (by decide) _ hr
    rw [startsUnit_cons, opensComment_cons] at hstart ⊢
    by_cases hcolon' : c = ':' <;> simp_all
  tail := fun _ => h.labelTail_eq_zero operators
  repeats := fun huntil => absurd huntil h.not_untilAhead
  color := by simp [h.takeWhile_eq_nil (p := isHexDigit) (by decide)]
  name := by simp [h.takeWhile_eq_nil (p := fun c => c.isAlphanum || c = '_') (by decide)]

end Breaks

end BlockNotation
