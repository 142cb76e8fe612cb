import BlockNotation.Proofs.Token.Settled

/-!
# Cutting a text where its reading stands

Tokens look beyond their own end: a label asks whether a clause closes behind the next gap, a
keyword whether label text follows. When reading comes to stand at a text that no label can take
up, the part before it still reads the same on its own (`Stand.Reaches.cut`). Hence what precedes
a lexical error is free of errors (`tokenize_fails_exactly`).
-/

namespace BlockNotation

section Word

variable {rem : List Char}

theorem not_startsUnit_drop_wordLength (cs : List Char) :
    ¬startsUnit (cs.drop (wordLength cs)) := by
  fun_induction wordLength cs with
  | case1 => simp [startsUnit, unitLength]
  | case2 => simp [startsUnit, unitLength]
  | case3 d rest ih => simpa using ih
  | case4 c rest _ _ _ ih => simpa using ih
  | case5 c rest _ _ h => simpa using h

theorem startsUnit_of_append {c : Char} {y : List Char} (hc : c ≠ '\\')
    (h : startsUnit (c :: (y ++ rem))) : startsUnit (c :: y) := by
  rw [startsUnit_cons, opensComment_cons] at h ⊢
  rcases y with _ | ⟨d, y⟩
  · by_cases hcolon : c = ':' <;> simp_all
  · simpa using h

theorem wordLength_append_cons {c : Char} {y : List Char} (hc : c ≠ '\\')
    (hle : wordLength (c :: y ++ rem) ≤ (c :: y).length)
    (hnot : ¬startsUnit ((c :: y).drop (wordLength (c :: y ++ rem))))
    (ih : wordLength (y ++ rem) ≤ y.length → ¬startsUnit (y.drop (wordLength (y ++ rem))) →
      wordLength y = wordLength (y ++ rem)) :
    wordLength (c :: y) = wordLength (c :: y ++ rem) := by
  rw [List.cons_append, wordLength_cons hc] at hle hnot ⊢
  rw [wordLength_cons hc]
  by_cases hstart : startsUnit (c :: (y ++ rem))
  · rw [if_pos hstart] at hle hnot ⊢
    rw [if_pos (startsUnit_of_append hc hstart), ih (by simpa using hle) (by simpa using hnot)]
  · rw [if_neg hstart] at hnot ⊢
    rw [if_neg (by simpa using hnot)]

/-- A word that ends before `rem` is the same without it, if it does not go on there. -/
theorem wordLength_append : ∀ y, wordLength (y ++ rem) ≤ y.length →
    ¬startsUnit (y.drop (wordLength (y ++ rem))) → wordLength y = wordLength (y ++ rem)
  | [], hle, _ => by
    simp at hle
    simp [wordLength, hle]
  | [c], hle, hnot => by
    by_cases hc : c = '\\'
    · subst hc
      rcases rem with _ | ⟨d, rest⟩
      · rfl
      · simp [wordLength] at hle
    · exact wordLength_append_cons hc hle hnot (wordLength_append [])
  | c :: d :: y, hle, hnot => by
    by_cases hc : c = '\\'
    · subst hc
      simp only [List.cons_append, wordLength, List.length_cons] at hle hnot ⊢
      rw [wordLength_append y (by omega) (by simpa using hnot)]
    · exact wordLength_append_cons hc hle hnot (wordLength_append (d :: y))

end Word

section Label

variable {rem : List Char} (hrem : Stops rem)

include hrem

/-- Length by length: when a word and what a label adds to it end before `rem`, both are the same
without it. -/
theorem word_add_tail_append {operators : Bool} {y : List Char} {w t : Nat}
    (hw : wordLength (y ++ rem) = w) (ht : labelTail operators ((y ++ rem).drop w) = t)
    (hle : w + t ≤ y.length) (h : Settled rem y) (hend : Settled rem (y.drop (w + t)))
    (htail : Settled rem (y.drop w) → labelTail operators (y.drop w ++ rem) ≤ (y.drop w).length →
      Settled rem ((y.drop w).drop (labelTail operators (y.drop w ++ rem))) →
      labelTail operators (y.drop w) = labelTail operators (y.drop w ++ rem)) :
    wordLength y = w ∧ labelTail operators (y.drop w) = t := by
  have hdrop : (y ++ rem).drop w = y.drop w ++ rem := List.drop_append_of_le_length (by omega)
  rw [hdrop] at ht
  have hset : Settled rem (y.drop w) := by
    by_cases hzero : t = 0
    · simpa [hzero] using hend
    · refine Settled.drop_of_gap hrem h fun hgap => hzero ?_
      rw [← ht, labelTail]
      simp [gapLength_append hrem.not_blank, hgap]
  have hstop : ¬startsUnit (y.drop w) := by
    rw [← hset.startsUnit_append hrem, ← hdrop, ← hw]
    exact not_startsUnit_drop_wordLength _
  subst hw
  refine ⟨wordLength_append y (by omega) hstop, ?_⟩
  rw [htail hset (by rw [List.length_drop]; omega) (by rw [ht, List.drop_drop]; exact hend), ht]

omit hrem in
theorem startsOperator_gap {cs : List Char} (h : startsOperator cs) :
    1 ≤ cs.length ∧ gapLength (cs.drop 1) ≠ 0 := by
  rcases cs with _ | ⟨c, rest⟩
  · cases h
  · simp_all [startsOperator]

/-- What a label adds to a word before `rem`, it adds without it. -/
theorem labelTail_append (operators : Bool) (y : List Char) (h : Settled rem y)
    (hle : labelTail operators (y ++ rem) ≤ y.length)
    (hend : Settled rem (y.drop (labelTail operators (y ++ rem)))) :
    labelTail operators y = labelTail operators (y ++ rem) := by
  have hgap := gapLength_add_length_afterGap y
  have hnext := h.behind_gap
  have hdrop : ∀ m, (afterGap y).drop m = y.drop (gapLength y + m) := by
    intro m
    rw [afterGap_eq_drop, List.drop_drop]
  rw [labelTail] at hle hend
  rw [labelTail, labelTail.eq_def operators (y ++ rem)]
  simp only [gapLength_append hrem.not_blank, afterGap_append hrem.not_blank,
    hnext.closesClause_append hrem, hnext.startsUnit_append hrem,
    hnext.startsOperator_append hrem] at hle hend ⊢
  split
  · rfl
  next hne =>
  rw [if_neg hne] at hle hend
  split
  · rfl
  next hcloses =>
  rw [if_neg hcloses] at hle hend
  split
  · next hstart =>
    rw [if_pos hstart] at hle hend
    obtain ⟨hword, htail⟩ := word_add_tail_append hrem (y := afterGap y) rfl rfl (by omega) hnext
      (by rw [hdrop, ← Nat.add_assoc]; exact hend) (labelTail_append operators _)
    rw [hword, htail]
  next hstart =>
  rw [if_neg hstart] at hle hend
  split
  · next hop =>
    obtain ⟨hlen, hspaced⟩ := startsOperator_gap (Bool.and_eq_true_iff.1 hop).2
    rw [if_pos hop, List.drop_append_of_le_length hlen] at hle hend
    rw [List.drop_append_of_le_length hlen,
      labelTail_append operators ((afterGap y).drop 1) (Settled.drop_of_gap hrem hnext hspaced)
        (by rw [List.length_drop]; omega)
        (by rw [List.drop_drop, hdrop, ← Nat.add_assoc]; exact hend)]
  · rfl
termination_by y.length
decreasing_by
  all_goals
    rw [List.length_drop]
    omega

theorem labelLength_append {operators : Bool} {x : List Char} {n : Nat} (h : Settled rem x)
    (hlabel : labelLength operators (x ++ rem) = some n) (hle : n ≤ x.length)
    (hend : Settled rem (x.drop n)) : labelLength operators x = some n := by
  unfold labelLength at hlabel ⊢
  rw [h.startsUnit_append hrem] at hlabel
  split at hlabel
  · next hstart =>
    simp only [Option.some.injEq] at hlabel
    obtain ⟨hword, htail⟩ := word_add_tail_append hrem rfl rfl (hlabel ▸ hle) h (hlabel ▸ hend)
      (labelTail_append hrem operators _)
    rw [if_pos hstart, hword]
    simp only [htail, hlabel]
  · cases hlabel

theorem repeatUntilLength_append (x : List Char) :
    repeatUntilLength (x ++ rem) = repeatUntilLength x := by
  unfold repeatUntilLength
  rw [startsWithWord_append hrem.unit x (by decide)]
  split
  · next hword =>
    have hlen : 6 ≤ x.length := (startsWithWord_chars hword).1
    have hspace := takeWhile_append_of_head
      (hrem.head_eq_false (p := fun c => c = ' ' || c = '\t') (by decide)) (x.drop 6)
    have hgap := (List.takeWhile_prefix (l := x.drop 6) fun c => c = ' ' || c = '\t').length_le
    simp only [List.drop_append_of_le_length hlen, hspace, List.drop_append_of_le_length hgap,
      startsWithWord_append hrem.unit _ (show "until".toList.all Char.isLower by decide)]
  · rfl

theorem keywordAt_append (x : List Char) : keywordAt (x ++ rem) = keywordAt x := by
  have hword : ∀ word ∈ ["forever", "end", "repeat", "if", "else", "then"],
      spellingLength word (x ++ rem) = spellingLength word x := by
    intro word hmem
    refine spellingLength_append hrem.unit ?_ x
    revert word
    decide
  simp only [keywordAt, keywordSpellings, List.findSome?_cons, List.findSome?_nil,
    hword "forever" (by decide), hword "end" (by decide), hword "repeat" (by decide),
    hword "if" (by decide), hword "else" (by decide), hword "then" (by decide),
    repeatUntilLength_append hrem]

theorem keywordLexeme_append {operators : Bool} {x : List Char} {k : Kind} {n : Nat}
    (h : Settled rem x) (hk : keywordLexeme operators (x ++ rem) = some (k, n))
    (hle : n ≤ x.length) (hend : Settled rem (x.drop n)) :
    keywordLexeme operators x = some (k, n) := by
  unfold keywordLexeme at hk ⊢
  rw [keywordAt_append hrem] at hk
  split at hk
  · cases hk
  · next k' m hm =>
    obtain ⟨hlen, hchars⟩ := keywordAt_chars hm
    have hset : Settled rem (x.drop m) := by
      refine h.drop fun d hd => ?_
      have := hchars d hd
      simp_all
    rw [List.drop_append_of_le_length hlen, hset.startsUnit_append hrem] at hk
    split at hk
    · next hstart =>
      obtain ⟨l, hl, hk⟩ := Option.map_eq_some_iff.1 hk
      cases hk
      simp [hstart, labelLength_append hrem h hl hle hend]
    · next hstart =>
      rwa [if_neg hstart]

theorem numberLexeme_append {operators : Bool} {x : List Char} {k : Kind} {n : Nat} (hx : x ≠ [])
    (h : Settled rem x) (hk : numberLexeme operators (x ++ rem) = some (k, n))
    (hle : n ≤ x.length) (hend : Settled rem (x.drop n)) :
    numberLexeme operators x = some (k, n) := by
  unfold numberLexeme at hk ⊢
  obtain ⟨m, hm, hk⟩ := Option.map_eq_some_iff.1 hk
  obtain ⟨l, hl, hml⟩ := le_labelLength operators hm
  have hn : l = n := by grind
  subst hn
  rw [hl] at hk
  rw [numberLength_append hrem.unit hx] at hm
  rw [hm, labelLength_append hrem h hl hle hend]
  exact congrArg some hk

omit hrem in
theorem keywordAt_eq_none {operators : Bool} {cs : List Char} {l : Nat}
    (h : keywordLexeme operators cs = none) (hl : labelLength operators cs = some l) :
    keywordAt cs = none := by
  unfold keywordLexeme at h
  split at h
  · assumption
  · split at h
    · simp [hl] at h
    · cases h

theorem wordLexeme_append {operators : Bool} {x : List Char} {k : Kind} {n : Nat} (hx : x ≠ [])
    (h : Settled rem x) (hk : wordLexeme operators (x ++ rem) = some (k, n))
    (hle : n ≤ x.length) (hend : Settled rem (x.drop n)) :
    wordLexeme operators x = some (k, n) := by
  simp only [wordLexeme, Option.orElse_eq_orElse, Option.orElse_eq_or, Option.or_eq_some_iff]
    at hk ⊢
  rcases hk with hk | ⟨hnumber, hk⟩
  · exact .inl (numberLexeme_append hrem hx h hk hle hend)
  · refine .inr ⟨?_, ?_⟩
    · rw [numberLexeme, Option.map_eq_none_iff] at hnumber ⊢
      rwa [← numberLength_append hrem.unit hx]
    rcases hk with hk | ⟨hkeyword, hk⟩
    · exact .inl (keywordLexeme_append hrem h hk hle hend)
    · obtain ⟨l, hl, hk⟩ := Option.map_eq_some_iff.1 hk
      cases hk
      refine .inr ⟨?_, by rw [labelLength_append hrem h hl hle hend]; rfl⟩
      have hnone := keywordAt_eq_none hkeyword hl
      rw [keywordAt_append hrem] at hnone
      rw [keywordLexeme, hnone]

end Label

section Mark

variable {rem : List Char} {n : Nat}

theorem closedLength_append {close : Char} {x : List Char}
    (h : closedLength close (x ++ rem) = some n) (hle : n ≤ x.length) :
    closedLength close x = some n := by
  fun_induction closedLength close x generalizing n with
  | case1 =>
    obtain ⟨body, hbody⟩ := closedLength_take h
    simp_all
  | case2 rest => rwa [List.cons_append, closedLength_here] at h
  | case3 hclose =>
    rw [List.singleton_append, closedLength.eq_def] at h
    rcases rem with _ | ⟨d, rest⟩
    · simp [hclose] at h
    · simp [hclose] at h
      obtain ⟨-, m, -, rfl⟩ := h
      simp at hle
  | case4 rest hclose =>
    rw [List.cons_append, List.cons_append, closedLength.eq_def] at h
    simp [hclose] at h
  | case5 d rest hd hclose ih =>
    rw [List.cons_append, List.cons_append, closedLength_escaped (Ne.symm hclose) hd] at h
    obtain ⟨m, hm, rfl⟩ := Option.map_eq_some_iff.1 h
    rw [ih hm (by simpa using hle)]
    rfl
  | case6 d rest hd hb ih =>
    rw [List.cons_append, closedLength_plain hd hb] at h
    obtain ⟨m, hm, rfl⟩ := Option.map_eq_some_iff.1 h
    rw [ih hm (by simpa using hle)]
    rfl

theorem commentLength_append {x : List Char} (h : commentLength (x ++ rem) = some n)
    (hle : n ≤ x.length) : commentLength x = some n := by
  fun_induction commentLength x generalizing n with
  | case1 =>
    obtain ⟨body, hbody, -⟩ := commentLength_take h
    simp_all
  | case2 rest => simpa [commentLength] using h
  | case3 c rest hnot ih =>
    rw [List.cons_append] at h
    unfold commentLength at h
    split at h
    · cases h
    · next heq =>
      -- The comment cannot close half before `rem` and half in it.
      exfalso
      injection heq with hc heq
      cases h
      rcases rest with _ | ⟨d, rest⟩
      · simp at hle
      · injection heq with hd heq
        exact hnot rest hc (by rw [hd])
    · next heq =>
      injection heq with hc heq
      obtain ⟨m, hm, rfl⟩ := Option.map_eq_some_iff.1 h
      rw [ih (heq ▸ hm) (by simpa using hle)]
      rfl

theorem commentLength_eq_none_of_append {x : List Char} (h : commentLength (x ++ rem) = none) :
    commentLength x = none := by
  rw [commentLength_eq_none_iff] at h ⊢
  exact fun hx => h (hx.trans (List.infix_append' [] x rem))

theorem exists_of_append_eq {x rest : List Char} {c d : Char} (h : x ++ rem = c :: d :: rest)
    (hlen : 2 ≤ x.length) : ∃ y, x = c :: d :: y ∧ rest = y ++ rem := by
  rcases x with _ | ⟨a, _ | ⟨b, y⟩⟩ <;> simp_all

variable (hrem : Stops rem)

include hrem

theorem colorLength_append (y : List Char) :
    colorLength ('#' :: (y ++ rem)) = colorLength ('#' :: y) := by
  rw [colorLength, takeWhile_append_of_head (hrem.head_eq_false (by decide)), colorLength]

theorem identifierLength_append (y : List Char) :
    identifierLength ('@' :: (y ++ rem)) = identifierLength ('@' :: y) := by
  rw [identifierLength, takeWhile_append_of_head (hrem.head_eq_false (by decide)),
    identifierLength]

theorem delimiterLength_append (y : List Char) :
    delimiterLength (';' :: (y ++ rem)) = delimiterLength (';' :: y) := by
  have hhead : (afterGap y ++ rem).head? = some '\n' ↔ (afterGap y).head? = some '\n' := by
    rcases afterGap y with _ | ⟨d, rest⟩
    · simpa using fun h => hrem.head _ h (by decide)
    · simp
  simp only [delimiterLength, gapLength_append hrem.not_blank, afterGap_append hrem.not_blank,
    hhead]

theorem markLexeme_append {x : List Char} {k : Kind} (hx : x ≠ [])
    (h : markLexeme (x ++ rem) = some (k, n)) (hle : n ≤ x.length) :
    markLexeme x = some (k, n) := by
  rcases x with _ | ⟨c, y⟩
  · exact absurd rfl hx
  rw [List.cons_append] at h
  unfold markLexeme at h
  split at h
  case h_1 heq | h_2 heq | h_3 heq =>
    obtain ⟨m, hm, h⟩ := Option.map_eq_some_iff.1 h
    cases h
    cases heq
    simp [markLexeme, closedLength_append hm (by simpa using hle)]
  case h_4 heq =>
    cases heq
    rwa [colorLength_append hrem] at h
  case h_5 heq =>
    cases heq
    rwa [identifierLength_append hrem] at h
  case h_6 heq =>
    cases heq
    rwa [delimiterLength_append hrem] at h
  case h_7 heq =>
    cases heq
    exact h
  case h_8 tail heq =>
    injection heq with hc heq
    rcases y with _ | ⟨d, y⟩
    · rw [List.nil_append] at heq
      exact absurd (by decide) (hrem.head ':' (by rw [heq]; rfl))
    · injection heq with hd heq
      rw [hc, hd]
      exact h
  case h_9 =>
    obtain ⟨d, rest, heq, hd, rfl⟩ := bracketLexeme_head h
    injection heq with hc heq
    rw [← hc] at hd
    simp only [List.mem_cons, List.not_mem_nil, or_false] at hd
    rcases hd with rfl | rfl | rfl | rfl | rfl | rfl <;> exact h

theorem triviaLength_append {x : List Char} (h : triviaLength (x ++ rem) = some n)
    (hle : n ≤ x.length) : triviaLength x = some n := by
  unfold triviaLength at h ⊢
  rw [gapLength_append hrem.not_blank] at h
  split at h
  · next hgap => rwa [if_pos hgap]
  next hgap =>
  rw [if_neg hgap]
  split at h
  · next rest heq =>
    cases h
    obtain ⟨y, rfl, rfl⟩ := exists_of_append_eq heq (by omega)
    rw [takeWhile_append_of_length_le (by simpa using hle)]
    rfl
  · next rest heq =>
    obtain ⟨m, hm, rfl⟩ := Option.map_eq_some_iff.1 h
    obtain ⟨y, rfl, rfl⟩ := exists_of_append_eq heq (by omega)
    simp [commentLength_append hm (by simpa using hle)]
  · cases h

theorem triviaLength_eq_none_of_append {x : List Char} (h : triviaLength (x ++ rem) = none) :
    triviaLength x = none := by
  unfold triviaLength at h ⊢
  rw [gapLength_append hrem.not_blank] at h
  split at h
  · cases h
  next hgap =>
  rw [if_neg hgap]
  split
  · cases h
  · next rest =>
    have hnone : commentLength (rest ++ rem) = none := Option.map_eq_none_iff.1 h
    rw [commentLength_eq_none_of_append hnone, Option.map_none]
  · rfl

theorem lexeme_append {operators : Bool} {x : List Char} {k : Kind} (hx : x ≠ [])
    (h : Settled rem x) (hk : lexeme operators (x ++ rem) = some (k, n))
    (hle : n ≤ x.length) (hend : Settled rem (x.drop n)) :
    lexeme operators x = some (k, n) := by
  have hunit := h.startsUnit_append hrem
  by_cases hstart : startsUnit x
  · rw [lexeme_of_startsUnit (hunit.trans hstart)] at hk
    rw [lexeme_of_startsUnit hstart]
    exact wordLexeme_append hrem hx h hk hle hend
  · rw [lexeme_of_not_startsUnit (hunit ▸ hstart)] at hk
    rw [lexeme_of_not_startsUnit hstart]
    exact markLexeme_append hrem hx hk hle

end Mark

/-! ## The cut -/

namespace Stand

/-- Rounds that come to stand at a text no label takes up are the same without that text. -/
theorem Reaches.cut {s s' : Stand} {ts : List Token} (h : s.Reaches ts s') (hrem : Stops s'.rest)
    (hne : s'.rest ≠ []) {x : List Char} (hx : s.rest = x ++ s'.rest) :
    tokensFrom s.depth s.place x = .ok ts := by
  have hset := h.settled hrem hx
  induction h generalizing x with
  | here =>
    have hnil : x = [] := by simpa using hx
    simp [hnil, tokensFrom]
  | @skip s s' n ts trivia later ih =>
    obtain ⟨hle, hdrop⟩ := later.within hne hx
    have hend := later.settled hrem hdrop
    rw [hx] at trivia
    rw [tokensFrom_of_trivia (triviaLength_append hrem trivia hle)]
    have hrun := ih hrem hne hdrop hend
    rwa [pass, hx, List.take_append_of_le_length hle] at hrun
  | @take s s' k n ts trivia token later ih =>
    obtain ⟨hle, hdrop⟩ := later.within hne hx
    have hend := later.settled hrem hdrop
    have hpos := lexeme_pos token
    have hrun := ih hrem hne hdrop hend
    rw [hx] at trivia token
    rw [tokensFrom_of_lexeme (triviaLength_eq_none_of_append hrem trivia)
      (lexeme_append hrem (by rintro rfl; simp at hle; omega) hset token hle hend)]
    rw [pass, hx, List.take_append_of_le_length hle] at hrun
    simp only [hrun, hx, List.take_append_of_le_length hle]
    rfl

end Stand

/-- Where a text is read in vain: what lies before the point of failure, and what from there on. -/
theorem tokenize_error {source : String} {e : LexicalError} (h : tokenize source = .error e) :
    ∃ before rem ts, source.toList = before ++ rem ∧ Unreadable rem ∧
      e = ⟨Place.origin.after before, String.ofList rem⟩ ∧ e.place.offset = byteSize before ∧
      ∃ depth, Stand.Reaches ⟨0, .origin, source.toList⟩ ts ⟨depth, e.place, rem⟩ := by
  obtain ⟨ts, s, hs, hbad, rfl⟩ := Stand.reaches_of_error h
  obtain ⟨before, hsource, hplace⟩ := hs.suffix
  refine ⟨before, s.rest, ts, hsource, hbad, by rw [hplace], ?_, s.depth, hs⟩
  rw [hplace, Place.offset_after]
  exact Nat.zero_add _

/-- When reading fails, the point of failure lies inside the source and parts no character, the
error holds the text from there on, that text is unreadable, and what precedes it reads on its own,
into the tokens taken before. And wherever reading comes to stand at an unreadable text, it fails
there. -/
theorem tokenize_fails_exactly (source : String) :
    (∀ e, tokenize source = .error e →
      e.place.offset < source.utf8ByteSize ∧
      (⟨e.place.offset⟩ : String.Pos.Raw).IsValid source ∧
      e.remainder = Span.textIn ⟨e.place.offset, source.utf8ByteSize⟩ source ∧
      (∃ ts s, Stand.Reaches ⟨0, .origin, source.toList⟩ ts s ∧ s.place = e.place ∧
        tokenize (Span.textIn ⟨0, e.place.offset⟩ source) = .ok ts) ∧
      Unreadable e.remainder.toList) ∧
    ∀ ts s, Stand.Reaches ⟨0, .origin, source.toList⟩ ts s → Unreadable s.rest →
      tokenize source = .error ⟨s.place, String.ofList s.rest⟩ := by
  constructor
  · intro e he
    obtain ⟨before, rem, ts, hsource, hbad, heq, hoffset, depth, hs⟩ := tokenize_error he
    have hrem : e.remainder = String.ofList rem := by rw [heq]
    have hne : rem ≠ [] := by rintro rfl; cases hbad
    have hsize : source.utf8ByteSize = byteSize before + byteSize rem := by
      rw [← byteSize_toList, hsource, byteSize_append]
    have hpos := byteSize_pos hne
    refine ⟨by omega, ?_, ?_, ⟨ts, _, hs, rfl, ?_⟩, by rwa [hrem, String.toList_ofList]⟩
    · rw [hoffset]
      exact Span.isValid_byteSize hsource
    · rw [hrem]
      exact (Tiles.last_span hsource hoffset).2.symm
    · have hbefore : source.toList = [] ++ before ++ rem := hsource
      rw [(Span.of_append hbefore rfl (hoffset.trans (Nat.zero_add _).symm)).2, tokenize,
        String.toList_ofList]
      exact hs.cut hbad.stops hne hsource
  · intro ts s hs hbad
    rw [tokenize, hs.tokensFrom_eq, tokensFrom_of_unreadable hbad]
    rfl

/-- A label of one character and two bytes, then a choice whose bracket is only closed by an
escaped one. -/
theorem tokenize_fails_exactly_choice : ∃ e, tokenize "é [a\\]" = .error e ∧
    e.place.offset = 3 ∧ e.remainder = Span.textIn ⟨3, 7⟩ "é [a\\]" ∧
    (∃ ts, tokenize (Span.textIn ⟨0, 3⟩ "é [a\\]") = .ok ts) ∧ Unreadable e.remainder.toList := by
  have h : (match tokenize "é [a\\]" with
      | .error e => e.place.offset = 3
      | .ok _ => false) = true := by decide +kernel
  cases he : tokenize "é [a\\]" with
  | ok ts => rw [he] at h; cases h
  | error e =>
    rw [he] at h
    have hoffset : e.place.offset = 3 := of_decide_eq_true h
    obtain ⟨-, -, hrest, ⟨ts, s, -, -, hts⟩, hbad⟩ := (tokenize_fails_exactly _).1 e he
    rw [hoffset] at hrest hts
    exact ⟨e, rfl, hoffset, hrest, ⟨ts, hts⟩, hbad⟩

end BlockNotation
