import BlockNotation.Proofs.Token.Positions

/-!
# Keywords are the words that stand alone

Keywords are looked for in four places: where a token begins, in front of a label that only begins
like one, where a number may go on as a label, and behind the gaps of a label. All four agree on
what a word is, the longest run of label text at a point. A keyword token is one of the spellings
with no label text behind it; a label does not begin with such a word, nor does it go on behind a
gap with one that closes a clause (`keywords_stand_alone`).
-/

namespace BlockNotation

/-- The word at the front of a text. -/
def firstWord (cs : List Char) : List Char := cs.take (wordLength cs)

/-- Is a text a word, given in lower case, in any case? -/
def SpelledAs (word cs : List Char) : Prop := cs.map Char.toLower = word

/-- A text begins with `repeat` and `until`, with spaces and tabs between them, and goes on with
`more`. -/
def SpellsRepeatUntil (cs more : List Char) : Prop :=
  ∃ first gap second, cs = first ++ gap ++ second ++ more ∧ SpelledAs "repeat".toList first ∧
    gap ≠ [] ∧ (∀ c ∈ gap, c = ' ' ∨ c = '\t') ∧ SpelledAs "until".toList second

/-- A text is the keyword of a kind. -/
def SpellsKeyword (k : Kind) (cs : List Char) : Prop :=
  (∃ word, wordOfKind k = some word ∧ SpelledAs word cs) ∨
    k = .repeatUntilWord ∧ SpellsRepeatUntil cs []

theorem startsWithWord_iff : ∀ {cs word : List Char},
    startsWithWord cs word ↔ SpelledAs word (cs.take word.length)
  | cs, [] => by simp [startsWithWord, SpelledAs]
  | [], w :: word => by simp [startsWithWord, SpelledAs]
  | c :: cs, w :: word => by
    rw [startsWithWord, Bool.and_eq_true, startsWithWord_iff, decide_eq_true_eq, SpelledAs,
      SpelledAs, List.length_cons, List.take_succ_cons, List.map_cons, List.cons.injEq]

/-- The word at the front of a text is this one. -/
theorem spelledAs_firstWord_iff {cs word : List Char} :
    SpelledAs word (firstWord cs) ↔ startsWithWord cs word ∧ wordLength cs = word.length := by
  rw [startsWithWord_iff, firstWord]
  constructor
  · intro h
    have hlength : wordLength cs = word.length := by
      rw [← h, List.length_map, List.length_take, Nat.min_eq_left (wordLength_le cs)]
    exact ⟨hlength ▸ h, hlength⟩
  · rintro ⟨h, hlength⟩
    rwa [hlength]

/-- No keyword begins with another one. -/
theorem eq_of_startsWithWord {cs word other : List Char} (hword : word ∈ keywordWords)
    (hother : other ∈ keywordWords) (h : startsWithWord cs word) (h' : startsWithWord cs other) :
    word = other := by
  have hapart : ∀ word ∈ keywordWords, ∀ other ∈ keywordWords,
      word.length ≤ other.length → word = other.take word.length → word = other := by decide
  have hinitial : ∀ {u v : List Char}, startsWithWord cs u → startsWithWord cs v →
      u.length ≤ v.length → u = v.take u.length := by
    intro u v hu hv hle
    rw [startsWithWord_iff, SpelledAs] at hu hv
    rw [← hv, ← List.map_take, List.take_take, Nat.min_eq_left hle, hu]
  rcases Nat.le_total word.length other.length with hle | hle
  · exact hapart _ hword _ hother hle (hinitial h h' hle)
  · exact (hapart _ hother _ hword hle (hinitial h' h hle)).symm

theorem spellsRepeatUntil_of_length {cs : List Char} {n : Nat}
    (h : repeatUntilLength cs = some n) : SpellsRepeatUntil cs (cs.drop n) := by
  obtain ⟨gap, hgap, hne, hrepeat, huntil, rfl⟩ := repeatUntilLength_cases h
  have hlong := (startsWithWord_chars huntil).1
  rw [startsWithWord_iff] at hrepeat huntil
  refine ⟨cs.take 6, (cs.drop 6).take gap, ((cs.drop 6).drop gap).take 5, ?_, hrepeat, ?_, ?_,
    huntil⟩
  · rw [List.append_assoc, List.append_assoc, ← List.drop_drop, ← List.drop_drop,
      List.take_append_drop, List.take_append_drop, List.take_append_drop]
  · intro hnil
    rw [List.take_eq_nil_iff] at hnil
    rcases hnil with hzero | hnil
    · exact hne hzero
    · rw [hnil] at hlong
      simp at hlong
  · rw [hgap, take_takeWhile_length]
    intro c hc
    simpa using List.all_eq_true.1 List.all_takeWhile c hc

/-! ## Keyword tokens -/

theorem wordLexeme_keyword {operators : Bool} {cs : List Char} {k : Kind} {n : Nat}
    (hk : k.belongsTo .keyword) (h : wordLexeme operators cs = some (k, n)) :
    keywordAt cs = some (k, n) ∧ ¬startsUnit (cs.drop n) := by
  simp only [wordLexeme, Option.orElse_eq_orElse, Option.orElse_eq_or, Option.or_eq_some_iff,
    Option.map_eq_some_iff, Prod.mk.injEq] at h
  rcases h with h | ⟨-, h | ⟨-, -, -, rfl, -⟩⟩
  · obtain ⟨m, -, h⟩ := Option.map_eq_some_iff.1 h
    have hkind : k = .label ∨ k = .numberLiteral := by grind
    rcases hkind with rfl | rfl <;> cases hk
  · unfold keywordLexeme at h
    split at h
    · cases h
    · next hat =>
      split at h
      · obtain ⟨m, -, h⟩ := Option.map_eq_some_iff.1 h
        cases h
        cases hk
      · next hstop =>
        cases h
        exact ⟨hat, hstop⟩
  · cases hk

theorem markLexeme_not_keyword {cs : List Char} {k : Kind} {n : Nat}
    (h : markLexeme cs = some (k, n)) : ¬k.belongsTo .keyword := by
  intro hk
  unfold markLexeme at h
  split at h
  case h_7 | h_8 =>
    cases h
    cases hk
  case h_9 =>
    unfold bracketLexeme at h
    split at h <;> cases h <;> cases hk
  all_goals
    simp only [Option.map_eq_some_iff, Prod.mk.injEq] at h
    obtain ⟨-, -, rfl, -⟩ := h
    cases hk

/-- A keyword token is spelled like its keyword, and no label text stands behind it. -/
theorem keyword_of_lexeme {operators : Bool} {x r : List Char} {k : Kind}
    (hk : k.belongsTo .keyword) (h : lexeme operators (x ++ r) = some (k, x.length)) :
    SpellsKeyword k x ∧ ¬startsUnit r := by
  have hstart : startsUnit (x ++ r) := by
    by_contra hnot
    rw [lexeme_of_not_startsUnit hnot] at h
    exact markLexeme_not_keyword h hk
  rw [lexeme_of_startsUnit hstart] at h
  obtain ⟨hat, hstop⟩ := wordLexeme_keyword hk h
  rw [List.drop_left] at hstop
  refine ⟨?_, hstop⟩
  rcases keywordAt_spells hat with ⟨word, -, hword, hstarts, hlength⟩ | ⟨rfl, hlength⟩
  · rw [startsWithWord_iff, ← hlength, List.take_left] at hstarts
    exact .inl ⟨word, hword, hstarts⟩
  · have halone := repeatUntilLength_replace [] hlength le_rfl
    have hspells := spellsRepeatUntil_of_length halone
    rw [List.append_nil, List.drop_length] at hspells
    exact .inr ⟨rfl, hspells⟩

/-! ## The beginning of a label -/

/-- A label begins with a keyword only if it goes on right behind it. -/
theorem startsUnit_of_label {operators : Bool} {cs word : List Char} {n : Nat}
    (hword : word ∈ keywordWords) (hstarts : startsWithWord cs word)
    (h : lexeme operators cs = some (.label, n)) :
    ∃ k m, keywordAt cs = some (k, m) ∧ startsUnit (cs.drop m) := by
  have hlower : ∀ word ∈ keywordWords, word.head?.any Char.isLower = true := by decide
  have hnumber := numberLength_of_startsWithWord (hlower word hword) hstarts
  obtain ⟨w, hw, hletter⟩ := (Option.any_eq_true _ _).1 (hlower word hword)
  obtain ⟨word, rfl⟩ := List.head?_eq_some_iff.1 hw
  have hat : keywordAt cs ≠ none := fun hnone => keywordAt_eq_none_iff.1 hnone _ hword hstarts
  obtain ⟨⟨k, m⟩, hat⟩ := Option.ne_none_iff_exists'.1 hat
  refine ⟨k, m, hat, ?_⟩
  by_contra hstop
  have hkeyword : keywordLexeme operators cs = some (k, m) := by
    simp only [keywordLexeme, hat, hstop, if_false]
  rw [lexeme_of_startsUnit (startsUnit_of_startsWithWord hletter hstarts), wordLexeme,
    numberLexeme, hnumber, hkeyword] at h
  cases h
  exact keywordAt_ne_label hat rfl

/-- A label begins with a keyword as a word of its own only if this is `repeat`, and `until` with
more label text right behind it is the next word. -/
theorem firstWord_of_label {operators : Bool} {x word : List Char} {n : Nat}
    (h : lexeme operators x = some (.label, n)) (hword : word ∈ keywordWords)
    (hspells : SpelledAs word (firstWord x)) :
    word = "repeat".toList ∧ ∃ more, SpellsRepeatUntil x more ∧ startsUnit more := by
  obtain ⟨hstarts, hlength⟩ := spelledAs_firstWord_iff.1 hspells
  obtain ⟨k, m, hat, hmore⟩ := startsUnit_of_label hword hstarts h
  rcases keywordAt_spells hat with ⟨other, hother, -, hstarts', rfl⟩ | ⟨-, hrepeat⟩
  · obtain rfl := eq_of_startsWithWord hword hother hstarts hstarts'
    rw [← hlength] at hmore
    exact absurd hmore (not_startsUnit_drop_wordLength x)
  · obtain ⟨-, -, -, hstarts', -⟩ := repeatUntilLength_cases hrepeat
    exact ⟨eq_of_startsWithWord hword (by decide) hstarts hstarts', _,
      spellsRepeatUntil_of_length hrepeat, hmore⟩

/-! ## The words behind the gaps of a label -/

/-- No clause closes behind a blank of a text that is not escaped. -/
def Unclosed : List Char → Prop
  | [] => True
  | ['\\'] => True
  | '\\' :: _ :: rest => Unclosed rest
  | c :: rest => (isBlank c ∨ c = '\n' → ¬closesClause rest) ∧ Unclosed rest

section Unclosed

variable {cs x : List Char}

theorem unclosed_cons {c : Char} (hc : c ≠ '\\') : Unclosed (c :: x) ↔
    (isBlank c ∨ c = '\n' → ¬closesClause x) ∧ Unclosed x := by
  rw [Unclosed] <;> simp_all

/-- A word holds no blank. -/
theorem unclosed_word (h : Unclosed (cs.drop (wordLength cs))) : Unclosed cs := by
  fun_induction wordLength cs with
  | case1 | case2 => trivial
  | case3 c rest ih => exact ih (by simpa using h)
  | case4 c rest hone hpair hstart ih =>
    have hc : c ≠ '\\' := by
      rintro rfl
      rcases rest with _ | ⟨d, rest⟩
      · exact hone rfl rfl
      · exact hpair d rest rfl rfl
    refine (unclosed_cons hc).2 ⟨?_, ih (by simpa using h)⟩
    rintro (hblank | rfl)
    · simp only [isBlank, Bool.or_eq_true, decide_eq_true_eq] at hblank
      rcases hblank with (rfl | rfl) | rfl <;> simp [startsUnit_cons, isBlank] at hstart
    · exact absurd hstart (newline_not_startsUnit rest)
  | case5 => exact h

theorem unclosed_gap (hx : Unclosed x) (hcloses : ¬closesClause x) : ∀ {gap : List Char},
    (∀ c ∈ gap, isBlank c = true) → Unclosed (gap ++ x)
  | [], _ => hx
  | c :: gap, hgap => by
    obtain ⟨hc, hgap⟩ := List.forall_mem_cons.1 hgap
    have hplain : c ≠ '\\' := by
      rintro rfl
      cases hc
    refine (unclosed_cons hplain).2 ⟨fun _ => ?_, unclosed_gap hx hcloses hgap⟩
    rcases gap with _ | ⟨d, gap⟩
    · exact hcloses
    · have hblank : gapLength (d :: gap ++ x) ≠ 0 := by
        rw [List.cons_append, gapLength_cons, if_pos (hgap d (.head _))]
        exact Nat.succ_ne_zero _
      exact fun h => not_startsUnit_of_gap hblank (startsUnit_of_closesClause h)

theorem unclosed_labelTail {operators : Bool} (h : labelTail operators cs = cs.length) :
    Unclosed cs := by
  fun_induction labelTail operators cs with
  | case1 cs | case2 cs | case5 cs =>
    rw [List.eq_nil_of_length_eq_zero h.symm]
    trivial
  | case3 cs next hgap hcloses hunit ih =>
    have hlength : gapLength cs + next.length = cs.length := gapLength_add_length_afterGap cs
    have hword := wordLength_le next
    have hnext : Unclosed next := unclosed_word (ih (by rw [List.length_drop]; omega))
    rw [← List.takeWhile_append_dropWhile (p := isBlank) (l := cs)]
    exact unclosed_gap hnext hcloses fun c hc => List.all_eq_true.1 List.all_takeWhile c hc
  | case4 cs next hgap hcloses hunit hop ih =>
    have hlength : gapLength cs + next.length = cs.length := gapLength_add_length_afterGap cs
    have hnext : Unclosed next := by
      rw [Bool.and_eq_true] at hop
      rcases hcons : next with _ | ⟨c, rest⟩
      · trivial
      · rw [hcons] at h hop ih hlength
        obtain ⟨hc, -⟩ := startsOperator_cons.1 hop.2
        have hrest : Unclosed rest := by
          rw [List.drop_one, List.tail_cons] at h ih
          rw [List.length_cons] at hlength
          exact ih (by omega)
        rcases hc with rfl | rfl <;>
          exact (unclosed_cons (by decide)).2 ⟨fun h => absurd h (by decide), hrest⟩
    rw [← List.takeWhile_append_dropWhile (p := isBlank) (l := cs)]
    exact unclosed_gap hnext hcloses fun c hc => List.all_eq_true.1 List.all_takeWhile c hc

theorem unclosed_labelLength {operators : Bool} (h : labelLength operators cs = some cs.length) :
    Unclosed cs := by
  unfold labelLength at h
  split at h
  · have hlength := Option.some.inj h
    have htail : labelTail operators (cs.drop (wordLength cs)) =
        (cs.drop (wordLength cs)).length := by
      rw [List.length_drop]
      omega
    exact unclosed_word (unclosed_labelTail htail)
  · cases h

/-- What `Unclosed` says of one character. -/
theorem Unclosed.at {l r : List Char} {c : Char} (h : Unclosed (l ++ c :: r))
    (hl : escapesNext l = false) (hc : isBlank c ∨ c = '\n') : ¬closesClause r := by
  fun_induction escapesNext l with
  | case1 =>
    rw [List.nil_append, unclosed_cons (by rintro rfl; revert hc; decide)] at h
    exact h.1 hc
  | case2 => cases hl
  | case3 d rest ih => exact ih h hl
  | case4 d rest hone hpair ih =>
    have hd : d ≠ '\\' := by
      rintro rfl
      rcases rest with _ | ⟨e, rest⟩
      · exact hone rfl rfl
      · exact hpair e rest rfl rfl
    rw [List.cons_append, unclosed_cons hd] at h
    exact ih h.2 hl

end Unclosed

/-! ## All tokens of a source -/

/-- The text of a label has no keyword as a word of its own where one is looked for. -/
structure KeepsKeywordsOut (text : List Char) : Prop where
  /-- Not at its front, but for a `repeat` in front of an `until` that is only how a longer word
  begins. -/
  first : ∀ word ∈ keywordWords, SpelledAs word (firstWord text) →
    word = "repeat".toList ∧ ∃ more, SpellsRepeatUntil text more ∧ startsUnit more
  /-- And no `end` or `else` behind a blank that is not escaped. -/
  later : ∀ before c behind, text = before ++ c :: behind → escapesNext before = false →
    isBlank c ∨ c = '\n' →
      ∀ word ∈ ["end".toList, "else".toList], ¬SpelledAs word (firstWord behind)

theorem keepsKeywordsOut_of_lexeme {operators : Bool} {x r : List Char}
    (h : lexeme operators (x ++ r) = some (.label, x.length)) : KeepsKeywordsOut x := by
  have hne : x ≠ [';'] := by
    rintro rfl
    rw [List.singleton_append, lexeme_semicolon] at h
    cases h
  have halone : lexeme operators (x ++ []) = some (.label, x.length) :=
    lexeme_replace (Breaks.nil.replaces operators r) (fun hx => absurd hx hne) h
  rw [List.append_nil] at halone
  refine ⟨fun word hword hspells => firstWord_of_label halone hword hspells, ?_⟩
  intro before c behind hsplit hescape hc word hword hspells
  have hunclosed : Unclosed x := unclosed_labelLength (labelLength_of_lexeme halone)
  rw [hsplit] at hunclosed
  have hat := spelledAs_firstWord_iff.1 hspells
  exact hunclosed.at hescape hc (closesClause_iff.2 ⟨word, hword, hat⟩)

/-- The keyword tokens of a source are spelled like their keywords in any case, and no label text
stands behind them; its labels neither begin with a keyword as a word of its own nor go on with one
that closes a clause. -/
theorem keywords_stand_alone {source : String} {ts : List Token} (h : tokenize source = .ok ts) :
    ∀ t ∈ ts,
      (t.kind.belongsTo .keyword → SpellsKeyword t.kind t.text.toList ∧
        ∃ before behind, source.toList = before ++ t.text.toList ++ behind ∧
          byteSize before = t.span.start ∧ ¬startsUnit behind) ∧
      (t.kind = .label → KeepsKeywordsOut t.text.toList) := by
  intro t ht
  have hscans : Scans 0 .origin source.toList ts := tokensFrom_ok_iff.1 h
  obtain ⟨operators, before, x, behind, hsource, hplace, hlexeme, htext⟩ := hscans.lexes t ht
  rw [htext, String.toList_ofList]
  refine ⟨fun hk => ?_, fun hk => keepsKeywordsOut_of_lexeme (hk ▸ hlexeme)⟩
  obtain ⟨hspells, hstop⟩ := keyword_of_lexeme hk hlexeme
  refine ⟨hspells, before, behind, by rw [hsource, List.append_assoc], ?_, hstop⟩
  have hoffset := Place.offset_after .origin before
  rw [hplace] at hoffset
  exact (hoffset.trans (Nat.zero_add _)).symm

/-- Keywords in any case, labels that only begin like one, and an escaped `end`. -/
theorem keywords_stand_alone_repeat :
    ∃ ts, tokenize "Repeat \t UNTIL x;repeat untilx \\end end" = .ok ts ∧
      ts.map (fun t => (t.kind, t.text)) = [(.repeatUntilWord, "Repeat \t UNTIL"), (.label, "x"),
        (.delimiter, ";"), (.label, "repeat untilx \\end"), (.endWord, "end")] ∧
      ∀ t ∈ ts, (t.kind.belongsTo .keyword → SpellsKeyword t.kind t.text.toList) ∧
        (t.kind = .label → KeepsKeywordsOut t.text.toList) := by
  have hok : ((tokenize "Repeat \t UNTIL x;repeat untilx \\end end").toOption.any fun ts =>
      ts.map (fun t => (t.kind, t.text)) = [(.repeatUntilWord, "Repeat \t UNTIL"), (.label, "x"),
        (.delimiter, ";"), (.label, "repeat untilx \\end"), (.endWord, "end")]) = true := by
    decide +kernel
  cases hts : tokenize "Repeat \t UNTIL x;repeat untilx \\end end" with
  | error e => rw [hts] at hok; cases hok
  | ok ts =>
    rw [hts] at hok
    refine ⟨ts, rfl, of_decide_eq_true hok, fun t ht => ?_⟩
    obtain ⟨hkeyword, hlabel⟩ := keywords_stand_alone hts t ht
    exact ⟨fun hk => (hkeyword hk).1, hlabel⟩

end BlockNotation
