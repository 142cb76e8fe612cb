import BlockNotation.Proofs.Token.Keywords

/-!
# The longest label

What a label is can be said without scanning: words with gaps between them, and between two gaps
perhaps an operator (`LabelReading`). Words and gaps are as long as they can be, and no word but the
first closes a clause. Several readings may begin at one point of a text, each of them a beginning
of the next; a label is the last of them (`labelLength_longest`).

Every character of a reading that is not escaped begins a unit, or it is a blank or an operator and
more of the label follows (`LabelReading.labelText`). So labels have neither at their ends.
-/

namespace BlockNotation

/-! ## Words, gaps and readings -/

/-- A unit of label text in front of `rest`: an escaped character, a colon that no other follows,
or any other character that is neither structural nor white space nor opens a comment. -/
inductive IsUnit : List Char → List Char → Prop where
  | escaped {c : Char} {rest : List Char} : IsUnit ['\\', c] rest
  | colon {rest : List Char} (single : rest.head? ≠ some ':') : IsUnit [':'] rest
  | plain {c : Char} {rest : List Char} (other : c ≠ '\\' ∧ c ≠ ':') (free : ¬isStructural c)
      (visible : c ∉ [' ', '\t', '\r', '\n'])
      (silent : ¬(['/', '/'] <+: c :: rest ∨ ['/', '*'] <+: c :: rest)) : IsUnit [c] rest

/-- Units one after the other, each in front of all that follows it. -/
inductive AreUnits : List Char → List Char → Prop where
  | none {rest : List Char} : AreUnits [] rest
  | more {u us rest : List Char} (first : IsUnit u (us ++ rest)) (later : AreUnits us rest) :
      AreUnits (u ++ us) rest

/-- A run of units in front of `rest` that does not go on there. -/
structure IsWord (word rest : List Char) : Prop where
  nonempty : word ≠ []
  units : AreUnits word rest
  maximal : ∀ u behind, rest = u ++ behind → ¬IsUnit u behind

/-- A run of blanks in front of `rest` that does not go on there. -/
structure IsSpacing (gap rest : List Char) : Prop where
  nonempty : gap ≠ []
  blanks : ∀ c ∈ gap, c = ' ' ∨ c = '\t' ∨ c = '\r'
  maximal : ∀ c ∈ rest.head?, ¬(c = ' ' ∨ c = '\t' ∨ c = '\r')

/-- A word closes a clause: `end` or `else`, in any case. -/
def IsCloser (word : List Char) : Prop :=
  SpelledAs "end".toList word ∨ SpelledAs "else".toList word

/-- A gap in front of `rest`, and a word that goes on with a label behind it. -/
structure NextWord (gap word rest : List Char) : Prop where
  spaced : IsSpacing gap (word ++ rest)
  whole : IsWord word rest
  goesOn : ¬IsCloser word

/-- What a label in front of `rest` adds to its first word: more words behind gaps, and with
`operators` also words behind an operator that stands between gaps. -/
inductive Continues (operators : Bool) : List Char → List Char → Prop where
  | done {rest : List Char} : Continues operators [] rest
  | word {gap word more rest : List Char} (next : NextWord gap word (more ++ rest))
      (later : Continues operators more rest) : Continues operators (gap ++ (word ++ more)) rest
  | comparison {gap gap' word more rest : List Char} {c : Char} (allowed : operators = true)
      (operator : c = '<' ∨ c = '>')
      (spaced : IsSpacing gap (c :: (gap' ++ (word ++ (more ++ rest)))))
      (next : NextWord gap' word (more ++ rest)) (later : Continues operators more rest) :
      Continues operators (gap ++ c :: (gap' ++ (word ++ more))) rest

/-- A text in front of `rest` can be read as a label. -/
inductive LabelReading (operators : Bool) : List Char → List Char → Prop where
  | words {word more rest : List Char} (first : IsWord word (more ++ rest))
      (later : Continues operators more rest) : LabelReading operators (word ++ more) rest

/-- A text in front of `rest` can be read as a label, and all that can be read so at its point is a
beginning of it. -/
structure LongestLabel (operators : Bool) (text rest : List Char) : Prop where
  reading : LabelReading operators text rest
  longest : ∀ text' rest', text' ++ rest' = text ++ rest → LabelReading operators text' rest' →
    text' <+: text

/-! ## Units -/

section Unit

variable {u us w cs rest : List Char}

theorem IsUnit.cases_length (h : IsUnit u rest) :
    (∃ c, u = ['\\', c]) ∨ ∃ c, c ≠ '\\' ∧ u = [c] := by
  cases h with
  | escaped => exact .inl ⟨_, rfl⟩
  | colon => exact .inr ⟨':', by decide, rfl⟩
  | plain other => exact .inr ⟨_, other.1, rfl⟩

theorem opensComment_iff : opensComment cs ↔ ['/', '/'] <+: cs ∨ ['/', '*'] <+: cs := by
  rcases cs with _ | ⟨c, _ | ⟨d, rest⟩⟩
  · simp [opensComment]
  · simp [opensComment_cons]
  · simp only [opensComment_cons, List.head?_cons, Option.some.injEq, Bool.and_eq_true,
      Bool.or_eq_true, decide_eq_true_eq, List.cons_prefix_cons, List.nil_prefix, and_true,
      and_or_left, @eq_comm _ '/', @eq_comm _ '*']

theorem startsUnit_plain_iff {c : Char} (hc : c ≠ '\\') :
    startsUnit (c :: rest) ↔ IsUnit [c] rest := by
  rw [startsUnit_cons, if_neg hc]
  constructor
  · intro h
    by_cases hcolon : c = ':'
    · subst hcolon
      exact .colon (by simpa using h)
    · rw [if_neg hcolon, Bool.not_eq_true', Bool.or_eq_false_iff, Bool.or_eq_false_iff,
        ← Bool.not_eq_true (opensComment _), opensComment_iff] at h
      exact .plain ⟨hc, hcolon⟩ (by simp [h.1.2]) (by simpa [isBlank, and_assoc] using h.1.1) h.2
  · intro h
    cases h with
    | colon single => simpa using single
    | plain other free visible silent =>
      rw [← opensComment_iff] at silent
      simp_all [isBlank]

/-- Label text begins where a unit stands. -/
theorem startsUnit_iff_isUnit : startsUnit cs ↔ ∃ u behind, cs = u ++ behind ∧ IsUnit u behind := by
  constructor
  · intro h
    rcases cs with _ | ⟨c, rest⟩
    · cases h
    by_cases hc : c = '\\'
    · subst hc
      rcases rest with _ | ⟨d, rest⟩
      · cases h
      · exact ⟨['\\', d], rest, rfl, .escaped⟩
    · exact ⟨[c], rest, rfl, (startsUnit_plain_iff hc).1 h⟩
  · rintro ⟨u, behind, rfl, hu⟩
    rcases hu.cases_length with ⟨c, rfl⟩ | ⟨c, hc, rfl⟩
    · rfl
    · exact (startsUnit_plain_iff hc).2 hu

theorem IsUnit.startsUnit (h : IsUnit u rest) : startsUnit (u ++ rest) :=
  startsUnit_iff_isUnit.2 ⟨u, rest, rfl, h⟩

theorem IsUnit.wordLength (h : IsUnit u rest) :
    wordLength (u ++ rest) = u.length + wordLength rest := by
  have hstart := h.startsUnit
  rcases h.cases_length with ⟨c, rfl⟩ | ⟨c, hc, rfl⟩
  · exact Nat.add_comm _ _
  · rw [List.singleton_append] at hstart ⊢
    rw [wordLength_cons hc, if_pos hstart]
    exact Nat.add_comm _ _

theorem AreUnits.wordLength (h : AreUnits w rest) :
    wordLength (w ++ rest) = w.length + wordLength rest := by
  induction h with
  | none => simp
  | more first _ ih =>
    rw [List.append_assoc, first.wordLength, ih, List.length_append, Nat.add_assoc]

/-- The run of units at the front of a text is made up of units. -/
theorem areUnits_firstWord (cs : List Char) :
    AreUnits (firstWord cs) (cs.drop (wordLength cs)) := by
  by_cases hstart : startsUnit cs
  · obtain ⟨u, behind, hcs, hu⟩ := startsUnit_iff_isUnit.1 hstart
    have hlt : behind.length < cs.length := by
      rcases hu.cases_length with ⟨c, rfl⟩ | ⟨c, -, rfl⟩ <;>
        simp only [hcs, List.length_append, List.length_cons] <;> omega
    have hlater := areUnits_firstWord behind
    rw [hcs, firstWord, hu.wordLength, List.take_length_add_append, List.drop_length_add_append]
    refine .more ?_ hlater
    rwa [List.take_append_drop]
  · rw [firstWord, wordLength_eq_zero_iff.2 hstart]
    exact .none
termination_by cs.length

end Unit

/-! ## Words and gaps -/

section Word

variable {gap word w g cs rest : List Char}

theorem isWord_iff : IsWord w rest ↔ w ≠ [] ∧ wordLength (w ++ rest) = w.length := by
  constructor
  · intro h
    have hstop : ¬startsUnit rest := fun hstart => by
      obtain ⟨u, behind, hrest, hu⟩ := startsUnit_iff_isUnit.1 hstart
      exact h.maximal u behind hrest hu
    exact ⟨h.nonempty, by rw [h.units.wordLength, wordLength_eq_zero_iff.2 hstop, Nat.add_zero]⟩
  · rintro ⟨hne, hlength⟩
    have hunits := areUnits_firstWord (w ++ rest)
    have hstop := not_startsUnit_drop_wordLength (w ++ rest)
    rw [firstWord, hlength, List.take_left, List.drop_left] at hunits
    rw [hlength, List.drop_left] at hstop
    exact ⟨hne, hunits, fun u behind hrest hu =>
      hstop (startsUnit_iff_isUnit.2 ⟨u, behind, hrest, hu⟩)⟩

theorem IsWord.startsUnit (h : IsWord w rest) : startsUnit (w ++ rest) := by
  obtain ⟨hne, hlength⟩ := isWord_iff.1 h
  by_contra hnot
  rw [wordLength_eq_zero_iff.2 hnot] at hlength
  exact hne (List.eq_nil_of_length_eq_zero hlength.symm)

theorem IsWord.closesClause_iff (h : IsWord w rest) : closesClause (w ++ rest) ↔ IsCloser w := by
  have hword : firstWord (w ++ rest) = w := by
    rw [firstWord, (isWord_iff.1 h).2, List.take_left]
  simp only [BlockNotation.closesClause_iff, ← spelledAs_firstWord_iff, hword, IsCloser,
    List.mem_cons, List.not_mem_nil, or_false, exists_eq_or_imp, exists_eq_left]

theorem isBlank_iff {c : Char} : isBlank c = true ↔ c = ' ' ∨ c = '\t' ∨ c = '\r' := by
  simp [isBlank, or_assoc]

theorem isSpacing_iff : IsSpacing g rest ↔ g ≠ [] ∧ gapLength (g ++ rest) = g.length := by
  have hall : (∀ c ∈ g, c = ' ' ∨ c = '\t' ∨ c = '\r') ↔ g.takeWhile isBlank = g := by
    simp only [← isBlank_iff, List.takeWhile_eq_self_iff]
  constructor
  · intro h
    have hhead : ∀ c ∈ rest.head?, isBlank c = false := fun c hc => by
      rw [← Bool.not_eq_true, isBlank_iff]
      exact h.maximal c hc
    exact ⟨h.nonempty, by rw [gapLength_append hhead, gapLength, hall.1 h.blanks]⟩
  · rintro ⟨hne, hlength⟩
    have hwhole : g.takeWhile isBlank = g := by
      have htake := take_takeWhile_length isBlank (g ++ rest)
      rw [← gapLength, hlength, List.take_left] at htake
      rw [← takeWhile_append_of_length_le (by rw [← gapLength, hlength]), ← htake]
    refine ⟨hne, hall.2 hwhole, fun c hc hblank => ?_⟩
    obtain ⟨rest, rfl⟩ := List.head?_eq_some_iff.1 hc
    rw [gapLength, List.takeWhile_append, hwhole, if_pos rfl, List.length_append,
      List.takeWhile_cons_of_pos (isBlank_iff.2 hblank), List.length_cons] at hlength
    omega

theorem IsSpacing.afterGap (h : IsSpacing g rest) : afterGap (g ++ rest) = rest := by
  rw [afterGap_eq_drop, (isSpacing_iff.1 h).2, List.drop_left]

/-- A text is a gap and what follows it. -/
theorem exists_isSpacing (h : gapLength cs ≠ 0) :
    ∃ gap, cs = gap ++ afterGap cs ∧ IsSpacing gap (afterGap cs) := by
  have hsplit : cs = cs.takeWhile isBlank ++ afterGap cs :=
    List.takeWhile_append_dropWhile.symm
  refine ⟨_, hsplit, isSpacing_iff.2 ⟨fun hnil => h ?_, ?_⟩⟩
  · rw [gapLength, hnil, List.length_nil]
  · rw [← hsplit, gapLength]

/-- A label goes on with a word where one stands behind a gap. -/
theorem wordAhead_iff : WordAhead cs ↔
    ∃ gap word rest, cs = gap ++ (word ++ rest) ∧ NextWord gap word rest := by
  constructor
  · rintro ⟨hgap, hunit, hcloses⟩
    obtain ⟨gap, hcs, hspaced⟩ := exists_isSpacing hgap
    have hsplit := List.take_append_drop (wordLength (afterGap cs)) (afterGap cs)
    have hword : IsWord (firstWord (afterGap cs))
        ((afterGap cs).drop (wordLength (afterGap cs))) := by
      have hpos := wordLength_pos hunit
      have hle := wordLength_le (afterGap cs)
      rw [isWord_iff, firstWord, hsplit, List.length_take, Nat.min_eq_left hle]
      refine ⟨fun hnil => ?_, rfl⟩
      rw [← List.length_eq_zero_iff, List.length_take] at hnil
      omega
    refine ⟨gap, _, _, hcs.trans (by rw [firstWord, hsplit]), ?_, hword, ?_⟩
    · rwa [firstWord, hsplit]
    · rwa [← hword.closesClause_iff, firstWord, hsplit]
  · rintro ⟨gap, word, rest, rfl, h⟩
    have hgap := (isSpacing_iff.1 h.spaced)
    refine ⟨?_, ?_, ?_⟩
    · rw [hgap.2]
      exact fun hzero => hgap.1 (List.eq_nil_of_length_eq_zero hzero)
    · rw [h.spaced.afterGap]
      exact h.whole.startsUnit
    · rw [h.spaced.afterGap, h.whole.closesClause_iff]
      exact h.goesOn

theorem NextWord.labelTail (operators : Bool) (h : NextWord gap word rest) :
    labelTail operators (gap ++ (word ++ rest)) =
      gap.length + (word.length + labelTail operators rest) := by
  rw [labelTail_of_wordAhead operators (wordAhead_iff.2 ⟨gap, word, rest, rfl, h⟩),
    h.spaced.afterGap, (isSpacing_iff.1 h.spaced).2, (isWord_iff.1 h.whole).2, List.drop_left,
    Nat.add_assoc]

theorem labelTail_comparison {c : Char} (hc : c = '<' ∨ c = '>')
    (hspaced : IsSpacing g (c :: (gap ++ (word ++ rest)))) (h : NextWord gap word rest) :
    labelTail true (g ++ c :: (gap ++ (word ++ rest))) =
      g.length + (1 + (gap.length + (word.length + labelTail true rest))) := by
  have hgap := isSpacing_iff.1 hspaced
  have hop : startsOperator (afterGap (g ++ c :: (gap ++ (word ++ rest)))) := by
    rw [hspaced.afterGap]
    exact startsOperator_cons.2 ⟨hc, wordAhead_iff.2 ⟨gap, word, rest, rfl, h⟩⟩
  rw [labelTail_of_operator (fun hzero => hgap.1 (List.eq_nil_of_length_eq_zero (hgap.2 ▸ hzero)))
    rfl hop, hspaced.afterGap, hgap.2, List.drop_one, List.tail_cons, h.labelTail, Nat.add_assoc]

end Word

/-! ## Readings and lengths -/

section Reading

variable {operators : Bool} {text more cs rest : List Char}

/-- No reading goes on further than a label does. -/
theorem Continues.length_le (h : Continues operators more rest) :
    more.length ≤ labelTail operators (more ++ rest) := by
  induction h with
  | done => exact Nat.zero_le _
  | word next _ ih =>
    simp only [List.append_assoc, next.labelTail operators, List.length_append]
    omega
  | comparison allowed operator spaced next _ ih =>
    subst allowed
    simp only [List.append_assoc, List.cons_append, labelTail_comparison operator spaced next,
      List.length_append, List.length_cons]
    omega

/-- And a label goes on as a reading does. -/
theorem exists_continues (operators : Bool) (cs : List Char) : ∃ more rest, cs = more ++ rest ∧
    more.length = labelTail operators cs ∧ Continues operators more rest := by
  rcases labelTail_cases operators cs with hword | ⟨hgap, hallowed, hop⟩ | hzero
  · obtain ⟨gap, word, behind, hcs, hnext⟩ := wordAhead_iff.1 hword
    have hpos := List.length_pos_iff.2 hnext.spaced.nonempty
    have hlt : behind.length < cs.length := by
      simp only [hcs, List.length_append]
      omega
    obtain ⟨more, rest, rfl, hlength, hlater⟩ := exists_continues operators behind
    refine ⟨gap ++ (word ++ more), rest, by simp [hcs], ?_, .word hnext hlater⟩
    rw [hcs, hnext.labelTail, List.length_append, List.length_append, hlength]
  · obtain ⟨gap, hcs, hspaced⟩ := exists_isSpacing hgap
    obtain ⟨c, behind, hbehind⟩ : ∃ c behind, afterGap cs = c :: behind :=
      List.exists_cons_of_ne_nil (by rintro hnil; rw [hnil] at hop; cases hop)
    rw [hbehind] at hcs hspaced hop
    obtain ⟨hc, hword⟩ := startsOperator_cons.1 hop
    obtain ⟨gap', word, behind, rfl, hnext⟩ := wordAhead_iff.1 hword
    subst hallowed
    have hpos := List.length_pos_iff.2 hspaced.nonempty
    have hlt : behind.length < cs.length := by
      simp only [hcs, List.length_append, List.length_cons]
      omega
    obtain ⟨more, rest, rfl, hlength, hlater⟩ := exists_continues true behind
    refine ⟨gap ++ c :: (gap' ++ (word ++ more)), rest, by simp [hcs], ?_,
      .comparison rfl hc hspaced hnext hlater⟩
    rw [hcs, labelTail_comparison hc hspaced hnext, ← hlength]
    simp only [List.length_append, List.length_cons]
    omega
  · exact ⟨[], cs, rfl, hzero.symm, .done⟩
termination_by cs.length

/-- The length of a label where one can be read, and no reading is longer. -/
theorem LabelReading.labelLength (h : LabelReading operators text rest) :
    ∃ n, labelLength operators (text ++ rest) = some n ∧ text.length ≤ n := by
  obtain @⟨word, more, _, first, later⟩ := h
  have hle := later.length_le
  refine ⟨word.length + labelTail operators (more ++ rest), ?_, ?_⟩
  · simp only [List.append_assoc, BlockNotation.labelLength, first.startsUnit, if_true,
      (isWord_iff.1 first).2, List.drop_left]
  · rw [List.length_append]
    omega

/-- A label is a reading. -/
theorem exists_labelReading {n : Nat} (h : labelLength operators cs = some n) :
    ∃ text rest, cs = text ++ rest ∧ text.length = n ∧ LabelReading operators text rest := by
  unfold BlockNotation.labelLength at h
  split at h
  · next hunit =>
    obtain ⟨more, rest, hsplit, hlength, hlater⟩ :=
      exists_continues operators (cs.drop (wordLength cs))
    have hpos := wordLength_pos hunit
    have hle := wordLength_le cs
    have hcs : cs = firstWord cs ++ (more ++ rest) := by
      rw [firstWord, ← hsplit, List.take_append_drop]
    have hword : (firstWord cs).length = wordLength cs := by
      rw [firstWord, List.length_take, Nat.min_eq_left hle]
    refine ⟨firstWord cs ++ more, rest, by rw [List.append_assoc, ← hcs], ?_, .words ?_ hlater⟩
    · rw [List.length_append, hword, hlength]
      exact Option.some.inj h
    · rw [isWord_iff, ← hcs, hword]
      refine ⟨fun hnil => ?_, rfl⟩
      rw [hnil, List.length_nil] at hword
      omega
  · cases h

theorem labelLength_eq_none_iff : labelLength operators cs = none ↔
    ∀ text rest, cs = text ++ rest → ¬LabelReading operators text rest := by
  constructor
  · rintro hnone text rest rfl hreading
    obtain ⟨n, hn, -⟩ := hreading.labelLength
    rw [hnone] at hn
    cases hn
  · intro h
    cases hn : BlockNotation.labelLength operators cs with
    | none => rfl
    | some n =>
      obtain ⟨text, rest, hcs, -, hreading⟩ := exists_labelReading hn
      exact absurd hreading (h text rest hcs)

theorem labelLength_eq_some_iff {n : Nat} : labelLength operators cs = some n ↔
    ∃ text rest, cs = text ++ rest ∧ text.length = n ∧ LongestLabel operators text rest := by
  constructor
  · intro h
    obtain ⟨text, rest, rfl, rfl, hreading⟩ := exists_labelReading h
    refine ⟨text, rest, rfl, rfl, hreading, fun text' rest' hsame hreading' => ?_⟩
    obtain ⟨m, hm, hle⟩ := hreading'.labelLength
    rw [hsame, h] at hm
    cases hm
    exact List.prefix_of_prefix_length_le ⟨rest', hsame⟩ ⟨rest, rfl⟩ hle
  · rintro ⟨text, rest, rfl, rfl, h⟩
    obtain ⟨n, hn, hle⟩ := h.reading.labelLength
    obtain ⟨text', rest', hsame, rfl, hreading'⟩ := exists_labelReading hn
    rw [hn, Nat.le_antisymm (h.longest text' rest' hsame.symm hreading').length_le hle]

end Reading

/-! ## What stands in a label -/

section Text

variable {operators : Bool} {u w gap text more rest : List Char} {c : Char}

/-- Every character of a text that is not escaped begins a unit in front of what follows, up to and
including `rest`, or it is a blank or an operator and not the last character of the text. -/
def LabelText (text rest : List Char) : Prop :=
  ∀ before c behind, text = before ++ c :: behind → escapesNext before = false →
    startsUnit (c :: (behind ++ rest)) ∨ c ∈ [' ', '\t', '\r', '<', '>'] ∧ behind ≠ []

theorem escapesNext_cons (hc : c ≠ '\\') : escapesNext (c :: text) = escapesNext text := by
  rw [escapesNext] <;> simp_all

theorem labelText_nil : LabelText [] rest := by
  intro before c behind h
  simp at h

/-- Behind a character that escapes nothing. -/
theorem LabelText.cons (hc : c ≠ '\\')
    (hfirst : startsUnit (c :: (text ++ rest)) ∨ c ∈ [' ', '\t', '\r', '<', '>'] ∧ text ≠ [])
    (h : LabelText text rest) : LabelText (c :: text) rest := by
  intro before d behind hsplit hescape
  rcases before with _ | ⟨e, before⟩
  · cases hsplit
    exact hfirst
  · obtain ⟨rfl, htext⟩ := List.cons.inj hsplit
    rw [escapesNext_cons hc] at hescape
    exact h before d behind htext hescape

theorem LabelText.unit (hu : IsUnit u (text ++ rest)) (h : LabelText text rest) :
    LabelText (u ++ text) rest := by
  have hstart := hu.startsUnit
  rcases hu.cases_length with ⟨c, rfl⟩ | ⟨c, hc, rfl⟩
  · intro before d behind hsplit hescape
    rcases before with _ | ⟨e, _ | ⟨e', before⟩⟩
    · cases hsplit
      exact .inl hstart
    · cases hsplit
      cases hescape
    · obtain ⟨rfl, htail⟩ := List.cons.inj hsplit
      exact h before d behind (List.cons.inj htail).2 hescape
  · exact h.cons hc (.inl hstart)

theorem LabelText.units (hw : AreUnits w (text ++ rest)) (h : LabelText text rest) :
    LabelText (w ++ text) rest := by
  generalize hbehind : text ++ rest = behind at hw
  induction hw with
  | none => exact h
  | more first _ ih =>
    subst hbehind
    rw [List.append_assoc]
    rw [← List.append_assoc] at first
    exact (ih rfl).unit first

theorem LabelText.blanks (hne : text ≠ []) (h : LabelText text rest) : ∀ {gap : List Char},
    (∀ c ∈ gap, c = ' ' ∨ c = '\t' ∨ c = '\r') → LabelText (gap ++ text) rest
  | [], _ => h
  | c :: gap, hgap => by
    obtain ⟨hc, hgap⟩ := List.forall_mem_cons.1 hgap
    refine (LabelText.blanks hne h hgap).cons ?_ (.inr ⟨?_, by simp [hne]⟩)
    · rintro rfl
      revert hc
      decide
    · rcases hc with rfl | rfl | rfl <;> simp

theorem NextWord.labelText (hnext : NextWord gap w (text ++ rest)) (h : LabelText text rest) :
    LabelText (gap ++ (w ++ text)) rest :=
  (h.units hnext.whole.units).blanks (by simp [hnext.whole.nonempty]) hnext.spaced.blanks

theorem Continues.labelText (h : Continues operators more rest) : LabelText more rest := by
  induction h with
  | done => exact labelText_nil
  | word next _ ih => exact next.labelText ih
  | @comparison gap gap' word more rest c _ operator spaced next _ ih =>
    refine (LabelText.cons ?_ (.inr ⟨?_, ?_⟩) (next.labelText ih)).blanks (by simp) spaced.blanks
    · rintro rfl
      revert operator
      decide
    · rcases operator with rfl | rfl <;> simp
    · simp [next.whole.nonempty]

theorem LabelReading.labelText (h : LabelReading operators text rest) : LabelText text rest := by
  obtain ⟨first, later⟩ := h
  exact later.labelText.units first.units

/-- White space and operators. -/
def separatesWords (c : Char) : Prop := c ∈ [' ', '\t', '\r', '\n', '<', '>']

theorem not_separatesWords_of_startsUnit (h : startsUnit (c :: rest)) : ¬separatesWords c := by
  intro hc
  simp only [separatesWords, List.mem_cons, List.not_mem_nil, or_false] at hc
  rcases hc with rfl | rfl | rfl | rfl | rfl | rfl <;>
    simp [startsUnit_cons, isBlank, isStructural] at h

/-- A text neither begins nor ends with white space or an operator, and holds no two colons in a
row, unless they are escaped. -/
structure TidyLabel (text : List Char) : Prop where
  first : ∀ c ∈ text.head?, ¬separatesWords c
  last : ∀ before c, text = before ++ [c] → escapesNext before = false → ¬separatesWords c
  colons : ∀ before behind, text = before ++ ':' :: ':' :: behind → escapesNext before = true

theorem LabelReading.tidy (h : LabelReading operators text rest) : TidyLabel text := by
  have htext := h.labelText
  refine ⟨fun c hc => ?_, fun before c hsplit hescape => ?_, fun before behind hsplit => ?_⟩
  · obtain @⟨word, more, _, first, -⟩ := h
    obtain ⟨d, word, rfl⟩ := List.exists_cons_of_ne_nil first.nonempty
    cases hc
    exact not_separatesWords_of_startsUnit first.startsUnit
  · rcases htext before c [] hsplit hescape with hstart | ⟨-, hne⟩
    · exact not_separatesWords_of_startsUnit hstart
    · exact absurd rfl hne
  · by_contra hescape
    rw [Bool.not_eq_true] at hescape
    rcases htext before ':' _ hsplit hescape with hstart | ⟨hmem, -⟩
    · simp [startsUnit_cons] at hstart
    · revert hmem
      decide

end Text

/-! ## The labels of a source -/

/-- The length of a label is that of the longest reading, and there is none only where nothing can
be read as a label. In particular every label among the tokens of a source is the longest reading
behind the text skipped and the tokens taken before it, with operators if an angle bracket is open
there, and has no white space, operator or two colons where they would not belong to it. -/
theorem labelLength_longest (operators : Bool) (cs : List Char) :
    (labelLength operators cs = none ↔
      ∀ text rest, cs = text ++ rest → ¬LabelReading operators text rest) ∧
    (∀ n, labelLength operators cs = some n ↔
      ∃ text rest, cs = text ++ rest ∧ text.length = n ∧ LongestLabel operators text rest) ∧
    ∀ source before t after, tokenize source = .ok (before ++ t :: after) → t.kind = .label →
      ∃ passed text rest, source.toList = passed ++ (text ++ rest) ∧
        t = .ofText .label (Place.origin.after passed) text ∧
        LongestLabel ((before.map Token.kind).foldl angleDepth 0 ≠ 0) text rest ∧
        TidyLabel text := by
  refine ⟨labelLength_eq_none_iff, fun n => labelLength_eq_some_iff, ?_⟩
  intro source before t after htokens hkind
  obtain ⟨s, hs, htakes⟩ := Stand.exists_takes htokens
  obtain ⟨passed, hrest, hplace⟩ := hs.suffix
  obtain ⟨n, hn, ht⟩ := htakes.token
  rw [hkind] at hn ht
  obtain ⟨text, rest, hsplit, rfl, hlongest⟩ :=
    labelLength_eq_some_iff.1 (labelLength_of_lexeme hn)
  rw [hsplit, List.take_left, hplace] at ht
  rw [hs.depth_eq] at hlongest
  exact ⟨passed, text, rest, hsplit ▸ hrest, ht, hlongest, hlongest.reading.tidy⟩

/-- A comparison that ends with an escaped blank, in front of a gap and a word that closes a
clause; without operators, the label is the first word alone. -/
theorem labelLength_longest_escapedBlank :
    (∃ text rest, "é  > a\\ \r\tend>".toList = text ++ rest ∧ text.length = 8 ∧
      LongestLabel true text rest) ∧
    (∃ text rest, "é  > a\\ \r\tend>".toList = text ++ rest ∧ text.length = 1 ∧
      LongestLabel false text rest) ∧
    ∃ before t after, tokenize "<é  > a\\ \r\tend>" = .ok (before ++ t :: after) ∧
      t.text = "é  > a\\ " ∧ ∃ text, t.text = String.ofList text ∧ TidyLabel text := by
  refine ⟨((labelLength_longest true _).2.1 8).1 (by decide +kernel),
    ((labelLength_longest false _).2.1 1).1 (by decide +kernel), ?_⟩
  have hok : ((tokenize "<é  > a\\ \r\tend>").toOption.any fun ts =>
      ts.map (fun t => (t.kind, t.text)) = [(.openAngle, "<"), (.label, "é  > a\\ "),
        (.endWord, "end"), (.closeAngle, ">")]) = true := by decide +kernel
  cases hts : tokenize "<é  > a\\ \r\tend>" with
  | error e => rw [hts] at hok; cases hok
  | ok ts =>
    rw [hts] at hok
    obtain ⟨opening, later, rfl, -, hlater⟩ := List.map_eq_cons_iff.1 (of_decide_eq_true hok)
    obtain ⟨t, after, rfl, ht, -⟩ := List.map_eq_cons_iff.1 hlater
    obtain ⟨hkind, htext⟩ := Prod.mk.inj ht
    obtain ⟨passed, text, rest, -, hlabel, -, htidy⟩ :=
      (labelLength_longest true []).2.2 _ [opening] t after hts hkind
    exact ⟨[opening], t, after, rfl, htext, text, by rw [hlabel]; rfl, htidy⟩

end BlockNotation
