import BlockNotation.Proofs.Token.Cutting
import BlockNotation.Proofs.Token.Operators

/-!
# What a label sees of the text behind it

Every token looks a little beyond its own end, and labels look furthest: behind a gap they look for
another word, for a closing `end` or `else`, and for an operator with a word behind it. `Replaces`
says that one text may stand for another behind any token: what ends a label, a keyword, a colour or
a name in front of the one ends it in front of the other. Then the same label is read in front of
both (`labelLength_replace`).
-/

namespace BlockNotation

/-! ## Words -/

theorem wordLength_eq_zero_iff {cs : List Char} : wordLength cs = 0 ↔ ¬startsUnit cs := by
  constructor
  · intro h hstart
    have := wordLength_pos hstart
    omega
  · intro h
    unfold wordLength
    split <;> simp_all [startsUnit, unitLength]

/-- Unless it escapes, a character begins a unit or not by what comes right after it. -/
theorem startsUnit_congr {c : Char} (hc : c ≠ '\\') {r s : List Char} (h : r.head? = s.head?) :
    startsUnit (c :: r) = startsUnit (c :: s) := by
  simp [startsUnit_cons, opensComment_cons, hc, h]

/-- A word that ends in front of `r` ends there in front of `r'` too. -/
theorem wordLength_replace {r r' : List Char}
    (hjoint : ∀ c, c ≠ '\\' → startsUnit (c :: r) → startsUnit (c :: r'))
    (hstop : ¬startsUnit r') :
    ∀ x, wordLength (x ++ r) = x.length → wordLength (x ++ r') = x.length
  | [], _ => wordLength_eq_zero_iff.2 hstop
  | [c], h => by
    by_cases hc : c = '\\'
    · subst hc
      rcases r with _ | ⟨d, r⟩ <;> simp [wordLength] at h
    · rw [List.singleton_append, wordLength_cons hc] at h ⊢
      have hstart : startsUnit (c :: r) := by
        by_contra hnot
        simp [hnot] at h
      rw [if_pos (hjoint c hc hstart), wordLength_eq_zero_iff.2 hstop]
      rfl
  | c :: d :: x, h => by
    by_cases hc : c = '\\'
    · subst hc
      simp only [List.cons_append, wordLength, List.length_cons] at h ⊢
      rw [wordLength_replace hjoint hstop x (by omega)]
    · rw [List.cons_append, wordLength_cons hc] at h ⊢
      have hstart : startsUnit (c :: (d :: x ++ r)) := by
        by_contra hnot
        rw [if_neg hnot] at h
        cases h
      rw [if_pos hstart] at h
      rw [startsUnit_congr hc (r := d :: x ++ r') (s := d :: x ++ r) rfl, if_pos hstart,
        wordLength_replace hjoint hstop (d :: x) (by simpa using h)]
      rfl

theorem wordLength_of_startsWithWord : ∀ {cs word : List Char}, word.all Char.isLower →
    startsWithWord cs word → wordLength cs = word.length + wordLength (cs.drop word.length)
  | cs, [], _, _ => by simp
  | cs, w :: word, hlower, h => by
    have hstart := startsUnit_of_startsWithWord (by simp_all) h
    obtain ⟨c, rest, rfl, rfl, hrest⟩ := startsWithWord_cons h
    have hc : c ≠ '\\' := by
      rintro rfl
      simp at hlower
    rw [wordLength_cons hc, if_pos hstart,
      wordLength_of_startsWithWord (by simp_all) hrest, List.length_cons, List.drop_succ_cons]
    omega

/-- A clause closes where `end` or `else` is a whole word. -/
theorem closesClause_iff {cs : List Char} : closesClause cs ↔
    ∃ word ∈ ["end".toList, "else".toList], startsWithWord cs word ∧
      wordLength cs = word.length := by
  have hlower : ∀ word ∈ ["end".toList, "else".toList], word.all Char.isLower := by decide
  rw [closesClause, List.any_eq_true]
  refine exists_congr fun word => and_congr_right fun hmem => ?_
  rw [Bool.and_eq_true, Bool.not_eq_true']
  refine and_congr_right fun hstarts => ?_
  rw [wordLength_of_startsWithWord (hlower word hmem) hstarts, Nat.add_eq_left,
    wordLength_eq_zero_iff, Bool.not_eq_true]

theorem startsWithWord_append_of_le : ∀ {x word : List Char} (r : List Char),
    word.length ≤ x.length → startsWithWord (x ++ r) word = startsWithWord x word
  | x, [], r, _ => by simp [startsWithWord]
  | [], w :: word, r, h => by simp at h
  | c :: x, w :: word, r, h => by
    rw [List.cons_append, startsWithWord, startsWithWord,
      startsWithWord_append_of_le r (by simpa using h)]

theorem closesClause_replace {x r r' : List Char} (hle : wordLength (x ++ r) ≤ x.length)
    (heq : wordLength (x ++ r') = wordLength (x ++ r)) :
    closesClause (x ++ r') = closesClause (x ++ r) := by
  rw [Bool.eq_iff_iff, closesClause_iff, closesClause_iff]
  refine exists_congr fun word => and_congr_right fun _ => ?_
  rw [heq]
  refine and_congr_left fun hword => ?_
  rw [startsWithWord_append_of_le r' (by omega), startsWithWord_append_of_le r (by omega)]

/-! ## Labels -/

theorem startsUnit_of_closesClause {cs : List Char} (h : closesClause cs) : startsUnit cs := by
  obtain ⟨word, hmem, -, hlength⟩ := closesClause_iff.1 h
  have hpos : ∀ word ∈ ["end".toList, "else".toList], word.length ≠ 0 := by decide
  by_contra hnot
  exact hpos word hmem (hlength.symm.trans (wordLength_eq_zero_iff.2 hnot))

theorem not_startsUnit_of_gap {cs : List Char} (h : gapLength cs ≠ 0) : ¬startsUnit cs := by
  rcases cs with _ | ⟨c, rest⟩
  · exact absurd rfl h
  · rw [gapLength_cons] at h
    have hc : isBlank c := by
      by_contra hnot
      simp [hnot] at h
    simp only [isBlank, Bool.or_eq_true, decide_eq_true_eq] at hc
    rcases hc with (rfl | rfl) | rfl <;> simp [startsUnit_cons, isBlank]

/-- After a gap a label goes on here with a word. -/
def WordAhead (cs : List Char) : Prop :=
  gapLength cs ≠ 0 ∧ startsUnit (afterGap cs) ∧ ¬closesClause (afterGap cs)

theorem startsOperator_cons {c : Char} {cs : List Char} :
    startsOperator (c :: cs) ↔ (c = '<' ∨ c = '>') ∧ WordAhead cs := by
  simp [startsOperator, WordAhead, and_assoc]

theorem not_startsUnit_of_startsOperator {cs : List Char} (h : startsOperator cs) :
    ¬startsUnit cs := by
  rcases cs with _ | ⟨c, rest⟩
  · cases h
  · rcases (startsOperator_cons.1 h).1 with rfl | rfl <;>
      simp [startsUnit_cons, isBlank, isStructural]

theorem labelTail_of_wordAhead (operators : Bool) {cs : List Char} (h : WordAhead cs) :
    labelTail operators cs = gapLength cs + wordLength (afterGap cs) +
      labelTail operators ((afterGap cs).drop (wordLength (afterGap cs))) := by
  obtain ⟨hgap, hunit, hcloses⟩ := h
  rw [labelTail]
  simp only [hgap, hunit, hcloses, Bool.false_eq_true, if_true, if_false]

theorem labelTail_of_operator {operators : Bool} {cs : List Char} (hgap : gapLength cs ≠ 0)
    (hoperators : operators = true) (h : startsOperator (afterGap cs)) :
    labelTail operators cs = gapLength cs + 1 + labelTail operators ((afterGap cs).drop 1) := by
  have hunit := not_startsUnit_of_startsOperator h
  have hcloses : ¬closesClause (afterGap cs) := fun hc => hunit (startsUnit_of_closesClause hc)
  rw [labelTail]
  simp only [hgap, hunit, hcloses, hoperators, h, Bool.and_self, Bool.false_eq_true, if_true,
    if_false]

/-- A label adds to a word a gap and another word, or a gap and an operator, or nothing. -/
theorem labelTail_cases (operators : Bool) (cs : List Char) :
    WordAhead cs ∨ (gapLength cs ≠ 0 ∧ operators = true ∧ startsOperator (afterGap cs)) ∨
      labelTail operators cs = 0 := by
  rw [labelTail]
  by_cases hgap : gapLength cs = 0
  · simp [hgap]
  by_cases hcloses : closesClause (afterGap cs)
  · simp [hcloses]
  by_cases hunit : startsUnit (afterGap cs)
  · exact .inl ⟨hgap, hunit, hcloses⟩
  by_cases hop : operators && startsOperator (afterGap cs)
  · exact .inr (.inl ⟨hgap, Bool.and_eq_true_iff.1 hop⟩)
  · simp [hcloses, hunit, hop]

theorem labelTail_eq_zero_iff {operators : Bool} {cs : List Char} :
    labelTail operators cs = 0 ↔ ¬WordAhead cs ∧
      ¬(gapLength cs ≠ 0 ∧ operators = true ∧ startsOperator (afterGap cs)) := by
  constructor
  · intro hzero
    refine ⟨fun h => ?_, ?_⟩
    · have := h.1
      rw [labelTail_of_wordAhead operators h] at hzero
      omega
    · rintro ⟨hgap, hoperators, h⟩
      rw [labelTail_of_operator hgap hoperators h] at hzero
      omega
  · rintro ⟨hword, hop⟩
    rcases labelTail_cases operators cs with h | h | h
    · exact absurd h hword
    · exact absurd h hop
    · exact h

theorem gapLength_ne_zero_of_labelTail (operators : Bool) {cs : List Char}
    (h : labelTail operators cs ≠ 0) : gapLength cs ≠ 0 := by
  intro hzero
  rw [labelTail] at h
  simp [hzero] at h

/-- A gap that ends before `r` is the same whatever follows. -/
theorem afterGap_replace {x r : List Char} (h : gapLength (x ++ r) < x.length) :
    ∃ y, y ≠ [] ∧ x.length = gapLength (x ++ r) + y.length ∧
      ∀ r', gapLength (x ++ r') = gapLength (x ++ r) ∧ afterGap (x ++ r') = y ++ r' := by
  have hgap : gapLength (x ++ r) = gapLength x := by
    rw [gapLength, takeWhile_append_of_length_le (by exact h.le), gapLength]
  rw [hgap] at h ⊢
  have hall : ∀ r', gapLength (x ++ r') = gapLength x := by
    intro r'
    rw [gapLength, List.takeWhile_append, if_neg (by exact h.ne), gapLength]
  refine ⟨x.drop (gapLength x), ?_, by rw [List.length_drop]; omega, fun r' => ⟨hall r', ?_⟩⟩
  · rw [Ne, List.drop_eq_nil_iff]
    omega
  · rw [afterGap_eq_drop, hall, List.drop_append_of_le_length h.le]

/-! ## One text for another -/

/-- Does `until` come next, after spaces and tabs? -/
def untilAhead (cs : List Char) : Bool :=
  let gap := (cs.takeWhile fun c => c = ' ' || c = '\t').length
  gap ≠ 0 && startsWithWord (cs.drop gap) "until".toList

/-- Behind a token `r'` may stand for `r`: it takes up no label that `r` does not take up, nothing
in it prolongs a label, a `repeat`, a colour or a name unless something in `r` does, and it does
not part the last character from its label. -/
structure Replaces (operators : Bool) (r r' : List Char) : Prop where
  unit : startsUnit r' → startsUnit r
  joint : ∀ c, c ≠ '\\' → startsUnit (c :: r) → startsUnit (c :: r')
  tail : labelTail operators r = 0 → labelTail operators r' = 0
  repeats : untilAhead r' → untilAhead r
  color : (r'.takeWhile isHexDigit).length ≤ (r.takeWhile isHexDigit).length
  name : (r'.takeWhile fun c => c.isAlphanum || c = '_').length ≤
    (r.takeWhile fun c => c.isAlphanum || c = '_').length

section Replaces

variable {operators : Bool} {r r' : List Char} (h : Replaces operators r r')

include h

theorem Replaces.joint_append (z : List Char) {c : Char} (hc : c ≠ '\\')
    (hstart : startsUnit (c :: (z ++ r))) : startsUnit (c :: (z ++ r')) := by
  rcases z with _ | ⟨d, z⟩
  · exact h.joint c hc hstart
  · rwa [startsUnit_congr hc (r := d :: z ++ r') (s := d :: z ++ r) rfl]

/-- A word in front of `r`, with what a label adds to it, is the same in front of `r'`, if the
latter is. -/
theorem word_replace (hr : ¬startsUnit r) {y : List Char}
    (hy : wordLength (y ++ r) + labelTail operators ((y ++ r).drop (wordLength (y ++ r))) =
      y.length)
    (ih : ∀ z, z.length ≤ y.length → labelTail operators (z ++ r) = z.length →
      labelTail operators (z ++ r') = z.length) :
    wordLength (y ++ r') = wordLength (y ++ r) ∧
      wordLength (y ++ r') + labelTail operators ((y ++ r').drop (wordLength (y ++ r'))) =
        y.length := by
  obtain ⟨v, z, rfl, hv⟩ : ∃ v z, y = v ++ z ∧ wordLength (y ++ r) = v.length :=
    ⟨_, _, (List.take_append_drop (wordLength (y ++ r)) y).symm, by simp; omega⟩
  rw [hv, List.append_assoc, List.drop_left, List.length_append] at hy
  rw [List.length_append] at ih ⊢
  have hz : labelTail operators (z ++ r') = z.length := ih z (by omega) (by omega)
  have hstop : ¬startsUnit (z ++ r') := by
    by_cases hnil : z = []
    · subst hnil
      exact fun hs => hr (h.unit hs)
    · refine not_startsUnit_of_gap (gapLength_ne_zero_of_labelTail operators ?_)
      rw [hz]
      exact (List.length_pos_iff.2 hnil).ne'
  have hv' : wordLength (v ++ z ++ r') = v.length := by
    rw [List.append_assoc] at hv ⊢
    exact wordLength_replace (fun c hc => h.joint_append z hc) hstop v hv
  refine ⟨hv'.trans hv.symm, ?_⟩
  rw [hv', List.append_assoc, List.drop_left, hz]

/-- A label that goes on with a word in front of `r` does so in front of `r'`. -/
theorem wordAhead_replace (hr : ¬startsUnit r) {x : List Char} (hword : WordAhead (x ++ r))
    (htail : labelTail operators (x ++ r) = x.length)
    (ih : ∀ z, z.length < x.length → labelTail operators (z ++ r) = z.length →
      labelTail operators (z ++ r') = z.length) :
    WordAhead (x ++ r') ∧ labelTail operators (x ++ r') = x.length := by
  rw [labelTail_of_wordAhead operators hword] at htail
  obtain ⟨hgap, hunit, hcloses⟩ := hword
  have hpos := wordLength_pos hunit
  obtain ⟨y, -, hlen, hall⟩ := afterGap_replace (x := x) (r := r) (by omega)
  rw [(hall r).2] at htail hcloses hpos
  obtain ⟨heq, hy⟩ := word_replace h hr (y := y) (by omega) fun z hz => ih z (by omega)
  have hahead : WordAhead (x ++ r') := by
    refine ⟨(hall r').1 ▸ hgap, ?_, ?_⟩ <;> rw [(hall r').2]
    · by_contra hnot
      rw [← wordLength_eq_zero_iff] at hnot
      omega
    · rwa [closesClause_replace (by omega) heq]
  refine ⟨hahead, ?_⟩
  rw [labelTail_of_wordAhead operators hahead, (hall r').1, (hall r').2]
  omega

/-- What a label adds to a word in front of `r`, it adds in front of `r'`. -/
theorem labelTail_replace (hr : ¬startsUnit r) (x : List Char)
    (htail : labelTail operators (x ++ r) = x.length) :
    labelTail operators (x ++ r') = x.length ∧
      (x ≠ [] → WordAhead (x ++ r) → WordAhead (x ++ r')) := by
  by_cases hx : x = []
  · subst hx
    exact ⟨h.tail htail, fun hne => absurd rfl hne⟩
  have hpos := List.length_pos_iff.2 hx
  rcases labelTail_cases operators (x ++ r) with hword | ⟨hgap, hallowed, hop⟩ | hzero
  · have hboth := wordAhead_replace h hr hword htail fun z hz hzr =>
      (labelTail_replace hr z hzr).1
    exact ⟨hboth.2, fun _ _ => hboth.1⟩
  · have hunit := not_startsUnit_of_startsOperator hop
    rw [labelTail_of_operator hgap hallowed hop] at htail
    obtain ⟨y, hy, hlen, hall⟩ := afterGap_replace (x := x) (r := r) (by omega)
    obtain ⟨c, z, rfl⟩ := List.exists_cons_of_ne_nil hy
    rw [(hall r).2, List.cons_append] at htail hop
    rw [List.drop_one, List.tail_cons] at htail
    rw [List.length_cons] at hlen
    -- behind an operator a word follows, so that `z` is not empty
    obtain ⟨hc, hahead⟩ := startsOperator_cons.1 hop
    have hne := labelTail_ne_zero_of_startsOperator operators hop
    have hz : z ≠ [] := List.length_pos_iff.1 (by omega)
    have hlt : z.length < x.length := by omega
    obtain ⟨hzr, hzahead⟩ := labelTail_replace hr z (by omega)
    have hop' : startsOperator (afterGap (x ++ r')) := by
      rw [(hall r').2]
      exact startsOperator_cons.2 ⟨hc, hzahead hz hahead⟩
    refine ⟨?_, fun _ hword => absurd hword.2.1 hunit⟩
    rw [labelTail_of_operator ((hall r').1 ▸ hgap) hallowed hop', (hall r').1, (hall r').2,
      List.cons_append, List.drop_one, List.tail_cons, hzr]
    omega
  · omega
termination_by x.length

omit h in
theorem not_startsUnit_drop_labelTail {cs : List Char} (hcs : ¬startsUnit cs) :
    ¬startsUnit (cs.drop (labelTail operators cs)) := by
  fun_induction labelTail operators cs with
  | case1 | case2 | case5 => exact hcs
  | case3 cs next hgap hcloses hunit ih =>
    rw [Nat.add_assoc, ← List.drop_drop, ← afterGap_eq_drop, ← List.drop_drop]
    exact ih (not_startsUnit_drop_wordLength next)
  | case4 cs next hgap hcloses hunit hop ih =>
    obtain ⟨-, hspaced⟩ := startsOperator_gap (Bool.and_eq_true_iff.1 hop).2
    rw [Nat.add_assoc, ← List.drop_drop, ← afterGap_eq_drop, ← List.drop_drop]
    exact ih (not_startsUnit_of_gap hspaced)

omit h in
/-- No label text begins where a label ends. -/
theorem not_startsUnit_drop_labelLength {cs : List Char} {n : Nat}
    (hn : labelLength operators cs = some n) : ¬startsUnit (cs.drop n) := by
  unfold labelLength at hn
  split at hn
  · cases hn
    rw [← List.drop_drop]
    exact not_startsUnit_drop_labelTail (not_startsUnit_drop_wordLength cs)
  · cases hn

theorem labelLength_replace {x : List Char} (hx : labelLength operators (x ++ r) = some x.length) :
    labelLength operators (x ++ r') = some x.length := by
  have hr : ¬startsUnit r := by simpa using not_startsUnit_drop_labelLength hx
  unfold labelLength at hx ⊢
  split at hx
  · next hunit =>
    have hpos := wordLength_pos hunit
    obtain ⟨heq, hall⟩ := word_replace h hr (Option.some.inj hx) fun z _ hz =>
      (labelTail_replace h hr z hz).1
    have hunit' : startsUnit (x ++ r') := by
      by_contra hnot
      rw [← wordLength_eq_zero_iff] at hnot
      omega
    rw [if_pos hunit']
    exact congrArg some hall
  · cases hx

end Replaces

end BlockNotation
