import BlockNotation.Proofs.Token.Spelling

/-!
# What stands right before a point where reading stands

Two characters read differently with what follows them: a backslash, which escapes the next
character, and a slash, which may open a comment with it. When reading has come to stand at a text
that no label takes up, neither stands right before that point, unless it is itself escaped or
closes a comment (`Stand.Reaches.settled`). So whether label text begins anywhere before the point,
behind a blank or a letter, does not depend on what follows the point.
-/

namespace BlockNotation

/-- A text that no label, number, word or gap before it can take up. -/
structure Stops (rem : List Char) : Prop where
  unit : ¬startsUnit rem
  head : ∀ c ∈ rem.head?, c ∉ [' ', '\t', '\r', '\n', ':', '<', '>']

theorem Unreadable.stops {cs : List Char} (h : Unreadable cs) : Stops cs :=
  ⟨h.not_startsUnit, by cases h <;> simp⟩

/-- Whether the character begins a label unit depends on `rem` behind it. -/
def Joins (c : Char) (rem : List Char) : Prop := startsUnit (c :: rem) ≠ startsUnit [c]

namespace Stops

variable {rem : List Char} (hrem : Stops rem)

include hrem

/-- What holds of no character that breaks a word does not hold of the first one of `rem`. -/
theorem head_eq_false {p : Char → Bool}
    (hp : (unitBreakers.all fun c =>
      [' ', '\t', '\r', '\n', ':', '<', '>'].contains c || !p c) = true) :
    ∀ c ∈ rem.head?, p c = false := by
  intro c hc
  have hor := List.all_eq_true.1 hp c (mem_unitBreakers hrem.unit c hc)
  have hnot := hrem.head c hc
  simp_all

theorem not_blank : ∀ c ∈ rem.head?, isBlank c = false := hrem.head_eq_false (by decide)

theorem joins_cases {c : Char} (h : Joins c rem) :
    c = '\\' ∧ rem ≠ [] ∨ c = '/' ∧ rem.head? = some '/' := by
  have hcolon : rem.head? ≠ some ':' := fun hc => hrem.head _ hc (by decide)
  have hstar : rem.head? ≠ some '*' := fun hc =>
    absurd (mem_unitBreakers hrem.unit _ hc) (by decide)
  by_contra hnot
  rw [not_or] at hnot
  refine h ?_
  rw [startsUnit_cons, startsUnit_cons, opensComment_cons, opensComment_cons]
  by_cases hc : c = '/'
  · simp_all
  · split <;> simp_all

theorem startsUnit_append {y : List Char} (hy : ∀ c, y = [c] → ¬Joins c rem) :
    startsUnit (y ++ rem) = startsUnit y := by
  rcases y with _ | ⟨c, _ | ⟨d, y⟩⟩
  · simpa [startsUnit, unitLength] using hrem.unit
  · exact not_not.1 (hy c rfl)
  · simp [startsUnit_cons, opensComment_cons]

section Joins

variable {c : Char} (hc : Joins c rem)

include hc

theorem wordLength_joins : wordLength (c :: rem) ≠ 1 := by
  rcases hrem.joins_cases hc with ⟨rfl, hne⟩ | ⟨rfl, hhead⟩
  · rcases rem with _ | ⟨d, rest⟩
    · exact absurd rfl hne
    · simp [wordLength]
  · obtain ⟨rest, rfl⟩ := List.head?_eq_some_iff.1 hhead
    simp [wordLength, startsUnit_cons, opensComment_cons]

/-- No word ends with a character that depends on what follows. -/
theorem wordLength_ne : ∀ z, ¬['\\'] <:+ z → wordLength (z ++ c :: rem) ≠ z.length + 1
  | [], _ => hrem.wordLength_joins hc
  | [a], hz => by
    have ha : a ≠ '\\' := by rintro rfl; exact hz List.suffix_rfl
    have hlast := hrem.wordLength_joins hc
    rw [List.cons_append, wordLength_cons ha, List.length_singleton]
    split <;> simp_all
  | a :: d :: z, hz => by
    by_cases ha : a = '\\'
    · subst ha
      have ih := wordLength_ne z fun h => hz (h.trans ⟨['\\', d], rfl⟩)
      simp only [List.cons_append, wordLength, List.length_cons]
      omega
    · have ih := wordLength_ne (d :: z) fun h => hz (h.trans ⟨[a], rfl⟩)
      rw [List.cons_append, wordLength_cons ha, List.length_cons]
      split <;> omega

theorem blank_joins : isBlank c = false := by
  rcases hrem.joins_cases hc with ⟨rfl, -⟩ | ⟨rfl, -⟩ <;> rfl

theorem startsOperator_joins : startsOperator (c :: rem) = false := by
  rcases hrem.joins_cases hc with ⟨rfl, -⟩ | ⟨rfl, -⟩ <;> simp [startsOperator]

/-- A word with what a label adds to it does not end so either, if the latter does not. -/
theorem word_add_tail_ne {operators : Bool} {z : List Char} (hz : ¬['\\'] <:+ z)
    (htail : ∀ y, y <:+ z → labelTail operators (y ++ c :: rem) ≠ y.length + 1) :
    wordLength (z ++ c :: rem) +
      labelTail operators ((z ++ c :: rem).drop (wordLength (z ++ c :: rem))) ≠ z.length + 1 := by
  have hword := hrem.wordLength_ne hc z hz
  intro h
  have hle : wordLength (z ++ c :: rem) ≤ z.length := by omega
  have hne := htail _ (List.drop_suffix (wordLength (z ++ c :: rem)) z)
  rw [List.drop_append_of_le_length hle] at h
  rw [List.length_drop] at hne
  omega

theorem labelTail_ne (operators : Bool) (z : List Char) (hz : ¬['\\'] <:+ z) :
    labelTail operators (z ++ c :: rem) ≠ z.length + 1 := by
  have hgap := gapLength_add_length_afterGap z
  have hblank : ∀ d ∈ (c :: rem).head?, isBlank d = false := by
    rintro d ⟨⟩
    exact hrem.blank_joins hc
  have ih : ∀ y, y <:+ afterGap z → gapLength z ≠ 0 →
      labelTail operators (y ++ c :: rem) ≠ y.length + 1 := by
    intro y hy hne
    have := hy.length_le
    exact labelTail_ne operators y fun h => hz (h.trans (hy.trans (afterGap_suffix z)))
  rw [labelTail]
  simp only [gapLength_append hblank, afterGap_append hblank]
  split
  · omega
  next hne =>
  split
  · omega
  split
  · have hword := hrem.word_add_tail_ne hc (fun h => hz (h.trans (afterGap_suffix z)))
      fun y hy => ih y hy hne
    omega
  split
  · next hop =>
    rcases hnext : afterGap z with _ | ⟨a, y⟩
    · rw [hnext, List.nil_append, hrem.startsOperator_joins hc] at hop
      simp at hop
    · have htail := ih y (hnext ▸ List.suffix_cons a y) hne
      rw [hnext, List.length_cons] at hgap
      rw [List.cons_append, List.drop_one, List.tail_cons]
      omega
  · omega
termination_by z.length

theorem labelLength_ne (operators : Bool) {z : List Char} (hz : ¬['\\'] <:+ z) :
    labelLength operators (z ++ c :: rem) ≠ some (z.length + 1) := by
  unfold labelLength
  split
  · have hword := hrem.word_add_tail_ne hc hz
      fun y hy => hrem.labelTail_ne hc operators y fun h => hz (h.trans hy)
    simpa using hword
  · simp

end Joins

end Stops

/-! ## Settled texts -/

/-- A character right before `rem` that depends on `rem` is escaped or ends a comment. -/
def Settled (rem x : List Char) : Prop :=
  ∀ z c, x = z ++ [c] → Joins c rem → ['\\'] <:+ z ∨ ['*'] <:+ z

theorem take_length_add_one (z : List Char) (c : Char) (rem : List Char) :
    (z ++ c :: rem).take (z.length + 1) = z ++ [c] := by
  rw [List.append_cons, List.take_left' (by simp)]

section Ends

variable {rem z : List Char} {c : Char} {n : Nat} (hrem : Stops rem) (hc : Joins c rem)

include hrem hc

theorem ne_nil_of_joins : rem ≠ [] := by
  rcases hrem.joins_cases hc with ⟨-, hne⟩ | ⟨-, hhead⟩
  · exact hne
  · rintro rfl
    cases hhead

theorem triviaLength_joins (h : triviaLength (z ++ c :: rem) = some (z.length + 1)) :
    ['*'] <:+ z := by
  have htrivia := triviaLength_take h
  rw [take_length_add_one] at htrivia
  generalize htext : z ++ [c] = text at htrivia
  rcases htrivia with @⟨cs, hblanks⟩ | @⟨cs, hline⟩ | @⟨cs, hblock⟩
  · have hblank := hblanks c (by simp [← htext])
    rcases hrem.joins_cases hc with ⟨rfl, -⟩ | ⟨rfl, -⟩ <;> simp at hblank
  · -- A comment to the end of the line would have taken `rem` too.
    exfalso
    obtain ⟨d, rest, rfl⟩ := List.exists_cons_of_ne_nil (ne_nil_of_joins hrem hc)
    have hd : d ≠ '\n' := fun hd => hrem.head d rfl (by simp [hd])
    have hlen := congrArg List.length htext
    rw [List.append_cons, htext] at h
    simp only [List.cons_append, triviaLength, gapLength_cons, isBlank] at h
    rw [List.takeWhile_append_of_pos
      (by simpa using fun a ha => ne_of_mem_of_not_mem ha hline)] at h
    simp [hd] at h hlen
    omega
  · have hsplit : z ++ [c] = ('/' :: '*' :: cs ++ ['*']) ++ ['/'] := by rw [htext]; simp
    rw [(List.append_inj' hsplit rfl).1]
    exact List.suffix_append ..

theorem lexeme_joins {operators : Bool} {k : Kind}
    (h : lexeme operators (z ++ c :: rem) = some (k, z.length + 1)) : ['\\'] <:+ z := by
  have htake := take_length_add_one z c rem
  have hbad : c ∈ ['\\', '/'] := by
    rcases hrem.joins_cases hc with ⟨rfl, -⟩ | ⟨rfl, -⟩ <;> decide
  by_contra hz
  by_cases hstart : startsUnit (z ++ c :: rem)
  · rw [lexeme_of_startsUnit hstart] at h
    rcases wordLexeme_cases h with h | ⟨h, -⟩
    · exact hrem.labelLength_ne hc operators hz h
    · obtain ⟨-, hchars⟩ := keywordAt_chars h
      have hnot := hchars c (by simp [htake])
      simp_all
  · rw [lexeme_of_not_startsUnit hstart] at h
    exact markLexeme_last h htake hbad

end Ends

theorem Stand.Reaches.within {s s' : Stand} {ts : List Token} {n depth : Nat}
    (later : (s.pass n depth).Reaches ts s') (hne : s'.rest ≠ []) {x : List Char}
    (hx : s.rest = x ++ s'.rest) :
    n ≤ x.length ∧ (s.pass n depth).rest = x.drop n ++ s'.rest := by
  have hle := later.length_le
  have hpos := List.length_pos_iff.2 hne
  simp only [pass, hx, List.length_drop, List.length_append] at hle
  have hn : n ≤ x.length := by omega
  exact ⟨hn, by rw [pass, hx, List.drop_append_of_le_length hn]⟩

/-- What ends with `c` before `rem` was passed by a round that ends there or by later ones. -/
theorem Stand.Reaches.last_round {s s' : Stand} {ts : List Token} {n depth : Nat}
    (later : (s.pass n depth).Reaches ts s') (hne : s'.rest ≠ []) {z : List Char} {c : Char}
    (hx : s.rest = z ++ c :: s'.rest) :
    n = z.length + 1 ∨ ∃ y, y <:+ z ∧ (s.pass n depth).rest = y ++ c :: s'.rest := by
  rw [List.append_cons] at hx
  obtain ⟨hle, hrest⟩ := later.within hne hx
  rw [List.length_append, List.length_singleton] at hle
  by_cases hn : n ≤ z.length
  · refine .inr ⟨z.drop n, List.drop_suffix .., ?_⟩
    rw [hrest, List.drop_append_of_le_length hn, ← List.append_cons]
  · exact .inl (by omega)

/-- When reading has come to stand at `rem`, what it passed is settled: no round ends with a
character that depends on what follows, unless it is the last of an escape or a comment. -/
theorem Stand.Reaches.settled {s s' : Stand} {ts : List Token} (h : s.Reaches ts s')
    (hrem : Stops s'.rest) {x : List Char} (hx : s.rest = x ++ s'.rest) : Settled s'.rest x := by
  rintro z c rfl hc
  have hne := ne_nil_of_joins hrem hc
  rw [← List.append_cons] at hx
  induction h generalizing z with
  | here =>
    have := congrArg List.length hx
    simp at this
    omega
  | skip trivia later ih =>
    rcases later.last_round hne hx with rfl | ⟨y, hy, hrest⟩
    · exact .inr (triviaLength_joins hrem hc (hx ▸ trivia))
    · exact (ih hrem y hrest hc hne).imp (·.trans hy) (·.trans hy)
  | take trivia token later ih =>
    rcases later.last_round hne hx with rfl | ⟨y, hy, hrest⟩
    · exact .inl (lexeme_joins hrem hc (hx ▸ token))
    · exact (ih hrem y hrest hc hne).imp (·.trans hy) (·.trans hy)

/-! ## Settled texts read the same on their own -/

section Settled

variable {rem y : List Char} {n : Nat} (hrem : Stops rem)

theorem Settled.drop (h : Settled rem y) (hn : ∀ d ∈ y.take n, d ≠ '\\' ∧ d ≠ '*') :
    Settled rem (y.drop n) := by
  intro w c hw hc
  have hsuffix := h (y.take n ++ w) c (by rw [List.append_assoc, ← hw, List.take_append_drop]) hc
  simp only [List.singleton_suffix_iff_getLast?_eq_some, List.getLast?_append] at hsuffix ⊢
  rcases hlast : w.getLast? with _ | d
  · rw [hlast, Option.none_or] at hsuffix
    rcases hsuffix with hd | hd
    · exact absurd rfl (hn _ (List.mem_of_getLast? hd)).1
    · exact absurd rfl (hn _ (List.mem_of_getLast? hd)).2
  · simpa [hlast] using hsuffix

theorem Settled.behind_gap (h : Settled rem y) : Settled rem (afterGap y) := by
  rw [afterGap_eq_drop]
  refine h.drop fun d hd => ?_
  have hblank : isBlank d = true := of_mem_take le_rfl hd
  constructor <;> rintro rfl <;> cases hblank

include hrem

theorem Settled.drop_of_gap (h : Settled rem y) (hgap : gapLength (y.drop n) ≠ 0) :
    Settled rem (y.drop n) := by
  intro w c hw hc
  have hsuffix := h (y.take n ++ w) c (by rw [List.append_assoc, ← hw, List.take_append_drop]) hc
  rcases w with _ | ⟨d, w⟩
  · rw [hw, List.nil_append, gapLength_cons, hrem.blank_joins hc] at hgap
    exact absurd rfl hgap
  · simpa only [List.singleton_suffix_iff_getLast?_eq_some, List.getLast?_append,
      List.getLast?_cons, Option.some_or] using hsuffix

theorem Settled.startsUnit_append (h : Settled rem y) : startsUnit (y ++ rem) = startsUnit y := by
  refine hrem.startsUnit_append fun c hc hjoins => ?_
  have hsuffix := h [] c hc hjoins
  simp at hsuffix

theorem Settled.closesClause_append (h : Settled rem y) :
    closesClause (y ++ rem) = closesClause y := by
  have hword : ∀ word ∈ ["end".toList, "else".toList],
      (startsWithWord (y ++ rem) word && !startsUnit ((y ++ rem).drop word.length)) =
        (startsWithWord y word && !startsUnit (y.drop word.length)) := by
    intro word hmem
    have hlower : word.all Char.isLower := by
      revert word
      decide
    rw [startsWithWord_append hrem.unit y hlower]
    by_cases hstarts : startsWithWord y word
    · obtain ⟨hlen, hchars⟩ := startsWithWord_chars hstarts
      have hset : Settled rem (y.drop word.length) := by
        refine h.drop fun d hd => ?_
        have hd := List.all_eq_true.1 hlower _ (hchars d hd)
        constructor <;> rintro rfl <;> cases hd
      rw [List.drop_append_of_le_length hlen, hset.startsUnit_append hrem]
    · simp [hstarts]
  rw [closesClause, closesClause, Bool.eq_iff_iff]
  simp only [List.any_eq_true]
  exact exists_congr fun word => and_congr_right fun hmem => by rw [hword word hmem]

theorem Settled.startsOperator_append (h : Settled rem y) :
    startsOperator (y ++ rem) = startsOperator y := by
  rcases y with _ | ⟨c, y⟩
  · rcases rem with _ | ⟨d, rest⟩
    · rfl
    · have hd := hrem.head d rfl
      simp_all [startsOperator]
  · simp only [List.cons_append, startsOperator, gapLength_append hrem.not_blank,
      afterGap_append hrem.not_blank]
    by_cases hgap : gapLength y = 0
    · simp [hgap]
    · have hnext : Settled rem (afterGap y) :=
        (Settled.drop_of_gap hrem (n := 1) h hgap).behind_gap
      rw [hnext.startsUnit_append hrem, hnext.closesClause_append hrem]

end Settled

end BlockNotation
