import BlockNotation.Proofs.Token.Spelling

/-!
# Comparison operators in labels

Reading a source counts the angle brackets that are open, and only inside of one may a label hold
a `<` or `>` that is not escaped. Such an operator stands between blanks (`spaced_labelLength`).

How many brackets are open at a stand is the count of the brackets among the tokens taken so far
(`Stand.Reaches.depth_eq`).
-/

namespace BlockNotation

/-- Does a text end with a backslash that escapes whatever comes next? -/
def escapesNext : List Char → Bool
  | [] => false
  | ['\\'] => true
  | '\\' :: _ :: rest => escapesNext rest
  | _ :: rest => escapesNext rest

/-- Operators are allowed, and both neighbours of one are blanks. -/
structure Spacing (operators : Bool) (prev next : Option Char) : Prop where
  allowed : operators = true
  before : prev.any isBlank = true
  after : next.any isBlank = true

/-- Every `<` and `>` of a text that is not escaped is an operator between blanks; `prev` is the
character before the text. -/
def Spaced (operators : Bool) (prev : Option Char) : List Char → Prop
  | [] => True
  | ['\\'] => True
  | '\\' :: c :: rest => Spaced operators (some c) rest
  | c :: rest =>
    (c = '<' ∨ c = '>' → Spacing operators prev rest.head?) ∧ Spaced operators (some c) rest

section Spaced

variable {operators : Bool} {prev : Option Char} {cs x : List Char}

theorem spaced_cons {c : Char} (hc : c ≠ '\\') : Spaced operators prev (c :: x) ↔
    (c = '<' ∨ c = '>' → Spacing operators prev x.head?) ∧ Spaced operators (some c) x := by
  rw [Spaced] <;> simp_all

theorem spaced_blanks : ∀ {gap : List Char} {prev : Option Char},
    (∀ c ∈ gap, isBlank c = true) → Spaced operators (gap.getLast?.or prev) x →
      Spaced operators prev (gap ++ x)
  | [], _, _, h => h
  | c :: gap, prev, hgap, h => by
    obtain ⟨hc, hgap⟩ := List.forall_mem_cons.1 hgap
    have hplain : c ∉ ['\\', '<', '>'] := by
      intro hmem
      simp only [List.mem_cons, List.not_mem_nil, or_false] at hmem
      rcases hmem with rfl | rfl | rfl <;> simp [isBlank] at hc
    simp only [List.mem_cons, List.not_mem_nil, or_false, not_or] at hplain
    refine (spaced_cons hplain.1).2 ⟨by simp [hplain], spaced_blanks hgap ?_⟩
    rw [List.getLast?_cons] at h
    cases hlast : gap.getLast? <;> simpa [hlast] using h

/-- A word holds no operator. -/
theorem spaced_word (hx : ∀ prev, Spaced operators prev x) (prev : Option Char) :
    Spaced operators prev (cs.take (wordLength cs) ++ x) := by
  fun_induction wordLength cs generalizing prev with
  | case1 => exact hx prev
  | case2 => exact hx prev
  | case3 c rest ih => exact ih (some c)
  | case4 c rest hone hpair hstart ih =>
    have hc : c ≠ '\\' := by
      rintro rfl
      rcases rest with _ | ⟨d, rest⟩
      · exact hone rfl rfl
      · exact hpair d rest rfl rfl
    refine (spaced_cons hc).2 ⟨?_, ih (some c)⟩
    rintro (rfl | rfl) <;> simp [startsUnit_cons, isStructural, isBlank] at hstart
  | case5 => exact hx prev

/-- A gap in front of a text changes nothing but the character before the text. -/
theorem spaced_gap (hx : Spaced operators ((cs.take (gapLength cs)).getLast?.or prev) x) :
    Spaced operators prev (cs.take (gapLength cs) ++ x) := by
  refine spaced_blanks (fun c hc => ?_) hx
  exact of_mem_take le_rfl hc

theorem getLast?_gap (h : gapLength cs ≠ 0) :
    ((cs.take (gapLength cs)).getLast?.or prev).any isBlank = true := by
  have hne : cs.take (gapLength cs) ≠ [] := by
    rw [gapLength, take_takeWhile_length]
    exact fun hnil => h (by rw [gapLength, hnil]; rfl)
  rw [List.getLast?_eq_some_getLast hne]
  exact of_mem_take le_rfl (List.getLast_mem hne)

/-- What a label adds to a word begins with a blank. -/
theorem head?_labelTail (h : labelTail operators cs ≠ 0) :
    (cs.take (labelTail operators cs)).head?.any isBlank = true := by
  have hgap : gapLength cs ≠ 0 := by
    intro hzero
    rw [labelTail] at h
    simp [hzero] at h
  rcases cs with _ | ⟨c, cs⟩
  · exact absurd rfl hgap
  · obtain ⟨n, hn⟩ := Nat.exists_eq_succ_of_ne_zero h
    rw [gapLength_cons] at hgap
    rw [hn, List.take_succ_cons]
    simpa using hgap

theorem labelTail_ne_zero_of_startsOperator (operators : Bool) {c : Char}
    (h : startsOperator (c :: cs)) : labelTail operators cs ≠ 0 := by
  simp only [startsOperator, Bool.and_eq_true, bne_iff_ne, Bool.not_eq_true'] at h
  obtain ⟨⟨⟨-, hgap⟩, hunit⟩, hcloses⟩ := h
  have hword := wordLength_pos hunit
  rw [labelTail]
  simp only [hgap, hcloses, hunit, if_false, if_true, Bool.false_eq_true]
  omega

theorem spaced_labelTail (prev : Option Char) :
    Spaced operators prev (cs.take (labelTail operators cs)) := by
  fun_induction labelTail operators cs generalizing prev with
  | case1 | case2 | case5 => simp [Spaced]
  | case3 cs next hgap hcloses hunit ih =>
    rw [Nat.add_assoc, List.take_add, ← afterGap_eq_drop, List.take_add]
    exact spaced_gap (spaced_word ih _)
  | case4 cs next hgap hcloses hunit hop ih =>
    rw [Nat.add_assoc, List.take_add, ← afterGap_eq_drop, Nat.add_comm 1]
    refine spaced_gap ?_
    change Spaced operators _ (next.take _)
    rcases hnext : next with _ | ⟨c, rest⟩
    · exact trivial
    · rw [hnext, Bool.and_eq_true] at hop
      rw [hnext] at ih
      have hc : c ≠ '\\' := by
        rintro rfl
        simp [startsOperator] at hop
      have htail := labelTail_ne_zero_of_startsOperator operators hop.2
      refine (spaced_cons hc).2 ⟨fun _ => ⟨hop.1, getLast?_gap hgap, ?_⟩, ih _⟩
      exact head?_labelTail htail

/-- In a label, operators stand between blanks, and none stands where they are not allowed. -/
theorem spaced_labelLength {n : Nat} (h : labelLength operators cs = some n) :
    Spaced operators none (cs.take n) := by
  unfold labelLength at h
  split at h
  · cases h
    rw [List.take_add]
    exact spaced_word spaced_labelTail none
  · cases h

/-- What `Spaced` says of one character. -/
theorem Spaced.at {l r : List Char} {c : Char} (h : Spaced operators prev (l ++ c :: r))
    (hl : escapesNext l = false) (hc : c = '<' ∨ c = '>') :
    Spacing operators (l.getLast?.or prev) r.head? := by
  fun_induction escapesNext l generalizing prev with
  | case1 =>
    rw [List.nil_append, spaced_cons (by rintro rfl; simp at hc)] at h
    exact h.1 hc
  | case2 => cases hl
  | case3 d rest ih =>
    have hrest := ih h hl
    cases hlast : rest.getLast? <;> simpa [List.getLast?_cons, hlast] using hrest
  | case4 d rest hone hpair ih =>
    have hd : d ≠ '\\' := by
      rintro rfl
      rcases rest with _ | ⟨e, rest⟩
      · exact hone rfl rfl
      · exact hpair e rest rfl rfl
    rw [List.cons_append, spaced_cons hd] at h
    have hrest := ih h.2 hl
    cases hlast : rest.getLast? <;> simpa [List.getLast?_cons, hlast] using hrest

end Spaced

theorem keywordAt_ne_label {cs : List Char} {k : Kind} {n : Nat} (h : keywordAt cs = some (k, n)) :
    k ≠ .label := by
  obtain ⟨⟨k', spelling⟩, hmem, hs⟩ := List.exists_of_findSome?_eq_some h
  simp only [Option.map_eq_some_iff, Prod.mk.injEq] at hs
  obtain ⟨m, -, rfl, -⟩ := hs
  have hkinds : ∀ x ∈ keywordSpellings, x.1 ≠ .label := by simp [keywordSpellings]
  exact hkinds _ hmem

theorem markLexeme_ne_label {cs : List Char} {k : Kind} {n : Nat}
    (h : markLexeme cs = some (k, n)) : k ≠ .label := by
  rintro rfl
  unfold markLexeme at h
  split at h
  case h_9 =>
    unfold bracketLexeme at h
    split at h <;> cases h
  all_goals simp at h

/-- A label is as long as the longest label text at its point. -/
theorem labelLength_of_lexeme {operators : Bool} {cs : List Char} {n : Nat}
    (h : lexeme operators cs = some (.label, n)) : labelLength operators cs = some n := by
  by_cases hstart : startsUnit cs
  · rw [lexeme_of_startsUnit hstart] at h
    exact (wordLexeme_cases h).resolve_right fun hk => keywordAt_ne_label hk.1 rfl
  · rw [lexeme_of_not_startsUnit hstart] at h
    exact absurd rfl (markLexeme_ne_label h)

/-! ## Open brackets -/

namespace Stand

/-- The stand at the beginning of a source. -/
def ofSource (source : String) : Stand := ⟨0, .origin, source.toList⟩

/-- The token `t` is the next to be taken, and nothing is skipped before it. -/
structure Takes (s : Stand) (t : Token) : Prop where
  trivia : triviaLength s.rest = none
  token : ∃ n, lexeme (s.depth ≠ 0) s.rest = some (t.kind, n) ∧
    t = .ofText t.kind s.place (s.rest.take n)

theorem Reaches.depth_eq {s s' : Stand} {ts : List Token} (h : Reaches s ts s') :
    s'.depth = (ts.map Token.kind).foldl angleDepth s.depth := by
  induction h with
  | here => rfl
  | skip _ _ ih => exact ih
  | take _ _ _ ih => exact ih

/-- Reading comes to stand in front of every token of a source. -/
theorem exists_takes {depth : Nat} {place : Place} {cs : List Char} {before after : List Token}
    {t : Token} (h : tokensFrom depth place cs = .ok (before ++ t :: after)) :
    ∃ s, Reaches ⟨depth, place, cs⟩ before s ∧ s.Takes t := by
  fun_induction tokensFrom depth place cs generalizing before with
  | case1 => simp at h
  | case2 depth place cs hne n hn ih =>
    obtain ⟨s, hs, htakes⟩ := ih h
    exact ⟨s, .skip hn hs, htakes⟩
  | case3 => cases h
  | case4 depth place cs hne hn k n hk ih =>
    cases hrun : tokensFrom (angleDepth depth k) (place.after (cs.take n)) (cs.drop n) with
    | error e => rw [hrun] at h; cases h
    | ok later =>
      rw [hrun] at h
      simp only [Except.map, Except.ok.injEq] at h
      rcases before with _ | ⟨u, before⟩
      · obtain ⟨rfl, -⟩ := List.cons.inj h
        exact ⟨_, .here, hn, n, hk, rfl⟩
      · obtain ⟨rfl, hlater⟩ := List.cons.inj h
        obtain ⟨s, hs, htakes⟩ := ih (hlater ▸ hrun)
        exact ⟨s, .take hn hk hs, htakes⟩

/-- Reading comes to the end of a source behind its last token. -/
theorem exists_end {depth : Nat} {place : Place} {cs : List Char} {ts : List Token}
    (h : tokensFrom depth place cs = .ok ts) :
    ∃ s, Reaches ⟨depth, place, cs⟩ ts s ∧ s.rest = [] := by
  fun_induction tokensFrom depth place cs generalizing ts with
  | case1 =>
    cases h
    exact ⟨_, .here, rfl⟩
  | case2 depth place cs hne n hn ih =>
    obtain ⟨s, hs, hend⟩ := ih h
    exact ⟨s, .skip hn hs, hend⟩
  | case3 => cases h
  | case4 depth place cs hne hn k n hk ih =>
    cases hrun : tokensFrom (angleDepth depth k) (place.after (cs.take n)) (cs.drop n) with
    | error e => rw [hrun] at h; cases h
    | ok later =>
      rw [hrun] at h
      cases h
      obtain ⟨s, hs, hend⟩ := ih hrun
      exact ⟨s, .take hn hk hs, hend⟩

/-- Outside of angle brackets, a label holds no `<` or `>` that is not escaped, and inside of them
it holds none without blanks around. -/
theorem Takes.spaced {s : Stand} {t : Token} (h : s.Takes t) (ht : t.kind = .label) :
    Spaced (s.depth ≠ 0) none t.text.toList := by
  obtain ⟨n, hn, htext⟩ := h.token
  rw [ht] at hn
  rw [htext, Token.ofText, String.toList_ofList]
  exact spaced_labelLength (labelLength_of_lexeme hn)

end Stand

end BlockNotation
