import BlockNotation.Proofs.Token.Unreadable

/-!
# The characters of tokens

Which characters a token is spelled with, and with which it ends: keywords with letters, numbers
with characters that begin label units, marks never with a slash or a backslash
(`markLexeme_last`). A number is never longer than the label at the same point
(`le_labelLength`), so every word is as long as that label or a keyword.
-/

namespace BlockNotation

theorem takeWhile_append_of_head {p : Char → Bool} {rem : List Char}
    (h : ∀ c ∈ rem.head?, p c = false) (x : List Char) :
    (x ++ rem).takeWhile p = x.takeWhile p := by
  have hnil : rem.takeWhile p = [] := by
    rcases rem with _ | ⟨c, rest⟩
    · rfl
    · simp [h c rfl]
  rw [List.takeWhile_append, hnil]
  split
  · next hall => rw [List.append_nil, ← take_takeWhile_length, hall, List.take_length]
  · rfl

theorem takeWhile_append_of_length_le {p : Char → Bool} {x rem : List Char}
    (h : ((x ++ rem).takeWhile p).length ≤ x.length) :
    (x ++ rem).takeWhile p = x.takeWhile p := by
  rw [List.takeWhile_append] at h ⊢
  split at h
  · next hall =>
    have hnil : rem.takeWhile p = [] := by simpa using h
    rw [if_pos hall, hnil, List.append_nil, ← take_takeWhile_length, hall, List.take_length]
  · next hall => rw [if_neg hall]

theorem dropWhile_eq_drop (p : Char → Bool) (cs : List Char) :
    cs.dropWhile p = cs.drop (cs.takeWhile p).length := by
  have h : (cs.takeWhile p ++ cs.dropWhile p).drop (cs.takeWhile p).length = cs.dropWhile p :=
    List.drop_left
  rw [← h, List.takeWhile_append_dropWhile]

theorem afterGap_eq_drop (cs : List Char) : afterGap cs = cs.drop (gapLength cs) :=
  dropWhile_eq_drop isBlank cs

theorem afterGap_suffix (cs : List Char) : afterGap cs <:+ cs := List.dropWhile_suffix _

section Gap

variable {rem : List Char} (h : ∀ c ∈ rem.head?, isBlank c = false)

include h

theorem gapLength_append (x : List Char) : gapLength (x ++ rem) = gapLength x := by
  rw [gapLength, takeWhile_append_of_head h, gapLength]

theorem afterGap_append (x : List Char) : afterGap (x ++ rem) = afterGap x ++ rem := by
  have := gapLength_add_length_afterGap x
  rw [afterGap_eq_drop, afterGap_eq_drop, gapLength_append h,
    List.drop_append_of_le_length (by omega)]

end Gap

theorem startsWithWord_chars : ∀ {cs word : List Char}, startsWithWord cs word →
    word.length ≤ cs.length ∧ ∀ d ∈ cs.take word.length, d.toLower ∈ word
  | cs, [], _ => by simp
  | cs, w :: word, h => by
    obtain ⟨c, rest, rfl, rfl, hrest⟩ := startsWithWord_cons h
    obtain ⟨hlen, hchars⟩ := startsWithWord_chars hrest
    simp only [List.length_cons, List.take_succ_cons, List.mem_cons]
    refine ⟨by omega, ?_⟩
    rintro d (rfl | hd)
    · exact .inl rfl
    · exact .inr (hchars d hd)

theorem repeatUntilLength_cases {cs : List Char} {n : Nat} (h : repeatUntilLength cs = some n) :
    ∃ gap, gap = ((cs.drop 6).takeWhile fun c => c = ' ' || c = '\t').length ∧ gap ≠ 0 ∧
      startsWithWord cs "repeat".toList ∧
      startsWithWord ((cs.drop 6).drop gap) "until".toList ∧ n = 6 + gap + 5 := by
  unfold repeatUntilLength at h
  split at h
  · simp only [] at h
    split at h
    · simp_all
    · cases h
  · cases h

/-- Keywords are spelled with letters, spaces and tabs. -/
theorem keywordAt_chars {cs : List Char} {k : Kind} {n : Nat} (h : keywordAt cs = some (k, n)) :
    n ≤ cs.length ∧ ∀ d ∈ cs.take n, d ∉ ['\\', '/', '*', '\n'] := by
  have hword : ∀ word ∈ "until".toList :: keywordWords, ∀ d ∈ ['\\', '/', '*', '\n'],
      d.toLower ∉ word := by simp [keywordWords]
  rcases keywordAt_spells h with ⟨word, hmem, -, hstarts, rfl⟩ | ⟨-, hn⟩
  · obtain ⟨hlen, hchars⟩ := startsWithWord_chars hstarts
    exact ⟨hlen, fun d hd hbad => hword word (.tail _ hmem) d hbad (hchars d hd)⟩
  · obtain ⟨gap, hgap, -, hrepeat, huntil, rfl⟩ := repeatUntilLength_cases hn
    obtain ⟨hlen, hchars⟩ := startsWithWord_chars hrepeat
    obtain ⟨hlen', hchars'⟩ := startsWithWord_chars huntil
    have hblank : ∀ d ∈ (cs.drop 6).take gap, d = ' ' ∨ d = '\t' := by
      rw [hgap, take_takeWhile_length]
      intro d hd
      simpa using List.all_eq_true.1 List.all_takeWhile d hd
    simp only [List.length_drop] at hlen'
    have hfive : "until".toList.length = 5 := by decide
    refine ⟨by omega, fun d hd hbad => ?_⟩
    rw [List.take_add, List.take_add, List.mem_append, List.mem_append, ← List.drop_drop] at hd
    rcases hd with (hd | hd) | hd
    · exact hword _ (by decide) d hbad (hchars d hd)
    · rcases hblank d hd with rfl | rfl <;> revert hbad <;> decide
    · exact hword _ (by decide) d hbad (hchars' d hd)

theorem wordLength_cons {c : Char} (hc : c ≠ '\\') (rest : List Char) :
    wordLength (c :: rest) = if startsUnit (c :: rest) then wordLength rest + 1 else 0 := by
  rw [wordLength] <;> simp_all

theorem le_wordLength : ∀ {n : Nat} {cs : List Char}, n ≤ cs.length →
    (∀ d ∈ cs.take n, d ∉ unitBreakers) → n ≤ wordLength cs
  | 0, _, _, _ => Nat.zero_le _
  | n + 1, [], hn, _ => by simp at hn
  | n + 1, c :: cs, hn, h => by
    have hc : c ∉ unitBreakers := h c (by simp)
    have ih : n ≤ wordLength cs := le_wordLength (by simpa using hn) fun d hd => h d (by simp [hd])
    rw [wordLength_cons (by rintro rfl; exact hc (by decide)),
      if_pos (startsUnit_of_not_mem hc cs)]
    omega

theorem digitsLength_chars (cs : List Char) :
    digitsLength cs ≤ cs.length ∧ ∀ d ∈ cs.take (digitsLength cs), d ∉ unitBreakers := by
  refine ⟨(List.takeWhile_prefix _).length_le, fun d hd hbad => ?_⟩
  rw [digitsLength, take_takeWhile_length] at hd
  have hdigit : ∀ d ∈ unitBreakers, d.isDigit = false := by simp [unitBreakers]
  simpa [hdigit d hbad] using List.all_eq_true.1 List.all_takeWhile d hd

theorem unsignedLength_chars {cs : List Char} {n : Nat} (h : unsignedLength cs = some n) :
    n ≤ cs.length ∧ ∀ d ∈ cs.take n, d ∉ unitBreakers := by
  have hwhole := digitsLength_chars cs
  unfold unsignedLength at h
  simp only [] at h
  split at h
  · cases h
  · split at h
    · next rest hdot =>
      split at h
      · cases h
        exact hwhole
      · cases h
        obtain ⟨hlen, hchars⟩ := digitsLength_chars rest
        have hsize := congrArg List.length hdot
        simp only [List.length_drop, List.length_cons] at hsize
        refine ⟨by omega, ?_⟩
        rw [Nat.add_assoc, List.take_add, hdot, Nat.add_comm 1, List.take_succ_cons,
          List.forall_mem_append, List.forall_mem_cons]
        exact ⟨hwhole.2, by decide, hchars⟩
    · cases h
      exact hwhole

theorem numberLength_chars {cs : List Char} {n : Nat} (h : numberLength cs = some n) :
    n ≤ cs.length ∧ ∀ d ∈ cs.take n, d ∉ unitBreakers := by
  unfold numberLength at h
  split at h
  · next rest =>
    obtain ⟨m, hm, rfl⟩ := Option.map_eq_some_iff.1 h
    obtain ⟨hlen, hchars⟩ := unsignedLength_chars hm
    refine ⟨by simpa using hlen, ?_⟩
    rw [List.take_succ_cons, List.forall_mem_cons]
    exact ⟨by decide, hchars⟩
  · exact unsignedLength_chars h

theorem le_labelLength (operators : Bool) {cs : List Char} {n : Nat}
    (h : numberLength cs = some n) : ∃ m, labelLength operators cs = some m ∧ n ≤ m := by
  obtain ⟨hlen, hchars⟩ := numberLength_chars h
  have hstart : startsUnit cs := startsUnit_of_numberLength (by simp [h])
  have hword := le_wordLength hlen hchars
  exact ⟨_, if_pos hstart, by omega⟩

theorem isDigit_eq_false_of_toLower {c : Char} (h : c.toLower.isLower) : c.isDigit = false := by
  by_contra hnot
  have hdigit : c.isDigit := Bool.not_eq_false _ ▸ hnot
  have hmost : c.val ≤ '9'.val := of_decide_eq_true (Bool.and_eq_true _ _ ▸ hdigit : _ ∧ _).2
  have hsame : c.toLower = c := by
    unfold Char.toLower
    exact dif_neg fun hupper => absurd (UInt32.le_trans hupper.1 hmost) (by decide)
  rw [hsame] at h
  have hleast : 'a'.val ≤ c.val := of_decide_eq_true (Bool.and_eq_true _ _ ▸ h : _ ∧ _).1
  exact absurd (UInt32.le_trans hleast hmost) (by decide)

/-- No number begins with a word. -/
theorem numberLength_of_startsWithWord {cs word : List Char}
    (hword : word.head?.any Char.isLower) (h : startsWithWord cs word) :
    numberLength cs = none := by
  obtain ⟨w, hw, hlower⟩ := (Option.any_eq_true _ _).1 hword
  obtain ⟨word, rfl⟩ := List.head?_eq_some_iff.1 hw
  obtain ⟨c, rest, rfl, rfl, -⟩ := startsWithWord_cons h
  have hdigits : digitsLength (c :: rest) = 0 := by
    rw [digitsLength, List.takeWhile_cons, isDigit_eq_false_of_toLower hlower]
    rfl
  unfold numberLength
  split
  · next heq =>
    obtain ⟨rfl, -⟩ := List.cons.inj heq
    cases hlower
  · rw [unsignedLength, hdigits]
    rfl

/-- A word takes as many characters as a label there, or it is a keyword that no label text
follows. -/
theorem wordLexeme_cases {operators : Bool} {cs : List Char} {k : Kind} {n : Nat}
    (h : wordLexeme operators cs = some (k, n)) :
    labelLength operators cs = some n ∨ keywordAt cs = some (k, n) ∧ ¬startsUnit (cs.drop n) := by
  simp only [wordLexeme, Option.orElse_eq_orElse, Option.orElse_eq_or, Option.or_eq_some_iff,
    Option.map_eq_some_iff, Prod.mk.injEq] at h
  rcases h with h | ⟨-, h | ⟨-, m, hm, -, rfl⟩⟩
  · obtain ⟨m, hm, h⟩ := Option.map_eq_some_iff.1 h
    obtain ⟨l, hl, hle⟩ := le_labelLength operators hm
    grind
  · unfold keywordLexeme at h
    split at h
    · cases h
    · next hk =>
      split at h
      · obtain ⟨m, hm, h⟩ := Option.map_eq_some_iff.1 h
        cases h
        exact .inl hm
      · next hstop =>
        cases h
        exact .inr ⟨hk, hstop⟩
  · exact .inl hm

/-! ## Words and numbers in front of a text where no label begins -/

section Stop

variable {rem : List Char} (hrem : ¬startsUnit rem)

include hrem

theorem mem_unitBreakers : ∀ c ∈ rem.head?, c ∈ unitBreakers := by
  intro c hc
  obtain ⟨rest, rfl⟩ := List.head?_eq_some_iff.1 hc
  exact not_imp_comm.1 (startsUnit_of_not_mem · rest) hrem

theorem startsWithWord_append : ∀ x {word : List Char}, word.all Char.isLower →
    startsWithWord (x ++ rem) word = startsWithWord x word
  | _, [], _ => by simp [startsWithWord]
  | [], w :: word, h => by
    rcases rem with _ | ⟨c, rest⟩
    · rfl
    · have hlower : ∀ d ∈ unitBreakers, d.toLower.isLower = false := by simp [unitBreakers]
      have hc := hlower c (mem_unitBreakers hrem c rfl)
      have hne : c.toLower ≠ w := by rintro rfl; simp [hc] at h
      simp [startsWithWord, hne]
  | c :: x, w :: word, h => by
    have hword : word.all Char.isLower := by simp_all
    simp only [List.cons_append, startsWithWord, startsWithWord_append x hword]

theorem spellingLength_append {word : String} (hword : word.toList.all Char.isLower)
    (x : List Char) : spellingLength word (x ++ rem) = spellingLength word x := by
  rw [spellingLength, startsWithWord_append hrem x hword, spellingLength]

theorem digitsLength_append (x : List Char) : digitsLength (x ++ rem) = digitsLength x := by
  have hdigit : ∀ d ∈ unitBreakers, d.isDigit = false := by simp [unitBreakers]
  rw [digitsLength, digitsLength,
    takeWhile_append_of_head fun c hc => hdigit c (mem_unitBreakers hrem c hc)]

theorem unsignedLength_append (x : List Char) : unsignedLength (x ++ rem) = unsignedLength x := by
  have hdot : rem.head? ≠ some '.' := fun h => absurd (mem_unitBreakers hrem _ h) (by decide)
  unfold unsignedLength
  simp only [digitsLength_append hrem,
    List.drop_append_of_le_length (digitsLength_chars x).1]
  rcases hrest : x.drop (digitsLength x) with _ | ⟨c, rest⟩
  · rcases rem with _ | ⟨d, rem⟩
    · rfl
    · have hd : d ≠ '.' := by simpa using hdot
      simp [hd]
  · by_cases hc : c = '.'
    · simp [hc, digitsLength_append hrem]
    · simp [hc]

theorem numberLength_append {x : List Char} (hx : x ≠ []) :
    numberLength (x ++ rem) = numberLength x := by
  rcases x with _ | ⟨c, x⟩
  · exact absurd rfl hx
  · unfold numberLength
    by_cases hc : c = '-'
    · simp [hc, unsignedLength_append hrem]
    · have := unsignedLength_append hrem (c :: x)
      simp_all

end Stop

/-! ## How marks end -/

theorem closedLength_take {close : Char} {cs : List Char} {n : Nat}
    (h : closedLength close cs = some n) : ∃ body, cs.take n = body ++ [close] := by
  fun_induction closedLength close cs generalizing n with
  | case1 => cases h
  | case2 rest =>
    cases h
    exact ⟨[], rfl⟩
  | case3 => cases h
  | case4 => cases h
  | case5 c rest _ _ ih =>
    obtain ⟨m, hm, rfl⟩ := Option.map_eq_some_iff.1 h
    obtain ⟨body, hbody⟩ := ih hm
    exact ⟨'\\' :: c :: body, by simp [hbody]⟩
  | case6 c rest _ _ ih =>
    obtain ⟨m, hm, rfl⟩ := Option.map_eq_some_iff.1 h
    obtain ⟨body, hbody⟩ := ih hm
    exact ⟨c :: body, by simp [hbody]⟩

theorem delimited_last {opening close c : Char} {rest z : List Char} {n : Nat}
    (h : closedLength close rest = some n) (htake : (opening :: rest).take (n + 1) = z ++ [c]) :
    c = close := by
  obtain ⟨body, hbody⟩ := closedLength_take h
  rw [List.take_succ_cons, hbody, ← List.cons_append] at htake
  exact (List.cons.inj (List.append_inj' htake rfl).2).1.symm

theorem of_mem_take {p : Char → Bool} {cs : List Char} {n : Nat}
    (hn : n ≤ (cs.takeWhile p).length) {d : Char} (hd : d ∈ cs.take n) : p d = true := by
  have htake : cs.take n = (cs.takeWhile p).take n := by
    rw [← take_takeWhile_length p cs, List.take_take, Nat.min_eq_left hn]
  rw [htake] at hd
  exact List.all_eq_true.1 List.all_takeWhile d (List.mem_of_mem_take hd)

theorem colorLength_chars {rest : List Char} {n : Nat} (h : colorLength ('#' :: rest) = some n)
    {d : Char} (hd : d ∈ ('#' :: rest).take n) : d = '#' ∨ isHexDigit d := by
  unfold colorLength at h
  simp only [] at h
  split at h
  · cases h
    rw [List.take_succ_cons, List.mem_cons] at hd
    exact hd.imp_right (of_mem_take (by omega))
  split at h
  · cases h
    rw [List.take_succ_cons, List.mem_cons] at hd
    exact hd.imp_right (of_mem_take (by omega))
  · cases h

theorem identifierLength_chars {rest : List Char} {n : Nat}
    (h : identifierLength ('@' :: rest) = some n) {d : Char} (hd : d ∈ ('@' :: rest).take n) :
    d = '@' ∨ (d.isAlphanum || d = '_') := by
  unfold identifierLength at h
  simp only [] at h
  split at h
  · cases h
  · cases h
    rw [List.take_succ_cons, List.mem_cons] at hd
    exact hd.imp_right (of_mem_take le_rfl)

theorem delimiterLength_chars {rest : List Char} {n : Nat}
    (h : delimiterLength (';' :: rest) = some n) {d : Char} (hd : d ∈ (';' :: rest).take n) :
    d = ';' ∨ isBlank d ∨ d = '\n' := by
  unfold delimiterLength at h
  simp only [Option.some.injEq] at h
  subst h
  split at hd
  · next hhead =>
    obtain ⟨tail, htail⟩ := List.head?_eq_some_iff.1 hhead
    rw [afterGap_eq_drop] at htail
    rw [List.take_succ_cons, List.mem_cons, List.take_add, htail, List.mem_append] at hd
    refine hd.imp_right (Or.imp (of_mem_take le_rfl) ?_)
    simp
  · exact .inl (by simpa using hd)

theorem bracketLexeme_head {cs : List Char} {k : Kind} {n : Nat}
    (h : bracketLexeme cs = some (k, n)) :
    ∃ c rest, cs = c :: rest ∧ c ∈ ['\x7b', '\x7d', '(', ')', '<', '>'] ∧ n = 1 := by
  unfold bracketLexeme at h
  split at h <;> cases h <;> exact ⟨_, _, rfl, by decide, rfl⟩

/-- No mark ends with a backslash or a slash. -/
theorem markLexeme_last {cs z : List Char} {c : Char} {k : Kind} {n : Nat}
    (h : markLexeme cs = some (k, n)) (htake : cs.take n = z ++ [c]) : c ∉ ['\\', '/'] := by
  have hmem : c ∈ cs.take n := by simp [htake]
  unfold markLexeme at h
  split at h
  case h_7 =>
    cases h
    obtain rfl : c = '\n' := by simpa using hmem
    decide
  case h_8 =>
    cases h
    obtain rfl : c = ':' := by simpa using hmem
    decide
  case h_9 =>
    obtain ⟨d, rest, rfl, hd, rfl⟩ := bracketLexeme_head h
    obtain rfl : c = d := by simpa using hmem
    have hbad : ∀ d ∈ ['\\', '/'], d ∉ ['\x7b', '\x7d', '(', ')', '<', '>'] := by simp
    exact fun hc => hbad c hc hd
  all_goals
    obtain ⟨m, hm, h⟩ := Option.map_eq_some_iff.1 h
    cases h
  case h_4 =>
    have hbad : ∀ d ∈ ['\\', '/'], ¬(d = '#' ∨ isHexDigit d) := by simp [isHexDigit]
    exact fun hc => hbad c hc (colorLength_chars hm hmem)
  case h_5 =>
    have hbad : ∀ d ∈ ['\\', '/'], ¬(d = '@' ∨ (d.isAlphanum || d = '_')) := by simp
    exact fun hc => hbad c hc (identifierLength_chars hm hmem)
  case h_6 =>
    have hbad : ∀ d ∈ ['\\', '/'], ¬(d = ';' ∨ isBlank d ∨ d = '\n') := by simp [isBlank]
    exact fun hc => hbad c hc (delimiterLength_chars hm hmem)
  all_goals simp [delimited_last hm htake]

/-! ## Tokens end inside the text -/

theorem wordLength_le (cs : List Char) : wordLength cs ≤ cs.length := by
  fun_induction wordLength cs with
  | case1 | case2 | case5 => simp
  | case3 c rest ih | case4 c rest _ _ _ ih =>
    simp only [List.length_cons]
    omega

theorem labelTail_le (operators : Bool) (cs : List Char) :
    labelTail operators cs ≤ cs.length := by
  fun_induction labelTail operators cs with
  | case1 | case2 | case5 => simp
  | case3 cs next hgap hcloses hunit ih =>
    have : gapLength cs + next.length = cs.length := gapLength_add_length_afterGap cs
    have := wordLength_le next
    rw [List.length_drop] at ih
    omega
  | case4 cs next hgap hcloses hunit hop ih =>
    have : gapLength cs + next.length = cs.length := gapLength_add_length_afterGap cs
    have : next ≠ [] := by
      intro hnil
      rw [hnil] at hop
      simp [startsOperator] at hop
    have := List.length_pos_iff.2 this
    rw [List.length_drop] at ih
    omega

theorem labelLength_le {operators : Bool} {cs : List Char} {n : Nat}
    (h : labelLength operators cs = some n) : n ≤ cs.length := by
  unfold labelLength at h
  split at h
  · cases h
    have := wordLength_le cs
    have := labelTail_le operators (cs.drop (wordLength cs))
    rw [List.length_drop] at this
    omega
  · cases h

theorem closedLength_le {close : Char} {cs : List Char} {n : Nat}
    (h : closedLength close cs = some n) : n ≤ cs.length := by
  fun_induction closedLength close cs generalizing n with
  | case1 | case3 | case4 => cases h
  | case2 rest =>
    cases h
    simp
  | case5 c rest _ _ ih | case6 c rest _ _ ih =>
    obtain ⟨m, hm, rfl⟩ := Option.map_eq_some_iff.1 h
    have := ih hm
    simp only [List.length_cons]
    omega

theorem markLexeme_le {cs : List Char} {k : Kind} {n : Nat} (h : markLexeme cs = some (k, n)) :
    n ≤ cs.length := by
  have hrun : ∀ (p : Char → Bool) (rest : List Char), (rest.takeWhile p).length ≤ rest.length :=
    fun p rest => (List.takeWhile_prefix p).length_le
  unfold markLexeme at h
  split at h
  case h_7 | h_8 =>
    cases h
    simp
  case h_9 =>
    obtain ⟨c, rest, rfl, -, rfl⟩ := bracketLexeme_head h
    simp
  all_goals
    obtain ⟨m, hm, h⟩ := Option.map_eq_some_iff.1 h
    cases h
  case h_4 rest =>
    have := hrun isHexDigit rest
    unfold colorLength at hm
    grind
  case h_5 rest =>
    have := hrun (fun c => c.isAlphanum || c = '_') rest
    unfold identifierLength at hm
    grind
  case h_6 rest =>
    simp only [delimiterLength, Option.some.injEq] at hm
    split at hm
    · next hhead =>
      have := gapLength_add_length_afterGap rest
      obtain ⟨tail, htail⟩ := List.head?_eq_some_iff.1 hhead
      rw [htail, List.length_cons] at this
      simp only [List.length_cons]
      omega
    · simp only [List.length_cons]
      omega
  all_goals simpa using closedLength_le hm

theorem lexeme_le {operators : Bool} {cs : List Char} {k : Kind} {n : Nat}
    (h : lexeme operators cs = some (k, n)) : n ≤ cs.length := by
  by_cases hstart : startsUnit cs
  · rw [lexeme_of_startsUnit hstart] at h
    rcases wordLexeme_cases h with hl | ⟨hk, -⟩
    · exact labelLength_le hl
    · exact (keywordAt_chars hk).1
  · rw [lexeme_of_not_startsUnit hstart] at h
    exact markLexeme_le h

theorem commentLength_le {cs : List Char} {n : Nat} (h : commentLength cs = some n) :
    n ≤ cs.length := by
  fun_induction commentLength cs generalizing n with
  | case1 => cases h
  | case2 rest =>
    cases h
    simp
  | case3 c rest hnot ih =>
    obtain ⟨m, hm, rfl⟩ := Option.map_eq_some_iff.1 h
    simpa using ih hm

theorem triviaLength_le {cs : List Char} {n : Nat} (h : triviaLength cs = some n) :
    n ≤ cs.length := by
  unfold triviaLength at h
  split at h
  · cases h
    exact (List.takeWhile_prefix _).length_le
  split at h
  · cases h
    simpa using (List.takeWhile_prefix _).length_le
  · obtain ⟨m, hm, rfl⟩ := Option.map_eq_some_iff.1 h
    simpa using commentLength_le hm
  · cases h

end BlockNotation
