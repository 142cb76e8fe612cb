import BlockNotation.Proofs.Token.Replacing

/-!
# Lines that end with a carriage return

A carriage return in front of a line feed is a blank like any other, so that it has no part in what
is read, unless it comes between a backslash and the line feed. Reading a text whose lines end with
`\r\n` fails where reading it with `\n` fails, and otherwise gives the same tokens, which differ at
most inside strings, choices, remarks and delimiters (`tokensFrom_crlf`).
-/

namespace BlockNotation

/-- The text with a carriage return in front of each line feed. -/
def crlf (cs : List Char) : List Char :=
  cs.flatMap fun c => if c = '\n' then ['\r', '\n'] else [c]

@[simp] theorem crlf_nil : crlf [] = [] := rfl

@[simp] theorem crlf_append (cs ds : List Char) : crlf (cs ++ ds) = crlf cs ++ crlf ds := by
  simp [crlf]

@[simp] theorem crlf_newline (cs : List Char) : crlf ('\n' :: cs) = '\r' :: '\n' :: crlf cs := by
  simp [crlf]

theorem crlf_cons {c : Char} (hc : c ≠ '\n') (cs : List Char) : crlf (c :: cs) = c :: crlf cs := by
  simp [crlf, hc]

theorem crlf_of_not_mem : ∀ {cs : List Char}, '\n' ∉ cs → crlf cs = cs
  | [], _ => rfl
  | c :: cs, h => by
    rw [List.mem_cons, not_or] at h
    rw [crlf_cons (Ne.symm h.1), crlf_of_not_mem h.2]

theorem crlf_eq_nil {cs : List Char} : crlf cs = [] ↔ cs = [] := by
  rcases cs with _ | ⟨c, cs⟩
  · simp
  · by_cases hc : c = '\n' <;> simp [hc, crlf_cons]

theorem head?_crlf {cs : List Char} {c : Char} (hr : c ≠ '\r') (hn : c ≠ '\n') :
    (crlf cs).head? = some c ↔ cs.head? = some c := by
  rcases cs with _ | ⟨d, cs⟩
  · simp
  · by_cases hd : d = '\n'
    · simp [hd, hr.symm, hn.symm]
    · simp [crlf_cons hd]

theorem head?_crlf_of_ne {cs : List Char} (h : cs.head? ≠ some '\n') :
    (crlf cs).head? = cs.head? := by
  rcases cs with _ | ⟨c, cs⟩
  · rfl
  · rw [crlf_cons (by simpa using h)]
    rfl

theorem takeWhile_crlf {p : Char → Bool} (hr : p '\r' = false) (hn : p '\n' = false)
    (cs : List Char) : (crlf cs).takeWhile p = cs.takeWhile p := by
  induction cs with
  | nil => rfl
  | cons c cs ih =>
    by_cases hc : c = '\n'
    · simp [hc, hr, hn]
    · simp [crlf_cons hc, List.takeWhile_cons, ih]

theorem drop_crlf {cs : List Char} {n : Nat} (hn : n ≤ cs.length) (h : '\n' ∉ cs.take n) :
    (crlf cs).drop n = crlf (cs.drop n) := by
  nth_rewrite 1 [← List.take_append_drop n cs]
  rw [crlf_append, crlf_of_not_mem h, List.drop_left' (by simp [hn])]

/-! ## Labels -/

theorem startsUnit_cons_crlf (c : Char) (cs : List Char) :
    startsUnit (c :: crlf cs) = startsUnit (c :: cs) := by
  have hempty : (crlf cs).isEmpty = cs.isEmpty := by
    rw [Bool.eq_iff_iff, List.isEmpty_iff, List.isEmpty_iff, crlf_eq_nil]
  simp only [startsUnit_cons, opensComment_cons, hempty,
    head?_crlf (c := ':') (by decide) (by decide), head?_crlf (c := '/') (by decide) (by decide),
    head?_crlf (c := '*') (by decide) (by decide)]

theorem startsUnit_crlf (cs : List Char) : startsUnit (crlf cs) = startsUnit cs := by
  rcases cs with _ | ⟨c, cs⟩
  · rfl
  · by_cases hc : c = '\n'
    · simp [hc, startsUnit_cons, isBlank]
    · rw [crlf_cons hc, startsUnit_cons_crlf]

theorem startsWithWord_crlf : ∀ (cs : List Char) {word : List Char}, word.all Char.isLower →
    startsWithWord (crlf cs) word = startsWithWord cs word
  | cs, [], _ => by simp [startsWithWord]
  | [], w :: word, _ => rfl
  | c :: cs, w :: word, h => by
    by_cases hc : c = '\n'
    · have hw : w ≠ '\n' ∧ w ≠ '\r' := by
        constructor <;> rintro rfl <;> simp at h
      have hr : '\r'.toLower = '\r' := rfl
      have hn : '\n'.toLower = '\n' := rfl
      simp [hc, startsWithWord, hr, hn, hw.1.symm, hw.2.symm]
    · rw [crlf_cons hc, startsWithWord, startsWithWord, startsWithWord_crlf cs (by simp_all)]

theorem newline_not_mem_of_startsWithWord {cs word : List Char} (hlower : word.all Char.isLower)
    (h : startsWithWord cs word) : '\n' ∉ cs.take word.length := by
  intro hmem
  have hn := List.all_eq_true.1 hlower _ ((startsWithWord_chars h).2 _ hmem)
  cases hn

theorem closesClause_crlf (cs : List Char) : closesClause (crlf cs) = closesClause cs := by
  have hlower : ∀ word ∈ ["end".toList, "else".toList], word.all Char.isLower := by decide
  rw [Bool.eq_iff_iff]
  simp only [closesClause, List.any_eq_true, Bool.and_eq_true, Bool.not_eq_true']
  refine exists_congr fun word => and_congr_right fun hmem => ?_
  rw [startsWithWord_crlf cs (hlower word hmem)]
  refine and_congr_right fun hstarts => ?_
  rw [drop_crlf (startsWithWord_chars hstarts).1
    (newline_not_mem_of_startsWithWord (hlower word hmem) hstarts), startsUnit_crlf]

/-- A gap in front of a line feed takes up the carriage return; any other stays as it is. -/
theorem gap_crlf : ∀ cs : List Char,
    (∃ rest, afterGap cs = '\n' :: rest ∧ afterGap (crlf cs) = '\n' :: crlf rest ∧
      gapLength (crlf cs) = gapLength cs + 1) ∨
    ((afterGap cs).head? ≠ some '\n' ∧ afterGap (crlf cs) = crlf (afterGap cs) ∧
      gapLength (crlf cs) = gapLength cs)
  | [] => .inr ⟨by simp [afterGap], rfl, rfl⟩
  | c :: cs => by
    by_cases hc : c = '\n'
    · exact .inl ⟨cs, by simp [hc, afterGap, isBlank], by simp [hc, afterGap, isBlank],
        by simp [hc, gapLength, isBlank]⟩
    by_cases hblank : isBlank c
    · have hafter : ∀ ds, afterGap (c :: ds) = afterGap ds := by simp [afterGap, hblank]
      rw [crlf_cons hc, hafter, hafter, gapLength_cons, if_pos hblank, gapLength_cons,
        if_pos hblank]
      rcases gap_crlf cs with ⟨rest, hrest, hcrlf, hlen⟩ | ⟨hhead, hcrlf, hlen⟩
      · exact .inl ⟨rest, hrest, hcrlf, by omega⟩
      · exact .inr ⟨hhead, hcrlf, by omega⟩
    · have hafter : ∀ ds, afterGap (c :: ds) = c :: ds := by simp [afterGap, hblank]
      rw [crlf_cons hc, hafter, hafter, gapLength_cons, if_neg hblank, gapLength_cons,
        if_neg hblank, crlf_cons hc]
      exact .inr ⟨by simpa using hc, rfl, rfl⟩

theorem wordAhead_crlf {cs : List Char} : WordAhead (crlf cs) ↔ WordAhead cs := by
  rcases gap_crlf cs with ⟨rest, hrest, hcrlf, hlen⟩ | ⟨-, hcrlf, hlen⟩
  · simp [WordAhead, hrest, hcrlf, startsUnit_cons, isBlank]
  · rw [WordAhead, WordAhead, hcrlf, hlen, startsUnit_crlf, closesClause_crlf]

theorem startsOperator_crlf (cs : List Char) : startsOperator (crlf cs) = startsOperator cs := by
  rcases cs with _ | ⟨c, cs⟩
  · rfl
  · by_cases hc : c = '\n'
    · simp [hc, startsOperator]
    · rw [Bool.eq_iff_iff, crlf_cons hc, startsOperator_cons, startsOperator_cons, wordAhead_crlf]

theorem labelTail_crlf {operators : Bool} {cs : List Char} (h : labelTail operators cs = 0) :
    labelTail operators (crlf cs) = 0 := by
  rw [labelTail_eq_zero_iff] at h ⊢
  rw [wordAhead_crlf]
  refine ⟨h.1, ?_⟩
  rintro ⟨hgap, hoperators, hop⟩
  rcases gap_crlf cs with ⟨rest, hrest, hcrlf, -⟩ | ⟨-, hcrlf, hlen⟩
  · simp [hcrlf, startsOperator] at hop
  · rw [hcrlf, startsOperator_crlf] at hop
    exact h.2 ⟨hlen ▸ hgap, hoperators, hop⟩

theorem untilAhead_crlf (cs : List Char) : untilAhead (crlf cs) = untilAhead cs := by
  have hle := (List.takeWhile_prefix (l := cs) fun c => c = ' ' || c = '\t').length_le
  have hgap : '\n' ∉ cs.take (cs.takeWhile fun c => c = ' ' || c = '\t').length := by
    rw [take_takeWhile_length]
    intro hmem
    have hblank := List.all_eq_true.1 List.all_takeWhile _ hmem
    simp at hblank
  simp only [untilAhead, takeWhile_crlf (p := fun c => c = ' ' || c = '\t') rfl rfl]
  rw [drop_crlf hle hgap, startsWithWord_crlf _ (by decide)]

theorem replaces_crlf (operators : Bool) (cs : List Char) : Replaces operators cs (crlf cs) where
  unit := by rw [startsUnit_crlf]; exact id
  joint := by
    intro c _ hstart
    rwa [startsUnit_cons_crlf]
  tail := labelTail_crlf
  repeats := by rw [untilAhead_crlf]; exact id
  color := by rw [takeWhile_crlf rfl rfl]
  name := by rw [takeWhile_crlf rfl rfl]

/-! ## Words hold no line feed -/

section Words

variable {cs : List Char}

/-- No line feed of the text has a backslash in front of it. -/
def NoEscapedNewline (cs : List Char) : Prop := ¬['\\', '\n'] <:+: cs

theorem NoEscapedNewline.drop (h : NoEscapedNewline cs) (n : Nat) : NoEscapedNewline (cs.drop n) :=
  fun hin => h (hin.trans (List.drop_suffix n cs).isInfix)

theorem NoEscapedNewline.tail {c : Char} (h : NoEscapedNewline (c :: cs)) : NoEscapedNewline cs :=
  h.drop 1

theorem newline_not_mem_word (h : NoEscapedNewline cs) : '\n' ∉ cs.take (wordLength cs) := by
  fun_induction wordLength cs with
  | case1 => simp
  | case2 => simp
  | case3 c rest ih =>
    have hc : c ≠ '\n' := by
      rintro rfl
      exact h ⟨[], rest, rfl⟩
    simpa [hc.symm] using ih h.tail.tail
  | case4 c rest _ _ hstart ih =>
    have hc : c ≠ '\n' := by
      rintro rfl
      simp [startsUnit_cons, isBlank] at hstart
    simpa [hc.symm] using ih h.tail
  | case5 => simp

theorem newline_not_mem_gap (cs : List Char) : '\n' ∉ cs.take (gapLength cs) := by
  intro hmem
  have hblank : isBlank '\n' = true := of_mem_take le_rfl hmem
  cases hblank

theorem newline_not_mem_labelTail {operators : Bool} (h : NoEscapedNewline cs) :
    '\n' ∉ cs.take (labelTail operators cs) := by
  fun_induction labelTail operators cs with
  | case1 | case2 | case5 => simp
  | case3 cs next hgap hcloses hunit ih =>
    have hnext : NoEscapedNewline next := by
      rw [show next = _ from afterGap_eq_drop cs]
      exact h.drop _
    rw [Nat.add_assoc, List.take_add, ← afterGap_eq_drop, List.take_add, List.mem_append,
      List.mem_append, not_or, not_or]
    exact ⟨newline_not_mem_gap cs, newline_not_mem_word hnext, ih (hnext.drop _)⟩
  | case4 cs next hgap hcloses hunit hop ih =>
    have hnext : NoEscapedNewline next := by
      rw [show next = _ from afterGap_eq_drop cs]
      exact h.drop _
    have hone : '\n' ∉ next.take 1 := by
      intro hmem
      rcases hcs : next with _ | ⟨c, rest⟩
      · simp [hcs] at hmem
      · rw [hcs] at hmem hop
        obtain rfl : '\n' = c := by simpa using hmem
        simp [startsOperator] at hop
    rw [Nat.add_assoc, List.take_add, ← afterGap_eq_drop, List.take_add, List.mem_append,
      List.mem_append, not_or, not_or]
    exact ⟨newline_not_mem_gap cs, hone, ih (hnext.drop _)⟩

theorem newline_not_mem_wordLexeme {operators : Bool} {k : Kind} {n : Nat}
    (h : NoEscapedNewline cs) (hn : wordLexeme operators cs = some (k, n)) : '\n' ∉ cs.take n := by
  rcases wordLexeme_cases hn with hl | ⟨hk, -⟩
  · unfold labelLength at hl
    split at hl
    · cases hl
      rw [List.take_add, List.mem_append, not_or]
      exact ⟨newline_not_mem_word h, newline_not_mem_labelTail (h.drop _)⟩
    · cases hl
  · intro hmem
    exact (keywordAt_chars hk).2 _ hmem (by simp)

end Words

/-! ## Texts in brackets -/

theorem closedLength_crlf {close : Char} (hclose : close ∉ ['\\', '\r', '\n']) {cs : List Char}
    (h : NoEscapedNewline cs) : closedLength close (crlf cs) =
      (closedLength close cs).map fun n => (crlf (cs.take n)).length := by
  simp only [List.mem_cons, List.not_mem_nil, or_false, not_or] at hclose
  obtain ⟨hb, hr, hn⟩ := hclose
  fun_induction closedLength close cs with
  | case1 => rfl
  | case2 rest =>
    rw [crlf_cons hn, closedLength_here]
    simp [crlf_cons hn]
  | case3 hne =>
    rw [crlf_cons (by decide), closedLength.eq_def]
    simp [hne]
  | case4 rest hne => exact absurd ⟨[], rest, rfl⟩ h
  | case5 e rest he hne ih =>
    rw [crlf_cons (by decide), crlf_cons he, closedLength_escaped hb he, ih h.tail.tail]
    simp [Function.comp_def, crlf_cons, he]
  | case6 c rest hne hplain ih =>
    by_cases hc : c = '\n'
    · rw [hc, crlf_newline, closedLength_plain (Ne.symm hr) (by decide),
        closedLength_plain (Ne.symm hn) (by decide), ih h.tail]
      simp [Function.comp_def]
    · rw [crlf_cons hc, closedLength_plain hne hplain, ih h.tail]
      simp [Function.comp_def, crlf_cons hc]

theorem commentLength_crlf (cs : List Char) : commentLength (crlf cs) =
    (commentLength cs).map fun n => (crlf (cs.take n)).length := by
  fun_induction commentLength cs with
  | case1 => rfl
  | case2 rest => simp [crlf_cons, commentLength]
  | case3 c rest hnot ih =>
    by_cases hc : c = '\n'
    · subst hc
      rw [crlf_newline]
      simp [commentLength, ih, Function.comp_def]
    · have hhead : c = '*' → (crlf rest).head? ≠ some '/' := by
        rintro rfl hslash
        rw [head?_crlf (by decide) (by decide)] at hslash
        obtain ⟨tail, rfl⟩ := List.head?_eq_some_iff.1 hslash
        exact hnot tail rfl rfl
      rw [crlf_cons hc, commentLength]
      · rw [ih]
        simp [Function.comp_def, crlf_cons hc]
      · intro tail hstar hrest
        exact hhead hstar (by rw [hrest]; rfl)

/-! ## Tokens -/

/-- The kinds of token that may hold a line feed. -/
def multiline : List Kind := [.remark, .stringLiteral, .choiceLiteral, .delimiter]

/-- The token of the text with carriage returns is the same one, but for the carriage returns in
it. -/
def LexesTo (operators : Bool) (x r : List Char) (k : Kind) : Prop :=
  lexeme operators (crlf x ++ crlf r) = some (k, (crlf x).length) ∧ (k ∉ multiline → crlf x = x)

section Token

variable {operators : Bool} {x r : List Char} {k : Kind}

theorem lexesTo_of_not_mem (hx : lexeme operators (x ++ r) = some (k, x.length))
    (hnot : '\n' ∉ x) : LexesTo operators x r k := by
  rw [LexesTo, crlf_of_not_mem hnot]
  refine ⟨lexeme_replace (replaces_crlf operators r) ?_ hx, fun _ => rfl⟩
  rintro rfl
  rw [List.singleton_append, lexeme_semicolon] at hx
  rcases gap_crlf r with ⟨rest, hrest, -⟩ | ⟨hhead, hcrlf, -⟩
  · simp [hrest] at hx
  · rwa [hcrlf, head?_crlf_of_ne hhead]

/-- A text in brackets stays one, with the carriage returns in it. -/
theorem lexesTo_closed {opening close : Char} {y : List Char} (hopening : opening ≠ '\n')
    (hclose : close ∉ ['\\', '\r', '\n'])
    (hmark : ∀ rest, lexeme operators (opening :: rest) =
      (closedLength close rest).map fun n => (k, n + 1))
    (hk : k ∈ multiline) (hesc : NoEscapedNewline (y ++ r))
    (hy : closedLength close (y ++ r) = some y.length) :
    LexesTo operators (opening :: y) r k := by
  have hlength : closedLength close (crlf y ++ crlf r) = some (crlf y).length := by
    rw [← crlf_append, closedLength_crlf hclose hesc, hy, Option.map_some, List.take_left]
  rw [LexesTo, crlf_cons hopening, List.cons_append, hmark, hlength]
  exact ⟨rfl, fun hnot => absurd hk hnot⟩

/-- A semicolon takes up a carriage return in front of the line feed it takes up. -/
theorem lexesTo_semicolon {y : List Char}
    (hx : lexeme operators (';' :: y ++ r) = some (k, (';' :: y).length)) :
    LexesTo operators (';' :: y) r k := by
  have hsemicolon := hx
  rw [List.cons_append, lexeme_semicolon] at hsemicolon
  obtain ⟨rfl, hlen⟩ := Prod.mk.inj (Option.some.inj hsemicolon)
  rw [List.length_cons] at hlen
  rcases gap_crlf (y ++ r) with ⟨rest, hrest, hcrlf, hgap⟩ | ⟨hhead, -, -⟩
  · rw [hrest, List.head?_cons, if_pos rfl] at hlen
    have hsplit := List.take_append_drop (gapLength (y ++ r)) (y ++ r)
    rw [← afterGap_eq_drop, hrest, List.append_cons] at hsplit
    have hy : y = (y ++ r).take (gapLength (y ++ r)) ++ ['\n'] := by
      refine (List.append_inj hsplit ?_).1.symm
      simp
      omega
    have hlength : (crlf y).length = y.length + 1 := by
      rw [hy, crlf_append, crlf_of_not_mem (newline_not_mem_gap _)]
      simp
    rw [LexesTo, crlf_cons (by decide), List.cons_append, ← crlf_append, lexeme_semicolon, hcrlf,
      List.head?_cons, if_pos rfl, hgap, List.length_cons, hlength]
    refine ⟨?_, fun hnot => absurd (by decide) hnot⟩
    rw [show gapLength (y ++ r) + 1 + 2 = y.length + 1 + 1 by omega]
  · rw [if_neg hhead] at hlen
    obtain rfl : y = [] := List.eq_nil_of_length_eq_zero (by omega)
    exact lexesTo_of_not_mem hx (by simp)

theorem lexesTo_of_mark (hesc : NoEscapedNewline (x ++ r)) (hstop : ¬startsUnit (x ++ r))
    (hx : lexeme operators (x ++ r) = some (k, x.length)) (hne : x ≠ ['\n']) :
    LexesTo operators x r k := by
  have hmark := hx
  rw [lexeme_of_not_startsUnit hstop] at hmark
  rcases x with _ | ⟨c, y⟩
  · exact absurd (lexeme_pos hx) (by simp)
  have hplain : '\n' ∉ (c :: (y ++ r)).take (y.length + 1) → LexesTo operators (c :: y) r k := by
    rw [List.take_succ_cons, List.take_left]
    exact lexesTo_of_not_mem hx
  have hclosed : ∀ {opening close : Char}, opening ∈ ['|', '"', '['] →
      (∀ rest, markLexeme (opening :: rest) = (closedLength close rest).map fun n => (k, n + 1)) →
      ∀ rest, lexeme operators (opening :: rest) =
        (closedLength close rest).map fun n => (k, n + 1) := by
    intro opening close hmem hall rest
    rw [← hall, lexeme_of_not_startsUnit]
    simp only [List.mem_cons, List.not_mem_nil, or_false] at hmem
    rcases hmem with rfl | rfl | rfl <;> simp [startsUnit_cons, isBlank, isStructural]
  rw [List.cons_append] at hmark hesc
  unfold markLexeme at hmark
  split at hmark
  case h_1 heq | h_2 heq | h_3 heq =>
    cases heq
    obtain ⟨m, hm, hlen⟩ := Option.map_eq_some_iff.1 hmark
    simp only [Prod.mk.injEq, List.length_cons, Nat.add_right_cancel_iff] at hlen
    obtain ⟨rfl, rfl⟩ := hlen
    exact lexesTo_closed (by decide) (by decide) (hclosed (by decide) fun _ => rfl) (by decide)
      hesc.tail hm
  case h_4 heq =>
    cases heq
    obtain ⟨m, hm, hlen⟩ := Option.map_eq_some_iff.1 hmark
    cases hlen
    refine hplain fun hmem => ?_
    simpa [isHexDigit] using colorLength_chars hm hmem
  case h_5 heq =>
    cases heq
    obtain ⟨m, hm, hlen⟩ := Option.map_eq_some_iff.1 hmark
    cases hlen
    refine hplain fun hmem => ?_
    simpa using identifierLength_chars hm hmem
  case h_6 heq =>
    cases heq
    exact lexesTo_semicolon hx
  case h_7 heq =>
    cases heq
    have hnil : y = [] := by
      simp only [Option.some.injEq, Prod.mk.injEq, List.length_cons] at hmark
      exact List.eq_nil_of_length_eq_zero (by omega)
    exact absurd (by rw [hnil]) hne
  case h_8 tail heq =>
    refine hplain ?_
    rw [heq, show y.length + 1 = 2 by simpa using (Prod.mk.inj (Option.some.inj hmark)).2.symm]
    simp
  case h_9 =>
    obtain ⟨d, rest, heq, hd, hlen⟩ := bracketLexeme_head hmark
    refine hplain ?_
    rw [heq, show y.length + 1 = 1 from hlen]
    simp only [List.take_succ_cons, List.take_zero, List.mem_singleton]
    rintro rfl
    simp at hd

/-- The token in front of a text has its counterpart in front of the text with carriage returns. -/
theorem lexesTo_of_lexeme (hesc : NoEscapedNewline (x ++ r))
    (hx : lexeme operators (x ++ r) = some (k, x.length)) (hne : x ≠ ['\n']) :
    LexesTo operators x r k := by
  by_cases hstart : startsUnit (x ++ r)
  · refine lexesTo_of_not_mem hx ?_
    rw [lexeme_of_startsUnit hstart] at hx
    simpa using newline_not_mem_wordLexeme hesc hx
  · exact lexesTo_of_mark hesc hstart hx hne

end Token

/-- What cannot be read cannot be read with carriage returns. -/
theorem unreadable_crlf {cs : List Char} (h : Unreadable cs) (hesc : NoEscapedNewline cs) :
    Unreadable (crlf cs) := by
  have hcloses : ∀ {close : Char} {rest : List Char}, close ∉ ['\\', '\r', '\n'] →
      NoEscapedNewline rest → ¬Closes close rest → ¬Closes close (crlf rest) := by
    intro close rest hclose hrest hnot
    have hb : close ≠ '\\' := by rintro rfl; simp at hclose
    rw [closes_iff hb] at hnot ⊢
    rwa [closedLength_crlf hclose hrest, Option.isSome_map]
  cases h with
  | string h => rw [crlf_cons (by decide)]; exact .string (hcloses (by decide) hesc.tail h)
  | remark h => rw [crlf_cons (by decide)]; exact .remark (hcloses (by decide) hesc.tail h)
  | choice h => rw [crlf_cons (by decide)]; exact .choice (hcloses (by decide) hesc.tail h)
  | closeChoice => rw [crlf_cons (by decide)]; exact .closeChoice
  | color h =>
    rw [crlf_cons (by decide)]
    exact .color (by rwa [takeWhile_crlf rfl rfl])
  | @name rest h =>
    rw [crlf_cons (by decide)]
    refine .name fun c hc hname => ?_
    have hplain : c ≠ '\r' ∧ c ≠ '\n' := by
      constructor <;> rintro rfl <;> simp at hname
    exact h c ((head?_crlf hplain.1 hplain.2).1 hc) hname
  | @comment rest h =>
    rw [crlf_cons (by decide), crlf_cons (by decide)]
    refine .comment ?_
    rw [← commentLength_eq_none_iff] at h ⊢
    rw [commentLength_crlf, h, Option.map_none]
  | backslash => exact .backslash

/-! ## Reading -/

theorem tokensFrom_of_blanks {depth : Nat} {place : Place} {gap : List Char}
    (h : ∀ c ∈ gap, isBlank c) (cs : List Char) :
    tokensFrom depth place (gap ++ cs) = tokensFrom depth (place.after gap) cs := by
  induction gap generalizing place with
  | nil => rfl
  | cons c gap ih =>
    obtain ⟨hc, hgap⟩ := List.forall_mem_cons.1 h
    rw [List.cons_append, tokensFrom_of_blank hc, ih hgap, Place.after_cons]

theorem triviaLength_line {body tail : List Char} (hbody : '\n' ∉ body)
    (htail : ∀ c ∈ tail.head?, c = '\n') :
    triviaLength (('/' :: '/' :: body) ++ tail) = some ('/' :: '/' :: body).length := by
  have hrun : (body ++ tail).takeWhile (· ≠ '\n') = body := by
    rw [takeWhile_append_of_head (fun c hc => by simp [htail c hc]), List.takeWhile_eq_self_iff]
    intro c hc
    simpa using ne_of_mem_of_not_mem hc hbody
  rw [List.cons_append, List.cons_append, triviaLength,
    if_neg (by simp [gapLength_cons, isBlank])]
  simp only [hrun, List.length_cons]

/-- A comment up to the end of a line takes up the carriage return there, which would be a blank in
front of the line feed otherwise. -/
theorem tokensFrom_crlf_line {body tail : List Char} (hbody : '\n' ∉ body)
    (htail : ∀ c ∈ tail.head?, c = '\n') (depth : Nat) (place : Place) :
    tokensFrom depth place (crlf (('/' :: '/' :: body) ++ tail)) =
      tokensFrom depth (place.after ('/' :: '/' :: body)) (crlf tail) := by
  have hcrlf : crlf ('/' :: '/' :: body) = '/' :: '/' :: body :=
    crlf_of_not_mem (by simpa using hbody)
  rw [crlf_append, hcrlf]
  rcases tail with _ | ⟨c, tail⟩
  · exact tokensFrom_append_trivia (triviaLength_line hbody (by simp))
  · obtain rfl := htail c rfl
    have hbody' : '\n' ∉ body ++ ['\r'] := by simpa using hbody
    have htrivia : triviaLength (('/' :: '/' :: (body ++ ['\r'])) ++ '\n' :: crlf tail) = _ :=
      triviaLength_line hbody' (by simp)
    have hrun : tokensFrom depth place _ = _ := tokensFrom_append_trivia htrivia
    rw [crlf_newline, tokensFrom_of_blank (by decide)]
    simpa [Place.after_append] using hrun

theorem tokensFrom_crlf_comment {rest : List Char} {m : Nat} (hm : commentLength rest = some m)
    (depth : Nat) (place : Place) : tokensFrom depth place (crlf ('/' :: '*' :: rest)) =
      tokensFrom depth (place.after ('/' :: '*' :: crlf (rest.take m))) (crlf (rest.drop m)) := by
  have htrivia : triviaLength (('/' :: '*' :: crlf (rest.take m)) ++ crlf (rest.drop m)) =
      some ('/' :: '*' :: crlf (rest.take m)).length := by
    rw [List.cons_append, List.cons_append, ← crlf_append, List.take_append_drop, triviaLength,
      if_neg (by simp [gapLength_cons, isBlank])]
    simp only [commentLength_crlf rest, hm, Option.map_some, List.length_cons]
  have hrun : tokensFrom depth place _ = _ := tokensFrom_append_trivia htrivia
  rw [List.cons_append, List.cons_append, ← crlf_append, List.take_append_drop] at hrun
  rw [crlf_cons (by decide), crlf_cons (by decide), hrun]

/-- What is skipped has its counterpart too, and reading goes on behind it. -/
theorem tokensFrom_crlf_trivia {cs : List Char} {n : Nat} (h : triviaLength cs = some n)
    (depth : Nat) (place : Place) : ∃ place', tokensFrom depth place (crlf cs) =
      tokensFrom depth place' (crlf (cs.drop n)) := by
  unfold triviaLength at h
  split at h
  · cases h
    have hblank : ∀ c ∈ cs.take (gapLength cs), isBlank c := fun c hc => of_mem_take le_rfl hc
    refine ⟨place.after (cs.take (gapLength cs)), ?_⟩
    nth_rewrite 1 [← List.take_append_drop (gapLength cs) cs]
    rw [crlf_append, crlf_of_not_mem (newline_not_mem_gap cs)]
    exact tokensFrom_of_blanks hblank _
  split at h
  · next rest _ =>
    cases h
    have hbody : '\n' ∉ rest.takeWhile (· ≠ '\n') := by
      intro hmem
      have hne := List.all_eq_true.1 List.all_takeWhile _ hmem
      simp at hne
    have htail : ∀ c ∈ (rest.dropWhile (· ≠ '\n')).head?, c = '\n' := by
      intro c hc
      have hstop := List.head?_dropWhile_not (· ≠ '\n') rest
      rw [Option.mem_def.1 hc] at hstop
      simpa using hstop
    have hline := tokensFrom_crlf_line hbody htail depth place
    rw [List.cons_append, List.cons_append, List.takeWhile_append_dropWhile,
      dropWhile_eq_drop] at hline
    exact ⟨_, hline⟩
  · next rest _ =>
    obtain ⟨m, hm, rfl⟩ := Option.map_eq_some_iff.1 h
    exact ⟨_, tokensFrom_crlf_comment hm depth place⟩
  · cases h

/-- The same kind of token, with the same text unless it may hold a line feed. -/
structure SameToken (t u : Token) : Prop where
  kind : u.kind = t.kind
  text : t.kind ∉ multiline → u.text = t.text

/-- Two readings that both fail, or give the same tokens. -/
inductive SameOutcome :
    Except LexicalError (List Token) → Except LexicalError (List Token) → Prop where
  | ok {ts us : List Token} (h : List.Forall₂ SameToken ts us) : SameOutcome (.ok ts) (.ok us)
  | error {e e' : LexicalError} : SameOutcome (.error e) (.error e')

theorem SameOutcome.cons {t u : Token} (h : SameToken t u)
    {run run' : Except LexicalError (List Token)} (hrun : SameOutcome run run') :
    SameOutcome (run.map (t :: ·)) (run'.map (u :: ·)) := by
  cases hrun with
  | ok hall => exact .ok (.cons h hall)
  | error => exact .error

/-- Reading a text with carriage returns gives the same tokens, or fails as well. -/
theorem tokensFrom_crlf {depth : Nat} {place : Place} {cs : List Char} (h : NoEscapedNewline cs)
    (place' : Place) :
    SameOutcome (tokensFrom depth place cs) (tokensFrom depth place' (crlf cs)) := by
  fun_induction tokensFrom depth place cs generalizing place' with
  | case1 =>
    rw [crlf_nil, tokensFrom_nil]
    exact .ok .nil
  | case2 depth place cs hne n hn ih =>
    obtain ⟨place'', hskip⟩ := tokensFrom_crlf_trivia hn depth place'
    rw [hskip]
    exact ih (h.drop n) place''
  | case3 depth place cs hne hn hk =>
    rw [tokensFrom_of_unreadable (unreadable_crlf ((unreadable_iff _ hne).2 ⟨hn, hk⟩) h)]
    exact .error
  | case4 depth place cs hne hn k n hk ih =>
    obtain ⟨x, r, rfl, rfl⟩ : ∃ x r, cs = x ++ r ∧ n = x.length :=
      ⟨_, _, (List.take_append_drop n cs).symm, by simp [lexeme_le hk]⟩
    have hr : NoEscapedNewline r := by simpa using h.drop x.length
    rw [List.take_left, List.drop_left] at ih ⊢
    by_cases hx : x = ['\n']
    · -- a line feed is read behind its carriage return
      subst hx
      rw [List.singleton_append, lexeme_lineFeed] at hk
      cases hk
      rw [List.singleton_append, crlf_newline, tokensFrom_of_blank (by decide), tokensFrom_newline]
      have htoken : SameToken (.ofText .delimiter place ['\n'])
          (.ofText .delimiter (place'.step '\r') ['\n']) := ⟨rfl, fun _ => rfl⟩
      exact .cons htoken (ih hr _)
    · obtain ⟨hcrlf, hsame⟩ := lexesTo_of_lexeme h hk hx
      have htoken : SameToken (.ofText k place x) (.ofText k place' (crlf x)) :=
        ⟨rfl, fun hnot => by simp [Token.ofText, hsame hnot]⟩
      rw [crlf_append, tokensFrom_append hcrlf]
      exact .cons htoken (ih hr _)

end BlockNotation
