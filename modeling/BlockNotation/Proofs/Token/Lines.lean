import BlockNotation.Proofs.Token.Replacing

/-!
# Lines are read one by one

A line feed ends every token before it, and nothing behind it has a part in how the text before it
is read (`tokensFrom_line`). Only a semicolon at the end of a line takes up the line feed. So the
tokens of two texts with a line feed between them are those of the one, a delimiter, and those of
the other, moved to where they stand (`tokenize_lines`).
-/

namespace BlockNotation

/-! ## Texts that can be read to their end -/

/-- A text whose reading from some stand does not fail. -/
def Readable (cs : List Char) : Prop := ∃ depth place ts, tokensFrom depth place cs = .ok ts

theorem Scans.readable {depth : Nat} {place : Place} {cs : List Char} {ts : List Token}
    (h : Scans depth place cs ts) : Readable cs := ⟨depth, place, ts, tokensFrom_ok_iff.2 h⟩

theorem keywordAt_of_closer {cs word : List Char} (hmem : word ∈ ["end".toList, "else".toList])
    (h : startsWithWord cs word) : ∃ k, keywordAt cs = some (k, word.length) := by
  have hend : "end".toList = ['e', 'n', 'd'] := by decide
  have helse : "else".toList = ['e', 'l', 's', 'e'] := by decide
  simp only [hend, helse, List.mem_cons, List.not_mem_nil, or_false] at hmem
  rcases hmem with rfl | rfl
  · have hthree : "end".length = 3 := rfl
    obtain ⟨c, rest, rfl, hc, hrest⟩ := startsWithWord_cons h
    simp [keywordAt, keywordSpellings, spellingLength, startsWithWord, hc, hrest, hthree]
  · have hfour : "else".length = 4 := rfl
    obtain ⟨c, rest, rfl, hc, hrest⟩ := startsWithWord_cons h
    obtain ⟨d, rest, rfl, hd, hrest⟩ := startsWithWord_cons hrest
    simp [keywordAt, keywordSpellings, spellingLength, startsWithWord, repeatUntilLength, hc, hd,
      hrest, hfour]

/-- A closing `end` or `else` is a token of its own. -/
theorem lexeme_of_closer (operators : Bool) {cs word : List Char}
    (hmem : word ∈ ["end".toList, "else".toList]) (h : startsWithWord cs word)
    (hstop : ¬startsUnit (cs.drop word.length)) :
    ∃ k, lexeme operators cs = some (k, word.length) := by
  obtain ⟨k, hk⟩ := keywordAt_of_closer hmem h
  have hunit : startsUnit cs := startsUnit_of_keywordAt (by simp [hk])
  have hlower : ∀ word ∈ ["end".toList, "else".toList], word.head?.any Char.isLower := by decide
  have hnumber := numberLength_of_startsWithWord (hlower word hmem) h
  refine ⟨k, ?_⟩
  simp [lexeme_of_startsUnit hunit, wordLexeme, numberLexeme, hnumber, keywordLexeme, hk, hstop]

namespace Readable

variable {cs : List Char} (h : Readable cs)

include h

theorem ne_backslash : cs ≠ ['\\'] := by
  rintro rfl
  obtain ⟨depth, place, ts, hts⟩ := h
  rw [tokensFrom_of_unreadable .backslash] at hts
  cases hts

theorem drop_trivia {n : Nat} (hn : triviaLength cs = some n) : Readable (cs.drop n) := by
  obtain ⟨depth, place, ts, hts⟩ := h
  rw [tokensFrom_of_trivia hn] at hts
  exact ⟨_, _, _, hts⟩

theorem drop_lexeme {n : Nat} (hn : ∀ operators, ∃ k, lexeme operators cs = some (k, n)) :
    Readable (cs.drop n) := by
  obtain ⟨depth, place, ts, hts⟩ := h
  obtain ⟨k, hk⟩ := hn (depth ≠ 0)
  rw [tokensFrom_of_lexeme (triviaLength_of_lexeme hk) hk] at hts
  cases hrun : tokensFrom (angleDepth depth k) (place.after (cs.take n)) (cs.drop n) with
  | error e => rw [hrun] at hts; cases hts
  | ok us => exact ⟨_, _, _, hrun⟩

theorem behind_gap : Readable (afterGap cs) := by
  rw [afterGap_eq_drop]
  by_cases hgap : gapLength cs = 0
  · rwa [hgap]
  · refine h.drop_trivia ?_
    simp [triviaLength, hgap]

end Readable

/-! ## In front of a line feed -/

section Newline

variable (b : List Char)

theorem newline_not_blank : ∀ c ∈ ('\n' :: b).head?, isBlank c = false := by
  rintro c ⟨⟩
  decide

theorem startsUnit_newline {cs : List Char} (hcs : cs ≠ ['\\']) :
    startsUnit (cs ++ '\n' :: b) = startsUnit cs := by
  rcases cs with _ | ⟨c, _ | ⟨d, cs⟩⟩
  · simp [isBlank, startsUnit, unitLength]
  · have hc : c ≠ '\\' := by simpa using hcs
    simp [startsUnit_cons, opensComment_cons, hc]
  · simp [startsUnit_cons, opensComment_cons]

variable {cs : List Char} (h : Readable cs)

include h

theorem closesClause_newline : closesClause (cs ++ '\n' :: b) = closesClause cs := by
  have hlower : ∀ word ∈ ["end".toList, "else".toList], word.all Char.isLower := by decide
  rw [Bool.eq_iff_iff]
  simp only [closesClause, List.any_eq_true, Bool.and_eq_true, Bool.not_eq_true']
  refine exists_congr fun word => and_congr_right fun hmem => ?_
  rw [startsWithWord_append (newline_not_startsUnit b) cs (hlower word hmem)]
  refine and_congr_right fun hstarts => ?_
  rw [List.drop_append_of_le_length (startsWithWord_chars hstarts).1]
  by_cases hstop : startsUnit (cs.drop word.length)
  · rw [startsUnit_newline b (by rintro heq; rw [heq] at hstop; cases hstop)]
  · rw [startsUnit_newline b (h.drop_lexeme fun operators =>
      lexeme_of_closer operators hmem hstarts hstop).ne_backslash]

theorem wordAhead_newline : WordAhead (cs ++ '\n' :: b) ↔ WordAhead cs := by
  rw [WordAhead, WordAhead, gapLength_append (newline_not_blank b),
    afterGap_append (newline_not_blank b), startsUnit_newline b h.behind_gap.ne_backslash,
    closesClause_newline b h.behind_gap]

theorem startsOperator_newline : startsOperator (cs ++ '\n' :: b) = startsOperator cs := by
  rcases cs with _ | ⟨c, cs⟩
  · simp [startsOperator]
  · rw [Bool.eq_iff_iff, List.cons_append, startsOperator_cons, startsOperator_cons]
    refine and_congr_right fun hc => wordAhead_newline b ?_
    refine h.drop_lexeme (n := 1) fun operators => ?_
    rcases hc with rfl | rfl <;>
      rw [lexeme_of_not_startsUnit (by simp [startsUnit_cons, isBlank, isStructural])] <;>
      exact ⟨_, rfl⟩

theorem replaces_newline (operators : Bool) : Replaces operators cs (cs ++ '\n' :: b) where
  unit := by rw [startsUnit_newline b h.ne_backslash]; exact id
  joint := by
    intro c hc hstart
    rcases cs with _ | ⟨d, cs⟩
    · simp_all [startsUnit_cons, opensComment_cons]
    · rwa [startsUnit_congr hc (r := d :: cs ++ '\n' :: b) (s := d :: cs) rfl]
  tail := by
    rw [labelTail_eq_zero_iff, labelTail_eq_zero_iff, wordAhead_newline b h,
      gapLength_append (newline_not_blank b), afterGap_append (newline_not_blank b),
      startsOperator_newline b h.behind_gap]
    exact id
  repeats := by
    have hspace : ((cs ++ '\n' :: b).takeWhile fun c => c = ' ' || c = '\t') =
        cs.takeWhile fun c => c = ' ' || c = '\t' := takeWhile_append_of_head (by simp) cs
    have hle := (List.takeWhile_prefix (l := cs) fun c => c = ' ' || c = '\t').length_le
    simp only [untilAhead, hspace]
    rw [List.drop_append_of_le_length hle,
      startsWithWord_append (newline_not_startsUnit b) _ (by decide)]
    exact id
  color := by
    rw [takeWhile_append_of_head]
    simp [isHexDigit]
  name := by
    rw [takeWhile_append_of_head]
    simp

end Newline

/-! ## One text behind the other -/

section Rounds

variable (b : List Char)

theorem commentLength_append_of_eq {cs : List Char} {n : Nat} (h : commentLength cs = some n) :
    commentLength (cs ++ b) = some n := by
  fun_induction commentLength cs generalizing n with
  | case1 => cases h
  | case2 rest => simpa [commentLength] using h
  | case3 c rest hnot ih =>
    obtain ⟨m, hm, rfl⟩ := Option.map_eq_some_iff.1 h
    rw [List.cons_append]
    unfold commentLength
    split
    · next heq => cases heq
    · next heq =>
      -- the comment would have closed without `b`, or it has no second character to close with
      injection heq with hc heq
      rcases rest with _ | ⟨d, rest⟩
      · cases hm
      · injection heq with hd heq
        exact absurd (by rw [hd]) (hnot rest hc)
    · next heq =>
      injection heq with hc heq
      rw [← heq, ih hm]
      rfl

theorem triviaLength_newline {cs : List Char} {n : Nat} (h : triviaLength cs = some n) :
    triviaLength (cs ++ '\n' :: b) = some n := by
  unfold triviaLength at h ⊢
  rw [gapLength_append (newline_not_blank b)]
  split at h
  · next hgap => rwa [if_pos hgap]
  next hgap =>
  rw [if_neg hgap]
  split at h
  · next rest =>
    have hline : ((rest ++ '\n' :: b).takeWhile fun c => c ≠ '\n') =
        rest.takeWhile fun c => c ≠ '\n' := takeWhile_append_of_head (by simp) rest
    simpa only [List.cons_append, hline] using h
  · next rest =>
    obtain ⟨m, hm, rfl⟩ := Option.map_eq_some_iff.1 h
    simp [commentLength_append_of_eq _ hm]
  · cases h

theorem lexeme_newline {operators : Bool} {x r : List Char} {k : Kind}
    (hx : lexeme operators (x ++ r) = some (k, x.length)) (hr : Readable r)
    (hlast : ¬(x = [';'] ∧ afterGap r = [])) :
    lexeme operators (x ++ (r ++ '\n' :: b)) = some (k, x.length) := by
  refine lexeme_replace (replaces_newline b hr operators) ?_ hx
  rintro rfl hhead
  rw [afterGap_append (newline_not_blank b)] at hhead
  rcases hnext : afterGap r with _ | ⟨d, rest⟩
  · exact hlast ⟨rfl, hnext⟩
  · rw [List.singleton_append, lexeme_semicolon, hnext] at hx
    rw [hnext] at hhead
    simp_all

theorem tokensFrom_blanks {depth : Nat} {place : Place} {cs : List Char} (h : afterGap cs = []) :
    tokensFrom depth place cs = .ok [] := by
  rcases cs with _ | ⟨c, cs⟩
  · exact tokensFrom_nil _ _
  · have hgap : gapLength (c :: cs) ≠ 0 := by
      have hlen := gapLength_add_length_afterGap (c :: cs)
      rw [h] at hlen
      simp at hlen
      omega
    have htrivia : triviaLength (c :: cs) = some (gapLength (c :: cs)) := by
      simp [triviaLength, hgap]
    rw [tokensFrom_of_trivia htrivia, ← afterGap_eq_drop, h, tokensFrom_nil]

/-- The last of the tokens is a semicolon, and nothing but blanks follows it. -/
def Trails (place : Place) (cs : List Char) (ts : List Token) : Prop :=
  ∃ y gap, cs = y ++ ';' :: gap ∧ afterGap gap = [] ∧
    ts.getLast? = some (.ofText .delimiter (place.after y) [';'])

theorem Trails.prepend {place : Place} {x r : List Char} {ts : List Token} (us : List Token)
    (h : Trails (place.after x) r ts) : Trails place (x ++ r) (us ++ ts) := by
  obtain ⟨y, gap, rfl, hgap, hlast⟩ := h
  refine ⟨x ++ y, gap, by rw [List.append_assoc], hgap, ?_⟩
  rw [List.getLast?_append, hlast, Place.after_append]
  rfl

omit b in
theorem trails_semicolon {depth : Nat} {place : Place} {r : List Char} {k : Kind}
    {ts : List Token} (token : lexeme (depth ≠ 0) ([';'] ++ r) = some (k, [';'].length))
    (later : Scans (angleDepth depth k) (place.after [';']) r ts) (hgap : afterGap r = []) :
    Trails place ([';'] ++ r) (.ofText k place [';'] :: ts) := by
  have hts := tokensFrom_ok_iff.2 later
  rw [tokensFrom_blanks hgap] at hts
  cases hts
  rw [List.singleton_append, lexeme_semicolon] at token
  obtain ⟨rfl, -⟩ := Prod.mk.inj (Option.some.inj token)
  exact ⟨[], r, rfl, hgap, rfl⟩

/-- A text that is read to its end is read the same in front of a line feed, where reading then goes
on, unless a semicolon takes up the line feed. -/
theorem tokensFrom_line {depth : Nat} {place : Place} {cs : List Char} {ts : List Token}
    (h : Scans depth place cs ts) (hlast : ¬Trails place cs ts) :
    tokensFrom depth place (cs ++ '\n' :: b) =
      (tokensFrom ((ts.map Token.kind).foldl angleDepth depth) (place.after cs) ('\n' :: b)).map
        (ts ++ ·) := by
  induction h with
  | @done depth place =>
    rw [List.nil_append]
    cases hrun : tokensFrom depth place ('\n' :: b) <;> simp [hrun, Except.map]
  | @skip depth place x r ts trivia _ ih =>
    have htrivia := triviaLength_newline b trivia
    rw [List.append_assoc] at htrivia ⊢
    rw [tokensFrom_append_trivia htrivia, ih fun h => hlast (h.prepend []),
      Place.after_append]
  | @take depth place x r k ts token later ih =>
    have hsemicolon : ¬(x = [';'] ∧ afterGap r = []) := by
      rintro ⟨rfl, hgap⟩
      exact hlast (trails_semicolon token later hgap)
    have hkind : (Token.ofText k place x).kind = k := rfl
    rw [List.append_assoc, tokensFrom_append (lexeme_newline b token later.readable hsemicolon),
      ih fun h => hlast (h.prepend [_]), Place.after_append, List.map_cons, List.foldl_cons, hkind]
    cases tokensFrom ((ts.map Token.kind).foldl angleDepth (angleDepth depth k))
      ((place.after x).after r) ('\n' :: b) <;> rfl

omit b in
/-- A semicolon with nothing but blanks between it and a final line feed takes up the line feed. -/
theorem tokensFrom_semicolon_newline {r : List Char} (hgap : afterGap r = []) (depth : Nat)
    (place : Place) : tokensFrom depth place (';' :: (r ++ ['\n'])) =
      .ok [.ofText .delimiter place (';' :: (r ++ ['\n']))] := by
  have hlen := gapLength_add_length_afterGap r
  have hnext : afterGap (r ++ ['\n']) = ['\n'] := by
    rw [afterGap_append (newline_not_blank []), hgap, List.nil_append]
  have htoken : lexeme (depth ≠ 0) ((';' :: (r ++ ['\n'])) ++ []) =
      some (.delimiter, (';' :: (r ++ ['\n'])).length) := by
    rw [List.append_nil, lexeme_semicolon, hnext, gapLength_append (newline_not_blank [])]
    rw [hgap, List.length_nil] at hlen
    simp only [List.head?_cons, if_true, List.length_cons, List.length_append, List.length_nil]
    rw [← hlen]
  have hrun : tokensFrom depth place _ = _ := tokensFrom_append htoken
  rw [List.append_nil, tokensFrom_nil] at hrun
  exact hrun

omit b in
/-- A line feed behind a text that is read to its end is one more delimiter, or a part of the
delimiter that comes last. -/
theorem tokensFrom_final_newline {depth : Nat} {place : Place} {cs : List Char} {ts : List Token}
    (h : Scans depth place cs ts) : ∃ us v w, ts = us ++ v ∧
      tokensFrom depth place (cs ++ ['\n']) = .ok (us ++ w) ∧
      (∀ t ∈ v, t.kind = .delimiter) ∧ ∀ t ∈ w, t.kind = .delimiter := by
  induction h with
  | @done depth place =>
    refine ⟨[], [], [.ofText .delimiter place ['\n']], rfl, ?_, by simp, by simp [Token.ofText]⟩
    rw [List.nil_append, tokensFrom_newline, tokensFrom_nil]
    rfl
  | @skip depth place x r ts trivia _ ih =>
    have htrivia := triviaLength_newline [] trivia
    rw [List.append_assoc] at htrivia ⊢
    rwa [tokensFrom_append_trivia htrivia]
  | @take depth place x r k ts token later ih =>
    by_cases hsemicolon : x = [';'] ∧ afterGap r = []
    · obtain ⟨rfl, hgap⟩ := hsemicolon
      have hts := tokensFrom_ok_iff.2 later
      rw [tokensFrom_blanks hgap] at hts
      cases hts
      rw [List.singleton_append, lexeme_semicolon] at token
      obtain ⟨rfl, -⟩ := Prod.mk.inj (Option.some.inj token)
      exact ⟨[], _, _, rfl, tokensFrom_semicolon_newline hgap depth place, by simp [Token.ofText],
        by simp [Token.ofText]⟩
    · obtain ⟨us, v, w, rfl, hrun, hv, hw⟩ := ih
      refine ⟨.ofText k place x :: us, v, w, rfl, ?_, hv, hw⟩
      rw [List.append_assoc, tokensFrom_append (lexeme_newline [] token later.readable hsemicolon),
        hrun]
      rfl

end Rounds

/-! ## Places moved along -/

/-- The place so many bytes and lines further on. -/
def Place.shift (offset lines : Nat) (p : Place) : Place where
  offset := p.offset + offset
  position := ⟨p.position.line + lines, p.position.column⟩

/-- The token so many bytes and lines further on. -/
def Token.shift (offset lines : Nat) (t : Token) : Token :=
  { t with
    span := ⟨t.span.start + offset, t.span.stop + offset⟩
    position := ⟨t.position.line + lines, t.position.column⟩ }

/-- The error so many bytes and lines further on. -/
def LexicalError.shift (offset lines : Nat) (e : LexicalError) : LexicalError :=
  { e with place := e.place.shift offset lines }

section Shift

variable (offset lines : Nat)

theorem Place.step_shift (p : Place) (c : Char) :
    (p.shift offset lines).step c = (p.step c).shift offset lines := by
  unfold step shift
  split <;> simp <;> omega

theorem Place.after_shift (p : Place) (cs : List Char) :
    (p.shift offset lines).after cs = (p.after cs).shift offset lines := by
  induction cs generalizing p with
  | nil => rfl
  | cons c cs ih => rw [after_cons, after_cons, step_shift, ih]

theorem Token.ofText_shift (k : Kind) (p : Place) (x : List Char) :
    ofText k (p.shift offset lines) x = (ofText k p x).shift offset lines := by
  simp [ofText, shift, Place.shift]
  omega

/-- Where a text stands has no part in how it is read. -/
theorem tokensFrom_shift (depth : Nat) (place : Place) (cs : List Char) :
    tokensFrom depth (place.shift offset lines) cs =
      match tokensFrom depth place cs with
      | .ok ts => .ok (ts.map (Token.shift offset lines))
      | .error e => .error (e.shift offset lines) := by
  fun_induction tokensFrom depth place cs with
  | case1 => rw [tokensFrom_nil]; rfl
  | case2 depth place cs hne n hn ih => rw [tokensFrom_of_trivia hn, Place.after_shift, ih]
  | case3 depth place cs hne hn hk =>
    rw [tokensFrom_of_unreadable ((unreadable_iff _ hne).2 ⟨hn, hk⟩)]
    rfl
  | case4 depth place cs hne hn k n hk ih =>
    rw [tokensFrom_of_lexeme hn hk, Place.after_shift, ih, Token.ofText_shift]
    cases tokensFrom (angleDepth depth k) (place.after (cs.take n)) (cs.drop n) <;> rfl

end Shift

theorem Place.line_after (p : Place) (cs : List Char) :
    (p.after cs).position.line = p.position.line + cs.count '\n' := by
  induction cs generalizing p with
  | nil => rfl
  | cons c cs ih =>
    rw [after_cons, ih, step, List.count_cons]
    by_cases hc : c = '\n' <;> simp [hc]
    omega

theorem Place.step_newline (cs : List Char) : (Place.origin.after cs).step '\n' =
    Place.origin.shift (byteSize cs + 1) (cs.count '\n' + 1) := by
  have hoffset : (Place.origin.after cs).offset = byteSize cs :=
    (offset_after _ cs).trans (Nat.zero_add _)
  have hline : (Place.origin.after cs).position.line = 1 + cs.count '\n' := line_after _ cs
  have hsize : '\n'.utf8Size = 1 := rfl
  simp only [step, hoffset, hline, hsize, if_true]
  simp [shift, origin]
  omega

/-- When a text is read to its end with no angle bracket open, and does not end in a semicolon, a
line feed behind it is a delimiter, and what follows is read as if it stood alone. -/
theorem tokenize_lines {a b : String} {ts : List Token} (ha : tokenize a = .ok ts)
    (hdepth : (ts.map Token.kind).foldl angleDepth 0 = 0)
    (hlast : ¬∃ t, ts.getLast? = some t ∧ t.kind = .delimiter ∧ t.text = ";" ∧
      ∀ c ∈ (Span.textIn ⟨t.span.stop, a.utf8ByteSize⟩ a).toList, isBlank c) :
    ∃ t, t.kind = .delimiter ∧ t.text = "\n" ∧ t.span = ⟨a.utf8ByteSize, a.utf8ByteSize + 1⟩ ∧
      tokenize (a ++ "\n" ++ b) =
        match tokenize b with
        | .ok us => .ok (ts ++ t ::
            us.map (Token.shift (a.utf8ByteSize + 1) (a.toList.count '\n' + 1)))
        | .error e => .error (e.shift (a.utf8ByteSize + 1) (a.toList.count '\n' + 1)) := by
  have hscans := tokensFrom_ok_iff.1 ha
  have htrails : ¬Trails .origin a.toList ts := by
    rintro ⟨y, gap, hcs, hgap, hget⟩
    refine hlast ⟨_, hget, rfl, rfl, ?_⟩
    have hstop : (Token.ofText .delimiter (Place.origin.after y) [';']).span.stop =
        byteSize (y ++ [';']) := by
      simp [Token.ofText, Place.offset_after, Place.origin]
    have hsplit : a.toList = (y ++ [';']) ++ gap := by simp [hcs]
    rw [(Tiles.last_span hsplit hstop).2, String.toList_ofList]
    simpa [afterGap, List.dropWhile_eq_nil_iff] using hgap
  refine ⟨.ofText .delimiter (Place.origin.after a.toList) ['\n'], rfl, rfl, ?_, ?_⟩
  · have hsize : '\n'.utf8Size = 1 := rfl
    simp [Token.ofText, Place.offset_after, Place.origin, byteSize_toList, hsize]
  · have hsource : (a ++ "\n" ++ b).toList = a.toList ++ '\n' :: b.toList := by simp
    rw [tokenize, hsource, tokensFrom_line b.toList hscans htrails, hdepth, tokensFrom_newline,
      Place.step_newline, tokensFrom_shift, byteSize_toList, tokenize]
    cases tokensFrom 0 .origin b.toList <;> rfl

/-- A semicolon that a comment parts from the line feed, and a second line that cannot be read. -/
theorem tokenize_lines_comment :
    (∃ ts, tokenize "é; // c" = .ok ts ∧ ts.map Token.text = ["é", ";"]) ∧
    tokenize ("é; // c" ++ "\n" ++ "x\n]") = .error ⟨⟨11, ⟨3, 1⟩⟩, "]"⟩ := by
  have h : ((tokenize "é; // c").toOption.any fun ts =>
      ts.map Token.text = ["é", ";"] ∧ (ts.map Token.kind).foldl angleDepth 0 = 0 ∧
        ts.getLast?.map (·.span.stop) = some 3) = true := by decide +kernel
  have hb : tokenize "x\n]" = .error ⟨⟨2, ⟨2, 1⟩⟩, "]"⟩ := by decide +kernel
  have hrest : ¬∀ c ∈ (Span.textIn ⟨3, "é; // c".utf8ByteSize⟩ "é; // c").toList, isBlank c := by
    have hcut : "é; // c".toList = ['é', ';'] ++ " // c".toList ++ [] := by decide
    rw [(Span.of_append hcut (by decide) (by decide)).2, String.toList_ofList]
    intro h
    have hblank : isBlank '/' = true := h '/' (by decide)
    cases hblank
  cases hts : tokenize "é; // c" with
  | error e => rw [hts] at h; cases h
  | ok ts =>
    rw [hts] at h
    obtain ⟨htexts, hdepth, hstop⟩ := of_decide_eq_true h
    refine ⟨⟨ts, rfl, htexts⟩, ?_⟩
    have hlast : ¬∃ t, ts.getLast? = some t ∧ t.kind = .delimiter ∧ t.text = ";" ∧
        ∀ c ∈ (Span.textIn ⟨t.span.stop, "é; // c".utf8ByteSize⟩ "é; // c").toList,
          isBlank c := by
      rintro ⟨t, ht, -, -, hblank⟩
      have ht3 : t.span.stop = 3 := by simpa [ht] using hstop
      rw [ht3] at hblank
      exact hrest hblank
    obtain ⟨t, -, -, -, hrun⟩ := tokenize_lines (b := "x\n]") hts hdepth hlast
    have hshift : LexicalError.shift ("é; // c".utf8ByteSize + 1) ("é; // c".toList.count '\n' + 1)
        ⟨⟨2, ⟨2, 1⟩⟩, "]"⟩ = ⟨⟨11, ⟨3, 1⟩⟩, "]"⟩ := by decide +kernel
    rw [hrun, hb]
    exact congrArg Except.error hshift

end BlockNotation
