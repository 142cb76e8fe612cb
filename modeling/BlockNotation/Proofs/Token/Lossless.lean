import BlockNotation.Token.Stream
import Mathlib.Data.String.Basic

/-!
# Tokens and gaps make up the source

The tokens of a source text lie in it one after the other, each where its span says, and what lies
between them is trivia (`tokenize_lossless`). So the source is the text of its gaps and of its
tokens in turn.

`Tiles` says this of a text that is read from some offset on, character by character. It is turned
into a statement about bytes of the whole source at the end.
-/

namespace BlockNotation

/-- Blanks, a comment to the end of a line, or a closed block comment. -/
inductive Trivia : List Char → Prop where
  | blanks {cs : List Char} (h : ∀ c ∈ cs, c = ' ' ∨ c = '\t' ∨ c = '\r') : Trivia cs
  | line {cs : List Char} (h : '\n' ∉ cs) : Trivia ('/' :: '/' :: cs)
  | block {cs : List Char} (h : ¬['*', '/'] <:+: cs) : Trivia ('/' :: '*' :: cs ++ ['*', '/'])

/-- Trivia one after the other, perhaps none. -/
def IsGap (cs : List Char) : Prop :=
  ∃ pieces : List (List Char), (∀ p ∈ pieces, Trivia p) ∧ cs = pieces.flatten

theorem isGap_nil : IsGap [] := ⟨[], by simp, rfl⟩

theorem IsGap.cons {cs ds : List Char} (h : Trivia cs) (hd : IsGap ds) : IsGap (cs ++ ds) := by
  obtain ⟨pieces, hp, rfl⟩ := hd
  exact ⟨cs :: pieces, List.forall_mem_cons.2 ⟨h, hp⟩, rfl⟩

theorem take_takeWhile_length (p : Char → Bool) (cs : List Char) :
    cs.take (cs.takeWhile p).length = cs.takeWhile p :=
  (List.prefix_iff_eq_take.1 (List.takeWhile_prefix p)).symm

/-- A block comment ends with the first `*/`. -/
theorem commentLength_take {cs : List Char} {n : Nat} (h : commentLength cs = some n) :
    ∃ body, cs.take n = body ++ ['*', '/'] ∧ ¬['*', '/'] <:+: body := by
  fun_induction commentLength cs generalizing n with
  | case1 => cases h
  | case2 rest =>
    cases h
    exact ⟨[], rfl, by simp⟩
  | case3 c rest hnot ih =>
    obtain ⟨m, hm, rfl⟩ := Option.map_eq_some_iff.1 h
    obtain ⟨body, hbody, hin⟩ := ih hm
    refine ⟨c :: body, by rw [List.take_succ_cons, hbody]; rfl, ?_⟩
    intro hinfix
    rcases List.infix_cons_iff.1 hinfix with hpre | hinfix
    · -- Then `*/` stood here already, and the comment would have ended.
      obtain ⟨rfl, tail, rfl⟩ := List.cons_prefix_cons.1 hpre
      cases rest with
      | nil => simp at hbody
      | cons d rest =>
        cases m with
        | zero => simp at hbody
        | succ m =>
          obtain ⟨rfl, -⟩ := List.cons.inj (hbody : d :: rest.take m = '/' :: _)
          exact hnot rest rfl rfl
    · exact hin hinfix

/-- What is skipped is trivia. -/
theorem triviaLength_take {cs : List Char} {n : Nat} (h : triviaLength cs = some n) :
    Trivia (cs.take n) := by
  unfold triviaLength at h
  split at h
  · cases h
    rw [gapLength, take_takeWhile_length]
    refine .blanks fun c hc => ?_
    have hblank := List.all_eq_true.1 List.all_takeWhile c hc
    simpa [isBlank, or_assoc] using hblank
  · split at h
    · rename_i rest
      cases h
      rw [List.take_succ_cons, List.take_succ_cons, take_takeWhile_length]
      refine .line fun hc => ?_
      have hne := List.all_eq_true.1 List.all_takeWhile '\n' hc
      simp at hne
    · rename_i rest
      obtain ⟨m, hm, rfl⟩ := Option.map_eq_some_iff.1 h
      obtain ⟨body, hbody, hnot⟩ := commentLength_take hm
      rw [List.take_succ_cons, List.take_succ_cons, hbody]
      exact .block hnot
    · cases h

/-! ## Characters -/

/-- The text `cs`, from byte `offset` on, is made up of gaps and the tokens `ts`. -/
inductive Tiles : Nat → List Char → List Token → Prop where
  | done {offset : Nat} {gap : List Char} (trivia : IsGap gap) : Tiles offset gap []
  | token {offset : Nat} {gap text rest : List Char} {t : Token} {ts : List Token}
      (trivia : IsGap gap) (nonempty : text ≠ []) (reads : t.text = String.ofList text)
      (start : t.span.start = offset + byteSize gap)
      (stop : t.span.stop = offset + byteSize gap + byteSize text)
      (breaks : t.lineBreaks = text.count '\n') (later : Tiles t.span.stop rest ts) :
      Tiles offset (gap ++ text ++ rest) (t :: ts)

theorem Tiles.skip {offset : Nat} {piece cs : List Char} {ts : List Token} (hp : Trivia piece)
    (h : Tiles (offset + byteSize piece) cs ts) : Tiles offset (piece ++ cs) ts := by
  cases h with
  | done trivia => exact .done (trivia.cons hp)
  | token trivia nonempty reads start stop breaks later =>
    rw [← List.append_assoc, ← List.append_assoc]
    refine .token (trivia.cons hp) nonempty reads ?_ ?_ breaks later
    · rw [start, byteSize_append, Nat.add_assoc]
    · rw [stop, byteSize_append, Nat.add_assoc offset]

/-- One round of reading skips trivia or takes a token; a whole run tiles the text. -/
theorem tokensFrom_tiles {depth : Nat} {place : Place} {cs : List Char} {ts : List Token}
    (h : tokensFrom depth place cs = .ok ts) : Tiles place.offset cs ts := by
  fun_induction tokensFrom depth place cs generalizing ts with
  | case1 =>
    cases h
    exact .done isGap_nil
  | case2 depth place cs hne n hn ih =>
    have htiles := ih h
    rw [Place.offset_after] at htiles
    rw [← List.take_append_drop n cs]
    exact htiles.skip (triviaLength_take hn)
  | case3 => cases h
  | case4 depth place cs hne hn kind n hk ih =>
    cases hrun : tokensFrom (angleDepth depth kind) (place.after (cs.take n)) (cs.drop n) with
    | error e => rw [hrun] at h; cases h
    | ok later =>
      rw [hrun] at h
      cases h
      have htiles := ih hrun
      rw [Place.offset_after] at htiles
      have hpos := lexeme_pos hk
      have htext : cs.take n ≠ [] := by
        rw [Ne, List.take_eq_nil_iff]
        rintro (rfl | hnil)
        · omega
        · exact hne hnil
      have htoken : Tiles place.offset ([] ++ cs.take n ++ cs.drop n)
          (Token.ofText kind place (cs.take n) :: later) :=
        .token isGap_nil htext rfl rfl rfl rfl htiles
      rwa [List.nil_append, List.take_append_drop] at htoken

/-! ## Bytes -/

theorem byteSize_eq_utf8Len (cs : List Char) : byteSize cs = String.utf8Len cs := by
  induction cs with
  | nil => rfl
  | cons c cs ih => rw [byteSize_cons, String.utf8Len_cons, ih, Nat.add_comm]

theorem byteSize_toList (s : String) : byteSize s.toList = s.utf8ByteSize := by
  rw [byteSize_eq_utf8Len, ← String.utf8ByteSize_ofList, String.ofList_toList]

theorem byteSize_pos {cs : List Char} (h : cs ≠ []) : 0 < byteSize cs := by
  cases cs with
  | nil => exact absurd rfl h
  | cons c cs =>
    have := c.utf8Size_pos
    rw [byteSize_cons]
    omega

namespace Span

/-- The part of a text that a span covers. -/
def textIn (s : Span) (source : String) : String :=
  String.Pos.Raw.extract source ⟨s.start⟩ ⟨s.stop⟩

/-- A span lies inside a text and parts no character. -/
structure Fits (s : Span) (source : String) : Prop where
  le : s.start ≤ s.stop
  inside : s.stop ≤ source.utf8ByteSize
  start_valid : (⟨s.start⟩ : String.Pos.Raw).IsValid source
  stop_valid : (⟨s.stop⟩ : String.Pos.Raw).IsValid source

variable {source : String} {l m r : List Char} {s : Span}

theorem isValid_byteSize (h : source.toList = l ++ r) :
    (⟨byteSize l⟩ : String.Pos.Raw).IsValid source := by
  rw [String.Pos.Raw.isValid_iff_exists_append]
  refine ⟨String.ofList l, String.ofList r, ?_, ?_⟩
  · rw [← String.ofList_append, ← h, String.ofList_toList]
  · rw [String.Pos.Raw.ext_iff, String.byteIdx_rawEndPos, String.utf8ByteSize_ofList,
      byteSize_eq_utf8Len]

/-- The span of a part of a text. -/
theorem of_append (h : source.toList = l ++ m ++ r) (hstart : s.start = byteSize l)
    (hstop : s.stop = byteSize l + byteSize m) :
    s.Fits source ∧ s.textIn source = String.ofList m := by
  have hsize := byteSize_toList source
  rw [h, byteSize_append, byteSize_append] at hsize
  refine ⟨⟨by omega, by omega, ?_, ?_⟩, ?_⟩
  · rw [hstart]
    exact isValid_byteSize (h.trans (List.append_assoc l m r))
  · rw [hstop, ← byteSize_append]
    exact isValid_byteSize h
  · rw [← String.ofList_toList (s := source), h, textIn, hstart, hstop, byteSize_eq_utf8Len,
      byteSize_eq_utf8Len]
    exact String.extract_of_valid l m r

end Span

/-- The spans before, between and after some tokens, in a text that ends at `stop`. -/
def gapSpans (start stop : Nat) : List Token → List Span
  | [] => [⟨start, stop⟩]
  | t :: ts => ⟨start, t.span.start⟩ :: gapSpans t.span.stop stop ts

/-- The texts of gaps and tokens in turn. There is one more gap than there are tokens. -/
def weave : List String → List String → String
  | gap :: gaps, text :: texts => gap ++ text ++ weave gaps texts
  | gaps, _ => String.join gaps

namespace Tiles

variable {offset : Nat} {cs : List Char} {ts : List Token}

theorem offset_le (h : Tiles offset cs ts) : ∀ t ∈ ts, offset ≤ t.span.start := by
  induction h with
  | done => simp
  | token _ _ _ start stop _ _ ih =>
    refine List.forall_mem_cons.2 ⟨by omega, fun u hu => ?_⟩
    have := ih u hu
    omega

theorem pairwise (h : Tiles offset cs ts) : ts.Pairwise fun t u => t.span.stop ≤ u.span.start := by
  induction h with
  | done => exact .nil
  | token _ _ _ _ _ _ later ih => exact .cons later.offset_le ih

section Source

variable {source : String} {before : List Char}

theorem last_span {gap : List Char} (hs : source.toList = before ++ gap)
    (ho : offset = byteSize before) : Span.Fits ⟨offset, source.utf8ByteSize⟩ source ∧
      Span.textIn ⟨offset, source.utf8ByteSize⟩ source = String.ofList gap := by
  refine Span.of_append (hs.trans (List.append_nil _).symm) ho ?_
  rw [← byteSize_toList, hs, byteSize_append]

/-- Where a gap and the token after it lie, when both follow some text. -/
theorem token_spans {gap text rest : List Char} {t : Token}
    (hs : source.toList = before ++ (gap ++ text ++ rest)) (ho : offset = byteSize before)
    (start : t.span.start = offset + byteSize gap)
    (stop : t.span.stop = offset + byteSize gap + byteSize text) :
    (Span.Fits ⟨offset, t.span.start⟩ source ∧
      Span.textIn ⟨offset, t.span.start⟩ source = String.ofList gap) ∧
    (t.span.Fits source ∧ t.span.textIn source = String.ofList text) ∧
    source.toList = before ++ gap ++ text ++ rest ∧
    t.span.stop = byteSize (before ++ gap ++ text) := by
  subst ho
  have hgap : source.toList = before ++ gap ++ (text ++ rest) := by simp [hs]
  have htext : source.toList = before ++ gap ++ text ++ rest := by simp [hs]
  rw [← byteSize_append] at start stop
  refine ⟨Span.of_append hgap rfl ?_, Span.of_append htext start stop, htext, ?_⟩
  · rw [start, byteSize_append]
  · rw [stop, byteSize_append (before ++ gap)]

theorem tokens (h : Tiles offset cs ts) (hs : source.toList = before ++ cs)
    (ho : offset = byteSize before) : ∀ t ∈ ts, t.span.start < t.span.stop ∧
      t.span.Fits source ∧ t.span.textIn source = t.text ∧
      t.lineBreaks = t.text.toList.count '\n' := by
  induction h generalizing before with
  | done => simp
  | @token offset gap text rest t ts _ nonempty reads start stop breaks _ ih =>
    obtain ⟨-, ⟨hfits, htext⟩, hs', hnext⟩ := token_spans hs ho start stop
    have hpos := byteSize_pos nonempty
    refine List.forall_mem_cons.2 ⟨⟨by omega, hfits, ?_, ?_⟩, ih hs' hnext⟩
    · rw [htext, reads]
    · rw [reads, String.toList_ofList, breaks]

theorem gaps (h : Tiles offset cs ts) (hs : source.toList = before ++ cs)
    (ho : offset = byteSize before) : ∀ g ∈ gapSpans offset source.utf8ByteSize ts,
      g.Fits source ∧ IsGap (g.textIn source).toList := by
  induction h generalizing before with
  | done trivia =>
    obtain ⟨hfits, htext⟩ := last_span hs ho
    rw [gapSpans, List.forall_mem_singleton, htext, String.toList_ofList]
    exact ⟨hfits, trivia⟩
  | token trivia _ _ start stop _ _ ih =>
    obtain ⟨⟨hfits, htext⟩, -, hs', hnext⟩ := token_spans hs ho start stop
    rw [gapSpans, List.forall_mem_cons, htext, String.toList_ofList]
    exact ⟨⟨hfits, trivia⟩, ih hs' hnext⟩

/-- Gaps and tokens in turn make up the text. -/
theorem weave_eq (h : Tiles offset cs ts) (hs : source.toList = before ++ cs)
    (ho : offset = byteSize before) :
    weave ((gapSpans offset source.utf8ByteSize ts).map (·.textIn source)) (ts.map Token.text) =
      String.ofList cs := by
  induction h generalizing before with
  | done trivia =>
    obtain ⟨-, htext⟩ := last_span hs ho
    simp [gapSpans, weave, htext]
  | token trivia _ reads start stop _ _ ih =>
    obtain ⟨⟨-, htext⟩, -, hs', hnext⟩ := token_spans hs ho start stop
    rw [gapSpans, List.map_cons, List.map_cons, weave, ih hs' hnext, htext, reads,
      String.ofList_append, String.ofList_append]

end Source

end Tiles

/-- The tokens of a source are not empty and lie in it one after the other, each with the text and
the line breaks it has there; the gaps before, between and after them are trivia; and gaps and
tokens in turn are the source. -/
theorem tokenize_lossless {source : String} {ts : List Token} (h : tokenize source = .ok ts) :
    (∀ t ∈ ts, t.span.start < t.span.stop ∧ t.span.Fits source ∧ t.span.textIn source = t.text ∧
      t.lineBreaks = t.text.toList.count '\n') ∧
    (ts.Pairwise fun t u => t.span.stop ≤ u.span.start) ∧
    (∀ g ∈ gapSpans 0 source.utf8ByteSize ts, g.Fits source ∧ IsGap (g.textIn source).toList) ∧
    weave ((gapSpans 0 source.utf8ByteSize ts).map (·.textIn source)) (ts.map Token.text) =
      source := by
  have htiles : Tiles 0 source.toList ts := tokensFrom_tiles h
  have hs : source.toList = [] ++ source.toList := rfl
  refine ⟨htiles.tokens hs rfl, htiles.pairwise, htiles.gaps hs rfl, ?_⟩
  rw [htiles.weave_eq hs rfl, String.ofList_toList]

/-- A label of one character and two bytes, a comment, and a delimiter. -/
theorem tokenize_lossless_accent : ∃ ts, tokenize "é /* x */;" = .ok ts ∧
    ts.map (·.span) = [⟨0, 2⟩, ⟨10, 11⟩] ∧
    ∀ t ∈ ts, t.span.textIn "é /* x */;" = t.text := by
  have h : ((tokenize "é /* x */;").toOption.any fun ts =>
      ts.map (·.span) = [⟨0, 2⟩, ⟨10, 11⟩]) = true := by decide +kernel
  cases hts : tokenize "é /* x */;" with
  | error e => rw [hts] at h; cases h
  | ok ts =>
    rw [hts] at h
    refine ⟨ts, rfl, of_decide_eq_true h, fun t ht => ?_⟩
    exact ((tokenize_lossless hts).1 t ht).2.2.1

end BlockNotation
