import BlockNotation.Proofs.Token.ByteReaders
import Mathlib.Data.List.Forall2

/-!
# Reading by bytes is safe

Keywords and tokens by bytes are those by characters (`FindsKind`), and so are the tokens of a
source: every round of the loop goes on with what reading by characters still has to read
(`ReadsOn`). No cut fails, no length leaves the text or ends inside of a character, and the loop
ends (`bytewise_safe`).
-/

namespace BlockNotation

namespace Bytewise

/-! ## Keywords -/

theorem finds_repeatUntil : Finds repeatUntil repeatUntilLength := by
  intro cs
  have hrepeat : "repeat".toList.all Char.isLower := by decide
  have huntil : "until".toList.all Char.isLower := by decide
  rw [repeatUntil, repeatUntilLength, startsWith_eq hrepeat]
  by_cases h : startsWithWord cs "repeat".toList
  · have hsix : prefixSize cs 6 = 6 := prefixSize_word hrepeat h
    have hcut := fromByte_prefixSize cs 6
    have hnext := fromByte_takeWhile asciiOnly_space cs 6
    have hskip := prefixSize_add_takeWhile asciiOnly_space cs 6
    rw [hsix] at hcut hnext hskip
    rw [dropWhile_eq_drop] at hnext
    rw [if_pos h, if_pos h, hcut, ok_bind]
    dsimp only
    rw [countWhile_eq asciiOnly_space]
    generalize ((cs.drop 6).takeWhile fun c => c = ' ' || c = '\t').length = gap at hnext hskip ⊢
    by_cases hzero : gap = 0
    · simp [hzero]
    rw [if_neg hzero, hnext, ok_bind, startsWith_eq huntil]
    by_cases hends : startsWithWord ((cs.drop 6).drop gap) "until".toList
    · have hsize : prefixSize cs (6 + gap + 5) = 6 + gap + 5 := by
        rw [List.drop_drop] at hends
        rw [prefixSize_add, hskip]
        exact congrArg (6 + gap + ·) (prefixSize_word huntil hends)
      simp only [hzero, hends, ne_eq, not_false_eq_true, decide_true, Bool.and_self, if_true,
        Option.map_some, hsize]
      rfl
    · simp only [hends, Bool.and_false, Bool.false_eq_true, if_false]
      rfl
  · rw [if_neg h, if_neg h]
    rfl

theorem finds_spelling {word : String} (hlower : word.toList.all Char.isLower) :
    Finds (spelling word) (spellingLength word) := by
  intro cs
  rw [spelling, spellingLength, startsWith_eq hlower]
  split
  · next h =>
    have hsize : prefixSize cs word.length = word.utf8ByteSize := by
      rw [← byteSize_toList, ← String.length_toList]
      exact prefixSize_word hlower h
    rw [Option.map_some, hsize]
    rfl
  · rfl

/-- A kind and a length in bytes in place of characters. -/
def inBytes (cs : List Char) (found : Kind × Nat) : Kind × Nat := (found.1, prefixSize cs found.2)

/-- A reader by bytes gives the kinds and the lengths that `lex` gives in characters. -/
def FindsKind (reader : List Char → Except ByteFault (Option (Kind × Nat)))
    (lex : List Char → Option (Kind × Nat)) : Prop :=
  ∀ cs, reader cs = .ok ((lex cs).map (inBytes cs))

/-- Readers that find what others do, one by one, find it as a list too. -/
theorem findSomeM?_eq_ok {α β γ δ : Type} {f : α → Except ByteFault (Option γ)}
    {g : β → Option δ} {h : δ → γ} {as : List α} {bs : List β}
    (hall : List.Forall₂ (fun a b => f a = .ok ((g b).map h)) as bs) :
    as.findSomeM? f = .ok ((bs.findSome? g).map h) := by
  induction hall with
  | nil => rfl
  | @cons a b as bs ha _ ih =>
    rw [List.findSomeM?_cons, ha, ok_bind, List.findSome?_cons]
    cases g b with
    | none => exact ih
    | some d => rfl

theorem spellings_find : List.Forall₂ (fun a b => a.1 = b.1 ∧ Finds a.2 b.2)
    spellings keywordSpellings := by
  exact .cons ⟨rfl, finds_spelling (by decide)⟩ (.cons ⟨rfl, finds_spelling (by decide)⟩
    (.cons ⟨rfl, finds_repeatUntil⟩ (.cons ⟨rfl, finds_spelling (by decide)⟩
    (.cons ⟨rfl, finds_spelling (by decide)⟩ (.cons ⟨rfl, finds_spelling (by decide)⟩
    (.cons ⟨rfl, finds_spelling (by decide)⟩ .nil))))))

theorem FindsKind.of_finds {reader : List Char → Except ByteFault (Option Nat)}
    {length : List Char → Option Nat} (h : Finds reader length) (kind : Kind) :
    FindsKind (fun cs => return (← reader cs).map (kind, ·))
      (fun cs => (length cs).map (kind, ·)) := by
  intro cs
  dsimp only
  rw [h, ok_bind, pure_eq_ok, Option.map_map, Option.map_map]
  rfl

theorem findsKind_spelled : FindsKind spelled keywordAt := by
  intro cs
  refine findSomeM?_eq_ok (spellings_find.imp ?_)
  rintro ⟨kind, spelling⟩ ⟨_, length⟩ ⟨rfl, h⟩
  exact FindsKind.of_finds h kind cs

theorem findsKind_keyword (operators : Bool) :
    FindsKind (keyword operators) (keywordLexeme operators) := by
  intro cs
  rw [keyword, findsKind_spelled, ok_bind, keywordLexeme]
  cases keywordAt cs with
  | none => rfl
  | some found =>
    obtain ⟨kind, n⟩ := found
    have hcut := fromByte_prefixSize cs n
    have hlabel := FindsKind.of_finds (finds_label operators) .label cs
    dsimp only [Option.map_some, inBytes]
    rw [hcut, ok_bind, finds_unit, ok_bind, Option.isSome_map, ← startsUnit]
    split
    · exact hlabel
    · rfl

/-! ## Tokens -/

theorem findsKind_number (operators : Bool) :
    FindsKind (numberOrLabel operators) (numberLexeme operators) := by
  intro cs
  rw [numberOrLabel, finds_number, ok_bind, numberLexeme]
  cases hnumber : numberLength cs with
  | none => rfl
  | some n =>
    dsimp only [Option.map_some]
    rw [finds_label, ok_bind]
    cases hlabel : labelLength operators cs with
    | none => rfl
    | some m =>
      by_cases hlt : n < m
      · have hbytes := (prefixSize_lt_iff (labelLength_le hlabel)).2 hlt
        simp [inBytes, hlt, hbytes]
      · have hbytes := mt (prefixSize_lt_iff (labelLength_le hlabel)).1 hlt
        simp [inBytes, hlt, hbytes]

theorem findsKind_bracket : FindsKind (fun cs => return bracketLexeme cs) bracketLexeme := by
  intro cs
  have hone : (bracketLexeme cs).map (inBytes cs) = bracketLexeme cs := by
    unfold bracketLexeme
    split <;> rfl
  exact congrArg Except.ok hone.symm

theorem finds_marker (cs : List Char) :
    (markerLength cs).map (prefixSize cs) = markerLength cs := by
  unfold markerLength
  split <;> rfl

/-- The kinds and lengths that the readers find, in characters. -/
def lexemes (operators : Bool) : List (List Char → Option (Kind × Nat)) :=
  [fun cs => (delimitedLength '|' '|' cs).map (.remark, ·),
    fun cs => (delimitedLength '"' '"' cs).map (.stringLiteral, ·),
    numberLexeme operators,
    fun cs => (colorLength cs).map (.colorLiteral, ·),
    fun cs => (delimitedLength '[' ']' cs).map (.choiceLiteral, ·),
    keywordLexeme operators,
    fun cs => (delimiterLength cs).map (.delimiter, ·),
    fun cs => (labelLength operators cs).map (.label, ·),
    bracketLexeme,
    fun cs => (markerLength cs).map (.doubleColon, ·),
    fun cs => (identifierLength cs).map (.identifier, ·)]

theorem findSome?_lexemes (operators : Bool) (cs : List Char) :
    (lexemes operators).findSome? (· cs) = lexeme operators cs := by
  have hcons : ∀ (lex : List Char → Option (Kind × Nat)) rest,
      (lex :: rest).findSome? (· cs) = (lex cs).or (rest.findSome? (· cs)) := by
    intro lex rest
    rw [List.findSome?_cons]
    cases lex cs <;> rfl
  simp only [lexemes, hcons, List.findSome?_nil, Option.or_none, lexeme, Option.orElse_eq_orElse,
    Option.orElse_eq_or]

theorem readers_find (operators : Bool) :
    List.Forall₂ FindsKind (readers operators) (lexemes operators) := by
  have hdelimited : ∀ opening closing,
      Finds (fun cs => return delimited opening closing cs) (delimitedLength opening closing) :=
    fun opening closing cs => congrArg Except.ok (finds_delimited opening closing cs)
  have hcolor : Finds (fun cs => return color cs) colorLength :=
    fun cs => congrArg Except.ok (finds_color cs)
  have hmarker : Finds (fun cs => return markerLength cs) markerLength :=
    fun cs => congrArg Except.ok (finds_marker cs).symm
  have hidentifier : Finds (fun cs => return identifier cs) identifierLength :=
    fun cs => congrArg Except.ok (finds_identifier cs)
  exact .cons (.of_finds (hdelimited _ _) _) (.cons (.of_finds (hdelimited _ _) _)
    (.cons (findsKind_number operators) (.cons (.of_finds hcolor _)
    (.cons (.of_finds (hdelimited _ _) _) (.cons (findsKind_keyword operators)
    (.cons (.of_finds finds_delimiter _) (.cons (.of_finds (finds_label operators) _)
    (.cons findsKind_bracket (.cons (.of_finds hmarker _) (.cons (.of_finds hidentifier _)
    .nil))))))))))

theorem findsKind_token (operators : Bool) : FindsKind (token operators) (lexeme operators) := by
  intro cs
  rw [token, ← findSome?_lexemes]
  exact findSomeM?_eq_ok ((readers_find operators).imp fun _ _ h => h cs)

/-! ## Sources -/

section Source

variable {source before rest : List Char} {s : State} (hsource : source = before ++ rest)
  (hplace : s.place.offset = byteSize before)

include hsource hplace

theorem sliceBytes_prefixSize (n : Nat) :
    sliceBytes s.place.offset (s.place.offset + prefixSize rest n) source = .ok (rest.take n) := by
  have hslice := sliceBytes_byteSize before (rest.take n) (rest.drop n)
  rwa [List.take_append_drop, ← hsource, ← hplace] at hslice

/-- Behind trivia the state stands where reading by characters does. -/
theorem pass_eq (n : Nat) : s.pass source (prefixSize rest n) =
    .ok { s with place := s.place.after (rest.take n) } := by
  have hplace' : (⟨s.place.offset + prefixSize rest n, (s.place.after (rest.take n)).position⟩ :
      Place) = s.place.after (rest.take n) := by
    rw [prefixSize, ← Place.offset_after]
  rw [State.pass, sliceBytes_prefixSize hsource hplace, ok_bind, hplace']
  rfl

theorem take_eq (kind : Kind) (n : Nat) : s.take source kind (prefixSize rest n) =
    .ok ⟨s.place.after (rest.take n), angleDepth s.depth kind,
      s.tokens ++ [.ofText kind s.place (rest.take n)]⟩ := by
  rw [State.take, sliceBytes_prefixSize hsource hplace, ok_bind]
  exact pass_eq (s := ⟨s.place, angleDepth s.depth kind,
    s.tokens ++ [.ofText kind s.place (rest.take n)]⟩) hsource hplace n

theorem after_bounds {n : Nat} (hpos : 0 < n) (hle : n ≤ rest.length) :
    s.place.offset < (s.place.after (rest.take n)).offset ∧
      (s.place.after (rest.take n)).offset ≤ byteSize source := by
  have hsize := prefixSize_pos hpos hle
  have hmost := prefixSize_le rest n
  rw [Place.offset_after, ← prefixSize, hsource, byteSize_append]
  omega

end Source

/-- Reading goes on from a state: some of the source is read, and from there the tokens are those
that reading by characters gives. -/
def ReadsOn (source : List Char) (s : State) (result : Except LexicalError (List Token)) : Prop :=
  ∃ before rest, source = before ++ rest ∧ s.place = Place.origin.after before ∧
    result = (tokensFrom s.depth s.place rest).map (s.tokens ++ ·)

theorem ReadsOn.step {source before rest : List Char} {s : State} {n depth : Nat}
    {ts : List Token} (hsource : source = before ++ rest)
    (hplace : s.place = Place.origin.after before) :
    ReadsOn source ⟨s.place.after (rest.take n), depth, ts⟩
      ((tokensFrom depth (s.place.after (rest.take n)) (rest.drop n)).map (ts ++ ·)) := by
  refine ⟨before ++ rest.take n, rest.drop n, ?_, ?_, rfl⟩
  · rw [List.append_assoc, List.take_append_drop, hsource]
  · rw [hplace, Place.after_append]

/-- A token in front of what is still read is the last of those taken. -/
theorem map_cons_map_append (ts : List Token) (t : Token) :
    ∀ result : Except LexicalError (List Token),
      (result.map (t :: ·)).map (ts ++ ·) = result.map (ts ++ [t] ++ ·)
  | .error _ => rfl
  | .ok later => by simp [Except.map]

/-- Every round reads on, and gets further. -/
theorem round_eq {source : List Char} {s : State} {result : Except LexicalError (List Token)}
    (h : ReadsOn source s result) : round source s = .ok (.inr result) ∨
      ∃ s', round source s = .ok (.inl s') ∧ s.place.offset < s'.place.offset ∧
        s'.place.offset ≤ byteSize source ∧ ReadsOn source s' result := by
  obtain ⟨before, rest, hsource, hplace, rfl⟩ := h
  have hoffset : s.place.offset = byteSize before := by
    rw [hplace, Place.offset_after]
    exact Nat.zero_add _
  have hcut : fromByte s.place.offset source = .ok rest := by
    rw [hoffset, hsource, fromByte_byteSize]
  by_cases hrest : rest = []
  · subst hrest
    have hend : ¬s.place.offset < byteSize source := by
      rw [hoffset, hsource, List.append_nil]
      exact Nat.lt_irrefl _
    rw [round, if_neg hend, tokensFrom, if_pos rfl]
    left
    change _ = Except.ok (Sum.inr (Except.ok (s.tokens ++ [])))
    rw [List.append_nil]
    rfl
  have hmore : s.place.offset < byteSize source := by
    have hpos := byteSize_pos hrest
    rw [hoffset, hsource, byteSize_append]
    omega
  have hdepth : (decide (s.depth > 0)) = decide (s.depth ≠ 0) := by simp [Nat.pos_iff_ne_zero]
  rw [round, if_pos hmore, hcut, ok_bind, finds_trivia, ok_bind]
  cases htrivia : triviaLength rest with
  | some n =>
    obtain ⟨hlt, hle⟩ := after_bounds hsource hoffset (triviaLength_pos htrivia)
      (triviaLength_le htrivia)
    dsimp only [Option.map_some]
    rw [pass_eq hsource hoffset, tokensFrom_of_trivia htrivia]
    exact .inr ⟨_, rfl, hlt, hle, .step hsource hplace⟩
  | none =>
    dsimp only [Option.map_none]
    rw [findsKind_token, ok_bind, hdepth]
    cases hlexeme : lexeme (s.depth ≠ 0) rest with
    | some found =>
      obtain ⟨kind, n⟩ := found
      obtain ⟨hlt, hle⟩ := after_bounds hsource hoffset (lexeme_pos hlexeme) (lexeme_le hlexeme)
      dsimp only [Option.map_some, inBytes]
      rw [take_eq hsource hoffset, tokensFrom_of_lexeme htrivia hlexeme]
      rw [map_cons_map_append]
      exact .inr ⟨_, rfl, hlt, hle, .step hsource hplace⟩
    | none =>
      have hunreadable := (unreadable_iff (s.depth ≠ 0) hrest).2 ⟨htrivia, hlexeme⟩
      rw [tokensFrom_of_unreadable hunreadable]
      exact .inl rfl

/-- Reading by bytes gives what reading by characters gives. -/
theorem tokens_eq (source : String) : tokens source = .ok (tokenize source) := by
  refine rounds_eq_ok (ReadsOn source.toList) (fun s r => round_eq)
    ⟨[], source.toList, rfl, rfl, ?_⟩
  rw [tokenize]
  cases tokensFrom 0 .origin source.toList <;> rfl

end Bytewise

/-! ## Safety -/

/-- A length in bytes ends behind a character of a text. -/
structure IsCut (cs : List Char) (n : Nat) : Prop where
  pos : 1 ≤ n
  le : n ≤ byteSize cs
  boundary : (⟨n⟩ : String.Pos.Raw).IsValid (String.ofList cs)

theorem isCut_prefixSize {cs : List Char} {n : Nat} (hpos : 0 < n) (hle : n ≤ cs.length) :
    IsCut cs (prefixSize cs n) where
  pos := prefixSize_pos hpos hle
  le := prefixSize_le cs n
  boundary := by
    refine Span.isValid_byteSize (l := cs.take n) (r := cs.drop n) ?_
    rw [String.toList_ofList, List.take_append_drop]

/-- A text can be cut at the boundaries of its characters alone, and no reader ever fails: each
gives the length that its counterpart by characters gives, in bytes. Trivia and tokens take at
least one byte, no more than there are, and end at a boundary. So all of a source is read, to the
tokens or to the error that reading by characters gives. -/
theorem bytewise_safe (operators : Bool) (cs : List Char) :
    (∀ n, (∃ parts, splitAtByte cs n = .ok parts) ↔
      (⟨n⟩ : String.Pos.Raw).IsValid (String.ofList cs)) ∧
    (∃ found, Bytewise.trivia cs = .ok found ∧ found = (triviaLength cs).map (prefixSize cs) ∧
      ∀ n ∈ found, IsCut cs n) ∧
    (∃ found, Bytewise.token operators cs = .ok found ∧
      found = (lexeme operators cs).map (fun (kind, n) => (kind, prefixSize cs n)) ∧
      ∀ token ∈ found, IsCut cs token.2) ∧
    (∀ opening closing, Bytewise.delimited opening closing cs =
      (delimitedLength opening closing cs).map (prefixSize cs)) ∧
    Bytewise.number cs = .ok ((numberLength cs).map (prefixSize cs)) ∧
    Bytewise.keyword operators cs =
      .ok ((keywordLexeme operators cs).map fun (kind, n) => (kind, prefixSize cs n)) ∧
    Bytewise.repeatUntil cs = .ok ((repeatUntilLength cs).map (prefixSize cs)) ∧
    Bytewise.delimiter cs = .ok ((delimiterLength cs).map (prefixSize cs)) ∧
    Bytewise.unit cs = .ok ((unitLength cs).map (prefixSize cs)) ∧
    Bytewise.label operators cs = .ok ((labelLength operators cs).map (prefixSize cs)) ∧
    Bytewise.operator cs =
      .ok ((if startsOperator cs then some 1 else none).map (prefixSize cs)) ∧
    Bytewise.closes cs = .ok (closesClause cs) ∧
    ∀ source, Bytewise.tokens source = .ok (tokenize source) := by
  refine ⟨fun n => exists_splitAtByte_iff, ⟨_, Bytewise.finds_trivia cs, rfl, ?_⟩,
    ⟨_, Bytewise.findsKind_token operators cs, rfl, ?_⟩,
    fun opening closing => Bytewise.finds_delimited opening closing cs, Bytewise.finds_number cs,
    Bytewise.findsKind_keyword operators cs, Bytewise.finds_repeatUntil cs,
    Bytewise.finds_delimiter cs, Bytewise.finds_unit cs, Bytewise.finds_label operators cs,
    Bytewise.finds_operator cs, Bytewise.closes_eq cs, Bytewise.tokens_eq⟩
  · intro n hn
    obtain ⟨m, hm, rfl⟩ := Option.map_eq_some_iff.1 hn
    exact isCut_prefixSize (triviaLength_pos hm) (triviaLength_le hm)
  · intro token htoken
    obtain ⟨⟨kind, m⟩, hm, rfl⟩ := Option.map_eq_some_iff.1 htoken
    exact isCut_prefixSize (lexeme_pos hm) (lexeme_le hm)

/-- A comparison that ends with an escaped character of two bytes, in front of a word that closes a
clause. -/
theorem bytewise_safe_escapedAccent :
    Bytewise.token true "x > \\é end".toList = .ok (some (.label, 7)) ∧
      IsCut "x > \\é end".toList 7 := by
  obtain ⟨found, htoken, hfound, hcut⟩ := (bytewise_safe true "x > \\é end".toList).2.2.1
  have hlabel : found = some (.label, 7) := hfound.trans (by decide +kernel)
  exact ⟨hlabel ▸ htoken, hcut (.label, 7) hlabel⟩

end BlockNotation
