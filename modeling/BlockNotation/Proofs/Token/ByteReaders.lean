import BlockNotation.Proofs.Token.Bytewise

/-!
# What reading by bytes finds

A length in characters is the length in bytes of that many characters (`prefixSize`), and a text can
always be cut there (`fromByte_prefixSize`). So a reader by bytes does not fail if it finds what a
reader by characters finds (`Finds`). This holds of the readers of trivia, of texts in brackets, of
numbers, colours, delimiters and names, and of labels with all that they look at.

Two facts carry the proofs: what is counted in bytes is ASCII, so that its characters and its bytes
are as many, and the loops of a label stop behind the same characters as the recursions that read it
by characters (`rounds_eq_ok`).
-/

namespace BlockNotation

/-- The number of bytes of the first `n` characters of a text. -/
def prefixSize (cs : List Char) (n : Nat) : Nat := byteSize (cs.take n)

/-- A reader by bytes gives the lengths that `length` gives in characters. -/
def Finds (reader : List Char → Except ByteFault (Option Nat))
    (length : List Char → Option Nat) : Prop :=
  ∀ cs, reader cs = .ok ((length cs).map (prefixSize cs))

@[simp] theorem ok_bind {α β : Type} (a : α) (f : α → Except ByteFault β) :
    (Except.ok a >>= f) = f a := rfl

@[simp] theorem pure_eq_ok {α : Type} (a : α) : (pure a : Except ByteFault α) = .ok a := rfl

/-! ## Sizes of beginnings -/

section Prefix

variable {cs : List Char} {m n : Nat}

theorem prefixSize_cons (c : Char) (cs : List Char) (n : Nat) :
    prefixSize (c :: cs) (n + 1) = c.utf8Size + prefixSize cs n := by
  rw [prefixSize, List.take_succ_cons, byteSize_cons, prefixSize]

theorem prefixSize_add (cs : List Char) (m n : Nat) :
    prefixSize cs (m + n) = prefixSize cs m + prefixSize (cs.drop m) n := by
  rw [prefixSize, List.take_add, byteSize_append, prefixSize, prefixSize]

theorem prefixSize_le (cs : List Char) (n : Nat) : prefixSize cs n ≤ byteSize cs := by
  conv_rhs => rw [← List.take_append_drop n cs, byteSize_append]
  exact Nat.le_add_right _ _

theorem prefixSize_pos (hpos : 0 < n) (hle : n ≤ cs.length) : 0 < prefixSize cs n := by
  refine byteSize_pos fun hnil => ?_
  rcases List.take_eq_nil_iff.1 hnil with hzero | rfl
  · omega
  · simp only [List.length_nil] at hle
    omega

theorem prefixSize_lt_iff (hle : n ≤ cs.length) : prefixSize cs m < prefixSize cs n ↔ m < n := by
  rcases Nat.lt_or_ge m n with hlt | hge
  · have hmore := prefixSize_add cs m (n - m)
    have hpos : 0 < prefixSize (cs.drop m) (n - m) :=
      prefixSize_pos (by omega) (by rw [List.length_drop]; omega)
    rw [Nat.add_sub_cancel' hlt.le] at hmore
    omega
  · have hmore := prefixSize_add cs n (m - n)
    rw [Nat.add_sub_cancel' hge] at hmore
    omega

/-- A text can be cut where a beginning of it ends. -/
theorem fromByte_prefixSize (cs : List Char) (n : Nat) :
    fromByte (prefixSize cs n) cs = .ok (cs.drop n) := by
  have h := fromByte_byteSize (cs.take n) (cs.drop n)
  rwa [List.take_append_drop] at h

variable {p : Char → Bool}

theorem prefixSize_of_le (hp : AsciiOnly p) (h : n ≤ (cs.takeWhile p).length) :
    prefixSize cs n = n := by
  have hle : n ≤ cs.length := Nat.le_trans h (List.takeWhile_prefix p).length_le
  rw [prefixSize, byteSize_of_ascii fun c hc => hp c (of_mem_take h hc), List.length_take,
    Nat.min_eq_left hle]

theorem prefixSize_add_takeWhile (hp : AsciiOnly p) (cs : List Char) (n : Nat) :
    prefixSize cs (n + ((cs.drop n).takeWhile p).length) =
      prefixSize cs n + ((cs.drop n).takeWhile p).length := by
  rw [prefixSize_add, prefixSize_of_le hp (Nat.le_refl _)]

/-- A text can be cut behind ASCII characters. -/
theorem fromByte_takeWhile (hp : AsciiOnly p) (cs : List Char) (n : Nat) :
    fromByte (prefixSize cs n + ((cs.drop n).takeWhile p).length) cs =
      .ok ((cs.drop n).dropWhile p) := by
  rw [← prefixSize_add_takeWhile hp, fromByte_prefixSize, dropWhile_eq_drop, List.drop_drop]

end Prefix

/-! ## ASCII characters -/

theorem asciiOnly_isBlank : AsciiOnly isBlank := by
  intro c hc
  rcases isBlank_iff.1 hc with rfl | rfl | rfl <;> decide

theorem asciiOnly_isDigit : AsciiOnly Char.isDigit := by
  intro c hc
  simp only [Char.isDigit, Bool.and_eq_true, decide_eq_true_eq, UInt32.le_iff_toNat_le] at hc
  exact Nat.lt_of_le_of_lt hc.2 (by decide)

/-- Only ASCII characters have another case. -/
theorem ascii_of_toLower {c : Char} (h : c.toLower.toNat < 128) : c.toNat < 128 := by
  unfold Char.toLower at h
  split at h
  · next hupper => exact Nat.lt_of_le_of_lt (UInt32.le_iff_toNat_le.1 hupper.2) (by decide)
  · exact h

theorem asciiOnly_isHexDigit : AsciiOnly isHexDigit := by
  intro c hc
  simp only [isHexDigit, Bool.or_eq_true, Bool.and_eq_true, decide_eq_true_eq] at hc
  rcases hc with hdigit | ⟨-, hle⟩
  · exact asciiOnly_isDigit c hdigit
  · exact ascii_of_toLower (Nat.lt_of_le_of_lt (UInt32.le_iff_toNat_le.1 hle) (by decide))

theorem ascii_of_isLower {c : Char} (h : c.isLower) : c.toNat < 128 := by
  have hle : c.val ≤ 'z'.val := of_decide_eq_true (Bool.and_eq_true_iff.1 h).2
  exact Nat.lt_of_le_of_lt (UInt32.le_iff_toNat_le.1 hle) (by decide)

theorem ascii_of_isUpper {c : Char} (h : c.isUpper) : c.toNat < 128 := by
  have hle : c.val ≤ 'Z'.val := (of_decide_eq_true h).2
  exact Nat.lt_of_le_of_lt (UInt32.le_iff_toNat_le.1 hle) (by decide)

theorem asciiOnly_name : AsciiOnly fun c => c.isAlphanum || c = '_' := by
  intro c hc
  rcases Bool.or_eq_true_iff.1 hc with halphanum | hunderscore
  · rcases Bool.or_eq_true_iff.1 halphanum with halpha | hdigit
    · rcases Bool.or_eq_true_iff.1 halpha with hupper | hlower
      · exact ascii_of_isUpper hupper
      · exact ascii_of_isLower hlower
    · exact asciiOnly_isDigit c hdigit
  · rw [of_decide_eq_true hunderscore]
    decide

theorem asciiOnly_space : AsciiOnly fun c => c = ' ' || c = '\t' := by
  intro c hc
  simp only [Bool.or_eq_true, decide_eq_true_eq] at hc
  rcases hc with rfl | rfl <;> decide

namespace Bytewise

/-! ## Trivia -/

theorem find_lineFeed (cs : List Char) :
    (find ['\n'] cs).getD (byteSize cs) = byteSize (cs.takeWhile (· ≠ '\n')) := by
  induction cs with
  | nil => rfl
  | cons c cs ih =>
    by_cases hc : c = '\n'
    · subst hc
      rfl
    · have hnot : '\n' ≠ c := Ne.symm hc
      have hfind : find ['\n'] (c :: cs) = (find ['\n'] cs).map (· + c.utf8Size) := by
        simp [find, List.isPrefixOf, hnot]
      rw [hfind, List.takeWhile_cons_of_pos (by simpa using hc), byteSize_cons, byteSize_cons, ← ih]
      cases find ['\n'] cs with
      | none => rfl
      | some n => exact Nat.add_comm _ _

theorem find_commentEnd (cs : List Char) :
    (find ['*', '/'] cs).map (· + 2) = (commentLength cs).map (prefixSize cs) := by
  fun_induction commentLength cs with
  | case1 => rfl
  | case2 rest => simp [find, List.isPrefixOf, prefixSize, Char.utf8Size]
  | case3 c rest hnot ih =>
    have hfind : find ['*', '/'] (c :: rest) = (find ['*', '/'] rest).map (· + c.utf8Size) := by
      rw [find, if_neg]
      rcases rest with _ | ⟨d, rest⟩
      · simp [List.isPrefixOf]
      · simp only [List.isPrefixOf, Bool.and_true, Bool.and_eq_true, beq_iff_eq]
        rintro ⟨rfl, rfl⟩
        exact hnot _ rfl rfl
    have hcons : prefixSize (c :: rest) ∘ (· + 1) = (c.utf8Size + ·) ∘ prefixSize rest :=
      funext fun n => prefixSize_cons c rest n
    rw [hfind, Option.map_map, Option.map_map, hcons, ← Option.map_map _ (prefixSize rest), ← ih,
      Option.map_map]
    refine congrArg (Option.map · _) (funext fun n => ?_)
    simp only [Function.comp_apply]
    omega

theorem finds_trivia : Finds trivia triviaLength := by
  intro cs
  have hgap : countWhile isBlank cs = gapLength cs := countWhile_eq asciiOnly_isBlank cs
  unfold trivia triviaLength
  simp only [hgap, Nat.pos_iff_ne_zero, List.isPrefixOf_iff_prefix]
  by_cases h : gapLength cs ≠ 0
  · have hsize : prefixSize cs (gapLength cs) = gapLength cs :=
      prefixSize_of_le asciiOnly_isBlank (Nat.le_refl _)
    rw [if_pos h, if_pos h, Option.map_some, hsize]
    rfl
  rw [if_neg h, if_neg h]
  by_cases hline : ['/', '/'] <+: cs
  · obtain ⟨rest, rfl⟩ := hline
    have hlength : (rest.takeWhile (· ≠ '\n')).length + 2 =
        ((['/', '/'] ++ rest).takeWhile (· ≠ '\n')).length := rfl
    rw [if_pos (List.prefix_append _ _), find_lineFeed, ← take_takeWhile_length]
    exact congrArg (fun n => Except.ok (some (prefixSize _ n))) hlength.symm
  by_cases hblock : ['/', '*'] <+: cs
  · obtain ⟨rest, rfl⟩ := hblock
    have hcut : fromByte 2 (['/', '*'] ++ rest) = .ok rest := fromByte_byteSize ['/', '*'] rest
    have hsize : prefixSize (['/', '*'] ++ rest) ∘ (· + 2) = (2 + ·) ∘ prefixSize rest :=
      funext fun n => (congrArg _ (Nat.add_comm n 2)).trans (prefixSize_add _ 2 n)
    rw [if_neg hline, if_pos (List.prefix_append _ _), hcut]
    refine congrArg Except.ok ?_
    change _ = ((commentLength rest).map (· + 2)).map (prefixSize (['/', '*'] ++ rest))
    rw [Option.map_map, hsize, ← Option.map_map _ (prefixSize rest), ← find_commentEnd,
      Option.map_map]
    refine congrArg (Option.map · _) (funext fun n => ?_)
    simp only [Function.comp_apply]
    omega
  · rw [if_neg hline, if_neg hblock]
    split
    · next rest => exact absurd ⟨rest, rfl⟩ hline
    · next rest => exact absurd ⟨rest, rfl⟩ hblock
    · rfl

/-! ## Texts in brackets, numbers, colours, delimiters and names -/

theorem closedFrom_eq (closing : Char) (start : Nat) (cs : List Char) :
    closedFrom closing start cs =
      (closedLength closing cs).map fun n => start + prefixSize cs n := by
  fun_induction closedFrom closing start cs with
  | case1 => rfl
  | case2 start rest =>
    rw [closedLength_here, Option.map_some, prefixSize_cons]
    rfl
  | case3 start h => rw [closedLength, if_neg h, if_pos rfl, Option.map_none]
  | case4 start cs h => rw [closedLength, if_neg h, if_pos rfl, if_pos rfl, Option.map_none]
  | case5 start e rest he h ih =>
    rw [ih, closedLength, if_neg h, if_pos rfl, if_neg he, Option.map_map]
    refine congrArg (Option.map · _) (funext fun n => ?_)
    simp only [Function.comp_apply, prefixSize_cons, Nat.add_assoc]
  | case6 start c rest hc hb ih =>
    rw [ih, closedLength_plain hc hb, Option.map_map]
    refine congrArg (Option.map · _) (funext fun n => ?_)
    simp only [Function.comp_apply, prefixSize_cons, Nat.add_assoc]

theorem finds_delimited (opening closing : Char) (cs : List Char) :
    delimited opening closing cs = (delimitedLength opening closing cs).map (prefixSize cs) := by
  rcases cs with _ | ⟨c, rest⟩
  · rfl
  rw [delimited, delimitedLength]
  split
  · rw [closedFrom_eq, Option.map_map]
    exact congrArg (Option.map · _) (funext fun n => (prefixSize_cons c rest n).symm)
  · rfl

/-- The bytes behind a beginning of a text are those of what is behind it. -/
theorem drop_bytesOf (cs : List Char) (n : Nat) :
    (bytesOf cs).drop (prefixSize cs n) = bytesOf (cs.drop n) := by
  have hsplit : bytesOf cs = bytesOf (cs.take n) ++ bytesOf (cs.drop n) := by
    rw [← bytesOf_append, List.take_append_drop]
  rw [hsplit, prefixSize, ← length_bytesOf, List.drop_left]

theorem digitsFrom_eq (cs : List Char) (n : Nat) :
    digitsFrom (prefixSize cs n) (bytesOf cs) = .ok (digitsLength (cs.drop n)) := by
  rw [digitsFrom, length_bytesOf, if_pos (prefixSize_le cs n), drop_bytesOf]
  exact congrArg Except.ok (countWhile_eq asciiOnly_isDigit _)

theorem getElem?_bytesOf {c : Char} (hc : c.toNat < 128) (cs : List Char) (n : Nat) :
    (bytesOf cs)[prefixSize cs n]? = some (UInt8.ofNat c.toNat) ↔ (cs.drop n).head? = some c := by
  rw [← List.head?_drop, drop_bytesOf, head?_bytesOf hc]

theorem unsignedFrom_eq (cs : List Char) (n : Nat) :
    unsignedFrom (prefixSize cs n) (bytesOf cs) =
      .ok ((unsignedLength (cs.drop n)).map fun m => prefixSize cs (n + m)) := by
  rw [unsignedFrom, digitsFrom_eq, ok_bind, unsignedLength]
  by_cases hzero : digitsLength (cs.drop n) = 0
  · rw [if_pos hzero, if_pos hzero]
    rfl
  have hsize : ∀ n, prefixSize cs (n + digitsLength (cs.drop n)) =
      prefixSize cs n + digitsLength (cs.drop n) := prefixSize_add_takeWhile asciiOnly_isDigit cs
  rw [if_neg hzero, if_neg hzero, ← hsize, List.drop_drop]
  -- a name for the count, so that the digits of the fraction are not confused with it
  obtain ⟨digits, hdigits⟩ : ∃ digits, digitsLength (cs.drop n) = digits := ⟨_, rfl⟩
  rw [hdigits]
  have hpoint : (bytesOf cs)[prefixSize cs (n + digits)]? = some 46 ↔
      (cs.drop (n + digits)).head? = some '.' :=
    getElem?_bytesOf (c := '.') (by decide) cs (n + digits)
  dsimp only
  by_cases hhead : (cs.drop (n + digits)).head? = some '.'
  · obtain ⟨rest, hrest⟩ := List.head?_eq_some_iff.1 hhead
    have hstop : prefixSize cs (n + digits) + 1 = prefixSize cs (n + (digits + 1)) := by
      rw [← Nat.add_assoc, prefixSize_add cs (n + digits), hrest]
      rfl
    have hdrop : cs.drop (n + (digits + 1)) = rest := by
      rw [← Nat.add_assoc, ← List.drop_drop, hrest, List.drop_one, List.tail_cons]
    have hfraction := hsize (n + (digits + 1))
    have hsome := digitsFrom_eq cs (n + (digits + 1))
    rw [hdrop] at hfraction hsome
    rw [if_pos (hpoint.2 hhead), hstop, hsome, ok_bind, hrest, ← hfraction]
    by_cases hnone : digitsLength rest = 0
    · simp [hnone]
    · simp [hnone, Nat.pos_iff_ne_zero, Nat.add_assoc]
  · rw [if_neg (mt hpoint.1 hhead)]
    split
    · next rest hrest => exact absurd (by rw [hrest]; rfl) hhead
    · rfl

theorem finds_number : Finds number numberLength := by
  intro cs
  have hsign : (bytesOf cs).head? = some 45 ↔ cs.head? = some '-' :=
    head?_bytesOf (c := '-') (by decide) cs
  rw [number]
  by_cases hminus : cs.head? = some '-'
  · obtain ⟨rest, rfl⟩ := List.head?_eq_some_iff.1 hminus
    have hfrom := unsignedFrom_eq ('-' :: rest) 1
    rw [if_pos (hsign.2 hminus)]
    refine hfrom.trans (congrArg Except.ok ?_)
    rw [List.drop_one, List.tail_cons, numberLength, Option.map_map]
    exact congrArg (Option.map · _) (funext fun n => congrArg _ (Nat.add_comm 1 n))
  · have hfrom := unsignedFrom_eq cs 0
    rw [if_neg (mt hsign.1 hminus)]
    refine hfrom.trans (congrArg Except.ok ?_)
    rw [List.drop_zero, numberLength]
    · exact congrArg (Option.map · _) (funext fun n => congrArg _ (Nat.zero_add n))
    · rintro rest rfl
      exact hminus rfl

theorem prefixSize_cons_ascii {p : Char → Bool} (hp : AsciiOnly p) {c : Char} (hc : c.toNat < 128)
    {rest : List Char} {n : Nat} (h : n ≤ (rest.takeWhile p).length) :
    prefixSize (c :: rest) (n + 1) = n + 1 := by
  rw [prefixSize_cons, prefixSize_of_le hp h, utf8Size_of_ascii hc, Nat.add_comm]

theorem finds_color (cs : List Char) : color cs = (colorLength cs).map (prefixSize cs) := by
  unfold color
  split
  · next rest =>
    simp only [colorLength, countWhile_eq asciiOnly_isHexDigit]
    have hsize : ∀ n, n ≤ (rest.takeWhile isHexDigit).length →
        prefixSize ('#' :: rest) (n + 1) = n + 1 :=
      fun n => prefixSize_cons_ascii asciiOnly_isHexDigit (by decide)
    split
    · next hsix => simp [hsize 6 hsix]
    · split
      · next hthree => simp [hsize 3 hthree]
      · rfl
  · next hother =>
    rw [colorLength]
    · rfl
    · exact hother

theorem finds_delimiter : Finds delimiter delimiterLength := by
  intro cs
  unfold delimiter
  split
  · next rest =>
    have hcut : fromByte (countWhile isBlank rest) rest = .ok (afterGap rest) :=
      fromByte_countWhile asciiOnly_isBlank rest
    rw [delimiterLength]
    dsimp only
    rw [hcut, ok_bind]
    by_cases hfeed : (afterGap rest).head? = some '\n'
    · obtain ⟨more, hmore⟩ := List.head?_eq_some_iff.1 hfeed
      have hsize : prefixSize (';' :: rest) (gapLength rest + 2) = gapLength rest + 2 := by
        rw [prefixSize_cons, prefixSize_add, ← afterGap_eq_drop, hmore,
          prefixSize_of_le asciiOnly_isBlank (Nat.le_refl (gapLength rest)), Nat.add_comm]
        rfl
      rw [if_pos hfeed, if_pos hfeed, countWhile_eq asciiOnly_isBlank, Option.map_some, hsize]
      rfl
    · rw [if_neg hfeed, if_neg hfeed]
      rfl
  · rfl
  · next hsemicolon hfeed =>
    rw [delimiterLength]
    · rfl
    · exact hsemicolon
    · exact hfeed

theorem finds_identifier (cs : List Char) :
    identifier cs = (identifierLength cs).map (prefixSize cs) := by
  unfold identifier
  split
  · next rest =>
    simp only [identifierLength, countWhile_eq asciiOnly_name, Nat.pos_iff_ne_zero, ite_not]
    split
    · rfl
    · rw [Option.map_some, prefixSize_cons_ascii asciiOnly_name (by decide) (Nat.le_refl _)]
  · next hother =>
    rw [identifierLength]
    · rfl
    · exact hother

/-! ## Words -/

section Word

variable {cs word : List Char} (hlower : word.all Char.isLower)

include hlower

theorem ascii_of_mem {c : Char} (hc : c ∈ word) : c.toNat < 128 :=
  ascii_of_isLower (List.all_eq_true.1 hlower c hc)

theorem byteSize_word : byteSize word = word.length :=
  byteSize_of_ascii fun _ hc => ascii_of_mem hlower hc

theorem prefixSize_word (h : startsWithWord cs word) :
    prefixSize cs word.length = byteSize word := by
  obtain ⟨hle, hchars⟩ := startsWithWord_chars h
  rw [prefixSize, byteSize_of_ascii, List.length_take, Nat.min_eq_left hle, byteSize_word hlower]
  exact fun c hc => ascii_of_toLower (ascii_of_mem hlower (hchars c hc))

theorem startsWith_eq : startsWith cs word = startsWithWord cs word := by
  rw [Bool.eq_iff_iff]
  constructor
  · intro h
    unfold startsWith at h
    split at h
    · next front behind hcut =>
      obtain ⟨rfl, -⟩ := splitAtByte_eq_ok_iff.1 hcut
      have hspelled : front.map Char.toLower = word := of_decide_eq_true h
      have hlength : word.length = front.length := by rw [← hspelled, List.length_map]
      rwa [startsWithWord_iff, hlength, List.take_left]
    · cases h
  · intro h
    have hcut : splitAtByte cs (byteSize word) =
        .ok (cs.take word.length, cs.drop word.length) := by
      rw [← prefixSize_word hlower h]
      exact splitAtByte_eq_ok_iff.2 ⟨(List.take_append_drop _ _).symm, rfl⟩
    rw [startsWith, hcut]
    exact decide_eq_true (startsWithWord_iff.1 h)

/-- A text that begins with a word can be cut behind it. -/
theorem fromByte_word (h : startsWithWord cs word) :
    fromByte (byteSize word) cs = .ok (cs.drop word.length) := by
  rw [← prefixSize_word hlower h, fromByte_prefixSize]

end Word

/-! ## Units -/

theorem finds_unit : Finds unit unitLength := by
  intro cs
  unfold unit
  split
  · rfl
  · next rest =>
    rcases rest with _ | ⟨d, rest⟩
    · rfl
    · have hsize : 1 + d.utf8Size = prefixSize ('\\' :: d :: rest) 2 := by
        rw [prefixSize_cons, prefixSize_cons]
        rfl
      rw [List.head?_cons, Option.map_some, hsize]
      rfl
  · next rest =>
    have hcut : fromByte 1 (':' :: rest) = .ok rest := fromByte_byteSize [':'] rest
    rw [hcut, ok_bind, unitLength]
    split <;> rfl
  · next c rest hb hc =>
    rw [unitLength]
    · split
      · rfl
      · rw [Option.map_some, prefixSize_cons]
        rfl
    · exact hb
    · exact hc

theorem anyM_eq_ok {α : Type} {check : α → Except ByteFault Bool} {p : α → Bool} :
    ∀ {l : List α}, (∀ a ∈ l, check a = .ok (p a)) → l.anyM check = .ok (l.any p)
  | [], _ => rfl
  | a :: l, h => by
    obtain ⟨ha, hl⟩ := List.forall_mem_cons.1 h
    rw [List.anyM, ha, ok_bind, List.any_cons]
    cases p a with
    | true => rfl
    | false => exact anyM_eq_ok hl

theorem closes_eq (cs : List Char) : closes cs = .ok (closesClause cs) := by
  have hlower : ∀ word ∈ ["end".toList, "else".toList], word.all Char.isLower := by decide
  refine anyM_eq_ok fun word hmem => ?_
  rw [startsWith_eq (hlower word hmem)]
  by_cases h : startsWithWord cs word
  · rw [if_pos h, fromByte_word (hlower word hmem) h, ok_bind, finds_unit, ok_bind, pure_eq_ok,
      Option.isNone_map, ← Option.not_isSome, h, Bool.true_and, startsUnit]
  · rw [if_neg h, eq_false_of_ne_true h]
    rfl

/-- The length of the operator of a comparison at the front of a text. -/
def operatorLength (cs : List Char) : Option Nat := if startsOperator cs then some 1 else none

theorem finds_operator : Finds operator operatorLength := by
  rintro (_ | ⟨c, rest⟩)
  · rfl
  rw [operator, operatorLength, startsOperator]
  by_cases hc : c = '<' ∨ c = '>'
  · have hone : prefixSize (c :: rest) 1 = 1 := by rcases hc with rfl | rfl <;> rfl
    have hcut := fromByte_prefixSize (c :: rest) 1
    have hnext := fromByte_takeWhile asciiOnly_isBlank (c :: rest) 1
    rw [hone, List.drop_one, List.tail_cons] at hcut
    rw [hone, List.drop_one, List.tail_cons, ← gapLength, ← afterGap] at hnext
    have hhead : (c :: rest).head? = some '<' ∨ (c :: rest).head? = some '>' := by simpa using hc
    rw [if_pos hhead, hcut, ok_bind]
    dsimp only
    rw [countWhile_eq asciiOnly_isBlank, ← gapLength]
    by_cases hgap : gapLength rest = 0
    · simp [hgap]
    rw [if_neg hgap, hnext, ok_bind, finds_unit, ok_bind, Option.isSome_map, ← startsUnit]
    by_cases hunit : startsUnit (afterGap rest)
    · cases hcloses : closesClause (afterGap rest) <;>
        simp [hc, hgap, hunit, closes_eq, hcloses, hone]
    · simp [hunit]
  · have hhead : ¬((c :: rest).head? = some '<' ∨ (c :: rest).head? = some '>') := by simpa using hc
    rw [if_neg hhead, if_neg]
    · rfl
    · simp_all

/-! ## Labels -/

/-- Unless it is a backslash, a character that begins a unit is all of it. -/
theorem unitLength_cons {c : Char} (hc : c ≠ '\\') (rest : List Char) :
    unitLength (c :: rest) = if startsUnit (c :: rest) then some 1 else none := by
  unfold startsUnit unitLength
  split
  · rfl
  · next h => exact absurd (List.cons.inj h).1 hc
  · split <;> rfl
  · split <;> rfl

theorem startsUnit_of_unitLength {cs : List Char} {n : Nat} (h : unitLength cs = some n) :
    startsUnit cs := by
  rw [startsUnit, h]
  rfl

/-- A word goes on behind its first unit. -/
theorem wordLength_behind_unit {cs : List Char} {n : Nat} (h : unitLength cs = some n) : 0 < n ∧
    n ≤ cs.length ∧ wordLength cs = n + wordLength (cs.drop n) := by
  have hstart := startsUnit_of_unitLength h
  obtain ⟨u, behind, rfl, hu⟩ := startsUnit_iff_isUnit.1 hstart
  have hlength : n = u.length := by
    rcases hu.cases_length with ⟨c, rfl⟩ | ⟨c, hc, rfl⟩
    · cases h
      rfl
    · rw [List.singleton_append] at h hstart
      rw [unitLength_cons hc, if_pos hstart] at h
      cases h
      rfl
  subst hlength
  rw [hu.wordLength, List.drop_left, List.length_append]
  refine ⟨?_, Nat.le_add_right _ _, rfl⟩
  rcases hu.cases_length with ⟨c, rfl⟩ | ⟨c, hc, rfl⟩ <;> simp

theorem units_eq (cs : List Char) (n : Nat) :
    units cs (prefixSize cs n) = .ok (prefixSize cs (n + wordLength (cs.drop n))) := by
  refine rounds_eq_ok (fun start stop => ∃ n, start = prefixSize cs n ∧
    stop = prefixSize cs (n + wordLength (cs.drop n))) ?_ ⟨n, rfl, rfl⟩
  rintro _ _ ⟨n, rfl, rfl⟩
  rw [fromByte_prefixSize, ok_bind, finds_unit, ok_bind]
  cases hunit : unitLength (cs.drop n) with
  | none =>
    have hstop : wordLength (cs.drop n) = 0 :=
      wordLength_eq_zero_iff.2 (by rw [startsUnit, hunit]; decide)
    rw [hstop]
    exact .inl rfl
  | some m =>
    obtain ⟨hpos, hle, hword⟩ := wordLength_behind_unit hunit
    have hsize := prefixSize_pos hpos hle
    refine .inr ⟨prefixSize cs (n + m), ?_, ?_, prefixSize_le cs _, n + m, rfl, ?_⟩
    · rw [prefixSize_add]
      rfl
    · rw [id, id, prefixSize_add]
      omega
    · rw [hword, List.drop_drop, Nat.add_assoc]

/-- How far a label goes on behind a complete word until it is in another word, or behind an
operator. -/
def labelMore (operators : Bool) (cs : List Char) : Option Nat :=
  if gapLength cs = 0 ∨ closesClause (afterGap cs) then none
  else
    (unitLength (afterGap cs) <|> if operators then operatorLength (afterGap cs) else none).map
      (gapLength cs + ·)

theorem labelTail_eq_zero_of_labelMore {operators : Bool} {cs : List Char}
    (h : labelMore operators cs = none) : labelTail operators cs = 0 := by
  unfold labelMore at h
  rw [labelTail_eq_zero_iff]
  split at h
  · next hend =>
    refine ⟨fun ⟨hgap, _, hcloses⟩ => not_or.2 ⟨hgap, hcloses⟩ hend, ?_⟩
    rintro ⟨hgap, -, hop⟩
    have hcloses := mt startsUnit_of_closesClause (not_startsUnit_of_startsOperator hop)
    exact not_or.2 ⟨hgap, hcloses⟩ hend
  · rw [Option.map_eq_none_iff, Option.orElse_eq_orElse, Option.orElse_eq_or,
      Option.or_eq_none_iff] at h
    refine ⟨fun hword => ?_, ?_⟩
    · have hunit := hword.2.1
      rw [startsUnit, h.1] at hunit
      cases hunit
    · rintro ⟨-, hallowed, hop⟩
      simp [operatorLength, hallowed, hop] at h

/-- From there the label goes on as behind every part of a word. -/
theorem labelTail_of_labelMore {operators : Bool} {cs : List Char} {n : Nat}
    (h : labelMore operators cs = some n) : 0 < n ∧ n ≤ cs.length ∧
      labelTail operators cs = n + wordLength (cs.drop n) +
        labelTail operators (cs.drop (n + wordLength (cs.drop n))) := by
  unfold labelMore at h
  split at h
  · cases h
  · next hgoes =>
    obtain ⟨hgap, hcloses⟩ := not_or.1 hgoes
    have hlength := gapLength_add_length_afterGap cs
    obtain ⟨m, hm, rfl⟩ := Option.map_eq_some_iff.1 h
    rw [Option.orElse_eq_orElse, Option.orElse_eq_or, Option.or_eq_some_iff] at hm
    rcases hm with hunit | ⟨-, hop⟩
    · have hstart := startsUnit_of_unitLength hunit
      obtain ⟨hpos, hle, hword⟩ := wordLength_behind_unit hunit
      refine ⟨by omega, by omega, ?_⟩
      rw [labelTail_of_wordAhead operators ⟨hgap, hstart, hcloses⟩, hword, afterGap_eq_drop]
      simp only [List.drop_drop, Nat.add_assoc]
    · split at hop
      · next hallowed =>
        obtain ⟨hstarts, hone⟩ := Option.ite_none_right_eq_some.1 hop
        cases hone
        obtain ⟨c, rest, hrest⟩ : ∃ c rest, afterGap cs = c :: rest :=
          List.exists_cons_of_ne_nil (by rintro hnil; rw [hnil] at hstarts; cases hstarts)
        have hcons := congrArg List.length hrest
        rw [List.length_cons] at hcons
        -- behind an operator there is a gap, so that no word goes on there
        have hstop : wordLength (cs.drop (gapLength cs + 1)) = 0 := by
          rw [← List.drop_drop, ← afterGap_eq_drop, hrest, List.drop_one, List.tail_cons,
            wordLength_eq_zero_iff]
          rw [hrest] at hstarts
          exact not_startsUnit_of_gap (startsOperator_cons.1 hstarts).2.1
        refine ⟨by omega, by omega, ?_⟩
        rw [labelTail_of_operator hgap hallowed hstarts, hstop, Nat.add_zero, afterGap_eq_drop,
          List.drop_drop]
      · cases hop

theorem labelRound_eq (operators : Bool) (cs : List Char) (n : Nat) :
    labelRound operators cs (prefixSize cs n) =
      .ok (match labelMore operators (cs.drop (n + wordLength (cs.drop n))) with
        | some m => .inl (prefixSize cs (n + wordLength (cs.drop n) + m))
        | none => .inr (prefixSize cs (n + wordLength (cs.drop n)))) := by
  rw [labelRound, units_eq, ok_bind]
  generalize n + wordLength (cs.drop n) = stop
  have hnext := fromByte_takeWhile asciiOnly_isBlank cs stop
  have hskip := prefixSize_add_takeWhile asciiOnly_isBlank cs stop
  rw [← gapLength, ← afterGap] at hnext
  rw [← gapLength] at hskip
  rw [fromByte_prefixSize, ok_bind]
  dsimp only
  rw [countWhile_eq asciiOnly_isBlank, ← gapLength, hnext, ok_bind, closes_eq, ok_bind, finds_unit,
    ok_bind, finds_operator, ok_bind, labelMore]
  by_cases hzero : gapLength (cs.drop stop) = 0
  · rw [if_pos hzero, if_pos (.inl hzero)]
    rfl
  by_cases hcloses : closesClause (afterGap (cs.drop stop))
  · rw [if_neg hzero, if_pos hcloses, if_pos (.inr hcloses)]
    rfl
  rw [if_neg hzero, if_neg hcloses, if_neg (not_or.2 ⟨hzero, hcloses⟩)]
  have hsize : ∀ m, prefixSize cs (stop + (gapLength (cs.drop stop) + m)) =
      prefixSize cs stop + gapLength (cs.drop stop) + prefixSize (afterGap (cs.drop stop)) m := by
    intro m
    rw [← Nat.add_assoc, prefixSize_add, hskip, ← List.drop_drop, ← afterGap_eq_drop]
  cases hunit : unitLength (afterGap (cs.drop stop)) with
  | some m => simp [hsize]
  | none =>
    cases operators with
    | false => simp
    | true => cases operatorLength (afterGap (cs.drop stop)) <;> simp [hsize]

/-- The rounds of a label follow `labelTail` from the end of one word to the next. -/
theorem labelEnd_eq (operators : Bool) (cs : List Char) (n : Nat) :
    labelEnd operators cs (prefixSize cs n) = .ok (prefixSize cs (n + wordLength (cs.drop n) +
      labelTail operators (cs.drop (n + wordLength (cs.drop n))))) := by
  refine rounds_eq_ok (fun start stop => ∃ n, start = prefixSize cs n ∧
    stop = prefixSize cs (n + wordLength (cs.drop n) +
      labelTail operators (cs.drop (n + wordLength (cs.drop n))))) ?_ ⟨n, rfl, rfl⟩
  rintro _ _ ⟨n, rfl, rfl⟩
  rw [labelRound_eq]
  generalize hstop : n + wordLength (cs.drop n) = stop
  cases hmore : labelMore operators (cs.drop stop) with
  | none =>
    rw [labelTail_eq_zero_of_labelMore hmore]
    exact .inl rfl
  | some m =>
    obtain ⟨hpos, hle, htail⟩ := labelTail_of_labelMore hmore
    refine .inr ⟨_, rfl, ?_, prefixSize_le cs _, stop + m, rfl, ?_⟩
    · have hsize := prefixSize_pos hpos hle
      simp only [id, ← hstop, prefixSize_add] at hsize ⊢
      omega
    · rw [htail]
      simp only [List.drop_drop, Nat.add_assoc]

theorem finds_label (operators : Bool) : Finds (label operators) (labelLength operators) := by
  intro cs
  rw [label, finds_unit, ok_bind, labelLength, startsUnit]
  cases hunit : unitLength cs with
  | none => rfl
  | some n =>
    have hend := labelEnd_eq operators cs n
    rw [← (wordLength_behind_unit hunit).2.2] at hend
    simp [hend]

end Bytewise

end BlockNotation
