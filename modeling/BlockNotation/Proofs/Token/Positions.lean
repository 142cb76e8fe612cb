import BlockNotation.Proofs.Token.Cutting
import BlockNotation.Proofs.Token.Replacing
import Mathlib.Data.List.DropRight

/-!
# Positions and offsets tell the same place

Line and column are counted up character by character while a text is read, through all that is
skipped. `Position.Marks` says that they are those that the text before an offset gives by itself,
and that a recount of lines from the offset alone, by characters or by bytes, comes to the same
line. So it is for every token, and for the point where reading fails (`positions_mark`).
-/

namespace BlockNotation

/-- The position is that of the byte offset in the source. -/
structure Position.Marks (p : Position) (source : String) (offset : Nat) : Prop where
  /-- The offset parts no character. -/
  valid : (⟨offset⟩ : String.Pos.Raw).IsValid source
  /-- Line feeds before the offset, counted from one. -/
  line : p.line = 1 + (Span.textIn ⟨0, offset⟩ source).toList.count '\n'
  /-- Characters before the offset since the last line feed, or since the start of the source,
  counted from one. -/
  column : p.column = 1 + ((Span.textIn ⟨0, offset⟩ source).toList.rtakeWhile (· ≠ '\n')).length
  lineOfOffset : lineOfOffset source offset = p.line
  bytes : 1 + (source.toUTF8.data.toList.take offset).count 10 = p.line

/-! ## Line feeds among bytes -/

/-- Only the first byte of a character can be that of a line feed, and only that of one is. -/
theorem utf8EncodeChar_cases (c : Char) : ∃ b bs, String.utf8EncodeChar c = b :: bs ∧
    (b = 10 ↔ c = '\n') ∧ 10 ∉ bs := by
  have hfeed : c = '\n' ↔ c.val.toNat = 10 := Char.toNat_inj.symm
  unfold String.utf8EncodeChar
  rw [hfeed]
  generalize c.val.toNat = v
  dsimp only
  split
  · exact ⟨_, _, rfl, by rw [← UInt8.toNat_inj]; simp; omega, by simp⟩
  -- All bytes of a longer encoding are beyond those of one byte.
  · repeat' split
    all_goals
      refine ⟨_, _, rfl, ?_, ?_⟩ <;> simp [← UInt8.toNat_inj] <;> omega

theorem toUTF8_toList (source : String) :
    source.toUTF8.data.toList = source.toList.flatMap String.utf8EncodeChar := by
  conv => lhs; rw [← String.ofList_toList (s := source)]
  rw [String.toUTF8_eq_toByteArray, String.toByteArray_ofList, List.utf8Encode,
    List.data_toByteArray]

/-- Line feeds are found among bytes where they are found among characters. -/
theorem lineFeedsBefore_eq_bytes : ∀ (cs : List Char) (offset : Nat), lineFeedsBefore cs offset =
    ((cs.flatMap String.utf8EncodeChar).take offset).count 10
  | [], offset => by simp [lineFeedsBefore]
  | c :: cs, 0 => by simp [lineFeedsBefore]
  | c :: cs, offset + 1 => by
    obtain ⟨b, bs, henc, hfirst, hbs⟩ := utf8EncodeChar_cases c
    have hsize : c.utf8Size = bs.length + 1 := by
      rw [← String.length_utf8EncodeChar, henc, List.length_cons]
    have hlater : (bs.take offset).count 10 = 0 :=
      List.count_eq_zero.2 fun h => hbs (List.mem_of_mem_take h)
    have hhead : [b].count 10 = if c = '\n' then 1 else 0 := by
      by_cases hc : c = '\n'
      · rw [if_pos hc, hfirst.2 hc]
        rfl
      · rw [if_neg hc, List.count_eq_zero, List.mem_singleton]
        exact fun h => hc (hfirst.1 h.symm)
    rw [lineFeedsBefore, if_neg (Nat.succ_ne_zero offset), lineFeedsBefore_eq_bytes cs, hsize,
      Nat.add_sub_add_right, List.flatMap_cons, henc, List.cons_append, List.take_succ_cons,
      List.take_append, ← List.singleton_append, List.count_append, List.count_append, hlater,
      hhead, Nat.zero_add]

/-- A line is counted alike by characters and by bytes. -/
theorem lineOfOffset_eq_bytes (source : String) (offset : Nat) :
    lineOfOffset source offset = 1 + (source.toUTF8.data.toList.take offset).count 10 := by
  rw [lineOfOffset, lineFeedsBefore_eq_bytes, toUTF8_toList]

/-! ## The place behind a text -/

theorem lineFeedsBefore_append : ∀ before rest : List Char,
    lineFeedsBefore (before ++ rest) (byteSize before) = before.count '\n'
  | [], rest => by cases rest <;> rfl
  | c :: before, rest => by
    have hpos := c.utf8Size_pos
    rw [List.cons_append, lineFeedsBefore, byteSize_cons, if_neg (by omega),
      Nat.add_sub_cancel_left, lineFeedsBefore_append before rest, List.count_cons, Nat.add_comm]
    simp

/-- The position behind a text that begins a source. -/
theorem position_after_origin (before : List Char) : (Place.origin.after before).position =
    ⟨1 + before.count '\n', 1 + (before.rtakeWhile (· ≠ '\n')).length⟩ := by
  induction before using List.reverseRecOn with
  | nil => rfl
  | append_singleton before c ih =>
    rw [Place.after_append, Place.after_cons, Place.after_nil, Place.step, ih]
    by_cases hc : c = '\n'
    · simp [hc, Nat.add_assoc]
    · simp [hc, Nat.add_assoc]

/-- The place behind the beginning of a source is marked by its position. -/
theorem Place.marks {source : String} {before rest : List Char}
    (h : source.toList = before ++ rest) :
    (origin.after before).position.Marks source (origin.after before).offset := by
  have hoffset : (origin.after before).offset = byteSize before :=
    (offset_after origin before).trans (Nat.zero_add _)
  have hbefore : (Span.textIn ⟨0, byteSize before⟩ source).toList = before := by
    have hsplit : source.toList = [] ++ before ++ rest := h
    rw [(Span.of_append hsplit rfl (Nat.zero_add _).symm).2, String.toList_ofList]
  have hline : lineOfOffset source (byteSize before) = 1 + before.count '\n' := by
    rw [lineOfOffset, h, lineFeedsBefore_append]
  rw [hoffset, position_after_origin]
  refine ⟨Span.isValid_byteSize h, ?_, ?_, hline, ?_⟩
  · rw [hbefore]
  · rw [hbefore]
  · rw [← lineOfOffset_eq_bytes, hline]

/-- Every token is read at the place behind the text that was read before it. -/
theorem Scans.lexes {depth : Nat} {place : Place} {cs : List Char} {ts : List Token}
    (h : Scans depth place cs ts) : ∀ t ∈ ts, ∃ operators before x rest,
      cs = before ++ (x ++ rest) ∧ place.after before = ⟨t.span.start, t.position⟩ ∧
      lexeme operators (x ++ rest) = some (t.kind, x.length) ∧ t.text = String.ofList x := by
  induction h with
  | done => simp
  | @skip depth place x r ts _ _ ih =>
    intro t ht
    obtain ⟨operators, before, y, rest, rfl, hplace, htoken⟩ := ih t ht
    exact ⟨operators, x ++ before, y, rest, by simp, by rw [Place.after_append, hplace], htoken⟩
  | @take depth place x r k ts token _ ih =>
    rw [List.forall_mem_cons]
    refine ⟨⟨_, [], x, r, rfl, rfl, token, rfl⟩, fun t ht => ?_⟩
    obtain ⟨operators, before, y, rest, rfl, hplace, htoken⟩ := ih t ht
    exact ⟨operators, x ++ before, y, rest, by simp, by rw [Place.after_append, hplace], htoken⟩

/-- Every token begins at the place behind the text that was read before it. -/
theorem Scans.begins {depth : Nat} {place : Place} {cs : List Char} {ts : List Token}
    (h : Scans depth place cs ts) : ∀ t ∈ ts, ∃ before rest, cs = before ++ rest ∧
      place.after before = ⟨t.span.start, t.position⟩ := by
  intro t ht
  obtain ⟨-, before, x, rest, hcs, hplace, -⟩ := h.lexes t ht
  exact ⟨before, x ++ rest, hcs, hplace⟩

/-- The position of every token of a source is that of its offset, and so is the position at which
reading fails: the lines before it are the line feeds before the offset, its column counts the
characters since the last of them, and a recount from the offset gives the same line. -/
theorem positions_mark (source : String) :
    (∀ ts, tokenize source = .ok ts → ∀ t ∈ ts, t.position.Marks source t.span.start) ∧
    ∀ e, tokenize source = .error e → e.place.position.Marks source e.place.offset := by
  constructor
  · intro ts hts t ht
    have hscans : Scans 0 .origin source.toList ts := tokensFrom_ok_iff.1 hts
    obtain ⟨before, rest, hsource, hplace⟩ := hscans.begins t ht
    have hmarks := Place.marks hsource
    rwa [hplace] at hmarks
  · intro e he
    obtain ⟨before, rem, -, hsource, -, rfl, -⟩ := tokenize_error he
    exact Place.marks hsource

/-- A label behind a remark of two lines, and a string that is never closed behind a delimiter that
has taken up the end of its line. -/
theorem positions_mark_lines :
    (∃ ts, tokenize "|é\n| a" = .ok ts ∧
      ts.map (fun t => (t.span.start, t.position)) = [(0, ⟨1, 1⟩), (6, ⟨2, 3⟩)] ∧
      ∀ t ∈ ts, t.position.Marks "|é\n| a" t.span.start) ∧
    ∃ e, tokenize "é;\n \"" = .error e ∧ e.place = ⟨5, ⟨2, 2⟩⟩ ∧
      e.place.position.Marks "é;\n \"" e.place.offset := by
  have hok : ((tokenize "|é\n| a").toOption.any fun ts =>
      ts.map (fun t => (t.span.start, t.position)) = [(0, ⟨1, 1⟩), (6, ⟨2, 3⟩)]) = true := by
    decide +kernel
  have herror : (match tokenize "é;\n \"" with
      | .error e => e.place = ⟨5, ⟨2, 2⟩⟩
      | .ok _ => false) = true := by decide +kernel
  constructor
  · cases hts : tokenize "|é\n| a" with
    | error e => rw [hts] at hok; cases hok
    | ok ts =>
      rw [hts] at hok
      exact ⟨ts, rfl, of_decide_eq_true hok, (positions_mark _).1 ts hts⟩
  · cases he : tokenize "é;\n \"" with
    | ok ts => rw [he] at herror; cases herror
    | error e =>
      rw [he] at herror
      exact ⟨e, rfl, of_decide_eq_true herror, (positions_mark _).2 e he⟩

end BlockNotation
