import BlockNotation.Toml.Documents
import Mathlib.Data.List.DropRight

/-!
# Front matter is found where it was written

A fixture file has a fence, lines of front matter, another fence and a script, with line ends of
either kind (`Fixture.written`). Taking it apart gives the lines and the script back, whatever the
script holds (`Fixture.split_written`), and any reader of TOML is given these lines. The closing
fence is looked for behind a line feed, though, and the one behind the opening fence is gone by
then: with no line in between there is no closing fence, or one further on in the script. What
stands in front of that begins with the fence that was missed, which is no TOML
(`Fixture.ofText_written`).
-/

namespace BlockNotation

/-- What a line may end with. -/
inductive LineEnd where
  | feed
  | returnFeed
deriving DecidableEq

namespace LineEnd

/-- What stands in front of the line feed. -/
def lead : LineEnd → List Char
  | .feed => []
  | .returnFeed => ['\r']

def chars (e : LineEnd) : List Char := e.lead ++ ['\n']

end LineEnd

namespace Fixture

def fence : List Char := ['-', '-', '-']

/-- A fixture file with lines of front matter and a script. -/
def written (e : LineEnd) (front : List (List Char)) (source : List Char) : List Char :=
  fence ++ e.chars ++ front.flatMap (· ++ e.chars) ++ fence ++ e.chars ++ source

/-- A line that can stand in front matter. -/
structure IsFrontLine (line : List Char) : Prop where
  feedless : '\n' ∉ line
  returnless : '\r' ∉ line
  noFence : ¬fence <+: line

/-! ## Where the fence is found -/

/-- A fence is not continued by what begins with another character. -/
theorem fence_prefix_of_append {cs ds : List Char} (hds : ds.head? ≠ some '-')
    (h : fence <+: cs ++ ds) : fence <+: cs := by
  obtain hcs | ⟨t, ht⟩ := List.prefix_or_prefix_of_prefix h (List.prefix_append cs ds)
  · exact hcs
  · rw [← ht, List.prefix_append_right_inj] at h
    obtain ⟨u, rfl⟩ := h
    cases t with
    | nil => simp [← ht]
    | cons c t =>
      have hc : c ∈ fence := by simp [← ht]
      simp [show c = '-' by simpa [fence] using hc] at hds

theorem splitAtFence_cons {c : Char} {cs : List Char} (h : c = '\n' → ¬fence <+: cs) :
    splitAtFence (c :: cs) = (splitAtFence cs).map fun (front, rest) => (c :: front, rest) := by
  rw [splitAtFence]
  rintro rest rfl rfl
  exact h rfl (List.prefix_append fence rest)

/-- No fence is found inside a line. -/
theorem splitAtFence_append {line : List Char} (h : '\n' ∉ line) (cs : List Char) :
    splitAtFence (line ++ cs) =
      (splitAtFence cs).map fun (front, rest) => (line ++ front, rest) := by
  induction line with
  | nil => simp
  | cons c line ih =>
    rw [List.mem_cons, not_or] at h
    rw [List.cons_append, splitAtFence_cons fun hc => absurd hc.symm h.1, ih h.2, Option.map_map]
    rfl

theorem prefix_of_splitAtFence {cs front rest : List Char}
    (h : splitAtFence cs = some (front, rest)) : front <+: cs := by
  fun_induction splitAtFence cs generalizing front with
  | case1 => cases h
  | case2 => cases h; exact List.nil_prefix
  | case3 c cs _ ih =>
    obtain ⟨⟨front', rest'⟩, hfound, heq⟩ := Option.map_eq_some_iff.mp h
    cases heq
    exact (List.prefix_cons_inj c).mpr (ih hfound)

theorem splitAtFence_chars (e : LineEnd) (rest : List Char) :
    splitAtFence (e.chars ++ (fence ++ rest)) = some (e.lead, rest) := by
  cases e <;> rfl

/-- The fence behind lines of front matter is found. -/
theorem splitAtFence_lines (e : LineEnd) (rest : List Char) : ∀ front : List (List Char),
    front ≠ [] → (∀ line ∈ front, IsFrontLine line) →
      splitAtFence (front.flatMap (· ++ e.chars) ++ (fence ++ rest)) =
        some (e.chars.intercalate front ++ e.lead, rest)
  | [line], _, h => by
    rw [List.flatMap_singleton, List.append_assoc, splitAtFence_append (h line (by simp)).feedless,
      splitAtFence_chars]
    simp
  | line :: next :: front, _, h => by
    have hnext : ¬fence <+: (next :: front).flatMap (· ++ e.chars) ++ (fence ++ rest) := by
      intro hfence
      rw [List.flatMap_cons, List.append_assoc, List.append_assoc] at hfence
      exact (h next (by simp)).noFence
        (fence_prefix_of_append (by cases e <;> simp [LineEnd.chars, LineEnd.lead]) hfence)
    have ih := splitAtFence_lines e rest (next :: front) (by simp)
      fun l hl => h l (List.mem_cons_of_mem line hl)
    have hlead : '\n' ∉ line ++ e.lead := by
      have := (h line (by simp)).feedless
      cases e <;> simp [LineEnd.lead, this]
    calc splitAtFence ((line :: next :: front).flatMap (· ++ e.chars) ++ (fence ++ rest))
        = splitAtFence ((line ++ e.lead) ++
            '\n' :: ((next :: front).flatMap (· ++ e.chars) ++ (fence ++ rest))) := by
          simp [LineEnd.chars]
      _ = some (e.chars.intercalate (line :: next :: front) ++ e.lead, rest) := by
          rw [splitAtFence_append hlead, splitAtFence_cons fun _ => hnext, ih]
          simp [LineEnd.chars, List.intercalate_cons_cons]

/-! ## Files with front matter -/

theorem trimReturns_eq (cs : List Char) : trimReturns cs = cs.rdropWhile (· = '\r') := rfl

/-- Without carriage returns in its lines, front matter ends in none. -/
theorem getLast?_intercalate (e : LineEnd) : ∀ front : List (List Char),
    (∀ line ∈ front, IsFrontLine line) → (e.chars.intercalate front).getLast? ≠ some '\r'
  | [], _ => by simp
  | [line], h => by
    intro hlast
    rw [List.intercalate_singleton] at hlast
    exact (h line (by simp)).returnless (List.mem_of_getLast? hlast)
  | line :: next :: front, h => by
    have ih := getLast?_intercalate e (next :: front)
      fun l hl => h l (List.mem_cons_of_mem line hl)
    rw [List.intercalate_cons_cons, List.getLast?_append]
    cases hlast : (e.chars.intercalate (next :: front)).getLast? with
    | none => simp [LineEnd.chars]
    | some c => simpa [hlast] using ih

theorem trimReturns_append_lead (e : LineEnd) {cs : List Char} (h : cs.getLast? ≠ some '\r') :
    trimReturns (cs ++ e.lead) = cs := by
  have hcs : trimReturns cs = cs := by
    rw [trimReturns_eq, List.rdropWhile_eq_self_iff]
    intro hne hr
    rw [List.getLast?_eq_some_getLast hne] at h
    simp_all
  cases e with
  | feed => simpa [LineEnd.lead] using hcs
  | returnFeed =>
    rw [trimReturns_eq] at hcs ⊢
    simp [LineEnd.lead, hcs]

theorem split_fence (e : LineEnd) (cs : List Char) :
    split (fence ++ (e.chars ++ cs)) = match splitAtFence cs with
      | some (front, rest) => .ok (trimReturns front, afterClosing rest)
      | none => .error .neverClosed := by
  cases e <;> rfl

theorem afterClosing_chars (e : LineEnd) (cs : List Char) : afterClosing (e.chars ++ cs) = cs := by
  cases e <;> rfl

/-- Front matter and script are found as they were written. -/
theorem split_written (e : LineEnd) {front : List (List Char)} (hne : front ≠ [])
    (h : ∀ line ∈ front, IsFrontLine line) (source : List Char) :
    split (written e front source) = .ok (e.chars.intercalate front, source) := by
  unfold written
  rw [List.append_assoc, List.append_assoc, List.append_assoc, List.append_assoc, split_fence,
    splitAtFence_lines e _ front hne h]
  simp only [trimReturns_append_lead e (getLast?_intercalate e front h), afterClosing_chars]

theorem ofText_ofList (toml : TomlReader) (cs : List Char) : ofText toml (String.ofList cs) =
    split cs >>= fun (front, source) => ofParts toml front source := by
  unfold ofText
  rw [String.toList_ofList]

end Fixture

/-! ## A fence as TOML -/

/-- A line ends here, or the text does. -/
def AtLineEnd (cs : List Char) : Prop := ∀ c ∈ cs.head?, c = '\n' ∨ c = '\r'

/-- A reader of TOML refuses front matter whose first line is a fence: three dashes are a key, and a
line may not end behind a key. -/
def TomlReader.RefusesFence (toml : TomlReader) : Prop := ∀ cs, AtLineEnd cs →
  ∃ why, toml.expectations (String.ofList (Fixture.fence ++ cs)) = .error why

theorem LineEnd.atLineEnd_append (e : LineEnd) (cs : List Char) : AtLineEnd (e.chars ++ cs) := by
  cases e <;> simp [AtLineEnd, chars, lead]

theorem AtLineEnd.of_isPrefix {cs ds : List Char} (h : AtLineEnd ds) (hcs : cs <+: ds) :
    AtLineEnd cs := by
  obtain ⟨t, rfl⟩ := hcs
  cases cs with
  | nil => simp [AtLineEnd]
  | cons c cs => exact h

namespace Toml

namespace Reader

@[simp] theorem pure_apply {α : Type} (a : α) (cs : List Char) :
    (pure a : Reader α) cs = .ok (a, cs) := rfl

@[simp] theorem bind_apply {α β : Type} (p : Reader α) (f : α → Reader β) (cs : List Char) :
    (p >>= f) cs = match p cs with
      | .ok (a, cs') => f a cs'
      | .error e => .error e := by
  cases h : p cs <;> simp [bind, StateT.bind, Except.bind, h]

theorem many_none {α : Type} {p : Reader (Option α)} {cs cs' : List Char}
    (h : p cs = .ok (none, cs')) : many p cs = .ok ([], cs') := by
  rw [many, repetition, h]

variable {cs : List Char}

theorem takeWhile_atLineEnd {p : Char → Bool} (hp : p '\n' = false ∧ p '\r' = false)
    (h : AtLineEnd cs) : takeWhile p cs = .ok ([], cs) := by
  cases cs with
  | nil => rfl
  | cons c cs =>
    have hc : p c = false := by
      obtain rfl | rfl := h c rfl
      exacts [hp.1, hp.2]
    simp [takeWhile, hc]

theorem take?_atLineEnd (text : String)
    (htext : text.toList ≠ [] ∧ ∀ c ∈ text.toList, c ≠ '\n' ∧ c ≠ '\r') (h : AtLineEnd cs) :
    take? text cs = .ok (false, cs) := by
  obtain ⟨d, ds, hds⟩ := List.exists_cons_of_ne_nil htext.1
  cases cs with
  | nil => simp [take?, hds]
  | cons c cs =>
    have hd := htext.2 d (by simp [hds])
    have hc : d ≠ c := by
      obtain rfl | rfl := h c rfl
      exacts [hd.1, hd.2]
    simp [take?, hds, hc]

theorem skipSpace_atLineEnd (h : AtLineEnd cs) : skipSpace cs = .ok ((), cs) := by
  have hspace := takeWhile_atLineEnd (p := isSpace) (by decide) h
  rw [skipSpace, bind_apply, hspace]
  rfl

theorem nextKey?_atLineEnd (h : AtLineEnd cs) : nextKey? cs = .ok (none, cs) := by
  have hdot := take?_atLineEnd "." (by simp) h
  simp [nextKey?, skipSpace_atLineEnd h, hdot]

theorem simpleKey_fence (h : AtLineEnd cs) :
    simpleKey (Fixture.fence ++ cs) = .ok ("---", cs) := by
  have hname : takeWhile isBare (Fixture.fence ++ cs) = .ok (Fixture.fence, cs) := by
    have hnone := takeWhile_atLineEnd (p := isBare) (by decide) h
    simp only [takeWhile, Except.ok.injEq, Prod.mk.injEq] at hnone ⊢
    have hfence : ∀ c ∈ Fixture.fence, isBare c := by simp [Fixture.fence, isBare]
    rw [List.takeWhile_append_of_pos hfence, List.dropWhile_append_of_pos hfence, hnone.1, hnone.2]
    exact ⟨List.append_nil _, rfl⟩
  have hpeek : peek (Fixture.fence ++ cs) = .ok (some '-', Fixture.fence ++ cs) := rfl
  have hne : Fixture.fence ≠ [] := by decide
  have htext : String.ofList Fixture.fence = "---" := rfl
  simp [simpleKey, hpeek, hname, hne, htext]

theorem keyValue_fence (v : Reader Value) (h : AtLineEnd cs) :
    keyValue v (Fixture.fence ++ cs) = .error .malformed := by
  have hequals := take?_atLineEnd "=" (by simp) h
  simp [keyValue, key, take, maxLevels, simpleKey_fence h, many_none (nextKey?_atLineEnd h),
    skipSpace_atLineEnd h, hequals, malformed]

theorem line?_fence (h : AtLineEnd cs) : line? (Fixture.fence ++ cs) = .error .malformed := by
  have hspace : skipSpace (Fixture.fence ++ cs) = .ok ((), Fixture.fence ++ cs) := rfl
  have hpeek : peek (Fixture.fence ++ cs) = .ok (some '-', Fixture.fence ++ cs) := rfl
  simp [line?, hspace, hpeek, keyValue_fence _ h]

end Reader

theorem read_fence {cs : List Char} (h : AtLineEnd cs) :
    read (String.ofList (Fixture.fence ++ cs)) = .error .malformed := by
  have hmany : Reader.many Reader.line? (Fixture.fence ++ cs) = .error .malformed := by
    rw [Reader.many, repetition, Reader.line?_fence h]
  unfold read
  rw [String.toList_ofList]
  change Reader.many Reader.line? (Fixture.fence ++ cs) >>= _ = _
  rw [hmany]
  rfl

theorem reader_refusesFence : reader.RefusesFence := by
  intro cs h
  have hread := read_fence h
  exact ⟨none, by simp only [reader, hread]; rfl⟩

end Toml

namespace Fixture

/-! ## Files without front matter -/

theorem trimReturns_fence (cs : List Char) :
    trimReturns (fence ++ cs) = fence ++ trimReturns cs := by
  simp only [trimReturns, List.reverse_append, List.dropWhile_append]
  split
  · rename_i hnil
    rw [List.isEmpty_iff] at hnil
    rw [hnil]
    rfl
  · simp

/-- Between two fences in a row the closing one is not seen. One in the script may be taken for it;
the fence that was missed then stands in front. -/
theorem split_written_nil (e : LineEnd) (source : List Char) :
    split (written e [] source) = match splitAtFence (e.chars ++ source) with
      | some (front, rest) => .ok (fence ++ trimReturns front, afterClosing rest)
      | none => .error .neverClosed := by
  have hwritten : written e [] source = fence ++ (e.chars ++ (fence ++ (e.chars ++ source))) := by
    simp [written]
  rw [hwritten, split_fence, splitAtFence_append (by decide)]
  cases splitAtFence (e.chars ++ source) with
  | none => rfl
  | some parts => simp [trimReturns_fence]

theorem ofText_written_nil {toml : TomlReader} (htoml : toml.RefusesFence) (e : LineEnd)
    (source : List Char) :
    ∃ fault, ofText toml (String.ofList (written e [] source)) = .error fault ∧
      (fault = .neverClosed ∨ ∃ why, fault = .invalidFrontMatter why) := by
  rw [ofText_ofList, split_written_nil]
  cases hfound : splitAtFence (e.chars ++ source) with
  | none => exact ⟨.neverClosed, rfl, .inl rfl⟩
  | some parts =>
    obtain ⟨front, rest⟩ := parts
    have hfront : AtLineEnd front :=
      (e.atLineEnd_append source).of_isPrefix (prefix_of_splitAtFence hfound)
    have hend : AtLineEnd (trimReturns front) :=
      hfront.of_isPrefix (List.rdropWhile_prefix _ front)
    obtain ⟨why, hwhy⟩ := htoml _ hend
    refine ⟨.invalidFrontMatter why, ?_, .inr ⟨why, rfl⟩⟩
    change ofParts toml (fence ++ trimReturns front) (afterClosing rest) = _
    rw [ofParts, hwhy]

/-- A fixture file gives the lines of its front matter to the reader of TOML and keeps its script,
as long as there is a line of front matter. Without one the closing fence is missed, so the file is
refused, or the reader is given more than was written as front matter, with a fence in front.
Readers refuse that too. -/
theorem ofText_written (toml : TomlReader) (e : LineEnd) (front : List (List Char))
    (source : List Char) (h : ∀ line ∈ front, IsFrontLine line) :
    (front ≠ [] →
      split (written e front source) = .ok (e.chars.intercalate front, source) ∧
      ofText toml (String.ofList (written e front source)) =
        ofParts toml (e.chars.intercalate front) source) ∧
    (front = [] →
      (split (written e front source) = match splitAtFence (e.chars ++ source) with
        | some (between, rest) => .ok (fence ++ trimReturns between, afterClosing rest)
        | none => .error .neverClosed) ∧
      (toml.RefusesFence → ∃ fault, ofText toml (String.ofList (written e front source)) =
        .error fault ∧ (fault = .neverClosed ∨ ∃ why, fault = .invalidFrontMatter why))) := by
  constructor
  · intro hne
    have hsplit := split_written e hne h source
    exact ⟨hsplit, by rw [ofText_ofList, hsplit]; rfl⟩
  · rintro rfl
    exact ⟨split_written_nil e source, fun htoml => ofText_written_nil htoml e source⟩

/-- The script holds lines of dashes and the last line of front matter is empty. Without front
matter the first of these lines is taken for the closing fence. -/
theorem ofText_written_returns :
    ofText Toml.reader (String.ofList (written .returnFeed
        ["expect_parse_error = true".toList, []] "---\n\n---".toList)) =
      .ok ⟨{ (default : Expectations) with parseError := true }, "---\n\n---"⟩ ∧
    split (written .returnFeed [] "go\n---\n\n---".toList) =
      .ok ("---\r\ngo".toList, "\n---".toList) ∧
    ∃ fault, ofText Toml.reader (String.ofList (written .returnFeed [] "go\n---\n\n---".toList)) =
      .error fault ∧ (fault = .neverClosed ∨ ∃ why, fault = .invalidFrontMatter why) := by
  have hlines : ∀ line ∈ ["expect_parse_error = true".toList, []], IsFrontLine line := by
    simp only [List.forall_mem_cons]
    exact ⟨⟨by decide, by decide, by decide⟩, ⟨by decide, by decide, by decide⟩, by simp⟩
  obtain ⟨-, hread⟩ := (ofText_written Toml.reader .returnFeed
    ["expect_parse_error = true".toList, []] "---\n\n---".toList hlines).1 (by simp)
  obtain ⟨hsplit, hrefused⟩ := (ofText_written Toml.reader .returnFeed []
    "go\n---\n\n---".toList (by simp)).2 rfl
  refine ⟨hread.trans ?_, hsplit.trans (by decide), hrefused Toml.reader_refusesFence⟩
  decide +kernel

/-- A file without front matter is not taken apart again. -/
theorem empty_front_matter_unclosed :
    ¬∀ (e : LineEnd) (front : List (List Char)) (source : List Char),
      (∀ line ∈ front, IsFrontLine line) →
        split (written e front source) = .ok (e.chars.intercalate front, source) := by
  intro hall
  have hsplit : split (written .feed [] "say [hi]\n".toList) = .error .neverClosed := by decide
  have hwhole := hall .feed [] "say [hi]\n".toList (by simp)
  rw [hsplit] at hwhole
  cases hwhole

end Fixture

end BlockNotation
