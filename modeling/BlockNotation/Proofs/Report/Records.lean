import BlockNotation.Command.Run
import BlockNotation.Proofs.Modifier.Log
import BlockNotation.Proofs.Script.Walk
import BlockNotation.Proofs.Token.Positions

/-!
# Records can be read back

A listing gives one record a line, the fields between tabs. Nothing is escaped, so the records are
read back from it (`readRecords`) exactly if no field holds a tab or a line feed
(`readRecords_eq_iff`).

The listing of modifiers has a record for each atomic block: the line of its first token, its label
text and its classification. A number holds no such character, and no built-in classification does.
A label may: a tab stands between two of its words, or is escaped like a line feed
(`modifierListing_reads_back_iff`).
-/

namespace BlockNotation

/-! ## Fields of lines -/

/-- The fields of each line of a listing. -/
def readRecords (listing : String) : List (List String) :=
  (lines listing.toList).map fun line => (line.splitOn '\t').map String.ofList

theorem lines_go_append {l : List Char} (h : '\n' ∉ l) (line rest : List Char) :
    lines.go line (l ++ rest) = lines.go (l.reverse ++ line) rest := by
  induction l generalizing line with
  | nil => rfl
  | cons c l ih =>
    rw [List.mem_cons, not_or] at h
    rw [List.cons_append, lines.go, ih h.2, List.reverse_cons, List.append_assoc]
    · rfl
    · exact fun hc => h.1 hc.symm

theorem lines_append_feed {l : List Char} (h : '\n' ∉ l) (hr : l.getLast? ≠ some '\r')
    (rest : List Char) : lines (l ++ '\n' :: rest) = l :: lines rest := by
  rw [lines, lines_go_append h, List.append_nil, lines.go, List.reverse_reverse, ← lines]
  intro kept hkept
  rw [List.reverse_eq_cons_iff] at hkept
  exact hr (by simp [hkept])

theorem lines_textOfLines {ls : List String}
    (h : ∀ l ∈ ls, '\n' ∉ l.toList ∧ l.toList.getLast? ≠ some '\r') :
    lines (textOfLines ls).toList = ls.map String.toList := by
  induction ls with
  | nil => rfl
  | cons l ls ih =>
    obtain ⟨⟨hfeed, hreturn⟩, hls⟩ := List.forall_mem_cons.1 h
    have hlist : (textOfLines (l :: ls)).toList = l.toList ++ '\n' :: (textOfLines ls).toList := by
      simp [textOfLines, String.toList_join]
    rw [hlist, lines_append_feed hfeed hreturn, ih hls, List.map_cons]

theorem feedless_of_mem_go {line cs l : List Char} (hline : '\n' ∉ line)
    (h : l ∈ lines.go line cs) : '\n' ∉ l := by
  fun_induction lines.go line cs with
  | case1 => simp at h
  | case2 => simp_all
  | case3 line cs ih =>
    obtain rfl | h := List.mem_cons.1 h
    · split
      · rw [List.mem_cons, not_or] at hline
        simpa using hline.2
      · simpa using hline
    · exact ih (by simp) h
  | case4 line c cs hc ih => exact ih (by simp [hline, Ne.symm hc]) h

theorem feedless_of_mem_lines {cs l : List Char} (h : l ∈ lines cs) : '\n' ∉ l :=
  feedless_of_mem_go (by simp) h

/-- What stands between two separators is part of the text and holds no separator. -/
theorem mem_of_mem_splitOn {a c : Char} {l piece : List Char} (h : piece ∈ l.splitOn a)
    (hc : c ∈ piece) : c ∈ l ∧ c ≠ a := by
  induction l generalizing piece with
  | nil => simp_all
  | cons d l ih =>
    rw [List.splitOn_cons_eq_if_modifyHead] at h
    obtain ⟨first, later, hl⟩ := List.exists_cons_of_ne_nil (List.splitOn_ne_nil a l)
    rw [hl] at h ih
    split at h
    · rcases List.mem_cons.1 h with rfl | h
      · cases hc
      · exact (ih h hc).imp_left (List.mem_cons_of_mem d)
    · rename_i hd
      rcases List.mem_cons.1 h with rfl | h
      · rcases List.mem_cons.1 hc with rfl | hc
        · exact ⟨List.mem_cons_self, by simpa using hd⟩
        · exact (ih List.mem_cons_self hc).imp_left (List.mem_cons_of_mem d)
      · exact (ih (List.mem_cons_of_mem first h) hc).imp_left (List.mem_cons_of_mem d)

theorem mem_intercalate {a c : Char} (hc : c ≠ a) : ∀ {ls : List (List Char)},
    c ∈ [a].intercalate ls ↔ ∃ l ∈ ls, c ∈ l
  | [] => by simp
  | [l] => by simp
  | l :: next :: ls => by
    rw [List.intercalate_cons_cons, List.mem_append, List.mem_append, List.mem_singleton,
      mem_intercalate hc, List.exists_mem_cons_iff]
    simp [hc]

/-! ## Reading back -/

/-- The line of a record. -/
def recordLine (fields : List String) : String := "\t".intercalate fields

theorem toList_recordLine (fields : List String) :
    (recordLine fields).toList = ['\t'].intercalate (fields.map String.toList) :=
  String.toList_intercalate

/-- Records are read back from their listing exactly if no field holds a tab or a line feed. -/
theorem readRecords_eq_iff {records : List (List String)} (hne : ∀ r ∈ records, r ≠ [])
    (hreturn : ∀ r ∈ records, (recordLine r).toList.getLast? ≠ some '\r') :
    readRecords (textOfLines (records.map recordLine)) = records ↔
      ∀ r ∈ records, ∀ field ∈ r, '\t' ∉ field.toList ∧ '\n' ∉ field.toList := by
  constructor
  · intro h r hr field hfield
    rw [← h, readRecords, List.mem_map] at hr
    obtain ⟨line, hline, rfl⟩ := hr
    obtain ⟨piece, hpiece, rfl⟩ := List.mem_map.1 hfield
    rw [String.toList_ofList]
    exact ⟨fun ht => (mem_of_mem_splitOn hpiece ht).2 rfl,
      fun hn => feedless_of_mem_lines hline (mem_of_mem_splitOn hpiece hn).1⟩
  · intro h
    have hlines : ∀ l ∈ records.map recordLine,
        '\n' ∉ l.toList ∧ l.toList.getLast? ≠ some '\r' := by
      rw [List.forall_mem_map]
      refine fun r hr => ⟨fun hn => ?_, hreturn r hr⟩
      rw [toList_recordLine] at hn
      obtain ⟨l, hl, hn⟩ := (mem_intercalate (by decide)).1 hn
      obtain ⟨field, hfield, rfl⟩ := List.mem_map.1 hl
      exact (h r hr field hfield).2 hn
    rw [readRecords, lines_textOfLines hlines, List.map_map, List.map_map]
    refine (List.map_congr_left fun r hr => ?_).trans (List.map_id records)
    have htabs : ∀ l ∈ r.map String.toList, '\t' ∉ l :=
      List.forall_mem_map.2 fun field hfield => (h r hr field hfield).1
    have hne : r.map String.toList ≠ [] := by simpa using hne r hr
    simp only [Function.comp_apply, toList_recordLine, List.splitOn_intercalate '\t' htabs hne]
    simp [Function.comp_def]

/-! ## What classifications are displayed as -/

/-- What the built-in classifiers can make of a modifier. -/
def Classification.ofBuiltin : List Classification :=
  [.empty, ⟨[(categoryKey, .variables)], false⟩, ⟨[(categoryKey, .variables)], true⟩,
    ⟨[(categoryKey, .myBlock)], false⟩]

theorem ask_mem_ofBuiltin {σ : Type} [Sink σ] {text : String} {context : Span}
    {state : Classification × σ} {c : Classifier} (hc : c ∈ Classifier.builtin)
    (h : state.1 ∈ Classification.ofBuiltin) :
    (Registry.ask text context state c).1 ∈ Classification.ofBuiltin := by
  have hset : ∀ d ∈ Classifier.builtin, ∀ s ∈ Classification.ofBuiltin,
      s.set d.key d.category d.list ∈ Classification.ofBuiltin := by decide
  unfold Registry.ask
  split
  · exact h
  · split
    · exact h
    · exact hset c hc _ h

theorem classify_mem_ofBuiltin {σ : Type} [Sink σ] (a : Atomic) (sink : σ) :
    (Registry.builtin.classify a sink).1 ∈ Classification.ofBuiltin := by
  unfold Registry.classify Registry.classifyLabel
  split
  · exact List.mem_cons_self
  · exact List.foldlRecOn (motive := fun s : Classification × σ => s.1 ∈ Classification.ofBuiltin)
      _ _ List.mem_cons_self fun _ h _ hc => ask_mem_ofBuiltin hc h

/-- No built-in classification is displayed with a tab or a line end. -/
theorem describe_ofBuiltin : ∀ c ∈ Classification.ofBuiltin, '\t' ∉ c.describe.toList ∧
    '\n' ∉ c.describe.toList ∧ c.describe.toList.getLast? ≠ some '\r' ∧ c.describe.toList ≠ [] := by
  decide

/-! ## The listing of modifiers -/

/-- The line on which an atomic block begins, which is that of its first token. -/
def Atomic.line (a : Atomic) : Nat :=
  ((a.fields.map Field.token).head?.map (·.position.line)).getD 0

/-- The fields of the record of an atomic block. -/
def Atomic.record (a : Atomic) : List String :=
  [toString a.line, a.labelText, (Registry.builtin.classify a (WarningLog.empty 0)).1.describe]

theorem lineOfOffset_mono (source : String) {m n : Nat} (h : m ≤ n) :
    lineOfOffset source m ≤ lineOfOffset source n := by
  rw [lineOfOffset_eq_bytes, lineOfOffset_eq_bytes]
  have htake := List.take_prefix_take_left (l := source.toUTF8.data.toList) h
  exact Nat.add_le_add_left (htake.sublist.count_le 10) 1

/-- An atomic block of a script begins where its first token does. -/
theorem begins_atomicBlock {source : String} {id : Nat} {code : Code}
    (h : parse source id = .ok code) : ∀ a ∈ code.atomicBlocks,
      ∃ t, (a.fields.map Field.token).head? = some t ∧ a.span.start = t.span.start ∧
        t.position.Marks source t.span.start := by
  obtain ⟨ts, hts, hcode⟩ := tokenize_of_parse h
  intro a ha
  obtain ⟨⟨hne, hspan⟩, hseat⟩ := parseTokensWithin_spread Seated.spreads hcode a ha
  obtain ⟨t, later, hfields⟩ := List.exists_cons_of_ne_nil (mt List.map_eq_nil_iff.1 hne)
  rw [hfields] at hspan hseat ⊢
  have hscans : Scans 0 .origin source.toList ts := tokensFrom_ok_iff.1 hts
  obtain ⟨before, rest, hsource, hplace⟩ := hscans.begins t (hseat.subset List.mem_cons_self)
  have hmarks := Place.marks hsource
  rw [hplace] at hmarks
  exact ⟨t, rfl, by rw [hspan]; rfl, hmarks⟩

theorem not_mem_toString (n : Nat) {c : Char} (hc : c.isDigit = false) :
    c ∉ (toString n).toList := by
  intro h
  rw [Nat.toString_eq_repr, Nat.toList_repr] at h
  rw [Nat.isDigit_of_mem_toDigits (by decide) (by decide) h] at hc
  cases hc

namespace Atomic

variable (a : Atomic)

/-- The characters of a label text that are not put in between are those of the labels. -/
theorem mem_labelText {c : Char} (hspace : c ≠ ' ') (hblank : c ≠ '_') :
    c ∈ a.labelText.toList ↔ ∃ t ∈ a.labels, c ∈ t.text.toList := by
  rw [labelText, String.toList_intercalate]
  refine (mem_intercalate hspace).trans ?_
  simp only [labels, List.mem_map, List.mem_filterMap]
  constructor
  · rintro ⟨_, ⟨_, ⟨e, he, rfl⟩, rfl⟩, hc⟩
    cases e with
    | label token => exact ⟨token, ⟨.label token, he, rfl⟩, hc⟩
    | argument argument => exact absurd (by simpa using hc) hblank
  · rintro ⟨t, ⟨e, he, ht⟩, hc⟩
    cases e with
    | label token =>
      obtain rfl := Option.some.inj ht
      exact ⟨_, ⟨_, ⟨_, he, rfl⟩, rfl⟩, hc⟩
    | argument argument => cases ht

theorem record_fields_iff :
    (∀ field ∈ a.record, '\t' ∉ field.toList ∧ '\n' ∉ field.toList) ↔
      ∀ t ∈ a.labels, '\t' ∉ t.text.toList ∧ '\n' ∉ t.text.toList := by
  obtain ⟨htab, hfeed, -⟩ := describe_ofBuiltin _ (classify_mem_ofBuiltin a (WarningLog.empty 0))
  have htab' := not_mem_toString a.line (c := '\t') rfl
  have hfeed' := not_mem_toString a.line (c := '\n') rfl
  have hlabels : ('\t' ∉ a.labelText.toList ∧ '\n' ∉ a.labelText.toList) ↔
      ∀ t ∈ a.labels, '\t' ∉ t.text.toList ∧ '\n' ∉ t.text.toList := by
    rw [a.mem_labelText (by decide) (by decide), a.mem_labelText (by decide) (by decide)]
    simp only [not_exists, not_and, forall_and]
  rw [← hlabels, record, List.forall_mem_cons, List.forall_mem_cons, List.forall_mem_singleton]
  exact ⟨fun h => h.2.1, fun h => ⟨⟨htab', hfeed'⟩, h, htab, hfeed⟩⟩

/-- A record does not end in a carriage return, which would be taken for a part of a line end. -/
theorem getLast?_recordLine : (recordLine a.record).toList.getLast? ≠ some '\r' := by
  obtain ⟨-, -, hreturn, hne⟩ :=
    describe_ofBuiltin _ (classify_mem_ofBuiltin a (WarningLog.empty 0))
  have hlast : ∀ cs : List Char, (cs ++ ((Registry.builtin.classify a
      (WarningLog.empty 0)).1.describe).toList).getLast? ≠ some '\r' := by
    intro cs
    rwa [List.getLast?_append_of_ne_nil _ hne]
  simp only [recordLine, record, String.intercalate_cons_cons, String.intercalate_singleton,
    String.toList_append, ← List.append_assoc]
  exact hlast _

end Atomic

/-- The options that ask for the listing of modifiers alone, with the built-in classifiers. -/
def ParseOptions.onlyModifiers (o : ParseOptions) : ParseOptions :=
  { o with check := false, tokens := false, tree := false, modifiers := true, config := none }

section Listing

variable (o : ParseOptions) {toml : TomlReader} {files : Files} {file source : String} {code : Code}

theorem lineOfOffset_atomicBlock {id : Nat} (h : parse source id = .ok code) :
    ∀ a ∈ code.atomicBlocks, lineOfOffset source a.span.start = a.line := by
  intro a ha
  obtain ⟨t, hhead, hstart, hmarks⟩ := begins_atomicBlock h a ha
  rw [hstart, hmarks.lineOfOffset, Atomic.line, hhead]
  rfl

/-- The listing of modifiers has a record for each atomic block. -/
theorem runParse_onlyModifiers (hfile : files.read file = .ok source)
    (h : parse source 0 = .ok code) :
    (runParse toml files file o.onlyModifiers).exitCode = 0 ∧
    (runParse toml files file o.onlyModifiers).output =
      code.atomicBlocks.map fun a => recordLine a.record := by
  have hrecord : ∀ a ∈ code.atomicBlocks, classificationRecord source
      (a, (Registry.builtin.classify a (WarningLog.empty 0)).1) = recordLine a.record := by
    intro a ha
    rw [classificationRecord, lineOfOffset_atomicBlock h a ha]
    simp only [recordLine, Atomic.record, String.intercalate_cons_cons,
      String.intercalate_singleton, String.append_assoc]
    rfl
  have hrecords : (Registry.builtin.analyse code (.empty 0)).1.map (classificationRecord source) =
      code.atomicBlocks.map fun a => recordLine a.record := by
    rw [Registry.analyse_fst, List.map_map]
    exact List.map_congr_left hrecord
  obtain ⟨ts, hts, hcode⟩ := tokenize_of_parse h
  simp [runParse, parseSource, ParseOptions.onlyModifiers, hfile, hts, hcode, tokenListing,
    codeReports, hrecords]

theorem lines_atomicBlocks_sorted {id : Nat} (h : parse source id = .ok code) :
    (code.atomicBlocks.map Atomic.line).Pairwise (· ≤ ·) := by
  obtain ⟨ts, hts, hcode⟩ := tokenize_of_parse h
  have hstarts := (parseTokensWithin_spread Headed.spreads hcode).pairwise (tokenize_placed hts)
  refine List.pairwise_map.2 (hstarts.imp_of_mem fun {a b} ha hb hlt => ?_)
  rw [← lineOfOffset_atomicBlock h a ha, ← lineOfOffset_atomicBlock h b hb]
  exact lineOfOffset_mono source (Nat.le_of_lt hlt)

/-- The listing of modifiers has a record for each atomic block, in the order of the lines on which
the blocks begin. The records are read back from it exactly if no label of a block holds a tab or a
line feed. -/
theorem modifierListing_reads_back_iff (hfile : files.read file = .ok source)
    (h : parse source 0 = .ok code) :
    (runParse toml files file o.onlyModifiers).exitCode = 0 ∧
    (runParse toml files file o.onlyModifiers).output =
      code.atomicBlocks.map (fun a => recordLine a.record) ∧
    (readRecords (textOfLines (runParse toml files file o.onlyModifiers).output) =
        code.atomicBlocks.map Atomic.record ↔
      ∀ a ∈ code.atomicBlocks, ∀ t ∈ a.labels, '\t' ∉ t.text.toList ∧ '\n' ∉ t.text.toList) ∧
    (∀ a ∈ code.atomicBlocks, ∃ t, (a.fields.map Field.token).head? = some t ∧
      a.line = 1 + (Span.textIn ⟨0, t.span.start⟩ source).toList.count '\n') ∧
    (code.atomicBlocks.map Atomic.line).Pairwise (· ≤ ·) := by
  obtain ⟨hexit, houtput⟩ := runParse_onlyModifiers o hfile h
  refine ⟨hexit, houtput, ?_, fun a ha => ?_, lines_atomicBlocks_sorted h⟩
  · have hne : ∀ r ∈ code.atomicBlocks.map Atomic.record, r ≠ [] :=
      List.forall_mem_map.2 fun a _ => List.cons_ne_nil _ _
    have hreads := readRecords_eq_iff hne
      (List.forall_mem_map.2 fun a _ => a.getLast?_recordLine)
    rw [List.map_map, List.forall_mem_map] at hreads
    rw [houtput]
    exact hreads.trans (forall₂_congr fun a _ => a.record_fields_iff)
  · obtain ⟨t, hhead, -, hmarks⟩ := begins_atomicBlock h a ha
    refine ⟨t, hhead, ?_⟩
    rw [Atomic.line, hhead]
    exact hmarks.line

end Listing

/-- A block inside another, and one on the next line with a modifier. -/
theorem modifierListing_reads_back_nested : ∃ (files : Files) (code : Code),
    files.read "a.blk" = .ok "say (now)\nstop :: list" ∧
    parse "say (now)\nstop :: list" 0 = .ok code ∧
    readRecords (textOfLines
        (runParse Toml.reader files "a.blk" (ParseOptions.onlyModifiers default)).output) =
      [["1", "say _", "-"], ["1", "now", "-"], ["2", "stop", "category = VARIABLES, list"]] := by
  have hblocks : (parse "say (now)\nstop :: list" 0).toOption.map
      (fun c => c.atomicBlocks.map fun a => (a.record, a.labels.map Token.text)) =
        some [(["1", "say _", "-"], ["say"]), (["1", "now", "-"], ["now"]),
          (["2", "stop", "category = VARIABLES, list"], ["stop"])] := by
    decide +kernel
  cases hcode : parse "say (now)\nstop :: list" 0 with
  | error e => rw [hcode] at hblocks; cases hblocks
  | ok code =>
    rw [hcode] at hblocks
    have heq : code.atomicBlocks.map (fun a => (a.record, a.labels.map Token.text)) = _ :=
      Option.some.inj hblocks
    have htexts : ∀ entry ∈ code.atomicBlocks.map fun a => (a.record, a.labels.map Token.text),
        ∀ text ∈ entry.2, '\t' ∉ text.toList ∧ '\n' ∉ text.toList := by
      rw [heq]
      decide
    have hlabels : ∀ a ∈ code.atomicBlocks, ∀ t ∈ a.labels,
        '\t' ∉ t.text.toList ∧ '\n' ∉ t.text.toList := fun a ha t ht =>
      htexts _ (List.mem_map_of_mem ha) _ (List.mem_map_of_mem ht)
    have hrecords := congrArg (List.map Prod.fst) heq
    rw [List.map_map] at hrecords
    refine ⟨fun _ => .ok (.file (some "say (now)\nstop :: list")), code, rfl, rfl, ?_⟩
    exact ((modifierListing_reads_back_iff default rfl hcode).2.2.1.2 hlabels).trans hrecords

/-- A tab between two words makes a field more, an escaped line feed a line more. -/
theorem modifierListing_breaks :
    (¬∀ (files : Files) (file source : String) (code : Code), files.read file = .ok source →
      parse source 0 = .ok code →
        readRecords (textOfLines (runParse Toml.reader files file
          (ParseOptions.onlyModifiers default)).output) = code.atomicBlocks.map Atomic.record) ∧
    ¬∀ (files : Files) (file source : String) (code : Code), files.read file = .ok source →
      parse source 0 = .ok code →
        (lines (textOfLines (runParse Toml.reader files file
          (ParseOptions.onlyModifiers default)).output).toList).length =
            code.atomicBlocks.length := by
  constructor
  · intro hall
    have hread : readRecords (textOfLines (runParse Toml.reader
        (fun _ => .ok (.file (some "move\tsteps"))) "a.blk"
        (ParseOptions.onlyModifiers default)).output) = [["1", "move", "steps", "-"]] := by
      decide +kernel
    have hblocks : (parse "move\tsteps" 0).toOption.map (·.atomicBlocks.map Atomic.record) =
        some [["1", "move\tsteps", "-"]] := by decide +kernel
    cases hcode : parse "move\tsteps" 0 with
    | error e => rw [hcode] at hblocks; cases hblocks
    | ok code =>
      rw [hcode] at hblocks
      have hrecords := hall (fun _ => .ok (.file (some "move\tsteps"))) "a.blk" _ code rfl hcode
      exact absurd (hread.symm.trans (hrecords.trans (Option.some.inj hblocks))) (by decide)
  · intro hall
    have hlines : (lines (textOfLines (runParse Toml.reader
        (fun _ => .ok (.file (some "say a\\\nb"))) "a.blk"
        (ParseOptions.onlyModifiers default)).output).toList).length = 2 := by
      decide +kernel
    have hblocks : (parse "say a\\\nb" 0).toOption.map (·.atomicBlocks.length) = some 1 := by
      decide +kernel
    cases hcode : parse "say a\\\nb" 0 with
    | error e => rw [hcode] at hblocks; cases hblocks
    | ok code =>
      rw [hcode] at hblocks
      have hlength := hall (fun _ => .ok (.file (some "say a\\\nb"))) "a.blk" _ code rfl hcode
      exact absurd (hlines.symm.trans (hlength.trans (Option.some.inj hblocks))) (by decide)

end BlockNotation
