import BlockNotation.Proofs.Script.Predictive

/-!
# What becomes of a token list

A token list is accepted, or rejected at some token, exactly as the committed-choice reading of
the script grammar ends or gets stuck there (`parseTokens_reads`). The kinds that a syntax error
lists would have been of use at its token, and where the script could have ended there, no other
kind would have been (`syntaxError_truthful`).
-/

namespace BlockNotation

/-- The syntax error of a token list, if that is what reading it ends with, and the index of the
token it arises at. -/
def syntaxError? (limit : Nat) (ts : List Token) (sourceId : Nat) : Option (Nat × SyntaxError) :=
  match Parser.script limit sourceId (.ofTokens ts) with
  | .ok _ => none
  | .error f =>
    match f.toError limit with
    | .unexpected e => some (f.index, e)
    | _ => none

/-- An outcome for a token list, and the reading behind it. -/
inductive Judged (n : Nat) (ts : List Token) : Except Failure (Code × Cursor) → Prop where
  | accepted {code : Code} {s : Cursor} {wanted : List Kind}
      (read : Done scriptTable n .code (.rule .code) (kindsOf ts) [] wanted) :
      Judged n ts (.ok (code, s))
  | leftover {f : Failure} {w rest : List Token} {wanted : List Kind} (tokens : ts = w ++ rest)
      (left : rest ≠ []) (cause : f.cause = .unexpected .code (Kind.sorted wanted) true)
      (index : f.index = w.length) (found : f.found = rest.head?)
      (read : Done scriptTable n .code (.rule .code) (kindsOf w) (kindsOf rest) wanted) :
      Judged n ts (.error f)
  | stuck {f : Failure} {rule : Rule} {expected : List Kind} {w rest : List Token}
      (tokens : ts = w ++ rest) (cause : f.cause = .unexpected rule expected false)
      (index : f.index = w.length) (found : f.found = rest.head?)
      (read : Stuck scriptTable n .code (.rule .code) (kindsOf w) (kindsOf rest) rule expected) :
      Judged n ts (.error f)
  | tooDeep {f : Failure} {rule : Rule} {w rest : List Token} (tokens : ts = w ++ rest)
      (cause : f.cause = .tooDeep rule) (index : f.index = w.length) (found : f.found = rest.head?)
      (read : Exceeds scriptTable n .code (.rule .code) (kindsOf ts) rule (kindsOf rest)) :
      Judged n ts (.error f)

variable {n i : Nat} {ts : List Token} {id : Nat} {e : SyntaxError}

theorem finish_run (s : Cursor) : Parser.finish s =
    if s.rest = [] then .ok ((), s)
    else Parser.fail (.unexpected .code (Kind.sorted s.tried) true) s := by
  change (if s.rest.isEmpty = true then _ else _ : Parser Unit) s = _
  by_cases h : s.rest = []
  · simp only [h, List.isEmpty_nil, if_true]
    rfl
  · simp only [h, List.isEmpty_eq_false_iff.2 h, Bool.false_eq_true, if_false]

/-- The script of a source text is that of its tokens. -/
theorem tokenize_of_parse {source : String} {n : Nat} {c : Code} (h : parse source n = .ok c) :
    ∃ ts, tokenize source = .ok ts ∧ parseTokens ts n = .ok c := by
  unfold parse at h
  cases hts : tokenize source with
  | error e =>
    rw [hts] at h
    cases h
  | ok ts =>
    rw [hts] at h
    exact ⟨ts, rfl, h⟩

/-- A script is read to the end, where there is nothing left to do. -/
theorem Parser.script_run {levels id : Nat} {c : Code} {s s' : Cursor}
    (h : script levels id s = .ok (c, s')) :
    code (stackWithin? levels) id s = .ok (c, s') ∧ s'.rest = [] := by
  obtain ⟨_, s₁, hcode, h⟩ := of_bind_run h
  obtain ⟨_, s₂, hfinish, h⟩ := of_bind_run h
  cases h
  rw [finish_run] at hfinish
  split at hfinish
  · rename_i hend
    cases hfinish
    exact ⟨hcode, hend⟩
  · cases hfinish

theorem script_judged (n : Nat) (ts : List Token) (id : Nat) :
    Judged n ts (Parser.script n id (.ofTokens ts)) := by
  have hrun : Parser.script n id (.ofTokens ts) =
      (Parser.code (Parser.stackWithin? n) id (.ofTokens ts)).bind fun x =>
        (Parser.finish x.2).bind fun y => .ok (x.1, y.2) := rfl
  have h := Parser.follows_code (n := n) (r := .code) id (.ofTokens ts)
  rw [hrun]
  generalize Parser.code (Parser.stackWithin? n) id (.ofTokens ts) = res at h
  cases h with
  | @done code s w wanted _ _ run read =>
    have hts : ts = w ++ s.rest := run.rest
    change Judged n ts ((Parser.finish s).bind _)
    by_cases hs : s.rest = []
    · rw [finish_run, if_pos hs]
      rw [hs, List.append_nil] at hts
      rw [hs] at read
      exact .accepted (hts ▸ read)
    · have htried : s.tried = wanted := by
        rw [run.tried]
        cases w <;> rfl
      rw [finish_run, if_neg hs, htried]
      refine .leftover hts hs rfl ?_ rfl read
      rw [run.index]
      exact Nat.zero_add _
  | stuck cause _ run read =>
    refine .stuck run.rest cause ?_ run.found read
    rw [run.index]
    exact Nat.zero_add _
  | tooDeep cause run read =>
    refine .tooDeep run.rest cause ?_ run.found read
    rw [run.index]
    exact Nat.zero_add _

/-! ## The parser and the reading -/

theorem Done.reads_tokens {t : Table} {r : Rule} {p : Production} {w rest : List Token}
    {wanted : List Kind} (h : Done t n r p (kindsOf w) (kindsOf rest) wanted)
    (hts : ts = w ++ rest) : Reads t n r p (kindsOf ts) (.done (kindsOf rest)) := by
  rw [hts, kindsOf_append]
  exact h.reads

theorem Stuck.reads_tokens {t : Table} {r q : Rule} {p : Production} {w rest : List Token}
    {expected : List Kind} (h : Stuck t n r p (kindsOf w) (kindsOf rest) q expected)
    (hts : ts = w ++ rest) : Reads t n r p (kindsOf ts) (.stuck (kindsOf rest) q expected) := by
  rw [hts, kindsOf_append]
  exact h.reads

theorem parseTokensWithin_unexpected :
    parseTokensWithin n ts id = .error (.unexpected e) ↔
      ∃ i, syntaxError? n ts id = some (i, e) := by
  unfold parseTokensWithin syntaxError?
  cases Parser.script n id (.ofTokens ts) with
  | ok x => simp
  | error f => cases hf : f.toError n <;> simp [hf]

/-- Accepted are the lists that the reading takes as a whole. -/
theorem parseTokensWithin_ok_iff : (∃ code, parseTokensWithin n ts id = .ok code) ↔
    Reads scriptTable n .code (.rule .code) (kindsOf ts) (.done []) := by
  have h := script_judged n ts id
  unfold parseTokensWithin
  generalize Parser.script n id (.ofTokens ts) = res at h
  cases h with
  | @accepted code s wanted read =>
    refine iff_of_true ⟨code, rfl⟩ ?_
    simpa using read.reads
  | leftover tokens left _ _ _ read =>
    refine iff_of_false (by simp) fun hr => left ?_
    have hnil := (read.reads_tokens tokens).unique hr
    simpa [kindsOf] using hnil
  | stuck tokens _ _ _ read =>
    refine iff_of_false (by simp) fun hr => ?_
    cases (read.reads_tokens tokens).unique hr
  | tooDeep _ _ _ _ read => exact iff_of_false (by simp) (read.dead _)

/-- Too deep are the lists with no reading that keeps within the levels allowed. -/
theorem parseTokensWithin_tooDeep_iff : (∃ d, parseTokensWithin n ts id = .error (.tooDeep d)) ↔
    ∀ ending, ¬Reads scriptTable n .code (.rule .code) (kindsOf ts) ending := by
  have h := script_judged n ts id
  unfold parseTokensWithin
  generalize Parser.script n id (.ofTokens ts) = res at h
  cases h with
  | accepted read => exact iff_of_false (by simp) fun hd => hd _ (by simpa using read.reads)
  | @leftover f w rest wanted tokens left cause _ _ read =>
    refine iff_of_false (by simp [Failure.toError, cause]) fun hd => ?_
    exact hd _ (read.reads_tokens tokens)
  | @stuck f rule expected w rest tokens cause _ _ read =>
    refine iff_of_false (by simp [Failure.toError, cause]) fun hd => ?_
    exact hd _ (read.reads_tokens tokens)
  | @tooDeep f rule w rest tokens cause _ _ read =>
    exact iff_of_true ⟨_, by simp [Failure.toError, cause]; rfl⟩ read.dead

/-- Where a syntax error arises, and what of the list is read before it. -/
theorem syntaxError?_cases (h : syntaxError? n ts id = some (i, e)) :
    ∃ w rest, ts = w ++ rest ∧ i = w.length ∧ e.found = rest.head? ∧
      ((e.endOfInput = true ∧ rest ≠ [] ∧ ∃ wanted, e.expected = Kind.sorted wanted ∧
          Done scriptTable n .code (.rule .code) (kindsOf w) (kindsOf rest) wanted) ∨
        e.endOfInput = false ∧ Stuck scriptTable n .code (.rule .code) (kindsOf w) (kindsOf rest)
          e.rule e.expected) := by
  have hj := script_judged n ts id
  unfold syntaxError? at h
  generalize Parser.script n id (.ofTokens ts) = res at h hj
  cases hj with
  | accepted => cases h
  | @leftover f w rest wanted tokens left cause index found read =>
    simp only [Failure.toError, cause, Option.some.injEq, Prod.mk.injEq] at h
    obtain ⟨rfl, rfl⟩ := h
    exact ⟨w, rest, tokens, index, found, .inl ⟨rfl, left, wanted, rfl, read⟩⟩
  | @stuck f rule expected w rest tokens cause index found read =>
    simp only [Failure.toError, cause, Option.some.injEq, Prod.mk.injEq] at h
    obtain ⟨rfl, rfl⟩ := h
    exact ⟨w, rest, tokens, index, found, .inr ⟨rfl, read⟩⟩
  | tooDeep _ cause => simp [Failure.toError, cause] at h

/-- A list whose reading ends in front of a token is rejected there. -/
theorem syntaxError?_of_done {w rest : List Token} (hts : ts = w ++ rest) (hrest : rest ≠ [])
    (h : Reads scriptTable n .code (.rule .code) (kindsOf ts) (.done (kindsOf rest))) :
    ∃ e, syntaxError? n ts id = some (w.length, e) := by
  have hj := script_judged n ts id
  unfold syntaxError?
  generalize Parser.script n id (.ofTokens ts) = res at hj
  cases hj with
  | accepted read =>
    have hnil := h.unique (by simpa using read.reads)
    cases rest with
    | nil => exact absurd rfl hrest
    | cons => simp at hnil
  | @leftover f v rest' wanted tokens left cause index _ read =>
    have heq := h.unique (read.reads_tokens tokens)
    have hlen : rest.length = rest'.length := by
      simpa [Ending.rest] using congrArg (fun e => e.rest.length) heq
    have hts' := congrArg List.length (hts.symm.trans tokens)
    simp only [List.length_append] at hts'
    refine ⟨⟨.code, Kind.sorted wanted, true, f.found, f.span⟩, ?_⟩
    simp only [Failure.toError, cause, index, show v.length = w.length by omega]
  | stuck tokens _ _ _ read =>
    cases h.unique (read.reads_tokens tokens)
  | tooDeep _ _ _ _ read => exact absurd h (read.dead _)

/-- The parser accepts what the committed-choice reading of the script grammar takes as a whole
with at most `maxNesting` levels open at once, and its syntax errors arise where that reading ends
or gets stuck. -/
theorem parseTokens_reads (ts : List Token) (id : Nat) :
    Table.build .code scriptRules = .ok scriptTable ∧
    ((∃ code, parseTokens ts id = .ok code) ↔
      Reads scriptTable maxNesting .code (.rule .code) (kindsOf ts) (.done [])) ∧
    ((∃ d, parseTokens ts id = .error (.tooDeep d)) ↔
      ∀ ending, ¬Reads scriptTable maxNesting .code (.rule .code) (kindsOf ts) ending) ∧
    ∀ e, parseTokens ts id = .error (.unexpected e) →
      ∃ i, syntaxError? maxNesting ts id = some (i, e) ∧ i ≤ ts.length ∧
        Reads scriptTable maxNesting .code (.rule .code) (kindsOf ts)
          (if e.endOfInput then .done (kindsOf (ts.drop i))
          else .stuck (kindsOf (ts.drop i)) e.rule e.expected) := by
  refine ⟨build_scriptRules, parseTokensWithin_ok_iff, parseTokensWithin_tooDeep_iff, ?_⟩
  intro e he
  obtain ⟨i, hi⟩ := parseTokensWithin_unexpected.1 he
  obtain ⟨w, rest, hts, rfl, -, hread⟩ := syntaxError?_cases hi
  have hdrop : ts.drop w.length = rest := by rw [hts, List.drop_left]
  have hlen : w.length ≤ ts.length := by simp [hts]
  refine ⟨w.length, hi, hlen, ?_⟩
  rw [hdrop]
  rcases hread with ⟨hend, -, wanted, -, hdone⟩ | ⟨hend, hstuck⟩
  · rw [if_pos hend]
    exact hdone.reads_tokens hts
  · rw [hend]
    exact hstuck.reads_tokens hts

/-- A block with a bracket after it. -/
def strayBracket : List Token :=
  [.ofText .label .origin ['a'], .ofText .closeRound ⟨1, ⟨1, 2⟩⟩ [')']]

theorem syntaxError?_strayBracket :
    ∃ e, syntaxError? maxNesting strayBracket 0 = some (1, e) ∧ e.endOfInput = true := by
  have h : ((syntaxError? maxNesting strayBracket 0).any fun x =>
      x.1 = 1 && x.2.endOfInput) = true := by decide +kernel
  obtain ⟨⟨i, e⟩, he, hx⟩ := (Option.any_eq_true _ _).1 h
  obtain ⟨rfl, hend⟩ : i = 1 ∧ e.endOfInput = true := by simpa using hx
  exact ⟨e, he, hend⟩

/-- The reading of a block ends in front of a bracket. -/
theorem parseTokens_reads_strayBracket :
    Reads scriptTable maxNesting .code (.rule .code) (kindsOf strayBracket)
      (.done [.closeRound]) := by
  obtain ⟨e, he, hend⟩ := syntaxError?_strayBracket
  have herror : parseTokens strayBracket 0 = .error (.unexpected e) :=
    parseTokensWithin_unexpected.2 ⟨1, he⟩
  obtain ⟨-, -, -, hall⟩ := parseTokens_reads strayBracket 0
  obtain ⟨i, hi, -, hread⟩ := hall e herror
  rw [he] at hi
  cases hi
  rw [if_pos hend] at hread
  exact hread

/-! ## What a syntax error lists -/

/-- The place of a kind in the order of `Kind.all`. -/
def Kind.rank (k : Kind) : Nat := Kind.all.idxOf k

theorem Kind.pairwise_rank {ks : List Kind} (h : ks.Sublist Kind.all) :
    ks.Pairwise (·.rank < ·.rank) := by
  have hall : Kind.all.Pairwise (·.rank < ·.rank) := by decide
  exact hall.sublist h

theorem Terminal.kinds_sublist (τ : Terminal) : τ.kinds.Sublist Kind.all := by
  cases τ with
  | kind k => exact List.singleton_sublist.2 (Kind.mem_all k)
  | family f => cases f <;> decide

/-- The kinds that a stuck reading expected are listed in order. -/
theorem Reads.expected_sublist {t : Table} {r q : Rule} {p : Production}
    {ks rest expected : List Kind} (h : Reads t n r p ks (.stuck rest q expected)) :
    expected.Sublist Kind.all := by
  generalize he : Ending.stuck rest q expected = ending at h
  induction h generalizing rest q expected with
  | @terminalStuck _ _ τ =>
    cases he
    exact τ.kinds_sublist
  | choiceStuck =>
    cases he
    exact List.filter_sublist
  | terminal | seqNil | optionalSkip | manyEnd => cases he
  | rule _ _ _ ih | nested _ _ _ ih | seqStuck _ ih | choice _ _ ih | optional _ _ ih
  | manyStuck _ _ ih | atLeastOneStuck _ ih => exact ih he
  | seqCons _ _ _ ih | manyCons _ _ _ _ ih | atLeastOne _ _ _ ih => exact ih he

/-- A list that the reading passes as a whole has no syntax error at its last token. -/
theorem syntaxError?_of_passes {w : List Token} {t : Token}
    (h : Passes scriptTable n .code (.rule .code) (kindsOf w ++ [t.kind]) 0) :
    syntaxError? n (w ++ [t]) id ≠ some (w.length, e) := by
  intro he
  obtain ⟨v, rest, hts, hlen, -, hread⟩ := syntaxError?_cases he
  obtain ⟨rfl, rfl⟩ := List.append_inj hts hlen
  rw [← kindsOf_nil, ← kindsOf_cons, ← kindsOf_append] at h
  rcases hread with ⟨-, -, wanted, -, hdone⟩ | ⟨-, hstuck⟩
  · have := h _ (hdone.reads_tokens rfl)
    simp [Ending.rest] at this
  · have := h _ (hstuck.reads_tokens rfl)
    simp [Ending.rest] at this

/-- A syntax error names the token it arises at and lists, in order, kinds that would have been of
use there. Where it says that the script could have ended, it could, and the list is complete. -/
theorem syntaxError_truthful (h : syntaxError? maxNesting ts id = some (i, e)) :
    e.found = ts[i]? ∧
    e.expected.Pairwise (·.rank < ·.rank) ∧
    (∀ t, e.found = some t → t.kind ∉ e.expected) ∧
    (∀ t : Token, t.kind ∈ e.expected →
      ∀ e', syntaxError? maxNesting (ts.take i ++ [t]) id ≠ some (i, e')) ∧
    (e.endOfInput = true →
      (∃ code, parseTokens (ts.take i) id = .ok code) ∧
      ∀ t : Token, t.kind ∉ e.expected →
        ∃ e', syntaxError? maxNesting (ts.take i ++ [t]) id = some (i, e')) := by
  obtain ⟨w, rest, rfl, rfl, hfound, hread⟩ := syntaxError?_cases h
  have hget : (w ++ rest)[w.length]? = rest.head? := by
    rw [List.getElem?_append_right (Nat.le_refl _), Nat.sub_self, List.head?_eq_getElem?]
  rw [hget, List.take_left]
  rcases hread with ⟨hend, -, wanted, hwanted, hdone⟩ | ⟨hend, hstuck⟩
  · rw [hwanted]
    refine ⟨hfound, Kind.pairwise_rank List.filter_sublist, ?_, ?_, fun _ => ⟨?_, ?_⟩⟩
    · intro t ht hm
      rw [hfound] at ht
      refine hdone.apart t.kind ?_ (Kind.mem_sorted.1 hm)
      simp [kindsOf, ht]
    · intro t hm e'
      exact syntaxError?_of_passes (hdone.passes t.kind (Kind.mem_sorted.1 hm) [])
    · refine parseTokensWithin_ok_iff.2 ?_
      simpa using hdone.ends [] (by simp)
    · intro t hm
      refine syntaxError?_of_done rfl (List.cons_ne_nil t []) ?_
      rw [kindsOf_append]
      refine hdone.ends _ ?_
      simpa using hm
  · refine ⟨hfound, Kind.pairwise_rank hstuck.reads.expected_sublist, ?_, ?_, ?_⟩
    · intro t ht hm
      rw [hfound] at ht
      obtain ⟨later, rfl⟩ := List.head?_eq_some_iff.1 ht
      have hle := hstuck.passes t.kind hm (kindsOf later) _ hstuck.reads
      simp only [Ending.rest, length_kindsOf, List.length_cons] at hle
      omega
    · intro t hm e'
      exact syntaxError?_of_passes (hstuck.passes t.kind hm [])
    · intro htrue
      rw [hend] at htrue
      cases htrue

/-- A block in front of a bracket is a script. -/
theorem syntaxError_truthful_strayBracket :
    ∃ e, syntaxError? maxNesting strayBracket 0 = some (1, e) ∧ .closeRound ∉ e.expected ∧
      ∃ code, parseTokens (strayBracket.take 1) 0 = .ok code := by
  obtain ⟨e, he, hend⟩ := syntaxError?_strayBracket
  obtain ⟨hfound, -, hapart, -, hcomplete⟩ := syntaxError_truthful he
  exact ⟨e, he, hapart _ hfound, (hcomplete hend).1⟩

end BlockNotation
