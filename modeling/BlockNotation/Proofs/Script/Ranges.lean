import BlockNotation.Modifier.Analysis
import BlockNotation.Proofs.Script.Tracking
import BlockNotation.Proofs.Token.Cutting

/-!
# Every range that is reported can be shown

A report points at a range of bytes of the source. The range of an error is that of a character no
token begins with, of a token, or the point where the last token ends; the range of a warning is
that of an atomic block. All of them lie inside the source and part no character
(`ranges_fit`).
-/

namespace BlockNotation

/-- Tokens that lie in a source one after the other, none of them empty. -/
structure Placed (source : String) (ts : List Token) : Prop where
  fits : ∀ t ∈ ts, t.span.start < t.span.stop ∧ t.span.Fits source
  apart : ts.Pairwise fun t u => t.span.stop ≤ u.span.start

theorem tokenize_placed {source : String} {ts : List Token} (h : tokenize source = .ok ts) :
    Placed source ts := by
  have htiles : Tiles 0 source.toList ts := tokensFrom_tiles h
  refine ⟨fun t ht => ?_, htiles.pairwise⟩
  obtain ⟨hlt, hfits, -⟩ := htiles.tokens (List.nil_append _).symm rfl t ht
  exact ⟨hlt, hfits⟩

theorem Span.Fits.at_stop {s : Span} {source : String} (h : s.Fits source) :
    Span.Fits ⟨s.stop, s.stop⟩ source :=
  ⟨Nat.le_refl _, h.inside, h.stop_valid, h.stop_valid⟩

theorem Span.fits_zero (source : String) : Span.Fits ⟨0, 0⟩ source := by
  have h : source.toList = [] ++ [] ++ source.toList := rfl
  exact (Span.of_append h rfl rfl).1

namespace Placed

variable {source : String} {w m left : List Token}

theorem part (h : Placed source w) (hm : m <:+: w) : Placed source m :=
  ⟨fun t ht => h.fits t (hm.subset ht), h.apart.sublist hm.sublist⟩

/-- Tokens that stand together span a part of the source. -/
theorem hull (h : Placed source w) (hne : w ≠ []) :
    (Span.hull w).start < (Span.hull w).stop ∧ (Span.hull w).Fits source := by
  obtain ⟨t, us, rfl⟩ := List.exists_cons_of_ne_nil hne
  rw [Span.hull, endOf_eq_getLast hne]
  have hu := List.getLast_mem hne
  generalize (t :: us).getLast hne = u at hu
  obtain ⟨hlt, hfits⟩ := h.fits t List.mem_cons_self
  obtain ⟨hlt', hfits'⟩ := h.fits u hu
  have hle : t.span.start < u.span.stop := by
    rcases List.mem_cons.1 hu with rfl | hu
    · exact hlt
    · have := List.rel_of_pairwise_cons h.apart hu
      omega
  exact ⟨hle, hle.le, hfits'.inside, hfits.start_valid, hfits'.stop_valid⟩

/-- What a failure after the tokens `w` points at. -/
theorem next (h : Placed source (w ++ left)) {s : Span}
    (hs : s = .next (endOf (Cursor.startOf 0 (w ++ left)) w) left) :
    s.Fits source ∧ (s.start < s.stop ↔ left.head?.isSome = true) := by
  subst hs
  cases left with
  | cons t left =>
    obtain ⟨hlt, hfits⟩ := h.fits t (by simp)
    exact ⟨hfits, iff_of_true hlt rfl⟩
  | nil =>
    rw [List.append_nil] at h ⊢
    refine ⟨?_, iff_of_false (Nat.lt_irrefl _) (by simp)⟩
    cases w with
    | nil => exact Span.fits_zero source
    | cons t w =>
      have hne := List.cons_ne_nil t w
      have hhull := (h.hull hne).2.at_stop
      rwa [Span.hull, endOf_eq_getLast hne, ← endOf_eq_getLast hne] at hhull

end Placed

/-! ## Errors -/

namespace ParseError

def isLexical : ParseError → Bool
  | .lexical _ => true
  | _ => false

/-- The token at which an error arose, if it arose at one. -/
def found? : ParseError → Option Token
  | .unexpected e => e.found
  | .tooDeep e => e.found
  | _ => none

/-- An error that is about a part of the source can be shown there, and only an error about the end
of the input points between two characters. -/
structure Shown (source : String) (e : ParseError) (s : Span) : Prop where
  span : e.span? = some s
  fits : s.Fits source
  nonempty : s.start < s.stop ↔ e.isLexical = true ∨ e.found?.isSome = true

/-- The report of an error points at its span and nowhere else. -/
theorem labels_toDiagnostic {e : ParseError} {s : Span} (h : e.span? = some s) (fileId : Nat) :
    ∃ text, (e.toDiagnostic fileId).labels = [⟨true, fileId, s, text⟩] := by
  cases e with
  | grammar => cases h
  | lexical | unexpected | tooDeep =>
    cases h
    exact ⟨_, rfl⟩

end ParseError

variable {source : String} {ts : List Token} {limit id : Nat}

theorem LexicalError.shown {e : LexicalError} (h : tokenize source = .error e) :
    (ParseError.lexical e).Shown source e.span := by
  obtain ⟨before, rem, ts, hsource, hbad, heq, hoffset, -⟩ := tokenize_error h
  have hsplit : source.toList = before ++ rem.take 1 ++ rem.drop 1 := by
    rw [List.append_assoc, List.take_append_drop, hsource]
  have hstop : e.span.stop = byteSize before + byteSize (rem.take 1) := by
    rw [LexicalError.span, hoffset, heq, String.toList_ofList]
  have hpos : 0 < byteSize (rem.take 1) := by cases hbad <;> exact byteSize_pos (by simp)
  refine ⟨rfl, (Span.of_append hsplit hoffset hstop).1, iff_of_true ?_ (.inl rfl)⟩
  have hstart : e.span.start = byteSize before := hoffset
  omega

theorem parseTokensWithin_shown {e : ParseError} (hts : Placed source ts)
    (h : parseTokensWithin limit ts id = .error e) : ∃ s, e.Shown source s := by
  have hrun := Parser.tracks_script limit id (.ofTokens ts) _ rfl
  unfold parseTokensWithin at h
  generalize Parser.script limit id (.ofTokens ts) = res at h hrun
  cases hrun with
  | ok => cases h
  | @error f w left rest found span =>
    obtain rfl : ts = w ++ left := rest
    obtain ⟨hfits, hiff⟩ := hts.next span
    rw [← found] at hiff
    cases h
    refine ⟨f.span, ?_⟩
    unfold Failure.toError
    cases f.cause with
    | unexpected | tooDeep =>
      exact ⟨rfl, hfits, by simpa [ParseError.isLexical, ParseError.found?] using hiff⟩

/-! ## Warnings -/

/-- Between two states of a log, only warnings about spans in `P` were reported. -/
def WarningLog.Gains (P : Span → Prop) (log log' : WarningLog) : Prop :=
  ∃ new, log'.warnings = log.warnings ++ new ∧ ∀ w ∈ new, P w.span

namespace WarningLog.Gains

variable {P Q : Span → Prop} {log log₁ log₂ : WarningLog}

theorem refl : Gains P log log := ⟨[], by simp⟩

theorem trans (h : Gains P log log₁) (h' : Gains P log₁ log₂) : Gains P log log₂ := by
  obtain ⟨new, hnew, hP⟩ := h
  obtain ⟨new', hnew', hP'⟩ := h'
  refine ⟨new ++ new', ?_, List.forall_mem_append.2 ⟨hP, hP'⟩⟩
  rw [hnew', hnew, List.append_assoc]

theorem imp (h : Gains P log log₁) (hPQ : ∀ s, P s → Q s) : Gains Q log log₁ := by
  obtain ⟨new, hnew, hP⟩ := h
  exact ⟨new, hnew, fun w hw => hPQ _ (hP w hw)⟩

end WarningLog.Gains

namespace Registry

/-- One classifier reports nothing, or a conflict about the span it was given. -/
theorem ask_gains (text : String) (context : Span) (state : Classification × WarningLog)
    (c : Classifier) : WarningLog.Gains (· = context) state.2 (ask text context state c).2 := by
  unfold ask
  split
  · exact .refl
  · split
    · exact ⟨[⟨conflictMessage, context, state.2.sourceId⟩], rfl, by simp⟩
    · exact .refl

theorem classify_gains (r : Registry) (a : Atomic) (log : WarningLog) :
    WarningLog.Gains (· = a.span) log (r.classify a log).2 := by
  have hfold : ∀ (text : String) (cs : List Classifier) (state : Classification × WarningLog),
      WarningLog.Gains (· = a.span) state.2 (cs.foldl (ask text a.span) state).2 := by
    intro text cs
    induction cs with
    | nil => exact fun _ => .refl
    | cons c cs ih => exact fun state => (ask_gains text a.span state c).trans (ih _)
  unfold classify classifyLabel
  split
  · exact .refl
  · exact hfold _ _ _

/-- Every new warning is about one of the atomic blocks. -/
theorem classifyAll_gains (r : Registry) : ∀ (as : List Atomic) (log : WarningLog),
    WarningLog.Gains (fun s => ∃ a ∈ as, s = a.span) log (r.classifyAll as log).2
  | [], _ => .refl
  | a :: as, log => by
    have hfirst := (r.classify_gains a log).imp (Q := fun s => ∃ b ∈ a :: as, s = b.span)
      fun s hs => ⟨a, List.mem_cons_self, hs⟩
    refine hfirst.trans ((classifyAll_gains r as _).imp ?_)
    rintro s ⟨b, hb, rfl⟩
    exact ⟨b, List.mem_cons_of_mem a hb, rfl⟩

end Registry

theorem parseTokensWithin_within {code : Code} (h : parseTokensWithin limit ts id = .ok code) :
    Within ts code.atomicBlocks :=
  (parseTokensWithin_spread Seated.spreads h).within

/-! ## Reports -/

/-- The span of an error lies inside the source and parts no character, it is empty exactly at the
end of the input, and the report of the error points there and nowhere else. Every warning about a
script that was read is about the span of an atomic block, which is a part of the source that is
not empty. -/
theorem ranges_fit (source : String) (id : Nat) :
    (∀ e, parse source id = .error e → ∃ s, e.span? = some s ∧ s.Fits source ∧
      (s.start < s.stop ↔ e.isLexical = true ∨ e.found?.isSome = true) ∧
      ∀ fileId, ∃ text, (e.toDiagnostic fileId).labels = [⟨true, fileId, s, text⟩]) ∧
    ∀ code, parse source id = .ok code → ∀ (r : Registry) (log : WarningLog), ∃ new,
      (r.analyse code log).2.warnings = log.warnings ++ new ∧
      ∀ w ∈ new, w.span.start < w.span.stop ∧ w.span.Fits source ∧
        ∃ a ∈ code.atomicBlocks, w.span = a.span := by
  unfold parse
  constructor
  · intro e he
    obtain ⟨s, hspan, hfits, hiff⟩ : ∃ s, e.Shown source s := by
      cases hts : tokenize source with
      | error l =>
        rw [hts] at he
        cases he
        exact ⟨_, LexicalError.shown hts⟩
      | ok ts =>
        rw [hts] at he
        exact parseTokensWithin_shown (tokenize_placed hts) he
    exact ⟨s, hspan, hfits, hiff, ParseError.labels_toDiagnostic hspan⟩
  · intro code hcode r log
    cases hts : tokenize source with
    | error l => rw [hts] at hcode; cases hcode
    | ok ts =>
      rw [hts] at hcode
      obtain ⟨new, hnew, hspans⟩ := r.classifyAll_gains code.atomicBlocks log
      refine ⟨new, hnew, fun w hw => ?_⟩
      obtain ⟨a, ha, hspan⟩ := hspans w hw
      obtain ⟨m, hm, hne, hhull⟩ := parseTokensWithin_within hcode a ha
      obtain ⟨hlt, hfits⟩ := ((tokenize_placed hts).part hm).hull hne
      rw [← hhull, ← hspan] at hlt hfits
      exact ⟨hlt, hfits, a, ha, hspan⟩

/-- A bracket after a label of two bytes is not closed, and a modifier has two meanings. -/
theorem ranges_fit_accent :
    (∃ e, parse "é (" 0 = .error e ∧ e.span? = some ⟨4, 4⟩ ∧ Span.Fits ⟨4, 4⟩ "é (" ∧
      e.found? = none) ∧
    ∃ code w, parse "é :: my block list" 0 = .ok code ∧
      (Registry.builtin.analyse code (.empty 0)).2.warnings = [w] ∧
      w.span.Fits "é :: my block list" ∧ ∃ a ∈ code.atomicBlocks, w.span = a.span := by
  constructor
  · have h : (match parse "é (" 0 with
        | .error e => e.span? = some ⟨4, 4⟩
        | .ok _ => false) = true := by decide +kernel
    cases he : parse "é (" 0 with
    | ok code => rw [he] at h; cases h
    | error e =>
      rw [he] at h
      have hspan : e.span? = some ⟨4, 4⟩ := of_decide_eq_true h
      obtain ⟨s, hs, hfits, hiff, -⟩ := (ranges_fit _ _).1 e he
      obtain rfl : s = ⟨4, 4⟩ := by simpa [hspan] using hs.symm
      refine ⟨e, rfl, hspan, hfits, ?_⟩
      have hnone := mt hiff.2 (Nat.lt_irrefl _)
      simpa using (not_or.1 hnone).2
  · have h : (match parse "é :: my block list" 0 with
        | .error _ => false
        | .ok code => (Registry.builtin.analyse code (.empty 0)).2.warnings.length = 1) = true := by
      decide +kernel
    cases hcode : parse "é :: my block list" 0 with
    | error e => rw [hcode] at h; cases h
    | ok code =>
      rw [hcode] at h
      obtain ⟨w, hw⟩ := List.length_eq_one_iff.1 (of_decide_eq_true h)
      obtain ⟨new, hnew, hall⟩ := (ranges_fit _ _).2 code hcode .builtin (.empty 0)
      have hmem : w ∈ new := by
        have : [w] = new := hw.symm.trans hnew
        simp [← this]
      obtain ⟨-, hfits, ha⟩ := hall w hmem
      exact ⟨code, w, rfl, hw, hfits, ha⟩

end BlockNotation
