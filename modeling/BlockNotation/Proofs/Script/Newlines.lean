import BlockNotation.Proofs.Script.Abreast
import BlockNotation.Proofs.Token.LineEnds
import BlockNotation.Proofs.Token.Lines

/-!
# Line ends of a script

A line feed at the end of a script changes nothing but the delimiters there, so that the script
holds the same blocks (`parse_final_newline`). With `\r\n` in place of `\n` its blocks are the same
up to what stands between lines and inside strings, choices and remarks; a script is not refused for
it, and the label texts stay (`parse_crlf`).
-/

namespace BlockNotation

variable {f : Token → Token} {ts us v w : List Token}

theorem Twins.refl (t : Token) : Twins f t t := ⟨rfl, rfl, fun _ => rfl⟩

theorem Abreast.append_left (h : Abreast f v w) : ∀ us, Abreast f (us ++ v) (us ++ w)
  | [] => h
  | t :: us => .cons (.refl t) (h.append_left us)

theorem Abreast.of_twins (h : List.Forall₂ (Twins f) ts us) : Abreast f ts us := by
  induction h with
  | nil => exact .spent .nil .nil
  | cons twins _ ih => exact .cons twins ih

theorem parse_eq_of_tokenize {source : String} (h : tokenize source = .ok ts) (n : Nat) :
    parse source n = parseTokens ts n := by
  rw [parse, h]

/-! ## A line feed at the end -/

/-- A script with a line feed behind it is a script. It has as many stacks and the same atomic
blocks, token by token and with the same spans. -/
theorem parse_final_newline {source : String} {n : Nat} {c : Code} (h : parse source n = .ok c) :
    ∃ c', parse (source ++ "\n") n = .ok c' ∧ c'.atomicBlocks = c.atomicBlocks ∧
      c'.stackList.length = c.stackList.length := by
  obtain ⟨ts, hts, hc⟩ := tokenize_of_parse h
  obtain ⟨us, v, w, rfl, hnewline, hv, hw⟩ := tokensFrom_final_newline (tokensFrom_ok_iff.1 hts)
  have hts' : tokenize (source ++ "\n") = .ok (us ++ w) := by
    rw [tokenize, String.toList_append]
    exact hnewline
  have habreast : Abreast id (us ++ v) (us ++ w) := (Abreast.spent hv hw).append_left us
  obtain ⟨c', hc', hlength, hblocks⟩ := parseTokensWithin_abreast habreast hc
  refine ⟨c', (parse_eq_of_tokenize hts' n).trans hc', ?_, hlength⟩
  -- each block reaches over its tokens, so that nothing is lost where no token is changed
  calc c'.atomicBlocks
      = c'.atomicBlocks.map (·.recast id) := (parseTokensWithin_recast_id hc').symm
    _ = c.atomicBlocks.map (·.recast id) := hblocks.symm
    _ = c.atomicBlocks := parseTokensWithin_recast_id hc

/-- The line feed becomes a part of the delimiter at the end of a clause. -/
theorem parse_final_newline_forever : ∃ c c', parse "forever; say [a];" 0 = .ok c ∧
    parse ("forever; say [a];" ++ "\n") 0 = .ok c' ∧ c'.atomicBlocks = c.atomicBlocks ∧
    c'.stackList.length = c.stackList.length ∧
    c.atomicBlocks.map (fun a => (a.labelText, a.span)) = [("say _", ⟨9, 16⟩)] := by
  have h : (parse "forever; say [a];" 0).toOption.map (fun c =>
      c.atomicBlocks.map fun a => (a.labelText, a.span)) = some [("say _", ⟨9, 16⟩)] := by
    decide +kernel
  cases hc : parse "forever; say [a];" 0 with
  | error e =>
    rw [hc] at h
    cases h
  | ok c =>
    rw [hc] at h
    obtain ⟨c', hc', hblocks, hlength⟩ := parse_final_newline hc
    exact ⟨c, c', rfl, hc', hblocks, hlength, Option.some.inj h⟩

/-! ## Carriage returns -/

/-- The text with `\r\n` in place of each `\n`. -/
def withCarriageReturns (source : String) : String := String.ofList (crlf source.toList)

/-- The label texts of a script that was read, in source order. -/
def labelTexts? (outcome : Except ParseError Code) : Option (List String) :=
  outcome.toOption.map fun c => c.atomicBlocks.map Atomic.labelText

theorem tokenize_crlf {source : String} (h : NoEscapedNewline source.toList) :
    SameOutcome (tokenize source) (tokenize (withCarriageReturns source)) := by
  rw [tokenize, tokenize, withCarriageReturns, String.toList_ofList]
  exact tokensFrom_crlf h .origin

theorem SameToken.twins {t u : Token} (h : SameToken t u) : Twins (fun _ => default) t u where
  kind := h.kind.symm
  image := rfl
  text ht := (h.text (ht ▸ by decide)).symm

theorem labelTexts?_abreast {n : Nat} (h : Abreast f ts us) :
    labelTexts? (parseTokens ts n) = labelTexts? (parseTokens us n) := by
  cases hc : parseTokens ts n with
  | ok c =>
    obtain ⟨c', hc', -, hblocks⟩ := parseTokensWithin_abreast h hc
    have hlabels := congrArg (List.map Atomic.labelText) hblocks
    simp only [List.map_map, Function.comp_def, Atomic.labelText_recast] at hlabels
    rw [parseTokens, hc']
    exact congrArg some hlabels
  | error e =>
    cases hc' : parseTokens us n with
    | error e' => rfl
    | ok c' =>
      obtain ⟨c, hok, -⟩ := parseTokensWithin_abreast h.symm hc'
      cases hc.symm.trans hok

/-- Unless a backslash stands in front of a line feed, carriage returns in front of the line feeds
do not change how a text is cut into tokens, of which only strings, choices, remarks and delimiters
may have another text, nor whether it is a script, nor the label texts of its blocks. -/
theorem parse_crlf {source : String} (h : NoEscapedNewline source.toList) :
    SameOutcome (tokenize source) (tokenize (withCarriageReturns source)) ∧
    ∀ n, labelTexts? (parse source n) = labelTexts? (parse (withCarriageReturns source) n) := by
  have htokens := tokenize_crlf h
  refine ⟨htokens, fun n => ?_⟩
  unfold parse
  generalize tokenize source = run, tokenize (withCarriageReturns source) = run' at htokens
  cases htokens with
  | error => rfl
  | ok hall => exact labelTexts?_abreast (.of_twins (hall.imp fun _ _ => SameToken.twins))

theorem parse_crlf_say : NoEscapedNewline "wait\nsay [a\nb] // c\n".toList ∧
    SameOutcome (tokenize "wait\nsay [a\nb] // c\n") (tokenize "wait\r\nsay [a\r\nb] // c\r\n") ∧
    labelTexts? (parse "wait\r\nsay [a\r\nb] // c\r\n" 0) = some ["wait", "say _"] := by
  have hescape : NoEscapedNewline "wait\nsay [a\nb] // c\n".toList := by
    unfold NoEscapedNewline
    decide +kernel
  have hreturns : withCarriageReturns "wait\nsay [a\nb] // c\n" =
      "wait\r\nsay [a\r\nb] // c\r\n" := by
    decide +kernel
  have hlabels : labelTexts? (parse "wait\nsay [a\nb] // c\n" 0) = some ["wait", "say _"] := by
    decide +kernel
  have hcrlf := parse_crlf hescape
  rw [hreturns] at hcrlf
  exact ⟨hescape, hcrlf.1, (hcrlf.2 0).symm.trans hlabels⟩

end BlockNotation
