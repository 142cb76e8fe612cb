import BlockNotation.Grammar.Table

/-!
# The grammar of scripts

`scriptRules` is the declared grammar of the notation and `scriptTable` its table. The kinds that
each rule can begin with are also written out, in `Rule.lead`, where the parser can look at them.
-/

namespace BlockNotation

/-- The definitions of all rules, start rule first. -/
def scriptRules : List (Rule × Production) :=
  [(.code, .seq [
      .many (.token .delimiter),
      .optional (.rule .comments),
      .optional (.seq [
        .rule .stack,
        .many (.seq [
          .atLeastOne (.choice [.token .delimiter, .rule .comments]),
          .optional (.rule .stack)])])]),
    (.comments, .atLeastOne (.seq [.token .remark, .many (.token .delimiter)])),
    (.stack, .seq [
      .rule .block,
      .many (.seq [.token .delimiter, .rule .block]),
      .optional (.token .delimiter)]),
    (.block, .choice [.rule .atomic, .rule .composite]),
    (.atomic, .seq [
      .atLeastOne (.choice [.token .label, .rule .argument]),
      .rule .modifier,
      .rule .annotations]),
    (.composite, .choice [.rule .ifElse, .rule .forever, .rule .repeatTimes, .rule .repeatUntil]),
    (.ifElse, .seq [
      .token .ifWord,
      .rule .condition,
      .optional (.token .thenWord),
      .rule .annotations,
      .rule .clause,
      .optional (.seq [.token .elseWord, .rule .clause])]),
    (.forever, .seq [.token .foreverWord, .rule .annotations, .rule .clause]),
    (.repeatTimes, .seq [
      .token .repeatWord, .rule .argument, .rule .annotations, .rule .clause]),
    (.repeatUntil, .seq [
      .token .repeatUntilWord, .rule .condition, .rule .annotations, .rule .clause]),
    (.clause, .seq [
      .optional (.token .delimiter), .optional (.rule .stack), .optional (.token .endWord)]),
    (.modifier, .optional (.seq [.token .doubleColon, .token .label])),
    (.annotations, .optional (.choice [
      .seq [.token .remark, .optional (.token .identifier)],
      .seq [.token .identifier, .optional (.token .remark)]])),
    (.argument, .choice [
      .seq [
        .token .openCurly,
        .optional (.choice [
          .terminal (.family .literal), .rule .expression, .rule .predicate]),
        .optional (.token .identifier),
        .token .closeCurly],
      .terminal (.family .literal),
      .rule .expression,
      .rule .predicate]),
    (.condition, .choice [
      .seq [
        .token .openCurly,
        .optional (.rule .predicate),
        .optional (.token .identifier),
        .token .closeCurly],
      .rule .predicate]),
    (.expression, .seq [
      .token .openRound, .optional (.rule .atomic), .token .closeRound]),
    (.predicate, .seq [
      .token .openAngle, .optional (.rule .atomic), .token .closeAngle])]

/-- The table of the script grammar. -/
def scriptTable : Table := .ofDefinitions .code scriptRules

/-- The kinds a rule of the script grammar can begin with. -/
def Rule.lead : Rule → List Kind
  | .code =>
    [.remark, .stringLiteral, .numberLiteral, .colorLiteral, .choiceLiteral, .foreverWord,
      .repeatWord, .repeatUntilWord, .ifWord, .delimiter, .label, .openCurly, .openRound,
      .openAngle]
  | .comments => [.remark]
  | .stack | .block =>
    [.stringLiteral, .numberLiteral, .colorLiteral, .choiceLiteral, .foreverWord, .repeatWord,
      .repeatUntilWord, .ifWord, .label, .openCurly, .openRound, .openAngle]
  | .atomic =>
    [.stringLiteral, .numberLiteral, .colorLiteral, .choiceLiteral, .label, .openCurly,
      .openRound, .openAngle]
  | .composite => [.foreverWord, .repeatWord, .repeatUntilWord, .ifWord]
  | .ifElse => [.ifWord]
  | .forever => [.foreverWord]
  | .repeatTimes => [.repeatWord]
  | .repeatUntil => [.repeatUntilWord]
  | .clause =>
    [.stringLiteral, .numberLiteral, .colorLiteral, .choiceLiteral, .foreverWord, .endWord,
      .repeatWord, .repeatUntilWord, .ifWord, .delimiter, .label, .openCurly, .openRound,
      .openAngle]
  | .modifier => [.doubleColon]
  | .annotations => [.remark, .identifier]
  | .argument =>
    [.stringLiteral, .numberLiteral, .colorLiteral, .choiceLiteral, .openCurly, .openRound,
      .openAngle]
  | .condition => [.openCurly, .openAngle]
  | .expression => [.openRound]
  | .predicate => [.openAngle]

/-- The kinds written out for a rule are those of the table. -/
theorem scriptTable_first (r : Rule) : scriptTable.first r = r.lead := by
  have h : (Rule.all.all fun r => scriptTable.first r == r.lead) = true := by decide +kernel
  simpa using List.all_eq_true.1 h r (Rule.mem_all r)

end BlockNotation
