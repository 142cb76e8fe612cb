import BlockNotation.Grammar.Script

/-!
# Readings of a grammar

Two readings of a list of rule definitions. In the context-free one, `Derives`, a production
stands for the lists of kinds it derives. In the committed-choice one, `Reads`, a production is
run on a list of kinds with the first kind as its only lookahead, and either ends somewhere in the
list or gets stuck there; a stack alone looks one kind further.

A list has at most one committed-choice reading (`Reads.unique`), which ends at a suffix of it
(`Reads.suffix`), and what it takes is derived (`Reads.derives`).
-/

namespace BlockNotation

/-- The lists of kinds that a production derives under some definitions. -/
inductive Derives (definitions : List (Rule × Production)) : Production → List Kind → Prop where
  | terminal {τ : Terminal} {k : Kind} (h : k ∈ τ.kinds) : Derives definitions (.terminal τ) [k]
  | rule {r : Rule} {p : Production} {ks : List Kind} (h : definitions.lookup r = some p)
      (body : Derives definitions p ks) : Derives definitions (.rule r) ks
  | seqNil : Derives definitions (.seq []) []
  | seqCons {p : Production} {ps : List Production} {ks ls : List Kind}
      (first : Derives definitions p ks) (later : Derives definitions (.seq ps) ls) :
      Derives definitions (.seq (p :: ps)) (ks ++ ls)
  | choice {p : Production} {ps : List Production} {ks : List Kind} (h : p ∈ ps)
      (taken : Derives definitions p ks) : Derives definitions (.choice ps) ks
  | optionalNone {p : Production} : Derives definitions (.optional p) []
  | optionalSome {p : Production} {ks : List Kind} (body : Derives definitions p ks) :
      Derives definitions (.optional p) ks
  | manyNil {p : Production} : Derives definitions (.many p) []
  | manyCons {p : Production} {ks ls : List Kind} (first : Derives definitions p ks)
      (later : Derives definitions (.many p) ls) : Derives definitions (.many p) (ks ++ ls)
  | atLeastOne {p : Production} {ks ls : List Kind} (first : Derives definitions p ks)
      (later : Derives definitions (.many p) ls) : Derives definitions (.atLeastOne p) (ks ++ ls)

/-- The rules whose activations count as levels of nesting. -/
def Rule.nests : Rule → Bool
  | .clause | .expression | .predicate => true
  | _ => false

namespace Table

variable (t : Table)

/-- Is the next kind one that the production can begin with? -/
def opens (p : Production) : List Kind → Bool
  | [] => false
  | k :: _ => (t.firstOf p).contains k

/-- Does a repetition inside rule `r` go on in front of some kinds? In a stack it does only if a
delimiter stands there and the beginning of a block after it. -/
def goesOn (r : Rule) (body : Production) (ks : List Kind) : Bool :=
  if r = .stack then
    match ks with
    | .delimiter :: later => t.opens (.rule .block) later
    | _ => false
  else t.opens body ks

end Table

/-- How a committed-choice reading ends: with some kinds left over, or at a kind it cannot go
on with. -/
inductive Ending where
  | done (rest : List Kind)
  /-- Inside `rule`, in front of `rest`, where one of the kinds `expected` was needed. -/
  | stuck (rest : List Kind) (rule : Rule) (expected : List Kind)
deriving DecidableEq

/-- The kinds in front of which a reading ends. -/
def Ending.rest : Ending → List Kind
  | .done rest => rest
  | .stuck rest _ _ => rest

/-- The committed-choice reading of a production inside rule `r`, with never more than `n`
activations of nesting rules open at once. -/
inductive Reads (t : Table) : Nat → Rule → Production → List Kind → Ending → Prop where
  | terminal {n : Nat} {r : Rule} {τ : Terminal} {k : Kind} {ks : List Kind} (h : k ∈ τ.kinds) :
      Reads t n r (.terminal τ) (k :: ks) (.done ks)
  | terminalStuck {n : Nat} {r : Rule} {τ : Terminal} {ks : List Kind}
      (h : ∀ k ∈ ks.head?, k ∉ τ.kinds) : Reads t n r (.terminal τ) ks (.stuck ks r τ.kinds)
  | rule {n : Nat} {r q : Rule} {p : Production} {ks : List Kind} {e : Ending}
      (h : t.definition? q = some p) (hq : q.nests = false) (body : Reads t n q p ks e) :
      Reads t n r (.rule q) ks e
  | nested {n : Nat} {r q : Rule} {p : Production} {ks : List Kind} {e : Ending}
      (h : t.definition? q = some p) (hq : q.nests = true) (body : Reads t n q p ks e) :
      Reads t (n + 1) r (.rule q) ks e
  | seqNil {n : Nat} {r : Rule} {ks : List Kind} : Reads t n r (.seq []) ks (.done ks)
  | seqStuck {n : Nat} {r q : Rule} {p : Production} {ps : List Production}
      {ks rest expected : List Kind} (first : Reads t n r p ks (.stuck rest q expected)) :
      Reads t n r (.seq (p :: ps)) ks (.stuck rest q expected)
  | seqCons {n : Nat} {r : Rule} {p : Production} {ps : List Production} {ks rest : List Kind}
      {e : Ending} (first : Reads t n r p ks (.done rest)) (later : Reads t n r (.seq ps) rest e) :
      Reads t n r (.seq (p :: ps)) ks e
  | choice {n : Nat} {r : Rule} {p : Production} {ps : List Production} {ks : List Kind}
      {e : Ending} (h : ps.find? (t.opens · ks) = some p) (taken : Reads t n r p ks e) :
      Reads t n r (.choice ps) ks e
  | choiceStuck {n : Nat} {r : Rule} {ps : List Production} {ks : List Kind}
      (h : ps.find? (t.opens · ks) = none) :
      Reads t n r (.choice ps) ks (.stuck ks r (t.firstOf (.choice ps)))
  | optional {n : Nat} {r : Rule} {p : Production} {ks : List Kind} {e : Ending}
      (h : t.opens p ks = true) (body : Reads t n r p ks e) : Reads t n r (.optional p) ks e
  | optionalSkip {n : Nat} {r : Rule} {p : Production} {ks : List Kind}
      (h : t.opens p ks = false) : Reads t n r (.optional p) ks (.done ks)
  | manyEnd {n : Nat} {r : Rule} {p : Production} {ks : List Kind}
      (h : t.goesOn r p ks = false) : Reads t n r (.many p) ks (.done ks)
  | manyStuck {n : Nat} {r q : Rule} {p : Production} {ks rest expected : List Kind}
      (h : t.goesOn r p ks = true) (first : Reads t n r p ks (.stuck rest q expected)) :
      Reads t n r (.many p) ks (.stuck rest q expected)
  | manyCons {n : Nat} {r : Rule} {p : Production} {ks rest : List Kind} {e : Ending}
      (h : t.goesOn r p ks = true) (first : Reads t n r p ks (.done rest))
      (later : Reads t n r (.many p) rest e) : Reads t n r (.many p) ks e
  | atLeastOneStuck {n : Nat} {r q : Rule} {p : Production} {ks rest expected : List Kind}
      (first : Reads t n r p ks (.stuck rest q expected)) :
      Reads t n r (.atLeastOne p) ks (.stuck rest q expected)
  | atLeastOne {n : Nat} {r : Rule} {p : Production} {ks rest : List Kind} {e : Ending}
      (first : Reads t n r p ks (.done rest)) (later : Reads t n r (.many p) rest e) :
      Reads t n r (.atLeastOne p) ks e

namespace Reads

variable {t : Table} {n m : Nat} {r : Rule} {p : Production} {ks : List Kind} {e e' : Ending}

/-- A list has one reading at most, however many levels it may open. -/
theorem unique (h : Reads t n r p ks e) (h' : Reads t m r p ks e') : e = e' := by
  induction h generalizing m e' with
  | terminal h =>
    cases h' with
    | terminal => rfl
    | terminalStuck hk => exact absurd h (hk _ (by simp))
  | terminalStuck hk =>
    cases h' with
    | terminal h => exact absurd h (hk _ (by simp))
    | terminalStuck => rfl
  | rule h hq _ ih =>
    cases h' with
    | rule h₂ _ body => exact ih (by rw [h] at h₂; cases h₂; exact body)
    | nested _ hq₂ _ => simp [hq] at hq₂
  | nested h hq _ ih =>
    cases h' with
    | rule _ hq₂ _ => simp [hq] at hq₂
    | nested h₂ _ body => exact ih (by rw [h] at h₂; cases h₂; exact body)
  | seqNil => cases h'; rfl
  | seqStuck _ ih =>
    cases h' with
    | seqStuck first => exact ih first
    | seqCons first _ => cases ih first
  | seqCons _ _ ihf ihl =>
    cases h' with
    | seqStuck first => cases ihf first
    | seqCons first later => cases ihf first; exact ihl later
  | choice h _ ih =>
    cases h' with
    | choice h₂ taken => exact ih (by rw [h] at h₂; cases h₂; exact taken)
    | choiceStuck h₂ => simp [h] at h₂
  | choiceStuck h =>
    cases h' with
    | choice h₂ _ => simp [h] at h₂
    | choiceStuck => rfl
  | optional h _ ih =>
    cases h' with
    | optional _ body => exact ih body
    | optionalSkip h₂ => simp [h] at h₂
  | optionalSkip h =>
    cases h' with
    | optional h₂ _ => simp [h] at h₂
    | optionalSkip => rfl
  | manyEnd h =>
    cases h' with
    | manyEnd => rfl
    | manyStuck h₂ _ => simp [h] at h₂
    | manyCons h₂ _ _ => simp [h] at h₂
  | manyStuck h _ ih =>
    cases h' with
    | manyEnd h₂ => simp [h] at h₂
    | manyStuck _ first => exact ih first
    | manyCons _ first _ => cases ih first
  | manyCons h _ _ ihf ihl =>
    cases h' with
    | manyEnd h₂ => simp [h] at h₂
    | manyStuck _ first => cases ihf first
    | manyCons _ first later => cases ihf first; exact ihl later
  | atLeastOneStuck _ ih =>
    cases h' with
    | atLeastOneStuck first => exact ih first
    | atLeastOne first _ => cases ih first
  | atLeastOne _ _ ihf ihl =>
    cases h' with
    | atLeastOneStuck first => cases ihf first
    | atLeastOne first later => cases ihf first; exact ihl later

/-- A reading ends at a suffix of what it began with. -/
theorem suffix (h : Reads t n r p ks e) : e.rest <:+ ks := by
  induction h with
  | terminal => exact List.suffix_cons _ _
  | seqCons _ _ ihf ihl | manyCons _ _ _ ihf ihl | atLeastOne _ _ ihf ihl => exact ihl.trans ihf
  | rule _ _ _ ih | nested _ _ _ ih | seqStuck _ ih | choice _ _ ih | optional _ _ ih
  | manyStuck _ _ ih | atLeastOneStuck _ ih => exact ih
  | terminalStuck | seqNil | choiceStuck | optionalSkip | manyEnd => exact List.suffix_rfl

theorem length_le (h : Reads t n r p ks e) : e.rest.length ≤ ks.length := h.suffix.length_le

/-- What a finished reading has taken is derived. -/
theorem derives {rest : List Kind} (h : Reads t n r p ks (.done rest)) :
    ∃ w, ks = w ++ rest ∧ Derives t.definitions p w := by
  generalize he : Ending.done rest = e at h
  induction h generalizing rest with
  | @terminal _ _ _ k ks h =>
    cases he
    exact ⟨[k], rfl, .terminal h⟩
  | rule h _ _ ih | nested h _ _ ih =>
    obtain ⟨w, hw, hd⟩ := ih he
    exact ⟨w, hw, .rule h hd⟩
  | seqNil =>
    cases he
    exact ⟨[], rfl, .seqNil⟩
  | seqCons _ _ ihf ihl =>
    obtain ⟨w, rfl, hd⟩ := ihf rfl
    obtain ⟨v, rfl, hd'⟩ := ihl he
    exact ⟨w ++ v, by simp, .seqCons hd hd'⟩
  | choice h _ ih =>
    obtain ⟨w, hw, hd⟩ := ih he
    exact ⟨w, hw, .choice (List.mem_of_find?_eq_some h) hd⟩
  | optional _ _ ih =>
    obtain ⟨w, hw, hd⟩ := ih he
    exact ⟨w, hw, .optionalSome hd⟩
  | optionalSkip =>
    cases he
    exact ⟨[], rfl, .optionalNone⟩
  | manyEnd =>
    cases he
    exact ⟨[], rfl, .manyNil⟩
  | manyCons _ _ _ ihf ihl =>
    obtain ⟨w, rfl, hd⟩ := ihf rfl
    obtain ⟨v, rfl, hd'⟩ := ihl he
    exact ⟨w ++ v, by simp, .manyCons hd hd'⟩
  | atLeastOne _ _ ihf ihl =>
    obtain ⟨w, rfl, hd⟩ := ihf rfl
    obtain ⟨v, rfl, hd'⟩ := ihl he
    exact ⟨w ++ v, by simp, .atLeastOne hd hd'⟩
  | terminalStuck | seqStuck | choiceStuck | manyStuck | atLeastOneStuck => simp at he

end Reads

end BlockNotation
