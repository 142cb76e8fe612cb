import BlockNotation.Proofs.Script.Nodes

/-!
# Places in a script tree

A place is a path from the root of a tree, which leads to at most one node (`Node.at?`). As the
parser of a node reads the parts of the node one after the other, every node of a tree that was read
was read itself, from tokens that the tree took, when the parts before it had been read and those
after it had not (`Node.ReadAt`).
-/

namespace BlockNotation

/-! ## How far a node was read -/

/-- What a parser leaves comes last among the tokens it stood in front of. -/
theorem Tracks.suffix {α : Type} {p : Parser α} {P : List Token → α → Prop} (hp : Tracks [] p P)
    {a : α} {r left : List Token} (h : p.Ran a r left) : left <:+ r := by
  obtain ⟨s, s', hs, rfl, rfl⟩ := h
  obtain ⟨w, hw, -⟩ := hp.of_run hs
  exact ⟨w, hw.symm⟩

theorem Node.Read.suffix : ∀ {n : Node} {r left : List Token}, n.Read r left → left <:+ r
  | .token t, _, left, h => h ▸ List.suffix_cons t left
  | .modifier _, _, _, h => Parser.tracks_modifier?.suffix h
  | .brackets shape _, _, _, ⟨levels, h⟩ => (Parser.tracks_brackets levels shape).suffix h
  | .argument _, _, _, ⟨levels, h⟩ =>
    (Parser.tracks_argument? (Parser.tracks_brackets levels)).suffix h
  | .condition _, _, _, ⟨levels, h⟩ =>
    (Parser.tracks_condition (Parser.tracks_brackets levels)).suffix h
  | .atomic _, _, _, ⟨levels, h⟩ =>
    (Parser.tracks_atomic? (Parser.tracks_brackets levels)).suffix h
  | .block _, _, _, ⟨levels, h⟩ => (Parser.tracks_block? (Parser.tracks_clause levels)).suffix h
  | .clause _, _, _, ⟨levels, h⟩ => (Parser.tracks_clause levels).suffix h
  | .stack _, _, _, ⟨levels, h⟩ =>
    (Parser.tracks_stack? (Parser.tracks_clause levels) (Parser.follows_clause levels)).suffix h
  | .comments _, _, _, h => Parser.tracks_comments?.suffix h
  | .code _, _, _, ⟨levels, id, _, h, hleft⟩ =>
    (Parser.tracks_script levels id).suffix ⟨_, _, h, rfl, hleft⟩

namespace Row

variable {ns : List Node} {m : Node} {r left : List Token}

theorem suffix (h : Row ns r left) : left <:+ r := by
  induction h with
  | nil => exact List.suffix_rfl
  | node first _ ih => exact ih.trans first.suffix
  | @skip t _ r _ _ _ ih => exact ih.trans (List.suffix_cons t r)

/-- One of the nodes in a row, and the rows before and after it. -/
theorem split (h : Row ns r left) {i : Nat} (hm : ns[i]? = some m) : ∃ mid mid',
    Row (ns.take i) r mid ∧ m.Read mid mid' ∧ Row (ns.drop (i + 1)) mid' left := by
  induction h generalizing i with
  | nil => cases hm
  | @skip t ns r left delimiter _ ih =>
    obtain ⟨mid, mid', hbefore, hread, hafter⟩ := ih hm
    exact ⟨mid, mid', .skip delimiter hbefore, hread, hafter⟩
  | @node n ns r mid left first later ih =>
    cases i with
    | zero =>
      cases hm
      exact ⟨r, mid, .nil, first, later⟩
    | succ i =>
      obtain ⟨mid₁, mid₂, hbefore, hread, hafter⟩ := ih hm
      exact ⟨mid₁, mid₂, .node first hbefore, hread, hafter⟩

/-- Each of some nodes that were read one after the other was read somewhere on the way. -/
theorem read_of_mem (h : Row ns r left) (hm : m ∈ ns) : ∃ r' left', r' <:+ r ∧ m.Read r' left' := by
  obtain ⟨i, hi⟩ := List.mem_iff_getElem?.1 hm
  obtain ⟨mid, mid', hbefore, hread, -⟩ := h.split hi
  exact ⟨mid, mid', hbefore.suffix, hread⟩

end Row

/-! ## Places -/

namespace Node

/-- The node at a place in a tree: the empty place is the root, `i :: p` is place `p` in its part
number `i`. -/
def at? : Node → List Nat → Option Node
  | n, [] => some n
  | n, i :: p => n.parts[i]?.bind (·.at? p)

@[simp] theorem at?_nil (n : Node) : n.at? [] = some n := rfl

theorem at?_cons_eq_some {n m : Node} {i : Nat} {p : List Nat} :
    n.at? (i :: p) = some m ↔ ∃ part, n.parts[i]? = some part ∧ part.at? p = some m :=
  Option.bind_eq_some_iff

/-- The node `k` at the place `p` of a tree was read from the tokens `r'` up to the tokens `left'`
while the tree was from `r` up to `left`: the parts before it were read before it, those after it
after it. -/
inductive ReadAt : Node → List Token → List Token → List Nat → Node → List Token → List Token →
    Prop where
  | here {n : Node} {r left : List Token} (h : n.Read r left) : ReadAt n r left [] n r left
  | part {n m k : Node} {i : Nat} {p : List Nat} {r mid r' left' mid' left : List Token}
      (h : n.Read r left) (hm : n.parts[i]? = some m) (before : Row (n.parts.take i) r mid)
      (inside : ReadAt m mid mid' p k r' left') (after : Row (n.parts.drop (i + 1)) mid' left) :
      ReadAt n r left (i :: p) k r' left'

variable {n k : Node} {p : List Nat} {r left r' left' : List Token}

theorem ReadAt.read (h : n.ReadAt r left p k r' left') : k.Read r' left' := by
  induction h with
  | here h => exact h
  | part _ _ _ _ _ ih => exact ih

theorem ReadAt.suffix (h : n.ReadAt r left p k r' left') : r' <:+ r := by
  induction h with
  | here => exact List.suffix_rfl
  | part _ _ before _ _ ih => exact ih.trans before.suffix

/-- Every node in a tree was read somewhere while the tree was. -/
theorem Read.exists_readAt : ∀ {p : List Nat} {n : Node} {r left : List Token}, n.Read r left →
    n.at? p = some k → ∃ r' left', n.ReadAt r left p k r' left'
  | [], n, r, left, h, hk => by
    cases hk
    exact ⟨r, left, .here h⟩
  | i :: p, n, r, left, h, hk => by
    obtain ⟨m, hm, hk⟩ := at?_cons_eq_some.1 hk
    have hrow := h.row (List.ne_nil_of_mem (List.mem_of_getElem? hm))
    obtain ⟨mid, mid', hbefore, hread, hafter⟩ := hrow.split hm
    obtain ⟨r', left', hinside⟩ := hread.exists_readAt hk
    exact ⟨r', left', .part h hm hbefore hinside hafter⟩

end Node

/-- A script is read from all of its tokens. -/
theorem read_of_parseTokens {ts : List Token} {id : Nat} {code : Code}
    (h : parseTokens ts id = .ok code) : (Node.code code).Read ts [] := by
  change parseTokensWithin maxNesting ts id = .ok code at h
  unfold parseTokensWithin at h
  split at h
  · rename_i s hscript
    cases h
    exact ⟨maxNesting, id, s, hscript, (Parser.script_run hscript).2⟩
  · cases h

end BlockNotation
