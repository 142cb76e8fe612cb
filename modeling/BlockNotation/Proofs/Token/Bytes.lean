import BlockNotation.Proofs.Token.Positions

/-!
# Texts cut at byte offsets

A text can be cut at a byte offset that lies in it and not inside of a character
(`splitAtByte_eq_ok_iff`), and those are the valid positions of the string
(`exists_splitAtByte_iff`). Bytes of ASCII characters may be counted one by one in place of
characters, since no byte of another character is ASCII (`countWhile_eq`).

A loop over byte offsets is a state with an offset and a round that gives the next state or the
result; it fails at a round that gets no further (`rounds`).
-/

namespace BlockNotation

/-- How reading by bytes goes wrong. -/
inductive ByteFault where
  /-- A text was cut behind its end. -/
  | beyondEnd
  /-- A text was cut inside of a character. -/
  | insideCharacter
  /-- A round of a loop got no further. -/
  | standstill
deriving DecidableEq

/-! ## Cuts -/

/-- The parts of a text before and behind a byte offset. -/
def splitAtByte : List Char → Nat → Except ByteFault (List Char × List Char)
  | cs, 0 => .ok ([], cs)
  | [], _ + 1 => .error .beyondEnd
  | c :: cs, n + 1 =>
    if c.utf8Size ≤ n + 1 then
      (splitAtByte cs (n + 1 - c.utf8Size)).map fun (before, behind) => (c :: before, behind)
    else .error .insideCharacter

/-- The part of a text behind a byte offset. -/
def fromByte (n : Nat) (cs : List Char) : Except ByteFault (List Char) :=
  (splitAtByte cs n).map Prod.snd

/-- The part of a text between two byte offsets. -/
def sliceBytes (start stop : Nat) (cs : List Char) : Except ByteFault (List Char) := do
  let (before, _) ← splitAtByte cs stop
  fromByte start before

variable {cs x y : List Char} {n : Nat}

theorem splitAtByte_byteSize : ∀ x y : List Char,
    splitAtByte (x ++ y) (byteSize x) = .ok (x, y)
  | [], y => by cases y <;> rfl
  | c :: x, y => by
    obtain ⟨m, hm⟩ := Nat.exists_eq_add_of_lt (Nat.add_pos_left c.utf8Size_pos (byteSize x))
    have hsize : byteSize (c :: x) = m + 1 := by
      rw [byteSize_cons, hm]
      omega
    have hrest : m + 1 - c.utf8Size = byteSize x := by
      rw [← hsize, byteSize_cons, Nat.add_sub_cancel_left]
    have hle : c.utf8Size ≤ m + 1 := by
      rw [← hsize, byteSize_cons]
      exact Nat.le_add_right _ _
    rw [hsize, List.cons_append, splitAtByte, if_pos hle, hrest, splitAtByte_byteSize x y]
    rfl

theorem splitAtByte_eq_ok : ∀ {cs x y : List Char} {n : Nat}, splitAtByte cs n = .ok (x, y) →
    cs = x ++ y ∧ n = byteSize x
  | cs, _, _, 0, h => by
    rw [splitAtByte] at h
    cases h
    exact ⟨rfl, rfl⟩
  | [], _, _, n + 1, h => by cases h
  | c :: cs, _, _, n + 1, h => by
    rw [splitAtByte] at h
    split at h
    · next hle =>
      cases hcut : splitAtByte cs (n + 1 - c.utf8Size) with
      | error e =>
        rw [hcut] at h
        cases h
      | ok parts =>
        rw [hcut] at h
        cases h
        obtain ⟨hcs, hn⟩ := splitAtByte_eq_ok hcut
        refine ⟨congrArg (c :: ·) hcs, ?_⟩
        rw [byteSize_cons, ← hn]
        omega
    · cases h

/-- A text is cut at an offset where a beginning of it ends. -/
theorem splitAtByte_eq_ok_iff : splitAtByte cs n = .ok (x, y) ↔ cs = x ++ y ∧ n = byteSize x := by
  constructor
  · exact splitAtByte_eq_ok
  · rintro ⟨rfl, rfl⟩
    exact splitAtByte_byteSize x y

/-- A text is cut where its string has a valid position. -/
theorem exists_splitAtByte_iff :
    (∃ parts, splitAtByte cs n = .ok parts) ↔
      (⟨n⟩ : String.Pos.Raw).IsValid (String.ofList cs) := by
  constructor
  · rintro ⟨⟨x, y⟩, h⟩
    obtain ⟨rfl, rfl⟩ := splitAtByte_eq_ok_iff.1 h
    exact Span.isValid_byteSize String.toList_ofList
  · intro h
    obtain ⟨l, r, hcs, hn⟩ := String.Pos.Raw.isValid_iff_exists_append.1 h
    refine ⟨(l.toList, r.toList), splitAtByte_eq_ok_iff.2 ⟨?_, ?_⟩⟩
    · rw [← String.toList_append, ← hcs, String.toList_ofList]
    · rw [byteSize_toList]
      exact congrArg String.Pos.Raw.byteIdx hn

theorem fromByte_byteSize (x y : List Char) : fromByte (byteSize x) (x ++ y) = .ok y := by
  rw [fromByte, splitAtByte_byteSize]
  rfl

theorem sliceBytes_byteSize (x y z : List Char) :
    sliceBytes (byteSize x) (byteSize x + byteSize y) (x ++ (y ++ z)) = .ok y := by
  rw [sliceBytes, ← byteSize_append, ← List.append_assoc, splitAtByte_byteSize]
  exact fromByte_byteSize x y

/-! ## ASCII -/

/-- The bytes of a text. -/
def bytesOf (cs : List Char) : List UInt8 := cs.flatMap String.utf8EncodeChar

/-- Is a byte an ASCII character with a property? -/
def isAsciiByte (p : Char → Bool) (b : UInt8) : Bool := b < 128 && p (Char.ofNat b.toNat)

/-- How many bytes at the front of a text are ASCII characters with a property. -/
def countWhile (p : Char → Bool) (cs : List Char) : Nat :=
  ((bytesOf cs).takeWhile (isAsciiByte p)).length

/-- All characters with a property are ASCII. -/
def AsciiOnly (p : Char → Bool) : Prop := ∀ c, p c = true → c.toNat < 128

theorem utf8Size_of_ascii {c : Char} (h : c.toNat < 128) : c.utf8Size = 1 := by
  rw [Char.utf8Size_eq_one_iff, UInt32.le_iff_toNat_le]
  exact Nat.le_of_lt_succ h

theorem byteSize_of_ascii (h : ∀ c ∈ cs, c.toNat < 128) : byteSize cs = cs.length := by
  induction cs with
  | nil => rfl
  | cons c cs ih =>
    obtain ⟨hc, hcs⟩ := List.forall_mem_cons.1 h
    rw [byteSize_cons, ih hcs, utf8Size_of_ascii hc, List.length_cons, Nat.add_comm]

/-- The first byte of a character is ASCII if the character is, and then it is the only one. -/
theorem utf8EncodeChar_ascii (p : Char → Bool) (c : Char) :
    c.toNat < 128 ∧ String.utf8EncodeChar c = [UInt8.ofNat c.toNat] ∧
        isAsciiByte p (UInt8.ofNat c.toNat) = p c ∨
      128 ≤ c.toNat ∧ ∃ b bs, String.utf8EncodeChar c = b :: bs ∧ 128 ≤ b := by
  have hnat : c.val.toNat = c.toNat := rfl
  rw [String.utf8EncodeChar, hnat]
  by_cases h : c.toNat ≤ 127
  · refine .inl ⟨by omega, by simp [h], ?_⟩
    have hbyte : (UInt8.ofNat c.toNat).toNat = c.toNat := by
      rw [UInt8.toNat_ofNat']
      omega
    have hlt : UInt8.ofNat c.toNat < 128 := by
      rw [UInt8.lt_iff_toNat_lt, hbyte]
      exact Nat.lt_succ_of_le h
    rw [isAsciiByte, hbyte, Char.ofNat_toNat, decide_eq_true hlt, Bool.true_and]
  · refine .inr ⟨by omega, ?_⟩
    simp only [if_neg h]
    repeat' split
    all_goals
      refine ⟨_, _, rfl, ?_⟩
      rw [UInt8.le_iff_toNat_le]
      simp
      omega

theorem bytesOf_cons (c : Char) (cs : List Char) :
    bytesOf (c :: cs) = String.utf8EncodeChar c ++ bytesOf cs := List.flatMap_cons

theorem bytesOf_append (x y : List Char) : bytesOf (x ++ y) = bytesOf x ++ bytesOf y :=
  List.flatMap_append

theorem length_bytesOf (cs : List Char) : (bytesOf cs).length = byteSize cs := by
  induction cs with
  | nil => rfl
  | cons c cs ih =>
    rw [bytesOf_cons, List.length_append, ih, String.length_utf8EncodeChar, byteSize_cons]

/-- Bytes may be counted in place of ASCII characters. -/
theorem countWhile_eq {p : Char → Bool} (hp : AsciiOnly p) (cs : List Char) :
    countWhile p cs = (cs.takeWhile p).length := by
  induction cs with
  | nil => rfl
  | cons c cs ih =>
    rw [countWhile, bytesOf_cons]
    rcases utf8EncodeChar_ascii p c with ⟨-, hc, hbyte⟩ | ⟨hc, b, bs, henc, hb⟩
    · rw [hc, List.singleton_append, List.takeWhile_cons, List.takeWhile_cons, hbyte]
      by_cases h : p c = true
      · rw [if_pos h, if_pos h, List.length_cons, List.length_cons, ← ih, countWhile]
      · rw [if_neg h, if_neg h, List.length_nil, List.length_nil]
    · have hbyte : isAsciiByte p b = false := by
        rw [isAsciiByte, decide_eq_false (UInt8.not_lt.2 hb), Bool.false_and]
      have hnot : ¬p c = true := fun h => absurd (hp c h) (Nat.not_lt.2 hc)
      rw [henc, List.cons_append, List.takeWhile_cons_of_neg (by simp [hbyte]),
        List.takeWhile_cons_of_neg hnot, List.length_nil, List.length_nil]

/-- The offset behind the ASCII characters counted is that of the text behind them. -/
theorem byteSize_takeWhile {p : Char → Bool} (hp : AsciiOnly p) (cs : List Char) :
    byteSize (cs.takeWhile p) = countWhile p cs := by
  rw [countWhile_eq hp]
  exact byteSize_of_ascii fun c hc => hp c (List.all_eq_true.1 List.all_takeWhile c hc)

theorem fromByte_countWhile {p : Char → Bool} (hp : AsciiOnly p) (cs : List Char) :
    fromByte (countWhile p cs) cs = .ok (cs.dropWhile p) := by
  have h := fromByte_byteSize (cs.takeWhile p) (cs.dropWhile p)
  rwa [List.takeWhile_append_dropWhile, byteSize_takeWhile hp] at h

/-- A text begins with an ASCII character where its first byte is that of the character. -/
theorem head?_bytesOf {c : Char} (hc : c.toNat < 128) (cs : List Char) :
    (bytesOf cs).head? = some (UInt8.ofNat c.toNat) ↔ cs.head? = some c := by
  rcases cs with _ | ⟨d, cs⟩
  · simp [bytesOf]
  · rw [bytesOf_cons, List.head?_cons, Option.some.injEq]
    rcases utf8EncodeChar_ascii (fun _ => true) d with ⟨hd, henc, -⟩ | ⟨hd, b, bs, henc, hb⟩
    · rw [henc, List.singleton_append, List.head?_cons, Option.some.injEq, ← UInt8.toNat_inj,
        UInt8.toNat_ofNat', UInt8.toNat_ofNat', Nat.mod_eq_of_lt (by omega),
        Nat.mod_eq_of_lt (by omega), Char.toNat_inj]
    · rw [henc, List.cons_append, List.head?_cons, Option.some.injEq]
      constructor
      · rintro rfl
        rw [UInt8.le_iff_toNat_le, UInt8.toNat_ofNat', Nat.mod_eq_of_lt (by omega)] at hb
        exact absurd hc (Nat.not_lt.2 hb)
      · rintro rfl
        omega

/-! ## Loops over byte offsets -/

variable {σ ρ : Type}

/-- The result of a loop that goes on from a state. Every round has to get further, and not beyond
`limit`. -/
def rounds (offset : σ → Nat) (limit : Nat) (round : σ → Except ByteFault (σ ⊕ ρ)) (s : σ) :
    Except ByteFault ρ :=
  match round s with
  | .error e => .error e
  | .ok (.inr result) => .ok result
  | .ok (.inl s') =>
    if offset s < offset s' ∧ offset s' ≤ limit then rounds offset limit round s'
    else .error .standstill
termination_by limit - offset s

/-- A loop ends with `r` if every round from a state that should end with `r` either does, or gets
further to another such state. -/
theorem rounds_eq_ok {offset : σ → Nat} {limit : Nat} {round : σ → Except ByteFault (σ ⊕ ρ)}
    (EndsWith : σ → ρ → Prop)
    (hround : ∀ s r, EndsWith s r → round s = .ok (.inr r) ∨ ∃ s', round s = .ok (.inl s') ∧
      offset s < offset s' ∧ offset s' ≤ limit ∧ EndsWith s' r) {s : σ} {r : ρ}
    (hs : EndsWith s r) : rounds offset limit round s = .ok r := by
  rw [rounds]
  rcases hround s r hs with hlast | ⟨s', hnext, hlt, hle, hs'⟩
  · rw [hlast]
  · rw [hnext]
    exact (if_pos ⟨hlt, hle⟩).trans (rounds_eq_ok EndsWith hround hs')
termination_by limit - offset s

end BlockNotation
