import BlockNotation.Fixture.Basic
import BlockNotation.Proofs.Modifier.Log

/-!
# Names of categories in declarations and in fixtures

A declaration names a category, and the case of the ASCII letters in the name makes no difference
(`Category.ofName_eq_iff`). A fixture puts the names that it expects in upper case, letters outside
ASCII too, and compares them with the names of the categories found. The two ways of putting a name
in upper case differ exactly if it holds a character outside ASCII with another upper case
(`uppercase_eq_asciiUppercase_iff`).

So a fixture accepts the categories that its names stand for, and no others, exactly if no name
holds such a character (`checkCategories_agrees_iff`).
-/

namespace BlockNotation

/-! ## Upper case inside ASCII and outside -/

theorem toUpper_of_not_lower {c : Char} (h : c.toNat < 0x61 ∨ 0x7A < c.toNat) : c.toUpper = c := by
  have hlower : ¬('a'.val ≤ c.val ∧ c.val ≤ 'z'.val) := by
    rintro ⟨hlow, hhigh⟩
    have hlow : 0x61 ≤ c.toNat := hlow
    have hhigh : c.toNat ≤ 0x7A := hhigh
    omega
  exact dif_neg hlower

theorem toUpper_ofNat {n : Nat} (h : n < 0x61 ∨ 0x7A < n) :
    (Char.ofNat n).toUpper = Char.ofNat n := by
  by_cases hn : n.isValidChar
  · refine toUpper_of_not_lower ?_
    rw [Char.ofNat, dif_pos hn]
    exact h
  · rw [Char.ofNat, dif_neg hn]
    rfl

/-- Characters of ASCII have the same upper case either way. -/
theorem upperChar_of_ascii {c : Char} (h : c.toNat < 128) : upperChar c = [c.toUpper] := by
  have hkeys : ∀ e ∈ upperExpansions, 128 ≤ e.1 := by decide +kernel
  have hlater : ∀ r ∈ upperRanges.tail, 128 ≤ r.1 := by decide +kernel
  have hletters : ∀ n < 128, (CaseRanges.image? [(0x61, 0x7A, 1, 0x41)] n).getD n =
      (Char.ofNat n).toUpper.toNat := by decide +kernel
  have hexpansion : upperExpansions.lookup c.toNat = none := by
    refine List.lookup_eq_none_iff.2 fun e he => ?_
    have hkey := hkeys e he
    simpa using show c.toNat ≠ e.1 by omega
  have himage : upperRanges.image? c.toNat =
      CaseRanges.image? [(0x61, 0x7A, 1, 0x41)] c.toNat := by
    have hnone : CaseRanges.image? upperRanges.tail c.toNat = none := by
      refine List.findSome?_eq_none_iff.2 fun r hr => if_neg ?_
      have hfirst := hlater r hr
      simp only [Bool.and_eq_true, decide_eq_true_eq]
      omega
    change CaseRanges.image? ([(0x61, 0x7A, 1, 0x41)] ++ upperRanges.tail) c.toNat = _
    rw [CaseRanges.image?, List.findSome?_append, ← CaseRanges.image?, ← CaseRanges.image?, hnone,
      Option.or_none]
  have hc := hletters c.toNat h
  rw [Char.ofNat_toNat] at hc
  rw [upperChar, hexpansion, himage]
  cases hm : CaseRanges.image? [(0x61, 0x7A, 1, 0x41)] c.toNat with
  | none =>
    rw [hm, Option.getD_none, Char.toNat_inj] at hc
    exact congrArg (fun d => [d]) hc
  | some m =>
    rw [hm, Option.getD_some] at hc
    exact congrArg (fun d => [d]) (hc ▸ Char.ofNat_toNat c.toUpper)

/-- The image of a code point lies in the image of a range that covers it. -/
theorem CaseRanges.exists_of_image? {ranges : CaseRanges} {n m : Nat}
    (h : ranges.image? n = some m) : ∃ first last step image,
      (first, last, step, image) ∈ ranges ∧ image ≤ m ∧ m ≤ image + (last - first) := by
  obtain ⟨⟨first, last, step, image⟩, hmem, hrange⟩ := List.exists_of_findSome?_eq_some h
  simp only [Bool.and_eq_true, decide_eq_true_eq] at hrange
  split at hrange
  · obtain rfl := Option.some.inj hrange
    exact ⟨first, last, step, image, hmem, by omega, by omega⟩
  · cases hrange

theorem mem_upperExpansions {n : Nat} {ns : List Nat} (h : upperExpansions.lookup n = some ns) :
    (n, ns) ∈ upperExpansions := by
  obtain ⟨l, r, hl, -⟩ := List.lookup_eq_some_iff.1 h
  simp [hl]

theorem upperChar_ne_nil (c : Char) : upperChar c ≠ [] := by
  have hexpansions : ∀ e ∈ upperExpansions, e.2 ≠ [] := by decide +kernel
  unfold upperChar
  split
  · next ns hns => exact mt List.map_eq_nil_iff.1 (hexpansions _ (mem_upperExpansions hns))
  · split <;> exact List.cons_ne_nil _ _

/-- What is in upper case holds no lower case letter of ASCII. -/
theorem toUpper_of_mem_upperChar {c d : Char} (h : d ∈ upperChar c) : d.toUpper = d := by
  have hexpansions : ∀ e ∈ upperExpansions, ∀ n ∈ e.2, n < 0x61 ∨ 0x7A < n := by decide +kernel
  have hranges : ∀ r ∈ upperRanges, r.2.2.2 + (r.2.1 - r.1) < 0x61 ∨ 0x7A < r.2.2.2 := by
    decide +kernel
  rcases Nat.lt_or_ge c.toNat 128 with hc | hc
  · have htwice : ∀ n < 128, (Char.ofNat n).toUpper.toUpper = (Char.ofNat n).toUpper := by
      decide +kernel
    have hfixed := htwice c.toNat hc
    rw [Char.ofNat_toNat] at hfixed
    rw [upperChar_of_ascii hc, List.mem_singleton] at h
    exact h ▸ hfixed
  · unfold upperChar at h
    split at h
    · next ns hns =>
      obtain ⟨n, hn, rfl⟩ := List.mem_map.1 h
      exact toUpper_ofNat (hexpansions _ (mem_upperExpansions hns) n hn)
    · split at h <;> obtain rfl := List.mem_singleton.1 h
      · next n hn =>
        obtain ⟨first, last, step, image, hmem, hlow, hhigh⟩ := CaseRanges.exists_of_image? hn
        have hrange : image + (last - first) < 0x61 ∨ 0x7A < image := hranges _ hmem
        exact toUpper_ofNat (by omega)
      · exact toUpper_of_not_lower (by omega)

theorem asciiUppercase_uppercase (s : String) : asciiUppercase (uppercase s) = uppercase s := by
  rw [asciiUppercase, uppercase, String.toList_ofList]
  congr 1
  refine (List.map_congr_left fun d hd => ?_).trans (List.map_id _)
  obtain ⟨c, -, hd⟩ := List.mem_flatMap.1 hd
  exact toUpper_of_mem_upperChar hd

theorem length_le_flatMap_upperChar (cs : List Char) :
    cs.length ≤ (cs.flatMap upperChar).length := by
  induction cs with
  | nil => exact Nat.le_refl 0
  | cons c cs ih =>
    have hpos := List.length_pos_iff.2 (upperChar_ne_nil c)
    rw [List.flatMap_cons, List.length_append, List.length_cons]
    omega

/-- A text of which no character becomes two in upper case is put in upper case character by
character. -/
theorem flatMap_upperChar_eq_iff {cs : List Char} :
    cs.flatMap upperChar = cs.map Char.toUpper ↔ ∀ c ∈ cs, upperChar c = [c.toUpper] := by
  induction cs with
  | nil => simp
  | cons c cs ih =>
    rw [List.flatMap_cons, List.map_cons, List.forall_mem_cons, ← ih]
    constructor
    · intro h
      obtain ⟨d, ds, hd⟩ := List.exists_cons_of_ne_nil (upperChar_ne_nil c)
      rw [hd, List.cons_append, List.cons.injEq] at h
      obtain ⟨rfl, htail⟩ := h
      -- The rest is as long as it was at least, so nothing is left over from the first character.
      have hds : ds = [] := by
        have hlength := congrArg List.length htail
        rw [List.length_append, List.length_map] at hlength
        have hle := length_le_flatMap_upperChar cs
        exact List.length_eq_zero_iff.1 (by omega)
      rw [hds, List.nil_append] at htail
      exact ⟨by rw [hd, hds], htail⟩
    · rintro ⟨hc, hcs⟩
      rw [hc, hcs, List.singleton_append]

/-- No character outside ASCII has another upper case. -/
def CasedInAscii (text : String) : Prop := ∀ c ∈ text.toList, 128 ≤ c.toNat → upperChar c = [c]

theorem uppercase_eq_asciiUppercase_iff {text : String} :
    uppercase text = asciiUppercase text ↔ CasedInAscii text := by
  rw [uppercase, asciiUppercase, String.ofList_inj, flatMap_upperChar_eq_iff]
  refine forall₂_congr fun c _ => ⟨fun h hc => ?_, fun h => ?_⟩
  · rw [h, toUpper_of_not_lower (by omega)]
  · rcases Nat.lt_or_ge c.toNat 128 with hc | hc
    · exact upperChar_of_ascii hc
    · rw [h hc, toUpper_of_not_lower (by omega)]

/-! ## Categories that have names -/

namespace Category

@[simp] theorem name_ofName (text : String) : (ofName text).name = asciiUppercase text := by
  unfold ofName
  dsimp only
  cases h : builtin.find? (·.name = asciiUppercase text) with
  | none => rfl
  | some c => simpa using List.find?_some h

/-- Names stand for one category if they differ at most in the case of ASCII letters. -/
theorem ofName_eq_iff {text text' : String} :
    ofName text = ofName text' ↔ asciiUppercase text = asciiUppercase text' := by
  refine ⟨fun h => ?_, fun h => by simp only [ofName, h]⟩
  rw [← name_ofName, h, name_ofName]

/-- Some name stands for the category. -/
def Named (c : Category) : Prop := ∃ text, c = ofName text

end Category

/-- The categories of classified blocks, in walk order. -/
def placedCategories (results : List (Atomic × Classification)) : List Category :=
  results.filterMap fun (_, c) => c.category?

/-- Adding patterns to a classifier leaves its category as it is. -/
theorem Classifier.category_foldl {f : Classifier → String → Classifier}
    (hf : ∀ c word, (f c word).category = c.category) (words : List String) (c : Classifier) :
    (words.foldl f c).category = c.category := by
  induction words generalizing c with
  | nil => rfl
  | cons word words ih => rw [List.foldl_cons, ih, hf]

theorem Declaration.category_toClassifier {d : Declaration} {c : Classifier}
    (h : d.toClassifier = .ok c) : c.category = .ofName d.category := by
  have hexact := Classifier.category_foldl (f := Classifier.matchingExactly) fun _ _ => rfl
  have hbeginnings := Classifier.category_foldl (f := Classifier.matchingBeginning) fun _ _ => rfl
  have hendings := Classifier.category_foldl (f := Classifier.matchingEnding) fun _ _ => rfl
  unfold toClassifier at h
  split at h
  · cases h
  · obtain rfl := Except.ok.inj h
    rw [hendings, hbeginnings, hexact]
    split <;> rfl

namespace Registry

/-- All categories of a registry have names. -/
def OfNames (r : Registry) : Prop := ∀ c ∈ r.classifiers, c.category.Named

theorem ofNames_builtin : builtin.OfNames := by
  have hcategories : ∀ c ∈ Classifier.builtin,
      c.category = .ofName "VARIABLES" ∨ c.category = .ofName "MYBLOCK" := by decide +kernel
  exact fun c hc => (hcategories c hc).elim (⟨_, ·⟩) (⟨_, ·⟩)

theorem ofNames_foldlM : ∀ {declarations : List Declaration} {r r' : Registry}, r.OfNames →
    declarations.foldlM (fun r d => r.add <$> d.toClassifier) r = .ok r' → r'.OfNames
  | [], r, r', hr, h => by
    cases h
    exact hr
  | d :: declarations, r, r', hr, h => by
    rw [List.foldlM_cons] at h
    cases hc : d.toClassifier with
    | error e =>
      rw [hc] at h
      cases h
    | ok c =>
      rw [hc] at h
      refine ofNames_foldlM (r := r.add c) ?_ h
      intro c' hc'
      rcases List.mem_append.1 hc' with hold | hnew
      · exact hr c' hold
      · rw [List.mem_singleton.1 hnew]
        exact ⟨d.category, Declaration.category_toClassifier hc⟩

/-- Every category that a registry places a block in is that of one of its classifiers. -/
theorem named_of_classify {r : Registry} (hr : r.OfNames) {a : Atomic} {log : WarningLog}
    {c : Category} (h : (r.classify a log).1.category? = some c) : c.Named := by
  unfold classify at h
  cases hm : a.modifier with
  | none =>
    rw [hm] at h
    cases h
  | some m =>
    rw [hm] at h
    have hdecided := (r.decided_classifyLabel m.name a.span log).category categoryKey
    obtain ⟨d, hd, rfl⟩ := Option.map_eq_some_iff.1 (hdecided.symm.trans h)
    exact hr d (List.mem_filter.1 (List.mem_of_find?_eq_some hd)).1

/-- The categories that a fixture finds all have names. -/
theorem named_placedCategories {declarations : List Declaration} {r : Registry}
    (h : Declaration.registry declarations = .ok r) (code : Code) (log : WarningLog) :
    ∀ c ∈ placedCategories (r.analyse code log).1, c.Named := by
  intro c hc
  rw [placedCategories, analyse_fst, List.filterMap_map] at hc
  obtain ⟨a, -, ha⟩ := List.mem_filterMap.1 hc
  exact named_of_classify (ofNames_foldlM ofNames_builtin h) ha

end Registry

/-! ## What fixtures accept -/

namespace Fixture

variable {results : List (Atomic × Classification)} {names : List String}

theorem checkCategories_eq_ok_iff : checkCategories results names = .ok () ↔
    (placedCategories results).map Category.name = names.map uppercase := by
  have hactual : (results.filterMap fun (_, c) => c.category?.map Category.name) =
      (placedCategories results).map Category.name := by
    rw [placedCategories, List.map_filterMap]
  unfold checkCategories
  rw [hactual]
  dsimp only
  split <;> simp_all

theorem checkCategories_eq_error_iff : (∃ fault, checkCategories results names = .error fault) ↔
    checkCategories results names ≠ .ok () := by
  cases checkCategories results names <;> simp

/-- Any categories may be those of some results. -/
theorem exists_placedCategories (cs : List Category) :
    ∃ results, placedCategories results = cs := by
  refine ⟨cs.map fun c => (⟨[], none, none, ⟨0, 0⟩⟩, ⟨[(categoryKey, c)], false⟩), ?_⟩
  rw [placedCategories, List.filterMap_map]
  exact List.filterMap_some

/-- Categories that have names are the same if their names are. -/
theorem eq_of_map_name : ∀ {cs : List Category} {names : List String}, (∀ c ∈ cs, c.Named) →
    cs.map Category.name = names.map asciiUppercase → cs = names.map Category.ofName
  | [], [], _, _ => rfl
  | c :: cs, text :: names, hcs, h => by
    obtain ⟨⟨spelling, rfl⟩, hlater⟩ := List.forall_mem_cons.1 hcs
    rw [List.map_cons, List.map_cons, List.cons.injEq, Category.name_ofName] at h
    rw [List.map_cons, eq_of_map_name hlater h.2, Category.ofName_eq_iff.2 h.1]

theorem map_name_map_ofName (names : List String) :
    (names.map Category.ofName).map Category.name = names.map asciiUppercase := by
  rw [List.map_map]
  exact List.map_congr_left fun _ _ => Category.name_ofName _

theorem map_asciiUppercase_map_uppercase (names : List String) :
    (names.map uppercase).map asciiUppercase = names.map uppercase := by
  rw [List.map_map]
  exact List.map_congr_left fun _ _ => asciiUppercase_uppercase _

theorem map_uppercase_eq_iff : names.map uppercase = names.map asciiUppercase ↔
    ∀ text ∈ names, CasedInAscii text := by
  rw [List.map_inj_left]
  exact forall₂_congr fun _ _ => uppercase_eq_asciiUppercase_iff

/-- A fixture accepts the categories that its names stand for. -/
theorem accepts_iff (names : List String) :
    (∀ results, placedCategories results = names.map Category.ofName →
        checkCategories results names = .ok ()) ↔ ∀ text ∈ names, CasedInAscii text := by
  rw [← map_uppercase_eq_iff]
  constructor
  · intro h
    obtain ⟨results, hresults⟩ := exists_placedCategories (names.map Category.ofName)
    have hok := checkCategories_eq_ok_iff.1 (h results hresults)
    rw [hresults, map_name_map_ofName] at hok
    exact hok.symm
  · intro h results hresults
    rw [checkCategories_eq_ok_iff, hresults, map_name_map_ofName, h]

/-- A fixture accepts no other categories. -/
theorem refuses_iff (names : List String) :
    (∀ results, (∀ c ∈ placedCategories results, c.Named) →
        placedCategories results ≠ names.map Category.ofName →
          ∃ fault, checkCategories results names = .error fault) ↔
      ∀ text ∈ names, CasedInAscii text := by
  rw [← map_uppercase_eq_iff]
  constructor
  · intro h
    -- The categories that go by the names in upper case of every kind are accepted.
    obtain ⟨results, hresults⟩ :=
      exists_placedCategories ((names.map uppercase).map Category.ofName)
    have hplaced : (placedCategories results).map Category.name = names.map uppercase := by
      rw [hresults, map_name_map_ofName, map_asciiUppercase_map_uppercase]
    have hnamed : ∀ c ∈ placedCategories results, c.Named := by
      intro c hc
      rw [hresults] at hc
      obtain ⟨text, -, rfl⟩ := List.mem_map.1 hc
      exact ⟨text, rfl⟩
    by_contra hne
    refine checkCategories_eq_error_iff.1 (h results hnamed fun heq => hne ?_)
      (checkCategories_eq_ok_iff.2 hplaced)
    rw [← hplaced, heq, map_name_map_ofName]
  · intro h results hnamed hne
    rw [checkCategories_eq_error_iff, Ne, checkCategories_eq_ok_iff, h]
    exact fun heq => hne (eq_of_map_name hnamed heq)

/-- A fixture accepts the categories that the names it expects stand for exactly if no name holds a
character outside ASCII with another upper case, and exactly then it accepts no others. This is
about categories that have names, as all have that a fixture can find. -/
theorem checkCategories_agrees_iff (names : List String) :
    ((∀ results, placedCategories results = names.map Category.ofName →
        checkCategories results names = .ok ()) ↔ ∀ text ∈ names, CasedInAscii text) ∧
    ((∀ results, (∀ c ∈ placedCategories results, c.Named) →
        placedCategories results ≠ names.map Category.ofName →
          ∃ fault, checkCategories results names = .error fault) ↔
      ∀ text ∈ names, CasedInAscii text) ∧
    ∀ declarations r, Declaration.registry declarations = .ok r → ∀ code log,
      ∀ c ∈ placedCategories (r.analyse code log).1, c.Named :=
  ⟨accepts_iff names, refuses_iff names, fun _ _ hr => Registry.named_placedCategories hr⟩

/-- A block is placed in the category `é`, and a fixture that expects `é` refuses it. Another block
is placed in the category `É`, which `é` does not stand for, and the fixture accepts it. -/
theorem own_category_refused : ∃ r code other,
    Declaration.registry [⟨"small", categoryKey, "é", false, ["small"], [], []⟩,
      ⟨"great", categoryKey, "É", false, ["great"], [], []⟩] = .ok r ∧
    parse "go :: small" 0 = .ok code ∧ parse "go :: great" 0 = .ok other ∧
    (placedCategories (r.analyse code (.empty 0)).1 = ["é"].map Category.ofName ∧
      checkCategories (r.analyse code (.empty 0)).1 ["é"] = .error (.categories ["É"] ["é"])) ∧
    placedCategories (r.analyse other (.empty 0)).1 ≠ ["é"].map Category.ofName ∧
      checkCategories (r.analyse other (.empty 0)).1 ["é"] = .ok () := by
  have h : ((Declaration.registry [⟨"small", categoryKey, "é", false, ["small"], [], []⟩,
      ⟨"great", categoryKey, "É", false, ["great"], [], []⟩]).toOption.any fun r =>
      (parse "go :: small" 0).toOption.any fun code =>
      (parse "go :: great" 0).toOption.any fun other =>
        (placedCategories (r.analyse code (.empty 0)).1 = ["é"].map Category.ofName ∧
          checkCategories (r.analyse code (.empty 0)).1 ["é"] =
            .error (.categories ["É"] ["é"])) ∧
        placedCategories (r.analyse other (.empty 0)).1 ≠ ["é"].map Category.ofName ∧
          checkCategories (r.analyse other (.empty 0)).1 ["é"] = .ok ()) = true := by
    decide +kernel
  cases hr : Declaration.registry [⟨"small", categoryKey, "é", false, ["small"], [], []⟩,
      ⟨"great", categoryKey, "É", false, ["great"], [], []⟩] with
  | error e => rw [hr] at h; cases h
  | ok r =>
    cases hcode : parse "go :: small" 0 with
    | error e => rw [hr, hcode] at h; cases h
    | ok code =>
      cases hother : parse "go :: great" 0 with
      | error e => rw [hr, hcode, hother] at h; cases h
      | ok other =>
        rw [hr, hcode, hother] at h
        exact ⟨r, code, other, rfl, rfl, rfl, of_decide_eq_true h⟩

end Fixture

end BlockNotation
