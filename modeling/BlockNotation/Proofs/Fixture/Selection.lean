import BlockNotation.Command.Run
import Mathlib.Data.List.DropRight
import Mathlib.Data.List.Sort
import Mathlib.Data.String.Basic

/-!
# Which fixtures are run, and what comes of it

Requests are gone through one after the other, and what each takes in is put among the categories
chosen before. These stay in the order of their names, each with a name of its own, so in the end
they are the categories asked for, as they stand in the suite (`selected_eq_askedFor`): it makes no
difference in which order the requests come, or whether several take in the same category.

A summary is carried through the run. It accounts for the fixtures run so far
(`Summary.Accounts`), and so for all of them in the end.
-/

namespace BlockNotation

/-! ## What is asked for -/

/-- A name without the slashes around it. -/
structure Trimmed (request name : String) : Prop where
  cut : ∃ m n, request.toList = List.replicate m '/' ++ name.toList ++ List.replicate n '/'
  head : name.toList.head? ≠ some '/'
  last : name.toList.getLast? ≠ some '/'

/-- Some request names a category or one above it. -/
def Requested (requests : List String) (category : String) : Prop :=
  ∃ request ∈ requests, ∃ name, Trimmed request name ∧
    (category = name ∨ ∃ below, category = name ++ "/" ++ below)

theorem requestedName_eq (request : String) : (requestedName request).toList =
    (request.toList.dropWhile (· = '/')).rdropWhile (· = '/') := String.toList_ofList

theorem exists_slashes_append (cs : List Char) :
    ∃ m, cs = List.replicate m '/' ++ cs.dropWhile (· = '/') := by
  refine ⟨(cs.takeWhile (· = '/')).length, ?_⟩
  rw [← List.eq_replicate_of_mem (a := '/') fun c hc => by simpa using List.mem_takeWhile_imp hc,
    List.takeWhile_append_dropWhile]

theorem exists_append_slashes (cs : List Char) :
    ∃ n, cs = cs.rdropWhile (· = '/') ++ List.replicate n '/' := by
  refine ⟨(cs.rtakeWhile (· = '/')).length, ?_⟩
  rw [← List.eq_replicate_of_mem (a := '/') fun c hc => by simpa using List.mem_rtakeWhile_imp hc,
    List.rdropWhile_append_rtakeWhile]

theorem head?_dropWhile_slash (cs : List Char) : (cs.dropWhile (· = '/')).head? ≠ some '/' := by
  intro h
  have hnot := List.head?_dropWhile_not (fun c : Char => decide (c = '/')) cs
  rw [h] at hnot
  simp at hnot

theorem getLast?_rdropWhile_slash (cs : List Char) :
    (cs.rdropWhile (· = '/')).getLast? ≠ some '/' := by
  rw [List.rdropWhile, List.getLast?_reverse]
  exact head?_dropWhile_slash cs.reverse

theorem trimmed_requestedName (request : String) : Trimmed request (requestedName request) := by
  obtain ⟨m, hm⟩ := exists_slashes_append request.toList
  obtain ⟨n, hn⟩ := exists_append_slashes (request.toList.dropWhile (· = '/'))
  have hhead := head?_dropWhile_slash request.toList
  rw [hn] at hm hhead
  rw [← requestedName_eq] at hm hhead
  refine ⟨⟨m, n, by rw [hm, List.append_assoc]⟩, fun h => hhead ?_, ?_⟩
  · rw [List.head?_append, h, Option.some_or]
  · rw [requestedName_eq]
    exact getLast?_rdropWhile_slash _

/-- Slashes are taken away from both sides of a text that neither begins nor ends with one. -/
theorem trim_slashes {cs : List Char} (hhead : cs.head? ≠ some '/') (hlast : cs.getLast? ≠ some '/')
    (m n : Nat) : ((List.replicate m '/' ++ (cs ++ List.replicate n '/')).dropWhile
      (· = '/')).rdropWhile (· = '/') = cs := by
  rw [List.dropWhile_append_of_pos (by simp)]
  cases cs with
  | nil => simp
  | cons c cs =>
    have hc : c ≠ '/' := by simpa using hhead
    have hkept : (c :: cs).rdropWhile (· = '/') = c :: cs := by
      rw [List.rdropWhile_eq_self_iff]
      intro hne hslash
      rw [List.getLast?_eq_some_getLast hne] at hlast
      exact hlast (congrArg some (of_decide_eq_true hslash))
    rw [List.cons_append, List.dropWhile_cons_of_neg (by simpa using hc), ← List.cons_append,
      List.rdropWhile, List.reverse_append, List.dropWhile_append_of_pos (by simp)]
    exact hkept

theorem Trimmed.eq {request name : String} (h : Trimmed request name) :
    requestedName request = name := by
  obtain ⟨⟨m, n, hcut⟩, hhead, hlast⟩ := h
  rw [← String.toList_inj, requestedName_eq, hcut, List.append_assoc, trim_slashes hhead hlast]

theorem takesIn_iff {request category : String} : takesIn request category = true ↔
    ∃ name, Trimmed request name ∧
      (category = name ∨ ∃ below, category = name ++ "/" ++ below) := by
  have hprefix : ((requestedName request).toList ++ ['/']).isPrefixOf category.toList = true ↔
      ∃ below, category = requestedName request ++ "/" ++ below := by
    rw [List.isPrefixOf_iff_prefix]
    constructor
    · rintro ⟨below, hbelow⟩
      exact ⟨.ofList below, by rw [← String.toList_inj, ← hbelow]; simp⟩
    · rintro ⟨below, rfl⟩
      exact ⟨below.toList, by simp⟩
  rw [takesIn, Bool.or_eq_true, decide_eq_true_iff, hprefix]
  constructor
  · exact fun h => ⟨_, trimmed_requestedName request, h⟩
  · rintro ⟨name, hname, h⟩
    rwa [hname.eq]

theorem requested_iff {requests : List String} {category : String} :
    Requested requests category ↔ requests.any (takesIn · category) = true := by
  simp only [Requested, List.any_eq_true, takesIn_iff]

instance (requests : List String) : DecidablePred (Requested requests) := fun _ =>
  decidable_of_iff _ requested_iff.symm

/-! ## Categories in order -/

/-- Categories stand in the order of their names, and none has the name of another. -/
def Ordered (cs : List SuiteCategory) : Prop := cs.Pairwise fun c d => c.name < d.name

theorem pairwise_eraseReps_loop {names : List String} : ∀ {name : String} {before : List String},
    (before.reverse ++ name :: names).Pairwise (· ≤ ·) →
    (before.reverse ++ [name]).Pairwise (· < ·) →
      (List.eraseRepsBy.loop (· == ·) name names before).Pairwise (· < ·) := by
  induction names with
  | nil =>
    intro name before _ hlt
    simpa [List.eraseRepsBy.loop] using hlt
  | cons next names ih =>
    intro name before hle hlt
    rw [List.eraseRepsBy.loop]
    split
    · exact ih (hle.sublist (by simp)) hlt
    · rename_i hne
      have hnext : name < next := by
        obtain ⟨-, hlater, -⟩ := List.pairwise_append.1 hle
        exact lt_of_le_of_ne ((List.pairwise_cons.1 hlater).1 next List.mem_cons_self)
          (by simpa using hne)
      refine ih (by simpa using hle) ?_
      rw [List.reverse_cons, List.pairwise_append]
      refine ⟨hlt, List.pairwise_singleton _ _, fun m hm y hy => ?_⟩
      obtain rfl := List.mem_singleton.1 hy
      rcases List.mem_append.1 hm with hm | hm
      · exact ((List.pairwise_append.1 hlt).2.2 m hm name List.mem_cons_self).trans hnext
      · exact List.mem_singleton.1 hm ▸ hnext

/-- Sorted names without repetitions in a row are without repetitions. -/
theorem pairwise_eraseReps {names : List String} (h : names.Pairwise (· ≤ ·)) :
    names.eraseReps.Pairwise (· < ·) := by
  cases names with
  | nil => exact .nil
  | cons name names => exact pairwise_eraseReps_loop h (List.pairwise_singleton _ _)

/-- The categories found in a directory are in order. -/
theorem ordered_suite (e : Entry) : Ordered e.suite := by
  have hsorted : (((e.fixtures []).map SuiteFile.category).mergeSort
      fun a b => a ≤ b).Pairwise fun a b => decide (a ≤ b) = true :=
    List.pairwise_mergeSort (by simpa using fun _ _ _ => le_trans) (by simpa using le_total) _
  refine List.pairwise_map.2 ?_
  exact pairwise_eraseReps (hsorted.imp of_decide_eq_true)

section Insertion

variable {all cs : List SuiteCategory} {c d : SuiteCategory}

theorem Ordered.eq_of_name (h : Ordered all) (hc : c ∈ all) (hd : d ∈ all)
    (hname : c.name = d.name) : c = d := by
  induction all with
  | nil => cases hc
  | cons e all ih =>
    obtain ⟨hhead, htail⟩ := List.pairwise_cons.1 h
    rcases List.mem_cons.1 hc with rfl | hc' <;> rcases List.mem_cons.1 hd with rfl | hd'
    · rfl
    · exact absurd hname (hhead d hd').ne
    · exact absurd hname.symm (hhead c hc').ne
    · exact ih htail hc' hd'

theorem mem_insertCategory (h : Ordered cs) :
    d ∈ insertCategory c cs ↔ d = c ∨ d ∈ cs ∧ d.name ≠ c.name := by
  induction cs with
  | nil => simp [insertCategory]
  | cons e cs ih =>
    obtain ⟨hhead, htail⟩ := List.pairwise_cons.1 h
    rw [insertCategory]
    split
    · rename_i hlt
      have hne : ∀ d ∈ e :: cs, d.name ≠ c.name :=
        List.forall_mem_cons.2 ⟨hlt.ne', fun d hd => (hlt.trans (hhead d hd)).ne'⟩
      rw [List.mem_cons]
      exact or_congr_right (iff_self_and.2 (hne d))
    · split
      · rename_i heq
        have hne : ∀ d ∈ cs, d.name ≠ c.name := fun d hd => heq ▸ (hhead d hd).ne'
        rw [List.mem_cons, List.mem_cons]
        constructor
        · rintro (rfl | hd)
          · exact .inl rfl
          · exact .inr ⟨.inr hd, hne d hd⟩
        · rintro (rfl | ⟨rfl | hd, hname⟩)
          · exact .inl rfl
          · exact absurd heq.symm hname
          · exact .inr hd
      · rename_i hne
        rw [List.mem_cons, ih htail, List.mem_cons]
        constructor
        · rintro (rfl | rfl | ⟨hd, hname⟩)
          · exact .inr ⟨.inl rfl, Ne.symm hne⟩
          · exact .inl rfl
          · exact .inr ⟨.inr hd, hname⟩
        · rintro (rfl | ⟨rfl | hd, hname⟩)
          · exact .inr (.inl rfl)
          · exact .inl rfl
          · exact .inr (.inr ⟨hd, hname⟩)

theorem Ordered.inserted (h : Ordered cs) : Ordered (insertCategory c cs) := by
  induction cs with
  | nil => exact List.pairwise_singleton _ _
  | cons e cs ih =>
    obtain ⟨hhead, htail⟩ := List.pairwise_cons.1 h
    rw [insertCategory]
    split
    · rename_i hlt
      exact List.pairwise_cons.2
        ⟨List.forall_mem_cons.2 ⟨hlt, fun d hd => hlt.trans (hhead d hd)⟩, h⟩
    · split
      · rename_i heq
        exact List.pairwise_cons.2 ⟨heq ▸ hhead, htail⟩
      · rename_i hge hne
        refine List.pairwise_cons.2 ⟨fun d hd => ?_, ih htail⟩
        rcases (mem_insertCategory htail).1 hd with rfl | ⟨hd, -⟩
        · exact lt_of_le_of_ne (not_lt.1 hge) (Ne.symm hne)
        · exact hhead d hd

/-- Those of some categories that have a property, in order. -/
structure Chosen (all : List SuiteCategory) (P : SuiteCategory → Prop)
    (cs : List SuiteCategory) : Prop where
  ordered : Ordered cs
  mem : ∀ c, c ∈ cs ↔ c ∈ all ∧ P c

variable {P : SuiteCategory → Prop}

theorem Chosen.inserted (hall : Ordered all) (h : Chosen all P cs) (hc : c ∈ all) :
    Chosen all (fun d => P d ∨ d = c) (insertCategory c cs) where
  ordered := h.ordered.inserted
  mem d := by
    rw [mem_insertCategory h.ordered, h.mem]
    constructor
    · rintro (rfl | ⟨⟨hd, hP⟩, -⟩)
      · exact ⟨hc, .inr rfl⟩
      · exact ⟨hd, .inl hP⟩
    · rintro ⟨hd, hP | rfl⟩
      · by_cases hname : d.name = c.name
        · exact .inl (hall.eq_of_name hd hc hname)
        · exact .inr ⟨⟨hd, hP⟩, hname⟩
      · exact .inl rfl

theorem Chosen.congr {Q : SuiteCategory → Prop} (h : Chosen all P cs)
    (hPQ : ∀ c ∈ all, P c ↔ Q c) : Chosen all Q cs where
  ordered := h.ordered
  mem c := (h.mem c).trans (and_congr_right (hPQ c))

theorem Chosen.insertedAll (hall : Ordered all) {new : List SuiteCategory}
    (hnew : ∀ c ∈ new, c ∈ all) (h : Chosen all P cs) : Chosen all (fun d => P d ∨ d ∈ new)
      (new.foldl (fun cs c => insertCategory c cs) cs) := by
  induction new generalizing cs P with
  | nil => exact h.congr (by simp)
  | cons c new ih =>
    obtain ⟨hc, hnew⟩ := List.forall_mem_cons.1 hnew
    refine (ih hnew (h.inserted hall hc)).congr fun d _ => ?_
    rw [List.mem_cons, or_assoc]

/-- Going through one more request. -/
theorem Chosen.requested (hall : Ordered all) (request : String) (h : Chosen all P cs) :
    Chosen all (fun c => P c ∨ takesIn request c.name = true) (choose all cs request) := by
  have htaken : ∀ c ∈ takenIn all request, c ∈ all := fun c hc => (List.mem_filter.1 hc).1
  refine (h.insertedAll hall htaken).congr fun c hc => or_congr_right ?_
  rw [takenIn, List.mem_filter, and_iff_right hc]

/-- Going through several. -/
theorem Chosen.requestedAll (hall : Ordered all) (requests : List String) (h : Chosen all P cs) :
    Chosen all (fun c => P c ∨ Requested requests c.name) (requests.foldl (choose all) cs) := by
  induction requests generalizing cs P with
  | nil => exact h.congr (by simp [requested_iff])
  | cons request requests ih =>
    refine (ih (h.requested hall request)).congr fun c _ => ?_
    rw [requested_iff, requested_iff, List.any_cons, Bool.or_eq_true, or_assoc]

end Insertion

/-- The categories of a suite that are asked for. -/
def askedFor (all : List SuiteCategory) (requests : List String) : List SuiteCategory :=
  all.filter (Requested requests ·.name)

/-- Requests choose the categories asked for, as they stand in the suite. -/
theorem selected_eq_askedFor {all : List SuiteCategory} (hall : Ordered all)
    (requests : List String) : selected all requests = askedFor all requests := by
  have hnone : Chosen all (fun _ => False) [] := ⟨.nil, by simp⟩
  have hchosen := hnone.requestedAll hall requests
  have : Std.Irrefl fun c d : SuiteCategory => c.name < d.name := ⟨fun c => lt_irrefl c.name⟩
  have : Std.Antisymm fun c d : SuiteCategory => c.name < d.name :=
    ⟨fun _ _ hlt hgt => absurd hgt hlt.not_gt⟩
  refine hchosen.ordered.eq_of_mem_iff (hall.filter _) fun c => ?_
  simp [hchosen.mem, askedFor]

/-! ## What a run comes to -/

namespace Summary

/-- A summary counts the fixtures that passed and lists the others with the reasons. -/
structure Accounts (s : Summary) (rs : List FixtureRun) : Prop where
  passed : s.passed = rs.countP (·.result.passed)
  failures : s.failures = rs.filterMap fun r => r.result.fault.map (r.path, ·)

namespace Accounts

variable {s : Summary} {rs : List FixtureRun}

theorem empty : Accounts .empty [] := ⟨rfl, rfl⟩

/-- Another fixture is accounted for. -/
theorem add (h : s.Accounts rs) (r : FixtureRun) : (s.add r).Accounts (rs ++ [r]) := by
  unfold Summary.add
  cases hfault : r.result.fault with
  | none =>
    have hpassed : r.result.passed = true := by rw [FixtureResult.passed, hfault]; rfl
    constructor
    · simp [h.passed, hpassed]
    · simp [h.failures, hfault]
  | some reason =>
    have hpassed : r.result.passed = false := by rw [FixtureResult.passed, hfault]; rfl
    constructor
    · simp [h.passed, hpassed]
    · simp [h.failures, hfault]

theorem addAll (h : s.Accounts rs) (new : List FixtureRun) :
    (new.foldl Summary.add s).Accounts (rs ++ new) := by
  induction new generalizing s rs with
  | nil => simpa using h
  | cons r new ih => simpa using ih (h.add r)

/-- Every fixture is counted once. -/
theorem total (h : s.Accounts rs) : s.passed + s.failed = rs.length := by
  have hfailed : s.failed = rs.countP fun r => !r.result.passed := by
    rw [failed, h.failures, List.length_filterMap_eq_countP]
    refine List.countP_congr fun r _ => ?_
    cases hfault : r.result.fault <;> simp [FixtureResult.passed, hfault]
  rw [h.passed, hfailed, List.length_eq_countP_add_countP fun r : FixtureRun => r.result.passed]
  simp

theorem failed_eq_zero_iff (h : s.Accounts rs) :
    s.failed = 0 ↔ ∀ r ∈ rs, r.result.passed = true := by
  rw [← List.countP_eq_length, ← h.passed, ← h.total]
  omega

end Accounts

end Summary

/-- The lines about a category while its fixtures are run: a heading and the status lines. -/
def SuiteCategory.report (toml : TomlReader) (noColor : Bool) (root : String) (c : SuiteCategory) :
    List String :=
  ["", styled noColor "1" c.label] ++ (c.runs toml root).map (FixtureRun.statusLine noColor)

namespace SuiteRun

variable (toml : TomlReader) (noColor : Bool) (root : String)

theorem foldl_add (rs : List FixtureRun) (s : SuiteRun) : rs.foldl (add noColor) s =
    ⟨s.written ++ rs.map (FixtureRun.statusLine noColor), rs.foldl Summary.add s.summary⟩ := by
  induction rs generalizing s with
  | nil => simp
  | cons r rs ih => simp [ih, add]

/-- A run goes through the fixtures of its categories once, in order. -/
theorem foldl_addCategory (cs : List SuiteCategory) (s : SuiteRun) :
    cs.foldl (addCategory toml noColor root) s =
      ⟨s.written ++ cs.flatMap (·.report toml noColor root),
        (cs.flatMap (·.runs toml root)).foldl Summary.add s.summary⟩ := by
  induction cs generalizing s with
  | nil => simp
  | cons c cs ih => simp [ih, addCategory, foldl_add, SuiteCategory.report]

end SuiteRun

section Suite

variable {toml : TomlReader} {path : String} {all : List SuiteCategory} {o : TestOptions}

theorem runSuite_of_askedFor_eq_nil (hall : Ordered all) (hlist : o.listCategories = false)
    (hrequests : o.categories ≠ []) (hnone : askedFor all o.categories = []) :
    runSuite toml path all o = ⟨1, [], (if all = [] then [noFixtures path]
      else (unmatched all o.categories).map (unmatchedWarning all) ++
        ["no matching categories found"]).map .line⟩ := by
  rw [← selected_eq_askedFor hall] at hnone
  unfold runSuite
  by_cases hempty : all = []
  · simp [hlist, hempty, Outcome.failure]
  · simp [hlist, hempty, hrequests, hnone]

theorem runSuite_of_askedFor_ne_nil (hall : Ordered all) (hlist : o.listCategories = false)
    (hrequests : o.categories ≠ []) (hsome : askedFor all o.categories ≠ []) :
    runSuite toml path all o = runCategories toml o.noColor path
      ((unmatched all o.categories).map (unmatchedWarning all)) (askedFor all o.categories) := by
  have hne : all ≠ [] := by
    rintro rfl
    exact hsome rfl
  obtain ⟨c, cs, hchosen⟩ := List.exists_cons_of_ne_nil hsome
  unfold runSuite
  simp [hlist, hne, hrequests, selected_eq_askedFor hall, hchosen]

/-- With requests, the fixtures run are those of the categories asked for, each once, in the order
of the categories and in that of the files of each. The summary accounts for all of them, and the
run succeeds if there are such categories and every fixture passes. Without such categories nothing
is run. All this holds with any reader of TOML. -/
theorem runSuite_askedFor (hall : Ordered all) (hlist : o.listCategories = false)
    (hrequests : o.categories ≠ []) :
    ((runSuite toml path all o).exitCode = 0 ↔ askedFor all o.categories ≠ [] ∧
      ∀ c ∈ askedFor all o.categories, ∀ r ∈ c.runs toml path, r.result.passed = true) ∧
    (askedFor all o.categories ≠ [] → ∃ s : Summary,
      s.Accounts ((askedFor all o.categories).flatMap (·.runs toml path)) ∧
      s.passed + s.failed = ((askedFor all o.categories).flatMap (·.runs toml path)).length ∧
      (runSuite toml path all o).notices =
        ((unmatched all o.categories).map (unmatchedWarning all) ++
          (askedFor all o.categories).flatMap (·.report toml o.noColor path) ++
          s.report o.noColor).map .line) ∧
    (askedFor all o.categories = [] → (runSuite toml path all o).notices =
      (if all = [] then [noFixtures path]
        else (unmatched all o.categories).map (unmatchedWarning all) ++
          ["no matching categories found"]).map .line) := by
  by_cases hsome : askedFor all o.categories = []
  · rw [runSuite_of_askedFor_eq_nil hall hlist hrequests hsome]
    exact ⟨by simp [hsome], fun h => absurd hsome h, fun _ => rfl⟩
  · have haccounts := Summary.Accounts.empty.addAll
      ((askedFor all o.categories).flatMap (·.runs toml path))
    rw [List.nil_append] at haccounts
    rw [runSuite_of_askedFor_ne_nil hall hlist hrequests hsome, runCategories,
      SuiteRun.foldl_addCategory]
    refine ⟨?_, fun _ => ⟨_, haccounts, haccounts.total, rfl⟩, fun h => absurd h hsome⟩
    have hpassed := haccounts.failed_eq_zero_iff
    rw [List.forall_mem_flatMap] at hpassed
    rw [and_iff_right hsome, ← hpassed, SuiteRun.finish, Summary.exitCode]
    split <;> simp_all

end Suite

/-- Three categories with a fixture each, of which the second fails. -/
def sampleSuite : List SuiteCategory :=
  [⟨"a", [⟨["a", "f.test.blk"], .ok "---\n\n---\ngo"⟩]⟩,
    ⟨"a/b", [⟨["a", "b", "f.test.blk"], .ok "go"⟩]⟩,
    ⟨"ab", [⟨["ab", "f.test.blk"], .ok "---\n\n---\ngo"⟩]⟩]

/-- Three requests take in the same two categories. -/
theorem runSuite_askedFor_sample :
    (askedFor sampleSuite ["/a/", "a/b", "a"]).map SuiteCategory.name = ["a", "a/b"] ∧
    (runSuite Toml.reader "t" sampleSuite ⟨true, ["/a/", "a/b", "a"], false, none⟩).exitCode ≠ 0 ∧
    ∃ s : Summary, s.passed = 1 ∧ s.passed + s.failed = 2 ∧
      (runSuite Toml.reader "t" sampleSuite ⟨true, ["/a/", "a/b", "a"], false, none⟩).notices =
        (["", "a", "  PASS  f", "", "a/b", "  FAIL  f"] ++ s.report true).map .line := by
  have hordered : Ordered sampleSuite := by unfold Ordered; decide
  have hasked : (askedFor sampleSuite ["/a/", "a/b", "a"]).map SuiteCategory.name =
      ["a", "a/b"] := by decide +kernel
  have hsome : askedFor sampleSuite ["/a/", "a/b", "a"] ≠ [] := by
    intro h
    rw [h] at hasked
    cases hasked
  have hreport : (unmatched sampleSuite ["/a/", "a/b", "a"]).map (unmatchedWarning sampleSuite) ++
      (askedFor sampleSuite ["/a/", "a/b", "a"]).flatMap (·.report Toml.reader true "t") =
        ["", "a", "  PASS  f", "", "a/b", "  FAIL  f"] := by decide +kernel
  have hruns : (((askedFor sampleSuite ["/a/", "a/b", "a"]).flatMap (·.runs Toml.reader "t")).map
      (·.result.passed)) = [true, false] := by decide +kernel
  obtain ⟨hexit, hrun, -⟩ := @runSuite_askedFor Toml.reader "t" sampleSuite
    ⟨true, ["/a/", "a/b", "a"], false, none⟩ hordered rfl (List.cons_ne_nil _ _)
  obtain ⟨s, haccounts, htotal, hnotices⟩ := hrun hsome
  refine ⟨hasked, fun h => ?_, s, ?_, ?_, ?_⟩
  · have hall : ∀ passed ∈ [true, false], passed = true := by
      rw [← hruns]
      exact List.forall_mem_map.2 (List.forall_mem_flatMap.2 (hexit.1 h).2)
    exact absurd (hall false (by simp)) (by decide)
  · have hpassed := congrArg (List.countP id) hruns
    rw [List.countP_map] at hpassed
    exact haccounts.passed.trans hpassed
  · have hlength := congrArg List.length hruns
    rw [List.length_map] at hlength
    exact htotal.trans hlength
  · rw [hnotices, hreport]

end BlockNotation
