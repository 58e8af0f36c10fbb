import MakeGraph.Proofs.Generate.ClosedForm

/-!
# `Proofs.Generate.Acceptance` — which build descriptions have a Makefile

A generation can fail for three reasons: a language has no tools, a link asks for something that its
linker cannot do, or two rules have a target in common. `Accepted` says that none of them is there, in
terms of the description alone, and `generate_ok_iff_accepted` that nothing else can go wrong: however
many edges share variables and recipes, no two declarations ever meet.

## Contents

* `targetTexts` — the targets of a Makefile, known before it is made
* `EdgeAccepted`, `Accepted` — the condition
* `edgeContribution_succeeds_iff`, `claims_edgeContribution` — the two halves for one edge
* `generate_ok_iff_accepted` — the main result
-/

namespace MakeGraph.Generate

open Make (Command Error Piece Makefile Rule Variable)
open Outcome

/-! ## Targets -/

/-- The text of a path among targets. -/
def targetText (path : RootedPath) : String :=
  (Piece.path path).render .target

/-- The files that the rules of an edge make: those of a link with an import library have a stamp. -/
def targetPaths : Edge → List RootedPath
  | .compile edge => [edge.output]
  | .link edge =>
      match edge.importLibrary with
      | none => [edge.output]
      | some path => [edge.output, path, stamp edge]
  | .group edge => [edge.target]
  | .command edge => [edge.target]

/-- The targets of the installation. -/
def installTexts (install : Install) : List String :=
  if install.isEmpty then [] else ["install"]

/-- The targets of the tests. -/
def testTexts (tests : Tests) : List String :=
  if tests.isEmpty then []
  else (if tests.targets.isEmpty then [] else ["tests"]) ++ ["test"]

/-- **All targets** of the Makefile of a description, in the order of its rules. -/
def targetTexts (graph : BuildGraph) : List String :=
  ["all"] ++ installTexts graph.install ++ testTexts graph.tests ++
    graph.edges.flatMap (fun edge => (targetPaths edge).map targetText) ++ ["%/.dir", "Makefile"]

/-! ## The condition -/

/-- An edge that the tools of an environment can make. -/
def EdgeAccepted (env : Environment) : Edge → Prop
  | .compile edge => edge.lang = "c" ∨ edge.lang = "c++"
  | .link edge =>
      (edge.lang = "c" ∨ edge.lang = "c++") ∧
      (edge.importLibrary ≠ none → edge.mode = .sharedLibrary) ∧
      (edge.mode ≠ .staticLibrary → ∀ lib ∈ edge.libs, lib.Nameable env.family env.platform)
  | .group _ | .command _ => True

/-- **A description that has a Makefile**: every edge can be made and no target is made twice. -/
structure Accepted (env : Environment) (graph : BuildGraph) : Prop where
  edges : ∀ edge ∈ graph.edges, EdgeAccepted env edge
  nodup_targets : (targetTexts graph).Nodup

/-! ## One edge -/

theorem linkFlags_succeeds_iff {linker : Linker} {edge : LinkEdge} :
    (∃ flags, linkFlags linker edge = .ok flags) ↔
      ∀ path, edge.importLibrary = some path → ∃ flags, linker.importFlags path = .ok flags := by
  unfold linkFlags
  cases edge.importLibrary with
  | none => exact ⟨fun _ _ h => (by cases h), fun _ => ⟨_, rfl⟩⟩
  | some path =>
      simp only [bind_eq_ok_iff, Option.some.injEq, forall_eq']
      constructor
      · rintro ⟨-, flags, hflags, -⟩
        exact ⟨flags, hflags⟩
      · rintro ⟨flags, hflags⟩
        exact ⟨_, flags, hflags, rfl⟩

theorem libsOf_succeeds_iff {linker : Linker} {edge : LinkEdge} :
    (∃ libs, libsOf linker edge = .ok libs) ↔
      (linker.libsStem ≠ none → ∀ lib ∈ edge.libs, ∃ words, linker.libraryWords lib = .ok words) := by
  unfold libsOf
  cases linker.libsStem with
  | none => simp
  | some name =>
      simp only [linkLibs, bind_eq_ok_iff, pure_eq_ok_iff, ← mapM_succeeds_iff, ne_eq, reduceCtorEq,
        not_false_eq_true, true_implies]
      constructor
      · rintro ⟨-, words, hwords, -⟩
        exact ⟨words, hwords⟩
      · rintro ⟨words, hwords⟩
        exact ⟨_, words, hwords, rfl⟩

theorem linkContribution_succeeds_iff {tools : Toolchain} (graph : BuildGraph) {linker : Linker}
    {edge : LinkEdge} (h : tools.linker edge.lang edge.mode = .ok linker) :
    (∃ c, linkContribution graph linker edge = .ok c) ↔
      (edge.importLibrary ≠ none → edge.mode = .sharedLibrary) ∧
      (edge.mode ≠ .staticLibrary → ∀ lib ∈ edge.libs, lib.Nameable tools.family tools.platform) := by
  have hparts : (∃ c, linkContribution graph linker edge = .ok c) ↔
      (∃ flags, linkFlags linker edge = .ok flags) ∧ ∃ libs, libsOf linker edge = .ok libs := by
    simp only [linkContribution, bind_eq_ok_iff, pure_eq_ok_iff]
    constructor
    · rintro ⟨-, flags, hflags, libs, hlibs, -⟩
      exact ⟨⟨flags, hflags⟩, libs, hlibs⟩
    · rintro ⟨⟨flags, hflags⟩, libs, hlibs⟩
      exact ⟨_, flags, hflags, libs, hlibs, rfl⟩
  rw [hparts, linkFlags_succeeds_iff, libsOf_succeeds_iff, libsStem_ne_none_iff h]
  refine and_congr ?_ (forall_congr' fun hmode => forall₂_congr fun lib _ =>
    libraryWords_succeeds_iff h hmode lib)
  simp only [importFlags_succeeds_iff h]
  cases edge.importLibrary with
  | none => simp
  | some path => simp

/-- **An edge has a contribution** exactly when it is accepted. -/
theorem edgeContribution_succeeds_iff (env : Environment) (graph : BuildGraph) {edge : Edge} :
    (∃ c, edgeContribution env.toolchain graph edge = .ok c) ↔ EdgeAccepted env edge := by
  cases edge with
  | compile edge =>
      simp only [edgeContribution, EdgeAccepted, bind_eq_ok_iff, pure_eq_ok_iff,
        ← compiler_succeeds_iff env.toolchain]
      constructor
      · rintro ⟨_, compiler, hcompiler, -⟩
        exact ⟨compiler, hcompiler⟩
      · rintro ⟨compiler, hcompiler⟩
        exact ⟨_, compiler, hcompiler, rfl⟩
  | link edge =>
      simp only [edgeContribution, EdgeAccepted, bind_eq_ok_iff,
        ← linker_succeeds_iff env.toolchain edge.mode]
      constructor
      · rintro ⟨c, linker, hlinker, hc⟩
        exact ⟨⟨linker, hlinker⟩, (linkContribution_succeeds_iff graph hlinker).mp ⟨c, hc⟩⟩
      · rintro ⟨⟨linker, hlinker⟩, hcan⟩
        obtain ⟨c, hc⟩ := (linkContribution_succeeds_iff graph hlinker).mpr hcan
        exact ⟨c, linker, hlinker, hc⟩
  | group edge => exact ⟨fun _ => trivial, fun _ => ⟨_, rfl⟩⟩
  | command edge => exact ⟨fun _ => trivial, fun _ => ⟨_, rfl⟩⟩

/-- Rules that claim given texts, each rule at least one. -/
structure Claims (rules : List Rule) (texts : List String) : Prop where
  targets_ne_nil : ∀ rule ∈ rules, rule.targets ≠ []
  claims_eq : claimsOf rules = texts

theorem Claims.append {rs ss : List Rule} {ts us : List String} (hr : Claims rs ts)
    (hs : Claims ss us) : Claims (rs ++ ss) (ts ++ us) := by
  refine ⟨fun rule hrule => ?_, ?_⟩
  · exact (List.mem_append.mp hrule).elim (hr.targets_ne_nil rule) (hs.targets_ne_nil rule)
  · rw [claimsOf_append, hr.claims_eq, hs.claims_eq]

/-- One rule claims the texts of its targets. -/
theorem claims_rule {rule : Rule} (hne : rule.targets ≠ []) : Claims [rule] rule.claims := by
  refine ⟨fun other hother => ?_, ?_⟩
  · rw [List.mem_singleton.mp hother]
    exact hne
  · exact List.append_nil _

theorem claims_linkRules (linker : Linker) (edge : LinkEdge) (overrides : Table Variable Command) :
    Claims (linkRules linker edge overrides) ((targetPaths (.link edge)).map targetText) := by
  cases h : edge.importLibrary with
  | none =>
      simp only [linkRules, targetPaths, h]
      exact claims_rule (List.cons_ne_nil _ _)
  | some path =>
      simp only [linkRules, targetPaths, LinkEdge.outputs, h]
      exact (claims_rule (List.cons_ne_nil _ _)).append (claims_rule (List.cons_ne_nil _ _))

/-- **The rules of an edge** make its targets. -/
theorem claims_edgeContribution {tools : Toolchain} {graph : BuildGraph} {edge : Edge}
    {c : Contribution} (h : edgeContribution tools graph edge = .ok c) :
    Claims c.rules ((targetPaths edge).map targetText) := by
  cases edge with
  | compile edge =>
      simp only [edgeContribution, bind_eq_ok_iff, pure_eq_ok_iff] at h
      obtain ⟨compiler, -, rfl⟩ := h
      exact claims_rule (by simp [compileRule])
  | link edge =>
      simp only [edgeContribution, linkContribution, bind_eq_ok_iff, pure_eq_ok_iff] at h
      obtain ⟨linker, -, flags, -, libs, -, rfl⟩ := h
      exact claims_linkRules linker edge _
  | group edge =>
      obtain rfl := Except.ok.inj h
      exact claims_rule (by simp [aliasRule])
  | command edge =>
      obtain rfl := Except.ok.inj h
      exact claims_rule (by simp [commandRule])

/-! ## The whole -/

/-- The rules for tests make their targets. -/
theorem claims_testRules (tests : Tests) : Claims (testRules tests) (testTexts tests) := by
  unfold testRules testTexts
  split
  · exact ⟨by simp, rfl⟩
  · split
    · exact claims_rule (by simp [testRule])
    · exact (claims_rule (by simp [testsRule])).append (claims_rule (by simp [testRule]))

/-- **The rules of a description** make its targets, edge by edge. -/
theorem claims_modelContribution {env : Environment} {graph : BuildGraph} {c : Contribution}
    (h : modelContribution env graph = .ok c) : Claims c.rules (targetTexts graph) := by
  simp only [modelContribution, edgesContribution, bind_eq_ok_iff, pure_eq_ok_iff] at h
  obtain ⟨edges, hedges, rfl⟩ := h
  have hall : Claims [allRule graph] ["all"] := claims_rule (by simp [allRule])
  have hinstall : Claims (installContribution graph.install).rules (installTexts graph.install) := by
    unfold installContribution installTexts
    split
    · exact ⟨by simp, rfl⟩
    · exact claims_rule (by simp [installRule])
  have htests := claims_testRules graph.tests
  have hmiddle : Claims edges.rules
      (graph.edges.flatMap fun edge => (targetPaths edge).map targetText) := by
    refine forall_contributions (P := fun items c => Claims c.rules
      (items.flatMap fun edge => (targetPaths edge).map targetText)) ⟨by simp, rfl⟩ ?_ hedges
    intro edge edges own rest hown hrest
    exact (claims_edgeContribution hown).append hrest
  have hmark : Claims [markRule] ["%/.dir"] := claims_rule (by simp [markRule])
  have hregenerate : Claims [regenerateRule env] ["Makefile"] :=
    claims_rule (by simp [regenerateRule])
  -- the phases in their order
  have h := (hall.append (hinstall.append htests)).append
    (hmiddle.append (hmark.append hregenerate))
  simp only [← List.append_assoc] at h
  simp only [targetTexts]
  simpa [List.append_assoc, headContribution, tailContribution, directoriesContribution,
    regenerateContribution] using h

/-- A description has a contribution exactly when all edges are accepted. -/
theorem modelContribution_succeeds_iff {env : Environment} {graph : BuildGraph} :
    (∃ c, modelContribution env graph = .ok c) ↔ ∀ edge ∈ graph.edges, EdgeAccepted env edge := by
  simp only [modelContribution, edgesContribution, bind_eq_ok_iff, pure_eq_ok_iff,
    ← edgeContribution_succeeds_iff env graph, ← contributions_succeeds_iff]
  constructor
  · rintro ⟨_, edges, hedges, -⟩
    exact ⟨edges, hedges⟩
  · rintro ⟨edges, hedges⟩
    exact ⟨_, edges, hedges, rfl⟩

/-- The empty model takes rules whose targets are all different. -/
theorem Claims.fresh_iff {rules : List Rule} {texts : List String} (h : Claims rules texts) :
    Fresh .empty rules ↔ texts.Nodup := by
  rw [← h.claims_eq]
  exact ⟨fun hfresh => hfresh.nodup, fun hnodup => ⟨h.targets_ne_nil, hnodup, fun _ _ => by
    exact List.not_mem_nil⟩⟩

/-- The generator succeeds with the text of a model. -/
theorem generate_eq_ok_iff {env : Environment} {graph : BuildGraph} {products : Products} :
    generate env graph = .ok products ↔
      ∃ m, modelWith usualHandlers env graph = .ok m ∧ products = ⟨m.render, companions graph⟩ := by
  unfold generate generateBy
  simp only [bind_eq_ok_iff, pure_eq_ok_iff, eq_comm (b := products)]

/-- What is accepted is made. -/
theorem Accepted.generate_succeeds {env : Environment} {graph : BuildGraph}
    (h : Accepted env graph) : ∃ products, generate env graph = .ok products := by
  obtain ⟨c, hc⟩ := modelContribution_succeeds_iff.mpr h.edges
  have hfresh := (claims_modelContribution hc).fresh_iff.mpr h.nodup_targets
  exact ⟨_, generate_eq_ok_iff.mpr ⟨_, modelWith_eq_ok_iff.mpr ⟨c, hc, hfresh, rfl⟩, rfl⟩⟩

/-- **What is accepted is made, and nothing else.** A description has a Makefile exactly when its edges
    can be made and its targets are all different, and then the rules of the Makefile make these
    targets in this order. -/
theorem generate_ok_iff_accepted (env : Environment) (graph : BuildGraph) :
    ((∃ products, generate env graph = .ok products) ↔ Accepted env graph) ∧
      ∀ products, generate env graph = .ok products →
        ∃ m, modelWith usualHandlers env graph = .ok m ∧ products.makefile = m.render ∧
          claimsOf m.rules = targetTexts graph := by
  constructor
  · refine ⟨?_, fun h => h.generate_succeeds⟩
    rintro ⟨products, h⟩
    obtain ⟨m, hm, -⟩ := generate_eq_ok_iff.mp h
    obtain ⟨c, hc, hfresh, -⟩ := modelWith_eq_ok_iff.mp hm
    exact ⟨modelContribution_succeeds_iff.mp ⟨c, hc⟩,
      (claims_modelContribution hc).fresh_iff.mp hfresh⟩
  · intro products h
    obtain ⟨m, hm, rfl⟩ := generate_eq_ok_iff.mp h
    obtain ⟨c, hc, -, rfl⟩ := modelWith_eq_ok_iff.mp hm
    exact ⟨_, hm, rfl, (claims_modelContribution hc).claims_eq⟩

/-- A description of one shared library with an import library. -/
def importingGraph : BuildGraph where
  version := default
  edges := [.link {
    output := .build "a.dll"
    importLibrary := some (.build "a.lib")
    mode := .sharedLibrary
    lang := "c"
    files := [.build "a.obj"]
    libs := [⟨.static, .build "b.lib", false⟩] }]

/-- Microsoft's tools make the shared library, its import library and their stamp. -/
theorem generate_importingGraph :
    ∃ (products : Products) (m : Makefile),
      generate { (default : Environment) with platform := .windows, family := .msvc }
        importingGraph = .ok products ∧ products.makefile = m.render ∧
      claimsOf m.rules = ["all", "a.dll", "a.lib", "a.dll.stamp", "%/.dir", "Makefile"] := by
  have hnodup : (targetTexts importingGraph).Nodup := by decide +kernel
  have hname : (RootedPath.build "b.lib").fileName? = some "b.lib" := by decide +kernel
  obtain ⟨products, h⟩ := (generate_ok_iff_accepted
    { (default : Environment) with platform := .windows, family := .msvc } importingGraph).1.mpr
      ⟨by simp [importingGraph, EdgeAccepted, Library.Nameable, hname], hnodup⟩
  obtain ⟨m, -, hrender, hclaims⟩ := (generate_ok_iff_accepted _ _).2 products h
  refine ⟨products, m, h, hrender, hclaims.trans ?_⟩
  decide +kernel

end MakeGraph.Generate
