import MakeGraph.Proofs.Generate.Acceptance
import MakeGraph.Proofs.Path.Spelling

/-!
# `Proofs.Generate.Outputs` — no output is made twice

A Makefile knows a target by the text that is written for it. So no two edges of an accepted description
make the same output as it is written (`outputFiles_pairwise`), and where paths are spelled tidily no two
make the same file. Two spellings of one file are two targets (`generate_twoSpellings`).
-/

namespace MakeGraph

/-- The files that an edge makes by running a tool: a binary and its import library, or an object. -/
def Edge.outputFiles : Edge → List RootedPath
  | .compile edge => [edge.output]
  | .link edge => edge.outputs
  | .group _ | .command _ => []

/-- The files that all edges make, in their order. -/
def BuildGraph.outputFiles (graph : BuildGraph) : List RootedPath :=
  graph.edges.flatMap Edge.outputFiles

namespace Generate

open Make (Makefile)

/-! ## Outputs among targets -/

/-- The outputs of an edge are targets of its rules; a stamp may come behind them. -/
theorem outputFiles_sublist_targetPaths (edge : Edge) :
    edge.outputFiles.Sublist (targetPaths edge) := by
  cases edge with
  | compile edge => exact List.Sublist.refl _
  | link edge =>
      cases h : edge.importLibrary with
      | none => simp [Edge.outputFiles, targetPaths, LinkEdge.outputs, h]
      | some library => simp [Edge.outputFiles, targetPaths, LinkEdge.outputs, h]
  | group edge => exact List.nil_sublist _
  | command edge => exact List.nil_sublist _

/-- The outputs of all edges are targets, in the order of the rules. -/
theorem outputTexts_sublist_targetTexts (graph : BuildGraph) :
    (graph.outputFiles.map targetText).Sublist (targetTexts graph) := by
  have hedges : ∀ edges : List Edge, ((edges.flatMap Edge.outputFiles).map targetText).Sublist
      (edges.flatMap fun edge => (targetPaths edge).map targetText) := by
    intro edges
    induction edges with
    | nil => exact List.Sublist.refl _
    | cons edge edges ih =>
        simp only [List.flatMap_cons, List.map_append]
        exact ((outputFiles_sublist_targetPaths edge).map _).append ih
  have hsplit : targetTexts graph =
      (["all"] ++ installTexts graph.install ++ testTexts graph.tests) ++
        (graph.edges.flatMap (fun edge => (targetPaths edge).map targetText) ++
          ["%/.dir", "Makefile"]) := by
    simp [targetTexts]
  rw [hsplit]
  exact ((hedges graph.edges).trans (List.sublist_append_left _ _)).trans
    (List.sublist_append_right _ _)

/-- The targets of a Makefile are all different. -/
theorem nodup_targetTexts {env : Environment} {graph : BuildGraph} {products : Products}
    (hproducts : generate env graph = .ok products) : (targetTexts graph).Nodup := by
  obtain ⟨m, hm, -⟩ := generate_eq_ok_iff.mp hproducts
  obtain ⟨c, hc, hfresh, -⟩ := modelWith_eq_ok_iff.mp hm
  exact (claims_modelContribution hc).fresh_iff.mp hfresh

/-! ## The main result -/

/-- **No output is made twice.** The outputs of all edges of a description that has a Makefile have
    different texts there, so no two of them are one path below one root as it is written. Two outputs
    that take the same steps are different spellings of one file, of which one is not tidy. -/
theorem outputFiles_pairwise {env : Environment} {graph : BuildGraph} {products : Products}
    (hproducts : generate env graph = .ok products) :
    graph.outputFiles.Pairwise fun p q =>
      targetText p ≠ targetText q ∧ ¬(p.root = q.root ∧ p.path.text = q.path.text) ∧
        (p.path.IsTidy → q.path.IsTidy → ¬p.Same q) := by
  have hnodup := (nodup_targetTexts hproducts).sublist (outputTexts_sublist_targetTexts graph)
  rw [List.Nodup, List.pairwise_map] at hnodup
  refine hnodup.imp ?_
  intro p q htexts
  have hwritten : ¬(p.root = q.root ∧ p.path.text = q.path.text) := by
    rintro ⟨hroot, htext⟩
    apply htexts
    rw [targetText, targetText, Make.Piece.render_path, Make.Piece.render_path, Make.renderPath,
      Make.renderPath, RootedPath.isRootItself, RootedPath.isRootItself, hroot, htext]
  refine ⟨htexts, hwritten, ?_⟩
  intro hp hq hsame
  exact hwritten ⟨hsame.1, congrArg Path.text (hp.eq_of_same hq hsame.2)⟩

/-- A description with an import library and an object in one directory. -/
def threeOutputs : BuildGraph where
  version := default
  edges := [
    .compile { output := .build "out/a.obj", source := ⟨.source, ⟨"a.c"⟩⟩, lang := "c" },
    .link {
      output := .build "out/a.dll"
      importLibrary := some (.build "out/a.lib")
      mode := .sharedLibrary
      lang := "c"
      files := [.build "out/a.obj"] }]

/-- Its three outputs are three files. -/
theorem outputFiles_threeOutputs :
    ∃ products, generate { (default : Environment) with platform := .windows, family := .msvc }
        threeOutputs = .ok products ∧
      threeOutputs.outputFiles.Pairwise fun p q => ¬p.Same q := by
  have haccepted : Accepted { (default : Environment) with platform := .windows, family := .msvc }
      threeOutputs :=
    ⟨by simp [EdgeAccepted, threeOutputs], by decide +kernel⟩
  obtain ⟨products, hproducts⟩ := haccepted.generate_succeeds
  have htidy : ∀ p ∈ threeOutputs.outputFiles, p.path.IsTidy := by decide +kernel
  refine ⟨products, hproducts, (outputFiles_pairwise hproducts).imp_of_mem ?_⟩
  intro p q hp hq h
  exact h.2.2 (htidy p hp) (htidy q hq)

/-- Two objects that are one file, spelled in two ways. -/
def twoSpellings : BuildGraph where
  version := default
  edges := [
    .compile { output := .build "a//b.o", source := .build "a.c", lang := "c" },
    .compile { output := .build "a/b.o", source := .build "b.c", lang := "c" }]

/-- **Two spellings of one file** are two targets. -/
theorem generate_twoSpellings :
    ∃ products, generate default twoSpellings = .ok products ∧
      ¬twoSpellings.outputFiles.Pairwise fun p q => ¬p.Same q := by
  have haccepted : Accepted default twoSpellings :=
    ⟨by simp [EdgeAccepted, twoSpellings], by decide +kernel⟩
  obtain ⟨products, hproducts⟩ := haccepted.generate_succeeds
  exact ⟨products, hproducts, by decide +kernel⟩

end Generate

end MakeGraph
