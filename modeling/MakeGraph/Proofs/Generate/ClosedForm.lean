import MakeGraph.Proofs.Generate.Phases

/-!
# `Proofs.Generate.ClosedForm` — the model of a build description in closed form

What an edge contributes does not depend on the edges before it. So the model of a build description is
the empty model extended by one contribution, which is written down here without a model to thread:
`modelContribution`. `modelWith_eq_ok_iff` says that this is what the generator makes, and that it fails
only where the contribution does not exist or its rules clash.
-/

namespace MakeGraph.Generate

open Make (Call Command Error Include Piece Makefile Pattern Rule Variable)
open Outcome

/-! ## Shared recipes -/

/-- The declaration of the shared recipe of a tool, with the program that it runs. -/
def recipeDeclaration (stem : String) (lines : Variable → List Command)
    (programStem program : String) : Declaration :=
  .recipe (sharedRecipe stem) (lines (programVariable programStem)) (programVariable programStem)
    (.line (.plain program))

/-- A recipe that is not named like its program never fails to be defined once. -/
theorem defineOnce_eq (m : Makefile) {stem programStem : String} (program : String)
    (lines : Variable → List Command) (hne : programVariable programStem ≠ sharedRecipe stem) :
    (if m.declares (sharedRecipe stem) none then .ok m
      else do
        let (command, m) ← declareProgram m programStem program
        m.define (sharedRecipe stem) (lines command)) =
      .ok (adopt m (recipeDeclaration stem lines programStem program)) := by
  by_cases h : m.declares (sharedRecipe stem) none = true
  · rw [if_pos h]
    exact congrArg Except.ok (if_pos h).symm
  · rw [if_neg h, declareProgram_eq]
    exact define_adoptGlobal _ _ hne (Bool.eq_false_iff.mpr h)

/-! ## Edges -/

section Edges

variable (tools : Toolchain) (graph : BuildGraph)

/-- The includes of a compile edge: the file of dependencies, if the compiler writes one. -/
def dependencyIncludes (compiler : Compiler) (edge : CompileEdge) : List Include :=
  match compiler.headerReport with
  | .gcc => [⟨.path (edge.output.addExtension ".d"), true⟩]
  | .none | .msvc => []

/-- What a compile edge contributes. -/
def compileContribution (compiler : Compiler) (edge : CompileEdge) : Contribution where
  declarations :=
    flagsDeclarations compiler.flagsStem (globalCompileFlags compiler graph edge.lang) ++
      [recipeDeclaration compiler.recipeStem (compileRecipe compiler) compiler.programStem
        compiler.program]
  rules := [compileRule compiler edge]
  includes := dependencyIncludes compiler edge

/-- The declarations of the libraries of a linker. -/
def libsDeclarations (linker : Linker) : List Declaration :=
  match linker.libsStem with
  | none => []
  | some name => flagsDeclarations name linker.usualLibs

/-- The arguments for the libraries of an edge, where the linker has libraries. -/
def libsOf (linker : Linker) (edge : LinkEdge) : Except Error (List Piece) :=
  match linker.libsStem with
  | none => .ok []
  | some _ => linkLibs linker edge

/-- The declarations of a link edge. -/
def linkDeclarations (linker : Linker) (mode : LinkMode) : List Declaration :=
  flagsDeclarations linker.flagsStem (globalLinkFlags linker graph mode) ++
    libsDeclarations linker ++
    [recipeDeclaration linker.recipeStem (linkRecipe linker) linker.programStem linker.program]

/-- What a link edge contributes. -/
def linkContribution (linker : Linker) (edge : LinkEdge) : Except Error Contribution := do
  let flags ← linkFlags linker edge
  let libs ← libsOf linker edge
  return {
    declarations := linkDeclarations graph linker edge.mode
    rules := linkRules linker edge (linkVariables linker edge flags libs) }

/-- What an edge contributes. -/
def edgeContribution : Edge → Except Error Contribution
  | .compile edge => do return compileContribution graph (← tools.compiler edge.lang) edge
  | .link edge => do linkContribution graph (← tools.linker edge.lang edge.mode) edge
  | .group edge => .ok { rules := [aliasRule edge] }
  | .command edge => .ok { rules := [commandRule edge] }

end Edges

/-- A generator that first computes something without the model. -/
theorem contributes_compute {α : Type} {x : Except Error α}
    {f : α → Makefile → Except Error Makefile} {c? : α → Except Error Contribution}
    (h : ∀ a, x = .ok a → Contributes (f a) (c? a)) :
    Contributes (fun m => x >>= fun a => f a m) (x >>= c?) := by
  intro m m'
  simp only [bind_eq_ok_iff]
  constructor
  · rintro ⟨a, ha, hm⟩
    obtain ⟨c, hc, hrest⟩ := (h a ha m m').mp hm
    exact ⟨c, ⟨a, ha, hc⟩, hrest⟩
  · rintro ⟨c, ⟨a, ha, hc⟩, hrest⟩
    exact ⟨a, ha, (h a ha m m').mpr ⟨c, hc, hrest⟩⟩

/-- **A compile edge** contributes what is said above. -/
theorem contributes_addCompile (job : Job) (edge : CompileEdge) :
    Contributes (addCompile job edge) (edgeContribution job.toolchain job.graph (.compile edge)) := by
  refine contributes_compute fun compiler hcompiler => ?_
  have hincludes : Contributes
      (fun m => .ok (match compiler.headerReport with
        | .gcc => m.addInclude (.path (edge.output.addExtension ".d")) true
        | .none | .msvc => m))
      (.ok { includes := dependencyIncludes compiler edge }) := by
    unfold dependencyIncludes
    cases compiler.headerReport with
    | none => exact contributes_pure
    | gcc => exact contributes_addInclude _ _
    | msvc => exact contributes_pure
  have hall := (contributes_adoptAll
    (compileContribution job.graph compiler edge).declarations).bind
      ((contributes_addRule (compileRule compiler edge)).bind hincludes)
  -- it is left to show that the steps of the generator are these three
  intro m m'
  refine Iff.trans ?_ (hall m m')
  have hdefine : ∀ m, defineCompileRecipe m compiler = _ := fun m =>
    defineOnce_eq m compiler.program (compileRecipe compiler)
      (ne_sharedRecipe (isRecipeName_compilerProgram hcompiler) _)
  simp only [compileContribution, adoptAll_append, declareFlags_eq]
  show ((defineCompileRecipe _ compiler >>= _) = _) ↔ _
  rw [hdefine]
  rfl

/-- Declaring the libraries of a linker fails only where a library has no name. -/
theorem declareLibs_eq (m : Makefile) (linker : Linker) (edge : LinkEdge) :
    declareLibs m linker edge = do
      return (← libsOf linker edge, adoptAll m (libsDeclarations linker)) := by
  unfold declareLibs libsOf libsDeclarations
  cases linker.libsStem with
  | none => rfl
  | some name =>
      simp only [declareFlags_eq]
      rfl

/-- **A link edge** contributes what is said above. -/
theorem contributes_addLink (job : Job) (edge : LinkEdge) :
    Contributes (addLink job edge) (edgeContribution job.toolchain job.graph (.link edge)) := by
  refine contributes_compute fun linker hlinker => ?_
  have hdefine : ∀ m, defineLinkRecipe m linker = _ := fun m =>
    defineOnce_eq m linker.program (linkRecipe linker)
      (ne_sharedRecipe (isRecipeName_linkerProgram hlinker) _)
  have hall : Contributes
      (fun m => linkFlags linker edge >>= fun flags => libsOf linker edge >>= fun libs =>
        (linkRules linker edge (linkVariables linker edge flags libs)).foldlM Makefile.addRule
          (adoptAll m (linkDeclarations job.graph linker edge.mode)))
      (linkContribution job.graph linker edge) :=
    contributes_compute fun flags _ => contributes_compute fun libs _ =>
      contributes_declareAndAdd _ _
  intro m m'
  refine Iff.trans ?_ (hall m m')
  simp only [declareFlags_eq, declareLibs_eq, linkDeclarations, adoptAll_append, Outcome.bind_ok,
    bind_assoc, pure_bind, hdefine]
  rfl

/-- **An edge** contributes what is said above, whatever comes before it. -/
theorem contributes_addEdge (job : Job) (edge : Edge) :
    Contributes (fun m => addEdge usualHandlers job m edge)
      (edgeContribution job.toolchain job.graph edge) := by
  cases edge with
  | compile edge => exact contributes_addCompile job edge
  | link edge => exact contributes_addLink job edge
  | group edge => exact contributes_addRule (aliasRule edge)
  | command edge => exact contributes_addRule (commandRule edge)

/-! ## The whole -/

/-- What the rule that makes the Makefile contributes. -/
def regenerateContribution (env : Environment) (graph : BuildGraph) : Contribution where
  rules := [regenerateRule env]
  includes := if graph.findDirs.isEmpty then [] else [⟨.path (.build findDepsName), false⟩]

/-- What all edges contribute. -/
def edgesContribution (env : Environment) (graph : BuildGraph) : Except Error Contribution :=
  contributions (edgeContribution env.toolchain graph) graph.edges

/-- What goes before the edges, without the directories. -/
def headContribution (graph : BuildGraph) : Contribution :=
  { rules := [allRule graph] } ++
    (installContribution graph.install ++ { rules := testRules graph.tests })

/-- What comes behind the edges. -/
def tailContribution (env : Environment) (graph : BuildGraph) : Contribution :=
  { rules := [markRule] } ++ regenerateContribution env graph

/-- What a build description contributes to the empty model. -/
def modelContribution (env : Environment) (graph : BuildGraph) : Except Error Contribution := do
  let edges ← edgesContribution env graph
  return directoriesContribution env ++
    (headContribution graph ++ (edges ++ tailContribution env graph))

/-- The model has what every edge contributes. -/
theorem mem_modelContribution {env : Environment} {graph : BuildGraph} {c : Contribution}
    {edge : Edge} (hedge : edge ∈ graph.edges) (h : modelContribution env graph = .ok c) :
    ∃ own, edgeContribution env.toolchain graph edge = .ok own ∧
      own.declarations ⊆ c.declarations ∧ own.rules ⊆ c.rules := by
  simp only [modelContribution, bind_eq_ok_iff, pure_eq_ok_iff] at h
  obtain ⟨edges, hedges, rfl⟩ := h
  obtain ⟨own, hown, hdeclarations, hrules⟩ := mem_contributions hedges hedge
  refine ⟨own, hown, fun d hd => ?_, fun rule hrule => ?_⟩
  · exact List.mem_append_right _ (List.mem_append_right _
      (List.mem_append_left _ (hdeclarations hd)))
  · exact List.mem_append_right _ (List.mem_append_right _ (List.mem_append_left _ (hrules hrule)))

theorem contributes_addRegenerate (job : Job) :
    Contributes (addRegenerate job) (.ok (regenerateContribution job.env job.graph)) := by
  unfold regenerateContribution
  by_cases he : job.graph.findDirs.isEmpty = true
  · rw [if_pos he]
    intro m m'
    unfold addRegenerate
    rw [if_pos he]
    exact contributes_addRule (regenerateRule job.env) m m'
  · rw [if_neg he]
    intro m m'
    unfold addRegenerate
    rw [if_neg he]
    exact (contributes_addInclude (.path (.build findDepsName)) false).bind
      (contributes_addRule (regenerateRule job.env)) m m'

/-- What comes behind the directories. -/
def addAfterDirectories (env : Environment) (graph : BuildGraph) (m : Makefile) :
    Except Error Makefile := do
  let m ← m.addRule (allRule graph)
  let m ← addInstall graph.install m
  let m ← addTests graph.tests m
  let m ← graph.edges.foldlM (addEdge usualHandlers ⟨env, graph⟩) m
  let m ← m.addRule markRule
  addRegenerate ⟨env, graph⟩ m

theorem contributes_addAfterDirectories (env : Environment) (graph : BuildGraph) :
    Contributes (addAfterDirectories env graph) (do
      let edges ← edgesContribution env graph
      return headContribution graph ++ (edges ++ tailContribution env graph)) := by
  have hedges : Contributes
      (fun m => graph.edges.foldlM (addEdge usualHandlers ⟨env, graph⟩) m)
      (edgesContribution env graph) :=
    Contributes.foldlM (contributes_addEdge ⟨env, graph⟩) graph.edges
  have hhead := (contributes_addRule (allRule graph)).bind
    ((contributes_addInstall graph.install).bind (contributes_addTests graph.tests))
  have htail := (contributes_addRule markRule).bind (contributes_addRegenerate ⟨env, graph⟩)
  have hall := hhead.bind (hedges.bind htail)
  intro m m'
  have hm := hall m m'
  simp only [bind_assoc] at hm
  refine Iff.trans (by rfl) (hm.trans ?_)
  cases edgesContribution env graph <;> rfl

/-- **The model in closed form.** A build description has a model exactly when its contribution exists
    and no two of its rules share a target; the model is then the empty one with this
    contribution. -/
theorem modelWith_eq_ok_iff {env : Environment} {graph : BuildGraph} {m : Makefile} :
    modelWith usualHandlers env graph = .ok m ↔
      ∃ c, modelContribution env graph = .ok c ∧ Fresh .empty c.rules ∧ m = extend .empty c := by
  have hmodel : modelWith usualHandlers env graph =
      addAfterDirectories env graph (extend .empty (directoriesContribution env)) := by
    unfold modelWith
    rw [declareDirectories_empty]
    simp only [Outcome.bind_ok]
    rfl
  -- the directories claim no target, so they do not matter for the rules
  have hdirs : ∀ rules, Fresh (extend .empty (directoriesContribution env)) rules ↔
      Fresh .empty rules := fun rules =>
    ⟨fun h => fresh_append.mpr ⟨fresh_nil _, h⟩,
      fun h => (fresh_append (a := directoriesContribution env)).mp h |>.2⟩
  rw [hmodel]
  refine (contributes_addAfterDirectories env graph _ m).trans ?_
  simp only [modelContribution, bind_eq_ok_iff, pure_eq_ok_iff, hdirs]
  constructor
  · rintro ⟨_, ⟨edges, he, rfl⟩, hfresh, rfl⟩
    exact ⟨_, ⟨edges, he, rfl⟩, hfresh, extend_append _ _ _⟩
  · rintro ⟨_, ⟨edges, he, rfl⟩, hfresh, rfl⟩
    exact ⟨_, ⟨edges, he, rfl⟩, hfresh, (extend_append _ _ _).symm⟩

end MakeGraph.Generate
