import MakeGraph.Proofs.Generate.CompileCommand
import MakeGraph.Proofs.Generate.EdgeRules
import MakeGraph.Proofs.Make.Escaping

/-!
# `Proofs.Generate.Includes` — the files that a Makefile includes

A compiler with the options of GCC reports the headers that it reads in a file beside the object. The
recipe that all objects share knows this file only as `$@.d`. The Makefile includes it under a name that
is made from the path of the object (`reportInclude`). Nothing compares the two, and where they differ
nobody notices, because the file may be missing. They are the same for every object with a name
(`includes_generate`), since an ending such as `.d` is written, expanded and read as it is, whatever
stands before it.

## Contents

* `render_addExtension`, `readWord_addExtension` — a path with an ending
* `expectedIncludes`, `includes_modelContribution` — which files are included
* `reportingCommands`, `NamesReport` — the file that the recipe writes
* `includes_generate` — the main result
-/

namespace MakeGraph.Generate

open Make (Command Context Include Makefile Piece Rule Variable)
open Shell (bareText)
open Outcome

/-! ## Paths with an ending -/

section Endings

variable {p : RootedPath} {extension : String}

/-- An ending that is written behind a target as it is. -/
def IsBareEnding (extension : String) : Prop :=
  ∀ c ∈ extension.toList, c ≠ '$' ∧ c ≠ '\\' ∧ Context.specialInTargets c = false

instance (extension : String) : Decidable (IsBareEnding extension) :=
  List.decidableBAll (fun c => c ≠ '$' ∧ c ≠ '\\' ∧ Context.specialInTargets c = false)
    extension.toList

theorem escapeChars_target_append (h : IsBareEnding extension) (cs : List Char) :
    Make.escapeChars .target (cs ++ extension.toList) =
      Make.escapeChars .target cs ++ extension.toList := by
  have hdollar : '$' ∉ extension.toList := fun hmem => (h _ hmem).1 rfl
  show Make.guardSpecials _ (Make.doubleDollars _) = Make.guardSpecials _ (Make.doubleDollars _) ++ _
  rw [Make.doubleDollars_append, Make.doubleDollars_of_not_mem hdollar,
    Make.guardSpecials_append fun c hc => (h c hc).2]

theorem escape_target_append (h : IsBareEnding extension) (text : String) :
    Make.escape .target (text ++ extension) = Make.escape .target text ++ extension := by
  rw [Make.escape, String.toList_append, escapeChars_target_append h, String.ofList_append,
    String.ofList_toList]
  rfl

/-- What stands before the text of a path: a reference to the variable of its root, if it has one. -/
def rootLead (root : Root) : String :=
  match root.variableName? with
  | some name => Make.reference name ++ "/"
  | none => ""

/-- A path that is not the root itself is written in full. -/
theorem render_path_of_ne (hne : p.path.text ≠ "") (context : Context) :
    (Piece.path p).render context = rootLead p.root ++ Make.escape context p.path.text := by
  have hself : p.isRootItself = false := by
    rw [Bool.eq_false_iff]
    exact fun h => hne (String.isEmpty_iff.mp h)
  rw [Piece.render_path, Make.renderPath, rootLead, hself]
  cases p.root.variableName? with
  | some name => exact if_neg (by decide)
  | none =>
      rw [Bool.and_false]
      exact (if_neg (by decide)).trans String.empty_append.symm

/-- **A target with an ending** is written as the target with the ending behind it. -/
theorem render_addExtension (h : IsBareEnding extension) (hne : p.path.text ≠ "") :
    (Piece.path (p.addExtension extension)).render .target =
      (Piece.path p).render .target ++ extension := by
  have hlonger : (p.addExtension extension).path.text ≠ "" := by
    intro hempty
    exact hne (String.append_eq_empty_iff.mp hempty).1
  rw [render_path_of_ne hne, render_path_of_ne hlonger, String.append_assoc, ← escape_target_append h]
  rfl

/-- What leads to the text of a path is expanded on its own. -/
theorem expand_rootLead (value : String → List Char) (root : Root) (rest : List Char) :
    Make.expand value ((rootLead root).toList ++ rest) =
      Make.expand value (rootLead root).toList ++ Make.expand value rest := by
  unfold rootLead
  cases hname : root.variableName? with
  | some name =>
      have hplain : Make.isPlainName name = true := Make.isPlainName_root hname
      dsimp only
      rw [String.toList_append, List.append_assoc, Make.expand_reference value hplain,
        Make.expand_reference value hplain, List.append_assoc]
      rfl
  | none => rfl

/-- A path that is not the root itself leaves nothing open at its end. -/
theorem expand_render_append (value : String → List Char) (hne : p.path.text ≠ "")
    (rest : List Char) :
    Make.expand value (((Piece.path p).render .target).toList ++ rest) =
      Make.expand value ((Piece.path p).render .target).toList ++ Make.expand value rest := by
  have hescaped : (Make.escape .target p.path.text).toList =
      Make.doubleDollars (Make.guardSpecials Context.specialInTargets p.path.text.toList) := by
    rw [Make.escape, String.toList_ofList]
    exact Make.guardSpecials_doubleDollars (by decide) _
  -- the dollars of the path itself come in pairs, and those of its root stand in one reference
  rw [render_path_of_ne hne, String.toList_append, List.append_assoc, expand_rootLead, expand_rootLead,
    hescaped, Make.expand_doubleDollars_append, Make.expand_doubleDollars, List.append_assoc]

/-- **A target with an ending** is read as the target with the ending behind it. -/
theorem readWord_addExtension (h : IsBareEnding extension) (hne : p.path.text ≠ "")
    (value : String → List Char) :
    Make.readWord Context.specialInTargets value
        ((Piece.path (p.addExtension extension)).render .target) =
      Make.readWord Context.specialInTargets value ((Piece.path p).render .target) ++ extension := by
  have hending : Make.expand value extension.toList = extension.toList := by
    have hdollar : '$' ∉ extension.toList := fun hmem => (h _ hmem).1 rfl
    have hexpand := Make.expand_doubleDollars value extension.toList
    rwa [Make.doubleDollars_of_not_mem hdollar] at hexpand
  rw [render_addExtension h hne, Make.readWord, Make.readWord, String.toList_append,
    expand_render_append value hne, hending, Make.readName,
    Make.unguard_append fun c hc => (h c hc).2, String.ofList_append, String.ofList_toList]
  rfl

end Endings

/-! ## The includes of a Makefile -/

/-- The include of the file in which a compiler reports the headers of an object. -/
def reportInclude (edge : CompileEdge) : Include :=
  ⟨.path (edge.output.addExtension ".d"), true⟩

/-- The compile edges among edges. -/
def compileEdges (edges : List Edge) : List CompileEdge :=
  edges.filterMap fun
    | .compile edge => some edge
    | _ => none

/-- The includes of edges: one for each object, where the compilers write such files. -/
def reportIncludes (family : ToolFamily) (edges : List Edge) : List Include :=
  match family with
  | .cc => (compileEdges edges).map reportInclude
  | .msvc => []

/-- The include of the file beside the Makefile, if any directory was searched. -/
def searchIncludes (graph : BuildGraph) : List Include :=
  if graph.findDirs = [] then [] else [⟨.path (.build findDepsName), false⟩]

theorem reportIncludes_cons (family : ToolFamily) (edge : Edge) (edges : List Edge) :
    reportIncludes family (edge :: edges) =
      reportIncludes family [edge] ++ reportIncludes family edges := by
  cases family with
  | cc =>
      have hedges : compileEdges (edge :: edges) = compileEdges [edge] ++ compileEdges edges :=
        List.filterMap_append (l := [edge])
      show (compileEdges (edge :: edges)).map reportInclude = _
      rw [hedges, List.map_append]
      rfl
  | msvc => rfl

section Generation

variable {env : Environment} {graph : BuildGraph} {c : Contribution}

/-- An edge includes a file if it is a compilation whose compiler writes one. -/
theorem includes_edgeContribution {tools : Toolchain} {edge : Edge}
    (h : edgeContribution tools graph edge = .ok c) :
    c.includes = reportIncludes tools.family [edge] := by
  have hnone : ∀ family, (∀ own, edge ≠ .compile own) → reportIncludes family [edge] = [] := by
    intro family hedge
    cases edge with
    | compile own => exact absurd rfl (hedge own)
    | _ => cases family <;> rfl
  cases edge with
  | compile edge =>
      simp only [edgeContribution, bind_eq_ok_iff, pure_eq_ok_iff] at h
      obtain ⟨compiler, hcompiler, rfl⟩ := h
      obtain ⟨language, -, ⟨hfamily, rfl⟩ | ⟨hfamily, rfl⟩⟩ := compiler_ok hcompiler
      · rw [hfamily]
        rfl
      · rw [hfamily]
        rfl
  | link edge =>
      simp only [edgeContribution, linkContribution, bind_eq_ok_iff, pure_eq_ok_iff] at h
      obtain ⟨linker, -, flags, -, libs, -, rfl⟩ := h
      exact (hnone _ (by simp)).symm
  | group edge =>
      obtain rfl := Except.ok.inj h
      exact (hnone _ (by simp)).symm
  | command edge =>
      obtain rfl := Except.ok.inj h
      exact (hnone _ (by simp)).symm

/-- The edges include what each of them does, in their order. -/
theorem includes_edgesContribution (h : edgesContribution env graph = .ok c) :
    c.includes = reportIncludes env.family graph.edges := by
  refine forall_contributions
    (P := fun edges c => c.includes = reportIncludes env.family edges) ?_ ?_ h
  · cases env.family <;> rfl
  · intro edge edges own rest hown hrest
    have hedge : own.includes = reportIncludes env.family [edge] := includes_edgeContribution hown
    rw [includes_append, hedge, hrest, ← reportIncludes_cons]

/-- **The includes of a Makefile**: first those of the edges, then the file beside the Makefile. Nothing
    else includes a file. -/
theorem includes_modelContribution (h : modelContribution env graph = .ok c) :
    c.includes = reportIncludes env.family graph.edges ++ searchIncludes graph := by
  simp only [modelContribution, bind_eq_ok_iff, pure_eq_ok_iff] at h
  obtain ⟨edges, hedges, rfl⟩ := h
  -- directories, the usual targets, installation and tests include nothing
  have hinstall : (installContribution graph.install).includes = [] := by
    unfold installContribution
    split <;> rfl
  have hsearch : (regenerateContribution env graph).includes = searchIncludes graph := by
    simp only [regenerateContribution, searchIncludes, List.isEmpty_iff]
  simp only [includes_append, directoriesContribution, headContribution, tailContribution, hinstall,
    hsearch, includes_edgesContribution hedges, List.nil_append]

end Generation

/-! ## The file that the recipe writes -/

/-- The commands that write the headers of a report behind it once more, each as a target. -/
def headerCommands (report : String) : List String := [
  "@sed -e 's/.*://' -e 's/\\\\$//' < " ++ report ++ " | fmt -1 | \\",
  "  sed -e 's/^ *//' -e 's/$/:/' >> " ++ report]

/-- The commands that make an object of a language, with the file in which headers are reported. -/
def reportingCommands (lang : String) (value : String → List Char) (object source report : String) :
    List String :=
  String.ofList ((value (driverName lang) ++ ' ' :: value (compileFlagsName lang)) ++
    ' ' :: bareText ["-c", source, "-MMD", "-MF", report, "-o", object]) :: headerCommands report

/-- The lines behind the compiler are expanded with the name of the object before `.d`. -/
theorem expand_headerRules (value : String → List Char) (object source : String) :
    (headerRules (.join [(Variable.named "@").toPiece, .plain ".d"])).map (fun line =>
        String.ofList (Make.expand (withNames object source value) line.render.toList)) =
      headerCommands (object ++ ".d") := by
  have hlines : (headerRules (.join [(Variable.named "@").toPiece, .plain ".d"])).map
      Command.render = ["@sed -e 's/.*://' -e 's/\\\\$$//' < $@.d | fmt -1 | \\",
        "  sed -e 's/^ *//' -e 's/$$/:/' >> $@.d"] := by
    decide +kernel
  have hfirst : Make.expand (withNames object source value)
      "@sed -e 's/.*://' -e 's/\\\\$$//' < $@.d | fmt -1 | \\".toList =
        "@sed -e 's/.*://' -e 's/\\\\$//' < ".toList ++ (object.toList ++
          ".d | fmt -1 | \\".toList) := rfl
  have hsecond : Make.expand (withNames object source value)
      "  sed -e 's/^ *//' -e 's/$$/:/' >> $@.d".toList =
        "  sed -e 's/^ *//' -e 's/$/:/' >> ".toList ++ (object.toList ++ ".d".toList) := rfl
  have hmap := congrArg (List.map fun text =>
    String.ofList (Make.expand (withNames object source value) text.toList)) hlines
  rw [List.map_map] at hmap
  refine hmap.trans ?_
  rw [List.map_cons, List.map_singleton, hfirst, hsecond]
  simp only [headerCommands, String.ofList_append, String.ofList_toList, String.append_assoc]
  rfl

/-- **The recipe of a compiler** runs these commands, whatever its object and its source are called. -/
theorem expand_reportingLines {tools : Toolchain} {compiler : Compiler} {edge : CompileEdge}
    (hcompiler : tools.compiler edge.lang = .ok compiler) (hfamily : tools.family = .cc)
    (value : String → List Char) (object source : String) :
    (compileLines compiler).map (fun line =>
        String.ofList (Make.expand (withNames object source value) line.render.toList)) =
      reportingCommands edge.lang value object source (object ++ ".d") := by
  obtain ⟨line, filter, hlines, hline⟩ := expand_compileLine hcompiler hfamily
  obtain rfl : filter = headerRules (.join [(Variable.named "@").toPiece, .plain ".d"]) := by
    obtain ⟨language, -, ⟨-, rfl⟩ | ⟨hmsvc, -⟩⟩ := compiler_ok hcompiler
    · exact (congrArg List.tail hlines).symm
    · exact absurd (hmsvc.symm.trans hfamily) (by decide)
  rw [hlines, List.map_cons, hline, expand_headerRules]
  rfl

/-! ## The main result -/

/-- **The file with the headers of an object has one name**: the name that make reads in the include is that
    of the target with `.d` behind it, which is what the recipe of the target writes and extends. How the
    shell reads it there is another matter. -/
def NamesReport (m : Makefile) (edge : CompileEdge) (inc : Include) : Prop :=
  ∃ (rule : Rule) (target : Piece) (recipe : Variable) (lines : List Command),
    rulesOf m (.compile edge) = [rule] ∧ rule.targets = [target] ∧
    rule.recipe = some (.shared recipe.toPiece) ∧ m.defines.find? recipe = some lines ∧
    ∀ value, ∃ object report,
      Make.readWord Context.specialInTargets value (target.render .target) = object ∧
      Make.readWord Context.specialInTargets value (inc.name.render .target) = report ∧
      report = object ++ ".d" ∧
      ∀ held source,
        lines.map (fun line =>
          String.ofList (Make.expand (withNames object source held) line.render.toList)) =
            reportingCommands edge.lang held object source report

theorem HasCompile.namesReport {m : Makefile} {tools : Toolchain} {edge : CompileEdge}
    (h : HasCompile m tools edge) (hfamily : tools.family = .cc) (hne : edge.output.path.text ≠ "") :
    NamesReport m edge (reportInclude edge) := by
  obtain ⟨compiler, rule, hcompiler, hrule, hrules, hdefined⟩ := h
  refine ⟨rule, _, _, _, hrules, hrule.targets, hrule.recipe, hdefined, fun value => ?_⟩
  have hbare : IsBareEnding ".d" := by decide
  have hname := readWord_addExtension hbare hne value
  refine ⟨_, _, rfl, rfl, hname, fun held source => ?_⟩
  rw [expand_reportingLines hcompiler hfamily]
  exact congrArg _ hname.symm

/-- **The includes of a Makefile.** With a compiler that takes the options of GCC, every Makefile that is
    generated includes one optional file for each compile edge, in the order of the edges, and this is the
    file in which the recipe of the edge reports headers; with Microsoft's there is none. Behind them comes
    the file with the searched directories, exactly if there are any: it is the one that is generated
    beside the Makefile. -/
theorem includes_generate {env : Environment} {graph : BuildGraph} {products : Products}
    (hproducts : generate env graph = .ok products)
    (hne : ∀ edge, .compile edge ∈ graph.edges → edge.output.path.text ≠ "") :
    ∃ m, modelWith usualHandlers env graph = .ok m ∧ products.makefile = m.render ∧
      m.includes = reportIncludes env.family graph.edges ++ searchIncludes graph ∧
      (products.companions ≠ [] ↔ graph.findDirs ≠ []) ∧
      searchIncludes graph = products.companions.map (fun file => ⟨.path ⟨.build, file.name⟩, false⟩) ∧
      (env.family = .cc → ∀ edge, .compile edge ∈ graph.edges →
        NamesReport m edge (reportInclude edge)) := by
  obtain ⟨m, hm, rfl⟩ := generate_eq_ok_iff.mp hproducts
  obtain ⟨c, hc, hfresh, rfl⟩ := modelWith_eq_ok_iff.mp hm
  refine ⟨_, hm, rfl, includes_modelContribution hc, ?_, ?_, fun hfamily edge hedge => ?_⟩
  · show companions graph ≠ [] ↔ graph.findDirs ≠ []
    unfold companions
    cases graph.findDirs <;> simp
  · show searchIncludes graph = (companions graph).map _
    unfold searchIncludes companions
    cases graph.findDirs <;> rfl
  · exact (hasCompile_modelContribution hedge hc hfresh).namesReport hfamily (hne edge hedge)

/-- The build of two files, found in a directory that was searched. -/
def reportedGraph : BuildGraph :=
  { (default : BuildGraph) with
    edges := [.compile mainEdge, .group ⟨.build "lib", []⟩, .compile blankEdge]
    findDirs := [⟨.source, ⟨"src"⟩⟩] }

/-- Both files of headers are included, with the blank in the name of one quoted. -/
theorem includes_reportedGraph :
    ∃ (products : Products) (m : Makefile),
      generate default reportedGraph = .ok products ∧ products.makefile = m.render ∧
      m.includes.map Include.render =
        ["-include obj/main.o.d\n", "-include my\\ obj.o.d\n", "include .mkgen-find-deps\n"] ∧
      products.companions ≠ [] ∧
      NamesReport m mainEdge (reportInclude mainEdge) ∧
      NamesReport m blankEdge (reportInclude blankEdge) := by
  have haccepted : Accepted default reportedGraph :=
    ⟨by simp [EdgeAccepted, reportedGraph, mainEdge, blankEdge], by decide +kernel⟩
  obtain ⟨products, hproducts⟩ := haccepted.generate_succeeds
  have hne : ∀ edge, .compile edge ∈ reportedGraph.edges → edge.output.path.text ≠ "" := by
    intro edge hedge
    simp only [reportedGraph, List.mem_cons, List.not_mem_nil, or_false, Edge.compile.injEq,
      reduceCtorEq, false_or] at hedge
    rcases hedge with rfl | rfl
    · decide
    · decide
  obtain ⟨m, -, hrender, hincludes, hcompanions, -, hnames⟩ := includes_generate hproducts hne
  refine ⟨products, m, hproducts, hrender, ?_, hcompanions.mpr (by decide),
    hnames rfl mainEdge (by decide), hnames rfl blankEdge (by decide)⟩
  rw [hincludes]
  decide +kernel

end MakeGraph.Generate
