import MakeGraph.Proofs.Generate.Acceptance
import MakeGraph.Proofs.Generate.Closed
import MakeGraph.Proofs.Generate.SharedVariables
import MakeGraph.Proofs.Make.Held

/-!
# `Proofs.Generate.RootedPaths` — paths below the directories of the configuration

A path below a root is written as a reference to the root's variable with the escaped path behind it.
The variable holds the directory that was given for the root, written once for all places: a recipe puts
it into a word of the shell, a header among the names of make.

The value is the directory with its dollars doubled and nothing else. So every path below it is read
back in a place exactly if the directory needs no more than that, neither in the line that assigns it
nor in the place (`readAs?_rooted_iff`). A directory with a blank in its name does
(`readAs?_blankDirectory`).

## Contents

* `chosenDir?` — the directories that are given
* `find?_globals_root` — the variables of roots
* `readAs?_rooted_iff` — the main result
-/

namespace MakeGraph.Generate

open Make (Command Context Makefile Piece Variable)
open Outcome

section Roots

variable {env : Environment} {graph : BuildGraph} {c : Contribution} {root : Root} {dir : Path}

/-- **The directory that is given** for a root, if it does not follow another one. -/
def chosenDir? (env : Environment) : Root → Option Path
  | .source => some env.srcdir
  | .installPrefix => some env.installDirs.prefixDir
  | .execPrefix => env.installDirs.execPrefix
  | .bin => env.installDirs.bin
  | .lib => env.installDirs.lib
  | .headers => env.installDirs.headers
  | .data => env.installDirs.data
  | .build | .absolute => none

/-- A root with a directory has a variable, which holds the directory. -/
theorem rootValue?_of_chosenDir? (h : chosenDir? env root = some dir) :
    root.variableName? = some root.name ∧ rootValue? env root = some (.plain dir.text) := by
  cases root with
  | build => cases h
  | absolute => cases h
  | source =>
      obtain rfl := Option.some.inj h
      exact ⟨rfl, rfl⟩
  | installPrefix =>
      obtain rfl := Option.some.inj h
      exact ⟨rfl, rfl⟩
  | execPrefix | bin | lib | headers | data =>
      refine ⟨rfl, ?_⟩
      change _ = some dir at h
      simp only [rootValue?, InstallDirs.value?, reduceCtorEq, if_false]
      simp only [chosenDir?] at h
      rw [h]
      rfl

/-- What the directories offer for the variable of a root. -/
theorem findSome?_directories (h : chosenDir? env root = some dir) :
    (directoriesContribution env).declarations.findSome? (Declaration.global? ⟨root.name⟩) =
      some (.line (.plain dir.text)) := by
  obtain ⟨hname, hvalue⟩ := rootValue?_of_chosenDir? h
  have hdeclared : directoryDeclaration? env root =
      some (.global ⟨root.name⟩ (.line (.plain dir.text))) := by
    unfold directoryDeclaration?
    rw [hname, hvalue, ← named_variableName hname]
  have hanchored : root ∈ Root.anchored := by
    cases root with
    | build => cases hname
    | absolute => cases hname
    | _ => decide
  have hsome : ((directoriesContribution env).declarations.findSome?
      (Declaration.global? ⟨root.name⟩)).isSome := by
    rw [List.findSome?_isSome_iff]
    exact ⟨_, List.mem_filterMap.mpr ⟨root, hanchored, hdeclared⟩,
      by rw [Declaration.global?, if_pos rfl]; rfl⟩
  obtain ⟨found, hfound⟩ := Option.isSome_iff_exists.mp hsome
  obtain ⟨d, hd, hoffer⟩ := List.exists_of_findSome?_eq_some hfound
  obtain ⟨other, -, hother⟩ := List.mem_filterMap.mp hd
  -- no other root has a variable of this name
  obtain ⟨value, rfl⟩ := directoryDeclaration?_eq_some hother
  rw [Declaration.global?] at hoffer
  split at hoffer
  · next heq =>
      obtain rfl := root_name_injective (Variable.mk.inj heq)
      rw [hdeclared] at hother
      rw [hfound, ← hoffer, ← (Declaration.global.inj (Option.some.inj hother)).2]
  · cases hoffer

/-- **The variable of a root** holds the directory as a line. -/
theorem find?_globals_root (hdir : chosenDir? env root = some dir)
    (h : modelContribution env graph = .ok c) :
    (extend .empty c).globals.find? ⟨root.name⟩ = some (.line (.plain dir.text), .simple) := by
  obtain ⟨hname, -⟩ := rootValue?_of_chosenDir? hdir
  have hempty : Makefile.empty.globals.find? ⟨root.name⟩ = none := by
    cases root <;> rfl
  obtain ⟨edges, -, hdeclarations⟩ := modelContribution_declarations h
  have hprogram : ∀ stem ∈ programStems, programVariable stem ≠ ⟨root.name⟩ := by
    intro stem hstem
    exact programVariable_ne_root stem hstem root (by cases root <;> decide)
  have hfind := find?_globals_adoptAll (m := .empty) rfl
    (spares_of_name (variable_of_root hname).2 hprogram h)
  rw [hempty, Option.none_or, hdeclarations, List.findSome?_append, findSome?_directories hdir]
    at hfind
  rw [← hdeclarations] at hfind
  exact hfind

/-- **What a root's variable holds** is read from the directory with its dollars doubled. -/
theorem holds?_root (value : String → List Char) (hdir : chosenDir? env root = some dir)
    (h : modelContribution env graph = .ok c) :
    (extend .empty c).holds? value root.name =
      Make.readAssigned? value (Make.doubleDollars dir.text.toList) := by
  have hline : (" " ++ (Command.line (.plain dir.text)).render ++ "\n").toList =
      ' ' :: (Make.doubleDollars dir.text.toList ++ ['\n']) := by
    have hrender : (Command.line (.plain dir.text)).render.toList =
        Make.doubleDollars dir.text.toList := by
      rw [Command.render, Piece.render_plain, Make.escape, String.toList_ofList]
      rfl
    rw [String.toList_append, String.toList_append, hrender]
    rfl
  rw [Makefile.holds?, find?_globals_root hdir h]
  dsimp only
  rw [hline, Make.readAssigned?_line]

/-- **A path below a root** is expanded to what the variable holds and the path behind it. -/
theorem expand_renderPath (value : String → List Char) (hname : root.variableName? = some root.name)
    (context : Context) {text : String} (htext : text ≠ "") :
    Make.expand value (Make.renderPath context ⟨root, ⟨text⟩⟩).toList =
      value root.name ++ '/' :: Make.expand value (Make.escapeChars context text.toList) := by
  have hbelow : ¬ (RootedPath.mk root ⟨text⟩).isRootItself = true := by
    simpa [RootedPath.isRootItself] using htext
  have hrender : (Make.renderPath context ⟨root, ⟨text⟩⟩).toList =
      (Make.reference root.name).toList ++ ('/' :: Make.escapeChars context text.toList) := by
    unfold Make.renderPath
    rw [hname]
    dsimp only
    rw [if_neg hbelow, String.toList_append, String.toList_append, List.append_assoc]
    exact congrArg (_ ++ '/' :: ·) String.toList_ofList
  rw [hrender, Make.expand_reference value (Make.isPlainName_root hname),
    Make.expand_cons value (by decide)]

end Roots

/-! ## The main result -/

/-- **Paths below a directory are read back** exactly where the directory can be assigned and fits the
    place. In every Makefile that is generated, the variable of a root with a directory holds what make
    reads of its line, a path below the root is expanded with that in front, and this is read as one
    word or name, the directory with the path below it. -/
theorem readAs?_rooted_iff {env : Environment} {graph : BuildGraph} {products : Products}
    (hproducts : generate env graph = .ok products) {root : Root} {dir : Path}
    (hdir : chosenDir? env root = some dir) (hne : dir.text ≠ "") {context : Context}
    (hcontext : context ∈ Make.wordContexts) (value : String → List Char) :
    ∃ m, modelWith usualHandlers env graph = .ok m ∧ products.makefile = m.render ∧
      ((∀ text, Make.IsBelow context text → ∃ held, m.holds? value root.name = some held ∧
          Make.readAs? context (Make.expand (Function.update value root.name held)
            (Make.renderPath context ⟨root, ⟨text⟩⟩).toList) = some [dir.text ++ "/" ++ text]) ↔
        Make.IsAssignable dir.text.toList ∧ Make.FitsPlace context dir.text.toList) := by
  obtain ⟨m, hm, rfl⟩ := generate_eq_ok_iff.mp hproducts
  obtain ⟨c, hc, -, rfl⟩ := modelWith_eq_ok_iff.mp hm
  refine ⟨_, hm, rfl, ?_⟩
  obtain ⟨hname, -⟩ := rootValue?_of_chosenDir? hdir
  have hchars : dir.text.toList ≠ [] := fun hnil => hne (String.toList_eq_nil_iff.mp hnil)
  rw [← Make.readAs?_assigned_iff value hcontext hchars, holds?_root value hdir hc]
  refine forall_congr' fun text => forall_congr' fun hbelow => exists_congr fun held => ?_
  have hjoin : dir.text ++ "/" ++ text = String.ofList (dir.text.toList ++ '/' :: text.toList) := by
    rw [← String.toList_inj, String.toList_ofList, String.toList_append, String.toList_append,
      List.append_assoc]
    rfl
  rw [expand_renderPath _ hname context hbelow.ne_empty, Function.update_self, hjoin,
    Make.expand_escapeChars hcontext (Function.update value root.name held) value]

/-- Every prerequisite below a plain source directory is read back. -/
theorem readAs?_plainDirectory :
    ∃ (products : Products) (m : Makefile),
      generate { (default : Environment) with srcdir := ⟨"/work/$src"⟩ } default = .ok products ∧
      products.makefile = m.render ∧
      ∀ text, Make.IsBelow .dependency text → ∃ held, m.holds? (fun _ => []) "srcdir" = some held ∧
        Make.readAs? .dependency (Make.expand (Function.update (fun _ => []) "srcdir" held)
          (Make.renderPath .dependency ⟨.source, ⟨text⟩⟩).toList) =
            some ["/work/$src" ++ "/" ++ text] := by
  have haccepted : Accepted { (default : Environment) with srcdir := ⟨"/work/$src"⟩ } default :=
    ⟨fun edge hedge => absurd hedge List.not_mem_nil, by decide +kernel⟩
  obtain ⟨products, hproducts⟩ := haccepted.generate_succeeds
  have hdir : chosenDir? { (default : Environment) with srcdir := ⟨"/work/$src"⟩ } .source =
      some ⟨"/work/$src"⟩ := rfl
  have hcontext : .dependency ∈ Make.wordContexts := by decide
  have hassignable : Make.IsAssignable "/work/$src".toList := by decide
  have hfits : Make.FitsPlace .dependency "/work/$src".toList := by decide
  obtain ⟨m, -, hrender, hiff⟩ :=
    readAs?_rooted_iff hproducts hdir (by decide) hcontext fun _ => []
  exact ⟨products, m, hproducts, hrender, hiff.mpr ⟨hassignable, hfits⟩⟩

/-- **A directory with a blank** in its name is two words for the shell and two names for make. -/
theorem readAs?_blankDirectory :
    ∃ (m : Makefile) (held : List Char),
      modelWith usualHandlers { (default : Environment) with srcdir := ⟨"/my src"⟩ } default = .ok m ∧
      m.holds? (fun _ => []) "srcdir" = some held ∧
      ∀ context ∈ Make.wordContexts,
        Make.readAs? context (Make.expand (Function.update (fun _ => []) "srcdir" held)
          (Make.renderPath context ⟨.source, ⟨"a.c"⟩⟩).toList) = some ["/my", "src/a.c"] := by
  have haccepted : Accepted { (default : Environment) with srcdir := ⟨"/my src"⟩ } default :=
    ⟨fun edge hedge => absurd hedge List.not_mem_nil, by decide +kernel⟩
  obtain ⟨products, hproducts⟩ := haccepted.generate_succeeds
  obtain ⟨m, hm, -⟩ := generate_eq_ok_iff.mp hproducts
  obtain ⟨c, hc, -, rfl⟩ := modelWith_eq_ok_iff.mp hm
  have hdir : chosenDir? { (default : Environment) with srcdir := ⟨"/my src"⟩ } .source =
      some ⟨"/my src"⟩ := rfl
  have hheld := holds?_root (fun _ => []) hdir hc
  refine ⟨_, "/my src".toList, hm, hheld.trans (by decide +kernel), fun context hcontext => ?_⟩
  have hself : Function.update (fun _ => []) "srcdir" "/my src".toList Root.source.name =
      "/my src".toList := Function.update_self _ _ _
  rw [expand_renderPath _ rfl context (by decide), hself,
    Make.expand_escapeChars hcontext _ fun _ => []]
  revert context
  decide +kernel

end MakeGraph.Generate
