import MakeGraph.Proofs.Environment.Saved
import MakeGraph.Proofs.Path.Absolute
import MakeGraph.Proofs.Run.Failure

/-!
# `Proofs.Run.Regenerate` — making a Makefile again

A run that generates leaves in the build directory what its plan says (`FilledWith`): the Makefile,
the file beside it, and the environment, which loads as it was saved. What is generated depends on
nothing else but the description, in particular not on the build directory (`generated_builddir`),
nor on the machine. So making the Makefile again, from wherever and under whatever variables, makes
the same files (`generate_regenerate`).
-/

namespace MakeGraph.Run

open MakeGraph.Outcome (bind_eq_ok_iff pure_eq_ok_iff)
open FileTree
open Generate (Companion Products)
open Invocation (Command Request)

/-! ## Paths that are read -/

theorem isAbsolute_of_absolute {host : Host} (hcwd : host.cwd.isAbsolute = true) {p q : Path}
    (h : absolute host p = .ok q) : q.isAbsolute = true := by
  unfold absolute at h
  split at h
  · rename_i found hfound
    cases h
    exact Path.isAbsolute_of_absolute? hcwd hfound
  · cases h

/-- An absolute path is read as it is, from every current directory. -/
theorem read_of_isAbsolute (host : Host) (tree : FileTree) {file : Path}
    (h : file.isAbsolute = true) : host.read tree file = tree.read file := by
  have hne : file.text.isEmpty = false := by
    simpa using Path.ne_empty_of_isAbsolute h
  rw [Host.read, hne, if_neg (by decide), Path.join_eq_self h]

/-! ## What is generated -/

/-- **What is generated** does not depend on the build directory. -/
theorem generated_builddir (env : Environment) (builddir : Path)
    (contents : Except FileError String) :
    generated { env with builddir } contents = generated env contents :=
  rfl

/-- There is at most one file beside the Makefile. -/
theorem companions_of_mem {graph : BuildGraph} {file : Companion}
    (h : file ∈ Generate.companions graph) : Generate.companions graph = [file] := by
  unfold Generate.companions at h ⊢
  split at h
  · cases h
  · rename_i hsearched
    rw [if_neg hsearched, List.mem_singleton.mp h]

/-! ## Files of one build directory -/

/-- The names of the files that are written to a build directory. -/
def writtenNames : List String :=
  [Generate.makefileName, Environment.fileName, Generate.findDepsName]

theorem isFileName_of_mem_writtenNames {name : String} (h : name ∈ writtenNames) :
    Path.IsFileName name := by
  revert name
  decide

/-- The names of the files that are made again: the Makefile, and the file beside it if any
    directory was searched. -/
def remadeNames (graph : BuildGraph) : List String :=
  if graph.findDirs.isEmpty then [Generate.makefileName]
  else [Generate.findDepsName, Generate.makefileName]

theorem makefileName_mem_remadeNames (graph : BuildGraph) :
    Generate.makefileName ∈ remadeNames graph := by
  unfold remadeNames
  split <;> simp

theorem findDepsName_mem_remadeNames {graph : BuildGraph} {file : Companion}
    (h : file ∈ Generate.companions graph) : Generate.findDepsName ∈ remadeNames graph := by
  unfold Generate.companions at h
  unfold remadeNames
  split at h
  · cases h
  · rename_i hsearched
    rw [if_neg hsearched]
    exact List.mem_cons_self

theorem remadeNames_subset (graph : BuildGraph) : remadeNames graph ⊆ writtenNames := by
  unfold remadeNames
  split <;> decide

/-! ## Filling a build directory -/

/-- A build directory holds what was generated for it. -/
structure FilledWith (tree : FileTree) (builddir : Path) (products : Products) : Prop where
  makefile : tree.read (makefileOf builddir) = .ok products.makefile
  companions : ∀ file ∈ products.companions,
    tree.read (builddir.join file.name) = .ok file.contents

/-- Two build directories that hold the same products hold the same files. -/
theorem FilledWith.exists_contents {tree tree' : FileTree} {builddir builddir' : Path}
    {products : Products} {graph : BuildGraph}
    (hcompanions : products.companions = Generate.companions graph)
    (h : FilledWith tree builddir products) (h' : FilledWith tree' builddir' products)
    {name : String} (hname : name ∈ remadeNames graph) :
    ∃ contents, tree.read (builddir.join ⟨name⟩) = .ok contents ∧
      tree'.read (builddir'.join ⟨name⟩) = .ok contents := by
  unfold remadeNames at hname
  split at hname
  · rw [List.mem_singleton.mp hname]
    exact ⟨products.makefile, h.makefile, h'.makefile⟩
  · rename_i hsearched
    rcases List.mem_cons.mp hname with hbeside | hname
    · have hfile : Companion.mk ⟨Generate.findDepsName⟩ (Generate.findDepsText graph.findDirs) ∈
          products.companions := by
        rw [hcompanions, Generate.companions, if_neg hsearched]
        exact List.mem_singleton_self _
      have hcontents := h.companions _ hfile
      have hcontents' := h'.companions _ hfile
      rw [hbeside]
      exact ⟨_, hcontents, hcontents'⟩
    · rw [List.mem_singleton.mp hname]
      exact ⟨products.makefile, h.makefile, h'.makefile⟩

section Fill

variable {env : Environment} {graph : BuildGraph} {products : Products} {tree later : FileTree}

/-- Every file that is written to a build directory has a name of its own. -/
theorem exists_name_of_fills {builddir : Path} {effects : List Effect}
    (h : Fills builddir effects) {file : Path} (hfile : file ∈ effects.flatMap Effect.files) :
    ∃ name ∈ writtenNames, file = builddir.join ⟨name⟩ := by
  obtain ⟨before, makefile, rfl, -, hfiles⟩ := h
  rw [List.flatMap_append] at hfile
  rcases List.mem_append.mp hfile with hbefore | hlast
  · have hbeside := hfiles hbefore
    simp only [besideMakefile, List.mem_cons, List.not_mem_nil, or_false] at hbeside
    rcases hbeside with rfl | rfl
    · exact ⟨Generate.findDepsName, by decide, rfl⟩
    · exact ⟨Environment.fileName, by decide, rfl⟩
  · exact ⟨Generate.makefileName, by decide, List.mem_singleton.mp hlast⟩

/-- **What filling writes** is there in the end, since each file has a place of its own. -/
theorem filledWith_of_carried (hcompanions : products.companions = Generate.companions graph)
    {saved : List Effect} (hsaved : saved ⊆ [save env])
    (h : Carried tree (fill env products saved) later none) :
    FilledWith later env.builddir products where
  makefile := h.read_of_written (fill_eq env products saved) rfl fun _ _ _ hother => nomatch hother
  companions := by
    intro file hfile
    rw [hcompanions] at hfile
    have hname := name_of_companion hfile
    have hfill : fill env products saved = [.makeDirectories env.builddir] ++
        .replace (env.builddir.join file.name) file.contents ::
          (saved ++ [.replace (makefileOf env.builddir) products.makefile]) := by
      rw [fill, hcompanions, companions_of_mem hfile]
      rfl
    refine h.read_of_written hfill rfl fun place hplace other hother => ?_
    rw [hname] at hplace
    rw [List.flatMap_append] at hother
    rcases List.mem_append.mp hother with hsave | hmakefile
    · rw [files_of_saved hsaved hsave]
      exact reach_join_ne isFileName_findDepsName isFileName_environment (by decide) hplace
    · rw [List.mem_singleton.mp hmakefile]
      exact reach_join_ne isFileName_findDepsName isFileName_makefileName (by decide) hplace

/-- The environment that was saved is there in the end. -/
theorem read_savedPath (h : Carried tree (fill env products [save env]) later none) :
    later.read (Environment.savedPath env.builddir) = .ok env.print := by
  have hfill : fill env products [save env] =
      (.makeDirectories env.builddir ::
        products.companions.map fun file => .replace (env.builddir.join file.name) file.contents) ++
      save env :: [.replace (makefileOf env.builddir) products.makefile] := by
    rw [fill, List.append_assoc]
    rfl
  refine h.read_of_written hfill rfl fun place hplace other hother => ?_
  rw [List.mem_singleton.mp hother]
  exact reach_join_ne isFileName_environment isFileName_makefileName (by decide) hplace

/-- Where the environment can be read, the other files can be written: both names are shorter, so
    there is a way to them too. -/
theorem writable_of_saved {builddir : Path} {text : String}
    (hsaved : tree.read (Environment.savedPath builddir) = .ok text)
    (hdirs : ∀ name ∈ remadeNames graph, tree.lookUp (builddir.join ⟨name⟩) ≠ .ok .directory)
    {name : String} (hname : name ∈ remadeNames graph) : Writable tree (builddir.join ⟨name⟩) := by
  obtain ⟨place, hreach, -⟩ := lookUp_eq_ok_iff.mp (read_eq_ok_iff.mp hsaved)
  have hshort : ∀ name ∈ writtenNames, name.utf8ByteSize ≤ Environment.fileName.utf8ByteSize := by
    decide
  have hwritten := remadeNames_subset graph hname
  have hfileName := isFileName_of_mem_writtenNames hwritten
  exact ⟨reach_join_shorter isFileName_environment hfileName (hshort name hwritten) hreach,
    Path.endsInSlash_join _ hfileName, hdirs name hname⟩

/-- Filling a build directory without saving the environment leaves the saved one as it is. -/
theorem read_savedPath_of_fill (hcompanions : products.companions = Generate.companions graph)
    (h : Carried tree (fill env products []) later none) {text : String}
    (hsaved : tree.read (Environment.savedPath env.builddir) = .ok text) :
    later.read (Environment.savedPath env.builddir) = .ok text := by
  refine read_eq_ok_iff.mpr (h.extends_flatMap.lookUp (read_eq_ok_iff.mp hsaved)
    fun place hplace file hfile => ?_)
  rw [fill_eq, List.flatMap_append] at hfile
  rcases List.mem_append.mp hfile with hbefore | hlast
  · rcases files_beforeMakefile hcompanions hbefore with rfl | hnone
    · exact reach_join_ne isFileName_environment isFileName_findDepsName (by decide) hplace
    · exact absurd hnone List.not_mem_nil
  · rw [List.mem_singleton.mp hlast]
    exact reach_join_ne isFileName_environment isFileName_makefileName (by decide) hplace

/-- **A build directory can be filled again** where its environment can be read, unless a directory
    is in the place of a file. -/
theorem exists_carryOut_fill (env : Environment)
    (hcompanions : products.companions = Generate.companions graph)
    (hbuilddir : env.builddir.text ≠ "") {text : String}
    (hsaved : tree.read (Environment.savedPath env.builddir) = .ok text)
    (hdirs : ∀ name ∈ remadeNames graph, tree.lookUp (env.builddir.join ⟨name⟩) ≠ .ok .directory) :
    ∃ later, carryOut tree none (fill env products []) = (later, none) := by
  -- the build directory is there, so nothing has to be made
  obtain ⟨place, hreach, -⟩ := lookUp_eq_ok_iff.mp (read_eq_ok_iff.mp hsaved)
  obtain ⟨above, habove, hdirectory⟩ :=
    directory_of_reach_join hbuilddir isFileName_environment hreach
  have hthere : tree.makeDirectories env.builddir = (tree, none) :=
    makeDirectories_of_directory (lookUp_eq_ok_iff.mpr ⟨above, habove, hdirectory, fun _ => rfl⟩)
  rw [fill, List.append_nil, List.cons_append, carryOut, Effect.perform, hthere]
  refine carryOut_writes fun effect heffect => ?_
  rcases List.mem_append.mp heffect with hbeside | hlast
  · obtain ⟨file, hfile, rfl⟩ := List.mem_map.mp hbeside
    rw [hcompanions] at hfile
    refine ⟨_, _, rfl, ?_⟩
    rw [name_of_companion hfile]
    exact writable_of_saved hsaved hdirs (findDepsName_mem_remadeNames hfile)
  · rw [List.mem_singleton.mp hlast]
    exact ⟨_, _, rfl, writable_of_saved hsaved hdirs (makefileName_mem_remadeNames graph)⟩

end Fill

/-! ## Generating and making again -/

/-- Printing prints the Makefile that would be generated. -/
theorem run_print {host : Host} {request : Request} {description : Path} {env : Environment}
    {products : Products} {state : FileTree}
    (hdescription : absolute host request.description = .ok description)
    (henv : environment host request description = .ok env)
    (hmade : generated env (host.read state description) = .ok products)
    (interruption : Option Interruption) :
    run host state interruption (.print request) = ⟨state, .ok products.makefile⟩ := by
  have hplan : (plan host (.print request)).resolve (host.read state) =
      .ok ⟨products.makefile, []⟩ :=
    resolve_planRequest.mpr ⟨description, env, products, hdescription, henv, hmade, rfl⟩
  rw [run_of_ok hplan, carryOut]

/-- Making a Makefile again fills the build directory with what is generated under the environment
    that is saved there. -/
theorem run_regenerate {host : Host} {tree : FileTree} {dir builddir : Path} {env : Environment}
    {products : Products} {graph : BuildGraph} (hcwd : host.cwd.isAbsolute = true)
    (hdir : absolute host dir = .ok builddir)
    (hsaved : tree.read (Environment.savedPath builddir) = .ok env.print)
    (hmade : generated env (host.read tree env.description) = .ok products)
    (hcompanions : products.companions = Generate.companions graph)
    (hdirs : ∀ name ∈ remadeNames graph, tree.lookUp (builddir.join ⟨name⟩) ≠ .ok .directory) :
    ∃ restored, run host tree none (.regenerate dir) = ⟨restored, .ok ""⟩ ∧
      FilledWith restored builddir products ∧
      restored.read (Environment.savedPath builddir) = .ok env.print := by
  have habsolute := isAbsolute_of_absolute hcwd hdir
  have hload : Environment.load builddir (host.read tree (Environment.savedPath builddir)) =
      .ok env := by
    have hfile : (Environment.savedPath builddir).isAbsolute = true :=
      Path.isAbsolute_join habsolute _
    rw [read_of_isAbsolute host tree hfile, hsaved, Environment.load_print]
  have hplan : (plan host (.regenerate dir)).resolve (host.read tree) =
      .ok ⟨"", fill { env with builddir } products []⟩ :=
    resolve_planAgain.mpr ⟨builddir, env, products, hdir, hload, hmade, rfl⟩
  obtain ⟨restored, hcarry⟩ := exists_carryOut_fill { env with builddir } hcompanions
    (Path.ne_empty_of_isAbsolute habsolute) hsaved hdirs
  have hcarried := carried_carryOut tree none (fill { env with builddir } products [])
  rw [hcarry] at hcarried
  refine ⟨restored, ?_, filledWith_of_carried hcompanions (List.nil_subset _) hcarried,
    read_savedPath_of_fill hcompanions hcarried hsaved⟩
  rw [run_of_ok hplan, hcarry]

/-- What a run that generates has done, by its environment and its graph. -/
theorem exists_of_generate {host : Host} {tree after : FileTree}
    {interruption : Option Interruption} {request : Request} {description : Path}
    {output : String} (hcwd : host.cwd.isAbsolute = true)
    (hdescription : absolute host request.description = .ok description)
    (hrun : run host tree interruption (.generate request) = ⟨after, .ok output⟩) :
    ∃ env text graph products, environment host request description = .ok env ∧
      tree.read description = .ok text ∧ BuildGraph.parse text = .ok graph ∧
      Generate.generate env graph = .ok products ∧
      Carried tree (fill env products [save env]) after none := by
  have hresult : (run host tree interruption (.generate request)).result = .ok output := by
    rw [hrun]
  obtain ⟨made, hplan, -, hcarried⟩ := carried_of_succeeded hresult
  rw [hrun] at hcarried
  obtain ⟨found, env, products, hfound, henv, hmade, rfl⟩ := resolve_planRequest.mp hplan
  obtain rfl : found = description := Except.ok.inj (hfound.symm.trans hdescription)
  rw [read_of_isAbsolute host tree (isAbsolute_of_absolute hcwd hdescription)] at hmade
  obtain ⟨text, graph, htext, hparse, hgenerate⟩ := generated_eq_ok_iff.mp hmade
  exact ⟨env, text, graph, products, henv, htext, hparse, hgenerate, hcarried⟩

/-- **Making a Makefile again.** After a successful run that generates, and whose description is
    none of the files that it writes, printing gives the text of the Makefile that was written.
    Making it again gives the same files as before, from any directory and on any machine, as long
    as the description and the saved environment are the same and no directory is in the place of a
    file. -/
theorem generate_regenerate {host : Host} {tree after : FileTree}
    {interruption : Option Interruption} {request : Request} {description builddir : Path}
    {output : String} (hcwd : host.cwd.isAbsolute = true)
    (hdescription : absolute host request.description = .ok description)
    (hbuilddir : absolute host request.builddir = .ok builddir)
    (hrun : run host tree interruption (.generate request) = ⟨after, .ok output⟩)
    (hother : ∀ name ∈ writtenNames,
      after.reach (builddir.join ⟨name⟩) ≠ after.reach description) :
    (∃ makefile, after.read (makefileOf builddir) = .ok makefile ∧
      ∀ state ∈ [tree, after], ∀ interruption',
        run host state interruption' (.print request) = ⟨state, .ok makefile⟩) ∧
    ∃ text graph, after.read description = .ok text ∧ BuildGraph.parse text = .ok graph ∧
      ∀ (host' : Host) (tree' : FileTree) (dir builddir' : Path),
        host'.cwd.isAbsolute = true → absolute host' dir = .ok builddir' →
        tree'.read description = after.read description →
        tree'.read (Environment.savedPath builddir') =
          after.read (Environment.savedPath builddir) →
        (∀ name ∈ remadeNames graph, tree'.lookUp (builddir'.join ⟨name⟩) ≠ .ok .directory) →
        ∃ restored, run host' tree' none (.regenerate dir) = ⟨restored, .ok ""⟩ ∧
          ∀ name ∈ Environment.fileName :: remadeNames graph, ∃ contents,
            after.read (builddir.join ⟨name⟩) = .ok contents ∧
              restored.read (builddir'.join ⟨name⟩) = .ok contents := by
  obtain ⟨env, text, graph, products, henv, hbefore, hparse, hgenerate, hcarried⟩ :=
    exists_of_generate hcwd hdescription hrun
  obtain ⟨henvdir, henvdescription⟩ := environment_fields henv
  obtain rfl : builddir = env.builddir := Except.ok.inj (hbuilddir.symm.trans henvdir)
  have hcompanions := companions_of_generate hgenerate
  -- wherever the description is read as the same text, the same is generated
  have hmade : ∀ (host' : Host) (state : FileTree), state.read description = .ok text →
      generated env (host'.read state description) = .ok products := by
    intro host' state hstate
    rw [read_of_isAbsolute host' state (isAbsolute_of_absolute hcwd hdescription)]
    exact generated_eq_ok_iff.mpr ⟨text, graph, hstate, hparse, hgenerate⟩
  have hafter : after.read description = .ok text := by
    refine read_eq_ok_iff.mpr (hcarried.extends_flatMap.lookUp (read_eq_ok_iff.mp hbefore)
      fun place hplace file hfile hreach => ?_)
    obtain ⟨name, hname, rfl⟩ := exists_name_of_fills
      (fills_fill (hmade host tree hbefore) (List.Subset.refl _)) hfile
    exact hother name hname (hreach.trans hplace.symm)
  have hfilled := filledWith_of_carried hcompanions (List.Subset.refl _) hcarried
  have hsaved := read_savedPath hcarried
  refine ⟨⟨products.makefile, hfilled.makefile, ?_⟩, text, graph, hafter, hparse, ?_⟩
  · intro state hstate interruption'
    have hread : state.read description = .ok text := by
      rcases List.mem_cons.mp hstate with rfl | hstate
      · exact hbefore
      · rw [List.mem_singleton.mp hstate]
        exact hafter
    exact run_print hdescription henv (hmade host state hread) interruption'
  · intro host' tree' dir builddir' hcwd' hdir hsame hsavedSame hdirs
    have hagain : generated env (host'.read tree' env.description) = .ok products := by
      rw [henvdescription]
      exact hmade host' tree' (hsame.trans hafter)
    obtain ⟨restored, hrestored, hrefilled, hresaved⟩ :=
      run_regenerate hcwd' hdir (hsavedSame.trans hsaved) hagain hcompanions hdirs
    refine ⟨restored, hrestored, fun name hname => ?_⟩
    rcases List.mem_cons.mp hname with rfl | hname
    · exact ⟨env.print, hsaved, hresaved⟩
    · exact hfilled.exists_contents hcompanions hrefilled hname

/-- A description with a directory that is searched. -/
def searchedProject : FileTree :=
  ⟨[(["work"], .directory), (["work", "build.json"],
    .file "\x7b\"mkgen_version\":\"1.0.0\",\"find_dirs\":[\"src\"]\x7d")]⟩

/-- What generating makes of it. -/
def generatedProject : FileTree :=
  (run bareHost searchedProject none (.generate (projectRequest "build"))).tree

/-- What is left of that when the Makefile was edited. -/
def editedProject : FileTree :=
  generatedProject.put ["work", "build", "Makefile"] (.file "edited")

/-- Another compiler, seen from the build directory. -/
def clangHost : Host where
  cwd := ⟨"/work/build"⟩
  generator := ⟨"/usr/bin/mkgen"⟩
  valueOf? := fun name => if name = "CC" then some "clang" else none

/-- An edited Makefile is made again in its build directory, with what printing it gave before. -/
theorem generate_regenerate_edited : ∃ makefile restored,
    run bareHost searchedProject none (.print (projectRequest "build")) =
      ⟨searchedProject, .ok makefile⟩ ∧
    run clangHost editedProject none (.regenerate ⟨"."⟩) = ⟨restored, .ok ""⟩ ∧
    restored.read ⟨"/work/build/Makefile"⟩ = .ok makefile := by
  -- everything that has to be computed, at once
  have hfacts :
      (run bareHost searchedProject none (.generate (projectRequest "build"))).result = .ok "" ∧
      (∀ name ∈ writtenNames, generatedProject.reach (Path.join ⟨"/work/build"⟩ ⟨name⟩) ≠
        generatedProject.reach ⟨"/work/build.json"⟩) ∧
      editedProject.read ⟨"/work/build.json"⟩ = generatedProject.read ⟨"/work/build.json"⟩ ∧
      editedProject.read (Environment.savedPath ⟨"/work/build"⟩) =
        generatedProject.read (Environment.savedPath ⟨"/work/build"⟩) ∧
      ∀ name ∈ writtenNames,
        editedProject.lookUp (Path.join ⟨"/work/build"⟩ ⟨name⟩) ≠ .ok .directory := by
    decide +kernel
  obtain ⟨hresult, hother, hsame, hsaved, hdirs⟩ := hfacts
  have houtcome : ∀ outcome : Outcome, outcome.result = .ok "" → outcome = ⟨outcome.tree, .ok ""⟩ := by
    rintro ⟨tree, result⟩ rfl
    rfl
  have hrun := houtcome _ hresult
  have hdescription : absolute bareHost ⟨"build.json"⟩ = .ok ⟨"/work/build.json"⟩ := by decide
  have hbuilddir : absolute bareHost ⟨"build"⟩ = .ok ⟨"/work/build"⟩ := by decide
  obtain ⟨⟨makefile, hmakefile, hprint⟩, text, graph, -, -, hagain⟩ :=
    generate_regenerate (by decide) hdescription hbuilddir hrun hother
  obtain ⟨restored, hrestored, hfiles⟩ := hagain clangHost editedProject ⟨"."⟩ ⟨"/work/build"⟩
    (by decide) (by decide) hsame hsaved fun name hname => hdirs name (remadeNames_subset graph hname)
  obtain ⟨contents, hbefore, hafter⟩ := hfiles Generate.makefileName
    (List.mem_cons_of_mem _ (makefileName_mem_remadeNames graph))
  obtain rfl : contents = makefile := Except.ok.inj (hbefore.symm.trans hmakefile)
  exact ⟨contents, restored, hprint searchedProject List.mem_cons_self none, hrestored, hafter⟩

end MakeGraph.Run
