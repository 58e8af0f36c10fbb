import MakeGraph.Proofs.Run.Effects

/-!
# `Proofs.Run.Planned` — what a plan is made of

A plan is worked out from what two files hold, and it either fails before any effect or fills a
build directory (`resolve_planRequest`, `resolve_planAgain`). Whatever the command is, its effects
end with the Makefile, and before that only the two other files of the build directory are written
(`fills_of_resolve`).
-/

namespace MakeGraph.Run

open MakeGraph.Outcome (bind_eq_ok_iff mapError_eq_ok_iff pure_eq_ok_iff)
open Generate (Products)
open Invocation (Command Request)

/-! ## Inversion -/

/-- The environment of a request has the build directory and the description of the request. -/
theorem environment_fields {host : Host} {request : Request} {description : Path}
    {env : Environment} (h : environment host request description = .ok env) :
    absolute host request.builddir = .ok env.builddir ∧ env.description = description := by
  unfold environment at h
  cases hsrcdir : request.srcdir with
  | none =>
      simp only [hsrcdir, MakeGraph.Outcome.bind_ok, bind_eq_ok_iff, pure_eq_ok_iff] at h
      obtain ⟨builddir, hbuilddir, tools, -, rfl⟩ := h
      exact ⟨hbuilddir, rfl⟩
  | some dir =>
      simp only [hsrcdir, bind_eq_ok_iff, pure_eq_ok_iff] at h
      obtain ⟨srcdir, -, builddir, hbuilddir, tools, -, rfl⟩ := h
      exact ⟨hbuilddir, rfl⟩

/-- What is generated comes from a description that can be read and that holds a graph. -/
theorem generated_eq_ok_iff {env : Environment} {contents : Except FileError String}
    {products : Products} :
    generated env contents = .ok products ↔
      ∃ text graph, contents = .ok text ∧ BuildGraph.parse text = .ok graph ∧
        Generate.generate env graph = .ok products := by
  unfold generated
  simp only [bind_eq_ok_iff, mapError_eq_ok_iff]
  constructor
  · rintro ⟨text, hread, graph, hparse, hmade⟩
    exact ⟨text, graph, hread, hparse, hmade⟩
  · rintro ⟨text, graph, hread, hparse, hmade⟩
    exact ⟨text, hread, graph, hparse, hmade⟩

/-- The files beside a Makefile are those of its graph. -/
theorem companions_of_generate {env : Environment} {graph : BuildGraph} {products : Products}
    (h : Generate.generate env graph = .ok products) :
    products.companions = Generate.companions graph := by
  unfold Generate.generate Generate.generateBy at h
  simp only [bind_eq_ok_iff, pure_eq_ok_iff] at h
  obtain ⟨m, -, rfl⟩ := h
  rfl

theorem name_of_companion {graph : BuildGraph} {file : Generate.Companion}
    (h : file ∈ Generate.companions graph) : file.name = ⟨Generate.findDepsName⟩ := by
  unfold Generate.companions at h
  split at h
  · cases h
  · rw [List.mem_singleton.mp h]

section Plans

variable {host : Host} {contents : Path → Except FileError String} {plan : Plan}

/-- **The plan of a request** comes from the environment of the request and from the description. -/
theorem resolve_planRequest {request : Request} {finish : Environment → Products → Plan} :
    (planRequest host request finish).resolve contents = .ok plan ↔
      ∃ description env products, absolute host request.description = .ok description ∧
        environment host request description = .ok env ∧
        generated env (contents description) = .ok products ∧ finish env products = plan := by
  unfold planRequest
  cases hdescription : absolute host request.description with
  | error e => simp [Inquiry.resolve]
  | ok description =>
      simp only [Inquiry.resolve, Except.ok.injEq, exists_and_left, exists_eq_left']
      cases hread : contents description with
      | error e =>
          -- nothing is generated from a description that cannot be read
          have hnot : ∀ env products, generated env (.error e) ≠ .ok products := by
            intro env products h
            obtain ⟨text, graph, htext, -⟩ := generated_eq_ok_iff.mp h
            cases htext
          refine ⟨fun h => ?_, fun ⟨env, _, products, hmade, _⟩ => absurd hmade (hnot env products)⟩
          by_cases habsent : e.tellsAbsence = true
          · simp only [habsent, if_true] at h
            cases h
          · simp only [habsent, Bool.false_eq_true, if_false, bind_eq_ok_iff] at h
            obtain ⟨env, -, products, hmade, -⟩ := h
            exact absurd hmade (hnot env products)
      | ok text => simp only [bind_eq_ok_iff, pure_eq_ok_iff]

/-- **The plan for making a Makefile again** comes from the saved environment, seen from where it
    lies now, and from the description. -/
theorem resolve_planAgain {dir : Path} :
    (planAgain host dir).resolve contents = .ok plan ↔
      ∃ builddir env products, absolute host dir = .ok builddir ∧
        Environment.load builddir (contents (Environment.savedPath builddir)) = .ok env ∧
        generated { env with builddir } (contents env.description) = .ok products ∧
        ⟨"", fill { env with builddir } products []⟩ = plan := by
  unfold planAgain
  cases hdir : absolute host dir with
  | error e => simp [Inquiry.resolve]
  | ok builddir =>
      simp only [Inquiry.resolve, Except.ok.injEq, exists_and_left, exists_eq_left']
      cases hload : Environment.load builddir (contents (Environment.savedPath builddir)) with
      | error e =>
          cases e <;> simp [Inquiry.resolve]
      | ok env =>
          simp only [Inquiry.resolve, bind_eq_ok_iff, pure_eq_ok_iff, Except.ok.injEq, exists_eq_left']

end Plans

/-! ## Runs by their plans -/

section Runs

variable {host : Host} {tree : FileTree} {command : Command}

theorem run_of_error {e : Error} (h : (plan host command).resolve (host.read tree) = .error e)
    (interruption : Option Interruption) :
    run host tree interruption command = ⟨tree, .error e⟩ := by
  rw [run, h]

/-- A run that has a plan is what becomes of its effects. -/
theorem run_of_ok {made : Plan} (h : (plan host command).resolve (host.read tree) = .ok made)
    (interruption : Option Interruption) :
    run host tree interruption command =
      ⟨(carryOut tree interruption made.effects).1,
        match (carryOut tree interruption made.effects).2 with
        | none => .ok made.output
        | some e => .error e⟩ := by
  rw [run, h]
  cases hcarried : carryOut tree interruption made.effects with
  | mk later failure => cases failure <;> simp [hcarried]

/-- How a run fails: before all effects, or with one of the effects of its plan. -/
theorem cases_of_failed {interruption : Option Interruption} {e : Error}
    (h : (run host tree interruption command).result = .error e) :
    (run host tree interruption command).tree = tree ∨
      ∃ made, (plan host command).resolve (host.read tree) = .ok made ∧
        Carried tree made.effects (run host tree interruption command).tree (some e) := by
  cases hplan : (plan host command).resolve (host.read tree) with
  | error early =>
      rw [run_of_error hplan]
      exact Or.inl rfl
  | ok made =>
      rw [run_of_ok hplan] at h ⊢
      have hcarried := carried_carryOut tree interruption made.effects
      cases hfailure : (carryOut tree interruption made.effects).2 with
      | none =>
          rw [hfailure] at h
          cases h
      | some failure =>
          rw [hfailure] at h hcarried
          cases h
          exact Or.inr ⟨made, rfl, hcarried⟩

/-- How a run succeeds: it has had all effects of its plan. -/
theorem carried_of_succeeded {interruption : Option Interruption} {output : String}
    (h : (run host tree interruption command).result = .ok output) :
    ∃ made, (plan host command).resolve (host.read tree) = .ok made ∧ made.output = output ∧
      Carried tree made.effects (run host tree interruption command).tree none := by
  cases hplan : (plan host command).resolve (host.read tree) with
  | error early =>
      rw [run_of_error hplan] at h
      cases h
  | ok made =>
      rw [run_of_ok hplan] at h ⊢
      have hcarried := carried_carryOut tree interruption made.effects
      cases hfailure : (carryOut tree interruption made.effects).2 with
      | some failure =>
          rw [hfailure] at h
          cases h
      | none =>
          rw [hfailure] at h hcarried
          exact ⟨made, rfl, Except.ok.inj h, hcarried⟩

end Runs

/-! ## The effects of a plan -/

/-- The build directory that a command is about, as it is given. -/
def builddirOf : Command → Path
  | .generate request | .print request => request.builddir
  | .regenerate builddir => builddir

/-- The Makefile of a build directory. -/
def makefileOf (builddir : Path) : Path :=
  builddir.join ⟨Generate.makefileName⟩

/-- The files that are written beside the Makefile. -/
def besideMakefile (builddir : Path) : List Path :=
  [builddir.join ⟨Generate.findDepsName⟩, Environment.savedPath builddir]

theorem isFileName_makefileName : Path.IsFileName Generate.makefileName := by decide

theorem isFileName_findDepsName : Path.IsFileName Generate.findDepsName := by decide

theorem isFileName_environment : Path.IsFileName Environment.fileName := by decide

/-- Effects that fill a build directory: the Makefile comes last, and before that directories are
    made on the way to the build directory and files are written beside the Makefile. -/
def Fills (builddir : Path) (effects : List Effect) : Prop :=
  ∃ before makefile, effects = before ++ [.replace (makefileOf builddir) makefile] ∧
    before.flatMap Effect.dirs ⊆ builddir.ancestors ∧
    before.flatMap Effect.files ⊆ besideMakefile builddir

/-- The effects by which a build directory is filled, before the Makefile. -/
def beforeMakefile (env : Environment) (products : Products) (saved : List Effect) : List Effect :=
  .makeDirectories env.builddir ::
    (products.companions.map fun file => .replace (env.builddir.join file.name) file.contents) ++
    saved

theorem fill_eq (env : Environment) (products : Products) (saved : List Effect) :
    fill env products saved = beforeMakefile env products saved ++
      [.replace (makefileOf env.builddir) products.makefile] :=
  rfl

/-- Before the Makefile, nothing but the file beside it and what saves the environment is written.
    -/
theorem files_beforeMakefile {env : Environment} {graph : BuildGraph} {products : Products}
    (h : products.companions = Generate.companions graph) {saved : List Effect} {file : Path}
    (hfile : file ∈ (beforeMakefile env products saved).flatMap Effect.files) :
    file = env.builddir.join ⟨Generate.findDepsName⟩ ∨ file ∈ saved.flatMap Effect.files := by
  rw [beforeMakefile, List.cons_append, List.flatMap_cons, List.flatMap_append, h] at hfile
  rcases List.mem_append.mp hfile with hnone | hfile
  · exact absurd hnone List.not_mem_nil
  rcases List.mem_append.mp hfile with hbeside | hsaved
  · obtain ⟨effect, heffect, hmem⟩ := List.mem_flatMap.mp hbeside
    obtain ⟨companion, hcompanion, rfl⟩ := List.mem_map.mp heffect
    rw [List.mem_singleton.mp hmem, name_of_companion hcompanion]
    exact Or.inl rfl
  · exact Or.inr hsaved

theorem dirs_beforeMakefile {env : Environment} {products : Products} {saved : List Effect}
    (hsaved : saved ⊆ [save env]) :
    (beforeMakefile env products saved).flatMap Effect.dirs ⊆ env.builddir.ancestors := by
  intro dir hdir
  rw [beforeMakefile, List.cons_append, List.flatMap_cons, List.flatMap_append] at hdir
  rcases List.mem_append.mp hdir with hdir | hdir
  · exact hdir
  rcases List.mem_append.mp hdir with hbeside | hdir
  · obtain ⟨effect, heffect, hmem⟩ := List.mem_flatMap.mp hbeside
    obtain ⟨companion, -, rfl⟩ := List.mem_map.mp heffect
    exact absurd hmem List.not_mem_nil
  · obtain ⟨effect, heffect, hmem⟩ := List.mem_flatMap.mp hdir
    rw [List.mem_singleton.mp (hsaved heffect)] at hmem
    exact absurd hmem List.not_mem_nil

/-- What saves the environment writes the file of the environment. -/
theorem files_of_saved {env : Environment} {saved : List Effect} (hsaved : saved ⊆ [save env])
    {file : Path} (hfile : file ∈ saved.flatMap Effect.files) :
    file = Environment.savedPath env.builddir := by
  obtain ⟨effect, heffect, hmem⟩ := List.mem_flatMap.mp hfile
  rw [List.mem_singleton.mp (hsaved heffect)] at hmem
  exact List.mem_singleton.mp hmem

theorem fills_fill {env : Environment} {contents : Except FileError String} {products : Products}
    (hmade : generated env contents = .ok products) {saved : List Effect}
    (hsaved : saved ⊆ [save env]) : Fills env.builddir (fill env products saved) := by
  obtain ⟨text, graph, -, -, hgenerate⟩ := generated_eq_ok_iff.mp hmade
  refine ⟨_, products.makefile, fill_eq env products saved, dirs_beforeMakefile hsaved, ?_⟩
  intro file hfile
  rcases files_beforeMakefile (companions_of_generate hgenerate) hfile with rfl | hmem
  · exact List.mem_cons_self
  · rw [files_of_saved hsaved hmem]
    exact List.mem_cons_of_mem _ List.mem_cons_self

/-- **The effects of a command** fill its build directory, or there are none. -/
theorem fills_of_resolve {host : Host} {contents : Path → Except FileError String} {plan : Plan}
    {command : Command} (h : (Run.plan host command).resolve contents = .ok plan) :
    plan.effects = [] ∨
      ∃ builddir, absolute host (builddirOf command) = .ok builddir ∧
        Fills builddir plan.effects := by
  cases command with
  | print request =>
      obtain ⟨description, env, products, -, -, -, rfl⟩ := resolve_planRequest.mp h
      exact Or.inl rfl
  | generate request =>
      obtain ⟨description, env, products, -, henv, hmade, rfl⟩ := resolve_planRequest.mp h
      exact Or.inr ⟨env.builddir, (environment_fields henv).1,
        fills_fill hmade (List.Subset.refl _)⟩
  | regenerate dir =>
      obtain ⟨builddir, env, products, hdir, -, hmade, rfl⟩ := resolve_planAgain.mp h
      exact Or.inr ⟨builddir, hdir, fills_fill hmade (List.nil_subset _)⟩

end MakeGraph.Run
