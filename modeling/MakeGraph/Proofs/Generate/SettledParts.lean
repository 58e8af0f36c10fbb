import MakeGraph.Proofs.Generate.Settled

/-!
# `Proofs.Generate.SettledParts` — what the parts of a generation declare

The declarations of a generation come in a fixed order: the directories, the tools of the edges, and the
programs that install. Each part is added to a model in which the parts before it have been declared, and
it uses nothing else. So every part keeps the invariant of the declarations.

## Contents

* `settled_flags`, `settled_recipe` — the variables and the recipe of a tool
* `settled_edge`, `settled_edges` — edges
* `settled_installFiles`, `settled_directories` — installed files and directories
-/

namespace MakeGraph.Generate

open Make (Command Makefile Piece Variable isPlainName)
open Outcome

/-! ## What the parts of a generation declare -/

section Parts

variable {m : Makefile} {tools : Toolchain} {graph : BuildGraph} {stem : String}

/-- The variables with the flags of a tool. -/
theorem settled_flags (h : Settled m) (hstem : stem ∈ flagsStems) (texts : List String) :
    Settled (adoptAll m (flagsDeclarations stem texts)) := by
  obtain ⟨hname, hglobalName⟩ := isPlainName_flagsVariable stem hstem
  have hfirst := h.adoptGlobal (not_mem_of_isPlainName hglobalName)
    (Command.usesOnly_words (Piece.usesOnly_plainTexts h.comma texts))
  -- the second variable refers to the first, which has just been declared
  have hglobal := hfirst.isGlobal (isRecipeName_globalFlagsVariable stem) (mem_adoptGlobal m _ _)
  refine hfirst.adoptWildcard (not_mem_of_isPlainName hname) (Command.usesOnly_words ?_)
  exact List.forall_mem_singleton.mpr (Piece.usesOnly_toPiece hglobalName hglobal)

/-- The variables with the flags of a tool are known when they have been declared. -/
theorem isKnown_flagsVariable {ds : List Declaration} (texts : List String)
    (h : flagsDeclarations stem texts ⊆ ds) : IsKnown (adoptAll m ds) (flagsVariable stem).name := by
  have hmem := h (wildcard_mem_flagsDeclarations stem texts)
  exact .inr (.inr (.inr (made_adoptAll hmem)))

theorem isGlobal_globalFlagsVariable {ds : List Declaration} {texts : List String}
    (hsettled : Settled (adoptAll m ds)) (h : flagsDeclarations stem texts ⊆ ds) :
    IsGlobal (adoptAll m ds) (globalFlagsVariable stem).name :=
  hsettled.isGlobal (isRecipeName_globalFlagsVariable stem)
    (made_adoptAll (h List.mem_cons_self))

/-- The recipe of a tool, when its flags are known. -/
theorem settled_recipe (h : Settled m) {recipeStem programStem program : String}
    {lines : Variable → List Command} (hrecipe : recipeStem ∈ recipeStems)
    (hprogram : programStem ∈ programStems)
    (hlines : ∀ line ∈ lines (programVariable programStem),
      line.UsesOnly fun name => IsKnown m name ∨ name = (programVariable programStem).name) :
    Settled (adopt m (recipeDeclaration recipeStem lines programStem program)) :=
  h.adopt ⟨isRecipeName_sharedRecipe recipeStem,
    not_mem_of_isPlainName (isPlainName_sharedRecipe recipeStem hrecipe),
    not_mem_of_isPlainName (isPlainName_programVariable programStem hprogram),
    Command.usesOnly_line (Piece.usesOnly_plain h.comma program), hlines⟩

theorem settled_compile (h : Settled m) {compiler : Compiler} {edge : CompileEdge}
    (hcompiler : tools.compiler edge.lang = .ok compiler) :
    Settled (adoptAll m (compileContribution graph compiler edge).declarations) := by
  have hflags := settled_flags h (compiler_flagsStem_mem hcompiler)
    (globalCompileFlags compiler graph edge.lang)
  rw [compileContribution, adoptAll_append]
  refine settled_recipe hflags (compiler_recipeStem_mem hcompiler) (compiler_programStem_mem hcompiler) ?_
  exact usesOnly_compileLines hcompiler (.inl (.inr (.inl hflags.comma))) (.inl (.inl (by decide)))
    (.inl (.inl (by decide))) (.inl (isKnown_flagsVariable _ (List.Subset.refl _))) (.inr rfl)

theorem settled_link (h : Settled m) {linker : Linker} {lang : String} {mode : LinkMode}
    (hlinker : tools.linker lang mode = .ok linker) :
    Settled (adoptAll m (linkDeclarations graph linker mode)) := by
  obtain ⟨hflagsStem, hlibsStem, hprogramStem⟩ := linker_stems_mem hlinker
  have hflags := settled_flags h hflagsStem (globalLinkFlags linker graph mode)
  -- a linker without libraries declares nothing more
  have hlibs : Settled (adoptAll m (flagsDeclarations linker.flagsStem
      (globalLinkFlags linker graph mode) ++ libsDeclarations linker)) := by
    rw [adoptAll_append]
    unfold libsDeclarations
    split
    · exact hflags
    · next stem hstem => exact settled_flags hflags (hlibsStem stem hstem) linker.usualLibs
  rw [linkDeclarations, adoptAll_append]
  refine settled_recipe hlibs (linker_recipeStem_mem hlinker) hprogramStem ?_
  refine usesOnly_linkLines hlinker (.inl (.inr (.inl hlibs.comma))) (.inl (.inl (by decide)))
    (.inl (.inl (by decide))) (.inl (isKnown_flagsVariable _ (List.subset_append_left _ _)))
    (fun stem hstem => .inl ?_) (.inr rfl)
  have hmine : flagsDeclarations stem linker.usualLibs = libsDeclarations linker := by
    rw [libsDeclarations, Option.mem_def.mp hstem]
  refine isKnown_flagsVariable linker.usualLibs ?_
  rw [hmine]
  exact List.subset_append_right _ _

/-- **What an edge declares**, whatever comes before it. -/
theorem settled_edge (h : Settled m) {edge : Edge} {own : Contribution}
    (hown : edgeContribution tools graph edge = .ok own) :
    Settled (adoptAll m own.declarations) := by
  cases edge with
  | compile edge =>
      simp only [edgeContribution, bind_eq_ok_iff, pure_eq_ok_iff] at hown
      obtain ⟨compiler, hcompiler, rfl⟩ := hown
      exact settled_compile h hcompiler
  | link edge =>
      simp only [edgeContribution, bind_eq_ok_iff] at hown
      obtain ⟨linker, hlinker, hown⟩ := hown
      rw [linkContribution_declarations hown]
      exact settled_link h hlinker
  | group edge =>
      obtain rfl := Except.ok.inj hown
      exact h
  | command edge =>
      obtain rfl := Except.ok.inj hown
      exact h

/-- **All edges**, by induction on their list. -/
theorem settled_edges {edges : List Edge} {c : Contribution}
    (hc : contributions (edgeContribution tools graph) edges = .ok c) :
    ∀ {m : Makefile}, Settled m → Settled (adoptAll m c.declarations) := by
  refine forall_contributions
    (P := fun _ c => ∀ {m : Makefile}, Settled m → Settled (adoptAll m c.declarations)) ?_ ?_ hc
  · exact fun h => h
  · intro edge edges own others hown ih m h
    rw [declarations_append, adoptAll_append]
    exact ih (settled_edge h hown)

/-- The command that installs files of a kind refers to the one for all kinds. -/
theorem settled_installDeclarations (h : Settled m) (kind : InstallKind) :
    Settled (adoptAll m (installDeclarations kind)) := by
  have hname : isPlainName (Variable.named "INSTALL").name = true ∧
      isRecipeName (Variable.named "INSTALL") = false := by
    decide +kernel
  have hkind : isPlainName (Variable.named (installer kind).1).name = true := by
    cases kind <;> decide +kernel
  have hfirst := h.adoptGlobal (not_mem_of_isPlainName hname.1)
    (Command.usesOnly_line (Piece.usesOnly_plain h.comma "install"))
  have hglobal := hfirst.isGlobal hname.2 (mem_adoptGlobal m _ _)
  refine hfirst.adoptGlobal (not_mem_of_isPlainName hkind) (Command.usesOnly_line ?_)
  refine Piece.usesOnly_join fun piece hpiece => ?_
  rcases List.mem_pair.mp hpiece with rfl | rfl
  · exact Piece.usesOnly_toPiece hname.1 hglobal
  · exact Piece.usesOnly_plain hfirst.comma _

/-- **The installation**, by induction on the files. -/
theorem settled_installFiles (h : Settled m) (files : List InstallFile) :
    Settled (adoptAll m (files.flatMap fun file => installDeclarations file.kind)) := by
  induction files generalizing m with
  | nil => exact h
  | cons file files ih =>
      rw [List.flatMap_cons, adoptAll_append]
      exact ih (settled_installDeclarations h file.kind)

/-- The variable of a root has the name of the root, which is not that of a recipe. -/
theorem variable_of_root {root : Root} {name : String} (h : root.variableName? = some name) :
    Variable.named name = ⟨name⟩ ∧ isRecipeName ⟨name⟩ = false := by
  cases root <;> simp only [Root.variableName?, Root.name, Option.some.injEq, reduceCtorEq] at h <;>
    subst h <;> decide +kernel

/-- The variable of a root, whose value uses only what is there. -/
theorem settled_directory (h : Settled m) (root : Root) {name : String} {value : Piece}
    (hname : root.variableName? = some name) (hvalue : value.UsesOnly (IsGlobal m)) :
    Settled (adoptGlobal m (.named name) (.line value)) ∧
      IsGlobal (adoptGlobal m (.named name) (.line value)) name ∧
      ∀ other, IsGlobal m other → IsGlobal (adoptGlobal m (.named name) (.line value)) other := by
  have hplain := Make.isPlainName_root hname
  obtain ⟨hsame, hfree⟩ := variable_of_root hname
  have hsettled : Settled (adoptGlobal m (.named name) (.line value)) := by
    rw [hsame]
    exact h.adoptGlobal (not_mem_of_isPlainName hplain) (Command.usesOnly_line hvalue)
  refine ⟨hsettled, hsettled.isGlobal hfree ?_, fun _ => (grows_adoptGlobal m _ _).isGlobal⟩
  rw [← hsame]
  exact mem_adoptGlobal m _ _

/-- A directory that was chosen, or one below another root. -/
theorem usesOnly_orUsual (h : Settled m) {name : String} (hplain : isPlainName name = true)
    (hname : IsGlobal m name) (chosen : Option Path) (rest : String) (hrest : '$' ∉ rest.toList) :
    (InstallDirs.orUsual chosen (Make.reference name ++ rest)).UsesOnly (IsGlobal m) := by
  cases chosen with
  | some dir => exact Piece.usesOnly_plain h.comma _
  | none =>
      refine Piece.usesOnly_verbatim ?_
      rw [String.toList_append]
      exact (Make.UsesOnly.reference hplain hname).append (.of_not_mem hrest)

/-- **The directories** are declared in an order in which each stands behind the one that it may
    refer to. -/
theorem settled_directories (env : Environment) :
    Settled (adoptAll .empty (directoriesContribution env).declarations) := by
  let dirs := env.installDirs
  have hprefix : isPlainName "prefix" = true := by decide
  have hexec : isPlainName "exec_prefix" = true := by decide
  have hlist : (directoriesContribution env).declarations =
      [.global (.named Root.source.name) (.line (.plain env.srcdir.text)),
        .global (.named Root.installPrefix.name) (.line (.plain dirs.prefixDir.text)),
        .global (.named Root.execPrefix.name)
          (.line (InstallDirs.orUsual dirs.execPrefix (Make.reference "prefix" ++ ""))),
        .global (.named Root.bin.name)
          (.line (InstallDirs.orUsual dirs.bin (Make.reference "exec_prefix" ++ "/bin"))),
        .global (.named Root.lib.name)
          (.line (InstallDirs.orUsual dirs.lib (Make.reference "exec_prefix" ++ "/lib"))),
        .global (.named Root.headers.name)
          (.line (InstallDirs.orUsual dirs.headers (Make.reference "prefix" ++ "/include"))),
        .global (.named Root.data.name)
          (.line (InstallDirs.orUsual dirs.data (Make.reference "prefix" ++ "/share")))] := by
    have htexts : Make.reference "prefix" ++ "" = "$(prefix)" ∧
        Make.reference "exec_prefix" ++ "/bin" = "$(exec_prefix)/bin" ∧
        Make.reference "exec_prefix" ++ "/lib" = "$(exec_prefix)/lib" ∧
        Make.reference "prefix" ++ "/include" = "$(prefix)/include" ∧
        Make.reference "prefix" ++ "/share" = "$(prefix)/share" := by
      decide
    obtain ⟨hexecPrefix, hbin, hlib, hheaders, hdata⟩ := htexts
    rw [hexecPrefix, hbin, hlib, hheaders, hdata]
    rfl
  obtain ⟨h₁, -⟩ := settled_directory settled_empty .source rfl
    (Piece.usesOnly_plain settled_empty.comma env.srcdir.text)
  obtain ⟨h₂, hprefix₂, -⟩ := settled_directory h₁ .installPrefix rfl
    (Piece.usesOnly_plain h₁.comma dirs.prefixDir.text)
  obtain ⟨h₃, hexec₃, hkeep₃⟩ := settled_directory h₂ .execPrefix rfl
    (usesOnly_orUsual h₂ hprefix hprefix₂ dirs.execPrefix "" (by decide))
  obtain ⟨h₄, -, hkeep₄⟩ := settled_directory h₃ .bin rfl
    (usesOnly_orUsual h₃ hexec hexec₃ dirs.bin "/bin" (by decide))
  obtain ⟨h₅, -, hkeep₅⟩ := settled_directory h₄ .lib rfl
    (usesOnly_orUsual h₄ hexec (hkeep₄ _ hexec₃) dirs.lib "/lib" (by decide))
  have hprefix₅ := hkeep₅ _ (hkeep₄ _ (hkeep₃ _ hprefix₂))
  obtain ⟨h₆, -, hkeep₆⟩ := settled_directory h₅ .headers rfl
    (usesOnly_orUsual h₅ hprefix hprefix₅ dirs.headers "/include" (by decide))
  obtain ⟨h₇, -⟩ := settled_directory h₆ .data rfl
    (usesOnly_orUsual h₆ hprefix (hkeep₆ _ hprefix₅) dirs.data "/share" (by decide))
  rw [hlist]
  simp only [adoptAll, List.foldl_cons, List.foldl_nil, adopt]
  exact h₇

end Parts

end MakeGraph.Generate
