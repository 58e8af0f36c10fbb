import MakeGraph.Proofs.Generate.SharedRecipes

/-!
# `Proofs.Generate.SharedVariables` — what the variables of a generation hold

A variable that several generators need is declared by the first of them, and what the others would
have written is dropped without a word. So its value is the first one that is offered, provided that
nothing else takes the name: `find?_globals_adoptAll` for global variables, `scopes_adoptAll` for those
of all targets.

For the variables with the flags of tools nothing else does. Their names are made of a few stems
(`flagsStems`), and the one with the scope of all targets is offered one value only, whichever tool
needs it (`wildcard?_eq`).

## Contents

* `Declaration.global?`, `Declaration.wildcard?` — what a declaration offers
* `find?_globals_adoptAll`, `scopes_adoptAll` — the first offer counts
* `find?_globalFlagsVariable`, `findSome?_head` — the global variables with flags
* `scopes_extend` — the variables with flags of all targets
-/

namespace MakeGraph.Generate

open Make (Command Error Makefile Piece Variable)
open Outcome

/-! ## The first offer counts -/

section Offers

/-- The value that a declaration offers for a global variable. -/
def Declaration.global? (v : Variable) : Declaration → Option Command
  | .global w value => if w = v then some value else none
  | .wildcard _ _ | .recipe _ _ _ _ => none

/-- The value that a declaration offers for a variable of all targets. -/
def Declaration.wildcard? (v : Variable) : Declaration → Option Command
  | .wildcard w value => if w = v then some value else none
  | .global _ _ | .recipe _ _ _ _ => none

/-- A declaration that names neither a recipe nor a program `v`. -/
def Declaration.Spares (v : Variable) : Declaration → Prop
  | .recipe w _ program _ => w ≠ v ∧ program ≠ v
  | .global _ _ | .wildcard _ _ => True

variable {m : Makefile} {v : Variable}

theorem find?_globals_adoptGlobal (hfree : m.defines.find? v = none) (w : Variable)
    (value : Command) :
    (adoptGlobal m w value).globals.find? v =
      (m.globals.find? v).or (if w = v then some (value, .simple) else none) := by
  unfold adoptGlobal
  split
  · next hdeclared =>
      by_cases hw : w = v
      · -- the name is taken, and not by a recipe
        subst hw
        have htaken : (m.globals.find? w).isSome = true := by
          simpa [Makefile.declares, Makefile.bindings, Table.contains, hfree] using hdeclared
        obtain ⟨found, hfound⟩ := Option.isSome_iff_exists.mp htaken
        rw [hfound]
        rfl
      · rw [if_neg hw, Option.or_none]
  · exact Table.find?_append _ _ _ _

/-- **One declaration** gives a global variable the value that it offers, unless it has one. -/
theorem find?_globals_adopt (hfree : m.defines.find? v = none) {d : Declaration}
    (hd : d.Spares v) :
    (adopt m d).globals.find? v =
        (m.globals.find? v).or ((d.global? v).map fun value => (value, .simple)) ∧
      (adopt m d).defines.find? v = none := by
  cases d with
  | global w value =>
      refine ⟨?_, by rw [adopt, defines_adoptGlobal, hfree]⟩
      rw [adopt, find?_globals_adoptGlobal hfree, Declaration.global?]
      split <;> rfl
  | wildcard w value =>
      have hsame : (adoptWildcard m w value).globals = m.globals ∧
          (adoptWildcard m w value).defines = m.defines := by
        unfold adoptWildcard
        split <;> exact ⟨rfl, rfl⟩
      rw [adopt, hsame.1, hsame.2]
      exact ⟨Option.or_none.symm, hfree⟩
  | recipe w lines program command =>
      obtain ⟨hw, hprogram⟩ := hd
      show (adoptRecipe m w lines program command).globals.find? v = (m.globals.find? v).or none ∧
        (adoptRecipe m w lines program command).defines.find? v = none
      unfold adoptRecipe
      split
      · exact ⟨Option.or_none.symm, hfree⟩
      · refine ⟨(find?_globals_adoptGlobal hfree program command).trans ?_, ?_⟩
        · rw [if_neg hprogram]
        · rw [Table.find?_append, defines_adoptGlobal, hfree, if_neg hw]
          rfl

/-- **The first offer** is what a global variable holds, if it had no value before. -/
theorem find?_globals_adoptAll {ds : List Declaration} (hfree : m.defines.find? v = none)
    (hds : ∀ d ∈ ds, d.Spares v) :
    (adoptAll m ds).globals.find? v =
      (m.globals.find? v).or
        ((ds.findSome? (Declaration.global? v)).map fun value => (value, .simple)) := by
  induction ds generalizing m with
  | nil => exact Option.or_none.symm
  | cons d ds ih =>
      obtain ⟨hd, hds⟩ := List.forall_mem_cons.mp hds
      obtain ⟨hglobals, hdefines⟩ := find?_globals_adopt hfree hd
      show (adoptAll (adopt m d) ds).globals.find? v = _
      rw [ih hdefines hds, hglobals, List.findSome?_cons, Option.or_assoc]
      cases d.global? v <;> rfl

/-- A variable of all targets is written behind the others of its scope, unless it is there. -/
theorem scopes_adoptWildcard {bindings : Make.Bindings} (hscopes : m.scopes = [(.any, bindings)])
    (w : Variable) (value : Command) :
    ∃ others, (adoptWildcard m w value).scopes = [(.any, others)] ∧ ∀ v, others.find? v =
      (bindings.find? v).or (if w = v then some (value, .simple) else none) := by
  have hbindings : m.bindings (some .any) = bindings := by
    rw [Makefile.bindings, hscopes]
    rfl
  unfold adoptWildcard
  split
  · next hdeclared =>
      refine ⟨bindings, hscopes, fun v => ?_⟩
      by_cases hw : w = v
      · subst hw
        have htaken : (bindings.find? w).isSome = true := by
          simpa [Makefile.declares, hbindings, Table.contains] using hdeclared
        obtain ⟨found, hfound⟩ := Option.isSome_iff_exists.mp htaken
        rw [hfound]
        rfl
      · rw [if_neg hw, Option.or_none]
  · refine ⟨bindings.append w (value, .simple), ?_, fun v => Table.find?_append _ _ _ _⟩
    show m.scopes.insert .any ((m.bindings (some .any)).append w (value, .simple)) = _
    rw [hbindings, hscopes, Table.insert, if_pos rfl]

/-- **One declaration** and the variables of all targets. -/
theorem scopes_adopt {bindings : Make.Bindings} (hscopes : m.scopes = [(.any, bindings)])
    (d : Declaration) :
    ∃ others, (adopt m d).scopes = [(.any, others)] ∧ ∀ v, others.find? v =
      (bindings.find? v).or ((d.wildcard? v).map fun value => (value, .simple)) := by
  have hglobal : ∀ w value, (adoptGlobal m w value).scopes = m.scopes := by
    intro w value
    unfold adoptGlobal
    split <;> rfl
  cases d with
  | global w value => exact ⟨bindings, (hglobal w value).trans hscopes, fun _ => Option.or_none.symm⟩
  | recipe w lines program command =>
      refine ⟨bindings, ?_, fun _ => Option.or_none.symm⟩
      show (adoptRecipe m w lines program command).scopes = _
      unfold adoptRecipe
      split
      · exact hscopes
      · exact (hglobal program command).trans hscopes
  | wildcard w value =>
      obtain ⟨others, hothers, hfind⟩ := scopes_adoptWildcard hscopes w value
      refine ⟨others, hothers, fun v => (hfind v).trans ?_⟩
      rw [Declaration.wildcard?]
      split <;> rfl

/-- **Variables of all targets** hold the first offer too, and there is never another scope. -/
theorem scopes_adoptAll {bindings : Make.Bindings} (hscopes : m.scopes = [(.any, bindings)])
    (ds : List Declaration) :
    ∃ others, (adoptAll m ds).scopes = [(.any, others)] ∧ ∀ v, others.find? v =
      (bindings.find? v).or
        ((ds.findSome? (Declaration.wildcard? v)).map fun value => (value, .simple)) := by
  induction ds generalizing m bindings with
  | nil => exact ⟨bindings, hscopes, fun _ => Option.or_none.symm⟩
  | cons d ds ih =>
      obtain ⟨middle, hmiddle, hfirst⟩ := scopes_adopt hscopes d
      obtain ⟨others, hothers, hrest⟩ := ih hmiddle
      refine ⟨others, hothers, fun v => ?_⟩
      rw [hrest, hfirst, List.findSome?_cons, Option.or_assoc]
      cases d.wildcard? v <;> rfl

end Offers

/-! ## The variables with flags -/

section Flags

variable {env : Environment} {graph : BuildGraph} {c : Contribution} {stem : String}

theorem flagsVariable_injective :
    ∀ stem ∈ flagsStems, ∀ stem' ∈ flagsStems,
      flagsVariable stem = flagsVariable stem' → stem = stem' := by
  decide +kernel

theorem globalFlagsVariable_injective :
    ∀ stem ∈ flagsStems, ∀ stem' ∈ flagsStems,
      globalFlagsVariable stem = globalFlagsVariable stem' → stem = stem' := by
  decide +kernel

/-- Whether a variable is named like one with global flags. -/
def isGlobalFlagsName (v : Variable) : Bool :=
  "GLOBAL_".toList.isPrefixOf v.name.toList

theorem ne_globalFlagsVariable {v : Variable} (h : isGlobalFlagsName v = false) (name : String) :
    v ≠ globalFlagsVariable name := by
  rintro rfl
  have hname : isGlobalFlagsName (globalFlagsVariable name) = true :=
    (isPrefixOf_named_append "GLOBAL_" _ (by decide) (by decide)).trans (by decide)
  rw [hname] at h
  cases h

theorem isGlobalFlagsName_programVariable :
    ∀ stem ∈ programStems, isGlobalFlagsName (programVariable stem) = false := by
  decide +kernel

theorem programVariable_ne_root :
    ∀ stem ∈ programStems, ∀ root ∈ Root.all, programVariable stem ≠ ⟨root.name⟩ := by
  decide +kernel

/-- **No recipe and no program** of a generation has a name that those of the tools do not have. -/
theorem spares_of_name {v : Variable} (hfree : isRecipeName v = false)
    (hprogram : ∀ stem ∈ programStems, programVariable stem ≠ v)
    (h : modelContribution env graph = .ok c) : ∀ d ∈ c.declarations, d.Spares v := by
  have hrecipe : ∀ recipe, sharedRecipe recipe ≠ v := fun recipe =>
    (ne_sharedRecipe hfree recipe).symm
  intro d hd
  rcases declaration_cases h hd with ⟨root, hroot⟩ | ⟨kind, hd⟩ | htool
  · obtain ⟨value, rfl⟩ := directoryDeclaration?_eq_some hroot
    exact trivial
  · simp only [installDeclarations, List.mem_cons, List.not_mem_nil, or_false] at hd
    rcases hd with rfl | rfl <;> exact trivial
  · cases htool with
    | flags hname hd =>
        simp only [flagsDeclarations, List.mem_cons, List.not_mem_nil, or_false] at hd
        rcases hd with rfl | rfl <;> exact trivial
    | compiler h => exact ⟨hrecipe _, hprogram _ (compiler_programStem_mem h)⟩
    | linker h => exact ⟨hrecipe _, hprogram _ (linker_stems_mem h).2.2⟩

theorem spares_globalFlagsVariable (stem : String) (h : modelContribution env graph = .ok c) :
    ∀ d ∈ c.declarations, d.Spares (globalFlagsVariable stem) :=
  spares_of_name (isRecipeName_globalFlagsVariable stem)
    (fun _ hmem => ne_globalFlagsVariable (isGlobalFlagsName_programVariable _ hmem) stem) h

/-- **A global variable with flags** holds what is offered for it first. -/
theorem find?_globalFlagsVariable (stem : String) (h : modelContribution env graph = .ok c) :
    (extend .empty c).globals.find? (globalFlagsVariable stem) =
      (c.declarations.findSome? (Declaration.global? (globalFlagsVariable stem))).map
        fun value => (value, .simple) := by
  have hcomma : (⟨","⟩ : Variable) ≠ globalFlagsVariable stem :=
    ne_globalFlagsVariable (by decide) stem
  have hempty : Makefile.empty.globals.find? (globalFlagsVariable stem) = none := if_neg hcomma
  have hfind := find?_globals_adoptAll (m := .empty) rfl (spares_globalFlagsVariable stem h)
  rwa [hempty, Option.none_or] at hfind

/-- What is offered with the flags of a tool. -/
theorem findSome?_flagsDeclarations {stem name : String} (hstem : stem ∈ flagsStems)
    (hname : name ∈ flagsStems) (flags : List String) :
    (flagsDeclarations name flags).findSome? (Declaration.global? (globalFlagsVariable stem)) =
      if name = stem then some (.words (Piece.plainTexts flags)) else none := by
  by_cases h : name = stem
  · simp [flagsDeclarations, Declaration.global?, h]
  · have hne : globalFlagsVariable name ≠ globalFlagsVariable stem := fun heq =>
      h (globalFlagsVariable_injective name hname stem hstem heq)
    simp [flagsDeclarations, Declaration.global?, h, hne]

/-- Neither directories nor the installation offer flags. -/
theorem findSome?_head (stem : String) (h : modelContribution env graph = .ok c) :
    ∃ edges, edgesContribution env graph = .ok edges ∧
      c.declarations.findSome? (Declaration.global? (globalFlagsVariable stem)) =
        edges.declarations.findSome? (Declaration.global? (globalFlagsVariable stem)) := by
  obtain ⟨edges, hedges, hdeclarations⟩ := modelContribution_declarations h
  refine ⟨edges, hedges, ?_⟩
  have hnone : ∀ d ∈ (directoriesContribution env).declarations ++
      (installContribution graph.install).declarations,
      d.global? (globalFlagsVariable stem) = none := by
    intro d hd
    rcases List.mem_append.mp hd with hd | hd
    · obtain ⟨root, -, hroot⟩ := List.mem_filterMap.mp hd
      obtain ⟨value, rfl⟩ := directoryDeclaration?_eq_some hroot
      refine if_neg (ne_globalFlagsVariable ?_ stem)
      cases root <;> decide
    · unfold installContribution at hd
      split at hd
      · exact absurd hd List.not_mem_nil
      · obtain ⟨file, -, hd⟩ := List.mem_flatMap.mp hd
        simp only [installDeclarations, List.mem_cons, List.not_mem_nil, or_false] at hd
        rcases hd with rfl | rfl
        · exact if_neg (ne_globalFlagsVariable (by decide +kernel) stem)
        · refine if_neg (ne_globalFlagsVariable ?_ stem)
          cases file.kind <;> decide +kernel
  rw [hdeclarations, ← List.append_assoc, List.findSome?_append,
    List.findSome?_eq_none_iff.mpr hnone, Option.none_or]

/-- **What is offered for all targets** is always a reference to the global flags. -/
theorem wildcard?_eq (hstem : stem ∈ flagsStems) (h : modelContribution env graph = .ok c)
    {d : Declaration} (hd : d ∈ c.declarations) {value : Command}
    (hvalue : d.wildcard? (flagsVariable stem) = some value) :
    value = .words [(globalFlagsVariable stem).toPiece] := by
  rcases declaration_cases h hd with ⟨root, hroot⟩ | ⟨kind, hd⟩ | htool
  · obtain ⟨other, rfl⟩ := directoryDeclaration?_eq_some hroot
    cases hvalue
  · simp only [installDeclarations, List.mem_cons, List.not_mem_nil, or_false] at hd
    rcases hd with rfl | rfl <;> cases hvalue
  · cases htool with
    | @flags name texts d hname hd =>
        simp only [flagsDeclarations, List.mem_cons, List.not_mem_nil, or_false] at hd
        rcases hd with rfl | rfl
        · cases hvalue
        · rw [Declaration.wildcard?] at hvalue
          split at hvalue
          · next heq =>
              obtain rfl := flagsVariable_injective name hname stem hstem heq
              exact (Option.some.inj hvalue).symm
          · cases hvalue
    | compiler h => cases hvalue
    | linker h => cases hvalue

/-- **The scopes of a generation**: there is none but that of all targets, and where a tool declares
    the variable with its flags, this refers to the global one. -/
theorem scopes_extend (h : modelContribution env graph = .ok c) :
    ∃ bindings, (extend .empty c).scopes = [(.any, bindings)] ∧
      ∀ stem ∈ flagsStems, ∀ value, .wildcard (flagsVariable stem) value ∈ c.declarations →
        bindings.find? (flagsVariable stem) =
          some (.words [(globalFlagsVariable stem).toPiece], .simple) := by
  obtain ⟨bindings, hscopes, hfind⟩ := scopes_adoptAll (m := .empty) rfl c.declarations
  refine ⟨bindings, hscopes, fun stem hstem value hmem => ?_⟩
  have hsome : (c.declarations.findSome? (Declaration.wildcard? (flagsVariable stem))).isSome := by
    rw [List.findSome?_isSome_iff]
    exact ⟨_, hmem, by rw [Declaration.wildcard?, if_pos rfl]; rfl⟩
  obtain ⟨found, hfound⟩ := Option.isSome_iff_exists.mp hsome
  obtain ⟨d, hd, hoffer⟩ := List.exists_of_findSome?_eq_some hfound
  rw [hfind, hfound, wildcard?_eq hstem h hd hoffer]
  rfl

end Flags

end MakeGraph.Generate
