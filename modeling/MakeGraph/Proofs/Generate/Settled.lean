import MakeGraph.Proofs.Generate.FlagsScope
import MakeGraph.Proofs.Generate.RuleUses
import Mathlib.Data.List.Basic

/-!
# `Proofs.Generate.Settled` — models that use only what they declare

Variables are declared by whoever needs them first, and their uses stand in texts that are put together
in many places. In a closed model no use is left without a declaration, and what make expands while it
reads the file, the values of `:=` variables above all, uses only global variables that stand before it.

The order of the global variables is an invariant of the declarations one by one: each of them uses
only what the model has already (`Declaration.Supported`), and a model grows without losing anything
(`Grows`).

## Contents

* `IsGlobal`, `IsKnown`, `Closed` — what a model declares, and a model that uses nothing else
* `Grows`, `Declaration.Made` — models that grow
* `Settled`, `Settled.adopt` — the invariant of the declarations
-/

namespace MakeGraph.Generate

open Make (Bindings Command Makefile Variable usedNames)
open Outcome

/-! ## Closed models -/

/-- The names to which make itself gives a value: the target, the first prerequisite, and the
    arguments of a call. -/
def automaticNames : List String :=
  ["@", "<", "1", "2"]

/-- A name that a model declares as a global variable. -/
def IsGlobal (m : Makefile) (name : String) : Prop :=
  ⟨name⟩ ∈ m.globals.keys

/-- A name that a model declares: as a global variable, as a definition, or for all targets. -/
def IsDeclared (m : Makefile) (name : String) : Prop :=
  IsGlobal m name ∨ ⟨name⟩ ∈ m.defines.keys ∨ ⟨name⟩ ∈ (m.bindings (some .any)).keys

/-- A name that has a value when a recipe runs. -/
def IsKnown (m : Makefile) (name : String) : Prop :=
  name ∈ automaticNames ∨ IsDeclared m name

/-- **A model that uses only what it declares**, and that in time. -/
structure Closed (m : Makefile) : Prop where
  /-- Nothing in the whole file uses a name that is not declared. -/
  text : ∀ name ∈ usedNames m.render, IsKnown m name
  /-- The value of a global variable uses only global variables that stand before it. -/
  globals : ∀ before v value assignment after, m.globals = before ++ (v, value, assignment) :: after →
    ∀ name ∈ usedNames value.render, ⟨name⟩ ∈ Table.keys before
  /-- The variables of all targets use global ones. -/
  scopes : ∀ scope ∈ m.scopes, ∀ entry ∈ scope.2, ∀ name ∈ usedNames entry.2.1.render,
    IsGlobal m name
  /-- The lines of a definition use what is declared, the arguments and the automatic variables. -/
  defines : ∀ entry ∈ m.defines, ∀ line ∈ entry.2, ∀ name ∈ usedNames line.render, IsKnown m name
  /-- Targets, prerequisites and variables of a rule use global variables. -/
  heads : ∀ rule ∈ m.rules, ∀ name ∈ usedNames rule.renderHead, IsGlobal m name
  /-- A rule with its recipe uses what is declared and the automatic variables. -/
  rules : ∀ rule ∈ m.rules, ∀ name ∈ usedNames rule.render, IsKnown m name
  /-- Included files are named by global variables. -/
  includes : ∀ inc ∈ m.includes, ∀ name ∈ usedNames inc.render, IsGlobal m name

/-! ## Models that grow -/

section Growth

variable {m m' m'' : Makefile} {d : Declaration} {name : String}

/-- A model that declares all that another one declares. -/
structure Grows (m m' : Makefile) : Prop where
  globals : m.globals.keys ⊆ m'.globals.keys
  defines : m.defines.keys ⊆ m'.defines.keys
  wildcards : (m.bindings (some .any)).keys ⊆ (m'.bindings (some .any)).keys

theorem Grows.refl (m : Makefile) : Grows m m :=
  ⟨List.Subset.refl _, List.Subset.refl _, List.Subset.refl _⟩

theorem Grows.trans (h : Grows m m') (h' : Grows m' m'') : Grows m m'' :=
  ⟨List.Subset.trans h.globals h'.globals, List.Subset.trans h.defines h'.defines,
    List.Subset.trans h.wildcards h'.wildcards⟩

theorem Grows.isGlobal (h : Grows m m') (hname : IsGlobal m name) : IsGlobal m' name :=
  h.globals hname

theorem Grows.isKnown (h : Grows m m') (hname : IsKnown m name) : IsKnown m' name := by
  rcases hname with hauto | hglobal | hdefined | hwildcard
  · exact .inl hauto
  · exact .inr (.inl (h.globals hglobal))
  · exact .inr (.inr (.inl (h.defines hdefined)))
  · exact .inr (.inr (.inr (h.wildcards hwildcard)))

/-! ### One declaration -/

theorem grows_adoptGlobal (m : Makefile) (v : Variable) (value : Command) :
    Grows m (adoptGlobal m v value) := by
  unfold adoptGlobal
  split
  · exact .refl m
  · refine ⟨?_, List.Subset.refl _, List.Subset.refl _⟩
    rw [Table.keys_append]
    exact List.subset_append_left _ _

/-- A global name is taken when it has been declared. -/
theorem mem_adoptGlobal (m : Makefile) (v : Variable) (value : Command) :
    v ∈ (adoptGlobal m v value).globals.keys ∨ v ∈ (adoptGlobal m v value).defines.keys := by
  unfold adoptGlobal
  split
  · next hdeclared =>
      by_contra hnone
      rw [not_or, ← Makefile.declares_none_eq_false_iff, hdeclared] at hnone
      cases hnone
  · left
    rw [Table.keys_append]
    exact List.mem_append_right _ List.mem_cons_self

theorem bindings_adoptWildcard {m : Makefile} {v : Variable} (value : Command)
    (h : ¬ m.declares v (some .any) = true) :
    (adoptWildcard m v value).bindings (some .any) =
      (m.bindings (some .any)).append v (value, .simple) := by
  unfold adoptWildcard
  rw [if_neg h]
  show ((m.scopes.insert .any _).find? .any).getD [] = _
  rw [Table.find?_insert, if_pos rfl]
  rfl

theorem grows_adoptWildcard (m : Makefile) (v : Variable) (value : Command) :
    Grows m (adoptWildcard m v value) := by
  by_cases h : m.declares v (some .any) = true
  · have hsame : adoptWildcard m v value = m := if_pos h
    rw [hsame]
    exact .refl m
  · have hrest : (adoptWildcard m v value).globals = m.globals ∧
        (adoptWildcard m v value).defines = m.defines := by
      unfold adoptWildcard
      rw [if_neg h]
      exact ⟨rfl, rfl⟩
    refine ⟨hrest.1 ▸ List.Subset.refl _, hrest.2 ▸ List.Subset.refl _, ?_⟩
    rw [bindings_adoptWildcard value h, Table.keys_append]
    exact List.subset_append_left _ _

theorem mem_adoptWildcard (m : Makefile) (v : Variable) (value : Command) :
    v ∈ ((adoptWildcard m v value).bindings (some .any)).keys := by
  by_cases h : m.declares v (some .any) = true
  · have hsame : adoptWildcard m v value = m := if_pos h
    have hcontains : (m.bindings (some .any)).contains v = true := by
      simpa [Makefile.declares] using h
    rw [hsame]
    exact Table.contains_iff.mp hcontains
  · rw [bindings_adoptWildcard value h, Table.keys_append]
    exact List.mem_append_right _ List.mem_cons_self

theorem grows_adopt (m : Makefile) (d : Declaration) : Grows m (adopt m d) := by
  cases d with
  | global v value => exact grows_adoptGlobal m v value
  | wildcard v value => exact grows_adoptWildcard m v value
  | recipe v lines program command =>
      show Grows m (adoptRecipe m v lines program command)
      unfold adoptRecipe
      split
      · exact .refl m
      · refine (grows_adoptGlobal m program command).trans
          ⟨List.Subset.refl _, ?_, List.Subset.refl _⟩
        rw [Table.keys_append]
        exact List.subset_append_left _ _

/-- The name of a declaration is taken. -/
def Declaration.Made (m : Makefile) : Declaration → Prop
  | .global v _ | .recipe v _ _ _ => v ∈ m.globals.keys ∨ v ∈ m.defines.keys
  | .wildcard v _ => v ∈ (m.bindings (some .any)).keys

theorem Grows.made (h : Grows m m') (hd : d.Made m) : d.Made m' := by
  cases d with
  | global v value => exact hd.imp (fun hv => h.globals hv) fun hv => h.defines hv
  | wildcard v value => exact h.wildcards hd
  | recipe v lines program command => exact hd.imp (fun hv => h.globals hv) fun hv => h.defines hv

theorem made_adopt (m : Makefile) (d : Declaration) : d.Made (adopt m d) := by
  cases d with
  | global v value => exact mem_adoptGlobal m v value
  | wildcard v value => exact mem_adoptWildcard m v value
  | recipe v lines program command =>
      show v ∈ (adoptRecipe m v lines program command).globals.keys ∨
        v ∈ (adoptRecipe m v lines program command).defines.keys
      unfold adoptRecipe
      split
      · next hdeclared =>
          by_contra hnone
          rw [not_or, ← Makefile.declares_none_eq_false_iff, hdeclared] at hnone
          cases hnone
      · right
        rw [Table.keys_append]
        exact List.mem_append_right _ List.mem_cons_self

/-! ### Many declarations -/

theorem adoptAll_nil (m : Makefile) : adoptAll m [] = m :=
  rfl

theorem grows_adoptAll (m : Makefile) (ds : List Declaration) : Grows m (adoptAll m ds) := by
  induction ds generalizing m with
  | nil => exact .refl m
  | cons d ds ih => exact (grows_adopt m d).trans (ih (adopt m d))

/-- **Whatever is among the declarations** is declared in the end. -/
theorem made_adoptAll {ds : List Declaration} (hd : d ∈ ds) : d.Made (adoptAll m ds) := by
  induction ds generalizing m with
  | nil => exact absurd hd List.not_mem_nil
  | cons first ds ih =>
      rcases List.mem_cons.mp hd with rfl | hd
      · exact (grows_adoptAll (adopt m d) ds).made (made_adopt m d)
      · exact ih hd

end Growth

/-! ## The invariant of declarations -/

section Invariant

variable {m : Makefile} {d : Declaration} {ds : List Declaration}

/-- Assignments each of which uses only variables that are assigned before it. -/
inductive InOrder : Bindings → Prop
  | nil : InOrder []
  | append {bindings : Bindings} {v : Variable} {value : Command} (h : InOrder bindings)
      (hv : '$' ∉ v.name.toList) (hvalue : value.UsesOnly fun name => ⟨name⟩ ∈ bindings.keys) :
      InOrder (bindings.append v (value, .simple))

/-- **What stands before an assignment** is enough for its value. -/
theorem InOrder.usesOnly_before {bindings : Bindings} (h : InOrder bindings) {before after : Bindings}
    {v : Variable} {value : Command} {assignment : Make.Assignment}
    (hsplit : bindings = before ++ (v, value, assignment) :: after) :
    value.UsesOnly fun name => ⟨name⟩ ∈ Table.keys before := by
  induction h generalizing after with
  | nil => simp at hsplit
  | @append bindings w other h hw hother ih =>
      rw [Table.append_eq] at hsplit
      -- the assignment is the last one, or it stands among the others
      rcases List.eq_nil_or_concat after with rfl | ⟨rest, last, rfl⟩
      · obtain ⟨rfl, hlast⟩ := List.append_inj' hsplit rfl
        obtain ⟨-, rfl, -⟩ : w = v ∧ other = value ∧ Make.Assignment.simple = assignment := by
          simpa using hlast
        exact hother
      · have hrest : bindings ++ [(w, other, Make.Assignment.simple)] =
            (before ++ (v, value, assignment) :: rest) ++ [last] := by
          simpa using hsplit
        exact ih (List.append_inj' hrest rfl).1

/-- All assignments together use only assigned variables. -/
theorem InOrder.usesOnly {bindings : Bindings} (h : InOrder bindings) :
    ∀ entry ∈ bindings, '$' ∉ entry.1.name.toList ∧
      entry.2.1.UsesOnly fun name => ⟨name⟩ ∈ bindings.keys := by
  induction h with
  | nil => exact fun entry hentry => absurd hentry List.not_mem_nil
  | @append bindings w other h hw hother ih =>
      have hmore : ∀ name : String, (⟨name⟩ : Variable) ∈ bindings.keys →
          ⟨name⟩ ∈ (bindings.append w (other, Make.Assignment.simple)).keys := fun name hname => by
        rw [Table.keys_append]
        exact List.mem_append_left _ hname
      intro entry hentry
      rw [Table.append_eq] at hentry
      rcases List.mem_append.mp hentry with hentry | hentry
      · obtain ⟨hv, hvalue⟩ := ih entry hentry
        exact ⟨hv, hvalue.mono hmore⟩
      · obtain rfl := List.mem_singleton.mp hentry
        exact ⟨hw, hother.mono hmore⟩

/-- **The invariant.** A model whose declarations use only what is declared, global variables in their
    order. Only recipes are definitions, so that a name without their mark is that of a variable. -/
structure Settled (m : Makefile) : Prop where
  comma : IsGlobal m ","
  inOrder : InOrder m.globals
  wildcards : ∃ bindings, m.scopes = [(.any, bindings)] ∧ ∀ entry ∈ bindings,
    '$' ∉ entry.1.name.toList ∧ entry.2.1.UsesOnly (IsGlobal m)
  defined : ∀ entry ∈ m.defines, isRecipeName entry.1 = true ∧ '$' ∉ entry.1.name.toList ∧
    ∀ line ∈ entry.2, line.UsesOnly (IsKnown m)

theorem settled_empty : Settled .empty where
  comma := List.mem_cons_self
  inOrder := InOrder.nil.append (by decide) (.of_not_mem (by decide))
  wildcards := ⟨[], rfl, fun entry hentry => absurd hentry List.not_mem_nil⟩
  defined := fun entry hentry => absurd hentry List.not_mem_nil

/-- A declaration that uses only what a model declares; a recipe also uses its program. -/
def Declaration.Supported (m : Makefile) : Declaration → Prop
  | .global v value | .wildcard v value => '$' ∉ v.name.toList ∧ value.UsesOnly (IsGlobal m)
  | .recipe v lines program command =>
      isRecipeName v = true ∧ '$' ∉ v.name.toList ∧ '$' ∉ program.name.toList ∧
        command.UsesOnly (IsGlobal m) ∧
        ∀ line ∈ lines, line.UsesOnly fun name => IsKnown m name ∨ name = program.name

/-- A variable that is no recipe is global when its name is taken. -/
theorem Settled.isGlobal (h : Settled m) {v : Variable} (hv : isRecipeName v = false)
    (hmade : v ∈ m.globals.keys ∨ v ∈ m.defines.keys) : v ∈ m.globals.keys := by
  rcases hmade with hglobal | hdefined
  · exact hglobal
  · obtain ⟨entry, hentry, rfl⟩ := List.mem_map.mp hdefined
    rw [(h.defined entry hentry).1] at hv
    cases hv

theorem Settled.adoptGlobal (h : Settled m) {v : Variable} {value : Command}
    (hv : '$' ∉ v.name.toList) (hvalue : value.UsesOnly (IsGlobal m)) :
    Settled (adoptGlobal m v value) := by
  have hgrows := grows_adoptGlobal m v value
  obtain ⟨bindings, hscopes, hbindings⟩ := h.wildcards
  have hscopes' : (Generate.adoptGlobal m v value).scopes = m.scopes := by
    unfold Generate.adoptGlobal
    split <;> rfl
  refine ⟨hgrows.isGlobal h.comma, ?_, ⟨bindings, hscopes'.trans hscopes, ?_⟩, ?_⟩
  · unfold Generate.adoptGlobal
    split
    · exact h.inOrder
    · exact h.inOrder.append hv hvalue
  · intro entry hentry
    obtain ⟨hname, huses⟩ := hbindings entry hentry
    exact ⟨hname, huses.mono fun _ => hgrows.isGlobal⟩
  · rw [defines_adoptGlobal]
    intro entry hentry
    obtain ⟨hrecipe, hname, hlines⟩ := h.defined entry hentry
    exact ⟨hrecipe, hname, fun line hline => (hlines line hline).mono fun _ => hgrows.isKnown⟩

theorem Settled.adoptWildcard (h : Settled m) {v : Variable} {value : Command}
    (hv : '$' ∉ v.name.toList) (hvalue : value.UsesOnly (IsGlobal m)) :
    Settled (adoptWildcard m v value) := by
  obtain ⟨bindings, hscopes, hbindings⟩ := h.wildcards
  by_cases hdeclared : m.declares v (some .any) = true
  · have hsame : Generate.adoptWildcard m v value = m := if_pos hdeclared
    rwa [hsame]
  · have hgrows := grows_adoptWildcard m v value
    have hsame : Generate.adoptWildcard m v value =
        { m with scopes := [(.any, bindings.append v (value, .simple))] } := by
      have hold : m.bindings (some .any) = bindings := by
        rw [Makefile.bindings, hscopes]
        rfl
      unfold Generate.adoptWildcard
      rw [if_neg hdeclared, hold, hscopes, Table.insert, if_pos rfl]
    rw [hsame] at hgrows ⊢
    refine ⟨h.comma, h.inOrder, ⟨_, rfl, ?_⟩, ?_⟩
    · intro entry hentry
      rw [Table.append_eq] at hentry
      rcases List.mem_append.mp hentry with hentry | hentry
      · exact hbindings entry hentry
      · obtain rfl := List.mem_singleton.mp hentry
        exact ⟨hv, hvalue⟩
    · intro entry hentry
      obtain ⟨hrecipe, hname, hlines⟩ := h.defined entry hentry
      exact ⟨hrecipe, hname, fun line hline => (hlines line hline).mono fun _ => hgrows.isKnown⟩

/-- **One declaration** that uses only what the model has. -/
theorem Settled.adopt (h : Settled m) (hd : d.Supported m) : Settled (adopt m d) := by
  have hgrows := grows_adopt m d
  cases d with
  | global v value => exact h.adoptGlobal hd.1 hd.2
  | wildcard v value => exact h.adoptWildcard hd.1 hd.2
  | recipe v lines program command =>
      obtain ⟨hrecipe, hv, hprogram, hcommand, hlines⟩ := hd
      have hprogrammed := h.adoptGlobal hprogram hcommand
      have hmade := mem_adoptGlobal m program command
      have hold := grows_adoptGlobal m program command
      by_cases hdeclared : m.declares v none = true
      · have hsame : Generate.adopt m (.recipe v lines program command) = m := if_pos hdeclared
        rwa [hsame]
      · have hsame : Generate.adopt m (.recipe v lines program command) =
            { Generate.adoptGlobal m program command with
              defines := (Generate.adoptGlobal m program command).defines.append v lines } :=
          if_neg hdeclared
        have hnew : Grows (Generate.adoptGlobal m program command)
            (Generate.adopt m (.recipe v lines program command)) := by
          rw [hsame]
          refine ⟨List.Subset.refl _, ?_, List.Subset.refl _⟩
          rw [Table.keys_append]
          exact List.subset_append_left _ _
        rw [hsame] at hnew ⊢
        refine ⟨hprogrammed.comma, hprogrammed.inOrder, hprogrammed.wildcards, ?_⟩
        intro entry hentry
        rw [Table.append_eq] at hentry
        rcases List.mem_append.mp hentry with hentry | hentry
        · obtain ⟨hmark, hname, hold⟩ := hprogrammed.defined entry hentry
          exact ⟨hmark, hname, fun line hline => (hold line hline).mono fun _ => hnew.isKnown⟩
        · obtain rfl := List.mem_singleton.mp hentry
          refine ⟨hrecipe, hv, fun line hline => (hlines line hline).mono fun name hname => ?_⟩
          rcases hname with hknown | rfl
          · exact hnew.isKnown (hold.isKnown hknown)
          · rcases hmade with hglobal | hdefined
            · exact .inr (.inl (hnew.globals hglobal))
            · exact .inr (.inr (.inl (hnew.defines hdefined)))

end Invariant

end MakeGraph.Generate
