import MakeGraph.Proofs.Make.Changes

/-!
# `Proofs.Make.Appends` — what an operation adds

What a succeeding operation writes is one entry, behind all others of its table (`appends_of_apply`), or
nothing where a variable is there already. So nothing that was declared is ever changed or moved, over a
whole run (`entries_isPrefix_foldl`).

## Contents

* `Place`, `Entry`, `entries` — what is in a model
* `Appends`, `appends_global` and others — one entry more
* `Operation.addition?`, `appends_of_apply` — what an operation adds
* `entries_isPrefix_foldl` — what a run leaves alone
-/

namespace MakeGraph.Make.Makefile

/-! ## What an operation adds -/

/-- A table or list of a model. -/
inductive Place where
  /-- The global variables. -/
  | globals
  /-- The variables of one pattern. -/
  | scope (pattern : Pattern)
  /-- The definitions. -/
  | defines
  /-- The rules. -/
  | rules
  /-- The include directives. -/
  | includes

/-- What stands at a place, with its value. -/
inductive Entry where
  /-- A variable, global or scoped. -/
  | variable (v : Variable) (value : Command) (assignment : Assignment)
  /-- A definition. -/
  | definition (v : Variable) (lines : List Command)
  /-- A rule. -/
  | rule (rule : Rule)
  /-- An include directive. -/
  | inclusion (inc : Include)

/-- The entries of one scope. -/
def boundEntries (bindings : Bindings) : List Entry :=
  bindings.map fun (v, value, assignment) => .variable v value assignment

/-- **The entries at a place**, in their order. -/
def entries (m : Makefile) : Place → List Entry
  | .globals => boundEntries m.globals
  | .scope pattern => boundEntries (m.bindings (some pattern))
  | .defines => m.defines.map fun (v, lines) => .definition v lines
  | .rules => m.rules.map .rule
  | .includes => m.includes.map .inclusion

/-- The scope that an entry at a place makes, if there is none for its pattern. -/
def Place.newScope (m : Makefile) : Place → List Pattern
  | .scope pattern => if m.scopes.contains pattern then [] else [pattern]
  | _ => []

/-- The targets that an entry claims. -/
def Entry.claims : Entry → List String
  | .rule added => added.claims
  | _ => []

/-- **Exactly one entry is new** in a model, and it stands behind all others of its place. -/
structure Appends (m : Makefile) (place : Place) (entry : Entry) (m' : Makefile) : Prop where
  here : m'.entries place = m.entries place ++ [entry]
  elsewhere : ∀ other, other ≠ place → m'.entries other = m.entries other
  /-- Scopes keep their places too, and a new one stands behind all others. -/
  scopes : m'.scopes.keys = m.scopes.keys ++ place.newScope m
  claimed : m'.claimed = m.claimed ++ entry.claims

section Appends

variable (m : Makefile)

theorem boundEntries_append (bindings : Bindings) (v : Variable) (value : Command)
    (assignment : Assignment) :
    boundEntries (bindings.append v (value, assignment)) =
      boundEntries bindings ++ [.variable v value assignment] := by
  simp [boundEntries, Table.append_eq]

theorem appends_global (v : Variable) (value : Command) (assignment : Assignment) :
    Appends m .globals (.variable v value assignment)
      { m with globals := m.globals.append v (value, assignment) } where
  here := boundEntries_append m.globals v value assignment
  elsewhere other hother := by
    cases other with
    | globals => exact absurd rfl hother
    | scope pattern => rfl
    | defines => rfl
    | rules => rfl
    | includes => rfl
  scopes := (List.append_nil _).symm
  claimed := (List.append_nil _).symm

theorem appends_definition (v : Variable) (lines : List Command) :
    Appends m .defines (.definition v lines) { m with defines := m.defines.append v lines } where
  here := by simp [entries, Table.append_eq]
  elsewhere other hother := by
    cases other with
    | defines => exact absurd rfl hother
    | globals => rfl
    | scope pattern => rfl
    | rules => rfl
    | includes => rfl
  scopes := (List.append_nil _).symm
  claimed := (List.append_nil _).symm

theorem appends_scoped (pattern : Pattern) (v : Variable) (value : Command)
    (assignment : Assignment) :
    Appends m (.scope pattern) (.variable v value assignment)
      { m with scopes :=
          m.scopes.insert pattern ((m.bindings (some pattern)).append v (value, assignment)) } where
  here := by
    simp only [entries, bindings, Table.find?_insert, if_true, Option.getD_some]
    exact boundEntries_append _ v value assignment
  elsewhere other hother := by
    cases other with
    | scope pattern' =>
        have hne : pattern ≠ pattern' := by
          rintro rfl
          exact hother rfl
        simp only [entries, bindings, Table.find?_insert, if_neg hne]
    | globals => rfl
    | defines => rfl
    | rules => rfl
    | includes => rfl
  scopes := by
    rw [Table.keys_insert]
    unfold Place.newScope
    by_cases h : m.scopes.contains pattern = true
    · simp [h]
    · simp [h]
  claimed := (List.append_nil _).symm

theorem appends_rule (rule : Rule) :
    Appends m .rules (.rule rule)
      { m with rules := m.rules ++ [rule], claimed := m.claimed ++ rule.claims } where
  here := by simp [entries]
  elsewhere other hother := by
    cases other with
    | rules => exact absurd rfl hother
    | globals => rfl
    | scope pattern => rfl
    | defines => rfl
    | includes => rfl
  scopes := (List.append_nil _).symm
  claimed := rfl

theorem appends_inclusion (name : Piece) (optional : Bool) :
    Appends m .includes (.inclusion ⟨name, optional⟩) (m.addInclude name optional) where
  here := by simp [entries, Makefile.addInclude]
  elsewhere other hother := by
    cases other with
    | includes => exact absurd rfl hother
    | globals => rfl
    | scope pattern => rfl
    | defines => rfl
    | rules => rfl
  scopes := (List.append_nil _).symm
  claimed := (List.append_nil _).symm

end Appends

/-- The entry that a declaration adds, and its place. A definition has no scope. -/
def declared? (v : Variable) (value : Command) : Flavor → Option Pattern → Option (Place × Entry)
  | .assigned assignment, none => some (.globals, .variable v value assignment)
  | .assigned assignment, some pattern => some (.scope pattern, .variable v value assignment)
  | .defined, none => some (.defines, .definition v [value])
  | .defined, some _ => none

/-- **The entry that an operation adds** when it succeeds, and its place. -/
def Operation.addition? : Operation → Option (Place × Entry)
  | declare v value flavor scope => declared? v value flavor scope
  | declareOnce v value flavor scope => declared? v value flavor scope
  | define v lines => some (.defines, .definition v lines)
  | addRule rule => some (.rules, .rule rule)
  | addInclude name optional => some (.includes, .inclusion ⟨name, optional⟩)

/-- Whether an operation asks for a name that may be declared already, and is. -/
def Operation.Reuses (m : Makefile) : Operation → Prop
  | declareOnce v _ _ scope => m.declares v scope = true
  | _ => False

theorem appends_of_declare {m m' : Makefile} {v : Variable} {value : Command} {flavor : Flavor}
    {scope : Option Pattern} (h : m.declare v value flavor scope = .ok m') :
    ∃ place entry, declared? v value flavor scope = some (place, entry) ∧
      Appends m place entry m' := by
  obtain ⟨-, ⟨pattern, assignment, rfl, rfl, rfl⟩ | ⟨rfl, rfl, rfl⟩ | ⟨assignment, rfl, rfl, rfl⟩⟩ :=
    declare_ok h
  · exact ⟨_, _, rfl, appends_scoped m pattern v value assignment⟩
  · exact ⟨_, _, rfl, appends_definition m v [value]⟩
  · exact ⟨_, _, rfl, appends_global m v value assignment⟩

/-- **A succeeding operation** appends its entry, unless the name that it asks for is declared
    already. -/
theorem appends_of_apply {m m' : Makefile} {op : Operation} (h : op.apply m = .ok m') :
    (op.Reuses m ∧ m' = m) ∨
      (¬op.Reuses m ∧ ∃ place entry, op.addition? = some (place, entry) ∧
        Appends m place entry m') := by
  cases op with
  | declare v value flavor scope => exact .inr ⟨id, appends_of_declare h⟩
  | declareOnce v value flavor scope =>
      change m.declareOnce v value flavor scope = .ok m' at h
      unfold Makefile.declareOnce at h
      by_cases hdeclares : m.declares v scope = true
      · rw [if_pos hdeclares] at h
        exact .inl ⟨hdeclares, (Except.ok.inj h).symm⟩
      · rw [if_neg hdeclares] at h
        exact .inr ⟨hdeclares, appends_of_declare h⟩
  | define v lines =>
      obtain ⟨-, rfl⟩ := define_ok h
      exact .inr ⟨id, _, _, rfl, appends_definition m v lines⟩
  | addRule rule =>
      obtain ⟨-, -, -, rfl⟩ := addRule_ok_iff.mp h
      exact .inr ⟨id, _, _, rfl, appends_rule m rule⟩
  | addInclude name optional =>
      obtain rfl := Except.ok.inj h
      exact .inr ⟨id, _, _, rfl, appends_inclusion m name optional⟩

/-- One operation, whether it succeeds or fails, leaves all entries where they are. -/
theorem entries_isPrefix_perform (m : Makefile) (op : Operation) (place : Place) :
    m.entries place <+: (m.perform op).entries place := by
  unfold perform
  cases h : op.apply m with
  | error e => exact List.prefix_refl _
  | ok m' =>
      rcases appends_of_apply h with ⟨-, rfl⟩ | ⟨-, there, entry, -, hm'⟩
      · exact List.prefix_refl _
      · by_cases hplace : place = there
        · subst hplace
          rw [hm'.here]
          exact List.prefix_append _ _
        · exact ⟨[], by rw [List.append_nil, hm'.elsewhere place hplace]⟩

/-- **Entries keep their values and places** over every run that follows. -/
theorem entries_isPrefix_foldl (m : Makefile) (ops : List Operation) (place : Place) :
    m.entries place <+: (ops.foldl perform m).entries place := by
  induction ops generalizing m with
  | nil => exact List.prefix_refl _
  | cons op ops ih => exact (entries_isPrefix_perform m op place).trans (ih (m.perform op))

end MakeGraph.Make.Makefile
