import MakeGraph.Proofs.Make.Expansion
import MakeGraph.Proofs.Table
import Mathlib.Data.List.MinMax

/-!
# `Proofs.Make.Lookup` — what a variable holds where a recipe runs

A variable may hold a value for one target, for the targets that match a pattern, and for the whole
file. A target hands its values on to its prerequisites, and these to theirs, so what a recipe sees
depends on the way on which make comes to its target. `lookup` is make's order: the assignments for the
target itself, the patterns that it matches, then the same for the target that asked for it and so on
up to the goal, and the global variables at last.

A target is known by the text that is written for it, as it is in the model.

## Contents

* `references` — the variables that a line refers to
* `ownValue?`, `patternValue?`, `lookup` — make's order
* `ownValue?_eq_override?` — a target of one rule has the values of this rule
* `lookup_of_scopes` — a variable of all targets is never handed on
* `lookup_eq_globals` — a variable that nothing sets has its global value
* `setting?` — the value for the targets of a rule, wherever make comes from
* `expandGlobals`, `resolve_toPiece` — values that refer to global variables
-/

namespace MakeGraph.Make

/-! ## What a line refers to -/

/-- The names of the variables that a text refers to, begun in the middle of something. -/
def referencesFrom : Reading → List Char → List String
  | _, [] => []
  | .text, c :: cs => if c = '$' then referencesFrom .dollar cs else referencesFrom .text cs
  | .dollar, c :: cs =>
      if c = '$' then referencesFrom .text cs
      else if c = '(' then referencesFrom (.name []) cs
      else String.singleton c :: referencesFrom .text cs
  | .name read, c :: cs =>
      if c = ')' then String.ofList read :: referencesFrom .text cs
      else referencesFrom (.name (read ++ [c])) cs

/-- The names of the variables that the text of a command refers to. -/
def Command.references (command : Command) : List String :=
  referencesFrom .text command.render.toList

/-! ## Make's order -/

/-- What a variable holds after assignments: a later one takes the place of an earlier one. -/
def assigned? (assignments : Table Variable Command) (v : Variable) : Option Command :=
  Table.find? assignments.reverse v

/-- The value that a rule sets for its targets. -/
def Rule.override? (rule : Rule) (v : Variable) : Option Command :=
  assigned? rule.overrides v

/-- What the wildcard of a pattern stands for in a target that matches it; this is never nothing. -/
def Pattern.stem? (p : Pattern) (target : String) : Option String := do
  let rest ← Text.dropLead? (escape .target p.before) target
  let stem ← Text.dropTail? (escape .target p.after) rest
  if stem = "" then none else some stem

namespace Makefile

/-- The assignments for a target, in the order in which they are written. -/
def assignments (m : Makefile) (target : String) : Table Variable Command :=
  m.rules.flatMap fun rule => if target ∈ rule.claims then rule.overrides else []

/-- The value of a variable that is assigned for a target itself. -/
def ownValue? (m : Makefile) (v : Variable) (target : String) : Option Command :=
  assigned? (m.assignments target) v

/-- The value of a scope for a target, with the length of what the wildcard stands for. -/
def scopedValue? (v : Variable) (target : String) (scope : Pattern × Bindings) :
    Option (Nat × Command) := do
  let stem ← scope.1.stem? target
  let binding ← scope.2.find? v
  return (stem.length, binding.1)

/-- The value of a variable by the patterns that a target matches: the pattern counts whose wildcard
    stands for the least, the last one of several. -/
def patternValue? (m : Makefile) (v : Variable) (target : String) : Option Command :=
  ((m.scopes.reverse.filterMap (scopedValue? v target)).argmin (·.1)).map (·.2)

/-- **What a variable holds** where the recipe of a target runs. The list is the way to the target,
    backwards: the target, the one that it is a prerequisite of, and so on. -/
def lookup (m : Makefile) (v : Variable) : List String → Option Command
  | [] => (m.globals.find? v).map (·.1)
  | target :: way =>
      ((m.ownValue? v target).or (m.patternValue? v target)).or (lookup m v way)

/-- What a variable holds for the targets of a rule: the value that the rule sets, or that of all
    targets. -/
def setting? (m : Makefile) (rule : Rule) (v : Variable) : Option Command :=
  (rule.override? v).or (((m.bindings (some .any)).find? v).map (·.1))

end Makefile

/-! ## The values of a rule -/

theorem Rule.override?_of_nil {rule : Rule} (h : rule.overrides = []) (v : Variable) :
    rule.override? v = none := by
  rw [override?, h]
  rfl

theorem Rule.override?_of_singleton {rule : Rule} {v : Variable} {value : Command}
    (h : rule.overrides = [(v, value)]) : rule.override? v = some value := by
  rw [override?, h, assigned?, List.reverse_singleton, Table.find?, if_pos rfl]

namespace Makefile

variable {m : Makefile} {rule : Rule} {target : String}

/-- A target that one rule has is assigned the values of this rule and no others. -/
theorem assignments_eq_overrides {rules : List Rule} (hnodup : (rules.flatMap Rule.claims).Nodup)
    (hrule : rule ∈ rules) (htarget : target ∈ rule.claims) :
    (rules.flatMap fun rule => if target ∈ rule.claims then rule.overrides else []) =
      rule.overrides := by
  induction rules with
  | nil => exact absurd hrule List.not_mem_nil
  | cons first rules ih =>
      rw [List.flatMap_cons] at hnodup ⊢
      obtain ⟨-, hnodup', hdisjoint⟩ := List.nodup_append.mp hnodup
      have hmem : ∀ other ∈ rules, target ∈ other.claims → target ∈ rules.flatMap Rule.claims :=
        fun other hother h => List.mem_flatMap.mpr ⟨other, hother, h⟩
      rcases List.mem_cons.mp hrule with rfl | hrule
      · have hnone : (rules.flatMap fun rule =>
            if target ∈ rule.claims then rule.overrides else []) = [] := by
          refine List.flatMap_eq_nil_iff.mpr fun other hother => if_neg fun h => ?_
          exact hdisjoint target htarget target (hmem other hother h) rfl
        rw [if_pos htarget, hnone, List.append_nil]
      · have hfirst : target ∉ first.claims := fun h =>
          hdisjoint target h target (hmem rule hrule htarget) rfl
        rw [if_neg hfirst, List.nil_append]
        exact ih hnodup' hrule

/-- **A target of a rule** has the values that the rule sets. -/
theorem ownValue?_eq_override? (hnodup : (m.rules.flatMap Rule.claims).Nodup)
    (hrule : rule ∈ m.rules) (htarget : target ∈ rule.claims) (v : Variable) :
    m.ownValue? v target = rule.override? v := by
  unfold ownValue? Rule.override? assignments
  rw [assignments_eq_overrides hnodup hrule htarget]

/-! ## Variables of all targets -/

/-- Every target matches `%`. -/
theorem stem?_any (htarget : target ≠ "") : Pattern.any.stem? target = some target := by
  have hlead : Text.dropLead? (escape .target Pattern.any.before) target = some target := by
    rw [Text.dropLead?_eq_some_iff]
    exact String.empty_append.symm
  have htail : Text.dropTail? (escape .target Pattern.any.after) target = some target := by
    rw [Text.dropTail?_eq_some_iff]
    exact String.append_empty.symm
  unfold Pattern.stem?
  rw [hlead, Option.bind_eq_bind, Option.bind_some, htail, Option.bind_some, if_neg htarget]

/-- If there is no scope but that of all targets, its values are those of every target. -/
theorem patternValue?_of_scopes {bindings : Bindings} (hscopes : m.scopes = [(.any, bindings)])
    (htarget : target ≠ "") (v : Variable) :
    m.patternValue? v target = (bindings.find? v).map (·.1) := by
  unfold patternValue?
  rw [hscopes, List.reverse_singleton]
  cases hfind : bindings.find? v with
  | none => simp [scopedValue?, stem?_any htarget, hfind]
  | some binding => simp [scopedValue?, stem?_any htarget, hfind]

/-- **A variable of all targets is never handed on**: a target of a rule has the rule's own value or
    that of all targets, whoever asked for it. -/
theorem lookup_of_scopes {bindings : Bindings} {v : Variable} {value : Command}
    {assignment : Assignment} (hscopes : m.scopes = [(.any, bindings)])
    (hvalue : bindings.find? v = some (value, assignment))
    (hnodup : (m.rules.flatMap Rule.claims).Nodup) (hrule : rule ∈ m.rules)
    (htarget : target ∈ rule.claims) (hname : target ≠ "") (way : List String) :
    m.lookup v (target :: way) = some ((rule.override? v).getD value) := by
  have hpattern : m.patternValue? v target = some value := by
    rw [patternValue?_of_scopes hscopes hname, hvalue]
    rfl
  rw [lookup, ownValue?_eq_override? hnodup hrule htarget, hpattern]
  cases rule.override? v <;> rfl

/-! ## Variables that nothing sets -/

theorem assigned?_eq_none {assignments : Table Variable Command} {v : Variable}
    (h : ∀ entry ∈ assignments, entry.1 ≠ v) : assigned? assignments v = none := by
  unfold assigned?
  cases hfind : Table.find? assignments.reverse v with
  | none => rfl
  | some value =>
      exact absurd rfl (h _ (List.mem_reverse.mp (Table.mem_of_find? hfind)))

/-- **A variable that no rule and no scope sets** has its global value, wherever make comes from. -/
theorem lookup_eq_globals {v : Variable} (hrules : ∀ rule ∈ m.rules, ∀ entry ∈ rule.overrides, entry.1 ≠ v)
    (hscopes : ∀ scope ∈ m.scopes, ∀ entry ∈ scope.2, entry.1 ≠ v) (way : List String) :
    m.lookup v way = (m.globals.find? v).map (·.1) := by
  have hown : ∀ target, m.ownValue? v target = none := by
    intro target
    refine assigned?_eq_none fun entry hentry => ?_
    obtain ⟨rule, hrule, hentry⟩ := List.mem_flatMap.mp hentry
    split at hentry
    · exact hrules rule hrule entry hentry
    · exact absurd hentry List.not_mem_nil
  have hpattern : ∀ target, m.patternValue? v target = none := by
    intro target
    have hnone : m.scopes.reverse.filterMap (scopedValue? v target) = [] := by
      refine List.filterMap_eq_nil_iff.mpr fun scope hscope => ?_
      have hfree : scope.2.find? v = none := by
        cases hfind : scope.2.find? v with
        | none => rfl
        | some value =>
            exact absurd rfl (hscopes scope (List.mem_reverse.mp hscope) _ (Table.mem_of_find? hfind))
      rw [scopedValue?, hfree]
      cases scope.1.stem? target <;> rfl
    rw [patternValue?, hnone]
    rfl
  induction way with
  | nil => rfl
  | cons target way ih =>
      rw [lookup, hown, hpattern, ih]
      rfl

end Makefile

/-! ## References to global variables -/

/-- The words of a value, as pieces. -/
def Command.pieces : Command → List Piece
  | .line piece => [piece]
  | .words pieces => pieces

theorem length_reference_eq_two_iff {name : String} :
    (reference name).length = 2 ↔ name.length = 1 := by
  have hopen : "$(".length = 2 := by decide
  have hdollar : "$".length = 1 := by decide
  have hclose : ")".length = 1 := by decide
  unfold reference
  split
  · next h => simp [h, hdollar]
  · next h =>
      rw [String.length_append, String.length_append]
      omega

/-- Different variables are referred to in different ways. -/
theorem reference_injective {name name' : String} (h : reference name = reference name') :
    name = name' := by
  have hiff : name.length = 1 ↔ name'.length = 1 := by
    rw [← length_reference_eq_two_iff, h, length_reference_eq_two_iff]
  by_cases hone : name.length = 1
  · rw [reference, reference, if_pos hone, if_pos (hiff.mp hone)] at h
    exact (String.append_right_inj _).mp h
  · rw [reference, reference, if_neg hone, if_neg fun hone' => hone (hiff.mpr hone')] at h
    exact (String.append_right_inj _).mp ((String.append_left_inj _).mp h)

namespace Makefile

/-- The words that a piece of a value stands for: those of a global variable if it refers to one. -/
def resolve (m : Makefile) : Piece → List Piece
  | .verbatim text =>
      match List.find? (fun entry => reference entry.1.name = text) m.globals with
      | some (_, value, _) => value.pieces
      | none => [.verbatim text]
  | piece => [piece]

/-- The words of a value in which references to global variables are expanded. -/
def expandGlobals (m : Makefile) (value : Command) : List Piece :=
  value.pieces.flatMap m.resolve

/-- A reference to a global variable stands for the words that the variable holds. -/
theorem resolve_toPiece {m : Makefile} {v : Variable} {value : Command} {assignment : Assignment}
    (h : m.globals.find? v = some (value, assignment)) :
    m.resolve v.toPiece = value.pieces := by
  have hfind : ∀ globals : Bindings, globals.find? v = some (value, assignment) →
      List.find? (fun entry => reference entry.1.name = reference v.name) globals =
        some (v, value, assignment) := by
    intro globals
    induction globals with
    | nil => exact fun h => by cases h
    | cons entry globals ih =>
        intro h
        obtain ⟨w, found⟩ := entry
        by_cases hw : w = v
        · subst hw
          rw [Table.find?, if_pos rfl] at h
          rw [List.find?_cons_of_pos (by simp), Option.some.inj h]
        · have hne : ¬ reference w.name = reference v.name := fun heq =>
            hw (congrArg Variable.mk (reference_injective heq))
          rw [Table.find?, if_neg hw] at h
          rw [List.find?_cons_of_neg (by simpa using hne)]
          exact ih h
  unfold resolve Variable.toPiece
  dsimp only
  rw [hfind m.globals h]

/-- Pieces that refer to nothing stand for themselves. -/
theorem flatMap_resolve_of_no_verbatim (m : Makefile) {pieces : List Piece}
    (h : ∀ text, .verbatim text ∉ pieces) : pieces.flatMap m.resolve = pieces := by
  induction pieces with
  | nil => rfl
  | cons piece pieces ih =>
      have hpiece : m.resolve piece = [piece] := by
        cases piece with
        | verbatim text => exact absurd List.mem_cons_self (h text)
        | plain text => rfl
        | path p => rfl
        | sequence parts => rfl
      rw [List.flatMap_cons, hpiece, ih fun text hmem => h text (List.mem_cons_of_mem piece hmem)]
      rfl

end Makefile

end MakeGraph.Make
