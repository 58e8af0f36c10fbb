import MakeGraph.Make.Model
import MakeGraph.Proofs.Table

/-!
# `Proofs.Make.Consistent` — what every reachable Makefile model satisfies

A model keeps its claimed targets beside its rules, and its global variables beside its definitions,
which share their names. Nothing in the type ties these together; the operations do.

* **One step.** `declare_ok`, `define_ok` and `addRule_ok_iff` say everything that a succeeding
  operation does to a model. Each keeps the invariant `Consistent`.
* **A whole run.** An `Operation` is a call with its arguments; `run` performs a list of them on the
  empty model and goes on after a failing one. Every model that a run reaches is `Consistent`
  (`consistent_run`) and therefore `Coherent`: its index, its tables and its answers agree with the
  rules and declarations that it holds.
-/

namespace MakeGraph.Make.Makefile

/-! ## What a succeeding operation does -/

/-- Nothing is found taken exactly when the texts are new and all different. -/
theorem firstTaken?_eq_none_iff {texts taken : List String} :
    firstTaken? taken texts = none ↔ texts.Nodup ∧ ∀ text ∈ texts, text ∉ taken := by
  induction texts generalizing taken with
  | nil => simp [firstTaken?]
  | cons text rest ih =>
      by_cases ht : text ∈ taken
      · simp [firstTaken?, ht]
      · rw [firstTaken?, if_neg ht, ih, List.nodup_cons]
        constructor
        · rintro ⟨hnodup, hnew⟩
          refine ⟨⟨fun hmem => hnew text hmem (by simp), hnodup⟩, ?_⟩
          intro other hother
          rcases List.mem_cons.mp hother with rfl | hrest
          · exact ht
          · exact fun hmem => hnew other hrest (List.mem_append_left _ hmem)
        · rintro ⟨⟨hmem, hnodup⟩, hnew⟩
          refine ⟨hnodup, fun other hother hin => ?_⟩
          rcases List.mem_append.mp hin with htaken | heq
          · exact hnew other (List.mem_cons_of_mem _ hother) htaken
          · exact hmem (List.mem_singleton.mp heq ▸ hother)

/-- **Adding a rule.** It succeeds exactly when the rule has targets that are new and all different,
    and then appends the rule and claims its targets. -/
theorem addRule_ok_iff {m m' : Makefile} {rule : Rule} :
    m.addRule rule = .ok m' ↔
      rule.targets ≠ [] ∧ rule.claims.Nodup ∧ (∀ text ∈ rule.claims, text ∉ m.claimed) ∧
        m' = { m with rules := m.rules ++ [rule], claimed := m.claimed ++ rule.claims } := by
  unfold addRule
  by_cases he : rule.targets = []
  · simp [he]
  · rw [if_neg (by simpa using he)]
    cases ht : firstTaken? m.claimed rule.claims with
    | none =>
        have hnew := firstTaken?_eq_none_iff.mp ht
        simp only [Except.ok.injEq]
        exact ⟨fun h => ⟨he, hnew.1, hnew.2, h.symm⟩, fun h => h.2.2.2.symm⟩
    | some target =>
        have hnot : ¬ (rule.claims.Nodup ∧ ∀ text ∈ rule.claims, text ∉ m.claimed) := by
          intro hnew
          rw [firstTaken?_eq_none_iff.mpr hnew] at ht
          exact absurd ht (by simp)
        simp only [reduceCtorEq, false_iff]
        exact fun h => hnot ⟨h.2.1, h.2.2.1⟩

theorem requireFree_ok_iff {m : Makefile} {v : Variable} {scope : Option Pattern} :
    m.requireFree v scope = .ok () ↔ m.declares v scope = false := by
  unfold requireFree
  cases m.declares v scope <;> simp

/-- **Declaring a variable.** A succeeding declaration was of a name that its scope did not have, and
    appends one entry to one table: of the scope, of the definitions, or of the globals. -/
theorem declare_ok {m m' : Makefile} {v : Variable} {value : Command} {flavor : Flavor}
    {scope : Option Pattern} (h : m.declare v value flavor scope = .ok m') :
    m.declares v scope = false ∧
      ((∃ pattern assignment, scope = some pattern ∧ flavor = .assigned assignment ∧
          m' = { m with
            scopes := m.scopes.insert pattern
              ((m.bindings scope).append v (value, assignment)) }) ∨
       (scope = none ∧ flavor = .defined ∧
          m' = { m with defines := m.defines.append v [value] }) ∨
       (∃ assignment, scope = none ∧ flavor = .assigned assignment ∧
          m' = { m with globals := m.globals.append v (value, assignment) })) := by
  unfold declare at h
  cases hf : m.requireFree v scope with
  | error e => rw [hf] at h; cases h
  | ok u =>
      rw [hf] at h
      refine ⟨requireFree_ok_iff.mp hf, ?_⟩
      cases flavor with
      | defined =>
          cases scope with
          | none => exact Or.inr (Or.inl ⟨rfl, rfl, (Except.ok.inj h).symm⟩)
          | some pattern => cases h
      | assigned assignment =>
          cases scope with
          | none => exact Or.inr (Or.inr ⟨assignment, rfl, rfl, (Except.ok.inj h).symm⟩)
          | some pattern =>
              exact Or.inl ⟨pattern, assignment, rfl, rfl, (Except.ok.inj h).symm⟩

/-- **Defining several lines.** A succeeding definition was of a name that neither the globals nor the
    definitions had. -/
theorem define_ok {m m' : Makefile} {v : Variable} {lines : List Command}
    (h : m.define v lines = .ok m') :
    m.declares v none = false ∧ m' = { m with defines := m.defines.append v lines } := by
  unfold define at h
  cases hf : m.requireFree v none with
  | error e => rw [hf] at h; cases h
  | ok u =>
      rw [hf] at h
      exact ⟨requireFree_ok_iff.mp hf, (Except.ok.inj h).symm⟩

/-- A name is free as a global one when neither table has it. -/
theorem declares_none_eq_false_iff {m : Makefile} {v : Variable} :
    m.declares v none = false ↔ v ∉ m.globals.keys ∧ v ∉ m.defines.keys := by
  rw [← Table.contains_iff, ← Table.contains_iff]
  simp [declares, bindings]

/-! ## The invariant -/

/-- **The invariant.** What the operations keep in step with one another. -/
structure Consistent (m : Makefile) : Prop where
  /-- The claimed texts are those of the rules, in their order. -/
  claimed_eq : m.claimed = m.rules.flatMap Rule.claims
  claimed_nodup : m.claimed.Nodup
  targets_ne_nil : ∀ rule ∈ m.rules, rule.targets ≠ []
  globals_nodup : m.globals.keys.Nodup
  defines_nodup : m.defines.keys.Nodup
  /-- Global variables and definitions share their names. -/
  disjoint : ∀ v ∈ m.globals.keys, v ∉ m.defines.keys
  scopes_nodup : m.scopes.keys.Nodup
  bindings_nodup : ∀ scope ∈ m.scopes, scope.2.keys.Nodup
  comma_first : m.globals.head? = some (⟨","⟩, (.line (.plain ","), .simple))
  any_first : m.scopes.keys.head? = some .any

theorem consistent_empty : Consistent empty where
  claimed_eq := rfl
  claimed_nodup := List.nodup_nil
  targets_ne_nil := by simp [empty]
  globals_nodup := by simp [empty, Table.keys]
  defines_nodup := List.nodup_nil
  disjoint := by simp [empty, Table.keys]
  scopes_nodup := by simp [empty, Table.keys]
  bindings_nodup := by simp [empty, Table.keys]
  comma_first := rfl
  any_first := rfl

/-- The names of a scope stand there once, also when the scope has no entry yet. -/
theorem Consistent.nodup_bindings {m : Makefile} (hm : Consistent m) (pattern : Pattern) :
    (m.bindings (some pattern)).keys.Nodup := by
  show (Table.keys ((m.scopes.find? pattern).getD [])).Nodup
  cases hf : m.scopes.find? pattern with
  | none => exact List.nodup_nil
  | some bindings => exact hm.bindings_nodup (pattern, bindings) (Table.mem_of_find? hf)

theorem Consistent.addGlobal {m : Makefile} (hm : Consistent m) {v : Variable}
    (hv : m.declares v none = false) (value : Command × Assignment) :
    Consistent { m with globals := m.globals.append v value } := by
  have hfree := declares_none_eq_false_iff.mp hv
  -- only the table of globals grows, so only what is said of it needs a proof
  refine { hm with globals_nodup := ?_, disjoint := ?_, comma_first := ?_ }
  · exact Table.nodup_keys_append hm.globals_nodup hfree.1 value
  · intro w hw
    rw [Table.keys_append] at hw
    rcases List.mem_append.mp hw with hold | hnew
    · exact hm.disjoint w hold
    · exact List.mem_singleton.mp hnew ▸ hfree.2
  · rw [Table.append_eq, List.head?_append, hm.comma_first]
    rfl

theorem Consistent.addDefine {m : Makefile} (hm : Consistent m) {v : Variable}
    (hv : m.declares v none = false) (lines : List Command) :
    Consistent { m with defines := m.defines.append v lines } := by
  have hfree := declares_none_eq_false_iff.mp hv
  refine { hm with defines_nodup := ?_, disjoint := ?_ }
  · exact Table.nodup_keys_append hm.defines_nodup hfree.2 lines
  · intro w hw
    rw [Table.keys_append, List.mem_append, List.mem_singleton]
    rintro (hold | rfl)
    · exact hm.disjoint w hw hold
    · exact hfree.1 hw

theorem Consistent.addScoped {m : Makefile} (hm : Consistent m) {v : Variable} {pattern : Pattern}
    (hv : m.declares v (some pattern) = false) (value : Command × Assignment) :
    Consistent { m with
      scopes := m.scopes.insert pattern ((m.bindings (some pattern)).append v value) } := by
  have hfree : v ∉ (m.bindings (some pattern)).keys := by
    rw [← Table.contains_iff]
    simpa [declares] using hv
  refine { hm with scopes_nodup := ?_, bindings_nodup := ?_, any_first := ?_ }
  · exact Table.nodup_keys_insert hm.scopes_nodup _ _
  · intro scope hscope
    rcases Table.mem_insert hscope with rfl | hold
    · exact Table.nodup_keys_append (hm.nodup_bindings pattern) hfree value
    · exact hm.bindings_nodup scope hold
  · have hany := hm.any_first
    rw [Table.keys_insert]
    split
    · exact hany
    · rw [List.head?_append, hany]
      rfl

theorem Consistent.declare {m m' : Makefile} (hm : Consistent m) {v : Variable} {value : Command}
    {flavor : Flavor} {scope : Option Pattern} (h : m.declare v value flavor scope = .ok m') :
    Consistent m' := by
  obtain ⟨hfree, ⟨pattern, assignment, rfl, -, rfl⟩ | ⟨rfl, -, rfl⟩ | ⟨assignment, rfl, -, rfl⟩⟩ :=
    declare_ok h
  · exact hm.addScoped hfree _
  · exact hm.addDefine hfree _
  · exact hm.addGlobal hfree _

theorem Consistent.declareOnce {m m' : Makefile} (hm : Consistent m) {v : Variable}
    {value : Command} {flavor : Flavor} {scope : Option Pattern}
    (h : m.declareOnce v value flavor scope = .ok m') : Consistent m' := by
  unfold Makefile.declareOnce at h
  split at h
  · exact Except.ok.inj h ▸ hm
  · exact hm.declare h

theorem Consistent.define {m m' : Makefile} (hm : Consistent m) {v : Variable}
    {lines : List Command} (h : m.define v lines = .ok m') : Consistent m' := by
  obtain ⟨hfree, rfl⟩ := define_ok h
  exact hm.addDefine hfree lines

theorem Consistent.addRule {m m' : Makefile} (hm : Consistent m) {rule : Rule}
    (h : m.addRule rule = .ok m') : Consistent m' := by
  obtain ⟨hne, hnodup, hnew, rfl⟩ := addRule_ok_iff.mp h
  refine { hm with claimed_eq := ?_, claimed_nodup := ?_, targets_ne_nil := ?_ }
  · rw [List.flatMap_append, hm.claimed_eq]
    simp
  · rw [List.nodup_append]
    refine ⟨hm.claimed_nodup, hnodup, ?_⟩
    rintro text hold _ hmem rfl
    exact hnew text hmem hold
  · intro other hother
    rcases List.mem_append.mp hother with hold | heq
    · exact hm.targets_ne_nil other hold
    · exact List.mem_singleton.mp heq ▸ hne

theorem Consistent.addInclude {m : Makefile} (hm : Consistent m) (name : Piece) (optional : Bool) :
    Consistent (m.addInclude name optional) :=
  { hm with }

/-! ## Runs of operations -/

/-- An operation on a model, with its arguments. -/
inductive Operation where
  /-- Declares a variable. -/
  | declare (v : Variable) (value : Command) (flavor : Flavor) (scope : Option Pattern)
  /-- Declares a variable unless its scope has the name. -/
  | declareOnce (v : Variable) (value : Command) (flavor : Flavor) (scope : Option Pattern)
  /-- Adds a definition of several lines. -/
  | define (v : Variable) (lines : List Command)
  /-- Adds a rule. -/
  | addRule (rule : Rule)
  /-- Adds an include directive. -/
  | addInclude (name : Piece) (optional : Bool)

/-- The model after an operation, or why there is none. -/
def Operation.apply (m : Makefile) : Operation → Except Error Makefile
  | declare v value flavor scope => m.declare v value flavor scope
  | declareOnce v value flavor scope => m.declareOnce v value flavor scope
  | define v lines => m.define v lines
  | addRule rule => m.addRule rule
  | addInclude name optional => .ok (m.addInclude name optional)

/-- Performs an operation; a failing one changes nothing. -/
def perform (m : Makefile) (op : Operation) : Makefile :=
  match op.apply m with
  | .ok m' => m'
  | .error _ => m

/-- The model that operations reach from the empty one. -/
def run (ops : List Operation) : Makefile :=
  ops.foldl perform empty

theorem Consistent.apply {m m' : Makefile} (hm : Consistent m) {op : Operation}
    (h : op.apply m = .ok m') : Consistent m' := by
  cases op with
  | declare v value flavor scope => exact hm.declare h
  | declareOnce v value flavor scope => exact hm.declareOnce h
  | define v lines => exact hm.define h
  | addRule rule => exact hm.addRule h
  | addInclude name optional => exact Except.ok.inj h ▸ hm.addInclude name optional

/-- **One step keeps the invariant**, whatever the operation and whether it succeeds. -/
theorem Consistent.perform {m : Makefile} (hm : Consistent m) (op : Operation) :
    Consistent (m.perform op) := by
  unfold Makefile.perform
  cases h : op.apply m with
  | error e => exact hm
  | ok m' => exact hm.apply h

theorem Consistent.foldl_perform {m : Makefile} (hm : Consistent m) (ops : List Operation) :
    Consistent (ops.foldl Makefile.perform m) := by
  induction ops generalizing m with
  | nil => exact hm
  | cons op ops ih => exact ih (hm.perform op)

/-- **Every run keeps the invariant.** -/
theorem consistent_run (ops : List Operation) : Consistent (run ops) :=
  consistent_empty.foldl_perform ops

/-! ## What the invariant means -/

/-- A model whose index of targets, tables of names and answers agree with what it holds. -/
structure Coherent (m : Makefile) : Prop where
  /-- The claimed texts are exactly the targets of the rules, as they are written. -/
  claimed_iff : ∀ text, text ∈ m.claimed ↔
    ∃ rule ∈ m.rules, ∃ target ∈ rule.targets, target.render .target = text
  /-- No two places for a target, in one rule or in two, hold the same text. -/
  targets_nodup : (m.rules.flatMap fun rule => rule.targets.map (Piece.render .target)).Nodup
  targets_ne_nil : ∀ rule ∈ m.rules, rule.targets ≠ []
  /-- No name is both a global variable and a definition. -/
  disjoint : ∀ v, ¬ (v ∈ m.globals.keys ∧ v ∈ m.defines.keys)
  globals_nodup : m.globals.keys.Nodup
  defines_nodup : m.defines.keys.Nodup
  /-- A pattern has one scope, and in it every name stands once. -/
  scopes_nodup : m.scopes.keys.Nodup ∧ ∀ scope ∈ m.scopes, scope.2.keys.Nodup
  /-- The first global variable is the one that holds a comma. -/
  comma_first : m.globals.head? = some (⟨","⟩, (.line (.plain ","), .simple))
  /-- The first scope is that of all targets. -/
  any_first : m.scopes.keys.head? = some .any
  makes_iff : ∀ target, m.makes target = true ↔
    ∃ rule ∈ m.rules, ∃ other ∈ rule.targets, other.render .target = target.render .target
  declares_global_iff : ∀ v, m.declares v none = true ↔ v ∈ m.globals.keys ∨ v ∈ m.defines.keys
  declares_scoped_iff : ∀ v pattern, m.declares v (some pattern) = true ↔
    ∃ bindings, (pattern, bindings) ∈ m.scopes ∧ v ∈ Table.keys bindings

theorem Consistent.mem_claimed_iff {m : Makefile} (hm : Consistent m) (text : String) :
    text ∈ m.claimed ↔ ∃ rule ∈ m.rules, ∃ target ∈ rule.targets, target.render .target = text := by
  simp only [hm.claimed_eq, Rule.claims, List.mem_flatMap, List.mem_map]

theorem Consistent.declares_scoped_iff {m : Makefile} (hm : Consistent m) (v : Variable)
    (pattern : Pattern) : m.declares v (some pattern) = true ↔
      ∃ bindings, (pattern, bindings) ∈ m.scopes ∧ v ∈ Table.keys bindings := by
  have hdecl : m.declares v (some pattern) = true ↔
      v ∈ Table.keys ((m.scopes.find? pattern).getD []) := by
    rw [← Table.contains_iff]
    simp [declares, bindings]
  rw [hdecl]
  -- a pattern without a scope declares nothing, and one with a scope has only that one
  constructor
  · intro hv
    cases hf : m.scopes.find? pattern with
    | none => rw [hf] at hv; exact absurd hv (by simp [Table.keys])
    | some bindings => rw [hf] at hv; exact ⟨bindings, Table.mem_of_find? hf, hv⟩
  · rintro ⟨bindings, hmem, hv⟩
    rw [(Table.find?_eq_some_iff hm.scopes_nodup).mpr hmem]
    exact hv

/-- **The invariant makes a model coherent.** -/
theorem Consistent.coherent {m : Makefile} (hm : Consistent m) : Coherent m where
  claimed_iff := hm.mem_claimed_iff
  targets_nodup := hm.claimed_eq ▸ hm.claimed_nodup
  targets_ne_nil := hm.targets_ne_nil
  disjoint := fun v hv => hm.disjoint v hv.1 hv.2
  globals_nodup := hm.globals_nodup
  defines_nodup := hm.defines_nodup
  scopes_nodup := ⟨hm.scopes_nodup, hm.bindings_nodup⟩
  comma_first := hm.comma_first
  any_first := hm.any_first
  makes_iff := fun target => by
    rw [← hm.mem_claimed_iff]
    simp [makes]
  declares_global_iff := fun v => by
    rw [← Table.contains_iff, ← Table.contains_iff]
    simp [declares, bindings]
  declares_scoped_iff := hm.declares_scoped_iff

/-- **Every run of operations, failing ones included, reaches a coherent model.** -/
theorem coherent_run (ops : List Operation) : Coherent (run ops) :=
  (consistent_run ops).coherent

end MakeGraph.Make.Makefile
