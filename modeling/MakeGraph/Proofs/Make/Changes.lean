import MakeGraph.Proofs.Make.Consistent

/-!
# `Proofs.Make.Changes` — operations that change a model in its place

A program keeps the model in one place, and every operation changes it there. What an operation has
written when it finds an error stays written, so nothing but the order of its steps can keep a failing
one from leaving half of its work behind. `Operation.change` is each operation as such a sequence of
checks and writes, and `outcome_change` says that it comes to the same as the operation on models: the
checks all stand before the first write.

## Contents

* `Change`, `outcome` — changes and what they leave
* `outcome_declare`, `outcome_define`, `outcome_addRule` — what each operation leaves
* `Operation.change`, `outcome_change` — the main result
-/

namespace MakeGraph.Make.Makefile

/-! ## Operations in their place -/

/-- **A change of the model in its place.** An error ends it and takes nothing back. -/
abbrev Change := ExceptT Error (StateM Makefile)

namespace Change

/-- How a change ends, and the model that it leaves. -/
def outcome {α : Type} (change : Change α) (m : Makefile) : Except Error α × Makefile :=
  (ExceptT.run change).run m

/-- How a change ends that does what an operation on models does: with its error before anything is
    written, or else with all of it written. -/
def allOrNothing (m : Makefile) : Except Error Makefile → Except Error Unit × Makefile
  | .ok m' => (.ok (), m')
  | .error e => (.error e, m)

/-- Ends the change if a scope declares a name already. -/
def requireFree (v : Variable) (scope : Option Pattern) : Change Unit := do
  let m ← get
  if m.declares v scope then throw (.variableTaken v.name (scope.map (·.template)))

/-- Makes the scope of a pattern if there is none. -/
def openScope (pattern : Pattern) : Change Unit :=
  modify fun m =>
    if m.scopes.contains pattern then m else { m with scopes := m.scopes.insert pattern [] }

/-- Writes a variable into a scope. -/
def writeScoped (pattern : Pattern) (v : Variable) (value : Command × Assignment) : Change Unit :=
  modify fun m =>
    { m with scopes := m.scopes.insert pattern ((m.bindings (some pattern)).insert v value) }

/-- Writes a global variable. -/
def writeGlobal (v : Variable) (value : Command × Assignment) : Change Unit :=
  modify fun m => { m with globals := m.globals.insert v value }

/-- Writes a definition. -/
def writeDefine (v : Variable) (lines : List Command) : Change Unit :=
  modify fun m => { m with defines := m.defines.insert v lines }

/-- Declares a variable. That a definition has no scope is seen only behind the first check. -/
def declare (v : Variable) (value : Command) (flavor : Flavor) (scope : Option Pattern) :
    Change Unit := do
  requireFree v scope
  match flavor, scope with
  | .defined, some _ => throw (.scopedDefinition v.name)
  | .defined, none => writeDefine v [value]
  | .assigned assignment, some pattern => do
      openScope pattern
      writeScoped pattern v (value, assignment)
  | .assigned assignment, none => writeGlobal v (value, assignment)

/-- Declares a variable unless its scope declares the name. -/
def declareOnce (v : Variable) (value : Command) (flavor : Flavor) (scope : Option Pattern) :
    Change Unit := do
  let m ← get
  if m.declares v scope then pure () else declare v value flavor scope

/-- Adds a definition of several lines. -/
def define (v : Variable) (lines : List Command) : Change Unit := do
  requireFree v none
  writeDefine v lines

/-- The texts of targets that are all new, behind those that were passed before. -/
def newTargets (passed : List String) : List Piece → Change (List String)
  | [] => pure passed
  | target :: targets => do
      let m ← get
      let text := target.render .target
      if text ∈ m.claimed ∨ text ∈ passed then throw (.targetTaken text)
      newTargets (passed ++ [text]) targets

/-- Adds a rule: its targets are claimed first, and then it is written. -/
def addRule (rule : Rule) : Change Unit := do
  if rule.targets.isEmpty then throw .noTargets
  let texts ← newTargets [] rule.targets
  modify fun m => { m with claimed := m.claimed ++ texts }
  modify fun m => { m with rules := m.rules ++ [rule] }

/-- Adds an include directive. -/
def addInclude (name : Piece) (optional : Bool) : Change Unit :=
  modify fun m => { m with includes := m.includes ++ [⟨name, optional⟩] }

section Outcome

variable {α β : Type} (m : Makefile)

theorem outcome_pure (a : α) : outcome (pure a) m = (.ok a, m) :=
  rfl

theorem outcome_modify (f : Makefile → Makefile) : outcome (modify f) m = (.ok (), f m) :=
  rfl

/-- A change behind a reading of the model. -/
theorem outcome_get_bind (next : Makefile → Change β) :
    outcome (get >>= next) m = outcome (next m) m :=
  rfl

/-- A change behind another: it goes on from the model that the first one leaves, if that has no
    error. -/
theorem outcome_bind (first : Change α) (next : α → Change β) :
    outcome (first >>= next) m =
      match outcome first m with
      | (.ok a, m') => outcome (next a) m'
      | (.error e, m') => (.error e, m') := by
  unfold outcome
  rw [ExceptT.run_bind, StateT.run_bind]
  cases (ExceptT.run first).run m with
  | mk result m' =>
      cases result with
      | ok a => rfl
      | error e => rfl

/-- A check passes or ends the change, and writes nothing. -/
theorem outcome_requireFree (v : Variable) (scope : Option Pattern) :
    outcome (requireFree v scope) m = (m.requireFree v scope, m) := by
  unfold requireFree Makefile.requireFree
  rw [outcome_get_bind]
  by_cases h : m.declares v scope = true
  · simp only [h, if_true]
    rfl
  · simp only [h]
    rfl

/-- A new scope is open before its first variable is written, and the two writes come to one. -/
theorem outcome_writeScoped (pattern : Pattern) (v : Variable) (value : Command × Assignment) :
    outcome (do openScope pattern; writeScoped pattern v value) m =
      (.ok (), { m with
        scopes := m.scopes.insert pattern ((m.bindings (some pattern)).insert v value) }) := by
  unfold openScope writeScoped
  rw [outcome_bind, outcome_modify]
  show outcome (modify _) _ = _
  rw [outcome_modify]
  by_cases h : m.scopes.contains pattern = true
  · simp only [h, if_true]
  · simp only [h]
    have hnone : m.scopes.find? pattern = none := by simpa [Table.contains] using h
    simp [bindings, Table.find?_insert, hnone, Table.insert_insert]

theorem outcome_declare (v : Variable) (value : Command) (flavor : Flavor)
    (scope : Option Pattern) :
    outcome (declare v value flavor scope) m =
      allOrNothing m (m.declare v value flavor scope) := by
  unfold declare Makefile.declare
  rw [outcome_bind, outcome_requireFree]
  cases hfree : m.requireFree v scope with
  | error e => rfl
  | ok u =>
      have hdeclares := requireFree_ok_iff.mp hfree
      cases scope with
      | none =>
          have hnew := declares_none_eq_false_iff.mp hdeclares
          cases flavor with
          | defined =>
              show (Except.ok (), { m with defines := m.defines.insert v [value] }) = _
              rw [Table.insert_of_not_mem hnew.2]
              rfl
          | assigned assignment =>
              show (Except.ok (), { m with globals := m.globals.insert v (value, assignment) }) = _
              rw [Table.insert_of_not_mem hnew.1]
              rfl
      | some pattern =>
          cases flavor with
          | defined => rfl
          | assigned assignment =>
              have hnew : v ∉ (m.bindings (some pattern)).keys := by
                rw [← Table.contains_iff]
                simpa [declares] using hdeclares
              show outcome (do openScope pattern; writeScoped pattern v (value, assignment)) m = _
              rw [outcome_writeScoped, Table.insert_of_not_mem hnew]
              rfl

theorem outcome_define (v : Variable) (lines : List Command) :
    outcome (define v lines) m = allOrNothing m (m.define v lines) := by
  unfold define Makefile.define
  rw [outcome_bind, outcome_requireFree]
  cases hfree : m.requireFree v none with
  | error e => rfl
  | ok u =>
      have hnew := declares_none_eq_false_iff.mp (requireFree_ok_iff.mp hfree)
      show (Except.ok (), { m with defines := m.defines.insert v lines }) = _
      rw [Table.insert_of_not_mem hnew.2]
      rfl

/-- Going through the targets of a rule writes nothing, and stops at the first one that is taken. -/
theorem outcome_newTargets (passed : List String) (targets : List Piece) :
    outcome (newTargets passed targets) m =
      match firstTaken? (m.claimed ++ passed) (targets.map (Piece.render .target)) with
      | some text => (.error (.targetTaken text), m)
      | none => (.ok (passed ++ targets.map (Piece.render .target)), m) := by
  induction targets generalizing passed with
  | nil => simp [newTargets, firstTaken?, outcome_pure]
  | cons target targets ih =>
      unfold newTargets
      rw [outcome_get_bind, List.map_cons, firstTaken?]
      by_cases h : target.render .target ∈ m.claimed ++ passed
      · rw [if_pos h]
        simp only [List.mem_append.mp h, if_true]
        rfl
      · rw [if_neg h]
        simp only [mt List.mem_append.mpr h, if_false]
        show outcome (newTargets (passed ++ [target.render .target]) targets) m = _
        rw [ih, ← List.append_assoc]
        simp

theorem outcome_addRule (rule : Rule) :
    outcome (addRule rule) m = allOrNothing m (m.addRule rule) := by
  unfold addRule Makefile.addRule
  by_cases h : rule.targets.isEmpty = true
  · simp only [h, if_true]
    rfl
  · simp only [h]
    show outcome (newTargets [] rule.targets >>= _) m = _
    rw [outcome_bind, outcome_newTargets, List.append_nil]
    unfold Rule.claims
    cases firstTaken? m.claimed (rule.targets.map (Piece.render .target)) with
    | some text => rfl
    | none => rfl

end Outcome

end Change

/-- **An operation as it changes the model in its place.** -/
def Operation.change : Operation → Change Unit
  | declare v value flavor scope => Change.declare v value flavor scope
  | declareOnce v value flavor scope => Change.declareOnce v value flavor scope
  | define v lines => Change.define v lines
  | addRule rule => Change.addRule rule
  | addInclude name optional => Change.addInclude name optional

/-- **An operation does all or nothing.** Changing the model in its place comes to the same as the
    operation on models: where that one has no result, nothing was written. -/
theorem outcome_change (m : Makefile) (op : Operation) :
    op.change.outcome m = Change.allOrNothing m (op.apply m) := by
  cases op with
  | declare v value flavor scope => exact Change.outcome_declare m v value flavor scope
  | declareOnce v value flavor scope =>
      show (Change.declareOnce v value flavor scope).outcome m =
        Change.allOrNothing m (m.declareOnce v value flavor scope)
      unfold Change.declareOnce Makefile.declareOnce
      rw [Change.outcome_get_bind]
      by_cases h : m.declares v scope = true
      · simp only [h, if_true]
        rfl
      · simp only [h]
        exact Change.outcome_declare m v value flavor scope
  | define v lines => exact Change.outcome_define m v lines
  | addRule rule => exact Change.outcome_addRule m rule
  | addInclude name optional => rfl

end MakeGraph.Make.Makefile
