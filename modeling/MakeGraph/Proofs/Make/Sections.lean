import MakeGraph.Make.Layout
import MakeGraph.Proofs.Make.Atomic
import Mathlib.Data.List.Nodup
import Mathlib.Data.List.Flatten
import Mathlib.Data.List.Perm.Basic

/-!
# `Proofs.Make.Sections` — the order of calls matters within a section only

The text of a model has five sections in a fixed order, and a call writes to one of them. A model is
known from its sections (`eq_of_only_eq`), and what a sequence of calls writes to a section is what the
calls for that section write (`only_foldl_write`).

That alone does not make the sections independent: whether a call succeeds depends on the names that
others have taken, and global variables share theirs with the definitions. But a name that two calls
ask for makes one of them fail in any order. So a sequence succeeds exactly if its names are all new
and all different (`applyAll_ok_iff`), which no reordering changes.

## Contents

* `Section`, `sectionText`, `only` — the sections of a text and of a model
* `Operation.writesTo`, `Operation.write`, `apply_ok_iff` — one call
* `applyAll`, `applyAll_ok_iff`, `only_foldl_write` — a sequence of calls
* `SameOrders`, `applyAll_of_sameOrders` — the main result
-/

namespace MakeGraph.Make.Makefile

/-! ## Sections -/

/-- A section of the text of a model. -/
inductive Section where
  /-- The global variables. -/
  | globals
  /-- The variables scoped to patterns. -/
  | scopes
  /-- The definitions. -/
  | defines
  /-- The rules. -/
  | rules
  /-- The include directives. -/
  | includes
deriving DecidableEq

/-- The sections as they follow one another. -/
def Section.order : List Section :=
  [globals, scopes, defines, rules, includes]

/-- The text of one section. -/
def sectionText (m : Makefile) : Section → String
  | .globals => m.renderGlobals
  | .scopes => m.renderScopes
  | .defines => m.renderDefines
  | .rules => String.join (m.rules.map Rule.render)
  | .includes => String.join (m.includes.map Include.render)

/-- The text of sections in their order, whichever models they come from. -/
def textOfSections (text : Section → String) : String :=
  ".SUFFIXES:\n\n" ++ String.join (Section.order.map text)

/-- **The text of a model** is that of its sections. -/
theorem render_eq_textOfSections (m : Makefile) : m.render = textOfSections m.sectionText := by
  unfold render
  simp [textOfSections, Section.order, sectionText, String.join_cons, String.append_assoc]

/-- What a model holds for one section, and nothing else. -/
def only (m : Makefile) : Section → Makefile
  | .globals => { globals := m.globals, scopes := [] }
  | .scopes => { globals := [], scopes := m.scopes }
  | .defines => { globals := [], scopes := [], defines := m.defines }
  | .rules => { globals := [], scopes := [], rules := m.rules, claimed := m.claimed }
  | .includes => { globals := [], scopes := [], includes := m.includes }

theorem sectionText_only (m : Makefile) (s : Section) :
    (m.only s).sectionText s = m.sectionText s := by
  cases s <;> rfl

/-- A model is known from what it holds for each section. -/
theorem eq_of_only_eq {m n : Makefile} (h : ∀ s, m.only s = n.only s) : m = n := by
  have hglobals := congrArg globals (h .globals)
  have hscopes := congrArg scopes (h .scopes)
  have hdefines := congrArg defines (h .defines)
  have hrules := congrArg rules (h .rules)
  have hclaimed := congrArg claimed (h .rules)
  have hincludes := congrArg includes (h .includes)
  cases m
  cases n
  simp only [only] at hglobals hscopes hdefines hrules hclaimed hincludes
  rw [hglobals, hscopes, hdefines, hrules, hclaimed, hincludes]

/-! ## One call -/

namespace Operation

/-- Calls whose name has to be new. -/
def IsCall : Operation → Prop
  | declareOnce .. => False
  | _ => True

/-- The section that a declaration writes to. The flavor of a definition moves it from the variables. -/
def declaredIn : Flavor → Option Pattern → Section
  | .defined, _ => .defines
  | .assigned _, none => .globals
  | .assigned _, some _ => .scopes

/-- **The section that an operation writes to.** -/
def writesTo : Operation → Section
  | declare _ _ flavor scope => declaredIn flavor scope
  | declareOnce _ _ flavor scope => declaredIn flavor scope
  | define .. => .defines
  | addRule _ => .rules
  | addInclude .. => .includes

/-- What an operation writes when it succeeds. -/
def write (m : Makefile) : Operation → Makefile
  | declare v value flavor scope | declareOnce v value flavor scope =>
      match flavor, scope with
      | .defined, _ => { m with defines := m.defines.append v [value] }
      | .assigned assignment, none =>
          { m with globals := m.globals.append v (value, assignment) }
      | .assigned assignment, some pattern =>
          let bindings := (m.bindings scope).append v (value, assignment)
          { m with scopes := m.scopes.insert pattern bindings }
  | define v lines => { m with defines := m.defines.append v lines }
  | addRule rule => { m with rules := m.rules ++ [rule], claimed := m.claimed ++ rule.claims }
  | addInclude name optional => m.addInclude name optional

/-- The names that an operation takes. -/
def names : Operation → List Name
  | declare v _ _ scope => [.bound v scope]
  | declareOnce v _ _ scope => [.bound v scope]
  | define v _ => [.bound v none]
  | addRule rule => rule.claims.map .target
  | addInclude .. => []

/-- Whether there are models on which an operation succeeds: a definition has no scope, and a rule has
    targets. -/
def IsPossible : Operation → Prop
  | declare _ _ flavor scope => ¬(flavor = .defined ∧ scope.isSome = true)
  | declareOnce _ _ flavor scope => ¬(flavor = .defined ∧ scope.isSome = true)
  | addRule rule => rule.targets ≠ []
  | _ => True

end Operation

/-- Whether a model refuses a name because it is taken. -/
def Refuses (m : Makefile) : Name → Prop
  | .bound v scope => m.declares v scope = true
  | .target text => text ∈ m.claimed

section OneCall

variable {m m' : Makefile} {op : Operation}

theorem declare_ok_iff {v : Variable} {value : Command} {flavor : Flavor} {scope : Option Pattern} :
    m.declare v value flavor scope = .ok m' ↔
      ¬(flavor = .defined ∧ scope.isSome = true) ∧ m.declares v scope = false ∧
        m' = Operation.write m (.declare v value flavor scope) := by
  unfold declare requireFree Operation.write
  cases m.declares v scope with
  | true => simp [bind, Except.bind]
  | false =>
      cases flavor with
      | defined =>
          cases scope with
          | none => simp [bind, Except.bind, eq_comm]
          | some pattern => simp [bind, Except.bind]
      | assigned assignment =>
          cases scope with
          | none => simp [bind, Except.bind, eq_comm]
          | some pattern => simp [bind, Except.bind, eq_comm]

theorem define_ok_iff {v : Variable} {lines : List Command} :
    m.define v lines = .ok m' ↔
      m.declares v none = false ∧ m' = Operation.write m (.define v lines) := by
  unfold define requireFree Operation.write
  cases m.declares v none with
  | true => simp [bind, Except.bind]
  | false => simp [bind, Except.bind, eq_comm]

/-- **A call succeeds** if it is possible and its names are new and all different, and then it
    writes. -/
theorem apply_ok_iff (hop : op.IsCall) :
    op.apply m = .ok m' ↔
      op.IsPossible ∧ op.names.Nodup ∧ (∀ name ∈ op.names, ¬m.Refuses name) ∧ m' = op.write m := by
  cases op with
  | declare v value flavor scope =>
      refine declare_ok_iff.trans ?_
      simp [Operation.IsPossible, Operation.names, Refuses]
  | declareOnce v value flavor scope => exact hop.elim
  | define v lines =>
      refine define_ok_iff.trans ?_
      simp [Operation.IsPossible, Operation.names, Refuses]
  | addRule rule =>
      refine addRule_ok_iff.trans ?_
      have hnodup : (rule.claims.map Name.target).Nodup ↔ rule.claims.Nodup :=
        List.nodup_map_iff fun _ _ h => Name.target.inj h
      simp [Operation.IsPossible, Operation.names, Refuses, Operation.write, hnodup]
  | addInclude name optional =>
      show Except.ok (m.addInclude name optional) = .ok m' ↔ _
      simp [Operation.IsPossible, Operation.names, Operation.write, eq_comm]

theorem refuses_global (v : Variable) (value : Command × Assignment) (name : Name) :
    Refuses { m with globals := m.globals.append v value } name ↔
      m.Refuses name ∨ name = .bound v none := by
  cases name with
  | bound w scope =>
      cases scope with
      | none => simp [Refuses, declares, bindings, Table.contains_append, or_right_comm]
      | some pattern => simp [Refuses, declares, bindings]
  | target text => simp [Refuses]

theorem refuses_define (v : Variable) (lines : List Command) (name : Name) :
    Refuses { m with defines := m.defines.append v lines } name ↔
      m.Refuses name ∨ name = .bound v none := by
  cases name with
  | bound w scope =>
      cases scope with
      | none => simp [Refuses, declares, bindings, Table.contains_append, or_assoc]
      | some pattern => simp [Refuses, declares, bindings]
  | target text => simp [Refuses]

theorem refuses_scoped (pattern : Pattern) (v : Variable) (value : Command × Assignment)
    (name : Name) :
    Refuses { m with
        scopes := m.scopes.insert pattern ((m.bindings (some pattern)).append v value) } name ↔
      m.Refuses name ∨ name = .bound v (some pattern) := by
  cases name with
  | bound w scope =>
      cases scope with
      | none => simp [Refuses, declares, bindings]
      | some pattern' =>
          -- the scope of another pattern is left as it is
          by_cases hsame : pattern = pattern'
          · subst hsame
            simp [Refuses, declares, bindings, Table.find?_insert, Table.contains_append]
          · simp [Refuses, declares, bindings, Table.find?_insert, hsame, Ne.symm hsame]
  | target text => simp [Refuses]

theorem refuses_write_declare {v : Variable} {value : Command} {flavor : Flavor}
    {scope : Option Pattern} (hpossible : ¬(flavor = .defined ∧ scope.isSome = true)) (name : Name) :
    (Operation.write m (.declare v value flavor scope)).Refuses name ↔
      m.Refuses name ∨ name ∈ [Name.bound v scope] := by
  rw [List.mem_singleton]
  cases flavor with
  | defined =>
      cases scope with
      | none => exact refuses_define v [value] name
      | some pattern => exact absurd ⟨rfl, rfl⟩ hpossible
  | assigned assignment =>
      cases scope with
      | none => exact refuses_global v (value, assignment) name
      | some pattern => exact refuses_scoped pattern v (value, assignment) name

/-- After a call, a model refuses the names of the call too. -/
theorem refuses_write (hop : op.IsPossible) (name : Name) :
    (op.write m).Refuses name ↔ m.Refuses name ∨ name ∈ op.names := by
  cases op with
  | declare v value flavor scope => exact refuses_write_declare hop name
  | declareOnce v value flavor scope => exact refuses_write_declare hop name
  | define v lines =>
      show Refuses { m with defines := m.defines.append v lines } name ↔ _ ∨ name ∈ [Name.bound v none]
      rw [List.mem_singleton]
      exact refuses_define v lines name
  | addRule rule =>
      cases name with
      | bound w scope => simp [Refuses, Operation.write, Operation.names, declares, bindings]
      | target text => simp [Refuses, Operation.write, Operation.names]
  | addInclude inc optional =>
      cases name with
      | bound w scope =>
          simp [Refuses, Operation.write, Operation.names, addInclude, declares, bindings]
      | target text => simp [Refuses, Operation.write, Operation.names, addInclude]

/-- A call leaves what is held for other sections. -/
theorem only_write_of_ne {s : Section} (h : op.writesTo ≠ s) : (op.write m).only s = m.only s := by
  cases op with
  | declare v value flavor scope | declareOnce v value flavor scope =>
      cases flavor with
      | defined =>
          cases s with
          | defines => exact absurd rfl h
          | _ => rfl
      | assigned assignment =>
          cases scope with
          | none =>
              cases s with
              | globals => exact absurd rfl h
              | _ => rfl
          | some pattern =>
              cases s with
              | scopes => exact absurd rfl h
              | _ => rfl
  | define v lines =>
      cases s with
      | defines => exact absurd rfl h
      | _ => rfl
  | addRule rule =>
      cases s with
      | rules => exact absurd rfl h
      | _ => rfl
  | addInclude name optional =>
      cases s with
      | includes => exact absurd rfl h
      | _ => rfl

/-- What a call writes to its section depends on that section alone: no other table is looked at. -/
theorem only_write (op : Operation) (m : Makefile) :
    (op.write m).only op.writesTo = op.write (m.only op.writesTo) := by
  cases op with
  | declare v value flavor scope | declareOnce v value flavor scope =>
      cases flavor with
      | defined => rfl
      | assigned assignment =>
          cases scope with
          | none => rfl
          | some pattern => rfl
  | define v lines => rfl
  | addRule rule => rfl
  | addInclude name optional => rfl

end OneCall

/-! ## A sequence of calls -/

/-- The model after a sequence of calls, or why the first failing one has none. -/
def applyAll (m : Makefile) (calls : List Operation) : Except Error Makefile :=
  calls.foldlM Operation.apply m

section Sequences

variable {m m' : Makefile} {calls calls' : List Operation}

theorem applyAll_cons_ok_iff {op : Operation} :
    m.applyAll (op :: calls) = .ok m' ↔
      ∃ next, op.apply m = .ok next ∧ next.applyAll calls = .ok m' := by
  unfold applyAll
  rw [List.foldlM_cons]
  cases op.apply m with
  | ok next => simp [bind, Except.bind]
  | error e => simp [bind, Except.bind]

/-- **When all calls of a sequence succeed**: the names that they take, together, are new and all
    different. Nothing else ties a call to those before it. -/
theorem applyAll_ok_iff (hcalls : ∀ op ∈ calls, op.IsCall) :
    m.applyAll calls = .ok m' ↔
      (∀ op ∈ calls, op.IsPossible) ∧ (calls.flatMap Operation.names).Nodup ∧
        (∀ name ∈ calls.flatMap Operation.names, ¬m.Refuses name) ∧
        m' = calls.foldl Operation.write m := by
  induction calls generalizing m with
  | nil =>
      show Except.ok m = .ok m' ↔ _
      simp [eq_comm]
  | cons op calls ih =>
      obtain ⟨hop, hrest⟩ := List.forall_mem_cons.mp hcalls
      rw [applyAll_cons_ok_iff]
      simp only [apply_ok_iff hop, ih hrest, List.forall_mem_cons, List.flatMap_cons,
        List.nodup_append, List.forall_mem_append, List.foldl_cons]
      constructor
      · rintro ⟨next, ⟨hpossible, hnodup, hnew, rfl⟩, hpossibles, hnodups, hnews, rfl⟩
        -- what the first call has taken, the rest is refused
        have hafter := fun name hname => not_or.mp (mt (refuses_write hpossible name).mpr
          (hnews name hname))
        refine ⟨⟨hpossible, hpossibles⟩, ⟨hnodup, hnodups, ?_⟩, ⟨hnew, ?_⟩, rfl⟩
        · rintro name hname _ hother rfl
          exact (hafter name hother).2 hname
        · exact fun name hname => (hafter name hname).1
      · rintro ⟨⟨hpossible, hpossibles⟩, ⟨hnodup, hnodups, hdisjoint⟩, ⟨hnew, hnews⟩, rfl⟩
        refine ⟨op.write m, ⟨hpossible, hnodup, hnew, rfl⟩, hpossibles, hnodups, ?_, rfl⟩
        intro name hname hrefuses
        rcases (refuses_write hpossible name).mp hrefuses with hold | htaken
        · exact hnews name hname hold
        · exact hdisjoint name htaken name hname rfl

/-- **What a sequence writes to a section** is what its calls for that section write there. -/
theorem only_foldl_write (calls : List Operation) (m : Makefile) (s : Section) :
    (calls.foldl Operation.write m).only s =
      (calls.filter (·.writesTo = s)).foldl Operation.write (m.only s) := by
  induction calls generalizing m with
  | nil => rfl
  | cons op calls ih =>
      rw [List.foldl_cons, ih]
      by_cases h : op.writesTo = s
      · rw [List.filter_cons_of_pos (by simpa using h), List.foldl_cons, ← h, only_write]
      · rw [List.filter_cons_of_neg (by simpa using h), only_write_of_ne h]

/-- Two sequences with the same calls, which follow one another in the same order within each section.
    -/
def SameOrders (calls calls' : List Operation) : Prop :=
  ∀ s : Section, calls.filter (·.writesTo = s) = calls'.filter (·.writesTo = s)

/-- Every call stands in both sequences equally often, since it does in the section that it
    writes to. -/
theorem SameOrders.perm (h : SameOrders calls calls') : calls.Perm calls' := by
  classical
  rw [List.perm_iff_count]
  intro op
  have hcount : ∀ ops : List Operation,
      (ops.filter (·.writesTo = op.writesTo)).count op = ops.count op :=
    fun ops => List.count_filter (by simp)
  rw [← hcount calls, ← hcount calls', h]

/-- A sequence that succeeds does so with any of its calls left out. -/
theorem applyAll_of_sublist (hcalls : ∀ op ∈ calls, op.IsCall) (h : m.applyAll calls = .ok m')
    (hsub : calls'.Sublist calls) :
    m.applyAll calls' = .ok (calls'.foldl Operation.write m) := by
  obtain ⟨hpossible, hnodup, hnew, -⟩ := (applyAll_ok_iff hcalls).mp h
  have hnames := hsub.flatMap Operation.names
  refine (applyAll_ok_iff fun op hop => hcalls op (hsub.subset hop)).mpr ⟨?_, ?_, ?_, rfl⟩
  · exact fun op hop => hpossible op (hsub.subset hop)
  · exact hnodup.sublist hnames
  · exact fun name hname => hnew name (hnames.subset hname)

/-- A sequence that succeeds does so in any order. -/
theorem applyAll_of_perm (hcalls : ∀ op ∈ calls, op.IsCall) (h : m.applyAll calls = .ok m')
    (hperm : calls.Perm calls') :
    m.applyAll calls' = .ok (calls'.foldl Operation.write m) := by
  obtain ⟨hpossible, hnodup, hnew, -⟩ := (applyAll_ok_iff hcalls).mp h
  have hnames := hperm.flatMap_right Operation.names
  refine (applyAll_ok_iff fun op hop => hcalls op (hperm.mem_iff.mpr hop)).mpr ⟨?_, ?_, ?_, rfl⟩
  · exact fun op hop => hpossible op (hperm.mem_iff.mpr hop)
  · exact hnames.nodup_iff.mp hnodup
  · exact fun name hname => hnew name (hnames.mem_iff.mpr hname)

theorem foldl_write_of_sameOrders (h : SameOrders calls calls') :
    calls'.foldl Operation.write m = calls.foldl Operation.write m := by
  apply eq_of_only_eq
  intro s
  rw [only_foldl_write, only_foldl_write, h s]

/-- Calls for other sections do not show in the text of a section. -/
theorem sectionText_foldl_write (calls : List Operation) (m : Makefile) (s : Section) :
    (calls.foldl Operation.write m).sectionText s =
      ((calls.filter (·.writesTo = s)).foldl Operation.write m).sectionText s := by
  have honly : (calls.foldl Operation.write m).only s =
      ((calls.filter (·.writesTo = s)).foldl Operation.write m).only s := by
    rw [only_foldl_write, only_foldl_write, List.filter_filter]
    simp
  rw [← sectionText_only, honly, sectionText_only]

/-- **Calls for different sections change places freely.** On every model, if a sequence of calls
    succeeds, so does each with the same calls that keeps the order within each section, and it gives
    the same model. Its text has the sections in their fixed order, each as if only the calls for it
    had been made. -/
theorem applyAll_of_sameOrders (hcalls : ∀ op ∈ calls, op.IsCall) (hsame : SameOrders calls calls')
    (h : m.applyAll calls = .ok m') :
    m.applyAll calls' = .ok m' ∧
      ∃ part : Section → Makefile,
        (∀ s, m.applyAll (calls.filter (·.writesTo = s)) = .ok (part s)) ∧
        m'.render = textOfSections fun s => (part s).sectionText s := by
  obtain ⟨-, -, -, rfl⟩ := (applyAll_ok_iff hcalls).mp h
  refine ⟨?_, fun s => (calls.filter (·.writesTo = s)).foldl Operation.write m, ?_, ?_⟩
  · rw [applyAll_of_perm hcalls h hsame.perm, foldl_write_of_sameOrders hsame]
  · exact fun s => applyAll_of_sublist hcalls h List.filter_sublist
  · rw [render_eq_textOfSections]
    simp only [← sectionText_foldl_write]

end Sequences

/-- Calls for all sections, mixed. -/
def mixedCalls : List Operation :=
  [.addInclude (.plain "deps.mk") true,
   .declare ⟨"FLAGS"⟩ (.words [.plain "-O2"]) (.assigned .simple) (some .any),
   .define ⟨"build"⟩ [.line (.plain "cc"), .line (.plain "ld")],
   .addRule { targets := [.plain "a b", .plain "c"] },
   .declare ⟨"CC"⟩ (.words [.plain "cc"]) (.assigned .recursive) none,
   .declare ⟨"test"⟩ (.line (.plain "true")) .defined none,
   .addRule { targets := [.plain "d"] }]

/-- The same calls, by section. -/
def sortedCalls : List Operation :=
  Section.order.flatMap fun s => mixedCalls.filter (·.writesTo = s)

/-- A model that has a target already. -/
def withAll : Makefile :=
  run [.addRule { targets := [.plain "all"], phony := true }]

/-- The calls that are mixed succeed, and so they do by section. -/
theorem applyAll_sortedCalls :
    withAll.applyAll mixedCalls = .ok (mixedCalls.foldl Operation.write withAll) ∧
      withAll.applyAll sortedCalls = .ok (mixedCalls.foldl Operation.write withAll) ∧
      ∃ part : Section → Makefile,
        (∀ s, withAll.applyAll (mixedCalls.filter (·.writesTo = s)) = .ok (part s)) ∧
        (mixedCalls.foldl Operation.write withAll).render =
          textOfSections fun s => (part s).sectionText s := by
  have hcalls : ∀ op ∈ mixedCalls, op.IsCall := by simp [mixedCalls, Operation.IsCall]
  have hsame : SameOrders mixedCalls sortedCalls := by
    intro s
    cases s <;> rfl
  have hsucceeds :
      withAll.applyAll mixedCalls = .ok (mixedCalls.foldl Operation.write withAll) := rfl
  exact ⟨hsucceeds, applyAll_of_sameOrders hcalls hsame hsucceeds⟩

end MakeGraph.Make.Makefile
