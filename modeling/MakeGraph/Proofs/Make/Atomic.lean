import MakeGraph.Proofs.Make.Appends

/-!
# `Proofs.Make.Atomic` — an operation does all or nothing

An operation that fails leaves the model as it was, and one that succeeds adds one entry. Which operations
fail, and with which error, depends on the names that they ask for and on nothing else
(`declare_error_iff`, `addRule_error_iff`). All this holds along every run, because every model of a run
is consistent.

## Contents

* `Name`, `Takes` — the names that a model has
* `declare_error_iff`, `define_error_iff`, `addRule_error_iff` — errors
* `Atomic`, `Consistent.atomic` — one model
* `atomic_run` — the main result
-/

namespace MakeGraph.Make.Makefile

/-! ## Names -/

/-- What an operation may ask for and another may have. -/
inductive Name where
  /-- A variable of a scope. Global variables share their names with the definitions. -/
  | bound (v : Variable) (scope : Option Pattern)
  /-- The text of a target. -/
  | target (text : String)

/-- **The names that a model has**, by what stands in it. -/
def Takes (m : Makefile) : Name → Prop
  | .bound v none => v ∈ m.globals.keys ∨ v ∈ m.defines.keys
  | .bound v (some pattern) =>
      ∃ bindings, (pattern, bindings) ∈ m.scopes ∧ v ∈ Table.keys bindings
  | .target text => ∃ rule ∈ m.rules, ∃ target ∈ rule.targets, target.render .target = text

theorem Consistent.declares_iff {m : Makefile} (hm : Consistent m) (v : Variable)
    (scope : Option Pattern) : m.declares v scope = true ↔ m.Takes (.bound v scope) := by
  cases scope with
  | none => exact hm.coherent.declares_global_iff v
  | some pattern => exact hm.coherent.declares_scoped_iff v pattern

theorem Consistent.claimed_iff {m : Makefile} (hm : Consistent m) (text : String) :
    text ∈ m.claimed ↔ m.Takes (.target text) :=
  hm.mem_claimed_iff text

/-! ## Errors -/

/-- **Why a declaration fails**: its name is taken, or else it is a definition with a scope. -/
theorem declare_error_iff {m : Makefile} {v : Variable} {value : Command} {flavor : Flavor}
    {scope : Option Pattern} {e : Error} :
    m.declare v value flavor scope = .error e ↔
      (m.declares v scope = true ∧ e = .variableTaken v.name (scope.map (·.template))) ∨
      (m.declares v scope = false ∧ flavor = .defined ∧ scope.isSome = true ∧
        e = .scopedDefinition v.name) := by
  unfold declare requireFree
  cases h : m.declares v scope with
  | true =>
      show Except.error (Error.variableTaken v.name (scope.map (·.template))) = .error e ↔ _
      rw [Except.error.injEq, eq_comm]
      simp
  | false =>
      cases flavor with
      | defined =>
          cases scope with
          | none => simp [bind, Except.bind]
          | some pattern => simp [bind, Except.bind, eq_comm]
      | assigned assignment =>
          cases scope with
          | none => simp [bind, Except.bind]
          | some pattern => simp [bind, Except.bind]

/-- **When a declaration succeeds.** -/
theorem declare_succeeds_iff {m : Makefile} {v : Variable} {value : Command} {flavor : Flavor}
    {scope : Option Pattern} :
    (∃ m', m.declare v value flavor scope = .ok m') ↔
      m.declares v scope = false ∧ ¬(flavor = .defined ∧ scope.isSome = true) := by
  constructor
  · rintro ⟨m', h⟩
    obtain ⟨hfree, ⟨pattern, assignment, -, rfl, -⟩ | ⟨rfl, -, -⟩ | ⟨assignment, rfl, -, -⟩⟩ :=
      declare_ok h
    · exact ⟨hfree, by simp⟩
    · exact ⟨hfree, by simp⟩
    · exact ⟨hfree, by simp⟩
  · rintro ⟨hfree, hpossible⟩
    cases h : m.declare v value flavor scope with
    | ok m' => exact ⟨m', rfl⟩
    | error e =>
        rcases declare_error_iff.mp h with ⟨htaken, -⟩ | ⟨-, hflavor, hscope, -⟩
        · rw [hfree] at htaken
          exact absurd htaken Bool.false_ne_true
        · exact absurd ⟨hflavor, hscope⟩ hpossible

/-- A definition fails exactly if its name is taken. -/
theorem define_error_iff {m : Makefile} {v : Variable} {lines : List Command} {e : Error} :
    m.define v lines = .error e ↔
      m.declares v none = true ∧ e = .variableTaken v.name none := by
  unfold define requireFree
  cases h : m.declares v none with
  | true => simp [bind, Except.bind, eq_comm]
  | false => simp [bind, Except.bind]

/-- The text that is found taken is the first one: those in front of it are new and all different. -/
theorem firstTaken?_eq_some_iff {texts taken : List String} {text : String} :
    firstTaken? taken texts = some text ↔
      ∃ front back, texts = front ++ text :: back ∧ (text ∈ taken ∨ text ∈ front) ∧
        front.Nodup ∧ ∀ earlier ∈ front, earlier ∉ taken := by
  induction texts generalizing taken with
  | nil => simp [firstTaken?]
  | cons first rest ih =>
      rw [firstTaken?]
      by_cases hfirst : first ∈ taken
      · rw [if_pos hfirst, Option.some.injEq]
        constructor
        · rintro rfl
          exact ⟨[], rest, rfl, .inl hfirst, List.nodup_nil, by simp⟩
        · rintro ⟨front, back, heq, -, -, hnew⟩
          -- nothing stands in front of it, for that would begin with `first`
          cases front with
          | nil => exact (List.cons.inj heq).1
          | cons head front =>
              obtain rfl := (List.cons.inj heq).1
              exact absurd hfirst (hnew first List.mem_cons_self)
      · have hmove : ∀ front : List String,
            text ∈ taken ++ [first] ∨ text ∈ front ↔ text ∈ taken ∨ text ∈ first :: front := by
          intro front
          simp [or_assoc]
        rw [if_neg hfirst, ih]
        constructor
        · rintro ⟨front, back, rfl, htaken, hnodup, hnew⟩
          refine ⟨first :: front, back, rfl, (hmove front).mp htaken, ?_, ?_⟩
          · refine List.nodup_cons.mpr ⟨fun hmem => ?_, hnodup⟩
            exact hnew first hmem (by simp)
          · intro earlier hearlier
            rcases List.mem_cons.mp hearlier with rfl | hrest
            · exact hfirst
            · exact fun htaken => hnew earlier hrest (List.mem_append_left _ htaken)
        · rintro ⟨front, back, heq, htaken, hnodup, hnew⟩
          cases front with
          | nil =>
              obtain rfl := (List.cons.inj heq).1
              simp [hfirst] at htaken
          | cons head front =>
              obtain ⟨rfl, hrest⟩ := List.cons.inj heq
              obtain ⟨hhead, hnodup⟩ := List.nodup_cons.mp hnodup
              refine ⟨front, back, hrest, (hmove front).mpr htaken, hnodup, ?_⟩
              intro earlier hearlier hmem
              rcases List.mem_append.mp hmem with htaken | hsame
              · exact hnew earlier (List.mem_cons_of_mem _ hearlier) htaken
              · obtain rfl := List.mem_singleton.mp hsame
                exact hhead hearlier

/-- **Why a rule fails**: it has no targets, or else its first target that is taken is named. -/
theorem addRule_error_iff {m : Makefile} {rule : Rule} {e : Error} :
    m.addRule rule = .error e ↔
      (rule.targets = [] ∧ e = .noTargets) ∨
      ∃ text, e = .targetTaken text ∧ ∃ front back, rule.claims = front ++ text :: back ∧
        (text ∈ m.claimed ∨ text ∈ front) ∧ front.Nodup ∧
        ∀ earlier ∈ front, earlier ∉ m.claimed := by
  unfold addRule
  simp only [← firstTaken?_eq_some_iff]
  by_cases hempty : rule.targets = []
  · have hclaims : rule.claims = [] := by simp [Rule.claims, hempty]
    simp [hempty, hclaims, firstTaken?, eq_comm]
  · rw [if_neg (by simpa using hempty)]
    cases firstTaken? m.claimed rule.claims with
    | none => simp [hempty]
    | some text => simp [hempty, eq_comm]

/-! ## The main result -/

/-- **The first target of a rule that is taken**: it is a target of the model or stands earlier in the
    rule, and neither holds of any target in front of it. -/
def FirstTaken (m : Makefile) (rule : Rule) (text : String) : Prop :=
  ∃ front back, rule.claims = front ++ text :: back ∧
    (m.Takes (.target text) ∨ text ∈ front) ∧ front.Nodup ∧
    ∀ earlier ∈ front, ¬m.Takes (.target earlier)

/-- **A model whose operations do all or nothing**: a failing one leaves it as it was, a succeeding one
    appends one entry, and what fails is known from the names in it. -/
structure Atomic (m : Makefile) : Prop where
  unchanged : ∀ (op : Operation) e m', op.change.outcome m = (.error e, m') → m' = m
  appends : ∀ (op : Operation) m', op.change.outcome m = (.ok (), m') →
    (op.Reuses m ∧ m' = m) ∨
    (¬op.Reuses m ∧ ∃ place entry, op.addition? = some (place, entry) ∧ Appends m place entry m')
  reuses_iff : ∀ v value flavor scope,
    (Operation.declareOnce v value flavor scope).Reuses m ↔ m.Takes (.bound v scope)
  rule_fails_iff : ∀ rule,
    (∃ e m', (Operation.addRule rule).change.outcome m = (.error e, m')) ↔
      rule.targets = [] ∨
      ∃ front text back, rule.claims = front ++ text :: back ∧
        (m.Takes (.target text) ∨ text ∈ front)
  rule_error_iff : ∀ rule e m',
    (Operation.addRule rule).change.outcome m = (.error e, m') ↔
      m' = m ∧
        ((rule.targets = [] ∧ e = .noTargets) ∨
          ∃ text, FirstTaken m rule text ∧ e = .targetTaken text)
  declare_error_iff : ∀ v value flavor scope e m',
    (Operation.declare v value flavor scope).change.outcome m = (.error e, m') ↔
      m' = m ∧
        ((m.Takes (.bound v scope) ∧ e = .variableTaken v.name (scope.map (·.template))) ∨
          (¬m.Takes (.bound v scope) ∧ flavor = .defined ∧ scope.isSome = true ∧
            e = .scopedDefinition v.name))
  declare_succeeds_iff : ∀ v value flavor scope,
    (∃ m', (Operation.declare v value flavor scope).change.outcome m = (.ok (), m')) ↔
      ¬m.Takes (.bound v scope) ∧ ¬(flavor = .defined ∧ scope.isSome = true)
  declareOnce_error_iff : ∀ v value flavor scope e m',
    (Operation.declareOnce v value flavor scope).change.outcome m = (.error e, m') ↔
      m' = m ∧ ¬m.Takes (.bound v scope) ∧ flavor = .defined ∧ scope.isSome = true ∧
        e = .scopedDefinition v.name
  define_error_iff : ∀ v lines e m',
    (Operation.define v lines).change.outcome m = (.error e, m') ↔
      m' = m ∧ m.Takes (.bound v none) ∧ e = .variableTaken v.name none
  include_succeeds : ∀ name optional,
    ∃ m', (Operation.addInclude name optional).change.outcome m = (.ok (), m')

theorem outcome_eq_error_iff {m m' : Makefile} {op : Operation} {e : Error} :
    op.change.outcome m = (.error e, m') ↔ m' = m ∧ op.apply m = .error e := by
  rw [outcome_change]
  cases op.apply m with
  | ok m'' => simp [Change.allOrNothing]
  | error e' => simp [Change.allOrNothing, eq_comm, and_comm]

theorem outcome_eq_ok_iff {m m' : Makefile} {op : Operation} :
    op.change.outcome m = (.ok (), m') ↔ op.apply m = .ok m' := by
  rw [outcome_change]
  cases op.apply m with
  | ok m'' => simp [Change.allOrNothing]
  | error e' => simp [Change.allOrNothing]

/-- A rule fails as soon as any of its targets is taken, since then there is a first one. -/
theorem addRule_fails_iff {m : Makefile} {rule : Rule} :
    (∃ e, m.addRule rule = .error e) ↔
      rule.targets = [] ∨
      ∃ front text back, rule.claims = front ++ text :: back ∧
        (text ∈ m.claimed ∨ text ∈ front) := by
  constructor
  · rintro ⟨e, he⟩
    rcases addRule_error_iff.mp he with ⟨hempty, -⟩ | ⟨text, -, front, back, heq, htaken, -⟩
    · exact .inl hempty
    · exact .inr ⟨front, text, back, heq, htaken⟩
  · intro hfails
    cases h : m.addRule rule with
    | error e => exact ⟨e, rfl⟩
    | ok m' =>
        obtain ⟨hne, hnodup, hnew, -⟩ := addRule_ok_iff.mp h
        rcases hfails with hempty | ⟨front, text, back, heq, htaken⟩
        · exact absurd hempty hne
        · rw [heq] at hnodup hnew
          rcases htaken with hclaimed | hfront
          · exact absurd hclaimed (hnew text (by simp))
          · have hdisjoint := (List.nodup_append.mp hnodup).2.2
            exact absurd rfl (hdisjoint text hfront text List.mem_cons_self)

theorem Consistent.atomic {m : Makefile} (hm : Consistent m) : Atomic m where
  unchanged op e m' h := (outcome_eq_error_iff.mp h).1
  appends op m' h := appends_of_apply (outcome_eq_ok_iff.mp h)
  reuses_iff v value flavor scope := hm.declares_iff v scope
  rule_fails_iff rule := by
    simp only [outcome_eq_error_iff, exists_eq_left, ← hm.claimed_iff]
    exact addRule_fails_iff
  rule_error_iff rule e m' := by
    rw [outcome_eq_error_iff]
    refine and_congr_right fun _ => ?_
    unfold FirstTaken
    simp only [← hm.claimed_iff]
    refine addRule_error_iff.trans (or_congr_right ?_)
    simp only [and_comm]
  declare_error_iff v value flavor scope e m' := by
    rw [outcome_eq_error_iff, ← hm.declares_iff, Bool.not_eq_true]
    exact and_congr_right fun _ => declare_error_iff
  declare_succeeds_iff v value flavor scope := by
    rw [← hm.declares_iff, Bool.not_eq_true]
    simp only [outcome_eq_ok_iff]
    exact declare_succeeds_iff
  declareOnce_error_iff v value flavor scope e m' := by
    rw [outcome_eq_error_iff, ← hm.declares_iff]
    refine and_congr_right fun _ => ?_
    show m.declareOnce v value flavor scope = .error e ↔ _
    unfold Makefile.declareOnce
    by_cases h : m.declares v scope = true
    · simp [h]
    · rw [if_neg h, declare_error_iff]
      simp [h]
  define_error_iff v lines e m' := by
    rw [outcome_eq_error_iff, ← hm.declares_iff]
    exact and_congr_right fun _ => define_error_iff
  include_succeeds name optional := ⟨_, rfl⟩

/-- Changing a model in its place leaves what performing the operation gives. -/
theorem outcome_change_snd (m : Makefile) (op : Operation) :
    (op.change.outcome m).2 = m.perform op := by
  rw [outcome_change]
  unfold perform
  cases op.apply m with
  | ok m' => rfl
  | error e => rfl

/-- **Every operation on every model that a run reaches does all or nothing**, whether the run goes from
    model to model or changes one in its place, and no later run changes or moves what it has added. -/
theorem atomic_run (ops : List Operation) :
    Atomic (run ops) ∧
      ops.foldl (fun m op => (op.change.outcome m).2) empty = run ops ∧
      ∀ more place, (run ops).entries place <+: (run (ops ++ more)).entries place := by
  refine ⟨(consistent_run ops).atomic, ?_, ?_⟩
  · simp only [outcome_change_snd]
    rfl
  · intro more place
    have hrun : run (ops ++ more) = more.foldl perform (run ops) := List.foldl_append
    rw [hrun]
    exact entries_isPrefix_foldl (run ops) more place

/-- A model with the targets `all` and `clean`. -/
def withTwoTargets : Makefile :=
  run [.addRule { targets := [.plain "all", .plain "clean"], phony := true }]

/-- A rule with two targets that are taken: the third by the model, and the fourth by the second. -/
def lateRule : Rule where
  targets := [.plain "a b", .plain "c", .plain "clean", .plain "c"]

/-- The rule fails for the first of its two targets that are taken, and leaves the model as it was. -/
theorem atomic_run_lateRule :
    (Operation.addRule lateRule).change.outcome withTwoTargets =
      (.error (.targetTaken "clean"), withTwoTargets) := by
  have htaken : withTwoTargets.Takes (.target "clean") :=
    ⟨_, List.mem_cons_self, .plain "clean", by simp, by decide⟩
  have hfree : ∀ earlier ∈ ["a\\ b", "c"], ¬withTwoTargets.Takes (.target earlier) := by
    have hnew : ∀ earlier ∈ ["a\\ b", "c"], earlier ∉ withTwoTargets.claimed := by decide
    intro earlier hearlier htakes
    exact hnew earlier hearlier (((consistent_run _).claimed_iff earlier).mpr htakes)
  refine ((atomic_run [_]).1.rule_error_iff lateRule _ _).mpr ⟨rfl, .inr ⟨"clean", ?_, rfl⟩⟩
  exact ⟨["a\\ b", "c"], ["c"], by decide, .inl htaken, by decide, hfree⟩

end MakeGraph.Make.Makefile
