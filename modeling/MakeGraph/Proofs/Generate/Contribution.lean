import MakeGraph.Generate.Products
import MakeGraph.Proofs.Make.Consistent
import MakeGraph.Proofs.Outcome

/-!
# `Proofs.Generate.Contribution` — what a generator adds to a Makefile

A generator threads one model through many small operations. What it does to the model in the end is
a `Contribution`: declarations that are skipped where the name is taken, rules, and includes.
`Contributes f c?` says that a generator `f` does this and nothing else: it succeeds exactly when the
contribution `c?` exists and its targets are fresh, and the model that it gives is the old one
extended by the contribution.

## Contents

* `Declaration`, `Makefile.adopt` — variables that are declared by the first one who needs them
* `Contribution`, `Makefile.extend`, `Fresh` — all that a generator adds, and when its rules fit
* `Contributes` — the specification, with its rules for sequences and loops
-/

namespace MakeGraph.Generate

open Make (Command Error Include Piece Makefile Pattern Rule Variable)
open Outcome

/-! ## Declarations -/

/-- A variable that the first generator who needs it declares. -/
inductive Declaration where
  /-- A global variable. -/
  | global (v : Variable) (value : Command)
  /-- A variable of all targets. -/
  | wildcard (v : Variable) (value : Command)
  /-- A shared recipe, with the variable of the program that it runs. -/
  | recipe (v : Variable) (lines : List Command) (program : Variable) (command : Command)

/-- The model with a global variable, unless the name is taken. -/
def adoptGlobal (m : Makefile) (v : Variable) (value : Command) : Makefile :=
  if m.declares v none then m
  else { m with globals := m.globals.append v (value, .simple) }

/-- The model with a variable of all targets, unless the name is taken. -/
def adoptWildcard (m : Makefile) (v : Variable) (value : Command) : Makefile :=
  if m.declares v (some .any) then m
  else { m with
    scopes := m.scopes.insert .any ((m.bindings (some .any)).append v (value, .simple)) }

/-- The model with a shared recipe and its program, unless the recipe is there. -/
def adoptRecipe (m : Makefile) (v : Variable) (lines : List Command) (program : Variable)
    (command : Command) : Makefile :=
  if m.declares v none then m
  else { adoptGlobal m program command with
    defines := (adoptGlobal m program command).defines.append v lines }

/-- The model with a declaration, unless its name is taken. -/
def adopt (m : Makefile) : Declaration → Makefile
  | .global v value => adoptGlobal m v value
  | .wildcard v value => adoptWildcard m v value
  | .recipe v lines program command => adoptRecipe m v lines program command

/-- The model with declarations, each unless its name is taken. -/
def adoptAll (m : Makefile) (declarations : List Declaration) : Makefile :=
  declarations.foldl adopt m

theorem adoptAll_append (m : Makefile) (ds es : List Declaration) :
    adoptAll m (ds ++ es) = adoptAll (adoptAll m ds) es :=
  List.foldl_append

/-- A global variable with a simple value never fails to be declared once. -/
theorem declareOnce_global (m : Makefile) (v : Variable) (value : Command) :
    m.declareOnce v value (.assigned .simple) none = .ok (adoptGlobal m v value) := by
  unfold Makefile.declareOnce Makefile.declare Makefile.requireFree adoptGlobal
  by_cases h : m.declares v none = true
  · rw [if_pos h, if_pos h]
  · rw [if_neg h, if_neg h, if_neg h]
    rfl

/-- A variable of all targets never fails to be declared once. -/
theorem declareOnce_wildcard (m : Makefile) (v : Variable) (value : Command) :
    m.declareOnce v value (.assigned .simple) (some .any) = .ok (adoptWildcard m v value) := by
  unfold Makefile.declareOnce Makefile.declare Makefile.requireFree adoptWildcard
  by_cases h : m.declares v (some .any) = true
  · rw [if_pos h, if_pos h]
  · rw [if_neg h, if_neg h, if_neg h]
    rfl

theorem declares_adoptGlobal {m : Makefile} {v w : Variable} (value : Command) (h : v ≠ w) :
    (adoptGlobal m v value).declares w none = m.declares w none := by
  unfold adoptGlobal
  split
  · rfl
  · simp [Makefile.declares, Makefile.bindings, Table.contains, Table.find?_append, h]

/-- Declaring a program and defining a new recipe that runs it never fails when the two have
    different names. -/
theorem define_adoptGlobal {m : Makefile} {v program : Variable} (lines : List Command)
    (command : Command) (hne : program ≠ v) (hv : m.declares v none = false) :
    (adoptGlobal m program command).define v lines =
      .ok (adoptRecipe m v lines program command) := by
  unfold Makefile.define Makefile.requireFree adoptRecipe
  rw [declares_adoptGlobal command hne, hv]
  rfl

/-! ## Contributions -/

/-- What a generator adds to a Makefile. -/
structure Contribution where
  /-- The variables and recipes that it needs. -/
  declarations : List Declaration := []
  /-- Its rules. -/
  rules : List Rule := []
  /-- The files that it includes. -/
  includes : List Include := []

instance : Append Contribution :=
  ⟨fun a b => ⟨a.declarations ++ b.declarations, a.rules ++ b.rules, a.includes ++ b.includes⟩⟩

@[simp] theorem declarations_append (a b : Contribution) :
    (a ++ b).declarations = a.declarations ++ b.declarations := rfl

@[simp] theorem rules_append (a b : Contribution) : (a ++ b).rules = a.rules ++ b.rules := rfl

@[simp] theorem includes_append (a b : Contribution) :
    (a ++ b).includes = a.includes ++ b.includes := rfl

/-- The texts that rules claim. -/
def claimsOf (rules : List Rule) : List String :=
  rules.flatMap Rule.claims

@[simp] theorem claimsOf_append (rs ss : List Rule) :
    claimsOf (rs ++ ss) = claimsOf rs ++ claimsOf ss :=
  List.flatMap_append

/-- The model with a contribution. -/
def extend (m : Makefile) (c : Contribution) : Makefile :=
  { adoptAll m c.declarations with
    rules := m.rules ++ c.rules
    claimed := m.claimed ++ claimsOf c.rules
    includes := m.includes ++ c.includes }

/-- Rules that a model can take: each has targets, and these are new and all different. -/
structure Fresh (m : Makefile) (rules : List Rule) : Prop where
  targets_ne_nil : ∀ rule ∈ rules, rule.targets ≠ []
  nodup : (claimsOf rules).Nodup
  new : ∀ text ∈ claimsOf rules, text ∉ m.claimed

theorem fresh_nil (m : Makefile) : Fresh m [] :=
  ⟨by simp, List.nodup_nil, by simp [claimsOf]⟩

/-! ## Declarations and rules do not meet -/

/-- A declaration neither reads nor changes rules, claimed targets and includes. -/
theorem adopt_update (m : Makefile) (d : Declaration) (rules : List Rule) (claimed : List String)
    (includes : List Include) :
    adopt { m with rules, claimed, includes } d = { adopt m d with rules, claimed, includes } := by
  have hglobal : ∀ v value, adoptGlobal { m with rules, claimed, includes } v value =
      { adoptGlobal m v value with rules, claimed, includes } := by
    intro v value
    unfold adoptGlobal
    by_cases h : m.declares v none = true
    · rw [if_pos h]; exact if_pos h
    · rw [if_neg h]; exact if_neg h
  cases d with
  | global v value => exact hglobal v value
  | wildcard v value =>
      unfold adopt adoptWildcard
      by_cases h : m.declares v (some .any) = true
      · simp only [if_pos h]; exact if_pos h
      · simp only [if_neg h]; exact if_neg h
  | recipe v lines program command =>
      unfold adopt adoptRecipe
      simp only [hglobal]
      by_cases h : m.declares v none = true
      · simp only [if_pos h]; exact if_pos h
      · simp only [if_neg h]; exact if_neg h

theorem adoptAll_update (m : Makefile) (ds : List Declaration) (rules : List Rule)
    (claimed : List String) (includes : List Include) :
    adoptAll { m with rules, claimed, includes } ds =
      { adoptAll m ds with rules, claimed, includes } := by
  induction ds generalizing m with
  | nil => rfl
  | cons d ds ih =>
      show adoptAll (adopt { m with rules, claimed, includes } d) ds = _
      rw [adopt_update]
      exact ih (adopt m d)

/-- Contributions one after the other are one contribution. -/
theorem extend_append (m : Makefile) (a b : Contribution) :
    extend (extend m a) b = extend m (a ++ b) := by
  unfold extend
  rw [adoptAll_update]
  simp [adoptAll_append, List.append_assoc]

theorem extend_nil (m : Makefile) : extend m {} = m := by
  simp [extend, adoptAll, claimsOf]

theorem extend_declarations (m : Makefile) (ds : List Declaration) :
    extend m { declarations := ds } = adoptAll m ds := by
  have h := adoptAll_update m ds m.rules m.claimed m.includes
  simp only [extend, claimsOf, List.append_nil, List.flatMap_nil]
  exact h.symm

theorem fresh_append {m : Makefile} {a : Contribution} {ss : List Rule} :
    Fresh m (a.rules ++ ss) ↔ Fresh m a.rules ∧ Fresh (extend m a) ss := by
  constructor
  · rintro ⟨hne, hnodup, hnew⟩
    rw [claimsOf_append] at hnodup hnew
    have hparts := List.nodup_append.mp hnodup
    refine ⟨⟨fun r hr => hne r (List.mem_append_left _ hr), hparts.1, fun t ht =>
      hnew t (List.mem_append_left _ ht)⟩, fun r hr => hne r (List.mem_append_right _ hr),
      hparts.2.1, fun t ht hin => ?_⟩
    rcases List.mem_append.mp hin with hold | hfirst
    · exact hnew t (List.mem_append_right _ ht) hold
    · exact hparts.2.2 t hfirst t ht rfl
  · rintro ⟨⟨hne, hnodup, hnew⟩, hne', hnodup', hnew'⟩
    refine ⟨?_, ?_, ?_⟩
    · intro r hr
      exact (List.mem_append.mp hr).elim (hne r) (hne' r)
    · rw [claimsOf_append, List.nodup_append]
      refine ⟨hnodup, hnodup', ?_⟩
      rintro t ht _ ht' rfl
      exact hnew' t ht' (List.mem_append_right _ ht)
    · intro t ht
      rw [claimsOf_append] at ht
      rcases List.mem_append.mp ht with hfirst | hsecond
      · exact hnew t hfirst
      · exact fun hold => hnew' t hsecond (List.mem_append_left _ hold)

/-! ## Generators -/

/-- **The specification of a generator.** It succeeds exactly when its contribution exists and the
    model can take the rules, and it gives the model with the contribution. -/
def Contributes (f : Makefile → Except Error Makefile) (c? : Except Error Contribution) : Prop :=
  ∀ m m', f m = .ok m' ↔ ∃ c, c? = .ok c ∧ Fresh m c.rules ∧ m' = extend m c

/-- A generator without rules cannot fail. -/
theorem contributes_of_no_rules {f : Makefile → Except Error Makefile} {c : Contribution}
    (hrules : c.rules = []) (hf : ∀ m, f m = .ok (extend m c)) : Contributes f (.ok c) := by
  intro m m'
  rw [hf]
  constructor
  · intro h
    refine ⟨c, rfl, ?_, (Except.ok.inj h).symm⟩
    rw [hrules]
    exact fresh_nil m
  · rintro ⟨other, hother, -, rfl⟩
    rw [Except.ok.inj hother]

/-- A generator that does nothing. -/
theorem contributes_pure : Contributes .ok (.ok {}) :=
  contributes_of_no_rules rfl fun m => by rw [extend_nil]

/-- A generator that only declares variables. -/
theorem contributes_adoptAll (ds : List Declaration) :
    Contributes (fun m => .ok (adoptAll m ds)) (.ok { declarations := ds }) :=
  contributes_of_no_rules rfl fun m => by rw [extend_declarations]

/-- A generator that adds an include. -/
theorem contributes_addInclude (name : Piece) (optional : Bool) :
    Contributes (fun m => .ok (m.addInclude name optional))
      (.ok { includes := [⟨name, optional⟩] }) := by
  refine contributes_of_no_rules rfl fun m => ?_
  simp [extend, adoptAll, claimsOf, Makefile.addInclude]

/-- A generator that adds one rule. -/
theorem contributes_addRule (rule : Rule) :
    Contributes (fun m => m.addRule rule) (.ok { rules := [rule] }) := by
  intro m m'
  have hfresh : Fresh m [rule] ↔
      rule.targets ≠ [] ∧ rule.claims.Nodup ∧ ∀ text ∈ rule.claims, text ∉ m.claimed := by
    constructor
    · rintro ⟨hne, hnodup, hnew⟩
      exact ⟨hne rule (by simp), by simpa [claimsOf] using hnodup, by simpa [claimsOf] using hnew⟩
    · rintro ⟨hne, hnodup, hnew⟩
      exact ⟨by simpa using hne, by simpa [claimsOf] using hnodup, by simpa [claimsOf] using hnew⟩
  have hextend : extend m { rules := [rule] } =
      { m with rules := m.rules ++ [rule], claimed := m.claimed ++ rule.claims } := by
    simp [extend, adoptAll, claimsOf]
  rw [Makefile.addRule_ok_iff]
  constructor
  · rintro ⟨hne, hnodup, hnew, rfl⟩
    exact ⟨_, rfl, hfresh.mpr ⟨hne, hnodup, hnew⟩, hextend.symm⟩
  · rintro ⟨c, hc, hf, rfl⟩
    rw [← Except.ok.inj hc] at hf ⊢
    obtain ⟨hne, hnodup, hnew⟩ := hfresh.mp hf
    exact ⟨hne, hnodup, hnew, hextend⟩

/-- **Two generators one after the other** contribute what both do. -/
theorem Contributes.bind {f g : Makefile → Except Error Makefile} {a? b? : Except Error Contribution}
    (hf : Contributes f a?) (hg : Contributes g b?) :
    Contributes (fun m => f m >>= g) (do return (← a?) ++ (← b?)) := by
  intro m m'
  simp only [bind_eq_ok_iff, pure_eq_ok_iff]
  -- the second generator meets the targets of the first: `fresh_append` counts them once
  constructor
  · rintro ⟨m₁, h₁, h₂⟩
    obtain ⟨a, ha, hfresh, rfl⟩ := (hf m m₁).mp h₁
    obtain ⟨b, hb, hfresh', rfl⟩ := (hg _ m').mp h₂
    exact ⟨a ++ b, ⟨a, ha, b, hb, rfl⟩, fresh_append.mpr ⟨hfresh, hfresh'⟩, extend_append m a b⟩
  · rintro ⟨_, ⟨a, ha, b, hb, rfl⟩, hfresh, rfl⟩
    have hparts := fresh_append.mp hfresh
    exact ⟨extend m a, (hf m _).mpr ⟨a, ha, hparts.1, rfl⟩,
      (hg _ _).mpr ⟨b, hb, hparts.2, (extend_append m a b).symm⟩⟩

/-- The contributions of a list of items, one after the other. -/
def contributions {α : Type} (c? : α → Except Error Contribution) :
    List α → Except Error Contribution
  | [] => .ok {}
  | item :: items => do return (← c? item) ++ (← contributions c? items)

/-- **A loop over generators** contributes what all rounds do, by induction on the items. -/
theorem Contributes.foldlM {α : Type} {step : Makefile → α → Except Error Makefile}
    {c? : α → Except Error Contribution}
    (hstep : ∀ item, Contributes (fun m => step m item) (c? item)) (items : List α) :
    Contributes (fun m => items.foldlM step m) (contributions c? items) := by
  induction items with
  | nil => exact contributes_pure
  | cons item items ih =>
      simp only [List.foldlM_cons]
      exact (hstep item).bind ih

/-- A loop over contributions succeeds when every item has one. -/
theorem contributions_succeeds_iff {α : Type} {c? : α → Except Error Contribution} {items : List α} :
    (∃ c, contributions c? items = .ok c) ↔ ∀ item ∈ items, ∃ c, c? item = .ok c := by
  induction items with
  | nil => exact ⟨fun _ item hitem => absurd hitem List.not_mem_nil, fun _ => ⟨{}, rfl⟩⟩
  | cons item items ih =>
      simp only [contributions, bind_eq_ok_iff, pure_eq_ok_iff, List.forall_mem_cons, ← ih]
      constructor
      · rintro ⟨_, a, ha, b, hb, -⟩
        exact ⟨⟨a, ha⟩, b, hb⟩
      · rintro ⟨⟨a, ha⟩, b, hb⟩
        exact ⟨a ++ b, a, ha, b, hb, rfl⟩

/-- The rules of a loop are those of its items in order. -/
theorem forall_contributions {α : Type} {c? : α → Except Error Contribution}
    {P : List α → Contribution → Prop}
    (hnil : P [] {})
    (hcons : ∀ item items a b, c? item = .ok a → P items b → P (item :: items) (a ++ b))
    {items : List α} {c : Contribution} (h : contributions c? items = .ok c) : P items c := by
  induction items generalizing c with
  | nil => exact Except.ok.inj h ▸ hnil
  | cons item items ih =>
      simp only [contributions, bind_eq_ok_iff, pure_eq_ok_iff] at h
      obtain ⟨a, ha, b, hb, rfl⟩ := h
      exact hcons item items a b ha (ih hb)

/-- An item of a loop contributes what it contributes alone. -/
theorem mem_contributions {α : Type} {c? : α → Except Error Contribution} {items : List α}
    {c : Contribution} (h : contributions c? items = .ok c) {item : α} (hitem : item ∈ items) :
    ∃ own, c? item = .ok own ∧ own.declarations ⊆ c.declarations ∧ own.rules ⊆ c.rules := by
  revert item
  refine forall_contributions (P := fun items c => ∀ {item}, item ∈ items → ∃ own, c? item = .ok own ∧
    own.declarations ⊆ c.declarations ∧ own.rules ⊆ c.rules) ?_ ?_ h
  · exact fun hitem => absurd hitem List.not_mem_nil
  · intro first items a b ha ih item hitem
    rcases List.mem_cons.mp hitem with rfl | hitem
    · exact ⟨a, ha, List.subset_append_left _ _, List.subset_append_left _ _⟩
    · obtain ⟨own, hown, hdeclarations, hrules⟩ := ih hitem
      exact ⟨own, hown, fun d hd => List.mem_append_right _ (hdeclarations hd),
        fun r hr => List.mem_append_right _ (hrules hr)⟩

end MakeGraph.Generate
