import MakeGraph.Proofs.Generate.Acceptance
import MakeGraph.Proofs.Generate.SharedVariables
import Mathlib.Data.List.Nodup

/-!
# `Proofs.Generate.DeclarationOrder` — the order of declarations that agree

Declarations that agree commute: whichever comes first, the model has the same entries in the end, only
in another order (`adopt_comm`). So all orders of declarations of which any two agree give models that are
the same up to order (`sameUpToOrder_adoptAll`).

## Contents

* `SameUpToOrder`, `SameUpToOrder.adopt` — models with the same entries in every section
* `Declaration.Compatible` — declarations that agree
* `adoptGlobal_comm`, `adoptWildcard_comm`, `adoptRecipe_comm` — two declarations of one kind
* `adopt_comm`, `sameUpToOrder_adoptAll` — two declarations, and any number
-/

namespace MakeGraph.Generate

open Make (Bindings Command Makefile Pattern Variable)
open Outcome

/-! ## Models up to order -/

/-- **Models with the same entries** in every section, perhaps in another order. -/
structure SameUpToOrder (m m' : Makefile) : Prop where
  globals : m.globals.Perm m'.globals
  scopes : ∀ pattern, (m.bindings (some pattern)).Perm (m'.bindings (some pattern))
  defines : m.defines.Perm m'.defines
  rules : m.rules.Perm m'.rules
  includes : m.includes.Perm m'.includes

section Order

variable {m m' m'' : Makefile} {v w : Variable}

theorem SameUpToOrder.refl (m : Makefile) : SameUpToOrder m m :=
  ⟨.refl _, fun _ => .refl _, .refl _, .refl _, .refl _⟩

theorem SameUpToOrder.of_eq (h : m = m') : SameUpToOrder m m' :=
  h ▸ .refl m

theorem SameUpToOrder.symm (h : SameUpToOrder m m') : SameUpToOrder m' m :=
  ⟨h.globals.symm, fun pattern => (h.scopes pattern).symm, h.defines.symm, h.rules.symm,
    h.includes.symm⟩

theorem SameUpToOrder.trans (h : SameUpToOrder m m') (h' : SameUpToOrder m' m'') :
    SameUpToOrder m m'' :=
  ⟨h.globals.trans h'.globals, fun pattern => (h.scopes pattern).trans (h'.scopes pattern),
    h.defines.trans h'.defines, h.rules.trans h'.rules, h.includes.trans h'.includes⟩

/-- Tables with the same entries have the same keys. -/
theorem contains_eq_of_perm {ν : Type} {t t' : Table Variable ν} (h : t.Perm t') (v : Variable) :
    t.contains v = t'.contains v := by
  rw [Bool.eq_iff_iff, Table.contains_iff, Table.contains_iff]
  exact (h.map (·.1)).mem_iff

theorem SameUpToOrder.declares_none (h : SameUpToOrder m m') (v : Variable) :
    m.declares v none = m'.declares v none := by
  have hglobals := contains_eq_of_perm h.globals v
  have hdefines := contains_eq_of_perm h.defines v
  simp only [Makefile.declares, Makefile.bindings, hglobals, hdefines]

theorem SameUpToOrder.declares_some (h : SameUpToOrder m m') (v : Variable) (pattern : Pattern) :
    m.declares v (some pattern) = m'.declares v (some pattern) := by
  have hscope := contains_eq_of_perm (h.scopes pattern) v
  simp only [Makefile.declares, hscope, Option.isNone_some, Bool.false_and, Bool.or_false]

/-! ### One declaration -/

/-- The model with a definition behind the others. -/
def withDefine (m : Makefile) (v : Variable) (lines : List Command) : Makefile :=
  { m with defines := m.defines.append v lines }

theorem SameUpToOrder.withDefine (h : SameUpToOrder m m') (v : Variable) (lines : List Command) :
    SameUpToOrder (withDefine m v lines) (withDefine m' v lines) :=
  ⟨h.globals, h.scopes, h.defines.append_right _, h.rules, h.includes⟩

theorem SameUpToOrder.adoptGlobal (h : SameUpToOrder m m') (v : Variable) (value : Command) :
    SameUpToOrder (adoptGlobal m v value) (adoptGlobal m' v value) := by
  unfold Generate.adoptGlobal
  rw [h.declares_none v]
  split
  · exact h
  · exact ⟨h.globals.append_right _, h.scopes, h.defines, h.rules, h.includes⟩

/-- The bindings of a scope when a variable of all targets has been written. -/
theorem bindings_insert_any (m : Makefile) (bindings : Bindings) (pattern : Pattern) :
    ({ m with scopes := m.scopes.insert .any bindings } : Makefile).bindings (some pattern) =
      if Pattern.any = pattern then bindings else m.bindings (some pattern) := by
  show ((m.scopes.insert .any bindings).find? pattern).getD [] = _
  rw [Table.find?_insert]
  split <;> rfl

theorem SameUpToOrder.adoptWildcard (h : SameUpToOrder m m') (v : Variable) (value : Command) :
    SameUpToOrder (adoptWildcard m v value) (adoptWildcard m' v value) := by
  unfold Generate.adoptWildcard
  rw [h.declares_some v]
  split
  · exact h
  · refine ⟨h.globals, fun pattern => ?_, h.defines, h.rules, h.includes⟩
    rw [bindings_insert_any, bindings_insert_any]
    split
    · exact (h.scopes .any).append_right _
    · exact h.scopes pattern

/-- **One declaration** does the same to models that are the same up to order. -/
theorem SameUpToOrder.adopt (h : SameUpToOrder m m') (d : Declaration) :
    SameUpToOrder (adopt m d) (adopt m' d) := by
  cases d with
  | global v value => exact h.adoptGlobal v value
  | wildcard v value => exact h.adoptWildcard v value
  | recipe v lines program command =>
      show SameUpToOrder (adoptRecipe m v lines program command)
        (adoptRecipe m' v lines program command)
      unfold adoptRecipe
      rw [h.declares_none v]
      split
      · exact h
      · exact (h.adoptGlobal program command).withDefine v lines

end Order

/-! ## Declarations that agree -/

/-- Two declarations that agree: where both speak of one name, they say the same. -/
def Declaration.Compatible : Declaration → Declaration → Prop
  | .global v value, .global w other => v = w → value = other
  | .wildcard v value, .wildcard w other => v = w → value = other
  | .global v value, .recipe w _ program command => v ≠ w ∧ (v = program → value = command)
  | .recipe w _ program command, .global v value => v ≠ w ∧ (v = program → value = command)
  | .recipe v lines program command, .recipe w others program' command' =>
      (v = w → lines = others ∧ program = program' ∧ command = command') ∧
        (program = program' → command = command') ∧ program ≠ w ∧ program' ≠ v
  | .wildcard _ _, _ | _, .wildcard _ _ => True

section Commute

variable {m : Makefile} {v w program : Variable} {value other command : Command}
  {lines others : List Command}

theorem declares_withDefine (h : v ≠ w) (lines : List Command) :
    (withDefine m w lines).declares v none = m.declares v none := by
  simp [withDefine, Makefile.declares, Makefile.bindings, Table.contains, Table.find?_append,
    Ne.symm h]

/-- A variable and a definition with another name commute. -/
theorem adoptGlobal_withDefine (h : v ≠ w) (value : Command) (lines : List Command) :
    adoptGlobal (withDefine m w lines) v value = withDefine (adoptGlobal m v value) w lines := by
  unfold adoptGlobal
  rw [declares_withDefine h]
  split <;> rfl

theorem adoptGlobal_of_declared (h : m.declares v none = true) (value : Command) :
    adoptGlobal m v value = m :=
  if_pos h

theorem adoptGlobal_of_free (h : ¬ m.declares v none = true) (value : Command) :
    adoptGlobal m v value = { m with globals := m.globals.append v (value, .simple) } :=
  if_neg h

/-- Two new entries, in whichever order. -/
theorem append_comm {ν : Type} (t : Table Variable ν) (x y : Variable × ν) :
    ((t.append x.1 x.2).append y.1 y.2).Perm ((t.append y.1 y.2).append x.1 x.2) := by
  simp only [Table.append_eq, List.append_assoc, List.singleton_append]
  exact (List.Perm.swap _ _ _).append_left _

/-- **Two variables** with different names, or with one value, commute up to order. -/
theorem adoptGlobal_comm (m : Makefile) (h : v = w → value = other) :
    SameUpToOrder (adoptGlobal (adoptGlobal m v value) w other)
      (adoptGlobal (adoptGlobal m w other) v value) := by
  by_cases hname : v = w
  · obtain rfl := h hname
    subst hname
    exact .refl _
  have hw : (adoptGlobal m v value).declares w none = m.declares w none :=
    declares_adoptGlobal value hname
  have hv : (adoptGlobal m w other).declares v none = m.declares v none :=
    declares_adoptGlobal other (Ne.symm hname)
  by_cases hdv : m.declares v none = true
  · rw [adoptGlobal_of_declared hdv, adoptGlobal_of_declared (hv.trans hdv)]
    exact .refl _
  by_cases hdw : m.declares w none = true
  · rw [adoptGlobal_of_declared hdw, adoptGlobal_of_declared (hw.trans hdw)]
    exact .refl _
  -- both are new, and they come in the order in which they are declared
  have hdv' : ¬ (adoptGlobal m w other).declares v none = true := by rwa [hv]
  have hdw' : ¬ (adoptGlobal m v value).declares w none = true := by rwa [hw]
  rw [adoptGlobal_of_free hdw', adoptGlobal_of_free hdv', adoptGlobal_of_free hdv,
    adoptGlobal_of_free hdw]
  exact ⟨append_comm m.globals (v, value, .simple) (w, other, .simple), fun _ => .refl _, .refl _,
    .refl _, .refl _⟩

/-- The variables of all targets when one more has been declared. -/
theorem bindings_adoptWildcard_eq (m : Makefile) (v : Variable) (value : Command)
    (pattern : Pattern) : (adoptWildcard m v value).bindings (some pattern) =
      if Pattern.any = pattern ∧ (m.bindings (some .any)).contains v = false then
        (m.bindings (some .any)).append v (value, .simple)
      else m.bindings (some pattern) := by
  have hdeclares : m.declares v (some .any) = (m.bindings (some .any)).contains v := by
    simp [Makefile.declares]
  unfold adoptWildcard
  rw [hdeclares]
  cases hcontains : (m.bindings (some .any)).contains v with
  | true => simp
  | false =>
      rw [if_neg (by simp), bindings_insert_any]
      simp

/-- Two variables of all targets commute in the same way. -/
theorem adoptWildcard_comm (m : Makefile) (h : v = w → value = other) :
    SameUpToOrder (adoptWildcard (adoptWildcard m v value) w other)
      (adoptWildcard (adoptWildcard m w other) v value) := by
  by_cases hname : v = w
  · obtain rfl := h hname
    subst hname
    exact .refl _
  have hrest : ∀ (m : Makefile) u x, (adoptWildcard m u x).globals = m.globals ∧
      (adoptWildcard m u x).defines = m.defines ∧ (adoptWildcard m u x).rules = m.rules ∧
      (adoptWildcard m u x).includes = m.includes := by
    intro m u x
    unfold adoptWildcard
    split <;> exact ⟨rfl, rfl, rfl, rfl⟩
  have hcontains : ∀ (m : Makefile) {u u' : Variable} (x : Command), u ≠ u' →
      ((adoptWildcard m u x).bindings (some .any)).contains u' =
        (m.bindings (some .any)).contains u' := by
    intro m u u' x hne
    rw [bindings_adoptWildcard_eq]
    split
    · simp [Table.contains, Table.find?_append, hne]
    · rfl
  refine ⟨?_, fun pattern => ?_, ?_, ?_, ?_⟩
  · simp only [hrest, List.Perm.refl]
  · simp only [bindings_adoptWildcard_eq _ _ _ pattern, hcontains m value hname,
      hcontains m other (Ne.symm hname)]
    by_cases hany : Pattern.any = pattern
    · subst hany
      simp only [bindings_adoptWildcard_eq _ _ _ Pattern.any, true_and]
      cases (m.bindings (some .any)).contains v <;> cases (m.bindings (some .any)).contains w
      · exact append_comm (m.bindings (some .any)) (v, value, .simple) (w, other, .simple)
      · exact .refl _
      · exact .refl _
      · exact .refl _
    · simp only [hany, false_and, if_false, List.Perm.refl]
  · simp only [hrest, List.Perm.refl]
  · simp only [hrest, List.Perm.refl]
  · simp only [hrest, List.Perm.refl]

theorem adoptRecipe_of_declared (h : m.declares v none = true) (lines : List Command)
    (program : Variable) (command : Command) : adoptRecipe m v lines program command = m :=
  if_pos h

theorem adoptRecipe_of_free (h : ¬ m.declares v none = true) (lines : List Command)
    (program : Variable) (command : Command) :
    adoptRecipe m v lines program command = withDefine (adoptGlobal m program command) v lines :=
  if_neg h

/-- A variable and a recipe with its program. -/
theorem adoptGlobal_adoptRecipe (m : Makefile) (hname : v ≠ w)
    (h : v = program → value = command) (lines : List Command) :
    SameUpToOrder (adoptRecipe (adoptGlobal m v value) w lines program command)
      (adoptGlobal (adoptRecipe m w lines program command) v value) := by
  have hw : (adoptGlobal m v value).declares w none = m.declares w none :=
    declares_adoptGlobal value hname
  by_cases hdw : m.declares w none = true
  · rw [adoptRecipe_of_declared hdw, adoptRecipe_of_declared (hw.trans hdw)]
    exact .refl _
  · have hdw' : ¬ (adoptGlobal m v value).declares w none = true := by rwa [hw]
    rw [adoptRecipe_of_free hdw, adoptRecipe_of_free hdw', adoptGlobal_withDefine hname]
    exact (adoptGlobal_comm m h).withDefine w lines

/-- Two recipes with their programs. -/
theorem adoptRecipe_comm (m : Makefile) {program' : Variable} {command' : Command} (hname : v ≠ w)
    (h : program = program' → command = command') (hprogram : program ≠ w)
    (hprogram' : program' ≠ v) (lines others : List Command) :
    SameUpToOrder (adoptRecipe (adoptRecipe m v lines program command) w others program' command')
      (adoptRecipe (adoptRecipe m w others program' command') v lines program command) := by
  have hw : (withDefine (adoptGlobal m program command) v lines).declares w none =
      m.declares w none :=
    (declares_withDefine (Ne.symm hname) lines).trans (declares_adoptGlobal command hprogram)
  have hv : (withDefine (adoptGlobal m program' command') w others).declares v none =
      m.declares v none :=
    (declares_withDefine hname others).trans (declares_adoptGlobal command' hprogram')
  by_cases hdv : m.declares v none = true
  · by_cases hdw : m.declares w none = true
    · rw [adoptRecipe_of_declared hdv, adoptRecipe_of_declared hdw, adoptRecipe_of_declared hdv]
      exact .refl _
    · rw [adoptRecipe_of_declared hdv, adoptRecipe_of_free hdw,
        adoptRecipe_of_declared (hv.trans hdv)]
      exact .refl _
  · by_cases hdw : m.declares w none = true
    · rw [adoptRecipe_of_declared hdw, adoptRecipe_of_free hdv,
        adoptRecipe_of_declared (hw.trans hdw)]
      exact .refl _
    · have hdv' : ¬ (withDefine (adoptGlobal m program' command') w others).declares v none = true := by
        rwa [hv]
      have hdw' : ¬ (withDefine (adoptGlobal m program command) v lines).declares w none = true := by
        rwa [hw]
      -- both programs come before both recipes
      rw [adoptRecipe_of_free hdv, adoptRecipe_of_free hdw, adoptRecipe_of_free hdw',
        adoptRecipe_of_free hdv', adoptGlobal_withDefine hprogram', adoptGlobal_withDefine hprogram]
      have hprograms := ((adoptGlobal_comm m h).withDefine v lines).withDefine w others
      refine hprograms.trans ⟨.refl _, fun _ => .refl _, ?_, .refl _, .refl _⟩
      exact append_comm _ (v, lines) (w, others)

/-- A declaration that is not for all targets neither reads nor changes scopes. -/
theorem adopt_scopes {d : Declaration} (hd : ∀ v value, d ≠ .wildcard v value) (m : Makefile)
    (scopes : Table Pattern Bindings) :
    adopt { m with scopes } d = { adopt m d with scopes } := by
  have hglobal : ∀ v value, adoptGlobal { m with scopes } v value =
      { adoptGlobal m v value with scopes } := by
    intro v value
    unfold adoptGlobal
    by_cases h : m.declares v none = true
    · rw [if_pos h]; exact if_pos h
    · rw [if_neg h]; exact if_neg h
  cases d with
  | global v value => exact hglobal v value
  | wildcard v value => exact absurd rfl (hd v value)
  | recipe v lines program command =>
      unfold adopt adoptRecipe
      simp only [hglobal]
      by_cases h : m.declares v none = true
      · simp only [if_pos h]; exact if_pos h
      · simp only [if_neg h]; exact if_neg h

/-- A variable of all targets commutes with every other declaration. -/
theorem adopt_adoptWildcard {d : Declaration} (hd : ∀ v value, d ≠ .wildcard v value) (m : Makefile)
    (w : Variable) (other : Command) :
    adopt (adoptWildcard m w other) d = adoptWildcard (adopt m d) w other := by
  have hsame : adopt m d = { adopt m d with scopes := m.scopes } := adopt_scopes hd m m.scopes
  have hscopes : (adopt m d).scopes = m.scopes := by rw [hsame]
  have hbindings : (adopt m d).bindings (some .any) = m.bindings (some .any) := by
    rw [Makefile.bindings, Makefile.bindings, hscopes]
  have hdeclares : (adopt m d).declares w (some .any) = m.declares w (some .any) := by
    simp only [Makefile.declares, hbindings, Option.isNone_some, Bool.false_and]
  unfold adoptWildcard
  rw [hdeclares, hscopes, hbindings]
  split
  · rfl
  · exact adopt_scopes hd m _

/-- **Declarations that agree commute** up to order. -/
theorem adopt_comm (m : Makefile) {d e : Declaration} (h : d.Compatible e) :
    SameUpToOrder (adopt (adopt m d) e) (adopt (adopt m e) d) := by
  cases d with
  | global v value => cases e with
    | global w other => exact adoptGlobal_comm m h
    | wildcard w other => exact .of_eq (adopt_adoptWildcard (by simp) m w other).symm
    | recipe w lines program command => exact adoptGlobal_adoptRecipe m h.1 h.2 lines
  | wildcard v value => cases e with
    | global w other => exact .of_eq (adopt_adoptWildcard (by simp) m v value)
    | wildcard w other => exact adoptWildcard_comm m h
    | recipe w lines program command => exact .of_eq (adopt_adoptWildcard (by simp) m v value)
  | recipe v lines program command => cases e with
    | global w other => exact (adoptGlobal_adoptRecipe m h.1 h.2 lines).symm
    | wildcard w other => exact .of_eq (adopt_adoptWildcard (by simp) m w other).symm
    | recipe w others program' command' =>
        obtain ⟨hsame, hprograms, hne, hne'⟩ := h
        by_cases hname : v = w
        · obtain ⟨rfl, rfl, rfl⟩ := hsame hname
          subst hname
          exact .refl _
        · exact adoptRecipe_comm m hname hprograms hne hne' lines others

theorem SameUpToOrder.adoptAll {m m' : Makefile} (h : SameUpToOrder m m') (ds : List Declaration) :
    SameUpToOrder (adoptAll m ds) (adoptAll m' ds) := by
  induction ds generalizing m m' with
  | nil => exact h
  | cons d ds ih => exact ih (h.adopt d)

/-- **Permuted declarations** of which each two agree give the same model up to order. -/
theorem sameUpToOrder_adoptAll {ds es : List Declaration} (hperm : ds.Perm es)
    (hagree : ∀ d ∈ ds, ∀ e ∈ ds, d.Compatible e) (m : Makefile) :
    SameUpToOrder (adoptAll m ds) (adoptAll m es) := by
  induction hperm generalizing m with
  | nil => exact .refl m
  | @cons d ds es hperm ih =>
      exact ih (fun d hd e he => hagree d (List.mem_cons_of_mem _ hd) e (List.mem_cons_of_mem _ he))
        (adopt m d)
  | swap d e ds =>
      have hboth := hagree e List.mem_cons_self d (List.mem_cons_of_mem _ List.mem_cons_self)
      exact (adopt_comm m hboth).adoptAll ds
  | @trans ds es fs hfirst hsecond ih ih' =>
      refine (ih hagree m).trans (ih' (fun d hd e he => ?_) m)
      exact hagree d (hfirst.mem_iff.mpr hd) e (hfirst.mem_iff.mpr he)

end Commute

end MakeGraph.Generate
