import MakeGraph.Proofs.Generate.DriverDeclarations

/-!
# `Proofs.Generate.EdgeOrder` — the order of the edges does not matter

Permuting the edges permutes what they declare and the rules that they add (`contributions_perm`). With
the compiler drivers all declarations agree, so the models are the same up to order (`generate_perm`). The
Microsoft tools are left out for a reason: their two compilers share variables.

## Contents

* `Contribution.Perm`, `contributions_perm` — permuted edges contribute the same
* `modelContribution_perm`, `modelWith_perm` — the whole model
* `generate_perm` — the main result
-/

namespace MakeGraph.Generate

open Make (Error Makefile Rule)
open Outcome

/-! ## Permuted edges -/

section Permuted

/-- Contributions with the same parts, perhaps in another order. -/
structure Contribution.Perm (a b : Contribution) : Prop where
  declarations : a.declarations.Perm b.declarations
  rules : a.rules.Perm b.rules
  includes : a.includes.Perm b.includes

theorem Contribution.Perm.refl (a : Contribution) : a.Perm a :=
  ⟨.refl _, .refl _, .refl _⟩

theorem Contribution.Perm.trans {a b c : Contribution} (h : a.Perm b) (h' : b.Perm c) : a.Perm c :=
  ⟨h.declarations.trans h'.declarations, h.rules.trans h'.rules, h.includes.trans h'.includes⟩

theorem Contribution.Perm.append {a b a' b' : Contribution} (h : a.Perm a') (h' : b.Perm b') :
    (a ++ b).Perm (a' ++ b') :=
  ⟨h.declarations.append h'.declarations, h.rules.append h'.rules, h.includes.append h'.includes⟩

theorem Contribution.perm_swap (a b c : Contribution) : (a ++ (b ++ c)).Perm (b ++ (a ++ c)) := by
  have hlists : ∀ {α : Type} (xs ys zs : List α), (xs ++ (ys ++ zs)).Perm (ys ++ (xs ++ zs)) := by
    intro α xs ys zs
    rw [← List.append_assoc, ← List.append_assoc]
    exact List.perm_append_comm.append_right zs
  exact ⟨hlists _ _ _, hlists _ _ _, hlists _ _ _⟩

/-- **Permuted items contribute the same**, by induction on the permutation. -/
theorem contributions_perm {α : Type} {c? : α → Except Error Contribution} {items items' : List α}
    (hperm : items.Perm items') {c : Contribution} (h : contributions c? items = .ok c) :
    ∃ c', contributions c? items' = .ok c' ∧ c.Perm c' := by
  induction hperm generalizing c with
  | nil => exact ⟨c, h, .refl c⟩
  | @cons item items items' hperm ih =>
      simp only [contributions, bind_eq_ok_iff, pure_eq_ok_iff] at h ⊢
      obtain ⟨a, ha, b, hb, rfl⟩ := h
      obtain ⟨b', hb', hsame⟩ := ih hb
      exact ⟨a ++ b', ⟨a, ha, b', hb', rfl⟩, (Contribution.Perm.refl a).append hsame⟩
  | swap first second items =>
      simp only [contributions, bind_eq_ok_iff, pure_eq_ok_iff] at h ⊢
      obtain ⟨a, ha, -, ⟨b, hb, rest, hrest, rfl⟩, rfl⟩ := h
      exact ⟨b ++ (a ++ rest), ⟨b, hb, a ++ rest, ⟨a, ha, rest, hrest, rfl⟩, rfl⟩,
        Contribution.perm_swap a b rest⟩
  | trans hfirst hsecond ih ih' =>
      obtain ⟨b, hb, hsame⟩ := ih h
      obtain ⟨c', hc', hsame'⟩ := ih' hb
      exact ⟨c', hc', hsame.trans hsame'⟩

variable {env : Environment} {graph graph' : BuildGraph} {c : Contribution}

/-- Descriptions that differ in the order of their edges contribute the same. -/
theorem modelContribution_perm (hsame : graph' = { graph with edges := graph'.edges })
    (hperm : graph.edges.Perm graph'.edges) (h : modelContribution env graph = .ok c) :
    ∃ c', modelContribution env graph' = .ok c' ∧ c.Perm c' := by
  simp only [modelContribution, edgesContribution, bind_eq_ok_iff, pure_eq_ok_iff] at h
  obtain ⟨edges, hedges, rfl⟩ := h
  obtain ⟨edges', hedges', hparts⟩ := contributions_perm hperm hedges
  -- an edge contributes what the options of the whole build make of it, and these are the same
  have hcontribution : ∀ edge, edgeContribution env.toolchain graph' edge =
      edgeContribution env.toolchain graph edge := by
    intro edge
    rw [hsame]
    cases edge <;> rfl
  refine ⟨directoriesContribution env ++ (headContribution graph ++ (edges' ++
    tailContribution env graph)), ?_, ?_⟩
  · have hedges'' : edgesContribution env graph' = .ok edges' := by
      unfold edgesContribution
      rw [funext hcontribution]
      exact hedges'
    unfold modelContribution
    rw [hedges'', hsame]
    rfl
  · exact (Contribution.Perm.refl _).append ((Contribution.Perm.refl _).append
      (hparts.append (.refl _)))

/-- Rules that fit keep fitting in any order. -/
theorem fresh_perm {m : Makefile} {rules rules' : List Rule} (hperm : rules.Perm rules')
    (h : Fresh m rules) : Fresh m rules' := by
  have hclaims : (claimsOf rules).Perm (claimsOf rules') := hperm.flatMap_right Rule.claims
  refine ⟨fun rule hrule => ?_, hclaims.nodup_iff.mp h.nodup, fun text htext => ?_⟩
  · exact h.targets_ne_nil rule (hperm.mem_iff.mpr hrule)
  · exact h.new text (hclaims.mem_iff.mpr htext)

/-- **The models are the same up to order.** -/
theorem modelWith_perm (hfamily : env.family = .cc)
    (hsame : graph' = { graph with edges := graph'.edges })
    (hperm : graph.edges.Perm graph'.edges) {m : Makefile}
    (h : modelWith usualHandlers env graph = .ok m) :
    ∃ m', modelWith usualHandlers env graph' = .ok m' ∧ SameUpToOrder m m' := by
  obtain ⟨c, hc, hfresh, rfl⟩ := modelWith_eq_ok_iff.mp h
  obtain ⟨c', hc', hparts⟩ := modelContribution_perm hsame hperm hc
  refine ⟨extend .empty c', modelWith_eq_ok_iff.mpr ⟨c', hc', fresh_perm hparts.rules hfresh, rfl⟩, ?_⟩
  have hagree : ∀ d ∈ c.declarations, ∀ e ∈ c.declarations, d.Compatible e := fun d hd e he =>
    compatible_of_ccDeclaration (ccDeclaration_of_mem hfamily hc d hd)
      (ccDeclaration_of_mem hfamily hc e he)
  have hdeclared := sameUpToOrder_adoptAll hparts.declarations hagree .empty
  exact ⟨hdeclared.globals, hdeclared.scopes, hdeclared.defines, hparts.rules, hparts.includes⟩

end Permuted

/-! ## The main result -/

/-- **The order of the edges does not matter** to the compiler drivers. Descriptions that differ only in
    it are generated both or neither, and then their models have the same variables with the same values,
    the same recipes, rules and includes, up to the order in which they stand, and the same files
    beside the Makefile. -/
theorem generate_perm {env : Environment} {graph graph' : BuildGraph} (hfamily : env.family = .cc)
    (hsame : graph' = { graph with edges := graph'.edges })
    (hperm : graph.edges.Perm graph'.edges) :
    ((∃ products, generate env graph = .ok products) ↔
        ∃ products, generate env graph' = .ok products) ∧
      ∀ products products', generate env graph = .ok products →
        generate env graph' = .ok products' →
          ∃ m m', modelWith usualHandlers env graph = .ok m ∧
            modelWith usualHandlers env graph' = .ok m' ∧ products.makefile = m.render ∧
            products'.makefile = m'.render ∧ SameUpToOrder m m' ∧
            products.companions = products'.companions := by
  have hback : graph = { graph' with edges := graph.edges } := by rw [hsame]
  have hcompanions : companions graph = companions graph' := by
    rw [hsame]
    rfl
  refine ⟨⟨?_, ?_⟩, ?_⟩
  · rintro ⟨products, hproducts⟩
    obtain ⟨m, hm, -⟩ := generate_eq_ok_iff.mp hproducts
    obtain ⟨m', hm', -⟩ := modelWith_perm hfamily hsame hperm hm
    exact ⟨_, generate_eq_ok_iff.mpr ⟨m', hm', rfl⟩⟩
  · rintro ⟨products, hproducts⟩
    obtain ⟨m', hm', -⟩ := generate_eq_ok_iff.mp hproducts
    obtain ⟨m, hm, -⟩ := modelWith_perm hfamily hback hperm.symm hm'
    exact ⟨_, generate_eq_ok_iff.mpr ⟨m, hm, rfl⟩⟩
  · intro products products' hproducts hproducts'
    obtain ⟨m, hm, rfl⟩ := generate_eq_ok_iff.mp hproducts
    obtain ⟨other, hother, rfl⟩ := generate_eq_ok_iff.mp hproducts'
    obtain ⟨m', hm', hmodels⟩ := modelWith_perm hfamily hsame hperm hm
    obtain rfl := Except.ok.inj (hm'.symm.trans hother)
    exact ⟨m, m', hm, hm', rfl, rfl, hmodels, hcompanions⟩

/-- A program of one object that is described before the object. -/
def programFirstGraph : BuildGraph :=
  { (default : BuildGraph) with
    edges := [.link {
        output := .build "prog"
        mode := .executable
        lang := "c++"
        files := [.build "main.o"] },
      .compile { output := .build "main.o", source := .build "main.c", lang := "c" }] }

/-- The object may as well come first. -/
theorem generate_objectFirst :
    ∃ (products products' : Products) (m m' : Makefile),
      generate default programFirstGraph = .ok products ∧
      generate default { programFirstGraph with edges := programFirstGraph.edges.reverse } =
        .ok products' ∧
      products.makefile = m.render ∧ products'.makefile = m'.render ∧ SameUpToOrder m m' ∧
      products.companions = products'.companions := by
  have haccepted : Accepted default programFirstGraph :=
    ⟨by simp [EdgeAccepted, programFirstGraph], by decide +kernel⟩
  have hperm : programFirstGraph.edges.Perm programFirstGraph.edges.reverse := .swap _ _ _
  obtain ⟨hboth, hmodels⟩ := @generate_perm default programFirstGraph
    { programFirstGraph with edges := programFirstGraph.edges.reverse } rfl rfl hperm
  obtain ⟨products, hproducts⟩ := haccepted.generate_succeeds
  obtain ⟨products', hproducts'⟩ := hboth.mp ⟨products, hproducts⟩
  obtain ⟨m, m', -, -, hrender, hrender', hsame, hcompanions⟩ :=
    hmodels products products' hproducts hproducts'
  exact ⟨products, products', m, m', hproducts, hproducts', hrender, hrender', hsame, hcompanions⟩

end MakeGraph.Generate
