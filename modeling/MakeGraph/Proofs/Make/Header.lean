import MakeGraph.Proofs.Make.HeaderDeps

/-!
# `Proofs.Make.Header` — how make reads the header of a rule back

Two things in a header are not guarded by the writer. A colon in a target ends the targets, and the
backslash at the end of a name quotes what the line goes on with. `readHeader_renderHeader_iff` says that
these are the only reasons for which a header is not read as the names that it was written for. It puts
the two sides of the colon together (`readable_of_scanTargets`, `splitBar_scanDeps_iff`).

## Contents

* `toList_renderHeader` — the text of a header
* `readHeader_first` — one target and its first prerequisite
* `readHeader_renderHeader_iff` — the main result
-/

namespace MakeGraph.Make

/-! ## The whole header -/

/-- The header of a rule before its dollars are doubled. -/
def headerChars (ts ds os : List (List Char)) : List Char :=
  joinTargets ts ++ ':' :: (joinDeps ds ++ barDeps os)

theorem escapeChars_target (cs : List Char) :
    escapeChars .target cs = doubleDollars (targetChars cs) :=
  guardSpecials_doubleDollars (by decide) cs

theorem escapeChars_dependency (cs : List Char) :
    escapeChars .dependency cs = doubleDollars (depChars cs) :=
  guardSpecials_doubleDollars (by decide) cs

/-- The characters of plain names in a list. -/
theorem toList_separated (context : Context) (opening : String) {texts : List String}
    (h : texts ≠ []) :
    (separated context " " opening "" (Piece.plainTexts texts)).toList =
      opening.toList ++
        List.intercalate [' '] (texts.map fun text => escapeChars context text.toList) := by
  have hrender : (Piece.plainTexts texts).map (Piece.render context) =
      texts.map (escape context) := by
    rw [Piece.plainTexts, List.map_map]
    exact List.map_congr_left fun text _ => Piece.render_plain context text
  have hseparated : separated context " " opening "" (Piece.plainTexts texts) =
      opening ++ String.intercalate " " (texts.map (escape context)) ++ "" := by
    rw [← hrender]
    obtain ⟨text, texts, rfl⟩ := List.exists_cons_of_ne_nil h
    rfl
  rw [hseparated, String.toList_append, String.toList_append, String.toList_intercalate,
    List.map_map]
  show _ ++ _ ++ [] = _
  rw [List.append_nil]
  congr 3
  funext text
  exact String.toList_ofList

theorem toList_separated_deps (opening : String) {ds : List String} (h : ds ≠ []) :
    (separated .dependency " " (opening ++ " ") "" (Piece.plainTexts ds)).toList =
      opening.toList ++ doubleDollars (joinDeps (ds.map String.toList)) := by
  have hjoin : joinDeps (ds.map String.toList) =
      ' ' :: List.intercalate [' '] (ds.map fun d => depChars d.toList) := by
    rw [cons_intercalate (by simpa using h), joinDeps, List.flatMap_map, List.flatMap_map]
  rw [toList_separated _ _ h, hjoin, String.toList_append, List.append_assoc]
  congr 1
  show ' ' :: List.intercalate [' '] _ = ' ' :: doubleDollars (List.intercalate [' '] _)
  rw [doubleDollars_intercalate, List.map_map]
  simp only [escapeChars_dependency]
  rfl

/-- **The header of a rule** with plain names. -/
theorem toList_renderHeader {rule : Rule} {ts ds os : List String} (hne : ts ≠ [])
    (hts : rule.targets = Piece.plainTexts ts) (hds : rule.deps = Piece.plainTexts ds)
    (hos : rule.orderOnly = Piece.plainTexts os) :
    rule.renderHeader.toList =
      doubleDollars (headerChars (ts.map String.toList) (ds.map String.toList)
        (os.map String.toList)) := by
  have htargets : (separated .target " " "" "" rule.targets).toList =
      doubleDollars (joinTargets (ts.map String.toList)) := by
    rw [hts, toList_separated _ _ hne, joinTargets, doubleDollars_intercalate, List.map_map,
      List.map_map]
    simp only [escapeChars_target]
    rfl
  have hdeps : (separated .dependency " " " " "" rule.deps).toList =
      doubleDollars (joinDeps (ds.map String.toList)) := by
    rw [hds]
    by_cases h : ds = []
    · rw [h]
      rfl
    · exact toList_separated_deps "" h
  have horderOnly : (separated .dependency " " " | " "" rule.orderOnly).toList =
      doubleDollars (barDeps (os.map String.toList)) := by
    rw [hos, barDeps]
    by_cases h : os = []
    · rw [h]
      rfl
    · rw [if_neg (by simpa using h)]
      exact toList_separated_deps " |" h
  have hcolon : doubleDollars (':' :: (joinDeps (ds.map String.toList) ++
      barDeps (os.map String.toList))) = ':' :: (doubleDollars (joinDeps (ds.map String.toList)) ++
        doubleDollars (barDeps (os.map String.toList))) := by
    rw [← doubleDollars_append]
    rfl
  rw [Rule.renderHeader, String.toList_append, String.toList_append, String.toList_append, htargets,
    hdeps, horderOnly, headerChars, doubleDollars_append, hcolon, List.append_assoc,
    List.append_assoc]
  rfl

/-! ## One target and its first prerequisite

In a recipe these two names are `$@` and `$<`. They are read as they are whatever prerequisites follow,
also prerequisites that are no plain names. -/

section FirstNames

theorem BlankLed.append {a b : List Char} (ha : BlankLed a) (hb : BlankLed b) :
    BlankLed (a ++ b) := by
  rcases ha with rfl | ⟨more, rfl⟩
  · exact hb
  · exact .inr ⟨more ++ b, rfl⟩

theorem blankLed_flatMap {α : Type} (text : α → List Char) (items : List α) :
    BlankLed (items.flatMap fun item => ' ' :: text item) := by
  cases items with
  | nil => exact .inl rfl
  | cons item items => exact .inr ⟨_, List.cons_append⟩

/-- Order-only prerequisites begin with a blank. -/
theorem blankLed_orderOnly (pieces : List Piece) :
    BlankLed (separated .dependency " " " | " "" pieces).toList := by
  cases pieces with
  | nil => exact .inl rfl
  | cons piece pieces =>
      rw [toList_separated_cons]
      exact .inr ⟨_, rfl⟩

/-- Neither the end of the line nor the expansion takes the blank away. -/
theorem BlankLed.expand (value : String → List Char) {rest : List Char} (h : BlankLed rest) :
    BlankLed (expand value (rest.takeWhile (· ≠ '\n'))) := by
  rcases h with rfl | ⟨more, rfl⟩
  · exact .inl rfl
  · rw [List.takeWhile_cons_of_pos (by decide), expand_cons value (by decide)]
    exact .inr ⟨_, rfl⟩

/-- **The first prerequisite of a line** is read as it is. -/
theorem readLine_first {t d rest : List Char} (ht : t ≠ []) (hread : TargetReadable t)
    (hd : d ≠ []) (heven : openBackslashes d % 2 = 0) (hrest : BlankLed rest) :
    ∃ header, readLine (targetChars t ++ ':' :: ' ' :: (depChars d ++ rest)) = some header ∧
      header.targets = [String.ofList t] ∧ header.deps.head? = some (String.ofList d) := by
  have htarget : wordOf (targetChars t) = [targetChars t] := wordOf_of_ne_nil (guardSpecials_ne_nil ht)
  have hdeps : (splitBar (scanDeps (' ' :: (depChars d ++ rest)))).1 =
      depChars d :: (splitBar (scanDeps rest)).1 := by
    rw [scanDeps_dep hd hrest (.inr heven), splitBar, if_neg (depChars_ne_bar d)]
  unfold readLine
  simp only [scanTargets_colon hread.1 hread.2, Option.some.injEq, exists_eq_left']
  constructor
  · rw [htarget, List.map_singleton, readName, readTarget_target hread.1]
  · rw [hdeps, List.map_cons, List.head?_cons]
    exact congrArg (some ∘ String.ofList) (readDep_depChars d)

/-- **The first names of a header** are read as the names that they were written for. -/
theorem readHeader_first (value : String → List Char) {rule : Rule} {target dep : Piece}
    {deps : List Piece} {t d : String}
    (htargets : rule.targets = [target]) (hdeps : rule.deps = dep :: deps)
    (ht : target.render .target = escape .target t)
    (hd : dep.render .dependency = escape .dependency d)
    (hnames : ∀ name ∈ [t, d], name ≠ "" ∧ '\n' ∉ name.toList)
    (hread : TargetReadable t.toList) (heven : openBackslashes d.toList % 2 = 0) :
    ∃ header, readHeader value rule.renderHeader = some header ∧
      header.targets = [t] ∧ header.deps.head? = some d := by
  obtain ⟨⟨htne, htline⟩, hdname⟩ := List.forall_mem_cons.mp hnames
  obtain ⟨hdne, hdline⟩ := List.forall_mem_singleton.mp hdname
  have hchars : ∀ {special : Char → Bool} {name : String}, '\n' ∉ name.toList →
      ∀ c ∈ doubleDollars (guardSpecials special name.toList), decide (c ≠ '\n') = true := by
    intro special name hname c hc
    refine decide_eq_true fun heq => ?_
    rcases mem_guardSpecials (mem_doubleDollars.mp hc) with hback | hmem
    · exact absurd (heq.symm.trans hback) (by decide)
    · exact hname (heq ▸ hmem)
  -- what follows the two names is a text of which only the first blank matters
  have htext : ∃ rest, BlankLed rest ∧ rule.renderHeader.toList =
      doubleDollars (targetChars t.toList) ++
        ':' :: ' ' :: (doubleDollars (depChars d.toList) ++ rest) := by
    refine ⟨_, (blankLed_flatMap (fun next => (next.render .dependency).toList) deps).append
      (blankLed_orderOnly rule.orderOnly), ?_⟩
    have htarget : (separated .target " " "" "" rule.targets).toList =
        doubleDollars (targetChars t.toList) := by
      have hescape : (escape .target t).toList = doubleDollars (targetChars t.toList) :=
        String.toList_ofList.trans (escapeChars_target t.toList)
      rw [htargets, toList_separated_cons, ht, hescape]
      exact List.append_nil _
    have hdep : (separated .dependency " " " " "" rule.deps).toList =
        ' ' :: (doubleDollars (depChars d.toList) ++
          deps.flatMap fun next => ' ' :: (next.render .dependency).toList) := by
      have hescape : (escape .dependency d).toList = doubleDollars (depChars d.toList) :=
        String.toList_ofList.trans (escapeChars_dependency d.toList)
      rw [hdeps, toList_separated_cons, hd, hescape]
      rfl
    rw [Rule.renderHeader, String.toList_append, String.toList_append, String.toList_append,
      htarget, hdep]
    simp
  obtain ⟨rest, hrest, htext⟩ := htext
  have hline : expand value (rule.renderHeader.toList.takeWhile (· ≠ '\n')) =
      targetChars t.toList ++ ':' :: ' ' ::
        (depChars d.toList ++ expand value (rest.takeWhile (· ≠ '\n'))) := by
    rw [htext, List.takeWhile_append_of_pos (hchars htline), List.takeWhile_cons_of_pos (by decide),
      List.takeWhile_cons_of_pos (by decide), List.takeWhile_append_of_pos (hchars hdline),
      expand_doubleDollars_append, expand_cons value (by decide), expand_cons value (by decide),
      expand_doubleDollars_append]
  have hne : ∀ {name : String}, name ≠ "" → name.toList ≠ [] :=
    fun h hnil => h (String.toList_eq_nil_iff.mp hnil)
  obtain ⟨header, hheader, htarget, hdep⟩ :=
    readLine_first (hne htne) hread (hne hdne) heven (hrest.expand value)
  rw [String.ofList_toList] at htarget hdep
  exact ⟨header, by rw [readHeader, hline, hheader], htarget, hdep⟩

end FirstNames

/-! ## The main result -/

/-- A header of names without line breaks is one line. -/
theorem newline_not_mem_headerChars {ts ds os : List (List Char)} (hts : ts ≠ [])
    (h : ∀ name ∈ ts ++ ds ++ os, '\n' ∉ name) : '\n' ∉ headerChars ts ds os := by
  have hguard : ∀ (special : Char → Bool) (names : List (List Char)), (∀ name ∈ names, '\n' ∉ name) →
      '\n' ∉ names.flatMap fun name => ' ' :: guardSpecials special name := by
    intro special names hnames hmem
    obtain ⟨name, hname, hin⟩ := List.mem_flatMap.mp hmem
    rcases List.mem_cons.mp hin with hblank | hin
    · revert hblank
      decide
    · rcases mem_guardSpecials hin with hback | hin
      · revert hback
        decide
      · exact hnames name hname hin
  rw [List.forall_mem_append, List.forall_mem_append] at h
  obtain ⟨⟨hts', hds'⟩, hos'⟩ := h
  have htargets : '\n' ∉ joinTargets ts := by
    intro hmem
    have hin := List.mem_cons_of_mem ' ' hmem
    rw [joinTargets, cons_intercalate (by simpa using hts), List.flatMap_map] at hin
    exact hguard _ ts hts' hin
  have hbar : '\n' ∉ barDeps os := by
    unfold barDeps
    split
    · exact List.not_mem_nil
    · intro hmem
      simp only [List.mem_cons] at hmem
      rcases hmem with hmem | hmem | hmem
      · revert hmem
        decide
      · revert hmem
        decide
      · exact hguard _ os hos' hmem
  unfold headerChars
  simp only [List.mem_append, List.mem_cons, not_or]
  exact ⟨htargets, by decide, hguard _ ds hds', hbar⟩

theorem map_readName_iff {quotable : Char → Bool} {words : List (List Char)} {names : List String} :
    words.map (readName quotable) = names ↔
      words.map (unguard quotable 0) = names.map String.toList := by
  constructor
  · rintro rfl
    rw [List.map_map]
    exact List.map_congr_left fun word _ => String.toList_ofList.symm
  · intro h
    have hofList : names = (names.map String.toList).map String.ofList := by
      rw [List.map_map]
      exact ((List.map_congr_left fun name _ => String.ofList_toList).trans (List.map_id _)).symm
    rw [hofList, ← h, List.map_map]
    rfl

/-- A line is read as the names of its targets and prerequisites exactly when both sides of the colon
    are. -/
theorem readLine_headerChars_iff {ts ds os : List String} (hne : ts ≠ [])
    (hnames : ∀ name ∈ ts ++ ds ++ os, name ≠ "") :
    readLine (headerChars (ts.map String.toList) (ds.map String.toList) (os.map String.toList)) =
        some ⟨ts, ds, os⟩ ↔
      (∀ t ∈ ts, TargetReadable t.toList) ∧
        ∀ d ∈ (ds ++ os).dropLast, openBackslashes d.toList % 2 = 0 := by
  have hchars : ∀ {names : List String}, (∀ name ∈ names, name ≠ "") →
      ∀ name ∈ names.map String.toList, name ≠ [] := by
    intro names h
    rw [List.forall_mem_map]
    exact fun name hname hnil => h name hname (String.toList_eq_nil_iff.mp hnil)
  rw [List.forall_mem_append, List.forall_mem_append] at hnames
  obtain ⟨⟨hts, hds⟩, hos⟩ := hnames
  have hdeps := (splitBar_scanDeps_iff (hchars hds) (hchars hos)).trans parted_iff
  rw [← List.map_append, ← List.map_dropLast, List.forall_mem_map] at hdeps
  rw [← hdeps, ← List.forall_mem_map (P := TargetReadable)]
  unfold readLine headerChars
  generalize joinDeps (ds.map String.toList) ++ barDeps (os.map String.toList) = rest
  have hjoin : ts.map String.toList ≠ [] := by simpa using hne
  constructor
  · intro h
    rcases hscan : scanTargets (joinTargets (ts.map String.toList) ++ ':' :: rest)
      with ⟨words, _ | behind⟩
    · simp only [hscan] at h
      cases h
    · simp only [hscan, Option.some.injEq, Header.mk.injEq, map_readName_iff] at h
      obtain ⟨htargets, hboth⟩ := h
      have hmap : (scanTargets (joinTargets (ts.map String.toList) ++ ':' :: rest)).1.map
          (unguard quotableInTargets 0) = ts.map String.toList := by
        rw [hscan]
        exact htargets
      -- only now is it known that the line is cut at the colon that was written
      have hread := readable_of_scanTargets (hchars hts) hmap
      rw [scanTargets_of_readable hjoin (hchars hts) hread] at hscan
      obtain rfl := Option.some.inj (Prod.mk.inj hscan).2
      exact ⟨hread, hboth⟩
  · rintro ⟨hread, hboth⟩
    simp only [scanTargets_of_readable hjoin (hchars hts) hread, Option.some.injEq,
      Header.mk.injEq, map_readName_iff]
    refine ⟨?_, hboth⟩
    rw [List.map_map]
    refine (List.map_congr_left fun t ht => ?_).trans (List.map_id _)
    exact readTarget_target (hread t ht).1

/-- **A header is read as the names that it was written for** exactly when no target has a colon, no
    target ends with an odd number of backslashes, and no prerequisite but the last of the line
    does. -/
theorem readHeader_renderHeader_iff {rule : Rule} {ts ds os : List String}
    (value : String → List Char)
    (hts : rule.targets = Piece.plainTexts ts) (hds : rule.deps = Piece.plainTexts ds)
    (hos : rule.orderOnly = Piece.plainTexts os) (hne : ts ≠ [])
    (hnames : ∀ name ∈ ts ++ ds ++ os, name ≠ "" ∧ '\n' ∉ name.toList) :
    readHeader value rule.renderHeader = some ⟨ts, ds, os⟩ ↔
      (∀ t ∈ ts, ':' ∉ t.toList ∧ openBackslashes t.toList % 2 = 0) ∧
        ∀ d ∈ (ds ++ os).dropLast, openBackslashes d.toList % 2 = 0 := by
  have hnewline : '\n' ∉ headerChars (ts.map String.toList) (ds.map String.toList)
      (os.map String.toList) := by
    refine newline_not_mem_headerChars (by simpa using hne) ?_
    rw [← List.map_append, ← List.map_append, List.forall_mem_map]
    exact fun name hname => (hnames name hname).2
  have hline : ∀ c ∈ rule.renderHeader.toList, decide (c ≠ '\n') = true := by
    rw [toList_renderHeader hne hts hds hos]
    intro c hc
    exact decide_eq_true fun heq => hnewline (heq ▸ mem_doubleDollars.mp hc)
  rw [readHeader, List.takeWhile_eq_self_iff.mpr hline, toList_renderHeader hne hts hds hos,
    expand_doubleDollars]
  exact readLine_headerChars_iff hne fun name hname => (hnames name hname).1

/-- Blanks, bars and a backslash at the very end of a header are read as they were written. -/
theorem readHeader_guarded :
    readHeader (fun _ => []) (Rule.renderHeader {
      targets := Piece.plainTexts ["a b", "$c#"]
      deps := Piece.plainTexts ["d|e"]
      orderOnly := Piece.plainTexts ["|", "f\\"] }) =
        some ⟨["a b", "$c#"], ["d|e"], ["|", "f\\"]⟩ :=
  (readHeader_renderHeader_iff _ rfl rfl rfl (by decide) (by decide)).mpr (by decide)

/-- A colon ends the targets inside of a name. -/
theorem readHeader_colon :
    readHeader (fun _ => []) (Rule.renderHeader { targets := Piece.plainTexts ["a:b"] }) ≠
      some ⟨["a:b"], [], []⟩ := by
  decide

end MakeGraph.Make
