import MakeGraph.Graph.Decode
import MakeGraph.Graph.Encode
import MakeGraph.Proofs.Environment.Saved
import MakeGraph.Proofs.Json.Faithful
import MakeGraph.Proofs.Version

/-!
# `Proofs.Graph.RoundTrip` — a printed description reads as itself

A description is read from more than one form: paths as strings or objects, structures as objects or
arrays, members in any order or missing, keys that stand twice. It is printed in one form. Whatever form
it was read from, the printed one gives the same description: every decoder is faithful to its encoding,
from the paths up to the whole (`BuildGraph.faithful`). For tests this is an induction on how deep their
drivers may nest.

What can stop a printed description from being read is only its depth, because a path that was read from
a string is printed in brackets. `BuildGraph.parse_print_of_parse` is the main result.
-/

namespace MakeGraph

open Json (Decoder Faithful Fields Gives Plain Restores)
open Outcome

/-! ## Paths -/

theorem Root.decode_encode (r : Json.Reading) (root : Root) : decode r root.encode = .ok root := by
  cases root <;> rfl

theorem Root.faithful : Faithful Root.decode Root.encode :=
  fun root _ => ⟨.string root.name, fun r _ => decode_encode r root⟩

namespace RootedPath

/-- **A path** is read back from its object, whatever it was read from. -/
theorem restores (p : RootedPath) : Restores decode p.encode p := by
  intro r hr
  have hobject : record.decode .loaded p.encode = .ok p := by
    have hwritten : record.fields.Written .loaded (p.root, p.path, ())
        [("root", p.root.encode), ("path", p.path.encode)] :=
      ⟨_, _, rfl, Root.decode_encode _ _, _, _, rfl, rfl, rfl⟩
    exact Json.Record.decode_record hwritten (by decide) rfl
  have hform : ofDocument? p.encode = some p := congrArg Except.toOption hobject
  unfold decode
  rw [hr]
  simp only [encode] at hform ⊢
  rw [hform]
  rfl

theorem faithful : Faithful decode encode := by
  refine fun p _ => ⟨.record fun member hmember => ?_, restores p⟩
  simp only [List.mem_cons, List.not_mem_nil, or_false] at hmember
  rcases hmember with rfl | rfl
  · exact .string _
  · exact .string _

theorem faithful_list : Faithful decodeList (.ofList encode) :=
  faithful.list

end RootedPath

theorem Json.faithful_texts : Faithful Decoder.texts Json.strings :=
  Json.faithful_text.list

/-! ## Shapes that only descriptions have -/

/-- An empty list is given by every decoder of lists. -/
theorem Json.gives_nil {α : Type} (decode : Decoder α) : Gives (Decoder.list decode) [] :=
  ⟨.loaded, .list [], rfl⟩

theorem Json.gives_emptyTable {α : Type} (decode : Decoder α) : Gives (Decoder.table decode) [] :=
  ⟨.loaded, .record [], rfl⟩

theorem Json.gives_false : Gives Decoder.flag false :=
  ⟨.loaded, .bool false, rfl⟩

/-- **A value inside of another type** is read back as it is by itself. -/
theorem Json.Faithful.map {α β : Type} {decode : Decoder α} (f : α → β) {encode : β → Json}
    (h : Faithful decode fun x => encode (f x)) : Faithful (decode.map f) encode := by
  rintro y ⟨r, document, hy⟩
  obtain ⟨x, hx, rfl⟩ := map_eq_ok_iff.mp hy
  obtain ⟨hplain, hrestores⟩ := h x ⟨r, document, hx⟩
  refine ⟨hplain, fun r hr => ?_⟩
  show f <$> decode r (encode (f x)) = .ok (f x)
  rw [hrestores r hr]
  rfl

theorem Json.gives_map {α β : Type} {decode : Decoder α} {f : α → β} {y : β}
    (h : Gives (decode.map f) y) : ∃ x, Gives decode x ∧ f x = y := by
  obtain ⟨r, document, hy⟩ := h
  obtain ⟨x, hx, hfx⟩ := map_eq_ok_iff.mp hy
  exact ⟨x, ⟨r, document, hx⟩, hfx⟩

/-! ## Edges -/

theorem IncludeDir.faithful : Faithful record.decode encode := by
  have hfields : record.fields.Faithful (RootedPath.encode, Json.bool, ()) :=
    ⟨RootedPath.faithful, ⟨Json.faithful_flag, Json.gives_false⟩, trivial⟩
  exact Json.Record.faithful (by decide) (fun _ => rfl) hfields

/-- Options and prerequisites, which are empty when they are not written. -/
theorem faithful_options : Faithful Decoder.texts Json.strings ∧ Gives Decoder.texts [] :=
  ⟨Json.faithful_texts, Json.gives_nil _⟩

theorem faithful_paths :
    Faithful RootedPath.decodeList (.ofList RootedPath.encode) ∧ Gives RootedPath.decodeList [] :=
  ⟨RootedPath.faithful_list, Json.gives_nil _⟩

theorem CompileEdge.faithful :
    Faithful record.decode fun edge => .record (Edge.compile edge).members := by
  have hfields : record.fields.Faithful (RootedPath.encode, RootedPath.encode, Json.string,
      Json.ofList IncludeDir.encode, Json.strings, Json.ofList RootedPath.encode, Json.bool, ()) :=
    ⟨RootedPath.faithful, RootedPath.faithful, Json.faithful_text,
      ⟨IncludeDir.faithful.list, Json.gives_nil _⟩, faithful_options, faithful_paths,
      ⟨Json.faithful_flag, Json.gives_false⟩, trivial⟩
  exact Json.Record.faithful (by decide) (fun _ => rfl) hfields

theorem LinkMode.faithful : Faithful decode fun mode => .string mode.name := by
  refine Json.faithful_oneOf fun mode => ?_
  cases mode <;> rfl

theorem LibraryKind.faithful : Faithful decode fun kind => .string kind.name := by
  refine Json.faithful_oneOf fun kind => ?_
  cases kind <;> rfl

theorem Library.faithful : Faithful record.decode encode := by
  have hfields : record.fields.Faithful
      (fun kind => .string kind.name, RootedPath.encode, Json.bool, ()) :=
    ⟨LibraryKind.faithful, RootedPath.faithful, ⟨Json.faithful_flag, Json.gives_false⟩, trivial⟩
  exact Json.Record.faithful (by decide) (fun _ => rfl) hfields

theorem LinkEdge.faithful : Faithful record.decode fun edge => .record (Edge.link edge).members := by
  have hfields : record.fields.Faithful (RootedPath.encode,
      fun path => (path.map RootedPath.encode).getD .null, fun mode => .string mode.name, Json.string,
      Json.ofList RootedPath.encode, Json.ofList Library.encode, Json.strings,
      Json.ofList RootedPath.encode, ()) :=
    ⟨RootedPath.faithful, ⟨RootedPath.faithful.optional nofun, .loaded, .null, rfl⟩,
      LinkMode.faithful, Json.faithful_text, RootedPath.faithful_list,
      ⟨Library.faithful.list, Json.gives_nil _⟩, faithful_options, faithful_paths, trivial⟩
  exact Json.Record.faithful (by decide) (fun _ => rfl) hfields

theorem AliasEdge.faithful :
    Faithful record.decode fun edge => .record (Edge.group edge).members := by
  have hfields : record.fields.Faithful (RootedPath.encode, Json.ofList RootedPath.encode, ()) :=
    ⟨RootedPath.faithful, faithful_paths, trivial⟩
  exact Json.Record.faithful (by decide) (fun _ => rfl) hfields

/-- **A command** keeps its form: lines are strings, words are arrays. -/
theorem CommandLine.faithful : Faithful decode encode := by
  rintro (text | texts) -
  · refine ⟨.string text, fun r hr => ?_⟩
    unfold decode
    rw [hr]
    rfl
  · refine ⟨Json.plain_strings texts, fun r hr => ?_⟩
    have hwords : Decoder.texts .loaded (.strings texts) = .ok texts := Json.decode_strings rfl texts
    unfold decode
    rw [hr]
    simp only [encode, hwords]
    rfl

theorem CommandEdge.faithful :
    Faithful record.decode fun edge => .record (Edge.command edge).members := by
  have hfields : record.fields.Faithful
      (RootedPath.encode, Json.ofList RootedPath.encode, Json.ofList CommandLine.encode, ()) :=
    ⟨RootedPath.faithful, faithful_paths, CommandLine.faithful.list, trivial⟩
  exact Json.Record.faithful (by decide) (fun _ => rfl) hfields

/-- Edges of one kind are read back with their kind. -/
theorem Edge.faithful_kind {α : Type} {decode : Decoder α} {f : α → Edge} {kind : EdgeKind}
    (h : Faithful decode fun x => .record (f x).members) (hkind : ∀ x, (f x).kind = kind) :
    Faithful (decode.map f) (fun edge => .record edge.members) ∧
      ∀ edge, Gives (decode.map f) edge → edge.kind = kind := by
  refine ⟨Json.Faithful.map f h, fun edge hedge => ?_⟩
  obtain ⟨x, -, rfl⟩ := Json.gives_map hedge
  exact hkind x

theorem EdgeKind.faithful (kind : EdgeKind) :
    Faithful kind.decoder (fun edge => .record edge.members) ∧
      ∀ edge, Gives kind.decoder edge → edge.kind = kind := by
  cases kind with
  | compile => exact Edge.faithful_kind CompileEdge.faithful fun _ => rfl
  | link => exact Edge.faithful_kind LinkEdge.faithful fun _ => rfl
  | group => exact Edge.faithful_kind AliasEdge.faithful fun _ => rfl
  | command => exact Edge.faithful_kind CommandEdge.faithful fun _ => rfl

/-- No member of an edge is called like its kind. -/
theorem Edge.tagKey_not_mem (edge : Edge) : Decoder.tagKey ∉ edge.members.map (·.1) := by
  cases edge with
  | compile edge => exact of_decide_eq_true rfl
  | link edge => exact of_decide_eq_true rfl
  | group edge => exact of_decide_eq_true rfl
  | command edge => exact of_decide_eq_true rfl

theorem Edge.faithful : Faithful decode encode := by
  refine Json.Faithful.tagged (by decide) fun kind hkind => ?_
  obtain ⟨kind, -, rfl⟩ := List.mem_map.mp hkind
  obtain ⟨hfaithful, hsame⟩ := EdgeKind.faithful kind
  exact ⟨hfaithful, fun edge hedge => ⟨congrArg EdgeKind.name (hsame edge hedge),
    edge.tagKey_not_mem⟩⟩

/-! ## Installation -/

theorem InstallKind.faithful : Faithful decode fun kind => .string kind.name := by
  refine Json.faithful_oneOf fun kind => ?_
  cases kind <;> rfl

theorem InstallFile.faithful : Faithful record.decode encode := by
  have hfields : record.fields.Faithful
      (RootedPath.encode, fun kind => .string kind.name, Root.encode, ()) :=
    ⟨RootedPath.faithful, InstallKind.faithful, Root.faithful, trivial⟩
  exact Json.Record.faithful (by decide) (fun _ => rfl) hfields

theorem InstallDirectory.faithful : Faithful record.decode encode := by
  have hfields : record.fields.Faithful (RootedPath.encode, Root.encode, ()) :=
    ⟨RootedPath.faithful, Root.faithful, trivial⟩
  exact Json.Record.faithful (by decide) (fun _ => rfl) hfields

theorem Install.faithful : Faithful record.decode encode := by
  have hfields : record.fields.Faithful
      (Json.ofList InstallFile.encode, Json.ofList InstallDirectory.encode, ()) :=
    ⟨⟨InstallFile.faithful.list, Json.gives_nil _⟩, ⟨InstallDirectory.faithful.list, Json.gives_nil _⟩,
      trivial⟩
  exact Json.Record.faithful (by decide) (fun _ => rfl) hfields

/-! ## Tests -/

theorem faithful_variables :
    Faithful (Decoder.table Decoder.text) (.ofTable .string) ∧ Gives (Decoder.table Decoder.text) [] :=
  ⟨Json.faithful_text.table, Json.gives_emptyTable _⟩

theorem TestProgram.faithful : Faithful record.decode fun program => .record program.members := by
  have hfields : record.fields.Faithful (RootedPath.encode, Json.strings, Json.ofTable .string, ()) :=
    ⟨RootedPath.faithful, faithful_options, faithful_variables, trivial⟩
  exact Json.Record.faithful (by decide) (fun _ => rfl) hfields

namespace TestCase

/-- The kind of a test. -/
def kindName : TestCase → String
  | .test _ => "test"
  | .driver _ _ _ => "driver"

/-- The members of a test, besides its kind. -/
def members : TestCase → List (String × Json)
  | .test program => program.members
  | .driver program generated tests =>
      program.members ++ [("generated", .bool generated), ("tests", .list (tests.map encode))]

theorem encodeAll_eq_map (cases : List TestCase) : encodeAll cases = cases.map encode := by
  induction cases with
  | nil => rfl
  | cons case cases ih => rw [encodeAll, ih, List.map_cons]

theorem encode_eq (case : TestCase) :
    case.encode = .record ((Decoder.tagKey, .string case.kindName) :: case.members) := by
  cases case with
  | test program => rw [encode]; rfl
  | driver program generated tests => rw [encode, encodeAll_eq_map]; rfl

/-- **Tests are read back** however deep their drivers may nest: a driver gives only tests of which each
    is read back one level below. -/
theorem faithful_decodeWithin (depth : Nat) : Faithful (decodeWithin depth) encode := by
  induction depth with
  | zero =>
      rintro case ⟨r, document, h⟩
      cases h
  | succ depth ih =>
      have hdriver : Faithful (driverRecord (Decoder.list (decodeWithin depth))).decode
          fun case => .record case.members := by
        have hfields : (driverRecord (Decoder.list (decodeWithin depth))).fields.Faithful
            (RootedPath.encode, Json.strings, Json.ofTable .string, Json.bool, Json.ofList encode, ()) :=
          ⟨RootedPath.faithful, faithful_options, faithful_variables,
            ⟨Json.faithful_flag, Json.gives_false⟩, ⟨ih.list, Json.gives_nil _⟩, trivial⟩
        exact Json.Record.faithful (of_decide_eq_true rfl) (fun _ => rfl) hfields
      have htagged : Faithful (decodeWithin (depth + 1)) fun case =>
          .record ((Decoder.tagKey, .string case.kindName) :: case.members) := by
        refine Json.Faithful.tagged (of_decide_eq_true rfl) fun kind hkind => ?_
        simp only [List.mem_cons, List.not_mem_nil, or_false] at hkind
        rcases hkind with rfl | rfl
        · refine ⟨Json.Faithful.map test TestProgram.faithful, fun case hcase => ?_⟩
          obtain ⟨program, -, rfl⟩ := Json.gives_map hcase
          exact ⟨rfl, of_decide_eq_true rfl⟩
        · refine ⟨hdriver, fun case hcase => ?_⟩
          obtain ⟨values, -, rfl⟩ := Json.Record.exists_possible hcase
          exact ⟨rfl, of_decide_eq_true rfl⟩
      rwa [← funext encode_eq] at htagged

theorem faithful : Faithful decode encode :=
  faithful_decodeWithin _

end TestCase

theorem Tests.faithful : Faithful record.decode encode := by
  have hfields : record.fields.Faithful (Json.ofList RootedPath.encode, Json.ofList RootedPath.encode,
      Json.ofList TestCase.encode, ()) :=
    ⟨faithful_paths, faithful_paths, ⟨TestCase.faithful.list, Json.gives_nil _⟩, trivial⟩
  refine Json.Record.faithful (by decide) (fun values => ?_) hfields
  rw [encode, TestCase.encodeAll_eq_map]
  rfl

/-! ## The whole description -/

/-- **A version number** is read back from its text. -/
theorem Version.faithful : Faithful decode fun v => .string v.text := by
  rintro v ⟨r, document, h⟩
  have hparse : parse v.text = .ok v := by
    unfold decode at h
    split at h
    · split at h
      · next version hversion =>
          obtain rfl := Except.ok.inj h
          rw [text_of_parse hversion, hversion]
      · cases h
    · exact absurd h (Json.unexpected_ne_ok _ _ _)
  refine ⟨.string v.text, fun r _ => ?_⟩
  unfold decode
  dsimp only
  rw [hparse]

namespace BuildGraph

theorem faithful : Faithful record.decode encode := by
  have hfields : record.fields.Faithful (fun v => .string v.text, Json.ofList RootedPath.encode,
      Json.ofTable Json.strings, Json.strings, Json.ofList Edge.encode, Install.encode, Tests.encode,
      Json.ofList RootedPath.encode, ()) :=
    ⟨Version.faithful, faithful_paths, ⟨Json.faithful_texts.table, Json.gives_emptyTable _⟩,
      faithful_options, ⟨Edge.faithful.list, Json.gives_nil _⟩,
      ⟨Install.faithful, .loaded, .record [], rfl⟩, ⟨Tests.faithful, .loaded, .record [], rfl⟩,
      faithful_paths, trivial⟩
  exact Json.Record.faithful (by decide) (fun _ => rfl) hfields

/-- A description that loads was given by its decoder, and its version is known. -/
theorem gives_of_parse {text : String} {graph : BuildGraph} (h : parse text = .ok graph) :
    Gives record.decode graph ∧ graph.version.major = knownMajor := by
  unfold parse at h
  split at h
  · cases h
  · next found hfound =>
      split at h
      · next hmajor =>
          obtain rfl := Except.ok.inj h
          obtain ⟨value, hvalue, hrest⟩ := bind_eq_ok_iff.mp hfound
          obtain ⟨-, -, heq⟩ := bind_eq_ok_iff.mp hrest
          obtain rfl := pure_eq_ok_iff.mp heq
          exact ⟨⟨_, _, hvalue⟩, hmajor⟩
      · cases h

/-- **A printed description reads as itself**, as long as it does not nest too deep to be read, and
    printing it again gives the same text. -/
theorem parse_print_of_parse {text : String} {graph : BuildGraph} (h : parse text = .ok graph)
    (hnesting : graph.encode.nesting ≤ Json.depthLimit) :
    ∃ again, parse graph.print = .ok again ∧ again = graph ∧ again.print = graph.print := by
  obtain ⟨hgives, hmajor⟩ := gives_of_parse h
  obtain ⟨hplain, hrestores⟩ := faithful graph hgives
  refine ⟨graph, ?_, rfl, rfl⟩
  have hdecode : Json.Document.decode record.decode ⟨graph.encode, false⟩ = .ok graph := by
    have hread := hrestores (.stream Json.depthLimit) (hplain.fits_iff.mpr hnesting)
    show record.decode (.stream Json.depthLimit) graph.encode >>= _ = _
    rw [hread]
    rfl
  rw [parse, print, Json.parse_pretty hplain, hdecode]
  exact if_pos hmajor

/-- A description with a language that stands twice and a test below a driver, both as arrays. -/
def nestedText : String :=
  "\x7b\"mkgen_version\":\"1.2.0-rc.1\",\"global_options\":\x7b\"c\":[],\"a\":[],\"c\":[\"-g\"]\x7d," ++
    "\"tests\":[[],[],[[\"driver\",\"d\",[],\x7b\x7d,false,[[\"test\",\"a//b\"]]]]]\x7d"

theorem parse_print_nestedText : ∃ graph again : BuildGraph,
    parse nestedText = .ok graph ∧ graph.globalOptions.keys = ["c", "a"] ∧
      graph.encode.nesting = 7 ∧ parse graph.print = .ok again ∧ again = graph ∧
      again.print = graph.print := by
  have hread : (parse nestedText).toOption.map
      (fun graph => (graph.globalOptions.keys, graph.encode.nesting)) = some (["c", "a"], 7) := by
    decide +kernel
  obtain ⟨graph, hgraph, hvalues⟩ := Option.map_eq_some_iff.mp hread
  obtain ⟨hkeys, hnesting⟩ := Prod.mk.inj hvalues
  have hparse : parse nestedText = .ok graph := by
    cases hfound : parse nestedText with
    | error cause =>
        rw [hfound] at hgraph
        cases hgraph
    | ok found =>
        rw [hfound] at hgraph
        rw [Option.some.inj hgraph]
  obtain ⟨again, hagain, hsame, hprint⟩ := parse_print_of_parse hparse (by rw [hnesting]; decide)
  exact ⟨graph, again, hparse, hkeys, hnesting, hagain, hsame, hprint⟩

end BuildGraph

end MakeGraph
