import MakeGraph.Proofs.Environment.Saved
import MakeGraph.Proofs.Json.Described
import MakeGraph.Proofs.Json.Faithful
import MakeGraph.Proofs.Run.Effects

/-!
# `Proofs.Environment.Loaded` — what environments are loaded from

What is saved is not the only text that an environment is loaded from: the file may have been written by
hand, with its members in another order, without the installation directories or without some of them,
and with members that mean nothing. `Environment.Describes` says which members make an environment, and
`load_iff_describes` that an environment is loaded from an object exactly if the members of the object
describe it.

Whatever text it was loaded from, saving the environment and loading it once more changes nothing, since
what is saved says everything that was loaded (`load_print`). That holds for texts and, with
`load_of_saved`, for the file in a build directory, whichever build directory it is.

## Contents

* `InstallDirs.Chosen`, `InstallDirs.Describes`, `Environment.Describes` — the specification
* `InstallDirs.decode_iff_describes`, `Environment.load_iff_describes` — what is read
* `Environment.load_of_saved` — the file
* `Environment.load_saved` — the main result
-/

namespace MakeGraph

open Json (Decoder Holds MayHold Reading valuesOf)
open Outcome

/-! ## Paths -/

theorem Path.decode_eq_ok_iff {r : Reading} {document : Json} {p : Path} :
    Path.decode r document = .ok p ↔ document = .string p.text := by
  cases document with
  | string text =>
      rw [Json.string.injEq]
      constructor
      · intro h
        rw [← Except.ok.inj h]
      · rintro rfl
        rfl
  | _ =>
      refine iff_of_false (fun h => ?_) nofun
      obtain ⟨text, htext, -⟩ := map_eq_ok_iff.mp h
      cases htext

section Members

variable {r : Reading} {members : List (String × Json)} {name : String}

/-- A path that must be written. -/
theorem holds_path_iff {p : Path} :
    Holds Path.decode r members name p ↔ valuesOf name members = [.string p.text] := by
  simp only [Holds, Path.decode_eq_ok_iff, exists_eq_right]

namespace InstallDirs

/-! ## Installation directories -/

/-- **The values of the member for a directory that may be chosen**: one that was not chosen is left out
    or written as `null`. -/
def Chosen (values : List Json) : Option Path → Prop
  | none => values = [] ∨ values = [.null]
  | some dir => values = [.string dir.text]

theorem decode_optional_iff {document : Json} {dir : Option Path} :
    Decoder.optional Path.decode r document = .ok dir ↔
      document = dir.elim .null fun p => .string p.text := by
  cases document with
  | null => cases dir <;> simp [Decoder.optional]
  | _ =>
      rw [Decoder.optional, map_eq_ok_iff]
      · simp only [Path.decode_eq_ok_iff]
        cases dir <;> simp
      · intro hnull
        cases hnull

theorem mayHold_optional_iff {dir : Option Path} :
    MayHold (Decoder.optional Path.decode) r members name none dir ↔
      Chosen (valuesOf name members) dir := by
  cases dir with
  | none =>
      simp only [MayHold, Holds, Chosen, decode_optional_iff, Option.elim_none, exists_eq_right,
        and_true]
  | some p =>
      simp only [MayHold, Holds, Chosen, decode_optional_iff, Option.elim_some, exists_eq_right,
        reduceCtorEq, and_false, false_or]

/-- **Members describe installation directories**: the first one must be written, and any of the others
    may be left out. -/
structure Describes (members : List (String × Json)) (dirs : InstallDirs) : Prop where
  prefixDir : valuesOf "prefix" members = [.string dirs.prefixDir.text]
  execPrefix : Chosen (valuesOf "exec_prefix" members) dirs.execPrefix
  bin : Chosen (valuesOf "bindir" members) dirs.bin
  lib : Chosen (valuesOf "libdir" members) dirs.lib
  headers : Chosen (valuesOf "includedir" members) dirs.headers
  data : Chosen (valuesOf "datadir" members) dirs.data
  others : ∀ member ∈ members, member.1 ∉ record.fields.names → member.2.skippable = true

/-- **Installation directories are read from an object** exactly if its members describe them. -/
theorem decode_iff_describes {room : Nat} {dirs : InstallDirs} :
    decode (.stream (room + 1)) (.record members) = .ok dirs ↔ Describes members dirs := by
  rw [decode, Json.Record.decode_record_iff (by decide) rfl]
  constructor
  · rintro ⟨⟨prefixDir, execPrefix, bin, lib, headers, data, ⟨⟩⟩, ⟨hfields, hothers⟩, rfl⟩
    obtain ⟨hbase, hexec, hbin, hlib, hheaders, hdata, -⟩ := hfields
    exact ⟨holds_path_iff.mp hbase, mayHold_optional_iff.mp hexec, mayHold_optional_iff.mp hbin,
      mayHold_optional_iff.mp hlib, mayHold_optional_iff.mp hheaders, mayHold_optional_iff.mp hdata,
      fun member hmember hname => (hothers member hmember hname).2⟩
  · intro h
    exact ⟨(dirs.prefixDir, dirs.execPrefix, dirs.bin, dirs.lib, dirs.headers, dirs.data, ()),
      ⟨⟨holds_path_iff.mpr h.prefixDir, mayHold_optional_iff.mpr h.execPrefix,
        mayHold_optional_iff.mpr h.bin, mayHold_optional_iff.mpr h.lib,
        mayHold_optional_iff.mpr h.headers, mayHold_optional_iff.mpr h.data, trivial⟩,
        fun member hmember hname => ⟨rfl, h.others member hmember hname⟩⟩, rfl⟩

end InstallDirs

namespace Environment

/-! ## Environments -/

/-- The reading of the members of a saved environment. -/
def memberReading : Reading := .stream 126

/-- **Members describe an environment**: everything must be written once, except for the installation
    directories, which may be left out for the usual ones. Members that mean nothing may be anything. -/
structure Describes (members : List (String × Json)) (env : Environment) : Prop where
  srcdir : valuesOf "srcdir" members = [.string env.srcdir.text]
  builddir : valuesOf "builddir" members = [.string env.builddir.text]
  description : valuesOf "description" members = [.string env.description.text]
  generator : valuesOf "generator" members = [.string env.generator.text]
  platform : Holds Platform.decode memberReading members "platform" env.platform
  family : Holds ToolFamily.decode memberReading members "toolchain" env.family
  installDirs : MayHold InstallDirs.decode memberReading members "install_dirs" {} env.installDirs
  tools : Holds ToolConfig.decode memberReading members "tools" env.tools
  others : ∀ member ∈ members, member.1 ∉ record.fields.names → member.2.skippable = true

/-- An environment is loaded from a file that can be read and holds one. -/
theorem load_eq_ok_iff {builddir : Path} {contents : Except FileError String} {env : Environment} :
    load builddir contents = .ok env ↔ ∃ text, contents = .ok text ∧ parse text = .ok env := by
  unfold load
  simp only [bind_eq_ok_iff, mapError_eq_ok_iff]

/-- **An environment is loaded from an object** exactly if the members of the object describe it. -/
theorem load_iff_describes {builddir : Path} {text : String} {env : Environment}
    (h : Json.parse text = ⟨.record members, false⟩) :
    load builddir (.ok text) = .ok env ↔ Describes members env := by
  have hparse : parse text = record.decode (.stream Json.depthLimit) (.record members) := by
    rw [parse, h, Json.Document.decode]
    cases record.decode (.stream Json.depthLimit) (.record members) <;> rfl
  have hload : load builddir (.ok text) = .ok env ↔
      record.decode (.stream Json.depthLimit) (.record members) = .ok env := by
    rw [load_eq_ok_iff, ← hparse]
    simp
  rw [hload, Json.Record.decode_record_iff (by decide) rfl]
  constructor
  · rintro ⟨⟨srcdir, builddir, description, generator, platform, family, installDirs, tools, ⟨⟩⟩,
      ⟨hfields, hothers⟩, rfl⟩
    obtain ⟨hsrcdir, hbuilddir, hdescription, hgenerator, hplatform, hfamily, hdirs, htools, -⟩ :=
      hfields
    exact ⟨holds_path_iff.mp hsrcdir, holds_path_iff.mp hbuilddir, holds_path_iff.mp hdescription,
      holds_path_iff.mp hgenerator, hplatform, hfamily, hdirs, htools,
      fun member hmember hname => (hothers member hmember hname).2⟩
  · intro h
    exact ⟨(env.srcdir, env.builddir, env.description, env.generator, env.platform, env.family,
        env.installDirs, env.tools, ()),
      ⟨⟨holds_path_iff.mpr h.srcdir, holds_path_iff.mpr h.builddir, holds_path_iff.mpr h.description,
        holds_path_iff.mpr h.generator, h.platform, h.family, h.installDirs, h.tools, trivial⟩,
        fun member hmember hname => ⟨rfl, h.others member hmember hname⟩⟩, rfl⟩

/-! ## Files -/

/-- An environment is saved by writing its text. -/
theorem perform_save_iff {tree later : FileTree} {env : Environment} :
    (Run.save env).perform tree = (later, none) ↔
      tree.write (savedPath env.builddir) env.print = .ok later := by
  rw [Run.perform_of_written rfl]
  cases tree.write (savedPath env.builddir) env.print with
  | error cause => simp
  | ok written => simp

/-- **What was saved is loaded**, and saving it once more changes nothing. -/
theorem load_of_saved {tree later : FileTree} {env : Environment}
    (h : (Run.save env).perform tree = (later, none)) :
    load env.builddir (later.read (savedPath env.builddir)) = .ok env ∧
      (Run.save env).perform later = (later, none) := by
  rw [perform_save_iff] at h ⊢
  refine ⟨?_, FileTree.write_of_write h⟩
  rw [FileTree.read_eq_ok_iff.mpr (FileTree.lookUp_of_write h), load_print]

/-- **What was loaded is loaded again** once it has been saved, from where it was loaded and from where
    it was saved. -/
theorem load_of_loaded {tree later : FileTree} {dir : Path} {env : Environment}
    (hload : load dir (tree.read (savedPath dir)) = .ok env)
    (hsave : (Run.save env).perform tree = (later, none)) :
    load dir (later.read (savedPath dir)) = .ok env := by
  obtain ⟨text, htext, hparse⟩ := load_eq_ok_iff.mp hload
  rcases FileTree.read_of_write (perform_save_iff.mp hsave) htext with hnew | hold
  · rw [hnew, load_print]
  · exact load_eq_ok_iff.mpr ⟨text, hold, hparse⟩

/-! ## The main result -/

/-- **Environments are saved without loss.** What is saved is loaded as the same environment, as a text
    and as a file, and saving that is writing the same text to the same file, which changes nothing.
    Whatever an environment was loaded from, saving it and loading it once more gives the same
    environment. An object is such a text exactly if its members describe an environment: the
    installation directories may be left out for the usual ones, and so may each of them but the
    prefix. -/
theorem load_saved :
    (∀ (env : Environment) (builddir : Path), ∃ again,
      load builddir (.ok env.print) = .ok again ∧ again = env ∧ again.print = env.print) ∧
    (∀ (env : Environment) (tree later : FileTree), (Run.save env).perform tree = (later, none) →
      ∃ again, load env.builddir (later.read (savedPath env.builddir)) = .ok again ∧ again = env ∧
        Run.save again = Run.save env ∧ (Run.save again).perform later = (later, none)) ∧
    (∀ (builddir other : Path) (text : String) (env : Environment),
      load builddir (.ok text) = .ok env → load other (.ok env.print) = .ok env) ∧
    (∀ (dir : Path) (tree later : FileTree) (env : Environment),
      load dir (tree.read (savedPath dir)) = .ok env → (Run.save env).perform tree = (later, none) →
      load dir (later.read (savedPath dir)) = .ok env ∧
        load env.builddir (later.read (savedPath env.builddir)) = .ok env) ∧
    (∀ (builddir : Path) (text : String) (members : List (String × Json)) (env : Environment),
      Json.parse text = ⟨.record members, false⟩ →
      (load builddir (.ok text) = .ok env ↔ Describes members env)) ∧
    ∀ (members : List (String × Json)) (dirs : InstallDirs),
      InstallDirs.decode memberReading (.record members) = .ok dirs ↔
        InstallDirs.Describes members dirs := by
  refine ⟨fun env builddir => ⟨env, load_print builddir env, rfl, rfl⟩, ?_, ?_, ?_, ?_, ?_⟩
  · intro env tree later hsave
    obtain ⟨hload, hagain⟩ := load_of_saved hsave
    exact ⟨env, hload, rfl, rfl, hagain⟩
  · exact fun _ other _ env _ => load_print other env
  · exact fun dir tree later env hload hsave =>
      ⟨load_of_loaded hload hsave, (load_of_saved hsave).1⟩
  · exact fun builddir text members env hparse => load_iff_describes hparse
  · exact fun members dirs => InstallDirs.decode_iff_describes

/-- The members of a short file: out of order, without installation directories, and with a note. -/
def briefMembers : List (String × Json) :=
  [("tools", (default : ToolConfig).encode), ("note", .strings ["by hand"]),
    ("toolchain", .record [("msvc", .null)]), ("platform", .string "windows"),
    ("generator", .string "mkgen"), ("description", .string "/s/say \"hi\".json"),
    ("builddir", .string "/b"), ("srcdir", .string "/s")]

/-- The environment of the short file. -/
def briefEnvironment : Environment where
  srcdir := ⟨"/s"⟩
  builddir := ⟨"/b"⟩
  description := ⟨"/s/say \"hi\".json"⟩
  generator := ⟨"mkgen"⟩
  platform := .windows
  family := .msvc
  tools := default

theorem describes_briefMembers : Describes briefMembers briefEnvironment where
  srcdir := rfl
  builddir := rfl
  description := rfl
  generator := rfl
  platform := ⟨_, rfl, rfl⟩
  family := ⟨_, rfl, rfl⟩
  installDirs := .inl ⟨rfl, rfl⟩
  tools := ⟨_, rfl, ToolConfig.decode_encode rfl rfl _⟩
  others := by decide

/-- A build directory with the short file. -/
def briefTree : FileTree :=
  ⟨[(["b"], .directory), (["b", fileName], .file (Json.record briefMembers).pretty)]⟩

/-- The short file is loaded with the usual installation directories, and loaded again from what is
    written over it. -/
theorem load_briefMembers :
    load ⟨"/b"⟩ (.ok (Json.record briefMembers).pretty) = .ok briefEnvironment ∧
      load ⟨"/c"⟩ (.ok briefEnvironment.print) = .ok briefEnvironment ∧
      ∃ later, (Run.save briefEnvironment).perform briefTree = (later, none) ∧
        load ⟨"/b"⟩ (later.read (savedPath ⟨"/b"⟩)) = .ok briefEnvironment := by
  obtain ⟨-, -, htexts, hfiles, hobjects, -⟩ := load_saved
  have hplain : Json.Plain (.record briefMembers) := by
    refine .record fun member hmember => ?_
    simp only [briefMembers, List.mem_cons, List.not_mem_nil, or_false] at hmember
    rcases hmember with rfl | rfl | rfl | rfl | rfl | rfl | rfl | rfl
    · exact ToolConfig.plain_encode _
    · exact Json.plain_strings _
    · exact .record fun member hmember => by
        rw [List.mem_singleton.mp hmember]
        exact .null
    all_goals exact .string _
  have hload : load ⟨"/b"⟩ (.ok (Json.record briefMembers).pretty) = .ok briefEnvironment :=
    (hobjects _ _ _ _ (Json.parse_pretty hplain)).mpr describes_briefMembers
  have hread : briefTree.read (savedPath ⟨"/b"⟩) = .ok (Json.record briefMembers).pretty := by
    rfl
  have hwritable : briefTree.Writable (savedPath ⟨"/b"⟩) :=
    ⟨⟨["b", fileName], rfl⟩, by decide +kernel, by
      rw [FileTree.read_eq_ok_iff.mp hread]
      exact nofun⟩
  obtain ⟨later, hwrite⟩ := hwritable.exists_write briefEnvironment.print
  have hsave : (Run.save briefEnvironment).perform briefTree = (later, none) :=
    perform_save_iff.mpr hwrite
  refine ⟨hload, htexts _ _ _ _ hload, later, hsave, ?_⟩
  exact (hfiles ⟨"/b"⟩ briefTree later briefEnvironment (by rw [hread, hload]) hsave).1

end Environment

end Members

end MakeGraph
