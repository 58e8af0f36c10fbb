import MakeGraph.Environment.Saved
import MakeGraph.Proofs.Json.Written

/-!
# `Proofs.Environment.Saved` — a saved environment loads as itself

Every part of an environment is written in a form that its decoder reads back, whatever text it
holds: paths, names, lists of flags, and the two structures inside. So what `Environment.print`
writes, `Environment.parse` reads as the same environment (`parse_print`), with nothing lost.
-/

namespace MakeGraph

open Json (Decoder Plain Reading)
open Outcome

/-! ## Parts -/

theorem Json.plain_strings (texts : List String) : Plain (.strings texts) :=
  Json.plain_list_map fun text _ => .string text

theorem Json.decode_strings {outer r : Reading} (henter : outer.enter = .ok r)
    (texts : List String) : Decoder.list Decoder.text outer (.strings texts) = .ok texts :=
  Decoder.list_map henter fun _ _ => rfl

theorem Platform.decode_name (r : Reading) (platform : Platform) :
    Platform.decode r (.string platform.name) = .ok platform := by
  cases platform <;> rfl

theorem ToolFamily.decode_name (r : Reading) (family : ToolFamily) :
    ToolFamily.decode r (.string family.name) = .ok family := by
  cases family <;> rfl

/-! ## Structures inside -/

namespace InstallDirs

/-- A directory that may be missing, as a document. -/
def encodeOptional (dir : Option Path) : Json :=
  (dir.map Path.encode).getD .null

theorem decode_encodeOptional (r : Reading) (dir : Option Path) :
    Decoder.optional Path.decode r (encodeOptional dir) = .ok dir := by
  cases dir <;> rfl

theorem plain_encodeOptional (dir : Option Path) : Plain (encodeOptional dir) := by
  cases dir with
  | none => exact .null
  | some dir => exact .string dir.text

theorem plain_encode (dirs : InstallDirs) : Plain dirs.encode := by
  refine .record fun member hmember => ?_
  simp only [List.mem_cons, List.not_mem_nil, or_false] at hmember
  rcases hmember with rfl | rfl | rfl | rfl | rfl | rfl
  · exact .string _
  all_goals exact plain_encodeOptional _

/-- **Installation directories** decode from what they are written as. -/
theorem decode_encode {outer r : Reading} (henter : outer.enter = .ok r) (dirs : InstallDirs) :
    decode outer dirs.encode = .ok dirs := by
  have hwritten : record.fields.Written r
      (dirs.prefixDir, dirs.execPrefix, dirs.bin, dirs.lib, dirs.headers, dirs.data, ())
      [("prefix", dirs.prefixDir.encode), ("exec_prefix", encodeOptional dirs.execPrefix),
        ("bindir", encodeOptional dirs.bin), ("libdir", encodeOptional dirs.lib),
        ("includedir", encodeOptional dirs.headers), ("datadir", encodeOptional dirs.data)] :=
    ⟨_, _, rfl, rfl, _, _, rfl, decode_encodeOptional _ _, _, _, rfl, decode_encodeOptional _ _,
      _, _, rfl, decode_encodeOptional _ _, _, _, rfl, decode_encodeOptional _ _,
      _, _, rfl, decode_encodeOptional _ _, rfl⟩
  exact Json.Record.decode_record hwritten (by decide) henter

end InstallDirs

namespace ToolConfig

theorem plain_encode (tools : ToolConfig) : Plain tools.encode := by
  refine .record fun member hmember => ?_
  simp only [List.mem_cons, List.not_mem_nil, or_false] at hmember
  rcases hmember with rfl | rfl | rfl | rfl | rfl | rfl | rfl | rfl | rfl | rfl | rfl | rfl
  iterate 5 exact .string _
  all_goals exact Json.plain_strings _

/-- **A configuration** decodes from what it is written as. -/
theorem decode_encode {outer r inner : Reading} (henter : outer.enter = .ok r)
    (hinner : r.enter = .ok inner) (tools : ToolConfig) :
    decode outer tools.encode = .ok tools := by
  have hlist := Json.decode_strings hinner
  have hwritten : record.fields.Written r
      (tools.cc, tools.cxx, tools.ar, tools.link, tools.lib, tools.cflags, tools.cxxflags,
        tools.cppflags, tools.ldflags, tools.ldlibs, tools.arflags, tools.libflags, ())
      [("cc", .string tools.cc), ("cxx", .string tools.cxx), ("ar", .string tools.ar),
        ("link", .string tools.link), ("lib", .string tools.lib),
        ("cflags", .strings tools.cflags), ("cxxflags", .strings tools.cxxflags),
        ("cppflags", .strings tools.cppflags), ("ldflags", .strings tools.ldflags),
        ("ldlibs", .strings tools.ldlibs), ("arflags", .strings tools.arflags),
        ("libflags", .strings tools.libflags)] :=
    ⟨_, _, rfl, rfl, _, _, rfl, rfl, _, _, rfl, rfl, _, _, rfl, rfl, _, _, rfl, rfl,
      _, _, rfl, hlist _, _, _, rfl, hlist _, _, _, rfl, hlist _, _, _, rfl, hlist _,
      _, _, rfl, hlist _, _, _, rfl, hlist _, _, _, rfl, hlist _, rfl⟩
  exact Json.Record.decode_record hwritten (by decide) henter

end ToolConfig

/-! ## Environments -/

namespace Environment

theorem plain_encode (env : Environment) : Plain env.encode := by
  refine .record fun member hmember => ?_
  simp only [List.mem_cons, List.not_mem_nil, or_false] at hmember
  rcases hmember with rfl | rfl | rfl | rfl | rfl | rfl | rfl | rfl
  iterate 6 exact .string _
  · exact env.installDirs.plain_encode
  · exact env.tools.plain_encode

/-- An environment decodes from what it is written as, with room for three brackets. -/
theorem decode_encode (env : Environment) (room : Nat) :
    record.decode (.stream (room + 3)) env.encode = .ok env := by
  have hwritten : record.fields.Written (.stream (room + 2))
      (env.srcdir, env.builddir, env.description, env.generator, env.platform, env.family,
        env.installDirs, env.tools, ())
      [("srcdir", env.srcdir.encode), ("builddir", env.builddir.encode),
        ("description", env.description.encode), ("generator", env.generator.encode),
        ("platform", .string env.platform.name), ("toolchain", .string env.family.name),
        ("install_dirs", env.installDirs.encode), ("tools", env.tools.encode)] :=
    ⟨_, _, rfl, rfl, _, _, rfl, rfl, _, _, rfl, rfl, _, _, rfl, rfl,
      _, _, rfl, Platform.decode_name _ _, _, _, rfl, ToolFamily.decode_name _ _,
      _, _, rfl, InstallDirs.decode_encode rfl _, _, _, rfl, ToolConfig.decode_encode rfl rfl _, rfl⟩
  exact Json.Record.decode_record hwritten (by decide) rfl

/-- **A saved environment** reads as itself. -/
theorem parse_print (env : Environment) : parse env.print = .ok env := by
  rw [parse, print, Json.parse_pretty env.plain_encode, Json.Document.decode]
  show record.decode (.stream (124 + 3)) env.encode >>= _ = _
  rw [decode_encode]
  rfl

/-- What a build directory was given is loaded from it. -/
theorem load_print (builddir : Path) (env : Environment) :
    load builddir (.ok env.print) = .ok env := by
  unfold load
  rw [mapError_ok, bind_ok, parse_print, mapError_ok]

end Environment

end MakeGraph
