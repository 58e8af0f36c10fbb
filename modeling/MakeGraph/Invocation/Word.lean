import MakeGraph.Invocation.Basic

/-!
# `MakeGraph.Invocation.Word` — what an argument looks like

An argument is one of four kinds of `Word`, told apart by its dashes alone. What a switch or an
option is called is the matter of `Switch` and `Setting`; a `Level` says which of them are known
before the command, and which after it.
-/

namespace MakeGraph.Invocation

/-- An argument by its dashes. -/
inductive Word where
  /-- `--`, after which every argument is plain. -/
  | escape
  /-- `--name` or `--name=value`. -/
  | long (name : String) (value : Option String)
  /-- `-abc`: letters, the last of which may take the rest as its value. -/
  | cluster (letters : List Char)
  /-- Anything else, a lone `-` and the empty text too. -/
  | plain (text : String)
deriving DecidableEq, Repr

/-- The name and the value of a long option: the first `=` parts them. -/
def Word.ofLong (cs : List Char) : Word :=
  match cs.dropWhile (· ≠ '=') with
  | [] => .long (String.ofList cs) none
  | _ :: value => .long (String.ofList (cs.takeWhile (· ≠ '='))) (some (String.ofList value))

/-- The word that an argument is. -/
def Word.ofText (text : String) : Word :=
  match text.toList with
  | ['-', '-'] => .escape
  | '-' :: '-' :: cs => ofLong cs
  | '-' :: c :: cs => .cluster (c :: cs)
  | _ => .plain text

/-! ## Names -/

/-- What is asked for without a value. -/
inductive Switch where
  | help
  | version
  | verbose
deriving DecidableEq, Repr

/-- What is set to a value. -/
inductive Setting where
  | builddir
  | srcdir
  | toolchain
  | platform
  | installPrefix
  | execPrefix
  | bin
  | lib
  | headers
  | data
deriving DecidableEq, Repr

/-- The switches. -/
def Switch.all : List Switch :=
  [help, version, verbose]

/-- The long name of a switch. -/
def Switch.name : Switch → String
  | help => "help"
  | version => "version"
  | verbose => "verbose"

/-- The letter of a switch. -/
def Switch.letter : Switch → Char
  | help => 'h'
  | version => 'V'
  | verbose => 'v'

/-- The settings. -/
def Setting.all : List Setting :=
  [builddir, srcdir, toolchain, platform, installPrefix, execPrefix, bin, lib, headers, data]

/-- The long name of a setting. -/
def Setting.name : Setting → String
  | builddir => "builddir"
  | srcdir => "srcdir"
  | toolchain => "toolchain"
  | platform => "platform"
  | installPrefix => "prefix"
  | execPrefix => "exec-prefix"
  | bin => "bindir"
  | lib => "libdir"
  | headers => "includedir"
  | data => "datadir"

/-- The letter of a setting, if it has one. -/
def Setting.letter? : Setting → Option Char
  | builddir => some 'B'
  | _ => none

/-- Whether a setting takes a value: the tools and the platform go by name, all else is a path. -/
def Setting.takes : Setting → String → Bool
  | toolchain, value => (ToolFamily.named? value).isSome
  | platform, value => (Platform.named? value).isSome
  | _, _ => true

/-! ## Levels -/

/-- The part of an argument list before the command, or after it. -/
structure Level where
  /-- The switches that are known there. -/
  switches : List Switch
  /-- The settings that are known there. -/
  settings : List Setting

/-- Before the command. -/
def Level.outer : Level :=
  ⟨Switch.all, []⟩

/-- After a command that makes a Makefile of a description. -/
def Level.request : Level :=
  ⟨[.help, .verbose], Setting.all⟩

/-- After the command that makes a Makefile again. -/
def Level.again : Level :=
  ⟨[.help, .verbose], []⟩

/-- A switch or a setting. -/
inductive Known where
  | switch (s : Switch)
  | setting (s : Setting)
deriving DecidableEq, Repr

/-- What a long name stands for. -/
def Level.named? (level : Level) (name : String) : Option Known :=
  ((level.switches.find? (·.name = name)).map .switch).or
    ((level.settings.find? (·.name = name)).map .setting)

/-- What a letter stands for. -/
def Level.lettered? (level : Level) (letter : Char) : Option Known :=
  ((level.switches.find? (·.letter = letter)).map .switch).or
    ((level.settings.find? (·.letter? = some letter)).map .setting)

example : Word.ofText "--libdir=/a=b" = .long "libdir" (some "/a=b") := by decide
example : Word.ofText "-" = .plain "-" ∧ Word.ofText "--" = .escape := by decide
example : Level.request.lettered? 'B' = some (.setting .builddir) := by decide

end MakeGraph.Invocation
