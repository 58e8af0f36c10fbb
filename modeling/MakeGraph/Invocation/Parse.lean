import MakeGraph.Invocation.Word
import MakeGraph.Table

/-!
# `MakeGraph.Invocation.Parse` — reading an argument list

`Invocation.parse` reads the arguments from left to right and stops at the first that is wrong. An
option that waits for its value gets the next plain argument; it is checked (`Progress.settle`) when
the next known switch, option or operand comes, or at the end. So an argument that nobody knows is
reported before a bad value in front of it.
-/

namespace MakeGraph.Invocation

/-- What was read so far at a level. -/
structure Progress where
  /-- Whether diagnostics were asked for. -/
  verbose : Bool := false
  /-- The option that was read last and not checked yet, with its value if it has one. -/
  unsettled : Option (Setting × Option String) := none
  /-- The options that were checked. -/
  values : Table Setting String := []
  /-- The argument that is no option. -/
  operand : Option String := none
deriving DecidableEq, Repr

namespace Progress

/-! ## Options -/

/-- Records an option: it needs a value, must be new, and must take the value. -/
def record (p : Progress) (setting : Setting) : Option String → Except Stop Progress
  | none => .error .valueInvalid
  | some value =>
      if p.values.contains setting then .error .repeated
      else if setting.takes value then .ok { p with values := p.values.insert setting value }
      else .error .valueInvalid

/-- Checks the option that was read last. -/
def settle (p : Progress) : Except Stop Progress :=
  match p.unsettled with
  | none => .ok p
  | some (setting, value) => { p with unsettled := none }.record setting value

/-- Reads a switch. -/
def switch (p : Progress) (s : Switch) : Except Stop Progress := do
  let p ← p.settle
  match s with
  | .help => .error .help
  | .version => .error .version
  | .verbose => if p.verbose then .error .repeated else .ok { p with verbose := true }

/-- Reads an option, with the value that is attached to it if there is one. -/
def option (p : Progress) (setting : Setting) (value : Option String) : Except Stop Progress := do
  let p ← p.settle
  match value with
  | none => .ok { p with unsettled := some (setting, none) }
  | some value => p.record setting (some value)

/-- Reads `--name` or `--name=value`. -/
def long (p : Progress) (level : Level) (name : String) (value : Option String) :
    Except Stop Progress :=
  match level.named? name, value with
  | none, _ => .error .argumentUnknown
  | some (.switch _), some _ => .error .valueRefused
  | some (.switch s), none => p.switch s
  | some (.setting s), value => p.option s value

/-- The value that follows a letter in a cluster: what is left, without a `=` in front. -/
def attached : List Char → Option String
  | [] => none
  | '=' :: cs => some (String.ofList cs)
  | cs => some (String.ofList cs)

/-- Reads the letters of a cluster. -/
def cluster (level : Level) : Progress → List Char → Except Stop Progress
  | p, [] => .ok p
  | p, c :: cs =>
      match level.lettered? c with
      | none => .error .argumentUnknown
      | some (.switch s) => do cluster level (← p.switch s) cs
      | some (.setting s) => p.option s (attached cs)

/-! ## Operands -/

/-- Reads an argument that stands for itself; there is room for one. -/
def take (p : Progress) (text : String) : Except Stop Progress :=
  if p.operand.isSome then .error .argumentUnknown
  else do return { (← p.settle) with operand := some text }

/-- Reads a plain argument: the value of an option that waits for one, else an operand. -/
def plain (p : Progress) (text : String) : Except Stop Progress :=
  match p.unsettled with
  | some (setting, none) => .ok { p with unsettled := some (setting, some text) }
  | _ => p.take text

/-- Reads the arguments after the command. -/
def read (level : Level) : Progress → List String → Except Stop Progress
  | p, [] => p.settle
  | p, argument :: rest =>
      match Word.ofText argument with
      | .escape => do (← rest.foldlM take p).settle
      | .long name value => do read level (← p.long level name value) rest
      | .cluster letters => do read level (← cluster level p letters) rest
      | .plain text => do read level (← p.plain text) rest

/-! ## Requests -/

/-- The path that a setting was given. -/
def path? (p : Progress) (setting : Setting) : Option Path :=
  (p.values.find? setting).map Path.mk

/-- The request that the arguments after a command make. -/
def request (p : Progress) : Except Stop Request :=
  match p.operand with
  | none => .error .descriptionMissing
  | some description => .ok {
      description := ⟨description⟩
      builddir := (p.path? .builddir).getD ⟨"build"⟩
      srcdir := p.path? .srcdir
      family := (p.values.find? .toolchain).bind ToolFamily.named?
      platform := (p.values.find? .platform).bind Platform.named?
      installDirs := {
        prefixDir := (p.path? .installPrefix).getD ({} : InstallDirs).prefixDir
        execPrefix := p.path? .execPrefix
        bin := p.path? .bin
        lib := p.path? .lib
        headers := p.path? .headers
        data := p.path? .data } }

end Progress

/-! ## Commands -/

/-- What stands in the command's place. -/
inductive Verb where
  | generate
  | print
  | regenerate
  | help
deriving DecidableEq, Repr

/-- The verb of a name. -/
def Verb.named? : String → Option Verb
  | "generate" => some generate
  | "print" => some print
  | "regenerate" => some regenerate
  | "help" => some help
  | _ => none

/-- Help is about at most one command, which must exist. -/
def helpOn : List String → Stop
  | [] => .help
  | [name] => if (Verb.named? name).isSome then .help else .commandUnknown
  | _ => .commandUnknown

/-- Reads the arguments after a verb. -/
def readCommand (verb : Verb) (outerVerbose : Bool) (rest : List String) : Except Stop Invocation := do
  let read := fun level => Progress.read level {} rest
  match verb with
  | .generate =>
      let p ← read .request
      return ⟨outerVerbose || p.verbose, .generate (← p.request)⟩
  | .print =>
      let p ← read .request
      return ⟨outerVerbose || p.verbose, .print (← p.request)⟩
  | .regenerate =>
      let p ← read .again
      return ⟨outerVerbose || p.verbose, .regenerate ⟨p.operand.getD "."⟩⟩
  | .help => .error (helpOn rest)

/-- Why there is no command when the arguments are over. -/
def atEnd (p : Progress) : Stop :=
  if p.verbose then .commandMissing else .nothingGiven

/-- Reads the arguments from the command's place on. -/
def parseFrom : Progress → List String → Except Stop Invocation
  | p, [] => .error (atEnd p)
  | p, argument :: rest =>
      match Verb.named? argument, Word.ofText argument with
      | some verb, _ => readCommand verb p.verbose rest
      | none, .escape =>
          match rest with
          | [] => .error (atEnd p)
          | next :: _ =>
              if (Verb.named? next).isSome then .error .argumentUnknown
              else .error .commandUnknown
      | none, .long name value => do parseFrom (← p.long .outer name value) rest
      | none, .cluster letters => do parseFrom (← Progress.cluster .outer p letters) rest
      | none, .plain _ => .error .commandUnknown

/-- Reads an argument list, without the name of the program. -/
def parse (arguments : List String) : Except Stop Invocation :=
  parseFrom {} arguments

example : parse ["print", "-vBout", "b.json"] =
    .ok ⟨true, .print { description := ⟨"b.json"⟩, builddir := ⟨"out"⟩ }⟩ := by rfl
example : parse ["print", "x", "--toolchain", "gcc"] = .error .valueInvalid := by rfl
example : parse ["print", "x", "--toolchain", "gcc", "--bogus"] = .error .argumentUnknown := by rfl
example : parse ["generate", "--", "-x"] =
    .ok ⟨false, .generate { description := ⟨"-x"⟩ }⟩ := by rfl

end MakeGraph.Invocation
