import MakeGraph.Invocation.Parse
import MakeGraph.Run.Plan

/-!
# `MakeGraph.Main` — the program

The program reads its arguments, resolves the plan of the command by reading files, has the effects
of the plan in order, and prints. It fails with status 1 when a run fails and with status 2 when the
arguments hold no command.
-/

namespace MakeGraph.Main

open MakeGraph (Path FileError Invocation)
open Run (Effect Error Host Inquiry Plan)

/-- Whether `code` is the number of an error; some calls give it with its sign turned. -/
def numbers (code error : UInt32) : Bool :=
  code = error || code = 0 - error

/-- The refusal that an error of the system stands for. -/
def refusal : IO.Error → FileError
  | .noFileOrDirectory .. => .notFound
  | .alreadyExists .. => .alreadyExists
  | .inappropriateType _ code _ => if numbers code 21 then .isADirectory else .notADirectory
  | e@(.invalidArgument _ code _) =>
      if numbers code 36 then .nameTooLong else .refused (toString e)
  | e => .refused (toString e)

/-- Does something that the system may refuse. -/
def attempt {α : Type} (action : IO α) : IO (Except FileError α) := do
  match ← action.toBaseIO with
  | .ok value => return .ok value
  | .error e => return .error (refusal e)

/-- The contents of a file. The system is not asked for a path that leads nowhere. -/
def read (file : Path) : IO (Except FileError String) :=
  match file.fault? with
  | some e => return .error e
  | none => attempt (IO.FS.readFile ⟨file.text⟩)

/-- The value of an inquiry, by reading its files. -/
def resolve {α : Type} : Inquiry α → IO α
  | .answer value => return value
  | .read file next => do resolve (next (← read file))

/-- Puts a complete file in the place of another. -/
def replace (file : Path) (contents : String) : IO Unit := do
  let name := ".mkgen." ++ toString (← IO.monoNanosNow) ++ ".tmp"
  let temporary := (file.parent.join ⟨name⟩).text
  try
    IO.FS.writeFile ⟨temporary⟩ contents
    IO.FS.rename ⟨temporary⟩ ⟨file.text⟩
  catch e =>
    discard (attempt (IO.FS.removeFile ⟨temporary⟩))
    throw e

/-- Whether a path leads to a directory. -/
def isDirectory (p : Path) : IO Bool := do
  match ← attempt (IO.FS.realPath ⟨p.text⟩) with
  | .ok real => real.isDir
  | .error _ => return false

/-- The failure to make a directory, unless it is there. -/
def unlessThere (p : Path) (made : Except FileError Unit) : IO (Option FileError) := do
  match made with
  | .ok () => return none
  | .error e => return if ← isDirectory p then none else some e

/-- Makes the first of some paths a directory; the others are its parents, and are made first if
there is no way to it. -/
def makeAlong : List Path → IO (Option FileError)
  | [] => return none
  | p :: parents => do
      match ← attempt (IO.FS.createDir ⟨p.text⟩) with
      | .error .notFound =>
          match ← makeAlong parents with
          | some e => return some e
          | none => unlessThere p (← attempt (IO.FS.createDir ⟨p.text⟩))
      | made => unlessThere p made

/-- The failure of something that the system may refuse. -/
def failure (action : IO Unit) : IO (Option FileError) := do
  match ← attempt action with
  | .ok () => return none
  | .error e => return some e

/-- Has an effect, and tells why it failed if it did. -/
def perform : Effect → IO (Option FileError)
  | .makeDirectories builddir => makeAlong builddir.ancestors
  | .replace file contents => failure (replace file contents)
  | .save file contents => failure (IO.FS.writeFile ⟨file.text⟩ contents)

/-- Has effects in order, up to the first that fails. -/
def carryOut (verbose : Bool) : List Effect → IO (Option Error)
  | [] => return none
  | effect :: rest => do
      if verbose then IO.eprintln effect.doing
      match ← perform effect with
      | none => carryOut verbose rest
      | some e => return some (.effect effect e)

/-- The tool variables that are set. -/
def toolVariables : IO (Table String String) := do
  let values ← ToolConfig.variableNames.mapM fun name => do
    return (← IO.getEnv name).map fun value => (name, value)
  return values.filterMap id

/-- Runs a command, and tells why it failed if it did. -/
def run (invocation : Invocation) : IO (Option Error) := do
  let table ← toolVariables
  let host : Host := {
    cwd := ⟨(← IO.currentDir).toString⟩
    generator := ⟨(← IO.appPath).toString⟩
    valueOf? := table.find? }
  match ← resolve (Run.plan host invocation.command) with
  | .error e => return some e
  | .ok plan =>
      let failure ← carryOut invocation.verbose plan.effects
      if failure.isNone then IO.print plan.output
      return failure

end MakeGraph.Main

/-- Reads the arguments and runs the command. -/
def main (arguments : List String) : IO UInt32 := do
  match MakeGraph.Invocation.parse arguments with
  | .error .version => IO.print MakeGraph.Invocation.versionText; return 0
  | .error .help => IO.print MakeGraph.Invocation.usageText; return 0
  | .error _ => IO.eprint MakeGraph.Invocation.usageText; return 2
  | .ok invocation =>
      match ← MakeGraph.Main.run invocation with
      | none => return 0
      | some e => IO.eprintln e.message; return 1
