import MakeGraph.Generate.Products
import MakeGraph.Invocation.Basic
import MakeGraph.Run.Error

/-!
# `MakeGraph.Run.Plan` — what a command comes to

A command is worked out completely before any file is touched. `Run.plan` asks for the files that it
needs (`Inquiry`), one after the other, and ends with a failure or with a `Plan`: what to print and
which effects to have. The Makefile is the last effect of all.
-/

namespace MakeGraph.Run

open Generate (Products)
open Invocation (Command Request)

/-! ## Inquiries -/

/-- A value that depends on the contents of files. -/
inductive Inquiry (α : Type) where
  /-- The value. -/
  | answer (value : α)
  /-- A file whose contents decide how to go on. -/
  | read (file : Path) (next : Except FileError String → Inquiry α)

/-- The value of an inquiry, given what reading gives. -/
def Inquiry.resolve {α : Type} (contents : Path → Except FileError String) : Inquiry α → α
  | answer value => value
  | read file next => (next (contents file)).resolve contents

/-! ## Environments -/

/-- The machine that a run takes place on. -/
structure Host where
  /-- The current directory. -/
  cwd : Path
  /-- The file of this program. -/
  generator : Path
  /-- The value of a variable of the process. -/
  valueOf? : String → Option String

/-- A path as seen from the current directory. -/
def absolute (host : Host) (p : Path) : Except Error Path :=
  match host.cwd.absolute? p with
  | some absolute => .ok absolute
  | none => .error .emptyPath

/-- The environment of a request whose description was found. -/
def environment (host : Host) (request : Request) (description : Path) :
    Except Error Environment := do
  let srcdir ←
    match request.srcdir with
    | some dir => absolute host dir
    | none => .ok description.parent
  let builddir ← absolute host request.builddir
  let family := request.family.getD .cc
  let tools ← (ToolConfig.resolve family host.valueOf?).mapError .tools
  return {
    srcdir, builddir, description
    generator := host.generator
    platform := request.platform.getD .linux
    family
    installDirs := request.installDirs
    tools }

/-! ## Plans -/

/-- What a command comes to. -/
structure Plan where
  /-- What is printed. -/
  output : String
  /-- What is done to the files, in order. -/
  effects : List Effect
deriving DecidableEq, Repr

/-- What is generated from what the description holds. -/
def generated (env : Environment) (contents : Except FileError String) :
    Except Error Products := do
  let text ← contents.mapError (.unreadable env.description)
  let graph ← (BuildGraph.parse text).mapError (.description env.description)
  (Generate.generate env graph).mapError (.makefile env.description)

/-- The effects by which a build directory is filled; the Makefile comes last. -/
def fill (env : Environment) (generated : Products) (saved : List Effect) : List Effect :=
  .makeDirectories env.builddir ::
    (generated.companions.map fun file => .replace (env.builddir.join file.name) file.contents) ++
    saved ++ [.replace (env.builddir.join ⟨Generate.makefileName⟩) generated.makefile]

/-- The effect by which an environment is saved. -/
def save (env : Environment) : Effect :=
  .save (Environment.savedPath env.builddir) env.print

/-- The plan for a request; `finish` says what becomes of the Makefile. -/
def planRequest (host : Host) (request : Request) (finish : Environment → Products → Plan) :
    Inquiry (Except Error Plan) :=
  match absolute host request.description with
  | .error e => .answer (.error e)
  | .ok description =>
      .read description fun contents => .answer do
        if let .error e := contents then
          if e.tellsAbsence then throw (.noDescription description)
        let env ← environment host request description
        return finish env (← generated env contents)

/-- The plan for making the Makefile of a build directory again. -/
def planAgain (host : Host) (dir : Path) : Inquiry (Except Error Plan) :=
  match absolute host dir with
  | .error e => .answer (.error e)
  | .ok builddir =>
      .read (Environment.savedPath builddir) fun contents =>
        match Environment.load builddir contents with
        | .error (.unreadable file e) => .answer <| .error <|
            if e.tellsAbsence then .noEnvironment builddir
            else .environment (.unreadable file e)
        | .error e => .answer (.error (.environment e))
        | .ok env =>
            let env := { env with builddir }
            .read env.description fun contents => .answer do
              return ⟨"", fill env (← generated env contents) []⟩

/-- The plan for a command. -/
def plan (host : Host) : Command → Inquiry (Except Error Plan)
  | .print request => planRequest host request fun _ made => ⟨made.makefile, []⟩
  | .generate request => planRequest host request fun env made => ⟨"", fill env made [save env]⟩
  | .regenerate builddir => planAgain host builddir

end MakeGraph.Run
