import MakeGraph.Run.Plan

/-!
# `MakeGraph.Run.Basic` — running a command on a file tree

`Run.run` works a command out on what the tree holds and then has its effects one after the other,
up to the first that fails. An `Interruption` is a failure that the tree does not explain; it leaves
an effect half done, save that a file is replaced at once or not at all.
-/

namespace MakeGraph.Run

open Invocation (Command)

/-! ## Effects on a tree -/

/-- Has an effect. -/
def Effect.perform (tree : FileTree) : Effect → FileTree × Option FileError
  | makeDirectories builddir => tree.makeDirectories builddir
  | replace file contents | save file contents =>
      match tree.write file contents with
      | .ok written => (written, none)
      | .error e => (tree, some e)

/-- What an effect leaves that breaks off: directories up to some parent of the last one, or the
beginning of a file. -/
def Effect.breakOff (tree : FileTree) (progress : Nat) : Effect → FileTree
  | makeDirectories builddir => (tree.makeAlong (builddir.ancestors.drop (progress + 1))).1
  | replace _ _ => tree
  | save file contents =>
      ((tree.write file (String.ofList (contents.toList.take progress))).toOption).getD tree

/-- A failure that the tree does not explain. -/
structure Interruption where
  /-- How many effects are had before. -/
  after : Nat
  /-- How far the effect comes that breaks off. -/
  progress : Nat
  /-- What the system gives as its reason. -/
  reason : String
deriving DecidableEq, Repr

/-- Has effects in order, up to the first that fails. -/
def carryOut (tree : FileTree) : Option Interruption → List Effect → FileTree × Option Error
  | _, [] => (tree, none)
  | some ⟨0, progress, reason⟩, effect :: _ =>
      (effect.breakOff tree progress, some (.effect effect (.refused reason)))
  | some ⟨after + 1, progress, reason⟩, effect :: rest =>
      match effect.perform tree with
      | (tree, none) => carryOut tree (some ⟨after, progress, reason⟩) rest
      | (tree, some e) => (tree, some (.effect effect e))
  | none, effect :: rest =>
      match effect.perform tree with
      | (tree, none) => carryOut tree none rest
      | (tree, some e) => (tree, some (.effect effect e))

/-! ## Runs -/

/-- The state of the files after a run, and what it printed or why it failed. -/
structure Outcome where
  tree : FileTree
  result : Except Error String

/-- The contents of a file as seen from the current directory. -/
def Host.read (host : Host) (tree : FileTree) (file : Path) : Except FileError String :=
  if file.text.isEmpty then .error .notFound else tree.read (host.cwd.join file)

/-- Runs a command. -/
def run (host : Host) (tree : FileTree) (interruption : Option Interruption) (command : Command) :
    Outcome :=
  match (plan host command).resolve (host.read tree) with
  | .error e => ⟨tree, .error e⟩
  | .ok plan =>
      match carryOut tree interruption plan.effects with
      | (tree, none) => ⟨tree, .ok plan.output⟩
      | (tree, some e) => ⟨tree, .error e⟩

end MakeGraph.Run
