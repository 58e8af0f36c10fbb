import MakeGraph.Generate.ToolVariables

/-!
# `MakeGraph.Generate.Installation` — the target `install`

Files are installed by `$(INSTALL_PROGRAM)` or `$(INSTALL_DATA)`, directories are copied with all
that is in them. Each keeps its own path below its installation directory.
-/

namespace MakeGraph.Generate

open Make (Command Error Piece Makefile Rule Variable)

/-- The variable of a command that installs files of a kind, and the mode that it gives them. -/
def installer : InstallKind → String × String
  | .program => ("INSTALL_PROGRAM", "755")
  | .data => ("INSTALL_DATA", "644")

/-- Declares the command that installs files of a kind. -/
def declareInstall (m : Makefile) (kind : InstallKind) : Except Error (Variable × Makefile) := do
  let (install, m) ← declareLine m "INSTALL" (.plain "install")
  let (name, mode) := installer kind
  declareLine m name (.join [install.toPiece, .plain (" -m " ++ mode)])

/-- The command that installs a file. -/
def copyFile (m : Makefile) (file : InstallFile) : Except Error (Command × Makefile) := do
  let (command, m) ← declareInstall m file.kind
  return (.words [command.toPiece, .plain "-D", .path file.path,
    .path (file.path.under file.root)], m)

/-- The commands that install files, in order. -/
def copyFiles (m : Makefile) : List InstallFile → Except Error (List Command × Makefile)
  | [] => .ok ([], m)
  | file :: files => do
      let (command, m) ← copyFile m file
      let (commands, m) ← copyFiles m files
      return (command :: commands, m)

/-- The command that installs a directory. -/
def copyDirectory (dir : InstallDirectory) : Command :=
  let source := (Piece.path dir.path).render .shellWord
  let destination := (Piece.path (dir.path.under dir.root)).render .shellWord
  .line (.verbatim ("mkdir -p " ++ destination ++ " && cp -r " ++ source ++ "/* " ++ destination))

/-- Adds the rule that installs, if anything is installed. -/
def addInstall (install : Install) (m : Makefile) : Except Error Makefile :=
  if install.isEmpty then .ok m
  else do
    let (commands, m) ← copyFiles m install.files
    m.addRule {
      targets := [.plain "install"]
      deps := [.plain "all"]
      recipe := some (.inline (commands ++ install.directories.map copyDirectory))
      phony := true }

end MakeGraph.Generate
