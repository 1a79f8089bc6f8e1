import ProviderNest.Command.Run
import ProviderNest.FileTree.Update
import Std.Time.DateTime.Timestamp

/-!
# The program

The first argument names the command and the others are its own. What the command looks up on the
disk is read into a file tree, the command is carried out on that, and what it wrote is written
back.
-/

namespace ProviderNest.Program

/-- The path of a location on the disk. -/
def diskPath (l : Location) : String := "/" ++ "/".intercalate l

/-- The tree with what is at a location of the disk. -/
def look (tree : FileTree) (l : Location) : IO FileTree := do
  let path := (← IO.currentDir) / diskPath l
  if ← path.isDir then return tree.makeDirectory l
  else if ← path.pathExists then return tree.put l (← IO.FS.readBinFile path).toList
  else return tree

/-- The tree with what is on the disk along a path. -/
def snapshot (place : Place) (tree : FileTree) (p : Path) : IO FileTree :=
  (FileTree.trail place.cwd p).foldlM look tree

/-- The working directory and the user's configuration directory. -/
def currentPlace : IO Place := do
  let cwd : Path := ⟨(← IO.currentDir).toString⟩
  let home := (← IO.getEnv "HOME").getD "."
  let configuration : Path := match ← IO.getEnv "XDG_CONFIG_HOME" with
    | some dir => if (Path.mk dir).isAbsolute then ⟨dir⟩ else (Path.mk home).join ⟨".config"⟩
    | none => (Path.mk home).join ⟨".config"⟩
  return ⟨FileTree.spell [] cwd, configuration⟩

/-- Appends what is traced to the trace file, if tracing is on. -/
def writeTrace (traced : List Traced) : IO Unit := do
  let switch ← IO.getEnv "PROVMIG_DEBUG"
  let settings := TraceSettings.ofValues switch (← IO.getEnv "PROVMIG_LOG_LEVEL")
  match settings.keep? traced with
  | none => return
  | some kept =>
    let directory : Path := ⟨(← IO.getEnv "TMPDIR").getD "/tmp"⟩
    let file ← IO.FS.Handle.mk (directory.join ⟨"provmig-debug.log"⟩).text .append
    let now ← Std.Time.Timestamp.now
    let time := timeOfDay now.toMillisecondsSinceUnixEpoch.toInt.toNat
    kept.forM fun m => file.putStrLn ("[" ++ time ++ "] " ++ m.line)

/-- Writes back the files that a command wrote. -/
def writeBack (r : CommandRun) : IO Unit :=
  r.written.forM fun l =>
    match r.tree.readAt l with
    | .ok bytes => IO.FS.writeBinFile (diskPath l) (ByteArray.mk bytes.toArray)
    | .error _ => pure ()

/-- A command carried out on the disk. -/
def runCommand (c : Command) (args : List String) : IO UInt32 := do
  let place ← currentPlace
  let tree ← (c.lookups args .empty place).foldlM (snapshot place) .empty
  let tree ← (c.lookups args tree place).foldlM (snapshot place) tree
  match c.run args tree place with
  | .error _ =>
    IO.eprintln "internal error: a text was cut inside a character"
    return 101
  | .ok r =>
    writeBack r
    writeTrace r.traced
    IO.print r.printed.stdout
    IO.eprint r.printed.stderr
    return r.exit.toUInt32

end ProviderNest.Program

/-- The entry point. -/
def main (args : List String) : IO UInt32 :=
  match args with
  | [] => do
    IO.eprintln "Usage: (update-providers | update-all-providers) ..."
    return 2
  | name :: rest =>
    match ProviderNest.Command.ofName? name with
    | some c => ProviderNest.Program.runCommand c rest
    | none => do
      IO.eprintln ("unknown command: " ++ name)
      return 2
