import Snippets.Program

/-!
# Entry point

Connects the program to the file system, the environment and the standard streams.
-/

namespace Snippets

/-- The files below the working directory, and those with an absolute path. What fails reads as
missing. -/
def fileSystem : IO (Disk IO) := do
  let here ← IO.currentDir
  let place (path : Text) := here / String.ofList path
  return {
    read := fun path => do
      try return (String.fromUTF8? (← IO.FS.readBinFile (place path))).map String.toList
      catch _ => return none
    write := fun path content => do
      try
        IO.FS.writeFile (place path) (String.ofList content)
        return true
      catch _ => return false
    isPresent := fun path => (place path).pathExists
    names := fun path => do
      try return (← (place path).readDir).toList.map fun e => e.fileName.toList
      catch _ => return []
    makeDirectory := fun path => do
      try IO.FS.createDirAll (place path)
      catch _ => return () }

def configurationDirectory : IO (Option Text) := do
  match ← IO.getEnv "XDG_CONFIG_HOME" with
  | some path => return some path.toList
  | none => return (← IO.getEnv "HOME").map fun home => Path.join home.toList ".config".toList

end Snippets

def main (words : List String) : IO UInt32 := do
  let disk ← Snippets.fileSystem
  let configuration ← Snippets.configurationDirectory
  let outcome ← Snippets.Program.run disk configuration (words.map String.toList)
  (← IO.getStdout).putStr (String.ofList outcome.output)
  (← IO.getStderr).putStr (String.ofList outcome.errors)
  return outcome.code.toUInt32
