import Snippets.Disk
import Snippets.Engine
import Snippets.SettingsFile
import Snippets.SnippetFile

/-!
# The snippet library

Where settings and snippets lie, and how they become an index. The user's own snippet files come
first, in the order of their names, then the files that the settings name. A file that cannot be
read or is bad counts as empty.
-/

namespace Snippets.Library

def home (configuration : Text) : Text := Path.join configuration "token-snippets".toList

def settingsPath (home : Text) : Text := Path.join home "config.yaml".toList

def snippetsPath (home : Text) : Text := Path.join home "snippets".toList

def logsPath (home : Text) : Text := Path.join home "logs".toList

def settingsOf (content : Option Text) : Settings := (content.bind SettingsFile.read?).getD {}

section

variable (decode : SnippetFile.Decoder)

/-- What a file has that can be read and is not bad. -/
def goodIn? (content : Option Text) : Option (List Definition) :=
  content.bind fun t => SnippetFile.read? t decode

def definitionsIn (content : Option Text) : List Definition := (goodIn? decode content).getD []

def definitionsOf (contents : List (Option Text)) : List Definition :=
  contents.flatMap (definitionsIn decode)

end

def snippetFileNames (names : List Text) : List Text :=
  sortStable (fun a b => !decide (b < a)) (names.filter (Path.hasExtension "json".toList))

variable {m : Type → Type} [Monad m]

def loadSettings (disk : Disk m) (path : Text) : m Settings :=
  return settingsOf (← disk.read path)

def saveSettings (disk : Disk m) (path : Text) (s : Settings) : m Bool := do
  disk.makeDirectory (Path.parent path)
  disk.write path (SettingsFile.print s)

def userFiles (disk : Disk m) (home : Option Text) : m (List Text) := do
  match home with
  | none => return []
  | some home =>
    let directory := snippetsPath home
    return (snippetFileNames (← disk.names directory)).map (Path.join directory)

def loadDefinitions (disk : Disk m) (paths : List Text)
    (decode : SnippetFile.Decoder := SnippetFile.entries?) : m (List Definition) :=
  return definitionsOf decode (← paths.mapM disk.read)

/-- The snippets of the user's own files and of the files that the settings name. -/
def loadAll (disk : Disk m) (home : Option Text) (s : Settings)
    (decode : SnippetFile.Decoder := SnippetFile.entries?) : m (List Definition) := do
  loadDefinitions disk ((← userFiles disk home) ++ s.snippetFiles) decode

end Snippets.Library
