import Snippets.CommandLine
import Snippets.Document
import Snippets.Library
import Snippets.Report

/-!
# The program

Carries out what the command line asks for.
-/

namespace Snippets.Program

structure Outcome where
  code : Nat
  output : Text
  errors : Text
  deriving DecidableEq, Repr

def versionText : String := "token-snippets 0.1.0\n"

def lines (ls : List String) : String := String.join (ls.map (· ++ "\n"))

def helpText : CommandLine.Topic → String
  | .program => lines [
    "Snippet template engine",
    "",
    "Usage: token-snippets [OPTIONS] <COMMAND>",
    "",
    "Commands:",
    "  parse   Parse a snippet body and print the template as JSON",
    "  expand  Expand the snippet whose prefix ends TEXT and print the result as JSON",
    "  help    Print this message or the help of the given subcommand(s)",
    "",
    "Options:",
    "      --config <FILE>  Config file (defaults to ~/.config/token-snippets/config.yaml)",
    "  -h, --help           Print help",
    "  -V, --version        Print version"]
  | .subcommand .parse => lines [
    "Parse a snippet body and print the template as JSON",
    "",
    "Usage: token-snippets parse [OPTIONS] <BODY>",
    "",
    "Arguments:",
    "  <BODY>  Snippet body, e.g. 'fn $\x7b1:name\x7d() \x7b\\n\\t$0\\n\x7d'",
    "",
    "Options:",
    "      --config <FILE>  Config file (defaults to ~/.config/token-snippets/config.yaml)",
    "  -h, --help           Print help"]
  | .subcommand .expand => lines [
    "Expand the snippet whose prefix ends TEXT and print the result as JSON",
    "",
    "Usage: token-snippets expand [OPTIONS] <TEXT>",
    "",
    "Arguments:",
    "  <TEXT>  Document text; the cursor is placed at its end",
    "",
    "Options:",
    "      --config <FILE>     Config file (defaults to ~/.config/token-snippets/config.yaml)",
    "  -s, --snippets <FILE>   VSCode-style snippet JSON file " ++
      "(repeatable, added to configured files)",
    "      --var <NAME=VALUE>  Variable value as NAME=VALUE (repeatable)",
    "  -h, --help              Print help"]
  | .help => lines [
    "Print this message or the help of the given subcommand(s)",
    "",
    "Usage: token-snippets help [COMMAND]...",
    "",
    "Arguments:",
    "  [COMMAND]...  Print help for the subcommand(s)"]

def misuseText : String := "error: invalid arguments\n\nFor more information, try '--help'.\n"

def missingText (path : Text) : Text := "Error: Snippet file not found: ".toList ++ path ++ ['\n']

def printed (v : JsonValue) : Outcome := ⟨0, v.print 0 ++ ['\n'], []⟩

def expansion (settings : Settings) (definitions : List Definition) (values : List (Text × Text))
    (text : Text) : Scene Document :=
  let e := (Engine.start settings (Document.ofText text)).register definitions
  let e := values.foldl (fun e (name, value) => e.setValue name value) e
  (e.handle .expand).2.scene

variable {m : Type → Type} [Monad m]

def firstMissing? (disk : Disk m) : List Text → m (Option Text)
  | [] => return none
  | path :: rest => do
    if ← disk.isPresent path then firstMissing? disk rest else return some path

def runTask (disk : Disk m) (home : Option Text) (settings : Settings) :
    CommandLine.Task → m Outcome
  | .parse body => return printed (Report.ofTemplate (.parse body))
  | .expand files values text => do
    match ← firstMissing? disk files with
    | some path => return ⟨1, [], missingText path⟩
    | none =>
      let settings := { settings with snippetFiles := settings.snippetFiles ++ files }
      let definitions ← Library.loadAll disk home settings
      return printed (Report.ofScene (expansion settings definitions values text))

/-- Runs the program with the words of its command line. `configuration` is the user's directory for
configuration. -/
def run (disk : Disk m) (configuration : Option Text) (words : List Text) : m Outcome := do
  let home := configuration.map Library.home
  match CommandLine.read words with
  | .help topic => return ⟨0, (helpText topic).toList, []⟩
  | .version => return ⟨0, versionText.toList, []⟩
  | .misuse => return ⟨2, [], misuseText.toList⟩
  | .run path task =>
    if let some home := home then disk.makeDirectory (Library.logsPath home)
    let settings ← match path.or (home.map Library.settingsPath) with
      | none => pure {}
      | some path => Library.loadSettings disk path
    runTask disk home settings task

end Snippets.Program
