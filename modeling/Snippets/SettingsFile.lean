import Snippets.Settings
import Snippets.Yaml.Node
import Snippets.Yaml.Printer

/-!
# The settings file

Settings are kept as a YAML mapping with a field for each setting. A missing field takes its default
and an unknown one is passed over; a field that occurs twice or holds another kind of value makes
the whole file bad.
-/

namespace Snippets.SettingsFile

open Yaml

def syncModeName : SyncMode → String
  | .realtime => "realtime"
  | .onJump => "on_jump"

def syncModeNamed? (name : Text) : Option SyncMode :=
  [SyncMode.realtime, .onJump].find? fun m => (syncModeName m).toList == name

/-- A sync mode is written as its name, or as a tag with its name behind an exclamation mark and no
value. Other tags do not matter. -/
def syncMode? : Node → Option SyncMode
  | .scalar (some ('!' :: name)) style text =>
    if style == .plain && (text.isEmpty || nullWords.contains text) then syncModeNamed? name
    else none
  | .scalar _ _ name => syncModeNamed? name
  | _ => none

/-- A truth value is written plain, or as a literal block with the tag for truth values. -/
def truth? : Node → Option Bool
  | .scalar tag style text =>
    if style == .plain || (style == .literal && tag == some "tag:yaml.org,2002:bool".toList) then
      if ["true", "True", "TRUE"].any (·.toList == text) then some true
      else if ["false", "False", "FALSE"].any (·.toList == text) then some false
      else none
    else none
  | _ => none

def text? : Node → Option Text
  | .scalar _ _ text => some text
  | _ => none

def texts? (t : Tree) : Node → Option (List Text)
  | .sequence items => items.mapM fun item => text? (t.follow item)
  | .scalar _ .plain [] => some []
  | _ => none

def field? {α : Type} (name : String) (decode : Node → Option α) (fallback : α)
    (fields : List (Text × Node)) : Option α :=
  match fields.filter (·.1 == name.toList) with
  | [] => some fallback
  | [(_, value)] => decode value
  | _ => none

def ofFields? (t : Tree) (fields : List (Text × Node)) : Option Settings := do
  let standard : Settings := {}
  return {
    syncMode := ← field? "sync_mode" syncMode? standard.syncMode fields
    indentMultiline := ← field? "indent_multiline" truth? standard.indentMultiline fields
    snippetFiles := ← field? "snippet_files" (texts? t) standard.snippetFiles fields }

def ofTree? (t : Tree) : Option Settings :=
  match t.root with
  | .mapping entries => do
    ofFields? t (← entries.mapM fun (key, value) => do
      return (← text? (t.follow key), t.follow value))
  | .scalar _ .plain [] => some {}
  | _ => none

/-- Reads a settings file. A file without a document holds the defaults. -/
def read? (t : Text) : Option Settings := do
  match ← document? t with
  | none => return {}
  | some t => ofTree? t

def print (s : Settings) : Text :=
  let files := match s.snippetFiles with
    | [] => " []\n".toList
    | files => '\n' :: files.flatMap fun f => '-' :: ' ' :: printScalar 2 f
  "sync_mode: ".toList ++ (syncModeName s.syncMode).toList ++ "\nindent_multiline: ".toList ++
    (if s.indentMultiline then "true" else "false").toList ++ "\nsnippet_files:".toList ++ files

end Snippets.SettingsFile
