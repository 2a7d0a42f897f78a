import Snippets.Text

/-!
# The command line

Options stand before or after the subcommand and its argument; two dashes end them. An option takes
the next word, unless that begins like an option, or a value that is attached to it. Words are read
from left to right and the first fault or request for help decides.
-/

namespace Snippets.CommandLine

inductive Task where
  /-- Show the template of a body. -/
  | parse (body : Text)
  /-- Expand the trigger at the end of a text. -/
  | expand (files : List Text) (values : List (Text × Text)) (text : Text)
  deriving DecidableEq, Repr

inductive Subcommand where
  | parse
  | expand
  deriving DecidableEq, Repr

inductive Topic where
  | program
  | subcommand (s : Subcommand)
  /-- The subcommand that gives help. -/
  | help
  deriving DecidableEq, Repr

inductive Invocation where
  | help (topic : Topic)
  | version
  /-- The words make no invocation. -/
  | misuse
  | run (settings : Option Text) (task : Task)
  deriving DecidableEq, Repr

/-- A word that is read as an option; a single dash is none. -/
def isOption (word : Text) : Bool := word.head? == some '-' && word != ['-']

def takeWord? : List Text → Option (Text × List Text)
  | word :: rest => if isOption word then none else some (word, rest)
  | [] => none

def splitValue (word : Text) : Text × Option Text :=
  let name := word.takeWhile (· != '=')
  match word.drop name.length with
  | _ :: value => (name, some value)
  | [] => (name, none)

structure Options where
  settings : Option Text := none
  files : List Text := []
  values : List (Text × Text) := []
  argument : Option Text := none
  deriving Repr

inductive Parameter where
  | settings
  | files
  | values
  deriving DecidableEq, Repr

/-- Takes the value of an option. A path is not empty, the settings are given once, and a variable
has a name in front of an equals sign. -/
def Options.set? (o : Options) (option : Parameter) (value : Text) : Option Options :=
  match option with
  | .settings =>
    if value.isEmpty || o.settings.isSome then none else some { o with settings := some value }
  | .files => if value.isEmpty then none else some { o with files := o.files ++ [value] }
  | .values => match splitValue value with
    | (_ :: _, none) => none
    | ([], _) => none
    | (name, some value) => some { o with values := o.values ++ [(name, value)] }

inductive Step where
  | stop (result : Invocation)
  | go (options : Options) (rest : List Text)

def setOption (o : Options) (option : Parameter) (attached : Option Text) (rest : List Text) :
    Step :=
  let value := match attached with
    | some value => some (value, rest)
    | none => takeWord? rest
  match value with
  | none => .stop .misuse
  | some (value, rest) => match o.set? option value with
    | none => .stop .misuse
    | some o => .go o rest

structure Level where
  topic : Topic
  long : List (String × Parameter)
  short : List (Char × Parameter)

namespace Level

def hasVersion (l : Level) : Bool := l.topic == .program

def longOption (l : Level) (o : Options) (word : Text) (rest : List Text) : Step :=
  let (name, attached) := splitValue word
  match l.long.find? fun (n, _) => n.toList == name with
  | some (_, option) => setOption o option attached rest
  | none =>
    if attached.isSome then .stop .misuse
    else if name == "help".toList then .stop (.help l.topic)
    else if l.hasVersion && name == "version".toList then .stop .version
    else .stop .misuse

/-- Reads short options, after their dash. The value of one may be attached, with or without an
equals sign. -/
def shortOptions (l : Level) (o : Options) (letters : Text) (rest : List Text) : Step :=
  match letters with
  | [] => .stop .misuse
  | letter :: value =>
    match l.short.lookup letter with
    | some option =>
      let attached := match value with
        | [] => none
        | '=' :: value => some value
        | value => some value
      setOption o option attached rest
    | none =>
      if letter == 'h' then .stop (.help l.topic)
      else if l.hasVersion && letter == 'V' then .stop .version
      else .stop .misuse

def option (l : Level) (o : Options) (word : Text) (rest : List Text) : Step :=
  match word with
  | '-' :: '-' :: name => l.longOption o name rest
  | _ :: letters => l.shortOptions o letters rest
  | [] => .stop .misuse

def program : Level := ⟨.program, [("config", .settings)], []⟩

end Level

namespace Subcommand

def level : Subcommand → Level
  | parse => ⟨.subcommand .parse, [("config", .settings)], []⟩
  | expand =>
    ⟨.subcommand .expand, [("config", .settings), ("snippets", .files), ("var", .values)],
      [('s', .files)]⟩

def task (s : Subcommand) (o : Options) (argument : Text) : Task :=
  match s with
  | parse => .parse argument
  | expand => .expand o.files o.values argument

/-- Reads the words of a subcommand. The settings that it names win over those named before it. -/
def read (s : Subcommand) (settings : Option Text) :
    Nat → Bool → Options → List Text → Invocation
  | 0, _, _, _ => .misuse
  | _, _, o, [] => match o.argument with
    | none => .misuse
    | some argument => .run (o.settings.or settings) (s.task o argument)
  | fuel + 1, ended, o, word :: rest =>
    if !ended && word == ['-', '-'] then read s settings fuel true o rest
    else if !ended && isOption word then
      match s.level.option o word rest with
      | .stop result => result
      | .go o rest => read s settings fuel ended o rest
    else if o.argument.isSome then .misuse
    else read s settings fuel ended { o with argument := some word } rest

end Subcommand

def subcommand? (word : Text) : Option Subcommand :=
  if word == "parse".toList then some .parse
  else if word == "expand".toList then some .expand
  else none

def helpOn : List Text → Invocation
  | [] => .help .program
  | [name] =>
    if name == "help".toList then .help .help
    else (subcommand? name).elim .misuse fun s => .help (.subcommand s)
  | _ => .misuse

def readFrom : Nat → Options → List Text → Invocation
  | 0, _, _ => .misuse
  | _, _, [] => .misuse
  | fuel + 1, o, word :: rest =>
    match subcommand? word with
    | some s => s.read o.settings (rest.length + 1) false {} rest
    | none =>
      if word == "help".toList then helpOn rest
      else if word == ['-', '-'] || !isOption word then .misuse
      else
        match Level.program.option o word rest with
        | .stop result => result
        | .go o rest => readFrom fuel o rest

def read (words : List Text) : Invocation := readFrom (words.length + 1) {} words

end Snippets.CommandLine
