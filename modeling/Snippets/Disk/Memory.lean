import Snippets.Disk

/-!
# Files in memory

A file system as a value, with a working directory from which relative paths start.
-/

namespace Snippets

inductive FileEntry where
  | directory
  /-- A file; its bytes need not be text. -/
  | file (content : Option Text)
  deriving DecidableEq, Repr

structure Memory where
  working : List Text
  entries : List (List Text × FileEntry)
  deriving Repr

namespace Memory

def entry? (m : Memory) (place : List Text) : Option FileEntry :=
  if place.isEmpty then some .directory else m.entries.lookup place

def put (m : Memory) (place : List Text) (e : FileEntry) : Memory :=
  let around := (List.range place.length).map place.take
  let missing := around.filter fun p => (m.entry? p).isNone
  let others := m.entries.filter (·.1 != place)
  { m with entries := (place, e) :: missing.map (·, .directory) ++ others }

/-- Where the parts of a path lead. Each part but the last has to be a directory. -/
def walk (m : Memory) : List Text → List Text → Option (List Text)
  | place, [] => some place
  | place, part :: rest =>
    if m.entry? place != some .directory then none
    else if part.isEmpty || part == ['.'] then walk m place rest
    else if part == ['.', '.'] then walk m place.dropLast rest
    else walk m (place ++ [part]) rest

def resolve? (m : Memory) (path : Text) : Option (List Text) :=
  m.walk (if path.head? == some '/' then [] else m.working) (Path.components path)

def lookup? (m : Memory) (path : Text) : Option FileEntry :=
  (m.resolve? path).bind m.entry?

def read? (m : Memory) (path : Text) : Option Text :=
  match m.lookup? path with
  | some (.file content) => content
  | _ => none

def write (m : Memory) (path content : Text) : Bool × Memory :=
  match m.resolve? path with
  | none => (false, m)
  | some place =>
    if m.entry? place == some .directory then (false, m)
    else (true, m.put place (.file (some content)))

def names (m : Memory) (path : Text) : List Text :=
  match m.resolve? path with
  | none => []
  | some place =>
    m.entries.filterMap fun (p, _) =>
      if !p.isEmpty && p.dropLast == place then p.getLast? else none

/-- Makes the directories on the way to a path; a file in the way ends it. -/
def makeDirectories : List Text → List Text → Memory → Memory
  | _, [], m => m
  | place, part :: rest, m =>
    match m.walk place [part] with
    | none => m
    | some next =>
      match m.entry? next with
      | none => makeDirectories next rest (m.put next .directory)
      | some _ => makeDirectories next rest m

def disk : Disk (StateM Memory) where
  read path := return (← get).read? path
  write path content := modifyGet (·.write path content)
  isPresent path := return ((← get).lookup? path).isSome
  names path := return (← get).names path
  makeDirectory path := modify fun m =>
    m.makeDirectories (if path.head? == some '/' then [] else m.working) (Path.components path)

end Memory

end Snippets
