import Snippets.Body.Opening

/-!
# Reading bodies

Reading a body. Nothing is refused: a dollar sign that starts no complete form is a character like
any other, and reading goes on behind it.

A form that lacks its closing brace is found out only at the end of the input, and everything behind
its dollar sign is then read again. The reader therefore remembers where such forms start. `read`
remembers every failure but those at the deepest level, where a brace is plain text; `readPlainly`
remembers none and is the grammar as it stands.
-/

namespace Snippets.Body

def prepend (piece : Body → Body) (result : Option (Body × Text) × List Nat) :
    Option (Body × Text) × List Nat :=
  (result.1.map fun (body, after) => (piece body, after), result.2)

/-- Reads up to the closing brace when `nested`, else up to the end. A place is named by the number
of characters behind it, and `failed` holds the places behind dollar signs that start no form. The
fuel is more than the characters that are left, since every step takes one at least. -/
def readSequence (remembers : Nat → Bool) :
    Nat → Nat → Bool → List Nat → Text → Option (Body × Text) × List Nat
  | 0, _, _, failed, _ => (none, failed)
  | fuel + 1, depth, nested, failed, input =>
    match input with
    | [] => (if nested then none else some (.done, []), failed)
    | '\\' :: rest =>
      match rest with
      | c :: after =>
        if isTextEscape c then
          prepend (.char c) (readSequence remembers fuel depth nested failed after)
        else prepend (.char '\\') (readSequence remembers fuel depth nested failed rest)
      | [] => prepend (.char '\\') (readSequence remembers fuel depth nested failed rest)
    | '$' :: rest =>
      let noted (failed : List Nat) := if remembers depth then rest.length :: failed else failed
      let literal (failed : List Nat) :=
        prepend (.char '$') (readSequence remembers fuel depth nested failed rest)
      if failed.contains rest.length then literal failed
      else
        match opening? (depth < maxDepth) rest with
        | none => literal (noted failed)
        | some (opening, inner) =>
          if opening.isOpen then
            match readSequence remembers fuel (depth + 1) true failed inner with
            | (some (fallback, after), failed) =>
              prepend (opening.close fallback)
                (readSequence remembers fuel depth nested failed after)
            | (none, failed) => literal (noted failed)
          else prepend (opening.close .done) (readSequence remembers fuel depth nested failed inner)
    | c :: rest =>
      if nested && c == '}' then (some (.done, rest), failed)
      else prepend (.char c) (readSequence remembers fuel depth nested failed rest)

def readWith (remembers : Nat → Bool) (t : Text) : Body :=
  match readSequence remembers (t.length + 1) 0 false [] t with
  | (some (body, _), _) => body
  | (none, _) => .done

/-- Reads a body; each dollar sign is tried about once. -/
def read (t : Text) : Body := readWith (· < maxDepth) t

def readPlainly (t : Text) : Body := readWith (fun _ => false) t

end Snippets.Body
