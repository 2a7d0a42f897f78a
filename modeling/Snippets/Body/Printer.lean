import Snippets.Body

/-!
# Writing bodies

Writing a body back as text, with braced forms throughout and a backslash in front of every
character that would be read as something else.
-/

namespace Snippets.Body

def printChar (c : Char) : Text := if c == '$' || c == '\\' || c == '}' then ['\\', c] else [c]

def printOptionChar (c : Char) : Text :=
  if c == '\\' || c == ',' || c == '|' then ['\\', c] else [c]

def printOption (option : Text) : Text := option.flatMap printOptionChar

def printNat (n : Nat) : Text := Nat.toDigits 10 n

def print : Body → Text
  | done => []
  | char c rest => printChar c ++ print rest
  | stop index rest => '$' :: '{' :: printNat index ++ '}' :: print rest
  | stopOver index fallback rest =>
    '$' :: '{' :: printNat index ++ ':' :: print fallback ++ '}' :: print rest
  | choice index first others rest =>
    '$' :: '{' :: printNat index ++ '|' :: printOption first ++
      others.flatMap (fun o => ',' :: printOption o) ++ '|' :: '}' :: print rest
  | .variable name rest => '$' :: '{' :: name ++ '}' :: print rest
  | variableOver name fallback rest =>
    '$' :: '{' :: name ++ ':' :: print fallback ++ '}' :: print rest

end Snippets.Body
