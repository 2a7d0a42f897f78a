import Snippets.Numeral

/-!
# Words that read as numbers

A text that another reader of YAML could take for a number is written in quotes. Integers have 128
bits and may be hexadecimal, octal or binary; decimal fractions count while they are finite as a
double.
-/

namespace Snippets.Yaml

def digitsValue? (base : Nat) (digits : Text) : Option Nat :=
  if digits.isEmpty then none else numeral? base digits

def isZeroPadded (t : Text) : Bool :=
  let digits := match t with
    | '-' :: rest => rest
    | '+' :: rest => rest
    | _ => t
  1 < digits.length && digits.head? == some '0' && digits.all Char.isDigit

def magnitude? (t : Text) : Option Nat :=
  match t with
  | '0' :: 'x' :: rest => digitsValue? 16 rest
  | '0' :: 'o' :: rest => digitsValue? 8 rest
  | '0' :: 'b' :: rest => digitsValue? 2 rest
  | _ => digitsValue? 10 t

def isInteger (t : Text) : Bool :=
  !isZeroPadded t && match t with
    | '-' :: rest => (magnitude? rest).any (· ≤ Nat.pow 2 127)
    | '+' :: rest => (magnitude? rest).any (· < Nat.pow 2 128)
    | _ => (magnitude? t).any (· < Nat.pow 2 128)

/-- The least decimal value that a double rounds to infinity. -/
def infinityBound : Nat := Nat.pow 2 1024 - Nat.pow 2 970

/-- `digits * 10 ^ exponent` is finite as a double. -/
def isFinite (digits : Nat) (exponent : Int) : Bool :=
  let size : Int := (Nat.toDigits 10 digits).length
  if digits = 0 ∨ size + exponent < 0 then true
  else if 310 < size + exponent then false
  else if exponent < 0 then digits < infinityBound * Nat.pow 10 exponent.natAbs
  else digits * Nat.pow 10 exponent.toNat < infinityBound

def exponentValue? : Text → Option Int
  | '+' :: digits => (digitsValue? 10 digits).map Int.ofNat
  | '-' :: digits => (digitsValue? 10 digits).map fun n => -(n : Int)
  | digits => (digitsValue? 10 digits).map Int.ofNat

def isDecimal (t : Text) : Bool :=
  let whole := t.takeWhile Char.isDigit
  let rest := t.drop whole.length
  let fraction := match rest with
    | '.' :: rest => rest.takeWhile Char.isDigit
    | _ => []
  let rest := match rest with
    | '.' :: rest => rest.drop fraction.length
    | _ => rest
  let exponent : Option Int := match rest with
    | [] => some 0
    | 'e' :: rest => exponentValue? rest
    | 'E' :: rest => exponentValue? rest
    | _ => none
  match digitsValue? 10 (whole ++ fraction), exponent with
  | some digits, some exponent => isFinite digits (exponent - fraction.length)
  | _, _ => false

def isReal (t : Text) : Bool :=
  let infinities := [".inf".toList, ".Inf".toList, ".INF".toList]
  !isZeroPadded t && ([".nan".toList, ".NaN".toList, ".NAN".toList].contains t || match t with
    | '-' :: rest => infinities.contains rest || isDecimal rest
    | '+' :: rest => infinities.contains rest || isDecimal rest
    | _ => infinities.contains t || isDecimal t)

end Snippets.Yaml
