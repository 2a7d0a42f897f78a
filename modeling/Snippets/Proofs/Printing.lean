import Snippets.Body.Printer
import Snippets.Proofs.Evaluation
import Snippets.Proofs.Reading

/-!
# Printed bodies

Main statement: the template of a printed body is the value of the body, completed, whatever the
variables stand for and whatever the indent is. Reading takes back what printing wrote, as long as
indices, names and choices are such as can be written and braces nest no deeper than they are read.
-/

namespace Snippets

namespace Body

/-! ## Bodies that can be written -/

/-- A letter or an underscore, and behind it digits too. -/
def IsName : Text → Prop
  | [] => False
  | c :: rest => c.isDigit = false ∧ (c :: rest).all isNameChar

instance : (name : Text) → Decidable (IsName name)
  | [] => inferInstanceAs (Decidable False)
  | _ :: _ => inferInstanceAs (Decidable (_ ∧ _))

def WellFormed : Body → Prop
  | done => True
  | char _ rest => rest.WellFormed
  | stop index rest => index < indexLimit ∧ rest.WellFormed
  | stopOver index fallback rest =>
    index < indexLimit ∧ fallback.WellFormed ∧ rest.WellFormed
  | choice index first others rest =>
    index < indexLimit ∧ ¬ (first = [] ∧ others = []) ∧ rest.WellFormed
  | .variable name rest => IsName name ∧ rest.WellFormed
  | variableOver name fallback rest => IsName name ∧ fallback.WellFormed ∧ rest.WellFormed

instance decidableWellFormed : (body : Body) → Decidable body.WellFormed
  | done => inferInstanceAs (Decidable True)
  | char _ rest => decidableWellFormed rest
  | stop _ rest =>
    have := decidableWellFormed rest
    inferInstanceAs (Decidable (_ ∧ _))
  | stopOver _ fallback rest =>
    have := decidableWellFormed fallback
    have := decidableWellFormed rest
    inferInstanceAs (Decidable (_ ∧ _ ∧ _))
  | choice _ _ _ rest =>
    have := decidableWellFormed rest
    inferInstanceAs (Decidable (_ ∧ _ ∧ _))
  | .variable _ rest =>
    have := decidableWellFormed rest
    inferInstanceAs (Decidable (_ ∧ _))
  | variableOver _ fallback rest =>
    have := decidableWellFormed fallback
    have := decidableWellFormed rest
    inferInstanceAs (Decidable (_ ∧ _ ∧ _))

def nesting : Body → Nat
  | done => 0
  | char _ rest => rest.nesting
  | stop _ rest => max 1 rest.nesting
  | stopOver _ fallback rest => max (fallback.nesting + 1) rest.nesting
  | choice _ _ _ rest => max 1 rest.nesting
  | .variable _ rest => max 1 rest.nesting
  | variableOver _ fallback rest => max (fallback.nesting + 1) rest.nesting

namespace Opening

def WellFormed : Opening → Prop
  | stop index => index < indexLimit
  | choice index first others => index < indexLimit ∧ ¬ (first = [] ∧ others = [])
  | .variable name => IsName name
  | stopOver index => index < indexLimit
  | variableOver name => IsName name

def print : Opening → Text
  | stop index => '{' :: (printNat index ++ ['}'])
  | choice index first others =>
    '{' :: (printNat index ++ '|' :: (printOption first ++
      (others.flatMap (fun o => ',' :: printOption o) ++ ['|', '}'])))
  | .variable name => '{' :: (name ++ ['}'])
  | stopOver index => '{' :: (printNat index ++ [':'])
  | variableOver name => '{' :: (name ++ [':'])

end Opening

theorem isDigit_of_mem_printNat (n : Nat) : ∀ c ∈ printNat n, c.isDigit = true :=
  fun _ hc => Nat.isDigit_of_mem_toDigits (by decide) (by decide) hc

theorem numeral_printNat (n : Nat) : numeral (printNat n) = n :=
  Nat.ofDigitChars_toDigits (by decide) (by decide)

theorem index?_printNat {n : Nat} (small : n < indexLimit) {c : Char} (hc : c.isDigit = false)
    (rest : Text) : index? (printNat n ++ c :: rest) = some (n, c :: rest) := by
  have hread := index?_digits (isDigit_of_mem_printNat n) (by rwa [numeral_printNat]) hc rest
  rwa [numeral_printNat] at hread

theorem braced?_printNat (n : Nat) (rest : Text) :
    braced? (printNat n ++ rest) = match index? (printNat n ++ rest) with
      | some (index, '}' :: after) => some (.stop index, after)
      | some (index, ':' :: after) => some (.stopOver index, after)
      | some (index, '|' :: after) => choice? index after
      | _ => none :=
  braced?_digits (isDigit_of_mem_printNat n) Nat.toDigits_ne_nil rest

theorem braced?_name {name : Text} (h : IsName name) {c : Char} (hc : isNameChar c = false)
    (rest : Text) :
    braced? (name ++ c :: rest) = match c :: rest with
      | '}' :: after => some (.variable name, after)
      | ':' :: after => some (.variableOver name, after)
      | _ => none := by
  cases name with
  | nil => exact absurd h id
  | cons d name =>
    obtain ⟨hdigit, hall⟩ := h
    have hname := List.all_eq_true.mp hall
    have htake : ((d :: name) ++ c :: rest).takeWhile isNameChar = d :: name := by
      rw [List.takeWhile_append_of_pos hname, List.takeWhile_cons_of_neg (by simp [hc]),
        List.append_nil]
    have hdrop : ((d :: name) ++ c :: rest).dropWhile isNameChar = c :: rest := by
      rw [List.dropWhile_append_of_pos hname, List.dropWhile_cons_of_neg (by simp [hc])]
    have hd := hname d List.mem_cons_self
    have hbraced : braced? ((d :: name) ++ c :: rest) =
        match ((d :: name) ++ c :: rest).dropWhile isNameChar with
        | '}' :: after =>
          some (.variable (((d :: name) ++ c :: rest).takeWhile isNameChar), after)
        | ':' :: after =>
          some (.variableOver (((d :: name) ++ c :: rest).takeWhile isNameChar), after)
        | _ => none := by
      rw [List.cons_append, braced?]
      exact (if_neg (by simp [hdigit])).trans (if_pos hd)
    rw [htake, hdrop] at hbraced
    exact hbraced

variable {first after rest : Text} {others : List Text}

theorem options?_print_char (c : Char) (h : options? rest = some (first, others, after)) :
    options? (printOptionChar c ++ rest) = some (c :: first, others, after) := by
  by_cases escape : c = '\\' ∨ c = ',' ∨ c = '|'
  · have hprint : printOptionChar c = ['\\', c] := if_pos (by simpa [or_assoc] using escape)
    have hescape : isChoiceEscape c = true := by
      rcases escape with rfl | rfl | rfl
      · rfl
      · rfl
      · rfl
    rw [hprint]
    simp [options?, hescape, h, extendFirst]
  · obtain ⟨hslash, hcomma, hpipe⟩ : c ≠ '\\' ∧ c ≠ ',' ∧ c ≠ '|' := by simpa using escape
    have hprint : printOptionChar c = [c] := by simp [printOptionChar, hslash, hcomma, hpipe]
    rw [hprint]
    simp [options?, hslash, h, extendFirst]

theorem options?_print (option : Text) (h : options? rest = some (first, others, after)) :
    options? (printOption option ++ rest) = some (option ++ first, others, after) := by
  induction option with
  | nil => exact h
  | cons c option ih =>
    rw [printOption, List.flatMap_cons, List.append_assoc]
    exact options?_print_char c ih

theorem options?_others (others : List Text) (after : Text) :
    options? (others.flatMap (fun o => ',' :: printOption o) ++ '|' :: after) =
      some ([], others, after) := by
  induction others with
  | nil => rfl
  | cons o others ih =>
    rw [List.flatMap_cons, List.cons_append, List.cons_append, List.append_assoc, options?,
      options?_print o ih, List.append_nil]
    rfl

theorem opening?_print (opening : Opening) (h : opening.WellFormed) (rest : Text) :
    opening? true (opening.print ++ rest) = some (opening, rest) := by
  cases opening with
  | stop index =>
    rw [Opening.print, List.cons_append, List.append_assoc, opening?, if_pos rfl,
      braced?_printNat, List.singleton_append, index?_printNat h (by decide)]
    rfl
  | stopOver index =>
    rw [Opening.print, List.cons_append, List.append_assoc, opening?, if_pos rfl,
      braced?_printNat, List.singleton_append, index?_printNat h (by decide)]
    rfl
  | choice index first others =>
    obtain ⟨small, offered⟩ := h
    have hoptions := options?_print first (options?_others others ('}' :: rest))
    rw [List.append_nil] at hoptions
    have hchoice : choice? index (printOption first ++
        (others.flatMap (fun o => ',' :: printOption o) ++ '|' :: '}' :: rest)) =
        some (.choice index first others, rest) := by
      rw [choice?, hoptions]
      exact if_neg offered
    have hprint : (Opening.choice index first others).print ++ rest =
        '{' :: (printNat index ++ '|' :: (printOption first ++
          (others.flatMap (fun o => ',' :: printOption o) ++ '|' :: '}' :: rest))) := by
      simp [Opening.print]
    rw [hprint, opening?, if_pos rfl, braced?_printNat, index?_printNat small (by decide)]
    exact hchoice
  | «variable» name =>
    rw [Opening.print, List.cons_append, List.append_assoc, opening?, if_pos rfl,
      List.singleton_append, braced?_name h (by decide)]
    rfl
  | variableOver name =>
    rw [Opening.print, List.cons_append, List.append_assoc, opening?, if_pos rfl,
      List.singleton_append, braced?_name h (by decide)]
    rfl

variable {remembers : Nat → Bool} {depth : Nat} {nested : Bool}

theorem Reads.print_char (c : Char) {body : Body}
    (h : Reads remembers depth nested rest body after) :
    Reads remembers depth nested (printChar c ++ rest) (.char c body) after := by
  by_cases escape : c = '$' ∨ c = '\\' ∨ c = '}'
  · have hprint : printChar c = ['\\', c] := if_pos (by simpa [or_assoc] using escape)
    have hescape : isTextEscape c = true := by
      rcases escape with rfl | rfl | rfl
      · rfl
      · rfl
      · rfl
    rw [hprint]
    exact h.escaped hescape
  · obtain ⟨hdollar, hslash, hbrace⟩ : c ≠ '$' ∧ c ≠ '\\' ∧ c ≠ '}' := by simpa using escape
    have hprint : printChar c = [c] := by simp [printChar, hdollar, hslash, hbrace]
    rw [hprint]
    exact h.char ⟨hdollar, hslash, hbrace⟩

theorem Reads.print_closed (opening : Opening) (wellFormed : opening.WellFormed)
    (closed : opening.isOpen = false) (room : depth < maxDepth) {body : Body}
    (h : Reads remembers depth nested (body.print ++ rest) body after) :
    Reads remembers depth nested ((opening.close .done body).print ++ rest)
      (opening.close .done body) after := by
  have hprint : (opening.close .done body).print ++ rest =
      '$' :: (opening.print ++ (body.print ++ rest)) := by
    cases opening with
    | stopOver index => cases closed
    | variableOver name => cases closed
    | _ => simp [Opening.close, Body.print, Opening.print]
  rw [hprint]
  exact .closed room (opening?_print opening wellFormed _) closed h

/-- The default of a printed form ends at the brace behind it. -/
theorem Reads.print_over (opening : Opening) (wellFormed : opening.WellFormed)
    (isOpen : opening.isOpen = true) (room : depth < maxDepth) {fallback body : Body}
    (hfallback : ∀ after, Reads remembers (depth + 1) true (fallback.print ++ '}' :: after) fallback
      after)
    (h : Reads remembers depth nested (body.print ++ rest) body after) :
    Reads remembers depth nested ((opening.close fallback body).print ++ rest)
      (opening.close fallback body) after := by
  have hprint : (opening.close fallback body).print ++ rest =
      '$' :: (opening.print ++ (fallback.print ++ '}' :: (body.print ++ rest))) := by
    cases opening with
    | stopOver index => simp [Opening.close, Body.print, Opening.print]
    | variableOver name => simp [Opening.close, Body.print, Opening.print]
    | _ => cases isOpen
  rw [hprint]
  exact .over room (opening?_print opening wellFormed _) isOpen (hfallback _) h

/-- What is read behind a printed body is read behind the body. -/
theorem Reads.print {body : Body} (wellFormed : body.WellFormed)
    (room : depth + body.nesting ≤ maxDepth)
    (ends : Reads remembers depth nested rest .done after) :
    Reads remembers depth nested (body.print ++ rest) body after := by
  -- What ends the whole body ends the part behind a form, and a brace ends the default in it.
  induction body generalizing depth nested rest after with
  | done => exact ends
  | char c body ih =>
    rw [Body.print, List.append_assoc]
    exact (ih wellFormed room ends).print_char c
  | stop index body ih =>
    obtain ⟨small, wellFormed⟩ := wellFormed
    rw [nesting] at room
    exact .print_closed (.stop index) small rfl (by omega) (ih wellFormed (by omega) ends)
  | stopOver index fallback body ihFallback ih =>
    obtain ⟨small, wellFormed, wellFormed'⟩ := wellFormed
    rw [nesting] at room
    exact .print_over (.stopOver index) small rfl (by omega)
      (fun _ => ihFallback wellFormed (by omega) reads_brace) (ih wellFormed' (by omega) ends)
  | choice index first others body ih =>
    obtain ⟨small, offered, wellFormed⟩ := wellFormed
    rw [nesting] at room
    exact .print_closed (.choice index first others) ⟨small, offered⟩ rfl (by omega)
      (ih wellFormed (by omega) ends)
  | «variable» name body ih =>
    obtain ⟨hname, wellFormed⟩ := wellFormed
    rw [nesting] at room
    exact .print_closed (.variable name) hname rfl (by omega) (ih wellFormed (by omega) ends)
  | variableOver name fallback body ihFallback ih =>
    obtain ⟨hname, wellFormed, wellFormed'⟩ := wellFormed
    rw [nesting] at room
    exact .print_over (.variableOver name) hname rfl (by omega)
      (fun _ => ihFallback wellFormed (by omega) reads_brace) (ih wellFormed' (by omega) ends)

end Body

end Snippets
