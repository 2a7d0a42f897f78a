import Snippets.Body.Reader

/-!
# Steps of the reader

What the reader does with the piece in front of its input. Where every dollar sign starts a form the
reader fails nowhere and remembers nothing, so the steps hold for a reader with any memory.
-/

namespace Snippets.Body

/-- With enough fuel the reader takes a body off the front of the input and fails nowhere. -/
def Reads (remembers : Nat → Bool) (depth : Nat) (nested : Bool) (input : Text) (body : Body)
    (after : Text) : Prop :=
  ∀ fuel, input.length < fuel →
    readSequence remembers fuel depth nested [] input = (some (body, after), [])

variable {remembers : Nat → Bool} {depth : Nat} {nested : Bool} {rest after : Text} {body : Body}

theorem reads_nil : Reads remembers depth false [] .done [] := by
  intro fuel hfuel
  obtain ⟨fuel, rfl⟩ := Nat.exists_eq_succ_of_ne_zero (Nat.ne_of_gt hfuel)
  simp [readSequence]

theorem reads_brace : Reads remembers depth true ('}' :: after) .done after := by
  intro fuel hfuel
  obtain ⟨fuel, rfl⟩ := Nat.exists_eq_succ_of_ne_zero (Nat.ne_of_gt (Nat.zero_lt_of_lt hfuel))
  simp [readSequence]

/-- A character without a meaning of its own is read as it stands. -/
theorem Reads.char {c : Char} (plain : c ≠ '$' ∧ c ≠ '\\' ∧ c ≠ '}')
    (h : Reads remembers depth nested rest body after) :
    Reads remembers depth nested (c :: rest) (.char c body) after := by
  intro fuel hfuel
  obtain ⟨fuel, rfl⟩ := Nat.exists_eq_succ_of_ne_zero (Nat.ne_of_gt (Nat.zero_lt_of_lt hfuel))
  have hstep : readSequence remembers (fuel + 1) depth nested [] (c :: rest) =
      prepend (.char c) (readSequence remembers fuel depth nested [] rest) := by
    simp [readSequence, plain]
  rw [hstep, h fuel (Nat.lt_of_succ_lt_succ hfuel)]
  rfl

/-- A backslash takes the meaning away from the character behind it. -/
theorem Reads.escaped {c : Char} (escape : isTextEscape c = true)
    (h : Reads remembers depth nested rest body after) :
    Reads remembers depth nested ('\\' :: c :: rest) (.char c body) after := by
  intro fuel hfuel
  obtain ⟨fuel, rfl⟩ := Nat.exists_eq_succ_of_ne_zero (Nat.ne_of_gt (Nat.zero_lt_of_lt hfuel))
  have hstep : readSequence remembers (fuel + 1) depth nested [] ('\\' :: c :: rest) =
      prepend (.char c) (readSequence remembers fuel depth nested [] rest) := by
    simp [readSequence, escape]
  rw [hstep, h fuel (by simp only [List.length_cons] at hfuel; omega)]
  rfl

section

variable {head inner : Text} {opening : Opening} (room : depth < maxDepth)

include room

theorem Reads.closed (hopen : opening? true (head ++ inner) = some (opening, inner))
    (closed : opening.isOpen = false) (h : Reads remembers depth nested inner body after) :
    Reads remembers depth nested ('$' :: (head ++ inner)) (opening.close .done body) after := by
  intro fuel hfuel
  obtain ⟨fuel, rfl⟩ := Nat.exists_eq_succ_of_ne_zero (Nat.ne_of_gt (Nat.zero_lt_of_lt hfuel))
  have hstep : readSequence remembers (fuel + 1) depth nested [] ('$' :: (head ++ inner)) =
      prepend (opening.close .done) (readSequence remembers fuel depth nested [] inner) := by
    simp [readSequence, room, hopen, closed]
  rw [hstep, h fuel (by simp only [List.length_cons, List.length_append] at hfuel; omega)]
  rfl

/-- The default of a form is read one level deeper, up to the brace behind it. -/
theorem Reads.over {fallback : Body}
    (hopen : opening? true (head ++ (inner ++ '}' :: rest)) = some (opening, inner ++ '}' :: rest))
    (isOpen : opening.isOpen = true)
    (hinner : Reads remembers (depth + 1) true (inner ++ '}' :: rest) fallback rest)
    (h : Reads remembers depth nested rest body after) :
    Reads remembers depth nested ('$' :: (head ++ (inner ++ '}' :: rest)))
      (opening.close fallback body) after := by
  intro fuel hfuel
  obtain ⟨fuel, rfl⟩ := Nat.exists_eq_succ_of_ne_zero (Nat.ne_of_gt (Nat.zero_lt_of_lt hfuel))
  simp only [List.length_cons, List.length_append] at hfuel
  have hfallback := hinner fuel (by simp only [List.length_cons, List.length_append]; omega)
  have hstep : readSequence remembers (fuel + 1) depth nested []
      ('$' :: (head ++ (inner ++ '}' :: rest))) =
      prepend (opening.close fallback) (readSequence remembers fuel depth nested [] rest) := by
    simp [readSequence, room, hopen, isOpen, hfallback]
  rw [hstep, h fuel (by omega)]
  rfl

end

theorem Reads.readWith {t : Text} (h : Reads remembers 0 false t body []) :
    readWith remembers t = body := by
  rw [Body.readWith, h _ (Nat.lt_succ_self _)]

section

variable {digits : Text} (digit : ∀ c ∈ digits, c.isDigit = true)

include digit

theorem index?_digits (small : numeral digits < indexLimit) {c : Char} (hc : c.isDigit = false)
    (rest : Text) : index? (digits ++ c :: rest) = some (numeral digits, c :: rest) := by
  have htake : (digits ++ c :: rest).takeWhile Char.isDigit = digits := by
    rw [List.takeWhile_append_of_pos digit, List.takeWhile_cons_of_neg (by simp [hc]),
      List.append_nil]
  have hdrop : (digits ++ c :: rest).dropWhile Char.isDigit = c :: rest := by
    rw [List.dropWhile_append_of_pos digit, List.dropWhile_cons_of_neg (by simp [hc])]
  rw [index?, htake, hdrop]
  exact if_pos small

theorem braced?_digits (written : digits ≠ []) (rest : Text) :
    braced? (digits ++ rest) = match index? (digits ++ rest) with
      | some (index, '}' :: after) => some (.stop index, after)
      | some (index, ':' :: after) => some (.stopOver index, after)
      | some (index, '|' :: after) => choice? index after
      | _ => none := by
  cases digits with
  | nil => exact absurd rfl written
  | cons c digits =>
    have hc := digit c List.mem_cons_self
    rw [List.cons_append, braced?]
    exact if_pos hc

end

end Snippets.Body
