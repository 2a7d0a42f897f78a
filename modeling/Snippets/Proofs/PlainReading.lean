import Snippets.Body.Reader

/-!
# Reading without memory

The grammar as it stands: one step of the reader for each thing that can stand at the front of the
input, what a step leaves to be read, and `form?`, the form that a dollar sign starts at a depth.
-/

namespace Snippets.Body

inductive Front where
  | finish
  | brace (rest : Text)
  | char (c : Char) (rest : Text)
  | dollar (rest : Text)

/-- A closing brace counts only inside a form. -/
def front (nested : Bool) : Text → Front
  | [] => .finish
  | '\\' :: rest =>
    match rest with
    | c :: after => if isTextEscape c then .char c after else .char '\\' rest
    | [] => .char '\\' rest
  | '$' :: rest => .dollar rest
  | c :: rest => if nested && c == '}' then .brace rest else .char c rest

variable {remembers : Nat → Bool} {fuel depth depth' : Nat} {nested : Bool} {failed : List Nat}
  {input rest inner : Text}

theorem readSequence_succ : readSequence remembers (fuel + 1) depth nested failed input =
    match front nested input with
    | .finish => (if nested then none else some (.done, []), failed)
    | .brace rest => (some (.done, rest), failed)
    | .char c rest => prepend (.char c) (readSequence remembers fuel depth nested failed rest)
    | .dollar rest =>
      let noted (failed : List Nat) := if remembers depth then rest.length :: failed else failed
      let literal (failed : List Nat) :=
        prepend (.char '$') (readSequence remembers fuel depth nested failed rest)
      if failed.contains rest.length then literal failed
      else
        match opening? (depth < maxDepth) rest with
        | none => literal (noted failed)
        | some (opening, inner) =>
          if opening.isOpen then
            match readSequence remembers fuel (depth + 1) true failed inner with
            | (some (fallback, after), failed) =>
              prepend (opening.close fallback)
                (readSequence remembers fuel depth nested failed after)
            | (none, failed) => literal (noted failed)
          else
            prepend (opening.close .done)
              (readSequence remembers fuel depth nested failed inner) := by
  cases input with
  | nil => rfl
  | cons c rest =>
    by_cases hslash : c = '\\'
    · subst hslash
      cases rest with
      | nil => simp only [readSequence, front]
      | cons c after =>
        simp only [readSequence, front]
        split
        · rfl
        · rfl
    · by_cases hdollar : c = '$'
      · subst hdollar
        rfl
      · have hfront : front nested (c :: rest) =
            if nested && c == '}' then .brace rest else .char c rest := by
          simp [front]
        rw [hfront]
        simp only [readSequence]
        split
        · rfl
        · rfl

def Behind (rest input : Text) : Prop := rest <:+ input ∧ rest.length < input.length

theorem Behind.cons {c : Char} (h : rest <:+ input) : Behind rest (c :: input) :=
  ⟨h.trans (List.suffix_cons c input), Nat.lt_succ_of_le h.length_le⟩

theorem front_char_behind {c : Char} (h : front nested input = .char c rest) :
    Behind rest input := by
  unfold front at h
  split at h
  · cases h
  · split at h
    · split at h
      · cases h
        exact .cons (List.suffix_cons _ _)
      · cases h
        exact .cons (List.suffix_refl _)
    · cases h
      exact .cons (List.suffix_refl _)
  · cases h
  · split at h
    · cases h
    · cases h
      exact .cons (List.suffix_refl _)

theorem front_brace {nested : Bool} (h : front nested input = .brace rest) :
    nested = true ∧ input = '}' :: rest := by
  unfold front at h
  split at h
  · cases h
  · split at h
    · split at h
      · cases h
      · cases h
    · cases h
  · cases h
  · split at h
    · rename_i hbrace
      cases h
      simpa using hbrace
    · cases h

theorem front_dollar : front nested input = .dollar rest ↔ input = '$' :: rest := by
  constructor
  · intro h
    unfold front at h
    split at h
    · cases h
    · split at h
      · split at h
        · cases h
        · cases h
      · cases h
    · cases h
      rfl
    · split at h
      · cases h
      · cases h
  · rintro rfl
    rfl

theorem options?_suffix {first after : Text} {others : List Text}
    (h : options? input = some (first, others, after)) : after <:+ input := by
  induction input using options?.induct generalizing first others with
  | case1 => cases h
  | case2 => cases h
  | case3 c rest escape ih =>
    rw [options?, if_pos escape] at h
    obtain ⟨⟨first, others, after⟩, hrest, heq⟩ := Option.map_eq_some_iff.mp h
    cases heq
    exact (ih hrest).trans ((List.suffix_cons _ _).trans (List.suffix_cons _ _))
  | case4 c rest escape ih =>
    rw [options?, if_neg escape] at h
    obtain ⟨⟨first, others, after⟩, hrest, heq⟩ := Option.map_eq_some_iff.mp h
    cases heq
    exact (ih hrest).trans (List.suffix_cons _ _)
  | case5 rest ih =>
    rw [options?] at h
    obtain ⟨⟨first, others, after⟩, hrest, heq⟩ := Option.map_eq_some_iff.mp h
    cases heq
    exact (ih hrest).trans (List.suffix_cons _ _)
  | case6 rest =>
    cases h
    exact List.suffix_cons _ _
  | case7 c rest hend hslash hcomma hpipe ih =>
    rw [options?] at h
    · obtain ⟨⟨first, others, after⟩, hrest, heq⟩ := Option.map_eq_some_iff.mp h
      cases heq
      exact (ih hrest).trans (List.suffix_cons _ _)
    all_goals assumption

theorem choice?_suffix {index : Nat} {opening : Opening} {after : Text}
    (h : choice? index input = some (opening, after)) : after <:+ input := by
  unfold choice? at h
  split at h
  · rename_i first others rest hoptions
    split at h
    · cases h
    · cases h
      exact (List.suffix_cons _ _).trans (options?_suffix hoptions)
  · cases h

theorem index?_suffix {index : Nat} {after : Text} (h : index? input = some (index, after)) :
    after <:+ input := by
  unfold index? at h
  dsimp only at h
  split at h
  · cases h
    exact List.dropWhile_suffix _
  · cases h

theorem braced?_suffix {opening : Opening} (h : braced? input = some (opening, inner)) :
    inner <:+ input := by
  unfold braced? at h
  split at h
  · cases h
  · rename_i c tail
    split at h
    · split at h
      · rename_i hindex
        cases h
        exact (List.suffix_cons _ _).trans (index?_suffix hindex)
      · rename_i hindex
        cases h
        exact (List.suffix_cons _ _).trans (index?_suffix hindex)
      · rename_i hindex
        exact (choice?_suffix h).trans ((List.suffix_cons _ _).trans (index?_suffix hindex))
      · cases h
    · split at h
      · have hname := List.dropWhile_suffix isNameChar (l := c :: tail)
        split at h
        · rename_i hdrop
          cases h
          rw [hdrop] at hname
          exact (List.suffix_cons _ _).trans hname
        · rename_i hdrop
          cases h
          rw [hdrop] at hname
          exact (List.suffix_cons _ _).trans hname
        · cases h
      · cases h

theorem opening?_suffix {braces : Bool} {opening : Opening}
    (h : opening? braces input = some (opening, inner)) : inner <:+ input := by
  unfold opening? at h
  split at h
  · cases h
  · split at h
    · exact (braced?_suffix h).trans (List.suffix_cons _ _)
    · cases h
  · split at h
    · obtain ⟨⟨index, after⟩, hindex, heq⟩ := Option.map_eq_some_iff.mp h
      cases heq
      exact index?_suffix hindex
    · split at h
      · cases h
        exact List.dropWhile_suffix _
      · cases h

/-- Without an opening brace the head of a form is the same at any depth. -/
theorem opening?_of_no_brace {braces : Bool} (bare : ∀ tail, rest ≠ '{' :: tail) :
    opening? braces rest = opening? true rest := by
  unfold opening?
  split
  · rfl
  · exact absurd rfl (bare _)
  · rfl

theorem isOpen_of_no_brace {braces : Bool} {opening : Opening} (bare : ∀ tail, rest ≠ '{' :: tail)
    (h : opening? braces rest = some (opening, inner)) : opening.isOpen = false := by
  unfold opening? at h
  split at h
  · cases h
  · exact absurd rfl (bare _)
  · split at h
    · obtain ⟨⟨index, after⟩, _, heq⟩ := Option.map_eq_some_iff.mp h
      cases heq
      rfl
    · split at h
      · cases h
        rfl
      · cases h

/-! ## Reading without memory -/

def plainly (depth : Nat) (nested : Bool) (input : Text) : Option (Body × Text) :=
  (readSequence (fun _ => false) (input.length + 1) depth nested [] input).1

def form? (depth : Nat) (rest : Text) : Option ((Body → Body) × Text) :=
  match opening? (depth < maxDepth) rest with
  | none => none
  | some (opening, inner) =>
    if opening.isOpen then
      (plainly (depth + 1) true inner).map fun (fallback, after) => (opening.close fallback, after)
    else some (opening.close .done, inner)

def place (piece : Body → Body) (read : Body × Text) : Body × Text := (piece read.1, read.2)

theorem readSequence_suffix {body : Body} {after : Text}
    (h : (readSequence remembers fuel depth nested failed input).1 = some (body, after)) :
    after <:+ input := by
  induction fuel generalizing depth nested failed input body after with
  | zero => cases h
  | succ fuel ih =>
    have behind {piece : Body → Body} {depth : Nat} {nested : Bool} {failed : List Nat} {mid : Text}
        (h : (prepend piece (readSequence remembers fuel depth nested failed mid)).1 =
          some (body, after)) : after <:+ mid := by
      obtain ⟨⟨body, after⟩, hread, heq⟩ := Option.map_eq_some_iff.mp h
      cases heq
      exact ih hread
    rw [readSequence_succ] at h
    cases hfront : front nested input with
    | finish =>
      rw [hfront] at h
      cases nested with
      | false =>
        cases h
        exact List.nil_suffix
      | true => cases h
    | brace rest =>
      rw [hfront] at h
      cases h
      rw [(front_brace hfront).2]
      exact List.suffix_cons _ _
    | char c rest =>
      rw [hfront] at h
      exact (behind h).trans (front_char_behind hfront).1
    | dollar rest =>
      have hrest : rest <:+ input := by
        rw [front_dollar.mp hfront]
        exact List.suffix_cons _ _
      rw [hfront] at h
      dsimp only at h
      split at h
      · exact (behind h).trans hrest
      · split at h
        · exact (behind h).trans hrest
        · rename_i hopening
          have hinner := (opening?_suffix hopening).trans hrest
          split at h
          · split at h
            · rename_i hread
              exact ((behind h).trans (ih (congrArg Prod.fst hread))).trans hinner
            · exact (behind h).trans hrest
          · exact (behind h).trans hinner

/-- Without memory nothing is remembered, and enough fuel is enough. -/
theorem readSequence_fuel (depth : Nat) (nested : Bool) {fuel' : Nat} (h : input.length < fuel)
    (h' : input.length < fuel') :
    readSequence (fun _ => false) fuel depth nested [] input =
        readSequence (fun _ => false) fuel' depth nested [] input ∧
      (readSequence (fun _ => false) fuel' depth nested [] input).2 = [] := by
  induction fuel generalizing fuel' depth nested input with
  | zero => omega
  | succ fuel ih =>
    obtain ⟨fuel', rfl⟩ := Nat.exists_eq_succ_of_ne_zero (Nat.ne_of_gt (Nat.zero_lt_of_lt h'))
    have tail (depth : Nat) (nested : Bool) {mid : Text} (hmid : mid.length < input.length) :=
      @ih mid depth nested fuel' (by omega) (by omega)
    rw [readSequence_succ, readSequence_succ]
    cases hfront : front nested input with
    | finish => exact ⟨rfl, rfl⟩
    | brace rest => exact ⟨rfl, rfl⟩
    | char c rest =>
      obtain ⟨heq, hnil⟩ := tail depth nested (front_char_behind hfront).2
      dsimp only
      rw [heq]
      exact ⟨rfl, hnil⟩
    | dollar rest =>
      have hlt : rest.length < input.length := by
        rw [front_dollar.mp hfront]
        exact Nat.lt_succ_self _
      obtain ⟨heq, hnil⟩ := tail depth nested hlt
      simp only [List.contains_nil, Bool.false_eq_true, if_false]
      cases hopening : opening? (depth < maxDepth) rest with
      | none =>
        dsimp only
        rw [heq]
        exact ⟨rfl, hnil⟩
      | some head =>
        obtain ⟨opening, inner⟩ := head
        have hinner := Nat.lt_of_le_of_lt (opening?_suffix hopening).length_le hlt
        dsimp only
        split
        · obtain ⟨heqInner, hnilInner⟩ := tail (depth + 1) true hinner
          rw [heqInner]
          split
          · rename_i after failed hread
            cases hnilInner.symm.trans (congrArg Prod.snd hread)
            have hafter := (readSequence_suffix (congrArg Prod.fst hread)).length_le
            obtain ⟨heqAfter, hnilAfter⟩ := tail depth nested (Nat.lt_of_le_of_lt hafter hinner)
            rw [heqAfter]
            exact ⟨rfl, hnilAfter⟩
          · rename_i failed hread
            cases hnilInner.symm.trans (congrArg Prod.snd hread)
            rw [heq]
            exact ⟨rfl, hnil⟩
        · obtain ⟨heqInner, hnilInner⟩ := tail depth nested hinner
          rw [heqInner]
          exact ⟨rfl, hnilInner⟩

theorem readSequence_plainly (h : input.length < fuel) :
    readSequence (fun _ => false) fuel depth nested [] input =
      (plainly depth nested input, []) := by
  obtain ⟨heq, hnil⟩ := readSequence_fuel depth nested h (Nat.lt_succ_self input.length)
  exact heq.trans (Prod.ext rfl hnil)

theorem readWith_eq (t : Text) : readWith remembers t =
    ((readSequence remembers (t.length + 1) 0 false [] t).1.map Prod.fst).getD .done := by
  unfold readWith
  split
  · rename_i hread
    rw [hread]
    rfl
  · rename_i hread
    rw [hread]
    rfl

theorem plainly_eq (depth : Nat) (nested : Bool) (input : Text) : plainly depth nested input =
    match front nested input with
    | .finish => if nested then none else some (.done, [])
    | .brace rest => some (.done, rest)
    | .char c rest => (plainly depth nested rest).map (place (.char c))
    | .dollar rest =>
      match form? depth rest with
      | none => (plainly depth nested rest).map (place (.char '$'))
      | some (piece, after) => (plainly depth nested after).map (place piece) := by
  rw [plainly, readSequence_succ]
  cases hfront : front nested input with
  | finish => rfl
  | brace rest => rfl
  | char c rest =>
    dsimp only
    rw [readSequence_plainly (front_char_behind hfront).2]
    rfl
  | dollar rest =>
    have hlt : rest.length < input.length := by
      rw [front_dollar.mp hfront]
      exact Nat.lt_succ_self _
    simp only [List.contains_nil, Bool.false_eq_true, if_false, form?]
    rw [readSequence_plainly hlt]
    cases hopening : opening? (depth < maxDepth) rest with
    | none => rfl
    | some head =>
      obtain ⟨opening, inner⟩ := head
      have hinner := Nat.lt_of_le_of_lt (opening?_suffix hopening).length_le hlt
      dsimp only
      rw [readSequence_plainly hinner, readSequence_plainly hinner]
      split
      · cases hread : plainly (depth + 1) true inner with
        | none =>
          dsimp only [Option.map_none]
          rw [readSequence_plainly hlt]
          rfl
        | some read =>
          obtain ⟨fallback, after⟩ := read
          have hafter := (readSequence_suffix hread).length_le
          dsimp only [Option.map_some]
          rw [readSequence_plainly (Nat.lt_of_le_of_lt hafter hinner)]
          rfl
      · rfl

theorem form?_suffix {piece : Body → Body} {after : Text}
    (h : form? depth rest = some (piece, after)) : after <:+ rest := by
  unfold form? at h
  split at h
  · cases h
  · rename_i opening inner hopening
    split at h
    · obtain ⟨⟨fallback, after⟩, hread, heq⟩ := Option.map_eq_some_iff.mp h
      cases heq
      exact (readSequence_suffix hread).trans (opening?_suffix hopening)
    · cases h
      exact opening?_suffix hopening

/-- What fails above the deepest level fails at the deepest one. -/
theorem form?_deepest (h : form? depth rest = none) (deepest : ¬ depth' < maxDepth) :
    form? depth' rest = none := by
  unfold form? at h ⊢
  cases rest with
  | nil => rfl
  | cons c tail =>
    by_cases hbrace : c = '{'
    · subst hbrace
      simp [opening?, deepest]
    · have bare : ∀ tail', c :: tail ≠ '{' :: tail' := fun _ heq => hbrace (List.cons.inj heq).1
      rw [opening?_of_no_brace bare] at h ⊢
      cases hopening : opening? true (c :: tail) with
      | none => rfl
      | some head =>
        have closed := isOpen_of_no_brace bare hopening
        rw [hopening] at h
        simp [closed] at h

/-- The form behind a dollar sign is the same at two depths if its head is and its default is. -/
theorem form?_congr (heads : opening? (depth < maxDepth) rest = opening? (depth' < maxDepth) rest)
    (defaults : ∀ opening inner, opening? (depth < maxDepth) rest = some (opening, inner) →
      opening.isOpen = true → plainly (depth + 1) true inner = plainly (depth' + 1) true inner) :
    form? depth rest = form? depth' rest := by
  unfold form?
  rw [← heads]
  cases hopening : opening? (depth < maxDepth) rest with
  | none => rfl
  | some head =>
    obtain ⟨opening, inner⟩ := head
    dsimp only
    by_cases isOpen : opening.isOpen = true
    · rw [if_pos isOpen, if_pos isOpen, defaults opening inner hopening isOpen]
    · rw [if_neg isOpen, if_neg isOpen]

end Snippets.Body
