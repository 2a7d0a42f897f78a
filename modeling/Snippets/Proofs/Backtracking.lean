import Snippets.Proofs.PlainReading
import Snippets.Template.Rendering

/-!
# Backtracking

The reader remembers where forms failed and does not try them again. Main statement: where no dollar
sign is tried at two depths with different outcomes, this makes no difference to trying every form
again wherever it is met. The outcomes agree as long as no brace is met that may not nest any more,
so in every body with 32 opening braces or fewer. A body with more of them can be misread.
-/

namespace Snippets

namespace Body

variable {remembers : Nat → Bool} {fuel depth depth' : Nat} {nested : Bool} {failed : List Nat}
  {input rest inner : Text}

/-! ## Places that the reader meets -/

/-- Reading a body without memory comes to a place of it, at a depth and inside a form or not. What
is read before a form fails is met too. -/
inductive Meets (t : Text) : Nat → Bool → Text → Prop where
  | start : Meets t 0 false t
  | char {depth : Nat} {nested : Bool} {input rest : Text} {c : Char} :
    Meets t depth nested input → front nested input = .char c rest → Meets t depth nested rest
  | inside {depth : Nat} {nested : Bool} {rest inner : Text} {opening : Opening} :
    Meets t depth nested ('$' :: rest) → opening? (depth < maxDepth) rest = some (opening, inner) →
    opening.isOpen = true → Meets t (depth + 1) true inner
  | behind {depth : Nat} {nested : Bool} {rest after : Text} {piece : Body → Body} :
    Meets t depth nested ('$' :: rest) → form? depth rest = some (piece, after) →
    Meets t depth nested after
  | past {depth : Nat} {nested : Bool} {rest : Text} :
    Meets t depth nested ('$' :: rest) → form? depth rest = none → Meets t depth nested rest

theorem Meets.suffix {t : Text} (h : Meets t depth nested input) : input <:+ t := by
  induction h with
  | start => exact List.suffix_refl t
  | char _ hfront ih => exact (front_char_behind hfront).1.trans ih
  | inside _ hopening _ ih =>
    exact ((opening?_suffix hopening).trans (List.suffix_cons _ _)).trans ih
  | behind _ hform ih => exact ((form?_suffix hform).trans (List.suffix_cons _ _)).trans ih
  | past _ _ ih => exact (List.suffix_cons _ _).trans ih

/-- The text behind a dollar sign at which the reader tries for a form. -/
def Tries (t : Text) (depth : Nat) (rest : Text) : Prop :=
  ∃ nested, Meets t depth nested ('$' :: rest)

/-- A dollar sign that starts no form where the reader tries it at one depth starts none where it is
tried at another, as long as braces may nest at both. -/
def Steady (t : Text) : Prop :=
  ∀ depth depth' rest, depth < maxDepth → depth' < maxDepth → Tries t depth rest →
    Tries t depth' rest → form? depth rest = none → form? depth' rest = none

/-- A place behind a dollar sign, named by what is left there, that started no form when tried. -/
def Forgone (t : Text) (left : Nat) : Prop :=
  ∃ depth rest, depth < maxDepth ∧ Tries t depth rest ∧ form? depth rest = none ∧ rest.length = left

theorem forgone_noted {t : Text} {left : Nat} {remembered : Bool}
    (known : ∀ left ∈ failed, Forgone t left) (new : remembered = true → Forgone t left) :
    ∀ l ∈ if remembered then left :: failed else failed, Forgone t l := by
  cases remembered with
  | false => exact known
  | true => exact List.forall_mem_cons.mpr ⟨new rfl, known⟩

theorem Steady.form?_eq_none {t : Text} (steady : Steady t) (h : Forgone t rest.length)
    (tries : Tries t depth rest) : form? depth rest = none := by
  obtain ⟨depth', rest', room, tries', hnone, hlength⟩ := h
  have hsame : rest' = rest := by
    obtain ⟨_, hmeets⟩ := tries
    obtain ⟨_, hmeets'⟩ := tries'
    have hsuffix := (List.suffix_cons _ _).trans hmeets.suffix
    have hsuffix' := (List.suffix_cons _ _).trans hmeets'.suffix
    exact (List.suffix_of_suffix_length_le hsuffix' hsuffix (Nat.le_of_eq hlength)).eq_of_length
      hlength
  subst hsame
  by_cases hdepth : depth < maxDepth
  · exact steady _ _ _ room hdepth tries' tries hnone
  · exact form?_deepest hnone hdepth

/-! ## Reading with memory -/

structure Agrees (t : Text) (expected : Option (Body × Text))
    (result : Option (Body × Text) × List Nat) : Prop where
  same : result.1 = expected
  forgone : ∀ left ∈ result.2, Forgone t left

theorem Agrees.prepend {t : Text} {expected : Option (Body × Text)}
    {result : Option (Body × Text) × List Nat} (h : Agrees t expected result)
    (piece : Body → Body) : Agrees t (expected.map (place piece)) (prepend piece result) := by
  refine ⟨?_, h.forgone⟩
  rw [← h.same]
  rfl

theorem Steady.agrees {t : Text} (steady : Steady t)
    (bounded : ∀ depth, remembers depth = true → depth < maxDepth) (enough : input.length < fuel)
    (meets : Meets t depth nested input) (known : ∀ left ∈ failed, Forgone t left) :
    Agrees t (plainly depth nested input)
      (readSequence remembers fuel depth nested failed input) := by
  induction fuel generalizing depth nested failed input with
  | zero => omega
  | succ fuel ih =>
    rw [readSequence_succ, plainly_eq]
    cases hfront : front nested input with
    | finish => exact ⟨rfl, known⟩
    | brace rest => exact ⟨rfl, known⟩
    | char c rest =>
      have hlt := (front_char_behind hfront).2
      exact (ih (by omega) (meets.char hfront) known).prepend _
    | dollar rest =>
      obtain rfl := front_dollar.mp hfront
      rw [List.length_cons] at enough
      have noted {failed : List Nat} (known : ∀ left ∈ failed, Forgone t left)
          (hform : form? depth rest = none) :
          ∀ left ∈ if remembers depth then rest.length :: failed else failed, Forgone t left :=
        forgone_noted known fun hdepth =>
          ⟨depth, rest, bounded depth hdepth, ⟨nested, meets⟩, hform, rfl⟩
      have literal {failed : List Nat} (known : ∀ left ∈ failed, Forgone t left)
          (hform : form? depth rest = none) :
          Agrees t ((plainly depth nested rest).map (place (.char '$')))
            (Body.prepend (.char '$') (readSequence remembers fuel depth nested failed rest)) :=
        (ih (by omega) (meets.past hform) known).prepend _
      dsimp only
      by_cases hknown : failed.contains rest.length = true
      · have hform : form? depth rest = none :=
          steady.form?_eq_none (known _ (by simpa using hknown)) ⟨nested, meets⟩
        rw [if_pos hknown, hform]
        exact literal known hform
      · rw [if_neg hknown]
        cases hopening : opening? (depth < maxDepth) rest with
        | none =>
          have hform : form? depth rest = none := by rw [form?, hopening]
          rw [hform]
          exact literal (noted known hform) hform
        | some head =>
          obtain ⟨opening, inner⟩ := head
          have hinner := (opening?_suffix hopening).length_le
          dsimp only
          by_cases isOpen : opening.isOpen = true
          · obtain ⟨same, forgone⟩ :=
              @ih (depth + 1) true failed inner (by omega) (meets.inside hopening isOpen) known
            rw [if_pos isOpen]
            generalize readSequence remembers fuel (depth + 1) true failed inner = result
              at same forgone ⊢
            obtain ⟨read, failed⟩ := result
            dsimp only at same forgone
            subst same
            cases hread : plainly (depth + 1) true inner with
            | none =>
              have hform : form? depth rest = none := by simp [form?, hopening, isOpen, hread]
              rw [hform]
              exact literal (noted forgone hform) hform
            | some read =>
              obtain ⟨fallback, after⟩ := read
              have hform : form? depth rest = some (opening.close fallback, after) := by
                simp [form?, hopening, isOpen, hread]
              have hafter := (form?_suffix hform).length_le
              rw [hform]
              exact (ih (by omega) (meets.behind hform) forgone).prepend _
          · have hform : form? depth rest = some (opening.close .done, inner) := by
              simp [form?, hopening, isOpen]
            rw [if_neg isOpen, hform]
            exact (ih (by omega) (meets.behind hform) known).prepend _

theorem Steady.read_eq {t : Text} (steady : Steady t) : read t = readPlainly t := by
  have hnone : ∀ left ∈ ([] : List Nat), Forgone t left := fun _ hleft => nomatch hleft
  have hread : (readSequence (· < maxDepth) (t.length + 1) 0 false [] t).1 = plainly 0 false t :=
    (steady.agrees (fun _ hdepth => by simpa using hdepth) (Nat.lt_succ_self t.length) .start
      hnone).same
  rw [read, readPlainly, readWith_eq, readWith_eq, hread]
  rfl

/-! ## Bodies that are read as their forms stand -/

/-- The reader without memory never meets an opening brace that may not nest any more. -/
def Shallow (t : Text) : Prop :=
  ∀ depth nested rest, Meets t depth nested ('$' :: '{' :: rest) → depth < maxDepth

theorem Shallow.opening?_eq {t : Text} {nested nested' : Bool} (shallow : Shallow t)
    (meets : Meets t depth nested ('$' :: rest)) (meets' : Meets t depth' nested' ('$' :: rest)) :
    opening? (depth < maxDepth) rest = opening? (depth' < maxDepth) rest := by
  by_cases hbrace : ∃ tail, rest = '{' :: tail
  · obtain ⟨tail, rfl⟩ := hbrace
    simp [shallow _ _ _ meets, shallow _ _ _ meets']
  · have bare : ∀ tail, rest ≠ '{' :: tail := fun tail heq => hbrace ⟨tail, heq⟩
    exact (opening?_of_no_brace bare).trans (opening?_of_no_brace bare).symm

/-- Where no brace is too deep, a place is read alike at all depths at which it is met. -/
theorem Shallow.plainly_eq {t : Text} (shallow : Shallow t) (meets : Meets t depth nested input)
    (meets' : Meets t depth' nested input) :
    plainly depth nested input = plainly depth' nested input := by
  induction hlength : input.length using Nat.strongRecOn
    generalizing depth depth' nested input with
  | _ length ih =>
    subst hlength
    rw [Body.plainly_eq depth, Body.plainly_eq depth']
    cases hfront : front nested input with
    | finish => rfl
    | brace rest => rfl
    | char c rest =>
      dsimp only
      rw [ih _ (front_char_behind hfront).2 (meets.char hfront) (meets'.char hfront) rfl]
    | dollar rest =>
      obtain rfl := front_dollar.mp hfront
      have heads := shallow.opening?_eq meets meets'
      have hform : form? depth rest = form? depth' rest := by
        refine form?_congr heads fun opening inner hopening isOpen => ?_
        have hinner := (opening?_suffix hopening).length_le
        exact ih _ (Nat.lt_succ_of_le hinner) (meets.inside hopening isOpen)
          (meets'.inside (heads ▸ hopening) isOpen) rfl
      dsimp only
      rw [← hform]
      cases hread : form? depth rest with
      | none =>
        dsimp only
        rw [ih _ (Nat.lt_succ_self _) (meets.past hread) (meets'.past (hform ▸ hread)) rfl]
      | some read =>
        obtain ⟨piece, after⟩ := read
        have hafter := (form?_suffix hread).length_le
        dsimp only
        rw [ih _ (Nat.lt_succ_of_le hafter) (meets.behind hread)
          (meets'.behind (hform ▸ hread)) rfl]

theorem Shallow.steady {t : Text} (shallow : Shallow t) : Steady t := by
  rintro depth depth' rest _ _ ⟨nested, meets⟩ ⟨nested', meets'⟩ hnone
  have heads := shallow.opening?_eq meets meets'
  rw [← hnone]
  refine (form?_congr heads fun opening inner hopening isOpen => ?_).symm
  exact shallow.plainly_eq (meets.inside hopening isOpen) (meets'.inside (heads ▸ hopening) isOpen)

def braces : Text → Nat
  | '$' :: '{' :: rest => braces rest + 1
  | _ :: rest => braces rest
  | [] => 0

theorem braces_le_cons (c : Char) (t : Text) : braces t ≤ braces (c :: t) := by
  by_cases hopens : c = '$' ∧ ∃ tail, t = '{' :: tail
  · obtain ⟨rfl, tail, rfl⟩ := hopens
    simp [braces]
  · have hskip : braces (c :: t) = braces t := by
      rw [braces]
      rintro tail rfl rfl
      exact hopens ⟨rfl, tail, rfl⟩
    exact Nat.le_of_eq hskip.symm

theorem braces_le_of_suffix {s t : Text} (h : s <:+ t) : braces s ≤ braces t := by
  obtain ⟨front, rfl⟩ := h
  induction front with
  | nil => exact Nat.le_refl _
  | cons c front ih => exact Nat.le_trans ih (braces_le_cons c _)

/-- Every form that is open has its brace behind the place that is met. -/
theorem Meets.depth_le {t : Text} (meets : Meets t depth nested input) :
    depth + braces input ≤ braces t := by
  induction meets with
  | start => omega
  | char _ hfront ih =>
    have := braces_le_of_suffix (front_char_behind hfront).1
    omega
  | @inside depth nested rest inner opening _ hopening isOpen ih =>
    by_cases hbrace : ∃ tail, rest = '{' :: tail
    · obtain ⟨tail, rfl⟩ := hbrace
      have hinner : inner <:+ tail := by
        by_cases room : depth < maxDepth
        · exact braced?_suffix (by simpa [opening?, room] using hopening)
        · simp [opening?, room] at hopening
      have := braces_le_of_suffix hinner
      rw [braces] at ih
      omega
    · have bare : ∀ tail, rest ≠ '{' :: tail := fun tail heq => hbrace ⟨tail, heq⟩
      rw [isOpen_of_no_brace bare hopening] at isOpen
      cases isOpen
  | behind _ hform ih =>
    have := braces_le_of_suffix ((form?_suffix hform).trans (List.suffix_cons '$' _))
    omega
  | past _ _ ih =>
    have := braces_le_cons '$' ‹_›
    omega

theorem shallow_of_braces {t : Text} (few : braces t ≤ maxDepth) : Shallow t := by
  intro depth nested rest meets
  have := meets.depth_le
  rw [braces] at this
  omega

end Body

/-- A template is the same when the forms that failed are tried again wherever they are met. -/
theorem Template.instantiate_steady {body : Text} (steady : Body.Steady body) (resolve : Resolver)
    (indent : Text) :
    instantiate body resolve indent =
      .ofRendering ((Body.readPlainly body).render resolve indent 0) := by
  rw [instantiate, steady.read_eq]

def endlessBody : Text := (List.replicate 32 ['$', '{', '1', ':']).flatten

theorem endlessBody_instantiated : Body.Steady endlessBody ∧
    Template.instantiate endlessBody (fun _ => none) "  ".toList =
      .ofRendering ((Body.readPlainly endlessBody).render (fun _ => none) "  ".toList 0) := by
  have steady : Body.Steady endlessBody := (Body.shallow_of_braces (by decide)).steady
  exact ⟨steady, Template.instantiate_steady steady _ _⟩

/-- At the deepest level the choice behind the first 32 braces is plain text, and its braces close
all forms but the first. The form behind it is then met at depth 1, where it has no end, and again
at depth 31, where its own choice is plain text and ends it. -/
def slippedBody : Text :=
  (List.replicate 32 ['$', '{', '1', ':']).flatten ++ ['$', '{', '1', '|'] ++
    List.replicate 30 '}' ++ ['|', '}', '$', '{', '1', ':', '$', '{', '1', '|'] ++
    List.replicate 31 '}' ++ ['|', '}']

theorem slippedBody_misread : Template.parse slippedBody ≠
    .ofRendering ((Body.readPlainly slippedBody).render (fun _ => none) [] 0) := by
  decide +kernel

end Snippets
