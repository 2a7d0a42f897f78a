import Snippets.Proofs.Layouts
import Snippets.Proofs.Reading
import Snippets.Template.Rendering

/-!
# Forms

A form is a flat body: literal texts and numbered holes, some of them with a plain default. Reading
its source gives it back, whatever it is made of.
-/

namespace Snippets

/-- Text in which nothing starts or ends a form. -/
def Text.Plain (t : Text) : Prop := ∀ c ∈ t, c ≠ '$' ∧ c ≠ '\\' ∧ c ≠ '}'

instance (t : Text) : Decidable t.Plain := List.decidableBAll _ t

structure Hole where
  digits : Text
  fallback : Option Text
  gap : Text

namespace Hole

def index (h : Hole) : Nat := numeral h.digits

def fallbackSource (h : Hole) : Text :=
  match h.fallback with
  | none => []
  | some t => ':' :: t

def source (h : Hole) : Text := '$' :: '{' :: (h.digits ++ (h.fallbackSource ++ '}' :: h.gap))

def field (h : Hole) : Field := ⟨h.index, h.fallback.getD [], h.gap⟩

structure Sound (h : Hole) : Prop where
  written : h.digits ≠ []
  digits : h.digits.all Char.isDigit
  small : h.index < Body.indexLimit
  fallback : ∀ t ∈ h.fallback, t.Plain
  gap : h.gap.Plain

end Hole

def Row.marks : Nat → Row → List TabStop
  | _, [] => []
  | offset, f :: rest =>
    { index := f.index, span := f.span offset } :: marks (offset + f.width) rest

structure Form where
  lead : Text
  holes : List Hole

namespace Form

def source (f : Form) : Text := f.lead ++ f.holes.flatMap Hole.source

def row (f : Form) : Row := f.holes.map Hole.field

def filled (f : Form) (typed : Nat → Text) : Text :=
  f.lead ++ f.holes.flatMap fun h => typed h.index ++ h.gap

/-- Literal text stands between any two holes, and no hole is an exit. -/
structure Sound (f : Form) : Prop where
  lead : f.lead.Plain
  holes : ∀ h ∈ f.holes, h.Sound
  spaced : f.row.Spaced

end Form

namespace Body

def chars (t : Text) (rest : Body) : Body := t.foldr .char rest

def ofHoles : List Hole → Body
  | [] => .done
  | h :: rest =>
    match h.fallback with
    | none => .stop h.index (chars h.gap (ofHoles rest))
    | some t => .stopOver h.index (chars t .done) (chars h.gap (ofHoles rest))

def ofForm (f : Form) : Body := chars f.lead (ofHoles f.holes)

variable {remembers : Nat → Bool}

theorem Reads.chars {t : Text} (plain : t.Plain) {depth : Nat} {nested : Bool} {rest after : Text}
    {body : Body} (h : Reads remembers depth nested rest body after) :
    Reads remembers depth nested (t ++ rest) (chars t body) after := by
  induction t with
  | nil => exact h
  | cons c t ih =>
    obtain ⟨hc, ht⟩ := List.forall_mem_cons.mp plain
    exact (ih ht).char hc

theorem Reads.hole {h : Hole} (sound : h.Sound) {rest : Text} {holes : List Hole}
    (hrest : Reads remembers 0 false rest (ofHoles holes) []) :
    Reads remembers 0 false (h.source ++ rest) (ofHoles (h :: holes)) [] := by
  have hgap := hrest.chars sound.gap
  have hdigit := List.all_eq_true.mp sound.digits
  have room : 0 < maxDepth := by decide
  cases hf : h.fallback with
  | none =>
    have hsource : h.source ++ rest = '$' :: ('{' :: (h.digits ++ ['}']) ++ (h.gap ++ rest)) := by
      simp [Hole.source, Hole.fallbackSource, hf]
    have hopen : opening? true ('{' :: (h.digits ++ ['}']) ++ (h.gap ++ rest)) =
        some (.stop h.index, h.gap ++ rest) := by
      rw [List.cons_append, List.append_assoc, opening?, if_pos rfl,
        braced?_digits hdigit sound.written, List.singleton_append,
        index?_digits hdigit sound.small (by decide)]
      rfl
    rw [hsource, ofHoles, hf]
    exact .closed room hopen rfl hgap
  | some t =>
    have hsource : h.source ++ rest =
        '$' :: ('{' :: (h.digits ++ [':']) ++ (t ++ '}' :: (h.gap ++ rest))) := by
      simp [Hole.source, Hole.fallbackSource, hf]
    have hopen : opening? true ('{' :: (h.digits ++ [':']) ++ (t ++ '}' :: (h.gap ++ rest))) =
        some (.stopOver h.index, t ++ '}' :: (h.gap ++ rest)) := by
      rw [List.cons_append, List.append_assoc, opening?, if_pos rfl,
        braced?_digits hdigit sound.written, List.singleton_append,
        index?_digits hdigit sound.small (by decide)]
      rfl
    rw [hsource, ofHoles, hf]
    exact .over room hopen rfl (reads_brace.chars (sound.fallback t hf)) hgap

theorem read_source {f : Form} (sound : f.Sound) : read f.source = ofForm f := by
  have hholes (holes : List Hole) (sound : ∀ h ∈ holes, h.Sound) :
      Reads (· < maxDepth) 0 false (holes.flatMap Hole.source) (ofHoles holes) [] := by
    induction holes with
    | nil => exact reads_nil
    | cons h rest ih =>
      obtain ⟨hh, hrest⟩ := List.forall_mem_cons.mp sound
      exact .hole hh (ih hrest)
  exact ((hholes f.holes sound.holes).chars sound.lead).readWith

theorem render_chars (resolve : Resolver) (t : Text) (rest : Body) (start : Nat) :
    (chars t rest).render resolve [] start =
      (⟨t, [], []⟩ : Rendering).append (rest.render resolve [] (start + t.length)) := by
  induction t generalizing start with
  | nil => rfl
  | cons c t ih =>
    have hpiece : indentLines [] [c] = [c] := by simp [indentLines]
    have hend : start + 1 + t.length = start + (c :: t).length := by
      rw [List.length_cons]
      omega
    change Body.render resolve [] (.char c (chars t rest)) start = _
    rw [Body.render, hpiece]
    dsimp only [Rendering.spanFrom, List.length_cons, List.length_nil, Nat.zero_add]
    rw [ih, hend]
    rfl

theorem render_ofHoles (resolve : Resolver) (holes : List Hole) (start : Nat) :
    (ofHoles holes).render resolve [] start =
      ⟨Row.text (holes.map Hole.field), Row.marks start (holes.map Hole.field), []⟩ := by
  induction holes generalizing start with
  | nil => rfl
  | cons h rest ih =>
    have hgap (start : Nat) : (chars h.gap (ofHoles rest)).render resolve [] start =
        ⟨h.gap ++ Row.text (rest.map Hole.field),
          Row.marks (start + h.gap.length) (rest.map Hole.field), []⟩ := by
      rw [render_chars, ih]
      rfl
    rw [List.map_cons, Row.text_cons, Row.marks, ofHoles]
    cases hf : h.fallback with
    | none =>
      have hcontent : h.field.content = [] := by simp [Hole.field, hf]
      dsimp only
      rw [Body.render, hgap, Field.span, Field.width, hcontent]
      simp [Rendering.append, Rendering.withStop, Rendering.spanFrom, Rendering.empty, Hole.field]
    | some t =>
      have hcontent : h.field.content = t := by simp [Hole.field, hf]
      have hshown : (chars t .done).render resolve [] start = ⟨t, [], []⟩ := by
        rw [render_chars]
        simp [Rendering.append, Body.render, Rendering.empty]
      dsimp only
      rw [Body.render, hgap, hshown, Field.span, Field.width, hcontent]
      simp [Rendering.append, Rendering.withStop, Rendering.spanFrom, Hole.field, Nat.add_assoc]

end Body

theorem Template.parse_form {f : Form} (sound : f.Sound) : Template.parse f.source =
      .ofRendering ⟨f.lead ++ f.row.text, Row.marks f.lead.length f.row, []⟩ := by
  rw [Template.parse, instantiate, Body.read_source sound, Body.ofForm, Body.render_chars,
    Body.render_ofHoles, Nat.zero_add]
  rfl

end Snippets
