import Snippets.Definition

/-!
# Kept readings

Main statement: a definition that keeps the plain reading of its body, and inserts it where it can,
inserts what reading the body anew with values and indent gives, whatever it was asked for before. A
plain reading without variables does not depend on values, and one without a line feed does not
depend on the indent.
-/

namespace Snippets

theorem indentLines_nil (t : Text) : indentLines [] t = t := by
  induction t with
  | nil => rfl
  | cons c t ih =>
    change (if c = '\n' then [c] else [c]) ++ indentLines [] t = c :: t
    rw [ite_self, ih]
    rfl

/-- The indent does not show: there is none, or no line feed that it could follow. -/
def Unindented (indent t : Text) : Prop := indent = [] ∨ '\n' ∉ t

theorem Unindented.indentLines_eq {indent t : Text} (h : Unindented indent t) :
    indentLines indent t = t := by
  rcases h with rfl | hfeed
  · exact indentLines_nil t
  · induction t with
    | nil => rfl
    | cons c t ih =>
      obtain ⟨hc, ht⟩ := not_or.mp (mt List.mem_cons.mpr hfeed)
      have hne : ¬ c = '\n' := fun h => hc h.symm
      change (if c = '\n' then c :: indent else [c]) ++ indentLines indent t = c :: t
      rw [if_neg hne, ih ht]
      rfl

theorem unindented_append {indent a b : Text} :
    Unindented indent (a ++ b) ↔ Unindented indent a ∧ Unindented indent b := by
  by_cases hindent : indent = []
  · simp [Unindented, hindent]
  · simp [Unindented, hindent, not_or]

namespace Rendering

def Steadfast (indent : Text) (r : Rendering) : Prop := r.vars = [] ∧ Unindented indent r.text

theorem steadfast_append {indent : Text} {a b : Rendering} :
    (a.append b).Steadfast indent ↔ a.Steadfast indent ∧ b.Steadfast indent := by
  unfold Steadfast append
  rw [List.append_eq_nil_iff, unindented_append]
  constructor
  · rintro ⟨⟨hva, hvb⟩, hta, htb⟩
    exact ⟨⟨hva, hta⟩, hvb, htb⟩
  · rintro ⟨⟨hva, hta⟩, hvb, htb⟩
    exact ⟨⟨hva, hvb⟩, hta, htb⟩

theorem not_steadfast_withVariable (indent : Text) (r : Rendering) (name : Text) (start : Nat)
    (fallback : Option Text) : ¬ (r.withVariable name start fallback).Steadfast indent := by
  rintro ⟨hvars, _⟩
  simp [withVariable] at hvars

end Rendering

/-- What is rendered without values and indent is rendered with them just so, unless it has a
variable or a line to indent. -/
theorem Body.render_steadfast (resolve : Resolver) (indent : Text) (b : Body) (start : Nat)
    (h : (b.render (fun _ => none) [] start).Steadfast indent) :
    b.render resolve indent start = b.render (fun _ => none) [] start := by
  induction b generalizing start with
  | done => rfl
  | char c rest ih =>
    obtain ⟨hpiece, hrest⟩ := Rendering.steadfast_append.mp h
    have hshown : indentLines indent [c] = indentLines [] [c] := by
      have hplain := hpiece.2
      dsimp only at hplain
      rw [indentLines_nil] at hplain ⊢
      exact hplain.indentLines_eq
    rw [render, render, hshown, ih _ hrest]
  | stop index rest ih =>
    obtain ⟨_, hrest⟩ := Rendering.steadfast_append.mp h
    rw [render, render, ih _ hrest]
  | stopOver index fallback rest ihFallback ih =>
    obtain ⟨hpiece, hrest⟩ := Rendering.steadfast_append.mp h
    have hfallback := ihFallback start hpiece
    rw [render, render, hfallback, ih _ hrest]
  | choice index first others rest ih =>
    obtain ⟨hpiece, hrest⟩ := Rendering.steadfast_append.mp h
    have hshown : indentLines indent first = indentLines [] first := by
      have hplain : Unindented indent (indentLines [] first) := hpiece.2
      rw [indentLines_nil] at hplain ⊢
      exact hplain.indentLines_eq
    rw [render, render, hshown, ih _ hrest]
  | «variable» name rest ih =>
    have hpiece := (Rendering.steadfast_append.mp h).1
    exact absurd hpiece (Rendering.not_steadfast_withVariable _ _ _ _ _)
  | variableOver name fallback rest ihFallback ih =>
    have hpiece := (Rendering.steadfast_append.mp h).1
    exact absurd hpiece (Rendering.not_steadfast_withVariable _ _ _ _ _)

theorem Template.instantiate_eq_parse {body indent : Text} (resolve : Resolver)
    (vars : (parse body).vars = []) (text : Unindented indent (parse body).text) :
    instantiate body resolve indent = parse body := by
  have hsteadfast : ((Body.read body).render (fun _ => none) [] 0).Steadfast indent := ⟨vars, text⟩
  rw [parse, instantiate, instantiate, Body.render_steadfast resolve indent _ 0 hsteadfast]

namespace Definition

inductive Request where
  | reading
  | template (resolve : Resolver) (indent : Text)

def after (d : Definition) (kept : Option Template) : Request → Option Template
  | .reading => (d.keepReading kept).2
  | .template resolve indent => (d.prepare kept resolve indent).2

/-- The reading that is kept after requests, made in order of a definition that kept none. -/
def afterAll (d : Definition) (requests : List Request) : Option Template :=
  requests.foldl d.after none

def Keeps (d : Definition) (kept : Option Template) : Prop :=
  kept = none ∨ kept = some (.parse d.body)

variable {d : Definition} {kept : Option Template}

theorem Keeps.reading (h : d.Keeps kept) :
    d.keepReading kept = (.parse d.body, some (.parse d.body)) := by
  rcases h with rfl | rfl
  · rfl
  · rfl

theorem Keeps.after (h : d.Keeps kept) (request : Request) : d.Keeps (d.after kept request) := by
  cases request with
  | reading =>
    rw [Definition.after, h.reading]
    exact Or.inr rfl
  | template resolve indent =>
    rw [Definition.after, prepare_eq, h.reading]
    exact Or.inr rfl

theorem keeps_afterAll (d : Definition) (requests : List Request) :
    d.Keeps (d.afterAll requests) := by
  have hrun : ∀ kept, d.Keeps kept → d.Keeps (requests.foldl d.after kept) := by
    induction requests with
    | nil => exact fun kept h => h
    | cons request rest ih => exact fun kept h => ih _ (h.after request)
  exact hrun none (Or.inl rfl)

theorem Keeps.prepare (h : d.Keeps kept) (resolve : Resolver) (indent : Text) :
    (d.prepare kept resolve indent).1 = .instantiate d.body resolve indent := by
  rw [prepare_eq, h.reading]
  dsimp only
  split
  · rename_i hplain
    rw [Bool.and_eq_true, List.isEmpty_iff, Bool.or_eq_true, List.isEmpty_iff] at hplain
    obtain ⟨hvars, hindent⟩ := hplain
    have hshown : Unindented indent (Template.parse d.body).text :=
      hindent.imp_right fun hfeed => by simpa using hfeed
    exact (Template.instantiate_eq_parse resolve hvars hshown).symm
  · rfl

/-- After any requests the template for insertion is that of the body with its values and its
indent, and so it is without any. -/
theorem prepare_afterAll (d : Definition) (requests : List Request) (resolve : Resolver)
    (indent : Text) :
    (d.prepare (d.afterAll requests) resolve indent).1 = .instantiate d.body resolve indent ∧
      d.instantiate resolve indent = .instantiate d.body resolve indent := by
  constructor
  · exact (keeps_afterAll d requests).prepare resolve indent
  · exact (show d.Keeps none from Or.inl rfl).prepare resolve indent

end Definition

end Snippets
