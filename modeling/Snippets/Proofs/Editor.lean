import Snippets.Document
import Snippets.Scene.Syncing
import Snippets.Proofs.Places

/-!
# Editors

An editor is a surface over a document: it makes a batch as the document does or refuses it, and a
refusal changes nothing. A document is its own editor, and a host is one that can be away.
-/

namespace Snippets

/-- A surface over a document. It is free to refuse any batch. -/
class Editor (σ : Type) extends Surface σ where
  document : σ → Document
  length_eq (s : σ) : length s = (document s).text.length
  slice_eq (s : σ) (r : Span) : slice s r = (document s).text.slice r
  selection_eq (s : σ) : selection s = (document s).selection
  document_select (s : σ) (selection : Selection) :
    document (select s selection) = (document s).select selection
  document_apply (s : σ) (b : Batch) :
    match apply s b with
    | (.ok change, s') => (document s).apply b = .ok (change, document s')
    | (.error _, s') => document s' = document s

instance : Editor Document where
  document d := d
  length_eq _ := rfl
  slice_eq _ _ := rfl
  selection_eq _ := rfl
  document_select _ _ := rfl
  document_apply d b := by
    simp only [Surface.apply]
    split
    · rename_i h
      split at h <;> simp_all
    · rename_i h
      split at h <;> simp_all

namespace Editor

variable {σ : Type} [Editor σ] {s s' : σ} {b : Batch}

theorem document_of_error {refusal : Refusal} (h : Surface.apply s b = (.error refusal, s')) :
    document s' = document s := by
  have hdoc := document_apply s b
  rwa [h] at hdoc

theorem document_of_ok {change : Change} (h : Surface.apply s b = (.ok change, s')) :
    (document s).apply b = .ok (change, document s') := by
  have hdoc := document_apply s b
  rwa [h] at hdoc

end Editor

@[simp] theorem Editor.document_self (d : Document) : Editor.document d = d := rfl

instance : Editor Host where
  document h := h.document
  length_eq _ := rfl
  slice_eq _ _ := rfl
  selection_eq _ := rfl
  document_select _ _ := rfl
  document_apply h b := by
    have inner := Editor.document_apply h.document b
    cases ha : h.available with
    | false => simp [Surface.apply, ha]
    | true =>
      simp only [Surface.apply, ha, if_true] at inner ⊢
      cases hb : h.document.apply b <;> simp_all [Editor.document]

namespace Document

def Fits (d : Document) : Prop := d.text.length < 9223372036854775808

instance (d : Document) : Decidable d.Fits := inferInstanceAs (Decidable (_ < _))

theorem apply_eq_ok {d d' : Document} {b : Batch} {c : Change} (h : d.apply b = .ok (c, d')) :
    b.fault? d.text.length = none ∧ c = .ofBatch b ∧ d'.text = d.text.replaceFrom 0 c.edits := by
  unfold apply at h
  split at h
  · cases h
  · rename_i hfault
    cases h
    exact ⟨hfault, rfl, Text.applyTo_eq (Batch.fault?_eq_none_iff.mp hfault)⟩

/-- Both ends of the selection stay in front of text that is inserted at them. -/
theorem apply_selection {d d' : Document} {b : Batch} {c : Change} (h : d.apply b = .ok (c, d')) :
    d'.selection = Selection.clamp ⟨c.mapOffset d.selection.anchor .before,
      c.mapOffset d.selection.head .before⟩ d'.text.length := by
  unfold apply at h
  split at h
  · cases h
  · cases h
    rfl

theorem apply_ok_of_fault?_none {d : Document} {b : Batch} (h : b.fault? d.text.length = none) :
    ∃ d', d.apply b = .ok (.ofBatch b, d') := by
  unfold apply
  rw [h]
  exact ⟨_, rfl⟩

theorem apply_single {d : Document} {e : Edit} (upright : e.span.start ≤ e.span.finish)
    (inside : e.span.finish ≤ d.text.length) (origin : Origin) :
    ∃ d', d.apply ⟨[e], origin⟩ = .ok (⟨[e], origin⟩, d') ∧
      d'.text = d.text.splice e.span e.text ∧ d'.revision = d.revision + 1 := by
  have hfault : Batch.fault? ⟨[e], origin⟩ d.text.length = none := by
    refine Batch.fault?_eq_none_iff_apart.mpr ⟨fun f hf => ?_, List.pairwise_singleton _ _⟩
    rw [List.mem_singleton] at hf
    subst hf
    exact ⟨upright, inside⟩
  unfold apply
  rw [hfault]
  exact ⟨_, rfl, rfl, rfl⟩

/-- Typing is one edit of the user, and puts the cursor behind the typed text. -/
theorem type_eq_ok {d d' : Document} {t : Text} {c : Change} (h : d.type t = .ok (c, d')) :
    ∃ made, d.apply ⟨[⟨d.selection.span, t⟩], .user⟩ = .ok (c, made) ∧
      d' = { made with selection := .cursor (d.selection.span.start + t.length) } := by
  unfold type at h
  cases happly : d.apply ⟨[⟨d.selection.span, t⟩], .user⟩ with
  | error fault =>
    rw [happly] at h
    cases h
  | ok result =>
    rw [happly] at h
    cases h
    exact ⟨result.2, rfl, rfl⟩

/-- A backspace has nothing to remove, or it is one edit of the user. -/
theorem backspace_eq_ok {d d' : Document} {c : Option Change} (h : d.backspace = .ok (c, d')) :
    (c = none ∧ d' = d) ∨ ∃ span change made, c = some change ∧
      d.apply ⟨[⟨span, []⟩], .user⟩ = .ok (change, made) ∧
      d' = { made with selection := .cursor span.start } := by
  unfold backspace at h
  cases hspan : d.backspaceSpan? with
  | none =>
    rw [hspan] at h
    cases h
    exact Or.inl ⟨rfl, rfl⟩
  | some span =>
    rw [hspan] at h
    dsimp only at h
    cases happly : d.apply ⟨[⟨span, []⟩], .user⟩ with
    | error fault =>
      rw [happly] at h
      cases h
    | ok result =>
      rw [happly] at h
      cases h
      exact Or.inr ⟨span, result.1, result.2, rfl, happly, rfl⟩

end Document

end Snippets
