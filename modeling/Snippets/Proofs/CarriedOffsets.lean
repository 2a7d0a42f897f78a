import Snippets.Proofs.AtOnce

/-!
# Carried offsets

Main statement: a document makes every batch that passes the check, and the change that it reports
carries the offsets of the old text in order, into the new text and with their characters.
-/

namespace Snippets

structure Change.CarriesOffsets (c : Change) (t t' : Text) : Prop where
  length : (t'.length : Int) = t.length + c.delta
  mono : ∀ side, ∀ x y, x ≤ y → y ≤ t.length → c.mapOffset x side ≤ c.mapOffset y side
  sides : ∀ x ≤ t.length, c.mapOffset x .before ≤ c.mapOffset x .after
  inside : ∀ x ≤ t.length, (c.mapOffset x .after : Int) ≤ t.length + c.delta
  /-- No offset is carried to a negative word, so lifting one to zero changes nothing. -/
  unlifted : ∀ side, ∀ x ≤ t.length, (c.mapOffset x side : Int) = c.signedOffset x side
  kept : ∀ x < t.length, Edit.Keeps c.edits x → t'[c.mapOffset x .after]? = t[x]?

namespace Document

variable {d d' : Document} {b : Batch} {c : Change}

theorem carriesOffsets (h : d.apply b = .ok (c, d')) (fits : d.Fits) (fits' : d'.Fits) :
    c.CarriesOffsets d.text d'.text := by
  have hlength := length_apply h fits fits'
  obtain ⟨hfault, rfl, htext⟩ := apply_eq_ok h
  have hordered : Edit.Ordered d.text.length (Change.ofBatch b).edits :=
    Batch.fault?_eq_none_iff.mp hfault
  have hfits := fits'
  rw [Fits, htext] at hfits
  exact {
    length := hlength
    mono := fun side x y hxy hy => Change.mapOffset_mono hordered hfits hxy hy side
    sides := fun x hx => Change.mapOffset_before_le_after hordered hfits hx
    inside := fun x hx => by
      have hin := Change.mapOffset_le_length hordered hfits hx .after
      rw [← htext] at hin
      omega
    unlifted := fun side x hx => Change.mapOffset_eq_signedOffset hordered hfits hx side
    kept := fun x hx hkept => by
      rw [htext]
      exact (Change.mapOffset_after_kept hordered hfits hx hkept).2 }

/-- A batch without faults is made, and its change carries offsets between documents whose offsets
are words. -/
theorem apply_carriesOffsets (accepted : b.fault? d.text.length = none) (fits : d.Fits) :
    ∃ d', d.apply b = .ok (.ofBatch b, d') ∧
      (d'.Fits → (Change.ofBatch b).CarriesOffsets d.text d'.text) := by
  obtain ⟨d', happly⟩ := apply_ok_of_fault?_none accepted
  exact ⟨d', happly, carriesOffsets happly fits⟩

def touchingEdits : Batch where
  edits := [⟨⟨5, 5⟩, "xyz".toList⟩, ⟨⟨0, 2⟩, []⟩, ⟨⟨3, 5⟩, "b".toList⟩]
  origin := .user

theorem touchingEdits_carry : ∃ d', (ofText "012345".toList).apply touchingEdits =
    .ok (.ofBatch touchingEdits, d') ∧ d'.text = "2bxyz5".toList ∧
      (Change.ofBatch touchingEdits).CarriesOffsets "012345".toList d'.text := by
  obtain ⟨d', happly, hcarries⟩ := apply_carriesOffsets
    (d := ofText "012345".toList) (b := touchingEdits) (by decide) (by decide)
  have htext : d'.text = "2bxyz5".toList := (text_apply happly).trans (by decide)
  have hfits : d'.Fits := by
    rw [Fits, htext]
    decide
  exact ⟨d', happly, htext, hcarries hfits⟩

end Document

end Snippets
