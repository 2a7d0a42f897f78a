import Snippets.Proofs.LayoutSync
import Snippets.Proofs.Typing

/-!
# Typing on a layout

The user types over the first field of the current index. Until the engine hears of it, nothing
waits for the session; then the stops are carried to where they are in the layout with the typed
text.
-/

namespace Snippets

namespace Layout

variable {l : Layout} {k id : Nat} {front behind : Row} {f : Field} {t : Text}

def retype (l : Layout) (front : Row) (f : Field) (behind : Row) (t : Text) : Layout :=
  { l with row := front ++ { f with content := t } :: behind }

theorem Leads.retype (h : l.Leads k front f behind) (t : Text) :
    (l.retype front f behind t).Leads k front { f with content := t } behind :=
  ⟨rfl, h.index, h.first⟩

theorem Sound.retype (h : l.Sound) (leads : l.Leads k front f behind) (t : Text) :
    (l.retype front f behind t).Sound := by
  have hspaced := h.spaced
  rw [leads.split] at hspaced
  have hindices : (l.retype front f behind t).row.map (·.index) = l.row.map (·.index) := by
    rw [Layout.retype, leads.split]
    simp
  refine ⟨?_, h.distinct, fun hk => by rw [hindices]; exact h.repeated hk⟩
  have hrow (front : Row) (h : Row.Spaced (front ++ f :: behind)) :
      Row.Spaced (front ++ { f with content := t } :: behind) := by
    induction front with
    | nil => exact h
    | cons e rest ih => exact ⟨h.1, fun _ => h.2.1 (by simp), ih h.2.2⟩
  exact hrow front hspaced

theorem replaceFrom_retype (split : l.row = front ++ f :: behind) (t : Text) :
    l.text.replaceFrom 0 [⟨f.span (l.base + front.width), t⟩] =
      (l.retype front f behind t).text := by
  have htext : l.text =
      (l.lead ++ front.text) ++ (f.content ++ (f.gap ++ (behind.text ++ l.tail))) := by
    simp [text, split, Row.text_append]
  have hlen : (l.lead ++ front.text).length = l.base + front.width := by simp [base]
  have hdrop : l.text.drop (l.base + front.width + f.content.length) =
      f.gap ++ (behind.text ++ l.tail) := by
    rw [← List.drop_drop, htext, List.drop_left' hlen, List.drop_left' rfl]
  have hslice : l.text.slice ⟨0, l.base + front.width⟩ = l.lead ++ front.text := by
    rw [Text.slice, List.drop_zero, htext, List.take_left' hlen]
  simp only [Text.replaceFrom, Field.span, hdrop, hslice]
  simp [text, retype, Row.text_append]

def typedChange (l : Layout) (front : Row) (f : Field) (t : Text) : Change :=
  ⟨[⟨f.span (l.base + front.width), t⟩], .user⟩

theorem length_retype (split : l.row = front ++ f :: behind) (t : Text) :
    (l.retype front f behind t).text.length + f.content.length = l.text.length + t.length := by
  rw [length_text, length_text, split, retype, Row.width_append, Row.width_append, Row.width,
    Row.width, Field.width, Field.width, base, base]
  dsimp only
  omega

section

variable (leads : l.Leads k front f behind)
  (fits' : (l.retype front f behind t).text.length < 9223372036854775808)

include leads fits'

theorem typed_beyond {x : Nat} {side : Side} (hx : x ≤ l.text.length)
    (beyond : l.base + front.width + f.content.length < x ∨
      (x = l.base + front.width + f.content.length ∧ f.content.length ≠ 0)) :
    (l.typedChange front f t).mapOffset x side = x - f.content.length + t.length := by
  have hlen := l.length_retype leads.split t
  have hspan : (f.span (l.base + front.width)).length = f.content.length := by
    simp [Field.span, Span.length]
  rw [typedChange, Change.mapOffset_beyond]
  · rw [hspan]
  · exact Nat.le_add_right _ _
  · simp only [Field.span]
    omega
  · rw [hspan]
    dsimp only
    omega

theorem typed_span_beyond {s : Span} {grows : Bool} (hs : s.start ≤ s.finish)
    (hin : s.finish ≤ l.text.length) (beyond : l.base + front.width + f.content.length < s.start) :
    (l.typedChange front f t).mapSpan s grows (l.retype front f behind t).text.length =
      ⟨s.start - f.content.length + t.length, s.finish - f.content.length + t.length⟩ := by
  have hlen := l.length_retype leads.split t
  simp only [Change.mapSpan]
  rw [typed_beyond leads fits' (Nat.le_trans hs hin) (Or.inl beyond),
    typed_beyond leads fits' hin (Or.inl (by omega)), Span.mk.injEq]
  omega

/-- The field itself grows or shrinks with its text. -/
theorem typed_span_self : (l.typedChange front f t).mapSpan (f.span (l.base + front.width)) true
    (l.retype front f behind t).text.length =
      ⟨l.base + front.width, l.base + front.width + t.length⟩ := by
  have hin := leads.cursor_le
  have hin' := (leads.retype t).cursor_le
  have hbase : (l.retype front f behind t).base = l.base := rfl
  rw [hbase] at hin'
  dsimp only at hin'
  have hstart : (l.typedChange front f t).mapOffset (l.base + front.width) .before =
      l.base + front.width :=
    Change.mapOffset_start (e := ⟨f.span (l.base + front.width), t⟩) (Nat.le_add_right _ _) (by
      simp only [Field.span]
      omega)
  have hfinish :
      (l.typedChange front f t).mapOffset (l.base + front.width + f.content.length) .after =
      l.base + front.width + t.length := by
    by_cases hc : f.content.length = 0
    · rw [hc, Nat.add_zero]
      exact Change.mapOffset_insertion (e := ⟨f.span (l.base + front.width), t⟩)
        (by simp [Field.span, hc]) (by simp only [Field.span]; omega)
    · rw [typed_beyond leads fits' hin (Or.inr ⟨rfl, hc⟩)]
      omega
  simp only [Change.mapSpan, Field.span, if_true, hstart, hfinish, Span.mk.injEq]
  omega

/-- The exit stays behind the field also where both are at one offset. -/
theorem typed_span_exit (fits : l.text.length < 9223372036854775808) :
    (l.typedChange front f t).mapSpan (Field.exit (l.base + l.row.width)).span false
      (l.retype front f behind t).text.length =
        (Field.exit (l.base + (l.retype front f behind t).row.width)).span := by
  have hlen := l.length_retype leads.split t
  have hwidth : l.row.width = front.width + (f.width + behind.width) := by
    rw [leads.split, Row.width_append, Row.width]
  have hwidth' : (l.retype front f behind t).row.width =
      front.width + (t.length + f.gap.length + behind.width) := by
    rw [retype, Row.width_append, Row.width]
    rfl
  have hin : l.base + l.row.width ≤ l.text.length := by
    rw [length_text]
    omega
  have hin' : l.base + (l.retype front f behind t).row.width ≤
      (l.retype front f behind t).text.length := by
    rw [length_text]
    exact Nat.le_add_right _ _
  by_cases hbeyond : l.base + front.width + f.content.length < l.base + l.row.width ∨
      (l.base + l.row.width = l.base + front.width + f.content.length ∧ f.content.length ≠ 0)
  · rw [Field.width] at hwidth
    simp only [Change.mapSpan, Field.exit, typed_beyond leads fits' hin hbeyond, Span.mk.injEq]
    omega
  · rw [Field.width] at hwidth
    have hat : l.base + l.row.width = l.base + front.width := by omega
    have hstart : (l.typedChange front f t).mapOffset (l.base + front.width) .after =
        l.base + front.width + t.length :=
      Change.mapOffset_insertion (e := ⟨f.span (l.base + front.width), t⟩)
        (by simp only [Field.span]; omega) (by simp only [Field.span]; omega)
    have hfinish : (l.typedChange front f t).mapOffset (l.base + front.width) .before =
        l.base + front.width :=
      Change.mapOffset_start (e := ⟨f.span (l.base + front.width), t⟩) (Nat.le_add_right _ _) (by
        simp only [Field.span]
        omega)
    simp only [Change.mapSpan, Field.exit, hat, if_false, Bool.false_eq_true, hstart, hfinish,
      Span.mk.injEq]
    omega

theorem typed_span_front {before mid : Row} {e : Field} (sound : l.Sound)
    (hr : front = before ++ e :: mid) :
    (l.typedChange front f t).mapSpan (e.span (l.base + before.width)) false
      (l.retype front f behind t).text.length = e.span (l.base + before.width) := by
  have hsplit : l.row = before ++ e :: (mid ++ f :: behind) := by
    rw [leads.split, hr, List.append_assoc, List.cons_append]
  have hgap := sound.gap_length_ne_zero hsplit (by simp)
  have hwidth : front.width = before.width + (e.width + Row.width mid) := by
    rw [hr, Row.width_append, Row.width]
  rw [Field.width] at hwidth
  have hin := (leads.retype t).cursor_le
  have hbase : (l.retype front f behind t).base = l.base := rfl
  rw [hbase] at hin
  have hstay {x : Nat} {side : Side} (hx : x < l.base + front.width) :
      (l.typedChange front f t).mapOffset x side = x := by
    refine Change.mapOffset_of_lt (fun a ha => ?_) (by omega)
    rw [typedChange, List.mem_singleton] at ha
    rw [ha]
    exact hx
  simp only [Change.mapSpan, Field.span, Span.mk.injEq, Bool.false_eq_true, if_false]
  rw [hstay (by omega), hstay (by omega)]
  omega

/-- The stop of a field behind the typed one, before and after it is carried. -/
theorem getElem?_retype_behind {mid after : Row} {e : Field} (sound : l.Sound)
    (hr : behind = mid ++ e :: after) (grows : Bool) :
    (l.retype front f behind t).stops[(front ++ f :: mid).length]? =
      some { e.stop l.group (l.base + Row.width (front ++ f :: mid)) with
        span := (l.typedChange front f t).mapSpan
          (e.span (l.base + Row.width (front ++ f :: mid))) grows
          (l.retype front f behind t).text.length } := by
  have hnew : (l.retype front f behind t).row =
      (front ++ { f with content := t } :: mid) ++ e :: after := by
    simp [retype, hr]
  have hold : l.row = front ++ f :: (mid ++ e :: after) := by rw [leads.split, hr]
  have hgap := sound.gap_length_ne_zero hold (by simp)
  have hwidth : Row.width (front ++ f :: mid) = front.width + (f.width + Row.width mid) := by
    rw [Row.width_append, Row.width]
  have hin : l.base + Row.width (front ++ f :: mid) + e.content.length ≤ l.text.length := by
    rw [length_text, hold, hwidth, Row.width_append, Row.width, Row.width_append, Row.width,
      Field.width, Field.width]
    omega
  have hposition :
      (front ++ f :: mid).length = (front ++ { f with content := t } :: mid).length := by
    simp
  rw [hposition, getElem?_stops hnew, Option.some.injEq]
  rw [Field.width] at hwidth
  rw [typed_span_beyond leads fits' (Nat.le_add_right _ _) hin
    (by simp only [Field.span]; omega)]
  have hbase : (l.retype front f behind t).base = l.base := rfl
  simp only [Field.stop, Field.span, Row.width_append, Row.width, Field.width, LiveStop.mk.injEq,
    TabStop.mk.injEq, Span.mk.injEq, and_true, true_and, hbase]
  refine ⟨?_, rfl⟩
  omega

/-- Carrying the stops of the layout gives those of the layout with the typed text. -/
theorem getElem?_stops_retype (sound : l.Sound) (hk : k ≠ 0)
    (fits : l.text.length < 9223372036854775808) (i : Nat) :
    (l.retype front f behind t).stops[i]? = l.stops[i]?.map fun m => { m with
      span := (l.typedChange front f t).mapSpan m.span (m.index == k)
        (l.retype front f behind t).text.length } := by
  have hrow : (l.retype front f behind t).row = front ++ { f with content := t } :: behind := rfl
  have hlength : l.row.length = (l.retype front f behind t).row.length := by
    rw [leads.split, hrow]
    simp
  rcases Row.position_cases l.row i with ⟨before, e, after, hr, rfl⟩ | rfl | hlong
  · rcases Nat.lt_trichotomy before.length front.length with hlt | heq | hlt
    · obtain ⟨mid, hmid⟩ := Row.split_lt (hr.symm.trans leads.split) hlt
      have hother : (e.index == k) = false := by
        simpa using leads.first e (by simp [hmid])
      have hr' : (l.retype front f behind t).row =
          before ++ e :: (mid ++ { f with content := t } :: behind) := by
        rw [hrow, hmid]
        simp
      rw [getElem?_stops hr, getElem?_stops hr', Option.map_some, Option.some.injEq]
      simp only [Field.stop, hother, typed_span_front leads fits' sound hmid]
      rfl
    · obtain ⟨rfl, hrest⟩ := List.append_inj (hr.symm.trans leads.split) heq
      obtain rfl := (List.cons.inj hrest).1
      rw [getElem?_stops hr, getElem?_stops hrow, Option.map_some, Option.some.injEq]
      simp only [Field.stop, leads.index, beq_self_eq_true, typed_span_self leads fits']
      rfl
    · obtain ⟨mid, rfl⟩ := Row.split_lt (leads.split.symm.trans hr) hlt
      have hbehind : behind = mid ++ e :: after := by
        have := List.append_inj (leads.split.symm.trans (hr.trans (List.append_assoc ..))) rfl
        exact (List.cons.inj this.2).2
      rw [getElem?_retype_behind leads fits' sound hbehind (e.index == k), getElem?_stops hr]
      rfl
  · have hother : ((Field.exit (l.base + l.row.width)).index == k) = false := by
      simpa [Field.exit] using hk.symm
    have hexit := (l.retype front f behind t).getElem?_stops_exit
    rw [← hlength] at hexit
    rw [hexit, getElem?_stops_exit, Option.map_some, Option.some.injEq, hother,
      typed_span_exit leads fits' fits]
    rfl
  · rw [getElem?_stops_none (hlength ▸ hlong), getElem?_stops_none hlong]
    rfl

end

end Layout

end Snippets
