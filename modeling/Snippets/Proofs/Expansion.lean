import Mathlib.Data.List.Forall2
import Snippets.Proofs.AtOnce
import Snippets.Proofs.Evaluation
import Snippets.Proofs.LineStarts
import Snippets.Proofs.Templates
import Snippets.Proofs.Triggers

/-!
# Expansion

Main statement: a trigger in front of the cursor is replaced by its snippet in one step. The text
around it stays, the sessions that are open follow, and the user stands on the first stop of the
template, or behind it when there is nothing to visit. Where no trigger ends at the cursor, nothing
changes.
-/

namespace Snippets

theorem Span.shift_eq_behind {s : Span} {base : Nat} (upright : s.start ≤ s.finish)
    (fits : base + s.finish < 18446744073709551616) : s.shift base = s.behind base := by
  rw [shift, Word.unsigned_eq (by omega), Word.unsigned_eq fits, behind]

/-- Of the stops with an index the first one in the list is the first one in the document. -/
theorem LiveStop.Normal.find?_first {stops : List LiveStop} (h : Normal stops) {index : Nat}
    {x y : LiveStop} (hx : stops.find? (·.index == index) = some x) (hy : y ∈ stops)
    (same : y.index = index) :
    x.span.start < y.span.start ∨
      (x.span.start = y.span.start ∧ x.span.finish ≤ y.span.finish) := by
  obtain ⟨-, i, hi, hix, hearlier⟩ := List.find?_eq_some_iff_getElem.mp hx
  obtain ⟨j, hj, hjy⟩ := List.mem_iff_getElem.mp hy
  have hij : i ≤ j := by
    by_contra hlt
    have hother := hearlier j (by omega)
    rw [hjy, same] at hother
    simp at hother
  have hle := h.le_of_le (List.getElem?_eq_some_iff.mpr ⟨hi, hix⟩)
    (List.getElem?_eq_some_iff.mpr ⟨hj, hjy⟩) hij
  rw [le_iff] at hle
  omega

namespace Template

variable {t : Template} {index : Nat}

structure FirstIndex (t : Template) (index : Nat) : Prop where
  positive : 0 < index
  present : ∃ x ∈ t.stops, x.index = index
  least : ∀ x ∈ t.stops, 0 < x.index → index ≤ x.index

theorem FirstIndex.of_some (h : t.firstIndex? = some index) : t.FirstIndex index := by
  rw [firstIndex?, List.min?_eq_some_iff, List.mem_filter, List.mem_map] at h
  obtain ⟨⟨hpresent, hpositive⟩, hleast⟩ := h
  constructor
  · simpa using hpositive
  · exact hpresent
  · intro x hx hpos
    exact hleast x.index (List.mem_filter.mpr ⟨List.mem_map_of_mem hx, by simpa using hpos⟩)

theorem index_eq_zero (h : t.firstIndex? = none) : ∀ x ∈ t.stops, x.index = 0 := by
  intro x hx
  rw [firstIndex?, List.min?_eq_none_iff, List.filter_eq_nil_iff] at h
  simpa using h x.index (List.mem_map_of_mem hx)

structure FirstStop (t : Template) (index : Nat) (x : TabStop) : Prop where
  mem : x ∈ t.stops
  numbered : x.index = index
  first : ∀ y ∈ t.stops, y.index = index →
    x.span.start < y.span.start ∨ (x.span.start = y.span.start ∧ x.span.finish ≤ y.span.finish)

theorem FirstStop.exit {x : TabStop} (h : t.FirstStop 0 x)
    (exits : t.stops.countP (·.index == 0) = 1) : t.exit? = some x := by
  rw [List.countP_eq_length_filter, List.length_eq_one_iff] at exits
  obtain ⟨only, honly⟩ := exits
  have hall {y : TabStop} (hy : y ∈ t.stops) (hindex : y.index = 0) : y = only := by
    have hmem : y ∈ t.stops.filter (·.index == 0) :=
      List.mem_filter.mpr ⟨hy, by simpa using hindex⟩
    rwa [honly, List.mem_singleton] at hmem
  cases hexit : t.exit? with
  | none => exact absurd h.numbered (by simpa using List.find?_eq_none.mp hexit x h.mem)
  | some e =>
    have he := hall (List.mem_of_find?_eq_some hexit) (by simpa using List.find?_some hexit)
    rw [he, hall h.mem h.numbered]

end Template

def Settings.indentAt (settings : Settings) (text : Text) (line offset : Nat) : Text :=
  if settings.indentMultiline then leadingIndent (text.slice ⟨line, offset⟩) else []

theorem Definition.instantiate_exits (d : Definition) (resolve : Resolver) (indent : Text) :
    (d.instantiate resolve indent).stops.countP (·.index == 0) = 1 := by
  obtain ⟨_, _, _, h⟩ := d.instantiate_ofBody resolve indent
  rw [h]
  exact Template.ofRendering_exits _

structure Session.CarriedTo (c : Change) (length : Nat) (x x' : Session) : Prop where
  id : x'.id = x.id
  current : x'.current = x.current
  stops : (x'.stops.map (·.toTabStop)).Perm ((x.remap c length).map (·.toTabStop))
  normal : LiveStop.Normal x.stops → LiveStop.Normal x'.stops

theorem Session.carriedTo_carry (c : Change) (length : Nat) (x : Session) :
    x.CarriedTo c length (x.carry c length) := by
  constructor
  · rfl
  · rfl
  · have hupright : ∀ y ∈ x.remap c length, y.span.start ≤ y.span.finish := by
      intro y hy
      obtain ⟨old, _, rfl⟩ := List.mem_map.mp hy
      exact (c.mapSpan_bounds old.span _ length).1
    refine (LiveStop.normalize_perm (x.remap c length)).trans (.of_eq ?_)
    exact List.map_congr_left fun y hy => by rw [LiveStop.upright_eq_self (hupright y hy)]
  · intro _
    exact LiveStop.normalize_normal _

theorem Session.carriedTo_replaced (c : Change) (length : Nat) (x : Session) :
    x.CarriedTo c length (Stack.replaced (Stack.movedStops? c length) x) := by
  unfold Stack.replaced Stack.movedStops?
  cases hmoved : x.movedBy (x.remap c length) with
  | true => exact x.carriedTo_carry c length
  | false =>
    refine ⟨rfl, rfl, ?_, fun h => h⟩
    rw [Session.remap_eq_of_not_moved hmoved]
    exact .refl _

theorem Stack.remap_carriedTo (s : Stack) {c : Change} (hc : c.edits ≠ []) (length : Nat) :
    List.Forall₂ (Session.CarriedTo c length) s.sessions (s.remap c length).sessions := by
  rw [remap_eq_replaced s hc, List.forall₂_map_right_iff, List.forall₂_same]
  exact fun x _ => x.carriedTo_replaced c length

namespace Template

def placed (t : Template) (base : Nat) : List LiveStop :=
  LiveStop.normalize (t.stops.map (.ofTabStop base))

variable {t : Template} {base index : Nat}

section

variable (bounds : ∀ x ∈ t.stops, x.span.start ≤ x.span.finish ∧ x.span.finish ≤ t.text.length)
  (room : base + t.text.length < 9223372036854775808)

include bounds room

theorem placed_perm : ((t.placed base).map (·.toTabStop)).Perm
    (t.stops.map fun y => { y with span := y.span.behind base }) := by
  refine (LiveStop.normalize_perm _).trans (.of_eq ?_)
  rw [List.map_map]
  refine List.map_congr_left fun y hy => ?_
  obtain ⟨hup, hin⟩ := bounds y hy
  have hshift : y.span.shift base = y.span.behind base :=
    Span.shift_eq_behind hup (by omega)
  have hupright : (LiveStop.ofTabStop base y).upright = .ofTabStop base y := by
    refine LiveStop.upright_eq_self ?_
    simp only [LiveStop.ofTabStop, hshift, Span.behind]
    omega
  rw [Function.comp_apply, hupright]
  simp only [LiveStop.ofTabStop, hshift]

theorem placed_first (present : ∃ x ∈ t.stops, x.index = index) :
    ∃ x y, (t.placed base).find? (·.index == index) = some x ∧ t.FirstStop index y ∧
      x.span = y.span.behind base := by
  have hperm := placed_perm bounds room
  have hnormal : LiveStop.Normal (t.placed base) := LiveStop.normalize_normal _
  have hlive {y : TabStop} (hy : y ∈ t.stops) :
      ∃ z ∈ t.placed base, z.toTabStop = { y with span := y.span.behind base } :=
    List.mem_map.mp (hperm.mem_iff.mpr (List.mem_map_of_mem hy))
  cases hfind : (t.placed base).find? (·.index == index) with
  | none =>
    obtain ⟨y, hy, hindex⟩ := present
    obtain ⟨z, hz, heq⟩ := hlive hy
    refine absurd ?_ (by simpa using List.find?_eq_none.mp hfind z hz)
    rw [heq]
    exact hindex
  | some x =>
    obtain ⟨y, hy, heq⟩ := List.mem_map.mp
      (hperm.mem_iff.mp (List.mem_map_of_mem (List.mem_of_find?_eq_some hfind)))
    have hspan : x.span = y.span.behind base := by rw [← heq]
    have hindex : x.index = index := by simpa using List.find?_some hfind
    refine ⟨x, y, rfl, ?_, hspan⟩
    constructor
    · exact hy
    · rw [← hindex, ← heq]
    · intro y' hy' hindex'
      obtain ⟨z, hz, hz'⟩ := hlive hy'
      have hfirst := hnormal.find?_first hfind hz (by rw [hz']; exact hindex')
      rw [hz', hspan] at hfirst
      simp only [Span.behind] at hfirst
      omega

end

end Template

structure Session.Opens (t : Template) (base index : Nat) (d : Document) (x : Session) : Prop where
  current : x.current = index
  normal : LiveStop.Normal x.stops
  stops : d.Fits → (x.stops.map (·.toTabStop)).Perm
    (t.stops.map fun y => { y with span := y.span.behind base })
  selection : d.Fits → ∃ y, t.FirstStop index y ∧ d.selection = .ofSpan (y.span.behind base)

namespace Scene

variable {s : Scene Document} {t : Template} {base index : Nat}

theorem visit_openSession
    (bounds : ∀ x ∈ t.stops, x.span.start ≤ x.span.finish ∧ x.span.finish ≤ t.text.length)
    (inside : base + t.text.length ≤ s.surface.text.length)
    (present : ∃ x ∈ t.stops, x.index = index) :
    ∃ x : Session, ((s.openSession base t).visit index).stack.sessions = x :: s.stack.sessions ∧
      x.id = s.stack.nextId ∧
      x.Opens t base index ((s.openSession base t).visit index).surface := by
  have htext : ((s.openSession base t).visit index).surface.text = s.surface.text :=
    document_visit_text (s.openSession base t) index
  have hroom (fits : ((s.openSession base t).visit index).surface.Fits) :
      base + t.text.length < 9223372036854775808 := by
    rw [Document.Fits, htext] at fits
    omega
  refine ⟨⟨s.stack.nextId, index, t.placed base⟩, rfl, rfl, ?_⟩
  constructor
  · rfl
  · exact LiveStop.normalize_normal _
  · intro fits
    exact Template.placed_perm bounds (hroom fits)
  · intro fits
    obtain ⟨x, y, hx, hy, hspan⟩ := Template.placed_first bounds (hroom fits) present
    obtain ⟨hup, hin⟩ := bounds y hy.mem
    have hvisit : ((s.openSession base t).visit index).surface =
        s.surface.select (.ofSpan x.span) := by
      have htop : (s.openSession base t).stack.top?.bind (·.firstStop? index) = some x := hx
      rw [visit, htop]
      rfl
    refine ⟨y, hy, ?_⟩
    rw [hvisit, hspan]
    simp only [Document.select, Selection.clamp, Selection.ofSpan, Span.behind]
    congr 1
    · omega
    · omega

theorem visit_revision (s : Scene Document) (index : Nat) :
    (s.visit index).surface.revision = s.surface.revision := by
  simp only [visit, effect]
  split
  · rfl
  · rfl

/-- Where a template at `base` leaves the user, inside the sessions that were open: in its own
session on the first index, or on the exit when there is nothing to visit. -/
inductive Lands (t : Template) (base id : Nat) (outer : List Session) (s' : Scene Document) :
    Navigation → Prop where
  | visiting (index : Nat) (x : Session) : t.FirstIndex index → s'.stack.sessions = x :: outer →
      x.id = id → x.Opens t base index s'.surface → Lands t base id outer s' (.moved index)
  | exited : (∀ x ∈ t.stops, x.index = 0) → s'.stack.sessions = outer →
      (s'.surface.Fits → ∃ e, t.exit? = some e ∧
        s'.surface.selection = .ofSpan (e.span.behind base)) → Lands t base id outer s' .exited

/-- A template was put over a range in one step, and the sessions that were open followed. -/
structure Inserted (s : Scene Document) (t : Template) (target : Span) (result : Navigation)
    (s' : Scene Document) : Prop where
  text : s'.surface.text =
    s.surface.text.take target.start ++ t.text ++ s.surface.text.drop target.finish
  revision : s'.surface.revision = s.surface.revision + 1
  guard : s'.guard = s.guard
  sessions : ∃ outer : List Session,
    List.Forall₂ (Session.CarriedTo ⟨[⟨target, t.text⟩], .expansion⟩ s'.surface.text.length)
      s.stack.sessions outer ∧ Lands t target.start s.stack.nextId outer s' result

theorem insertTemplate_inserted (s : Scene Document) {t : Template} {target : Span}
    (bounds : ∀ x ∈ t.stops, x.span.start ≤ x.span.finish ∧ x.span.finish ≤ t.text.length)
    (exits : t.stops.countP (·.index == 0) = 1) (upright : target.start ≤ target.finish)
    (inside : target.finish ≤ s.surface.text.length) :
    s.Inserted t target (s.insertTemplate t target).1 (s.insertTemplate t target).2 := by
  obtain ⟨d', happly, htext, hrevision⟩ :=
    Document.apply_single (e := ⟨target, t.text⟩) upright inside .expansion
  have hsurface := Document.surface_apply_eq_ok.mpr happly
  have hroom : target.start + t.text.length ≤ d'.text.length := written_le happly
  unfold insertTemplate
  rw [hsurface]
  dsimp only
  let carried := { s with surface := d' }.remap ⟨[⟨target, t.text⟩], .expansion⟩
  have hid : carried.stack.nextId = s.stack.nextId := s.stack.remap_nextId _ _
  have hopen (index : Nat) : ((carried.openSession target.start t).visit index).surface.text =
      d'.text := document_visit_text (carried.openSession target.start t) index
  have hcarried (index : Nat) : List.Forall₂ (Session.CarriedTo ⟨[⟨target, t.text⟩], .expansion⟩
      ((carried.openSession target.start t).visit index).surface.text.length)
      s.stack.sessions carried.stack.sessions := by
    rw [hopen index]
    exact s.stack.remap_carriedTo (List.cons_ne_nil _ _) _
  cases hfirst : t.firstIndex? with
  | none =>
    have hzero := Template.index_eq_zero hfirst
    obtain ⟨e, he⟩ : ∃ e ∈ t.stops, e.index = 0 := by
      have hpos : 0 < t.stops.countP (·.index == 0) := exits ▸ Nat.zero_lt_one
      simpa using List.countP_pos_iff.mp hpos
    obtain ⟨x, hx, _, hopens⟩ := visit_openSession (s := carried) bounds hroom ⟨e, he⟩
    constructor
    · exact (hopen 0).trans htext
    · exact (visit_revision _ _).trans hrevision
    · rfl
    · refine ⟨carried.stack.sessions, hcarried 0, .exited hzero (congrArg List.tail hx) ?_⟩
      intro fits
      obtain ⟨y, hy, hselection⟩ := hopens.selection fits
      exact ⟨y, hy.exit exits, hselection⟩
  | some index =>
    have hindex := Template.FirstIndex.of_some hfirst
    obtain ⟨x, hx, hxid, hopens⟩ := visit_openSession (s := carried) bounds hroom hindex.present
    constructor
    · exact (hopen index).trans htext
    · exact (visit_revision _ _).trans hrevision
    · rfl
    · exact ⟨carried.stack.sessions, hcarried index,
        .visiting index x hindex hx (hxid.trans hid) hopens⟩

theorem insertSnippet_inserted (settings : Settings) (resolve : Resolver) (s : Scene Document)
    (d : Definition) (target : Span) (upright : target.start ≤ target.finish)
    (inside : target.finish ≤ s.surface.text.length) :
    ∃ line, Lines.StartsAt s.surface.text target.start line ∧
      s.Inserted
        (d.instantiate resolve (settings.indentAt s.surface.text line target.start)) target
        (s.insertSnippet settings resolve d target).1
        (s.insertSnippet settings resolve d target).2 := by
  obtain ⟨line, hline, hprefix⟩ := s.surface.linePrefix_eq (Nat.le_trans upright inside)
  refine ⟨line, hline, ?_⟩
  rw [insertSnippet, hprefix]
  exact insertTemplate_inserted s (d.instantiate_bounds resolve _) (d.instantiate_exits resolve _)
    upright inside

section

variable (settings : Settings) (resolve : Resolver) {i : TriggerIndex}
  (empty : s.surface.selection.IsEmpty) (inside : s.surface.selection.head ≤ s.surface.text.length)

include empty inside

theorem expandAtCursor_of_none
    (h : i.lookup (s.surface.text.take s.surface.selection.head) = none) :
    s.expandAtCursor settings resolve i = (none, s) := by
  rw [← i.lookup_slice inside] at h
  rw [expandAtCursor]
  simp only [Surface.selection, Surface.slice, empty, not_true_eq_false, if_false, h]

theorem expandAtCursor_of_some {d : Definition}
    (h : i.lookup (s.surface.text.take s.surface.selection.head) = some d) :
    s.expandAtCursor settings resolve i =
      Prod.map some id (s.insertSnippet settings resolve d
        ⟨s.surface.selection.head - d.trigger.length, s.surface.selection.head⟩) := by
  rw [← i.lookup_slice inside] at h
  rw [expandAtCursor]
  simp only [Surface.selection, Surface.slice, empty, not_true_eq_false, if_false, h]
  rfl

end

/-- Expanding replaces the trigger that a look-up in all the text in front of the cursor finds. -/
theorem expandAtCursor_inserted (settings : Settings) (resolve : Resolver)
    (definitions : List Definition) (s : Scene Document) (inside : s.surface.SelectionInside)
    (empty : s.surface.selection.IsEmpty) :
    let index := TriggerIndex.ofList definitions
    let cursor := s.surface.selection.head
    let before := s.surface.text.take cursor
    let expanded := s.expandAtCursor settings resolve index
    ((∀ w ∈ triggersOf definitions, ¬ w <:+ before) → expanded = (none, s)) ∧
      ((∃ w ∈ triggersOf definitions, w <:+ before) →
        ∃ d base line result, index.lookup before = some d ∧ base + d.trigger.length = cursor ∧
          Lines.StartsAt s.surface.text base line ∧ expanded.1 = some result ∧
          s.Inserted (d.instantiate resolve (settings.indentAt s.surface.text line base))
            ⟨base, cursor⟩ result expanded.2) := by
  intro index cursor before expanded
  constructor
  · intro hnone
    exact expandAtCursor_of_none settings resolve empty inside.2
      (TriggerIndex.lookup_eq_none_iff.mpr hnone)
  · rintro ⟨w, hw, hends⟩
    cases hfound : index.lookup before with
    | none => exact absurd hends (TriggerIndex.lookup_eq_none_iff.mp hfound w hw)
    | some d =>
      have hexpanded : expanded = _ := expandAtCursor_of_some settings resolve empty inside.2 hfound
      have hfits : d.trigger.length ≤ cursor := by
        obtain ⟨_, _, hsuffix, _⟩ := TriggerIndex.lookup_eq_some_iff.mp hfound
        exact Nat.le_trans hsuffix.length_le (List.length_take_le _ _)
      obtain ⟨line, hline, hinserted⟩ := insertSnippet_inserted settings resolve s d
        ⟨cursor - d.trigger.length, cursor⟩ (Nat.sub_le _ _) inside.2
      rw [hexpanded]
      exact ⟨d, _, line, _, rfl, Nat.sub_add_cancel hfits, hline, rfl, hinserted⟩

def loop : Definition := { trigger := "for".toList, body := "a\n$1".toList }

def indented : Scene Document where
  stack := ⟨[⟨0, 1, LiveStop.normalize [⟨⟨1, ⟨0, 9⟩, none, none⟩, []⟩]⟩], 1⟩
  guard := {}
  surface := ⟨"if\n  xfor".toList, .cursor 9, 0⟩

theorem indented_expands :
    let expanded := indented.expandAtCursor {} (fun _ => none) (.ofList [loop])
    expanded.1 = some (.moved 1) ∧ expanded.2.surface.text = "if\n  xa\n  ".toList ∧
      expanded.2.surface.selection = .cursor 10 := by
  intro expanded
  obtain ⟨d, base, line, result, hd, hbase, hline, hresult, hinserted⟩ :=
    (expandAtCursor_inserted {} (fun _ => none) [loop] indented (by decide) (by decide)).2
      (by decide)
  obtain rfl : loop = d := by simpa using (show _ = some loop by decide).symm.trans hd
  obtain rfl : base = 6 := by
    have : base + 3 = 9 := hbase
    omega
  obtain rfl : line = 3 := hline.unique (Lines.startsAt_startOf _ 6)
  have ht : loop.instantiate (fun _ => none) (Settings.indentAt {} indented.surface.text 3 6) =
      ⟨"a\n  ".toList, [⟨0, ⟨4, 4⟩, none, none⟩, ⟨1, ⟨4, 4⟩, none, none⟩], []⟩ := by decide
  rw [ht] at hinserted
  have htext : expanded.2.surface.text = "if\n  xa\n  ".toList := hinserted.text
  have hfits : expanded.2.surface.Fits := by
    rw [Document.Fits, htext]
    decide
  obtain ⟨outer, -, hlands⟩ := hinserted.sessions
  cases hlands with
  | visiting index x hindex _ _ hopens =>
    obtain ⟨y, hy, hselection⟩ := hopens.selection hfits
    obtain rfl : index = 1 := by
      have hleast := hindex.least ⟨1, ⟨4, 4⟩, none, none⟩ (by simp) Nat.zero_lt_one
      have hpositive := hindex.positive
      dsimp only at hleast
      omega
    obtain rfl : y = ⟨1, ⟨4, 4⟩, none, none⟩ := by
      have hmem := hy.mem
      have hnumbered := hy.numbered
      simp only [List.mem_cons, List.not_mem_nil, or_false] at hmem
      rcases hmem with rfl | rfl
      · cases hnumbered
      · rfl
    exact ⟨hresult, htext, hselection⟩
  | exited hzero _ _ => exact absurd (hzero ⟨1, ⟨4, 4⟩, none, none⟩ (by simp)) (by decide)

end Scene

end Snippets
