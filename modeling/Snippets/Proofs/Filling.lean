import Snippets.Proofs.Forms
import Snippets.Proofs.Issued
import Snippets.Proofs.Turns

/-!
# Filling in a form

A form is inserted at the cursor and filled in, one index after the other. The template of the form
has the stops of its row, so the document shows the row with its session, and the turns of the user
replace every hole by the text for its index.
-/

namespace Snippets

theorem mem_repeatedIndices {stops : List TabStop} {k : Nat} :
    k ∈ repeatedIndices stops ↔ 1 < (stops.map (·.index)).count k := by
  rw [repeatedIndices, List.mem_eraseDups, List.mem_filter, decide_eq_true_eq]
  constructor
  · exact And.right
  · intro h
    exact ⟨List.count_pos_iff.mp (Nat.lt_trans Nat.zero_lt_one h), h⟩

namespace Row

/-- The stops of a row as a template lists them, an exit behind the text in front. -/
def listed (offset : Nat) (r : Row) : List TabStop :=
  exitStop [] (offset + width r) :: sortStable TabStop.le (marks offset r)

def grouping (offset : Nat) (r : Row) : Grouping := (repeatedIndices (listed offset r)).idxOf?

variable {r : Row} {offset : Nat}

theorem map_index_marks (offset : Nat) (r : Row) :
    (marks offset r).map (·.index) = r.map (·.index) := by
  induction r generalizing offset with
  | nil => rfl
  | cons f rest ih => simp [marks, ih]

theorem count_listed (k : Nat) : ((listed offset r).map (·.index)).count k =
    (r.map (·.index)).count k + if k = 0 then 1 else 0 := by
  have hsorted := ((sortStable_perm TabStop.le (marks offset r)).map (·.index)).count_eq k
  rw [map_index_marks] at hsorted
  rw [listed, List.map_cons, List.count_cons, hsorted]
  by_cases hk : k = 0
  · simp [hk, exitStop]
  · simp [hk, exitStop, Ne.symm hk]

theorem grouping_eq_none {k : Nat} : grouping offset r k = none ↔
    (r.map (·.index)).count k + (if k = 0 then 1 else 0) ≤ 1 := by
  rw [grouping, List.idxOf?_eq_none_iff, mem_repeatedIndices, count_listed, Nat.not_lt]

theorem grouping_injective {i j g : Nat} (hi : grouping offset r i = some g)
    (hj : grouping offset r j = some g) : i = j := by
  rw [grouping, List.idxOf?_eq_some_iff] at hi hj
  obtain ⟨hlt, hi, _⟩ := hi
  obtain ⟨_, hj, _⟩ := hj
  exact hi.symm.trans hj

/-- The stops of a row are its marks and the exit, each with its group. -/
theorem map_toTabStop_stops (g : Grouping) (exit : g 0 = none) (offset : Nat) (r : Row) :
    (stops g offset r).map (·.toTabStop) =
      (marks offset r ++ [exitStop [] (offset + width r)]).map
        fun s => { s with group := g s.index } := by
  induction r generalizing offset with
  | nil => simp [stops, marks, Field.exit, exitStop, exit, width]
  | cons f rest ih =>
    rw [stops, marks, List.map_cons, ih, width, Nat.add_assoc]
    rfl

theorem map_ofTabStop_stops (g : Grouping) {base offset : Nat} {r : Row}
    (fits : base + offset + width r < 9223372036854775808) :
    ((stops g offset r).map (·.toTabStop)).map (LiveStop.ofTabStop base) =
      stops g (base + offset) r := by
  have hshift {a b : Nat} (ha : base + a < 9223372036854775808)
      (hb : base + b < 9223372036854775808) : Span.shift ⟨a, b⟩ base = ⟨base + a, base + b⟩ := by
    rw [Span.shift, Word.unsigned_eq (Nat.lt_trans ha (by decide)),
      Word.unsigned_eq (Nat.lt_trans hb (by decide))]
  induction r generalizing offset with
  | nil =>
    rw [width] at fits
    simp only [stops, List.map_cons, List.map_nil, LiveStop.ofTabStop, Field.exit,
      hshift fits fits]
  | cons f rest ih =>
    rw [width] at fits
    have hend : base + (offset + f.content.length) < 9223372036854775808 := by
      rw [Field.width] at fits
      omega
    rw [stops, List.map_cons, List.map_cons, ih (by omega), stops, Nat.add_assoc]
    simp only [LiveStop.ofTabStop, Field.stop, Field.span, Nat.add_assoc,
      hshift (a := offset) (by omega) hend]

theorem index_ne_zero (spaced : Spaced r) : ∀ f ∈ r, f.index ≠ 0 := by
  induction r with
  | nil =>
    intro f hf
    cases hf
  | cons f rest ih => exact List.forall_mem_cons.mpr ⟨spaced.1, ih spaced.2.2⟩

theorem ofRendering_stops (spaced : Spaced r) (lead : Text) :
    (Template.ofRendering ⟨lead ++ text r, marks lead.length r, []⟩).stops.Perm
      ((stops (grouping lead.length r) lead.length r).map (·.toTabStop)) := by
  have hzero : ∀ k ∈ (marks lead.length r).map (·.index), k ≠ 0 := by
    rw [map_index_marks]
    intro k hk
    obtain ⟨f, hf, rfl⟩ := List.mem_map.mp hk
    exact index_ne_zero spaced f hf
  have hnone : ∀ s ∈ sortStable TabStop.le (marks lead.length r), s.index ≠ 0 := fun s hs =>
    hzero _ (List.mem_map_of_mem (mem_sortStable.mp hs))
  have hexit : grouping lead.length r 0 = none := by
    rw [grouping_eq_none, List.count_eq_zero.mpr]
    · exact Nat.le_refl 1
    · rw [← map_index_marks]
      exact fun h => hzero 0 h rfl
  have hkept : exitStop (sortStable TabStop.le (marks lead.length r)) (lead ++ text r).length ::
      (sortStable TabStop.le (marks lead.length r)).filter (·.index != 0) =
        listed lead.length r := by
    have hfind : (sortStable TabStop.le (marks lead.length r)).find? (·.index == 0) = none := by
      rw [List.find?_eq_none]
      simpa using hnone
    rw [listed, exitStop, hfind, List.filter_eq_self.mpr (by simpa using hnone),
      List.length_append, length_text]
    rfl
  rw [map_toTabStop_stops _ hexit]
  dsimp only [Template.ofRendering]
  rw [hkept]
  refine List.Perm.map _ ?_
  rw [listed]
  exact ((sortStable_perm _ _).cons _).trans (List.perm_append_singleton _ _).symm

end Row

namespace Row

theorem hasIndex_of_stops {t : Template} {g : Grouping} {offset : Nat}
    (same : t.stops.Perm ((stops g offset r).map (·.toTabStop))) {k : Nat} :
    k ∈ t.stops.map (·.index) ↔ r.HasIndex k ∨ k = 0 := by
  rw [(same.map (·.index)).mem_iff, List.map_map, ← any_stops g offset r k]
  simp [List.any_eq_true]

end Row

namespace Template

variable {r : Row} {t : Template} {g : Grouping} {offset : Nat}

theorem firstIndex?_of_hasIndex (same : t.stops.Perm ((r.stops g offset).map (·.toTabStop)))
    (present : r.HasIndex 1) : t.firstIndex? = some 1 := by
  rw [firstIndex?, List.min?_eq_some_iff]
  constructor
  · rw [List.mem_filter]
    exact ⟨(Row.hasIndex_of_stops same).mpr (Or.inl present), by decide⟩
  · intro k hk
    exact Nat.succ_le_of_lt (by simpa using (List.mem_filter.mp hk).2)

theorem firstIndex?_of_nil (same : t.stops.Perm ((Row.stops g offset []).map (·.toTabStop))) :
    t.firstIndex? = none := by
  rw [firstIndex?, List.min?_eq_none_iff, List.filter_eq_nil_iff]
  intro k hk
  rcases (Row.hasIndex_of_stops same).mp hk with ⟨f, hf, _⟩ | rfl
  · cases hf
  · decide

end Template

namespace Form

theorem text_revise_since {f : Form} (spaced : f.row.Spaced) (typed : Nat → Text) :
    f.lead ++ (f.row.revise (.since 1 typed)).text = f.filled typed := by
  have hholes (holes : List Hole) (numbered : ∀ h ∈ holes, h.index ≠ 0) :
      Row.text (Row.revise (.since 1 typed) (holes.map Hole.field)) =
        holes.flatMap fun h => typed h.index ++ h.gap := by
    induction holes with
    | nil => rfl
    | cons h rest ih =>
      obtain ⟨hh, hrest⟩ := List.forall_mem_cons.mp numbered
      have hfield : h.field.revise (.since 1 typed) = ⟨h.index, typed h.index, h.gap⟩ := by
        have : 1 ≤ h.index := Nat.pos_of_ne_zero hh
        simp [Field.revise, Revision.since, Hole.field, this]
      rw [List.map_cons, Row.revise, List.map_cons, hfield, Row.text_cons, List.flatMap_cons,
        List.append_assoc]
      exact congrArg (fun t => typed h.index ++ (h.gap ++ t)) (ih hrest)
  refine congrArg (f.lead ++ ·) (hholes f.holes fun h hh => ?_)
  exact Row.index_ne_zero spaced h.field (List.mem_map_of_mem hh)

end Form

namespace Scene

variable {s : Scene Document} {before after lead : Text} {row : Row} {g : Grouping} {t : Template}

theorem remap_idle (idle : s.stack.sessions = []) (c : Change) : s.remap c = s := by
  rw [remap, Stack.remap_of_sessions_nil idle]

theorem openSession_shows (spaced : row.Spaced) (idle : s.stack.sessions = [])
    (stops : t.stops.Perm ((row.stops g lead.length).map (·.toTabStop)))
    (text : s.surface.text = before ++ lead ++ (row.text ++ after))
    (fits : s.surface.text.length < 9223372036854775808) :
    (s.openSession before.length t).Shows ⟨before ++ lead, row, after, g⟩ s.stack.nextId 0 := by
  have hlen : (before ++ lead).length = before.length + lead.length := List.length_append ..
  have hfits : before.length + lead.length + row.width < 9223372036854775808 := by
    rw [text] at fits
    simp only [List.length_append, Row.length_text] at fits
    omega
  have hperm : (t.stops.map (LiveStop.ofTabStop before.length)).Perm
      (row.stops g (before ++ lead).length) := by
    rw [hlen, ← Row.map_ofTabStop_stops g hfits]
    exact stops.map _
  have hstrict := Row.stops_strict (g := g) spaced (before ++ lead).length
  have hsession := LiveStop.normalize_eq_link (fun _ hs => (Row.stops_bounds hs).1)
    (hstrict.imp And.left) (hstrict.imp fun h k => h.2 k.2) hperm
  refine ⟨text, ?_⟩
  rw [openSession, effect, Stack.apply, hsession, idle]
  rfl

theorem insertion_applies {d : Document} (text : d.text = before ++ after) (t : Text)
    (origin : Origin) :
    ∃ change d', Surface.apply d ⟨[⟨⟨before.length, before.length⟩, t⟩], origin⟩ =
      (.ok change, d') ∧ d'.text = before ++ (t ++ after) := by
  have hinside : before.length ≤ d.text.length := by
    rw [text, List.length_append]
    exact Nat.le_add_right _ _
  obtain ⟨d', happly, htext, _⟩ :=
    Document.apply_single (e := ⟨⟨before.length, before.length⟩, t⟩) (Nat.le_refl _) hinside origin
  have hsurface : Surface.apply d ⟨[⟨⟨before.length, before.length⟩, t⟩], origin⟩ =
      (.ok ⟨[⟨⟨before.length, before.length⟩, t⟩], origin⟩, d') := by
    simp only [Surface.apply, happly]
  refine ⟨_, d', hsurface, ?_⟩
  rw [htext, text]
  simp [Text.splice]

def formLayout (f : Form) (before after : Text) : Layout :=
  ⟨before ++ f.lead, f.row, after, Row.grouping f.lead.length f.row⟩

section

variable {f : Form} (sound : f.Sound)

include sound

theorem formLayout_sound (before after : Text) : (formLayout f before after).Sound := by
  refine ⟨sound.spaced, Row.grouping_injective, fun hk => ?_⟩
  rw [formLayout, Row.grouping_eq_none, if_neg hk, Nat.add_zero]

theorem text_formLayout (before after : Text) (typed : Nat → Text) :
    ((formLayout f before after).revise (.since 1 typed)).text =
      before ++ (f.filled typed ++ after) := by
  rw [← Form.text_revise_since sound.spaced, Layout.text, Layout.revise, formLayout]
  simp only [List.append_assoc]

variable (text : s.surface.text = before ++ after) (idle : s.stack.sessions = [])
  (fits : before.length + f.lead.length + f.row.width + after.length < 9223372036854775808)

include text idle fits

/-- Inserting a form opens the session of its row; then its first index is visited, if it has one.
-/
theorem insertTemplate_form :
    ∃ s' : Scene Document, s'.guard = s.guard ∧
      s'.Shows (formLayout f before after) s.stack.nextId 0 ∧
      (s.insertTemplate (.parse f.source) ⟨before.length, before.length⟩).2 =
        match (Template.parse f.source).firstIndex? with
        | some index => s'.visit index
        | none => (s'.visit 0).effect .pop := by
  have hparse := Template.parse_form sound
  have hstops := Row.ofRendering_stops sound.spaced f.lead
  rw [← hparse] at hstops
  have hshown : (Template.parse f.source).text = f.lead ++ f.row.text := by
    rw [hparse]
    rfl
  generalize Template.parse f.source = t at hstops hshown ⊢
  obtain ⟨change, d', happly, htext⟩ := insertion_applies text t.text .expansion
  have htext' : d'.text = before ++ f.lead ++ (f.row.text ++ after) := by
    rw [htext, hshown]
    simp only [List.append_assoc]
  have hfits : d'.text.length < 9223372036854775808 := by
    rw [htext']
    simp only [List.length_append, Row.length_text]
    omega
  refine ⟨openSession { s with surface := d' } before.length t, rfl,
    openSession_shows sound.spaced idle hstops htext' hfits, ?_⟩
  unfold insertTemplate
  rw [happly]
  dsimp only
  rw [remap_idle (s := { s with surface := d' }) idle]
  cases t.firstIndex? with
  | none => rfl
  | some index => rfl

/-- A form without holes is left at once. -/
theorem insertTemplate_nil (empty : f.row = []) :
    (s.insertTemplate (.parse f.source) ⟨before.length, before.length⟩).2.surface.text =
        (formLayout f before after).text ∧
      (s.insertTemplate (.parse f.source) ⟨before.length, before.length⟩).2.Quiet := by
  obtain ⟨s', _, hshows, hinsert⟩ := insertTemplate_form sound text idle fits
  have hstops := Row.ofRendering_stops sound.spaced f.lead
  rw [← Template.parse_form sound, empty] at hstops
  rw [hinsert, Template.firstIndex?_of_nil hstops]
  exact ⟨hshows.visit_exit.text, hshows.visit_exit.pop_quiet⟩

/-- No sync was ever asked for in the session that a form opens. -/
theorem insertTemplate_ready (issued : s.Issued) (present : f.row.HasIndex 1) :
    (s.insertTemplate (.parse f.source) ⟨before.length, before.length⟩).2.Ready
      (formLayout f before after) s.stack.nextId 1 := by
  obtain ⟨s', hguard, hshows, hinsert⟩ := insertTemplate_form sound text idle fits
  have hstops := Row.ofRendering_stops sound.spaced f.lead
  rw [← Template.parse_form sound] at hstops
  have hquiet : s'.guard.Quiet s.stack.nextId := by
    rw [hguard]
    intro op hphase
    exact Nat.lt_irrefl _ (issued.waiting op _ hphase)
  obtain ⟨front, e, behind, hsplit, hindex, hfirst⟩ := present.first
  rw [hinsert, Template.firstIndex?_of_hasIndex hstops present]
  exact hshows.visit hquiet ⟨hsplit, hindex, hfirst⟩

end

variable {f : Form} {rs : List Turn}

/-- Filling in a form leaves its text with the answer of the user in every hole, whatever sync mode
is set and however many ticks come between any two steps. The room that is asked for is room for the
longest text that a hole ever holds. -/
theorem fillIn_text (settings : Settings) (first : Nat) (sound : f.Sound)
    (indices : ∀ k, (∃ h ∈ f.holes, h.index = k) ↔ 1 ≤ k ∧ k ≤ rs.length) (issued : s.Issued)
    (idle : s.stack.sessions = []) (text : s.surface.text = before ++ after)
    (cursor : s.surface.selection = .cursor before.length)
    (room : before.length + f.lead.length + f.row.room (answer rs) + after.length <
      9223372036854775808) :
    ∃ s', s.fillIn settings f.source first rs = .ok s' ∧
      s'.surface.text = before ++ (f.filled (answer rs) ++ after) := by
  have hindices (k : Nat) : f.row.HasIndex k ↔ 1 ≤ k ∧ k ≤ rs.length := by
    rw [← indices k, Row.HasIndex, Form.row]
    simp [Hole.field]
  have hwidth := Row.width_le_room (answer rs) f.row
  have htarget : s.surface.selection.span = ⟨before.length, before.length⟩ := by
    rw [cursor]
    simp [Selection.span, Selection.cursor]
  rw [fillIn, htarget, ← text_formLayout sound]
  cases rs with
  | nil =>
    -- Without turns there are no holes, and the session is closed before the first tick.
    have hempty : f.row = [] := by
      refine List.eq_nil_iff_forall_not_mem.mpr fun e he => ?_
      have hrange := (hindices e.index).mp ⟨e, he, rfl⟩
      rw [List.length_nil] at hrange
      omega
    obtain ⟨htext, hquiet⟩ := insertTemplate_nil sound text idle (by omega) hempty
    obtain ⟨guard, hticks, _⟩ := hquiet.ticks first
    refine ⟨_, rfl, ?_⟩
    rw [hticks, Layout.revise, formLayout, hempty]
    rw [formLayout, hempty] at htext
    exact htext
  | cons r rest =>
    have hone : f.row.HasIndex 1 := (hindices 1).mpr ⟨Nat.le_refl 1, by simp⟩
    have hready := (insertTemplate_ready sound text idle (by omega) issued hone).ticks first
    refine hready.turns settings r rest (formLayout_sound sound before after) ?_ ?_ ?_
    · simpa [Layout.base, formLayout] using room
    · intro i t ht
      simp [answer, ht]
    · intro j hj
      change f.row.HasIndex j ↔ _
      rw [hindices j, List.length_cons]
      omega

def pairForm : Form :=
  ⟨['<'], [⟨['1'], some ['a'], ['=']⟩, ⟨['2'], none, ['|']⟩, ⟨['1'], none, ['>']⟩]⟩

theorem pairForm_sound : pairForm.Sound := by
  constructor
  · decide
  · intro h hh
    simp only [pairForm, List.mem_cons, List.not_mem_nil, or_false] at hh
    rcases hh with rfl | rfl | rfl
    · exact ⟨by decide, by decide, by decide, by decide, by decide⟩
    · exact ⟨by decide, by decide, by decide, by decide, by decide⟩
    · exact ⟨by decide, by decide, by decide, by decide, by decide⟩
  · exact ⟨by decide, by decide, by decide, by decide, by decide, by decide, trivial⟩

theorem pairForm_filled :
    ∃ s', (start (⟨['x', 'y'], .cursor 1, 0⟩ : Document)).fillIn
        { syncMode := .realtime } pairForm.source 1
        [⟨['i', 'd'], 1, 0, 2⟩, ⟨['7'], 0, 1, 0⟩] = .ok s' ∧
      s'.surface.text = ['x', '<', 'i', 'd', '=', '7', '|', 'i', 'd', '>', 'y'] := by
  refine fillIn_text _ 1 pairForm_sound ?_ (issued_start _) rfl
    (show _ = ['x'] ++ ['y'] from rfl) rfl (by decide)
  intro k
  simp [pairForm, Hole.index, numeral]
  omega

end Scene

end Snippets
