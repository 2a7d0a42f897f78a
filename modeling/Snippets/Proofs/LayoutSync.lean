import Snippets.Proofs.Layouts
import Snippets.Proofs.AppliedSync

/-!
# Syncs on a layout

While the cursor is at the end of the first field of an index, a sync gives the content of that
field to all fields of the index and leaves the cursor where it is.
-/

namespace Snippets

def Revision.fill (k : Nat) (t : Text) : Revision := fun f =>
  if f.index = k ∧ f.content ≠ t then some t else none

theorem Field.revise_fill (k : Nat) (t : Text) (f : Field) :
    f.revise (.fill k t) = if f.index = k then { f with content := t } else f := by
  obtain ⟨index, content, gap⟩ := f
  unfold Field.revise Revision.fill
  by_cases hk : index = k
  · by_cases ht : content = t
    · simp [ht]
    · simp [hk, ht]
  · simp [hk]

structure Layout.Leads (l : Layout) (k : Nat) (front : Row) (f : Field) (behind : Row) : Prop where
  split : l.row = front ++ f :: behind
  index : f.index = k
  first : ∀ e ∈ front, e.index ≠ k

theorem Row.split_lt {front behind before after : Row} {f e : Field}
    (h : front ++ f :: behind = before ++ e :: after) (lt : front.length < before.length) :
    ∃ mid, before = front ++ f :: mid := by
  rcases List.append_eq_append_iff.mp h with ⟨mid, hmid, hrest⟩ | ⟨mid, hmid, _⟩
  · cases mid with
    | nil =>
      rw [hmid, List.append_nil] at lt
      omega
    | cons a mid =>
      rw [List.cons_append] at hrest
      exact ⟨mid, by rw [hmid, (List.cons.inj hrest).1]⟩
  · rw [hmid, List.length_append] at lt
    omega

namespace Layout

variable {l : Layout} {k id : Nat} {front behind : Row} {f : Field} {d : Document}

theorem Leads.index_ne_zero (h : l.Leads k front f behind) (sound : l.Sound) : k ≠ 0 := by
  have hspaced := sound.spaced
  rw [h.split] at hspaced
  rw [← h.index]
  clear h
  induction front with
  | nil => exact hspaced.1
  | cons e rest ih => exact ih hspaced.2.2

/-- An index has a group exactly where it occurs again. -/
theorem Leads.copies_iff (h : l.Leads k front f behind) (sound : l.Sound) :
    (∃ e ∈ behind, e.index = k) ↔ l.group k ≠ none := by
  have hfront : (front.map (·.index)).count k = 0 := by
    rw [List.count_eq_zero]
    simpa using h.first
  have hcount : (l.row.map (·.index)).count k = (behind.map (·.index)).count k + 1 := by
    rw [h.split, List.map_append, List.map_cons, List.count_append, hfront, h.index]
    simp
  have hbehind : (∃ e ∈ behind, e.index = k) ↔ 0 < (behind.map (·.index)).count k := by
    rw [List.count_pos_iff]
    simp
  rw [hbehind, ne_eq, sound.repeated (h.index_ne_zero sound), hcount]
  omega

theorem Leads.behind_of_ne {before after : Row} {e : Field} (h : l.Leads k front f behind)
    (hr : l.row = before ++ e :: after) (hk : e.index = k) (ne : before.length ≠ front.length) :
    ∃ mid, before = front ++ f :: mid := by
  rcases Nat.lt_or_gt_of_ne ne with hlt | hlt
  · obtain ⟨mid, hmid⟩ := Row.split_lt (hr.symm.trans h.split) hlt
    exact absurd hk (h.first e (by simp [hmid]))
  · exact Row.split_lt (h.split.symm.trans hr) hlt

theorem Leads.cursor_le (h : l.Leads k front f behind) :
    l.base + front.width + f.content.length ≤ l.text.length := by
  rw [length_text, h.split, Row.width_append, Row.width, Field.width]
  omega

theorem slice_field {before after : Row} {e : Field} (split : l.row = before ++ e :: after) :
    l.text.slice (e.span (l.base + before.width)) = e.content := by
  have htext : l.text =
      (l.lead ++ before.text) ++ (e.content ++ (e.gap ++ (after.text ++ l.tail))) := by
    simp [text, split, Row.text_append]
  have hlen : (l.lead ++ before.text).length = l.base + before.width := by simp [base]
  rw [Field.span, Text.slice_add, htext, List.drop_left' hlen, List.take_left' rfl]

def linkedStop (l : Layout) (front : Row) (f : Field) : LiveStop :=
  { f.stop l.group (l.base + front.width) with
    linked := LiveStop.linksAt l.stops (f.stop l.group (l.base + front.width)) front.length }

theorem getElem?_session {current : Nat} (split : l.row = front ++ f :: behind) :
    (l.session id current).stops[front.length]? = some (l.linkedStop front f) := by
  rw [session, LiveStop.getElem?_link, getElem?_stops split]
  rfl

theorem field_of_group {i g : Nat} {s : LiveStop} (hs : l.stops[i]? = some s)
    (hg : s.group = some g) : ∃ before e after, l.row = before ++ e :: after ∧ i = before.length ∧
      s = e.stop l.group (l.base + Row.width before) ∧ l.group e.index = some g := by
  rcases Row.position_cases l.row i with ⟨before, e, after, hr, rfl⟩ | rfl | hlong
  · rw [getElem?_stops hr, Option.some.injEq] at hs
    subst hs
    exact ⟨before, e, after, hr, rfl, rfl, hg⟩
  · rw [getElem?_stops_exit, Option.some.injEq] at hs
    subst hs
    cases hg
  · rw [getElem?_stops_none hlong] at hs
    cases hs

theorem Leads.linked_eq (h : l.Leads k front f behind) {g : Nat} (grouped : l.group k = some g) :
    (l.linkedStop front f).linked = LiveStop.members l.stops g front.length := by
  have hgroup : (f.stop l.group (l.base + front.width)).group = some g := by
    rw [← grouped, ← h.index]
    rfl
  simp only [linkedStop, LiveStop.linksAt, hgroup]

theorem Leads.mem_linked {before after : Row} {e : Field} (h : l.Leads k front f behind) {g : Nat}
    (grouped : l.group k = some g) (split : l.row = before ++ e :: after) (copy : e.index = k)
    (ne : before.length ≠ front.length) : before.length ∈ (l.linkedStop front f).linked := by
  rw [h.linked_eq grouped, LiveStop.mem_members]
  refine ⟨ne, _, getElem?_stops split, ?_⟩
  rw [← grouped, ← copy]
  rfl

def site (l : Layout) (id k : Nat) (front : Row) (f : Field) : Sync.Site :=
  ⟨l.session id k, [], front.length, l.linkedStop front f⟩

structure At (l : Layout) (d : Document) (front : Row) (f : Field) : Prop where
  text : d.text = l.text
  selection : d.selection = .cursor (l.base + front.width + f.content.length)

section

variable (sound : l.Sound) (leads : l.Leads k front f behind) (at_field : l.At d front f)

include sound leads at_field

theorem site_sound : (l.site id k front f).Sound d := by
  have hplaced := sound.placed id k
  rw [← at_field.text] at hplaced
  exact ⟨getElem?_session leads.split, hplaced.normal, hplaced.inside⟩

theorem site_source : (l.site id k front f).source d = f.span (l.base + front.width) := by
  refine (l.site_sound sound leads at_field).source_eq ?_
  rw [at_field.selection]
  simp [Selection.cursor, Selection.span, site, linkedStop, Field.stop, Field.span]

theorem site_text : (l.site id k front f).text d = f.content := by
  rw [Sync.Site.text, l.site_source sound leads at_field, at_field.text, slice_field leads.split]

theorem field_of_replaces {g i : Nat} (grouped : l.group k = some g) {m : LiveStop}
    (hm : (l.site id k front f).Replaces d i m) :
    ∃ before e after, l.row = before ++ e :: after ∧ i = before.length ∧
      m = l.linkedStop before e ∧ e.index = k ∧ e.content ≠ f.content := by
  have hmem := hm.linked
  rw [site, leads.linked_eq grouped, LiveStop.mem_members] at hmem
  obtain ⟨_, s, hs, hsg⟩ := hmem
  obtain ⟨before, e, after, hr, rfl, rfl, he⟩ := field_of_group hs hsg
  have hstop := hm.stop
  rw [site, getElem?_session hr, Option.some.injEq] at hstop
  subst hstop
  have hdiffers := hm.differs
  rw [l.site_text sound leads at_field, at_field.text] at hdiffers
  refine ⟨before, e, after, hr, rfl, rfl, sound.distinct he grouped, ?_⟩
  rw [← slice_field hr]
  exact hdiffers

/-- A copy with another content stands behind the source, so nothing keeps it from being replaced.
-/
theorem replaces_of_field {before after : Row} {e : Field} {g : Nat} (grouped : l.group k = some g)
    (split : l.row = before ++ e :: after) (copy : e.index = k) (differs : e.content ≠ f.content) :
    (l.site id k front f).Replaces d before.length (l.linkedStop before e) := by
  have hne : before.length ≠ front.length := by
    intro heq
    have hef := (List.append_inj (split.symm.trans leads.split) heq).2
    exact differs (congrArg Field.content (List.cons.inj hef).1)
  refine ⟨leads.mem_linked grouped split copy hne, getElem?_session split, ?_, ?_⟩
  · obtain ⟨mid, rfl⟩ := leads.behind_of_ne split copy hne
    rw [l.site_source sound leads at_field]
    simp only [linkedStop, Field.stop, Field.span, Row.width_append, Row.width, Field.width,
      Span.Overlaps]
    split
    · omega
    · omega
  · rw [l.site_text sound leads at_field, at_field.text]
    exact fun heq => differs ((slice_field split).symm.trans heq)

/-- What is replaced are the fields of the index that hold another text. -/
theorem site_replaces {g i : Nat} (grouped : l.group k = some g) {e : Edit} :
    (i, e) ∈ (l.site id k front f).edits d ↔
      (i, e) ∈ l.row.edits (.fill k f.content) 0 l.base := by
  have htext : (l.site id k front f).text d = f.content := l.site_text sound leads at_field
  rw [Sync.Site.mem_edits, Row.mem_edits]
  constructor
  · rintro ⟨m, hm, rfl⟩
    obtain ⟨before, e, after, hr, rfl, rfl, hindex, hcontent⟩ :=
      l.field_of_replaces sound leads at_field grouped hm
    refine ⟨before, e, after, f.content, hr, if_pos ⟨hindex, hcontent⟩, ?_⟩
    rw [htext, Nat.zero_add]
    rfl
  · rintro ⟨before, e, after, t, hr, ht, hie⟩
    rw [Nat.zero_add, Prod.mk.injEq] at hie
    obtain ⟨rfl, rfl⟩ := hie
    unfold Revision.fill at ht
    split at ht
    · rename_i hfill
      obtain rfl := Option.some.inj ht
      refine ⟨_, l.replaces_of_field sound leads at_field grouped hr hfill.1 hfill.2, ?_⟩
      rw [htext]
      rfl
    · cases ht

variable (id)

theorem site_edits {g : Nat} (grouped : l.group k = some g) :
    (l.site id k front f).edits d = l.row.edits (.fill k f.content) 0 l.base := by
  have hsound : (l.site id k front f).Sound d := l.site_sound sound leads at_field
  have hsite := hsound.edits_positions
  have hrow : (l.row.edits (.fill k f.content) 0 l.base).Pairwise fun a b => a.1 < b.1 :=
    (Row.edits_precede sound.spaced 0 l.base).imp And.left
  have hnodup {edits : List (Nat × Edit)} (h : edits.Pairwise fun a b => a.1 < b.1) :
      edits.Nodup := by
    refine List.Pairwise.imp ?_ h
    rintro a b hab rfl
    omega
  have hperm : ((l.site id k front f).edits d).Perm (l.row.edits (.fill k f.content) 0 l.base) := by
    refine (List.perm_ext_iff_of_nodup (hnodup hsite) (hnodup hrow)).mpr fun a => ?_
    exact l.site_replaces sound leads at_field grouped (i := a.1) (e := a.2)
  refine hperm.eq_of_pairwise (fun a b _ _ hab hba => ?_) hsite hrow
  omega

theorem site_accepted {g : Nat} (grouped : l.group k = some g) (origin : Origin) :
    Batch.fault? ⟨((l.site id k front f).plan d).edits, origin⟩ d.text.length = none := by
  rw [(l.site_sound sound leads at_field).fault?_eq_none_iff,
    l.site_edits id sound leads at_field grouped]
  exact (Row.edits_precede sound.spaced 0 l.base).imp fun h => Or.inl h.2

theorem site_fill {g : Nat} (grouped : l.group k = some g) :
    d.text.replaceFrom 0 (((l.site id k front f).edits d).map (·.2)) =
      (l.revise (.fill k f.content)).text := by
  rw [l.site_edits id sound leads at_field grouped, at_field.text,
    Row.replaceFrom_edits (Nat.zero_le _) l.drop_text]
  have hlead : l.text.slice ⟨0, l.base⟩ = l.lead := by
    rw [Text.slice, List.drop_zero]
    exact List.take_left' rfl
  rw [hlead]
  rfl

theorem site_stops {g : Nat} (grouped : l.group k = some g)
    (fits : l.text.length < 9223372036854775808)
    (fits' : (l.revise (.fill k f.content)).text.length < 9223372036854775808) :
    LiveStop.normalize ((l.site id k front f).stops d) =
      LiveStop.link (l.revise (.fill k f.content)).stops := by
  have hkept : Revision.fill k f.content f = none := if_neg fun h => h.2 rfl
  have hsame : ∀ e t, Revision.fill k f.content e = some t → t.length = f.content.length := by
    intro e t ht
    unfold Revision.fill at ht
    split at ht
    · cases ht
      rfl
    · cases ht
  rw [length_text] at fits'
  have hrow := Row.getElem?_stops_revise sound.spaced l.drop_text l.base_le fits fits' l.group
    leads.split rfl hkept rfl hsame
  refine (sound.revise _).normalize_eq fun i => ?_
  have hlen : ((l.site id k front f).source d).length = f.content.length := by
    rw [l.site_source sound leads at_field]
    simp [Field.span, Span.length]
  rw [Sync.Site.getElem?_stops, l.site_edits id sound leads at_field grouped, hlen]
  have hat := hrow i
  rw [show (l.revise (.fill k f.content)).stops = Row.stops l.group l.base
    (l.row.revise (.fill k f.content)) from rfl, hat]
  simp only [site, session, LiveStop.getElem?_link, Option.map_map]
  rfl

end

theorem Leads.revise (h : l.Leads k front f behind) :
    (l.revise (.fill k f.content)).Leads k front f (behind.revise (.fill k f.content)) := by
  refine ⟨?_, h.index, h.first⟩
  have hfront : Row.revise (.fill k f.content) front = front := by
    refine (List.map_congr_left fun e he => ?_).trans (List.map_id front)
    rw [Field.revise_fill, if_neg (h.first e he), id_eq]
  have hf : f.revise (.fill k f.content) = f := by
    rw [Field.revise_fill, if_pos h.index]
  have happend : Row.revise (.fill k f.content) (front ++ f :: behind) =
      Row.revise (.fill k f.content) front ++
        f.revise (.fill k f.content) :: Row.revise (.fill k f.content) behind := by
    simp [Row.revise]
  rw [Layout.revise, h.split, happend, hfront, hf]

end Layout

def Sync.Guard.Quiet (g : Guard) (id : Nat) : Prop := ∀ op, g.phase ≠ .scheduled op id

theorem Sync.Guard.settle_quiet (g : Guard) (id : Nat) : g.settle.Quiet id := by
  intro op hphase
  cases hphase

namespace Scene

structure Shows (s : Scene Document) (l : Layout) (id current : Nat) : Prop where
  text : s.surface.text = l.text
  sessions : s.stack.sessions = [l.session id current]

variable {s : Scene Document} {l : Layout} {id k : Nat} {front behind : Row} {f : Field}

theorem Shows.site_at (h : s.Shows l id k) (leads : l.Leads k front f behind)
    (at_field : l.At s.surface front f) (copies : ∃ e ∈ behind, e.index = k) {g : Nat}
    (grouped : l.group k = some g) : (l.site id k front f).At s.stack s.surface.selection := by
  have hgroup : (l.linkedStop front f).group = some g := by
    rw [← grouped, ← leads.index]
    rfl
  refine ⟨h.sessions, ?_, Layout.getElem?_session leads.split, ?_, ?_⟩
  · refine Layout.currentPosition?_session leads.split leads.index leads.first ?_
    rw [at_field.selection]
    unfold Span.Touches
    simp only [Selection.cursor, Field.span]
    omega
  · change (l.linkedStop front f).group.isSome = true
    rw [hgroup]
    rfl
  · obtain ⟨e, he, hek⟩ := copies
    obtain ⟨mid, after, rfl⟩ := List.append_of_mem he
    have hr : l.row = (front ++ f :: mid) ++ e :: after := by simp [leads.split]
    exact List.ne_nil_of_mem (leads.mem_linked grouped hr hek (by simp))

/-- The replacements of a sync lie behind the cursor. -/
theorem Shows.cursor_lt (sound : l.Sound) (leads : l.Leads k front f behind)
    (at_field : l.At s.surface front f) {g : Nat} (grouped : l.group k = some g) {e : Edit}
    (he : e ∈ ((l.site id k front f).edits s.surface).map (·.2)) :
    l.base + front.width + f.content.length < e.span.start := by
  rw [l.site_edits id sound leads at_field grouped] at he
  obtain ⟨a, ha, rfl⟩ := List.mem_map.mp he
  obtain ⟨before, b, after, t, hr, ht, rfl⟩ := Row.mem_edits.mp ha
  unfold Revision.fill at ht
  split at ht
  · rename_i hfill
    have hne : before.length ≠ front.length := by
      intro heq
      have hbf := (List.append_inj (hr.symm.trans leads.split) heq).2
      exact hfill.2 (congrArg Field.content (List.cons.inj hbf).1)
    obtain ⟨mid, rfl⟩ := leads.behind_of_ne hr hfill.1 hne
    have hgap := sound.gap_length_ne_zero leads.split (by
      rintro rfl
      have hlength := congrArg List.length (leads.split.symm.trans hr)
      simp at hlength)
    simp only [Field.span, Row.width_append, Row.width, Field.width]
    omega
  · cases ht

/-- A sync leaves the cursor at the end of the field that it copied from. -/
theorem Shows.at_applied (sound : l.Sound) (leads : l.Leads k front f behind)
    (at_field : l.At s.surface front f) {g : Nat} (grouped : l.group k = some g)
    (fits' : (l.revise (.fill k f.content)).text.length < 9223372036854775808) {op : Nat}
    {change : Change} {d' : Document}
    (happly : s.surface.apply ⟨((l.site id k front f).plan s.surface).edits, .sync op⟩ =
      .ok (change, d')) : (l.revise (.fill k f.content)).At d' front f := by
  obtain ⟨hfault, hchange, htext⟩ := Document.apply_eq_ok happly
  have hsound : (l.site id k front f).Sound s.surface := l.site_sound sound leads at_field
  have hedits : change.edits = ((l.site id k front f).edits s.surface).map (·.2) := by
    rw [hchange, (hsound.accepted hfault).1]
  rw [hedits, l.site_fill id sound leads at_field grouped] at htext
  have hroom : l.base + front.width + f.content.length ≤ d'.text.length := by
    rw [htext]
    exact leads.revise.cursor_le
  have hstay : change.mapOffset (l.base + front.width + f.content.length) .before =
      l.base + front.width + f.content.length := by
    refine Change.mapOffset_of_lt (fun e he => ?_) (by rw [htext] at hroom; omega)
    rw [hedits] at he
    exact Shows.cursor_lt sound leads at_field grouped he
  refine ⟨htext, ?_⟩
  rw [Document.apply_selection happly, at_field.selection]
  simp only [Selection.cursor, Selection.clamp, hstay, Nat.min_eq_left hroom]
  rfl

/-- A sync in the first field of an index fills the other ones, whatever it is that asks for it. -/
theorem Shows.runSync (h : s.Shows l id k) (sound : l.Sound) (leads : l.Leads k front f behind)
    (at_field : l.At s.surface front f) (copies : ∃ e ∈ behind, e.index = k) {g : Nat}
    (grouped : l.group k = some g) (fits : l.text.length < 9223372036854775808)
    (fits' : (l.revise (.fill k f.content)).text.length < 9223372036854775808) (op : Nat) :
    (s.runSync op).2.Shows (l.revise (.fill k f.content)) id k ∧
      (l.revise (.fill k f.content)).At (s.runSync op).2.surface front f ∧
      (s.runSync op).2.guard.Quiet id := by
  have hsite := h.site_at leads at_field copies grouped
  have hfill := l.site_fill id sound leads at_field grouped
  have hstops := l.site_stops id sound leads at_field grouped fits fits'
  have hran := ran op s
  generalize s.runSync op = result at hran ⊢
  obtain ⟨outcome, s'⟩ := result
  dsimp only at hran ⊢
  have hrestacked (outer : List Session) (hnil : outer = []) :
      (restacked (l.site id k front f) ((l.site id k front f).stops s.surface) outer
        s.stack.nextId).sessions = [(l.revise (.fill k f.content)).session id k] := by
    rw [restacked, hstops, hnil]
    rfl
  cases hran with
  | unplanned reason hplan => cases hplan.symm.trans hsite.plan_eq
  | upToDate site stack hsite' hnil hstack =>
    obtain rfl := hsite.unique hsite'
    simp only [Editor.document_self] at hnil hstack
    rw [hnil] at hfill
    refine ⟨⟨hfill, ?_⟩, ⟨hfill, at_field.selection⟩, s.guard.settle_quiet id⟩
    rcases hstack with rfl | rfl
    · rw [l.site_edits id sound leads at_field grouped] at hnil
      have hsame : l.revise (.fill k f.content) = l := by
        rw [Layout.revise, Row.revise_eq_self hnil]
      rw [hsame]
      exact h.sessions
    · exact hrestacked _ rfl
  | refused site surface refusal hsite' _ happly =>
    obtain rfl := hsite.unique hsite'
    obtain ⟨d', hd'⟩ := Document.apply_ok_of_fault?_none
      (l.site_accepted id sound leads at_field grouped (.sync op))
    simp [Surface.apply, hd'] at happly
  | applied site surface change hsite' _ happly =>
    obtain rfl := hsite.unique hsite'
    simp only [Editor.document_self] at happly
    have hat := Shows.at_applied sound leads at_field grouped fits' happly
    have hquiet : Sync.Guard.Quiet { s.guard with phase := .settling op } id := by
      intro op hphase
      cases hphase
    exact ⟨⟨hat.text, hrestacked _ rfl⟩, hat, hquiet⟩

end Scene

end Snippets
