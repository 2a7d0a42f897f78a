import Snippets.Proofs.LayoutTyping

/-!
# Turns

One turn of the user on a layout: typing a text for the index that is selected, with any number of
ticks in between, and jumping on. Whenever the sync runs, on a tick or only when the user leaves,
afterwards all fields of the index hold the text, and the next index is selected.
-/

namespace Snippets

def Revision.all (k : Nat) (t : Text) : Revision := fun f => if f.index = k then some t else none

/-- The text of its index for every field from an index on. -/
def Revision.since (k : Nat) (typed : Nat → Text) : Revision := fun f =>
  if k ≤ f.index then some (typed f.index) else none

namespace Row

variable {typed : Nat → Text}

/-- Room for a row in which every field may take the text of its index. -/
def room (typed : Nat → Text) : Row → Nat
  | [] => 0
  | f :: rest => max f.content.length (typed f.index).length + f.gap.length + room typed rest

theorem width_le_room (typed : Nat → Text) (r : Row) : r.width ≤ r.room typed := by
  induction r with
  | nil => exact Nat.le_refl _
  | cons f rest ih =>
    rw [width, room, Field.width]
    omega

theorem room_append (front behind : Row) :
    room typed (front ++ behind) = room typed front + room typed behind := by
  induction front with
  | nil => simp [room]
  | cons f rest ih =>
    rw [List.cons_append, room, room, ih]
    omega

theorem room_revise_le (typed : Nat → Text) (r : Row) (k : Nat) :
    room typed (r.revise (.all k (typed k))) ≤ room typed r := by
  induction r with
  | nil => exact Nat.le_refl _
  | cons f rest ih =>
    rw [revise, List.map_cons, room, room]
    rw [revise] at ih
    have hcontent : (f.revise (.all k (typed k))).content.length ≤
        max f.content.length (typed f.index).length := by
      unfold Field.revise Revision.all
      split
      · omega
      · rename_i t ht
        split at ht
        · rename_i hk
          cases ht
          rw [hk]
          exact Nat.le_max_right _ _
        · cases ht
    rw [f.revise_index, f.revise_gap]
    omega

theorem width_retype_le (typed : Nat → Text) (front : Row) (f : Field) (behind : Row) :
    width (front ++ { f with content := typed f.index } :: behind) ≤
      room typed (front ++ f :: behind) := by
  have hfront := width_le_room typed front
  have hbehind := width_le_room typed behind
  rw [width_append, room_append, width, room, Field.width]
  dsimp only
  omega

theorem revise_revise {r : Row} {new new' joint : Revision}
    (h : ∀ f ∈ r, (f.revise new).revise new' = f.revise joint) :
    (r.revise new).revise new' = r.revise joint := by
  rw [revise, revise, List.map_map]
  exact List.map_congr_left h

theorem revise_since (r : Row) (k : Nat) :
    (r.revise (.all k (typed k))).revise (.since (k + 1) typed) = r.revise (.since k typed) := by
  refine revise_revise fun f _ => ?_
  obtain ⟨index, content, gap⟩ := f
  unfold Field.revise Revision.all Revision.since
  rcases Nat.lt_trichotomy index k with h | rfl | h
  · simp [Nat.ne_of_lt h, Nat.not_le.mpr h, Nat.not_le.mpr (Nat.lt_succ_of_lt h)]
  · have hbehind := Nat.not_succ_le_self index
    simp only [↓reduceIte, hbehind, Nat.le_refl]
  · simp [Nat.ne_of_gt h, Nat.le_of_lt h, Nat.succ_le_of_lt h]

theorem revise_last {r : Row} {k : Nat} (h : ∀ f ∈ r, f.index ≤ k) :
    r.revise (.all k (typed k)) = r.revise (.since k typed) := by
  refine List.map_congr_left fun f hf => ?_
  have hle := h f hf
  unfold Field.revise Revision.all Revision.since
  by_cases hk : f.index = k
  · simp [hk]
  · simp [hk, Nat.not_le.mpr (Nat.lt_of_le_of_ne hle hk)]

end Row

namespace Scene

def Quiet (s : Scene Document) : Prop := ∀ top, s.stack.top? = some top → s.guard.Quiet top.id

variable {s : Scene Document}

theorem Quiet.tick (h : s.Quiet) :
    ∃ guard, s.tick.2 = { s with guard } ∧ { s with guard }.Quiet := by
  unfold Scene.tick
  split
  · exact ⟨s.guard, rfl, h⟩
  · rename_i op session hphase
    split
    · rename_i hcurrent
      rw [Sync.Guard.isCurrent, Bool.and_eq_true, beq_iff_eq, beq_iff_eq, Option.map_eq_some_iff]
        at hcurrent
      obtain ⟨_, top, htop, hid⟩ := hcurrent
      exact absurd (hid ▸ hphase) (h top htop op)
    · exact ⟨s.guard.settle, rfl, fun top _ => s.guard.settle_quiet top.id⟩
  · exact ⟨s.guard.settle, rfl, fun top _ => s.guard.settle_quiet top.id⟩

theorem Quiet.ticks (h : s.Quiet) (n : Nat) :
    ∃ guard, s.ticks n = { s with guard } ∧ { s with guard }.Quiet := by
  induction n generalizing s with
  | zero => exact ⟨s.guard, rfl, h⟩
  | succ n ih =>
    obtain ⟨guard, hs, hquiet⟩ := h.tick
    rw [Scene.ticks, hs]
    exact ih hquiet

variable {l : Layout} {id k : Nat} {front behind : Row} {f : Field}

/-- Typing over the field makes the document show the layout with the new content. -/
theorem typing_field (text : s.surface.text = l.text) (leads : l.Leads k front f behind)
    (selected : s.surface.selection = .ofSpan (f.span (l.base + front.width))) (t : Text) :
    ∃ d', s.typing t = .ok (l.typedChange front f t, { s with surface := d' }) ∧
      (l.retype front f behind t).At d' front { f with content := t } := by
  have hspan : s.surface.selection.span = f.span (l.base + front.width) := by
    rw [selected]
    simp only [Selection.span, Selection.ofSpan, Field.span, Span.mk.injEq]
    omega
  have hfault : Batch.fault? ⟨[⟨f.span (l.base + front.width), t⟩], .user⟩ s.surface.text.length =
      none := by
    refine Batch.fault?_eq_none_iff_apart.mpr ⟨fun e he => ?_, List.pairwise_singleton _ _⟩
    rw [List.mem_singleton] at he
    subst he
    rw [text]
    exact ⟨Nat.le_add_right _ _, leads.cursor_le⟩
  obtain ⟨d', happly⟩ := Document.apply_ok_of_fault?_none hfault
  have hchange : Change.ofBatch ⟨[⟨f.span (l.base + front.width), t⟩], .user⟩ =
      l.typedChange front f t := rfl
  have htext := (Document.apply_eq_ok happly).2.2
  rw [hchange, text] at htext
  refine ⟨{ d' with selection := .cursor (l.base + front.width + t.length) }, ?_, ?_, rfl⟩
  · rw [typing, Document.type, hspan, happly, hchange]
    rfl
  · exact htext.trans (l.replaceFrom_retype leads.split t)

theorem Shows.currentStop?_eq (h : s.Shows l id k) (leads : l.Leads k front f behind)
    (at_field : l.At s.surface front f) : s.currentStop? = some (l.linkedStop front f) := by
  have hposition : (l.session id k).currentPosition? s.surface.selection = some front.length := by
    refine Layout.currentPosition?_session leads.split leads.index leads.first ?_
    rw [at_field.selection]
    unfold Span.Touches
    simp only [Selection.cursor, Field.span]
    omega
  have hselection : Surface.selection s.surface = s.surface.selection := rfl
  rw [currentStop?, Stack.top?, h.sessions, List.head?_cons, Option.bind_some, Session.currentStop?,
    hselection, hposition, Option.bind_some, Layout.getElem?_session leads.split]

theorem Shows.isReference_eq (leads : l.Leads k front f behind) :
    (l.linkedStop front f).isReference = (l.group k).isSome := by
  rw [← leads.index]
  rfl

/-- The session is carried to the layout with the typed text. -/
theorem remap_field {t : Text} (sessions : s.stack.sessions = [l.session id k]) (sound : l.Sound)
    (leads : l.Leads k front f behind) (hk : k ≠ 0)
    (text : s.surface.text = (l.retype front f behind t).text)
    (fits : l.text.length < 9223372036854775808)
    (fits' : (l.retype front f behind t).text.length < 9223372036854775808) :
    (s.remap (l.typedChange front f t)).Shows (l.retype front f behind t) id k := by
  have hsession : (l.session id k).carry (l.typedChange front f t)
      (l.retype front f behind t).text.length = (l.retype front f behind t).session id k := by
    rw [Session.carry, (sound.retype leads t).normalize_eq]
    · rfl
    · intro i
      rw [Layout.getElem?_stops_retype leads fits' sound hk fits, Session.remap, remapStops,
        List.getElem?_map, Layout.session, LiveStop.getElem?_link, Option.map_map, Option.map_map,
        Option.map_map]
      rfl
  have hnormal : ∀ x ∈ s.stack.sessions, LiveStop.Normal x.stops := by
    rw [sessions]
    intro x hx
    rw [List.mem_singleton] at hx
    subst hx
    exact (sound.placed id k).normal
  have hlength : Surface.length s.surface = (l.retype front f behind t).text.length :=
    congrArg List.length text
  refine ⟨text, ?_⟩
  rw [Scene.remap, hlength, Stack.remap_eq_carry hnormal (by simp [Layout.typedChange]), sessions,
    List.map_singleton, hsession]

/-- A sync is asked for only where the index has a group. -/
theorem observe_field (settings : Settings) {t : Text}
    (sessions : s.stack.sessions = [l.session id k]) (sound : l.Sound)
    (leads : l.Leads k front f behind) (hk : k ≠ 0)
    (at_field : (l.retype front f behind t).At s.surface front { f with content := t })
    (fits : l.text.length < 9223372036854775808)
    (fits' : (l.retype front f behind t).text.length < 9223372036854775808) :
    (s.observe settings (l.typedChange front f t)).2.Shows (l.retype front f behind t) id k ∧
      (s.observe settings (l.typedChange front f t)).2.surface = s.surface ∧
      (l.group k = none → s.guard.Quiet id →
        (s.observe settings (l.typedChange front f t)).2.guard.Quiet id) := by
  have hshows := remap_field sessions sound leads hk at_field.text fits fits'
  have hactive : s.isActive = true := by
    rw [isActive, sessions]
    rfl
  have hsurface : (s.remap (l.typedChange front f t)).surface = s.surface := rfl
  have hguard : (s.remap (l.typedChange front f t)).guard = s.guard := rfl
  have hstop := hshows.currentStop?_eq (leads.retype t) at_field
  have hreference := Shows.isReference_eq (leads.retype t)
  unfold observe
  rw [if_neg (by rw [hactive]; simp [Layout.typedChange, Origin.isEngine])]
  dsimp only
  split
  · exact ⟨hshows, hsurface, fun _ h => hguard ▸ h⟩
  · rw [hstop]
    dsimp only
    split
    · rename_i hrequest
      refine ⟨⟨hshows.text, hshows.sessions⟩, hsurface, fun hnone => ?_⟩
      rw [hreference, show (l.retype front f behind t).group k = none from hnone] at hrequest
      cases hrequest
    · exact ⟨hshows, hsurface, fun _ h => hguard ▸ h⟩

structure Spreading (s : Scene Document) (l : Layout) (id k : Nat) (front : Row) (f : Field)
    (behind : Row) : Prop where
  shows : s.Shows l id k
  sound : l.Sound
  leads : l.Leads k front f behind
  at_field : l.At s.surface front f
  fits : l.text.length < 9223372036854775808
  fits' : (l.revise (.fill k f.content)).text.length < 9223372036854775808

/-- Where an index occurs once there is nothing to fill. -/
theorem fill_of_ungrouped (sound : l.Sound) (leads : l.Leads k front f behind)
    (hnone : l.group k = none) : l.revise (.fill k f.content) = l := by
  have hbehind : ∀ e ∈ behind, e.index ≠ k := fun e he hk =>
    (leads.copies_iff sound).mp ⟨e, he, hk⟩ hnone
  have hrow : l.row.revise (.fill k f.content) = l.row := by
    refine (List.map_congr_left fun e he => ?_).trans (List.map_id _)
    rw [Field.revise_fill, id_eq]
    rw [leads.split, List.mem_append, List.mem_cons] at he
    rcases he with he | rfl | he
    · rw [if_neg (leads.first e he)]
    · rw [if_pos leads.index]
    · rw [if_neg (hbehind e he)]
  rw [Layout.revise, hrow]

theorem fill_fill (l : Layout) (k : Nat) (t : Text) :
    (l.revise (.fill k t)).revise (.fill k t) = l.revise (.fill k t) := by
  have hfield (f : Field) : (f.revise (.fill k t)).revise (.fill k t) = f.revise (.fill k t) := by
    simp only [Field.revise_fill]
    split
    · simp_all
    · rfl
  simp only [Layout.revise, Row.revise, List.map_map]
  congr 1
  exact List.map_congr_left fun f _ => hfield f

/-- A sync that is planned while nothing has to be copied changes nothing but the guard. -/
theorem Shows.runSync_single (h : s.Shows l id k) (leads : l.Leads k front f behind)
    (at_field : l.At s.surface front f) (hnone : l.group k = none) (op : Nat) :
    (s.runSync op).2 = { s with guard := s.guard.settle } := by
  have hnowhere (site : Sync.Site) : ¬ site.At s.stack (Editor.document s.surface).selection := by
    intro hsite
    obtain ⟨htop, _⟩ := List.cons.inj (hsite.sessions.symm.trans h.sessions)
    have hstop := h.currentStop?_eq leads at_field
    have hselection : Surface.selection s.surface = s.surface.selection := rfl
    have hcurrent := hsite.current
    rw [Editor.document_self] at hcurrent
    rw [currentStop?, Stack.top?, hsite.sessions, List.head?_cons, Option.bind_some,
      Session.currentStop?, hselection, hcurrent, Option.bind_some, hsite.stop,
      Option.some.injEq] at hstop
    have hreference := hsite.reference
    rw [hstop, Shows.isReference_eq leads, hnone] at hreference
    cases hreference
  have hran := ran op s
  generalize s.runSync op = result at hran ⊢
  obtain ⟨outcome, s'⟩ := result
  dsimp only at hran ⊢
  cases hran with
  | unplanned reason hplan => rfl
  | upToDate site stack hsite => exact absurd hsite (hnowhere site)
  | refused site surface refusal hsite => exact absurd hsite (hnowhere site)
  | applied site surface change hsite => exact absurd hsite (hnowhere site)

theorem Spreading.runSync (h : s.Spreading l id k front f behind) (op : Nat) :
    (s.runSync op).2.Spreading (l.revise (.fill k f.content)) id k front f
        (behind.revise (.fill k f.content)) ∧ (s.runSync op).2.guard.Quiet id := by
  have hfits : ((l.revise (.fill k f.content)).revise (.fill k f.content)).text.length <
      9223372036854775808 := by
    rw [fill_fill]
    exact h.fits'
  cases hg : l.group k with
  | none =>
    have hsame := fill_of_ungrouped h.sound h.leads hg
    have hleads := h.leads.revise
    rw [hsame] at hleads
    rw [h.shows.runSync_single h.leads h.at_field hg, hsame]
    exact ⟨⟨⟨h.shows.text, h.shows.sessions⟩, h.sound, hleads, h.at_field, h.fits, h.fits'⟩,
      s.guard.settle_quiet id⟩
  | some g =>
    have hcopies := (h.leads.copies_iff h.sound).mpr (by rw [hg]; simp)
    obtain ⟨hshows, hat, hquiet⟩ :=
      h.shows.runSync h.sound h.leads h.at_field hcopies hg h.fits h.fits' op
    exact ⟨⟨hshows, h.sound.revise _, h.leads.revise, hat, h.fits', hfits⟩, hquiet⟩

theorem Spreading.guarded (h : s.Spreading l id k front f behind) (guard : Sync.Guard) :
    { s with guard }.Spreading l id k front f behind :=
  ⟨⟨h.shows.text, h.shows.sessions⟩, h.sound, h.leads, h.at_field, h.fits, h.fits'⟩

/-- Whatever a tick does, what is still to be filled stays the same. -/
theorem Spreading.tick (h : s.Spreading l id k front f behind)
    (quiet : l.group k = none → s.guard.Quiet id) :
    ∃ l' behind', s.tick.2.Spreading l' id k front f behind' ∧
      l'.revise (.fill k f.content) = l.revise (.fill k f.content) ∧ l'.group = l.group ∧
      (l.group k = none → s.tick.2.guard.Quiet id) := by
  -- An idle tick, a sync that is due or stale, and the end of one that was carried out.
  unfold Scene.tick
  split
  · exact ⟨l, behind, h, rfl, rfl, quiet⟩
  · rename_i op session _
    split
    · obtain ⟨hspreads, hquiet⟩ := h.runSync op
      exact ⟨_, _, hspreads, fill_fill l k f.content, rfl, fun _ => hquiet⟩
    · exact ⟨l, behind, h.guarded _, rfl, rfl, fun _ => s.guard.settle_quiet id⟩
  · exact ⟨l, behind, h.guarded _, rfl, rfl, fun _ => s.guard.settle_quiet id⟩

theorem Spreading.ticks (h : s.Spreading l id k front f behind)
    (quiet : l.group k = none → s.guard.Quiet id) (n : Nat) :
    ∃ l' behind', (s.ticks n).Spreading l' id k front f behind' ∧
      l'.revise (.fill k f.content) = l.revise (.fill k f.content) ∧ l'.group = l.group ∧
      (l.group k = none → (s.ticks n).guard.Quiet id) := by
  induction n generalizing s l behind with
  | zero => exact ⟨l, behind, h, rfl, rfl, quiet⟩
  | succ n ih =>
    obtain ⟨l', behind', hspreads, hfill, hgroup, hquiet⟩ := h.tick quiet
    obtain ⟨l'', behind'', hspreads', hfill', hgroup', hquiet'⟩ :=
      ih hspreads fun hnone => hquiet (hgroup ▸ hnone)
    exact ⟨l'', behind'', hspreads', hfill'.trans hfill, hgroup'.trans hgroup,
      fun hnone => hquiet' (hgroup ▸ hnone)⟩

theorem flush_runs (s : Scene Document) :
    ∃ op guard, s.flush = Scene.runSync op { s with guard } := by
  have hafresh : ∃ op guard, { s with guard := s.guard.settle }.syncNow =
      Scene.runSync op { s with guard } := ⟨_, s.guard.settle.issue, rfl⟩
  unfold flush
  dsimp only
  split
  · split
    · exact ⟨_, s.guard, rfl⟩
    · exact hafresh
  · exact hafresh

theorem Spreading.flushReference (h : s.Spreading l id k front f behind)
    (quiet : l.group k = none → s.guard.Quiet id) :
    s.flushReference.Shows (l.revise (.fill k f.content)) id k ∧
      s.flushReference.guard.Quiet id := by
  have hreference : s.currentStop?.any (·.isReference) = (l.group k).isSome := by
    rw [h.shows.currentStop?_eq h.leads h.at_field, Option.any_some, Shows.isReference_eq h.leads]
  unfold Scene.flushReference
  rw [hreference]
  cases hg : l.group k with
  | none =>
    rw [fill_of_ungrouped h.sound h.leads hg]
    exact ⟨h.shows, quiet hg⟩
  | some g =>
    obtain ⟨op, guard, hflush⟩ := flush_runs s
    obtain ⟨hspreads, hquiet⟩ := (h.guarded guard).runSync op
    rw [if_pos (by rfl), hflush]
    exact ⟨hspreads.shows, hquiet⟩

structure Ready (s : Scene Document) (l : Layout) (id k : Nat) : Prop where
  shows : s.Shows l id k
  quiet : s.guard.Quiet id
  selected : ∃ front f behind, l.Leads k front f behind ∧
    s.surface.selection = .ofSpan (f.span (l.base + front.width))

theorem Shows.visit (h : s.Shows l id k) (quiet : s.guard.Quiet id) {next : Nat}
    (leads : l.Leads next front f behind) : (s.visit next).Ready l id next := by
  have hfirst : ((l.session id k).firstStop? next).map (·.span) = _ :=
    Layout.firstStop?_session leads.split leads.index leads.first
  obtain ⟨stop, hstop, hspan⟩ := Option.map_eq_some_iff.mp hfirst
  have hlookup : s.stack.top?.bind (·.firstStop? next) = some stop := by
    rw [Stack.top?, h.sessions, List.head?_cons, Option.bind_some, hstop]
  have hvisit : s.visit next = ⟨⟨[l.session id next], s.stack.nextId⟩, s.guard,
      Surface.select s.surface (.ofSpan (f.span (l.base + front.width)))⟩ := by
    simp only [Scene.visit, hlookup, hspan, effect, Stack.apply, h.sessions]
    rfl
  have hin := leads.cursor_le
  rw [hvisit]
  refine ⟨⟨h.text, rfl⟩, quiet, front, f, behind, leads, ?_⟩
  have hlen : s.surface.text.length = l.text.length := congrArg List.length h.text
  simp only [Surface.select, Document.select, Selection.clamp, Selection.ofSpan, Field.span, hlen]
  rw [Nat.min_eq_left (by omega), Nat.min_eq_left hin]

theorem jumpNext_single {top : Session} (h : s.stack.sessions = [top]) :
    s.jumpNext.2 = (s.jumpFrom top).2 := by
  have hactive : s.isActive = true := by
    rw [isActive, h]
    rfl
  have hdepth : s.stack.depth = 1 := by
    rw [Stack.depth, h]
    rfl
  have htop : s.stack.top? = some top := by
    rw [Stack.top?, h]
    rfl
  rw [Scene.jumpNext, if_pos hactive, hdepth, jumpRounds, htop]
  dsimp only
  split
  · rename_i index s' hjump
    rw [hjump]
  · rename_i result s' hjump
    rw [hjump]
    rfl

theorem Shows.quiet_scene (h : s.Shows l id k) (quiet : s.guard.Quiet id) : s.Quiet := by
  intro top htop
  rw [Stack.top?, h.sessions, List.head?_cons, Option.some.injEq] at htop
  subst htop
  exact quiet

theorem Ready.quiet_scene (h : s.Ready l id k) : s.Quiet := h.shows.quiet_scene h.quiet

theorem Ready.ticks (h : s.Ready l id k) (n : Nat) : (s.ticks n).Ready l id k := by
  obtain ⟨guard, hticks, hquiet⟩ := h.quiet_scene.ticks n
  rw [hticks]
  refine ⟨⟨h.shows.text, h.shows.sessions⟩, hquiet (l.session id k) ?_, h.selected⟩
  rw [Stack.top?, h.shows.sessions]
  rfl

theorem Shows.visit_exit (h : s.Shows l id k) : (s.visit 0).Shows l id 0 := by
  constructor
  · simp only [Scene.visit, effect]
    split
    · exact h.text
    · exact h.text
  · simp only [Scene.visit, effect, Stack.apply, h.sessions]
    rfl

/-- Nothing waits for a session that was closed. -/
theorem Shows.pop_quiet (h : s.Shows l id k) : (s.effect .pop).Quiet := by
  intro top htop
  simp only [effect, Stack.apply, h.sessions, Stack.top?, List.tail_cons, List.head?_nil] at htop
  cases htop

theorem Spreading.jumpNext (h : s.Spreading l id k front f behind)
    (quiet : l.group k = none → s.guard.Quiet id) :
    s.jumpNext.2.surface.text = (l.revise (.fill k f.content)).text ∧ s.jumpNext.2.Quiet ∧
      (l.row.HasIndex (k + 1) → s.jumpNext.2.Ready (l.revise (.fill k f.content)) id (k + 1)) := by
  have hk := h.leads.index_ne_zero h.sound
  have hcurrent : (l.session id k).current = k := rfl
  obtain ⟨hshows, hquiet⟩ := h.flushReference quiet
  rw [jumpNext_single h.shows.sessions]
  by_cases hnext : l.row.HasIndex (k + 1)
  · have hgo : (l.session id k).next? = some (k + 1) := by
      rw [Session.next?, hcurrent, if_neg hk, if_pos (Layout.hasIndex_session.mpr (Or.inl hnext))]
    have hrow : (l.revise (.fill k f.content)).row.HasIndex (k + 1) := Row.hasIndex_revise.mpr hnext
    obtain ⟨front', e, behind', hsplit, hindex, hfirst⟩ := hrow.first
    have hready := hshows.visit hquiet ⟨hsplit, hindex, hfirst⟩
    rw [jumpFrom, hgo]
    exact ⟨hready.shows.text, hready.quiet_scene, fun _ => hready⟩
  · have hgo : (l.session id k).next? = some 0 := by
      rw [Session.next?, hcurrent, if_neg hk, if_neg, if_pos]
      · exact Layout.hasIndex_session.mpr (Or.inr rfl)
      · rw [Layout.hasIndex_session]
        exact fun h => h.elim hnext (Nat.succ_ne_zero k)
    have hjump : s.jumpFrom (l.session id k) =
        if s.flushReference.atExit then (.closed .exited, s.flushReference.effect .pop)
        else (.landed 0, s.flushReference.visit 0) := by
      rw [jumpFrom, hgo]
      rfl
    rw [hjump]
    split
    · exact ⟨hshows.text, hshows.pop_quiet, fun hhas => absurd hhas hnext⟩
    · have hexit := hshows.visit_exit
      exact ⟨hexit.text, hexit.quiet_scene hquiet, fun hhas => absurd hhas hnext⟩

/-- Typing into the first field and filling the others gives the text to all of them. -/
theorem fill_retype (leads : l.Leads k front f behind) (t : Text) :
    (l.retype front f behind t).revise (.fill k t) = l.revise (.all k t) := by
  have hall (e : Field) : e.revise (.all k t) = e.revise (.fill k t) := by
    rw [Field.revise_fill, Field.revise, Revision.all]
    split
    · rename_i hnone
      rw [if_neg fun h => by simp [h] at hnone]
    · rename_i u hsome
      split at hsome
      · rw [if_pos ‹_›]
        cases hsome
        rfl
      · cases hsome
  have htyped : Field.revise (.fill k t) { f with content := t } = f.revise (.fill k t) := by
    rw [Field.revise_fill, Field.revise_fill, if_pos leads.index, if_pos leads.index]
  have hrow : (l.retype front f behind t).row.revise (.fill k t) = l.row.revise (.all k t) := by
    rw [Layout.retype, leads.split, Row.revise, Row.revise, List.map_append, List.map_append,
      List.map_cons, List.map_cons, htyped, ← hall]
    congr 1
    · exact List.map_congr_left fun e _ => (hall e).symm
    · congr 1
      exact List.map_congr_left fun e _ => (hall e).symm
  rw [Layout.revise, hrow]
  rfl

/-- After a turn all fields of the index hold the typed text, and the next index is selected. -/
theorem Ready.turn (h : s.Ready l id k) (sound : l.Sound) (settings : Settings) (r : Turn)
    (fits : l.text.length < 9223372036854775808)
    (retyped : ∀ front f behind, l.row = front ++ f :: behind → f.index = k →
      (l.retype front f behind r.typed).text.length < 9223372036854775808)
    (filled : (l.revise (.all k r.typed)).text.length < 9223372036854775808) :
    ∃ s', s.turn settings r = .ok s' ∧ s'.surface.text = (l.revise (.all k r.typed)).text ∧
      (l.row.HasIndex (k + 1) → s'.Ready (l.revise (.all k r.typed)) id (k + 1)) := by
  obtain ⟨front, f, behind, leads, hselected⟩ := h.selected
  have hretyped := retyped front f behind leads.split leads.index
  obtain ⟨d', htyping, hat⟩ := typing_field h.shows.text leads hselected r.typed
  have hquiet : { s with surface := d' }.Quiet := h.quiet_scene
  -- Until the engine hears of the text nothing waits for the session, so ticks leave it alone.
  obtain ⟨guard, hticks, hquiet'⟩ := hquiet.ticks r.unnoted
  have hsessions : s.stack.sessions = [l.session id k] := h.shows.sessions
  obtain ⟨hshows, hsurface, hguard⟩ := observe_field (s := ⟨s.stack, guard, d'⟩) settings
    hsessions sound leads (leads.index_ne_zero sound) hat fits hretyped
  have hfill := fill_retype leads r.typed
  have hspreads : Spreading (observe settings ⟨s.stack, guard, d'⟩
      (l.typedChange front f r.typed)).2 (l.retype front f behind r.typed) id k front
      { f with content := r.typed } behind := by
    refine ⟨hshows, sound.retype leads _, leads.retype _, ?_, hretyped, ?_⟩
    · rw [hsurface]
      exact hat
    · rw [hfill]
      exact filled
  have hready : guard.Quiet id := hquiet' (l.session id k) (by rw [Stack.top?, hsessions]; rfl)
  obtain ⟨l', behind', hspreads', hfill', hgroup, hquiet''⟩ :=
    hspreads.ticks (fun hnone => hguard hnone hready) r.noted
  obtain ⟨htext, hleft, hnext⟩ := hspreads'.jumpNext fun hnone => hquiet'' (hgroup ▸ hnone)
  have htarget : l'.revise (.fill k r.typed) = l.revise (.all k r.typed) := hfill'.trans hfill
  dsimp only at htext hnext
  rw [htarget] at htext hnext
  have hturn : s.turn settings r = .ok (Scene.ticks r.left (Scene.ticks r.noted
      ((Scene.ticks r.unnoted { s with surface := d' }).observe settings
        (l.typedChange front f r.typed)).2).jumpNext.2) := by
    rw [Scene.turn, htyping]
    rfl
  dsimp only at hticks
  rw [hticks] at hturn
  refine ⟨_, hturn, ?_, fun hhas => ?_⟩
  · obtain ⟨guard', hticks', _⟩ := hleft.ticks r.left
    rw [hticks']
    exact htext
  · refine (hnext ?_).ticks r.left
    have hrow : l'.row.revise (.fill k r.typed) = l.row.revise (.all k r.typed) :=
      congrArg Layout.row htarget
    rw [← Row.hasIndex_revise, hrow]
    exact Row.hasIndex_revise.mpr hhas

/-- Where there is room for all texts, every turn finds room. -/
theorem Ready.turn_of_room (settings : Settings) {typed : Nat → Text} {r : Turn}
    (h : s.Ready l id k) (sound : l.Sound) (hr : r.typed = typed k)
    (room : l.base + l.row.room typed + l.tail.length < 9223372036854775808) :
    ∃ s', s.turn settings r = .ok s' ∧ s'.surface.text = (l.revise (.all k (typed k))).text ∧
      (l.row.HasIndex (k + 1) → s'.Ready (l.revise (.all k (typed k))) id (k + 1)) := by
  have hwidth := Row.width_le_room typed l.row
  have hsmaller := Row.room_revise_le typed l.row k
  have hwidth' := Row.width_le_room typed (l.row.revise (.all k (typed k)))
  have hfits : l.text.length < 9223372036854775808 := by
    rw [Layout.length_text]
    omega
  have hfilled : (l.revise (.all k (typed k))).text.length < 9223372036854775808 := by
    rw [Layout.length_text]
    simp only [Layout.revise, Layout.base] at room ⊢
    omega
  have hretyped : ∀ front f behind, l.row = front ++ f :: behind → f.index = k →
      (l.retype front f behind (typed k)).text.length < 9223372036854775808 := by
    rintro front f behind hsplit rfl
    have hle := Row.width_retype_le typed front f behind
    rw [← hsplit] at hle
    rw [Layout.length_text]
    simp only [Layout.retype, Layout.base] at room hle ⊢
    omega
  rw [← hr] at hfilled hretyped ⊢
  exact h.turn sound settings r hfits hretyped hfilled

/-- From a selected index on, turns for this and all indices that follow leave every field with its
text. -/
theorem Ready.turns (settings : Settings) {typed : Nat → Text} (r : Turn) (rest : List Turn)
    (h : s.Ready l id k) (sound : l.Sound)
    (room : l.base + l.row.room typed + l.tail.length < 9223372036854775808)
    (texts : ∀ i t, (r :: rest)[i]? = some t → t.typed = typed (k + i))
    (present : ∀ j, k ≤ j → (l.row.HasIndex j ↔ j ≤ k + rest.length)) :
    ∃ s', s.turns settings (r :: rest) = .ok s' ∧
      s'.surface.text = (l.revise (.since k typed)).text := by
  -- Every turn hands over the layout that it filled, so the layout varies along the turns.
  induction rest generalizing r k s l with
  | nil =>
    obtain ⟨s', hturn, htext, _⟩ := h.turn_of_room settings sound (texts 0 r rfl) room
    have hlast : ∀ f ∈ l.row, f.index ≤ k := by
      intro f hf
      rcases Nat.le_total f.index k with hle | hle
      · exact hle
      · exact (present f.index hle).mp ⟨f, hf, rfl⟩
    refine ⟨s', by rw [Scene.turns, hturn]; rfl, ?_⟩
    rw [htext, Layout.revise, Layout.revise, Row.revise_last hlast]
  | cons r' rest ih =>
    obtain ⟨s', hturn, _, hnext⟩ := h.turn_of_room settings sound (texts 0 r rfl) room
    have hready := hnext ((present (k + 1) (Nat.le_succ k)).mpr (by simp))
    have hsmaller := Row.room_revise_le typed l.row k
    have hroom : (l.revise (.all k (typed k))).base + (l.revise (.all k (typed k))).row.room typed +
        (l.revise (.all k (typed k))).tail.length < 9223372036854775808 := by
      simp only [Layout.revise, Layout.base] at room ⊢
      omega
    obtain ⟨s'', hturns, htext⟩ := ih r' hready (sound.revise _) hroom
      (fun i t ht => by
        have := texts (i + 1) t ht
        rw [this]
        congr 1
        omega)
      (fun j hj => by
        have := present j (by omega)
        rw [List.length_cons] at this
        rw [show (l.revise (.all k (typed k))).row.HasIndex j ↔ l.row.HasIndex j from
          Row.hasIndex_revise, this]
        omega)
    refine ⟨s'', by rw [Scene.turns, hturn]; exact hturns, ?_⟩
    rw [htext, Layout.revise, Layout.revise, Layout.revise, Row.revise_since]

end Scene

end Snippets
