import Mathlib.Data.List.Chain
import Snippets.Proofs.Endings
import Snippets.Proofs.Expansion
import Snippets.Proofs.FollowingText
import Snippets.Proofs.Moves
import Snippets.Proofs.Settling

/-!
# Enclosed sessions

A snippet that is expanded inside the stop the user stands in opens a session that lies in that
stop. Main statement: it stays there. An edit anywhere in the document, the next choice and one more
template keep every session inside a stop of the current index of the session around it.
-/

namespace Snippets

namespace Change

/-- The range is upright, and its ends are carried to where they land: they do not wrap. -/
structure Tracks (c : Change) (s : Span) : Prop where
  upright : s.start ≤ s.finish
  start : ∀ side, (c.mapOffset s.start side : Int) = Edit.landing s.start side c.edits
  finish : ∀ side, (c.mapOffset s.finish side : Int) = Edit.landing s.finish side c.edits

variable {c : Change} {t : Text} {e : Edit} {a b : Span}

/-- A range keeps around it what it includes, if it grows. -/
theorem mapSpan_includes {length : Nat} (h : Edit.Ordered length c.edits) (ha : c.Tracks a)
    (hb : c.Tracks b) (inside : a.Includes b) (grows : Bool) (length' : Nat) :
    (c.mapSpan a true length').Includes (c.mapSpan b grows length') := by
  have hlanding {x y : Nat} (hxy : x ≤ y) (side : Side) :
      Edit.landing x side c.edits ≤ Edit.landing y side c.edits := Edit.landing_mono h hxy
  have hstart := hlanding inside.1
  have hfinish := hlanding inside.2
  have hupright := hlanding hb.upright
  have hsides := Edit.landing_before_le_after b.start c.edits
  have hsides' := Edit.landing_before_le_after b.finish c.edits
  simp only [← ha.start, ← hb.start, ← ha.finish, ← hb.finish, Int.ofNat_le] at *
  have := hstart .before
  have := hfinish .after
  have := hupright .after
  cases grows with
  | true =>
    simp only [mapSpan, Span.Includes, if_true]
    omega
  | false =>
    simp only [mapSpan, Span.Includes, if_true, Bool.false_eq_true, if_false]
    omega

section

variable (h : Edit.Ordered t.length c.edits)
  (fits : (t.replaceFrom 0 c.edits).length < 9223372036854775808)

include h fits

/-- An offset behind the document moves by all of its growth. -/
theorem mapOffset_eq_of_room {offset : Nat}
    (room : offset + (t.replaceFrom 0 c.edits).length < 9223372036854775808 + t.length)
    (side : Side) : (c.mapOffset offset side : Int) = Edit.landing offset side c.edits := by
  by_cases hin : offset ≤ t.length
  · exact mapOffset_eq h fits hin side
  · -- It is the end of a longer document.
    let longer : Text := List.replicate offset ' '
    have hlength : longer.length = offset := List.length_replicate
    have hlonger : Edit.Ordered longer.length c.edits := by
      refine ⟨h.upright, fun e he => ?_, h.apart⟩
      have := h.inside e he
      omega
    have hgrown := Text.length_replaceFrom h (fun e _ => Nat.zero_le e.span.start) (Nat.zero_le _)
    have hgrown' :=
      Text.length_replaceFrom hlonger (fun e _ => Nat.zero_le e.span.start) (Nat.zero_le _)
    exact mapOffset_eq hlonger (by omega) (Nat.le_of_eq hlength.symm) side

theorem tracks_of_room (upright : a.start ≤ a.finish)
    (room : a.finish + (t.replaceFrom 0 c.edits).length < 9223372036854775808 + t.length) :
    c.Tracks a :=
  ⟨upright, mapOffset_eq_of_room h fits (by omega), mapOffset_eq_of_room h fits room⟩

theorem mapSpan_includes_textPlace (he : e ∈ c.edits) (ha : c.Tracks a)
    (inside : a.Includes e.span) :
    (c.mapSpan a true (t.replaceFrom 0 c.edits).length).Includes (c.textPlace e) := by
  have hin : e.span.start ≤ t.length := Nat.le_trans (h.upright e he) (h.inside e he)
  have hbefore := mapOffset_eq h fits hin .before
  have hafter := mapOffset_eq h fits hin .after
  have hinside := mapOffset_le_length h fits hin .after
  have hstart : Edit.landing a.start .before c.edits ≤ Edit.landing e.span.start .before c.edits :=
    Edit.landing_mono h inside.1
  have hfinish : Edit.landing e.span.start .after c.edits ≤ Edit.landing a.finish .after c.edits :=
    Edit.landing_mono h (Nat.le_trans (h.upright e he) inside.2)
  rw [← hbefore, ← ha.start] at hstart
  rw [← hafter, ← ha.finish] at hfinish
  rw [(textPlace_eq h fits he).1]
  simp only [mapSpan, Span.Includes, if_true]
  omega

end

theorem textPlace_single (e : Edit) (origin : Origin) :
    (Change.mk [e] origin).textPlace e = ⟨e.span.start, e.span.start + e.text.length⟩ := by
  simp [textPlace]

end Change

namespace Session

def Around (x : Session) (spans : List Span) : Prop :=
  ∃ stop ∈ x.stops, stop.index = x.current ∧ ∀ s ∈ spans, stop.span.Includes s

instance (x : Session) (spans : List Span) : Decidable (x.Around spans) :=
  inferInstanceAs (Decidable (∃ _ ∈ _, _))

/-- All stops of a session lie in one stop of the current index of the session around it. -/
def Encloses (outer inner : Session) : Prop := outer.Around (inner.stops.map (·.span))

instance (outer inner : Session) : Decidable (outer.Encloses inner) :=
  inferInstanceAs (Decidable (outer.Around _))

variable {c : Change} {length : Nat} {x x' outer outer' inner inner' : Session}

theorem CarriedTo.span (h : x.CarriedTo c length x') {stop' : LiveStop} (hstop : stop' ∈ x'.stops) :
    ∃ stop ∈ x.stops, stop'.span = c.mapSpan stop.span (stop.index == x.current) length := by
  obtain ⟨moved, hmoved, heq⟩ := List.mem_map.mp (h.stops.mem_iff.mp (List.mem_map_of_mem hstop))
  obtain ⟨stop, hmem, rfl⟩ := List.mem_map.mp hmoved
  exact ⟨stop, hmem, by rw [← heq]⟩

/-- The stop of the current index grows. -/
theorem Around.carried {spans spans' : List Span} (h : x.Around spans)
    (hx : x.CarriedTo c length x')
    (follow : ∀ stop ∈ x.stops, (∀ s ∈ spans, stop.span.Includes s) →
      ∀ s' ∈ spans', (c.mapSpan stop.span true length).Includes s') : x'.Around spans' := by
  obtain ⟨stop, hstop, hcurrent, hin⟩ := h
  have hmoved : { stop.toTabStop with span := c.mapSpan stop.span true length } ∈
      x'.stops.map (·.toTabStop) := by
    refine hx.stops.mem_iff.mpr (List.mem_map.mpr ⟨_, List.mem_map_of_mem hstop, ?_⟩)
    simp [hcurrent]
  obtain ⟨stop', hstop', heq⟩ := List.mem_map.mp hmoved
  refine ⟨stop', hstop', ?_, ?_⟩
  · rw [heq, hx.current]
    exact hcurrent
  · rw [heq]
    exact follow stop hstop hin

theorem Encloses.carried {length : Nat} (h : outer.Encloses inner)
    (ordered : Edit.Ordered length c.edits) (touter : ∀ y ∈ outer.stops, c.Tracks y.span)
    (tinner : ∀ y ∈ inner.stops, c.Tracks y.span) {length' : Nat}
    (ho : outer.CarriedTo c length' outer') (hi : inner.CarriedTo c length' inner') :
    outer'.Encloses inner' := by
  refine Around.carried h ho fun stop hstop hin s' hs' => ?_
  obtain ⟨y', hy', rfl⟩ := List.mem_map.mp hs'
  obtain ⟨y, hy, hspan⟩ := hi.span hy'
  rw [hspan]
  exact Change.mapSpan_includes ordered (touter stop hstop) (tinner y hy)
    (hin y.span (List.mem_map_of_mem hy)) _ _

theorem span_of_mem_stretch {chosen : Span} (upright : chosen.start ≤ chosen.finish)
    (uprights : ∀ y ∈ x.stops, y.span.start ≤ y.span.finish) {index : Nat} {y' : LiveStop}
    (h : y' ∈ (x.stretch index chosen).stops) :
    y'.span = chosen ∨ ∃ y ∈ x.stops, y'.span = y.span := by
  obtain ⟨y, hy, heq⟩ := LiveStop.exists_of_mem_normalize h
  rcases Scene.mem_stretchFirst hy with hold | hchosen
  · rw [LiveStop.upright_eq_self (uprights y hold)] at heq
    exact Or.inr ⟨y, hold, by rw [heq]⟩
  · rw [LiveStop.upright_eq_self (by rw [hchosen]; exact upright)] at heq
    exact Or.inl (by rw [heq, hchosen])

end Session

namespace Stack

def Enclosed (s : Stack) : Prop := s.sessions.IsChain fun inner outer => outer.Encloses inner

instance (s : Stack) : Decidable s.Enclosed := inferInstanceAs (Decidable (List.IsChain _ _))

variable {s : Stack} {c : Change}

theorem Enclosed.remap (h : s.Enclosed) {length : Nat} (ordered : Edit.Ordered length c.edits)
    (tracks : ∀ x ∈ s.sessions, ∀ y ∈ x.stops, c.Tracks y.span) (length' : Nat) :
    (s.remap c length').Enclosed := by
  by_cases hc : c.edits = []
  · rw [remap_of_edits_nil hc]
    exact h
  · rw [Enclosed, remap_eq_replaced s hc, List.isChain_map]
    exact h.imp_of_mem_imp fun inner outer hi ho hencloses =>
      hencloses.carried ordered (tracks outer ho) (tracks inner hi)
        (outer.carriedTo_replaced c length') (inner.carriedTo_replaced c length')

end Stack

namespace Scene

variable {σ : Type} [Editor σ]

structure RoomFor (s : Scene σ) (length : Nat) : Prop where
  fits : length < 9223372036854775808
  upright : ∀ x ∈ s.stack.sessions, ∀ y ∈ x.stops, y.span.start ≤ y.span.finish
  stops : ∀ x ∈ s.stack.sessions, ∀ y ∈ x.stops,
    y.span.finish + length < 9223372036854775808 + (Editor.document s.surface).text.length

variable {s : Scene σ} {b : Batch} {c : Change} {d' : Document} {surface : σ}

theorem Placed.roomFor (h : s.Placed) {length : Nat} (fits : length < 9223372036854775808) :
    s.RoomFor length := by
  refine ⟨fits, fun x hx => (h x hx).normal.upright, fun x hx y hy => ?_⟩
  have := (h x hx).inside y hy
  omega

section

variable (made : (Editor.document s.surface).apply b = .ok (c, d'))
  (room : s.RoomFor d'.text.length)

include made room

theorem RoomFor.tracks : ∀ x ∈ s.stack.sessions, ∀ y ∈ x.stops, c.Tracks y.span := by
  obtain ⟨hfault, rfl, htext⟩ := Document.apply_eq_ok made
  have hordered := Batch.fault?_eq_none_iff.mp hfault
  have hfits := room.fits
  have hstops := room.stops
  rw [htext] at hfits hstops
  exact fun x hx y hy =>
    Change.tracks_of_room hordered hfits (room.upright x hx y hy) (hstops x hx y hy)

theorem enclosed_remap (h : s.stack.Enclosed) (surface : σ) :
    ({ s with surface }.remap c).stack.Enclosed := by
  obtain ⟨hfault, rfl, -⟩ := Document.apply_eq_ok made
  exact h.remap (Batch.fault?_eq_none_iff.mp hfault) (room.tracks made) _

end

/-- A range around the place of an edit, and growing, includes the text that was put there. -/
theorem RoomFor.includes_text {e : Edit} {origin : Origin}
    (made : (Editor.document s.surface).apply ⟨[e], origin⟩ = .ok (c, d'))
    (room : s.RoomFor d'.text.length) {x : Session} (hx : x ∈ s.stack.sessions) {y : LiveStop}
    (hy : y ∈ x.stops) (inside : y.span.Includes e.span) :
    (c.mapSpan y.span true d'.text.length).Includes
      ⟨e.span.start, e.span.start + e.text.length⟩ := by
  have htracks := room.tracks made x hx y hy
  obtain ⟨hfault, rfl, htext⟩ := Document.apply_eq_ok made
  have hfits := room.fits
  rw [htext] at hfits ⊢
  rw [← Change.textPlace_single e origin]
  exact Change.mapSpan_includes_textPlace (Batch.fault?_eq_none_iff.mp hfault) hfits
    List.mem_cons_self htracks inside

theorem enclosed_observe (settings : Settings) (h : s.stack.Enclosed)
    (made : (Editor.document s.surface).apply b = .ok (c, d')) (user : b.origin = .user)
    (room : s.RoomFor d'.text.length) (surface : σ) :
    ({ s with surface }.observe settings c).2.stack.Enclosed := by
  have hengine : c.origin.isEngine = false := by
    rw [(Document.apply_eq_ok made).2.1, Change.ofBatch, user]
    rfl
  rw [observe_stack _ _ hengine]
  exact enclosed_remap made room h surface

/-- The stop that a text was put into lies in the session around, and so does that text. -/
theorem encloses_stretch {e : Edit} {origin : Origin}
    (made : (Editor.document s.surface).apply ⟨[e], origin⟩ = .ok (c, d'))
    (room : s.RoomFor d'.text.length) {top around : Session} (htop : top ∈ s.stack.sessions)
    (haround : around ∈ s.stack.sessions) (h : around.Encloses top) {stop : LiveStop}
    (hstop : stop ∈ top.stops) (here : stop.span = e.span) (index : Nat) :
    let follow := Stack.replaced (Stack.movedStops? c d'.text.length)
    (follow around).Encloses
      ((follow top).stretch index ⟨e.span.start, e.span.start + e.text.length⟩) := by
  intro follow
  have hfollow := top.carriedTo_replaced c d'.text.length
  have huprights : ∀ z ∈ (follow top).stops, z.span.start ≤ z.span.finish := by
    intro z hz
    obtain ⟨old, -, hspan⟩ := hfollow.span hz
    rw [hspan]
    exact (c.mapSpan_bounds _ _ _).1
  refine Session.Around.carried h (around.carriedTo_replaced c _) fun y hy hin span hspan => ?_
  obtain ⟨z, hz, rfl⟩ := List.mem_map.mp hspan
  rcases Session.span_of_mem_stretch (Nat.le_add_right _ _) huprights hz with
    hchosen | ⟨z', hz', hsame⟩
  · rw [hchosen]
    exact room.includes_text made haround hy (here ▸ hin stop.span (List.mem_map_of_mem hstop))
  · obtain ⟨old, hold, hcarried⟩ := hfollow.span hz'
    rw [hsame, hcarried]
    obtain ⟨hfault, rfl, -⟩ := Document.apply_eq_ok made
    exact Change.mapSpan_includes (Batch.fault?_eq_none_iff.mp hfault)
      (room.tracks made around haround y hy) (room.tracks made top htop old hold)
      (hin old.span (List.mem_map_of_mem hold)) _ _

theorem enclosed_chosen {top : Session} {stop : LiveStop} (h : s.stack.Enclosed)
    (choosing : s.Choosing top stop)
    (happly : Surface.apply s.surface ⟨[⟨stop.span, s.upcoming stop⟩], .choice⟩ = (.ok c, surface))
    (room : s.RoomFor (Editor.document surface).text.length) :
    (s.chosen stop c surface).stack.Enclosed := by
  have made := Editor.document_of_ok happly
  obtain ⟨outer, hsessions⟩ : ∃ outer, s.stack.sessions = top :: outer :=
    List.head?_eq_some_iff.mp choosing.innermost
  have hstop : stop ∈ top.stops := (Session.mem_of_currentStop? choosing.current).1
  have hc : c.edits ≠ [] := by
    obtain ⟨-, rfl, -⟩ := Document.apply_eq_ok made
    exact List.cons_ne_nil _ _
  have hremap := enclosed_remap made room h surface
  rw [Stack.Enclosed, remap, Stack.remap_eq_replaced _ hc, hsessions, List.map_cons,
    List.isChain_cons] at hremap
  rw [Stack.Enclosed, chosen_sessions hsessions hc, List.isChain_cons]
  refine ⟨fun around' haround' => ?_, hremap.2⟩
  rw [Stack.Enclosed, hsessions, List.isChain_cons] at h
  rw [List.head?_map] at haround'
  obtain ⟨around, haround, rfl⟩ := Option.map_eq_some_iff.mp haround'
  have hmem : around ∈ s.stack.sessions :=
    hsessions ▸ List.mem_cons_of_mem top (List.mem_of_head? haround)
  have htop : top ∈ s.stack.sessions := hsessions ▸ List.mem_cons_self
  rw [Editor.length_eq]
  exact encloses_stretch made room htop hmem (h.1 around haround) hstop rfl stop.index

theorem enclosed_cycleChoice (settings : Settings) (h : s.stack.Enclosed)
    (room : s.RoomFor (Editor.document (s.cycleChoice settings).2.surface).text.length) :
    (s.cycleChoice settings).2.stack.Enclosed := by
  have hchose := s.chose settings
  generalize (s.cycleChoice settings).1 = result, (s.cycleChoice settings).2 = s' at hchose room ⊢
  cases hchose with
  | nowhere => exact h
  | refused => exact h
  | moved top stop c surface _ choosing happly hs' =>
    have hstack : s'.stack = (s.chosen stop c surface).stack := by
      rcases hs' with rfl | rfl
      · rfl
      · rfl
    have htext : (Editor.document s'.surface).text = (Editor.document surface).text := by
      rcases hs' with rfl | rfl
      · exact chosen_text s stop c surface
      · exact chosen_text s stop c surface
    rw [hstack]
    rw [htext] at room
    exact enclosed_chosen h choosing happly room

/-- The stop around the place of a template grows with its text. -/
theorem around_placed {t : Template} (hbody : t.OfBody) {target : Span} {x : Session}
    (hx : x ∈ s.stack.sessions) (h : x.Around [target])
    (made : (Editor.document s.surface).apply ⟨[⟨target, t.text⟩], .expansion⟩ = .ok (c, d'))
    (room : s.RoomFor d'.text.length) :
    (Stack.replaced (Stack.movedStops? c d'.text.length) x).Around
      ((t.placed target.start).map (·.span)) := by
  obtain ⟨body, resolve, indent, rfl⟩ := hbody
  have hbounds := Template.instantiate_bounds body resolve indent
  have hend : target.start + (Template.instantiate body resolve indent).text.length ≤
      d'.text.length := written_le made
  have hfits := room.fits
  refine h.carried (x.carriedTo_replaced c _) fun y hy hin span hspan => ?_
  obtain ⟨z, hz, rfl⟩ := List.mem_map.mp hspan
  obtain ⟨w, hw, hplace⟩ := List.mem_map.mp
    ((Template.placed_perm hbounds (by omega)).mem_iff.mp (List.mem_map_of_mem hz))
  have hincludes := room.includes_text made hx hy (hin target (List.mem_singleton.mpr rfl))
  have hw' := hbounds w hw
  have hspan : z.span = w.span.behind target.start := by rw [← hplace]
  simp only [hspan, Span.behind, Span.Includes] at hincludes ⊢
  omega

theorem enclosed_opened {t : Template} (hbody : t.OfBody) {target : Span} (h : s.stack.Enclosed)
    (inside : ∀ top, s.stack.top? = some top → top.Around [target])
    (made : (Editor.document s.surface).apply ⟨[⟨target, t.text⟩], .expansion⟩ = .ok (c, d'))
    (room : s.RoomFor d'.text.length) (here : Editor.document surface = d') (index : Nat) :
    ((({ s with surface }.remap c).openSession target.start t).visit index).stack.Enclosed := by
  have hc : c.edits ≠ [] := by
    obtain ⟨-, rfl, -⟩ := Document.apply_eq_ok made
    exact List.cons_ne_nil _ _
  have hsessions : ((({ s with surface }.remap c).openSession target.start t).visit
      index).stack.sessions = ⟨({ s with surface }.remap c).stack.nextId, index,
        t.placed target.start⟩ :: ({ s with surface }.remap c).stack.sessions := rfl
  rw [Stack.Enclosed, hsessions, List.isChain_cons]
  refine ⟨fun around' haround' => ?_, enclosed_remap made room h surface⟩
  rw [remap, Stack.remap_eq_replaced _ hc, List.head?_map] at haround'
  obtain ⟨around, haround, rfl⟩ := Option.map_eq_some_iff.mp haround'
  rw [Editor.length_eq, here]
  exact around_placed (s := s) hbody (List.mem_of_head? haround) (inside around haround) made room

theorem enclosed_insertTemplate {t : Template} (hbody : t.OfBody) {target : Span}
    (h : s.stack.Enclosed) (inside : ∀ top, s.stack.top? = some top → top.Around [target])
    (room : s.RoomFor (Editor.document (s.insertTemplate t target).2.surface).text.length) :
    (s.insertTemplate t target).2.stack.Enclosed := by
  have hput := s.put t target
  generalize (s.insertTemplate t target).1 = result,
    (s.insertTemplate t target).2 = s' at hput room ⊢
  cases hput with
  | refused => exact h
  | visited change surface index happly =>
    rw [document_visit_text] at room
    exact enclosed_opened hbody h inside (Editor.document_of_ok happly) room rfl index
  | left change surface happly =>
    have htext :=
      document_visit_text (({ s with surface }.remap change).openSession target.start t) 0
    rw [effect, htext] at room
    exact enclosed_remap (Editor.document_of_ok happly) room h surface

/-- An edit of the user's that the engine takes note of, the next choice, or a template inside the
stop where the user stands. -/
inductive Inward : Scene σ → Scene σ → Prop where
  | edit (s : Scene σ) (settings : Settings) (b : Batch) (c : Change) (d' : Document)
      (surface : σ) :
      b.origin = .user → (Editor.document s.surface).apply b = .ok (c, d') →
      (Editor.document surface).text = d'.text → Inward s ({ s with surface }.observe settings c).2
  | choice (s : Scene σ) (settings : Settings) : Inward s (s.cycleChoice settings).2
  | insert (s : Scene σ) (t : Template) (target : Span) : t.OfBody →
      (∀ top, s.stack.top? = some top → top.Around [target]) →
      Inward s (s.insertTemplate t target).2

/-- Nested sessions stay inside the stops that they were opened in. -/
theorem Inward.enclosed {s' : Scene σ} (h : Inward s s') (enclosed : s.stack.Enclosed)
    (room : s.RoomFor (Editor.document s'.surface).text.length) : s'.stack.Enclosed := by
  cases h with
  | edit settings b c d' surface user made text =>
    rw [observe_surface, text] at room
    exact enclosed_observe settings enclosed made user room surface
  | choice settings => exact enclosed_cycleChoice settings enclosed room
  | insert t target hbody inside => exact enclosed_insertTemplate hbody enclosed inside room

def nestedCall : Scene Document where
  stack := ⟨[
    ⟨1, 1, LiveStop.normalize [⟨⟨1, ⟨2, 4⟩, some ["ab".toList, "xyz".toList], none⟩, []⟩,
      ⟨⟨2, ⟨6, 7⟩, none, none⟩, []⟩, ⟨⟨0, ⟨7, 7⟩, none, none⟩, []⟩]⟩,
    ⟨0, 1, LiveStop.normalize [⟨⟨1, ⟨2, 7⟩, none, none⟩, []⟩, ⟨⟨0, ⟨8, 8⟩, none, none⟩, []⟩]⟩], 2⟩
  guard := {}
  surface := ⟨"f(ab, c)".toList, ⟨2, 4⟩, 2⟩

def torn : Batch := ⟨[⟨⟨1, 3⟩, []⟩], .user⟩

def tornCall : Document := ⟨"fb, c)".toList, ⟨1, 2⟩, 3⟩

theorem nestedCall_enclosed : nestedCall.stack.Enclosed ∧
    ({ nestedCall with surface := tornCall }.observe {} (.ofBatch torn)).2.stack.Enclosed ∧
    (nestedCall.cycleChoice {}).2.stack.Enclosed ∧
    (nestedCall.insertTemplate (.parse "<$1>".toList) ⟨3, 4⟩).2.stack.Enclosed := by
  have henclosed : nestedCall.stack.Enclosed := by decide +kernel
  refine ⟨henclosed, ?_, ?_, ?_⟩
  · have hedit : Inward nestedCall
        ({ nestedCall with surface := tornCall }.observe {} (.ofBatch torn)).2 :=
      .edit nestedCall {} torn _ tornCall tornCall rfl (by decide +kernel) rfl
    exact hedit.enclosed henclosed ⟨by decide +kernel, by decide +kernel, by decide +kernel⟩
  · have hchoice : Inward nestedCall (nestedCall.cycleChoice {}).2 := .choice nestedCall {}
    exact hchoice.enclosed henclosed ⟨by decide +kernel, by decide +kernel, by decide +kernel⟩
  · have hinside : ∀ top ∈ nestedCall.stack.top?, top.Around [⟨3, 4⟩] := by decide +kernel
    have hinsert : Inward nestedCall (nestedCall.insertTemplate (.parse "<$1>".toList) ⟨3, 4⟩).2 :=
      .insert nestedCall _ ⟨3, 4⟩ (Template.instantiate_ofBody _ _ _) hinside
    exact hinsert.enclosed henclosed ⟨by decide +kernel, by decide +kernel, by decide +kernel⟩

/-- Scenes that inward steps lead to, in documents whose offsets are words. -/
inductive Inwards (s : Scene σ) : Scene σ → Prop where
  | refl : Inwards s s
  | step {s' s'' : Scene σ} : Inwards s s' → Inward s' s'' → (Editor.document s''.surface).Fits →
      Inwards s s''

/-- However deep sessions nest, and however often one is opened, each stays in the one around. -/
theorem Inwards.enclosed_placed {s' : Scene σ} (h : Inwards s s') (placed : s.Placed)
    (fits : (Editor.document s.surface).Fits) (enclosed : s.stack.Enclosed) :
    s'.stack.Enclosed ∧ s'.Placed ∧ (Editor.document s'.surface).Fits := by
  induction h with
  | refl => exact ⟨enclosed, placed, fits⟩
  | step _ hstep hfits ih =>
    obtain ⟨henclosed, hplaced, hfits'⟩ := ih
    have hroom := hplaced.roomFor hfits
    cases hstep with
    | edit settings b c d' surface user made text =>
      rw [observe_surface, text] at hroom
      exact ⟨enclosed_observe settings henclosed made user hroom surface,
        observe_placed settings hplaced made user text, hfits⟩
    | choice settings =>
      exact ⟨enclosed_cycleChoice settings henclosed hroom,
        cycleChoice_placed settings _ hplaced hfits' hfits, hfits⟩
    | insert t target hbody inside =>
      refine ⟨enclosed_insertTemplate hbody henclosed inside hroom, ?_, hfits⟩
      obtain ⟨body, resolve, indent, rfl⟩ := hbody
      exact insertTemplate_placed _ (Template.instantiate_bounds body resolve indent) target
        hplaced hfits' hfits

end Scene

end Snippets
