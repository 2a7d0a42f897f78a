import Snippets.Proofs.ChoiceRounds
import Snippets.Proofs.Endings
import Snippets.Proofs.FollowingText
import Snippets.Proofs.Reach
import Snippets.Proofs.Settling

/-!
# Cycling choices

Asking for the next choice again and again. The stop has to be found again after every change: it is
the first of its index that the end of the selection touches. Main statement: unless a stop of the
same index in front of it reaches it, every request replaces the text of this stop alone and selects
it, and the texts that are shown are those of the rounds of its list.
-/

namespace Snippets

attribute [ext] Span

namespace Text

variable {t : Text} {s : Span}

theorem splice_slice (upright : s.start ≤ s.finish) : t.splice s (t.slice s) = t := by
  have hcut := List.take_append_drop s.start (t.take s.finish)
  rw [List.take_take, Nat.min_eq_left upright] at hcut
  rw [splice, slice, hcut, List.take_append_drop]

theorem slice_splice (inside : s.start ≤ t.length) (new : Text) :
    (t.splice s new).slice ⟨s.start, s.start + new.length⟩ = new := by
  have hfront : (t.take s.start).length = s.start := List.length_take_of_le inside
  simp [splice, slice, List.append_assoc, List.take_append, hfront]

theorem splice_splice (inside : s.start ≤ t.length) (new newer : Text) :
    (t.splice s new).splice ⟨s.start, s.start + new.length⟩ newer = t.splice s newer := by
  have hfront : (t.take s.start).length = s.start := List.length_take_of_le inside
  simp [splice, List.drop_append, hfront]

end Text

namespace Edit

variable {e : Edit}

theorem landing_start (e : Edit) : landing e.span.start .before [e] = e.span.start := by
  simp [landing, Catches, Side.depth]

theorem landing_finish (upright : e.span.start ≤ e.span.finish) :
    landing e.span.finish .after [e] = e.span.start + e.text.length := by
  rw [landing, if_neg (Nat.not_lt.mpr upright)]
  by_cases hcaught : e.Catches e.span.finish
  · rw [if_pos hcaught]
    rfl
  · rw [if_neg hcaught, landing, gain]
    omega

theorem le_landing_single {offset : Nat} (behind : e.span.start ≤ offset) (side : Side) :
    e.span.start + side.depth e ≤ landing offset side [e] := by
  have hdepth := side.depth_le e
  rw [landing, if_neg (Nat.not_lt.mpr behind)]
  by_cases hcaught : e.Catches offset
  · rw [if_pos hcaught]
  · have hpassed : e.span.finish ≤ offset := by
      unfold Catches at hcaught
      omega
    rw [if_neg hcaught, landing, gain]
    omega

end Edit

namespace Change

variable {e : Edit} {t : Text} (upright : e.span.start ≤ e.span.finish)
  (inside : e.span.finish ≤ t.length)
  (fits : (t.splice e.span e.text).length < 9223372036854775808) (origin : Origin)

include upright inside

theorem ordered_single : Edit.Ordered t.length (Change.mk [e] origin).edits :=
  ⟨by simpa using upright, by simpa using inside, List.pairwise_singleton _ _⟩

include fits

theorem mapSpan_single {s moved : Span} (hs : s.start ≤ s.finish) (hin : s.finish ≤ t.length)
    (h : (Change.mk [e] origin).mapSpan s true (t.splice e.span e.text).length = moved) :
    (moved.start : Int) = Edit.landing s.start .before [e] ∧
      (moved.finish : Int) = Edit.landing s.finish .after [e] := by
  have hordered := ordered_single upright inside origin
  have hspan := mapSpan_eq hordered fits hs hin true
  rw [if_pos rfl, ← Text.applyTo_eq hordered] at hspan
  obtain rfl : moved = _ := h.symm.trans hspan
  exact ⟨mapOffset_eq hordered fits (Nat.le_trans hs hin) .before,
    mapOffset_eq hordered fits hin .after⟩

theorem mapSpan_replaced : (Change.mk [e] origin).mapSpan e.span true
    (t.splice e.span e.text).length = ⟨e.span.start, e.span.start + e.text.length⟩ := by
  obtain ⟨hstart, hfinish⟩ := mapSpan_single upright inside fits origin upright inside rfl
  rw [Edit.landing_start] at hstart
  rw [Edit.landing_finish upright] at hfinish
  exact Span.ext (Int.ofNat_inj.mp hstart) (Int.ofNat_inj.mp hfinish)

theorem mapSpan_in_front {s : Span} (hs : s.start ≤ s.finish) (front : s.finish < e.span.start) :
    (Change.mk [e] origin).mapSpan s true (t.splice e.span e.text).length = s := by
  obtain ⟨hstart, hfinish⟩ := mapSpan_single upright inside fits origin hs (by omega) rfl
  rw [Edit.landing, if_pos (by omega)] at hstart hfinish
  exact Span.ext (by omega) (by omega)

/-- A range that begins at the edit or behind it reaches as far as the new text. -/
theorem mapSpan_behind {s moved : Span} (hs : s.start ≤ s.finish) (hin : s.finish ≤ t.length)
    (behind : e.span.start ≤ s.start)
    (h : (Change.mk [e] origin).mapSpan s true (t.splice e.span e.text).length = moved) :
    e.span.start ≤ moved.start ∧ e.span.start + e.text.length ≤ moved.finish := by
  obtain ⟨hstart, hfinish⟩ := mapSpan_single upright inside fits origin hs hin h
  have hlow := Edit.le_landing_single behind .before
  have hhigh := Edit.le_landing_single (Nat.le_trans behind hs) .after
  rw [← hstart] at hlow
  rw [← hfinish] at hhigh
  simp only [Side.depth] at hlow hhigh
  omega

end Change

/-! ## The stop that is in front -/

namespace LiveStop

/-- Those stops of its index that are listed in front of the stop end in front of it. -/
def Leads (stops : List LiveStop) (stop : LiveStop) : Prop :=
  ∃ front back, stops = front ++ stop :: back ∧
    ∀ y ∈ front, y.index = stop.index → y.span.finish < stop.span.start

theorem exists_link_split (front : List LiveStop) (stop : LiveStop) (back : List LiveStop) :
    ∃ front' stop' back', link (front ++ stop :: back) = front' ++ stop' :: back' ∧
      front'.map (·.toTabStop) = front.map (·.toTabStop) ∧ stop'.toTabStop = stop.toTabStop := by
  have hview := map_toTabStop_link (front ++ stop :: back)
  rw [List.map_append, List.map_cons, List.map_eq_append_iff] at hview
  obtain ⟨front', rest', hlink, hfront, hrest⟩ := hview
  obtain ⟨stop', back', rfl, hstop, -⟩ := List.map_eq_cons_iff.mp hrest
  exact ⟨front', stop', back', hlink, hfront, hstop⟩

/-- Sorting keeps the stop in front of those that it does not exceed. -/
theorem exists_leads_normalize {front back : List LiveStop} {stop : LiveStop}
    (upright : ∀ y ∈ front ++ stop :: back, y.span.start ≤ y.span.finish)
    (clear : ∀ y ∈ front, y.index = stop.index → y.span.finish < stop.span.start)
    (behind : ∀ y ∈ back, y.index = stop.index → le stop y) :
    ∃ stop', Leads (normalize (front ++ stop :: back)) stop' ∧
      stop'.toTabStop = stop.toTabStop := by
  obtain ⟨front', back', hsorted, hpassed⟩ := exists_sortStable_split le front stop back
  obtain ⟨front'', stop', back'', hlink, hfront, hstop⟩ := exists_link_split front' stop back'
  refine ⟨stop', ⟨front'', back'', ?_, fun y hy hindex => ?_⟩, hstop⟩
  · rw [normalize, map_upright_eq_self upright, hsorted, hlink]
  · have hview : y.toTabStop ∈ front''.map (·.toTabStop) := List.mem_map_of_mem hy
    rw [hfront] at hview
    obtain ⟨z, hz, hsame⟩ := List.mem_map.mp hview
    rw [hstop] at hindex ⊢
    rw [← hsame] at hindex ⊢
    rcases hpassed z hz with hz | ⟨hz, hle⟩
    · exact clear z hz hindex
    · exact absurd (behind z hz hindex) hle

/-- Setting the end where it is changes nothing. -/
theorem Leads.stretchFirst_eq {stops : List LiveStop} {stop : LiveStop} (h : Leads stops stop)
    (upright : ∀ y ∈ stops, y.span.start ≤ y.span.finish) :
    Scene.stretchFirst stop.index stop.span.start stop.span.finish stops = stops := by
  obtain ⟨front, back, rfl, hclear⟩ := h
  induction front with
  | nil => rw [List.nil_append, Scene.stretchFirst, if_pos ⟨rfl, rfl⟩]
  | cons y front ih =>
    have hup := upright y List.mem_cons_self
    have hother : ¬ (y.index = stop.index ∧ y.span.start = stop.span.start) := by
      rintro ⟨hindex, hstart⟩
      have := hclear y List.mem_cons_self hindex
      omega
    rw [List.cons_append, Scene.stretchFirst, if_neg hother,
      ih (fun z hz => hclear z (List.mem_cons_of_mem y hz))
        fun z hz => upright z (List.mem_cons_of_mem y hz)]

end LiveStop

namespace Session

variable {x : Session} {stop : LiveStop}

/-- While the head of the selection touches the stop, the user stands in it. -/
theorem currentStop?_of_leads (h : LiveStop.Leads x.stops stop) (current : stop.index = x.current)
    {selection : Selection} (touched : stop.span.Touches selection.head) :
    x.currentStop? selection = some stop := by
  obtain ⟨front, back, hstops, hclear⟩ := h
  have hfound : x.stops.findIdx? (fun y => y.index == x.current && y.span.Touches selection.head) =
      some front.length := by
    rw [List.findIdx?_eq_some_iff_getElem]
    refine ⟨by simp [hstops], by simp [hstops, current, touched], fun j hj => ?_⟩
    have hy : front[j] ∈ front := List.getElem_mem hj
    simp only [hstops, List.getElem_append_left hj, Bool.and_eq_true, beq_iff_eq,
      decide_eq_true_eq]
    rintro ⟨hindex, -, hfinish⟩
    have := hclear _ hy (hindex.trans current.symm)
    have := touched.1
    omega
  rw [currentStop?, currentPosition?, hfound, Option.some_or, Option.bind_some, hstops]
  simp

def retyped (x : Session) (stop : LiveStop) (t choice : Text) (origin : Origin) (y : LiveStop) :
    LiveStop :=
  { y with
    span := (Change.mk [⟨stop.span, choice⟩] origin).mapSpan y.span (y.index == x.current)
      (t.splice stop.span choice).length }

theorem carry_replacement (x : Session) (stop : LiveStop) (t choice : Text) (origin : Origin) :
    (x.carry ⟨[⟨stop.span, choice⟩], origin⟩ (t.splice stop.span choice).length).stops =
      LiveStop.normalize (x.stops.map (x.retyped stop t choice origin)) := rfl

section

variable {t choice : Text} (placed : x.Placed t.length) (hstop : stop ∈ x.stops)
  (current : stop.index = x.current)
  (fits : (t.splice stop.span choice).length < 9223372036854775808) (origin : Origin) {y : LiveStop}

include placed hstop current fits

theorem retyped_self : (x.retyped stop t choice origin stop).span = stop.chosenSpan choice := by
  have hreplaced := Change.mapSpan_replaced (e := ⟨stop.span, choice⟩)
    (placed.normal.upright stop hstop) (placed.inside stop hstop) fits origin
  simp only [retyped, current, beq_self_eq_true]
  exact hreplaced

theorem retyped_in_front (hy : y ∈ x.stops) (same : y.index = stop.index)
    (front : y.span.finish < stop.span.start) :
    (x.retyped stop t choice origin y).span = y.span := by
  have hkept := Change.mapSpan_in_front (e := ⟨stop.span, choice⟩)
    (placed.normal.upright stop hstop) (placed.inside stop hstop) fits origin
    (placed.normal.upright y hy) front
  simp only [retyped, same, current, beq_self_eq_true]
  exact hkept

/-- The stops of its index behind it grow with it, so they stay behind. -/
theorem le_retyped (hy : y ∈ x.stops) (same : y.index = stop.index) (behind : LiveStop.le stop y) :
    LiveStop.le (x.retyped stop t choice origin stop) (x.retyped stop t choice origin y) := by
  have hstart : stop.span.start ≤ y.span.start := by
    rw [LiveStop.le_iff] at behind
    omega
  have hgrows : (Change.mk [⟨stop.span, choice⟩] origin).mapSpan y.span true
      (t.splice stop.span choice).length = (x.retyped stop t choice origin y).span := by
    simp only [retyped, same, current, beq_self_eq_true]
  have hbehind := Change.mapSpan_behind (e := ⟨stop.span, choice⟩)
    (placed.normal.upright stop hstop) (placed.inside stop hstop) fits origin
    (placed.normal.upright y hy) (placed.inside y hy) hstart hgrows
  have hindex : (x.retyped stop t choice origin y).index =
      (x.retyped stop t choice origin stop).index := same
  rw [LiveStop.le_iff, LiveStop.rankLe_iff, retyped_self placed hstop current fits origin]
  simp only [LiveStop.chosenSpan] at hbehind ⊢
  omega

end

theorem exists_leads_carry {t choice : Text} (h : LiveStop.Leads x.stops stop)
    (placed : x.Placed t.length) (current : stop.index = x.current)
    (fits : (t.splice stop.span choice).length < 9223372036854775808) (origin : Origin) :
    ∃ stop', LiveStop.Leads (x.carry ⟨[⟨stop.span, choice⟩], origin⟩
        (t.splice stop.span choice).length).stops stop' ∧
      stop'.toTabStop = { stop.toTabStop with span := stop.chosenSpan choice } := by
  obtain ⟨front, back, hstops, hclear⟩ := h
  have hmem {y : LiveStop} (hy : y ∈ front ++ stop :: back) : y ∈ x.stops := hstops ▸ hy
  have hstop : stop ∈ x.stops := hmem (List.mem_append_right front List.mem_cons_self)
  have hself := retyped_self placed hstop current fits origin
  have hsorted : ∀ y ∈ back, LiveStop.le stop y :=
    (List.pairwise_cons.mp (List.pairwise_append.mp (hstops ▸ placed.normal.sorted)).2.1).1
  obtain ⟨stop', hleads, hsame⟩ : ∃ stop', LiveStop.Leads (LiveStop.normalize
        (front.map (x.retyped stop t choice origin) ++ x.retyped stop t choice origin stop ::
          back.map (x.retyped stop t choice origin))) stop' ∧
      stop'.toTabStop = (x.retyped stop t choice origin stop).toTabStop := by
    refine LiveStop.exists_leads_normalize (fun y' hy' => ?_) (fun y' hy' hindex => ?_)
      (fun y' hy' hindex => ?_)
    · rw [← List.map_cons, ← List.map_append] at hy'
      obtain ⟨y, -, rfl⟩ := List.mem_map.mp hy'
      exact (Change.mapSpan_bounds _ _ _ _).1
    · obtain ⟨y, hy, rfl⟩ := List.mem_map.mp hy'
      have hfront := hclear y hy hindex
      rw [hself, retyped_in_front placed hstop current fits origin
        (hmem (List.mem_append_left _ hy)) hindex hfront]
      exact hfront
    · obtain ⟨y, hy, rfl⟩ := List.mem_map.mp hy'
      exact le_retyped placed hstop current fits origin
        (hmem (List.mem_append_right front (List.mem_cons_of_mem stop hy))) hindex (hsorted y hy)
  refine ⟨stop', ?_, hsame.trans (by rw [← hself]; rfl)⟩
  rw [carry_replacement, hstops, List.map_append, List.map_cons]
  exact hleads

end Session

/-- In the states with a property the editor takes every batch that is right for its document. -/
structure Editor.NeverRefuses {σ : Type} [Editor σ] (P : σ → Prop) : Prop where
  apply : ∀ surface b, P surface → b.fault? (document surface).text.length = none →
    ∃ c surface', Surface.apply surface b = (.ok c, surface') ∧ P surface'
  select : ∀ surface selection, P surface → P (Surface.select surface selection)

theorem Document.neverRefuses : Editor.NeverRefuses fun _ : Document => True := by
  refine ⟨fun d b _ hfault => ?_, fun _ _ _ => trivial⟩
  obtain ⟨d', h⟩ := apply_ok_of_fault?_none hfault
  refine ⟨.ofBatch b, d', ?_, trivial⟩
  simp only [Surface.apply]
  rw [show d.apply b = _ from h]

namespace Scene

variable {σ : Type} [Editor σ] {P : σ → Prop} {s s' : Scene σ} {top : Session} {stop : LiveStop}

theorem Choosing.unique {top' : Session} {stop' : LiveStop} (h : s.Choosing top stop)
    (h' : s.Choosing top' stop') : top' = top ∧ stop' = stop := by
  obtain rfl := Option.some.inj (h'.innermost.symm.trans h.innermost)
  exact ⟨rfl, Option.some.inj (h'.current.symm.trans h.current)⟩

theorem Choosing.bounds (h : s.Choosing top stop) (placed : s.Placed) :
    stop.span.start ≤ stop.span.finish ∧
      stop.span.finish ≤ (Editor.document s.surface).text.length := by
  obtain ⟨hstop, -⟩ := Session.mem_of_currentStop? h.current
  have htop := placed top (List.mem_of_head? h.innermost)
  exact ⟨htop.normal.upright stop hstop, htop.inside stop hstop⟩

structure Retexted (P : σ → Prop) (s : Scene σ) (stop : LiveStop) (shown : Text) (s' : Scene σ) :
    Prop where
  willing : P s'.surface
  placed : s'.Placed
  text : (Editor.document s'.surface).text = (Editor.document s.surface).text.splice stop.span shown
  leads : ∃ top' stop', s'.Choosing top' stop' ∧ LiveStop.Leads top'.stops stop' ∧
    stop'.toTabStop = { stop.toTabStop with span := stop.chosenSpan shown }

/-- The session in which the text of a stop has been replaced: it just follows the change. -/
theorem exists_leads_stretch {x : Session} {t choice : Text} (leads : LiveStop.Leads x.stops stop)
    (placed : x.Placed t.length) (current : stop.index = x.current)
    (fits : (t.splice stop.span choice).length < 9223372036854775808) (origin : Origin) :
    let change : Change := ⟨[⟨stop.span, choice⟩], origin⟩
    let follow := Stack.replaced (Stack.movedStops? change (t.splice stop.span choice).length)
    let x' := (follow x).stretch stop.index (stop.chosenSpan choice)
    x'.current = x.current ∧ ∃ stop', LiveStop.Leads x'.stops stop' ∧
      stop'.toTabStop = { stop.toTabStop with span := stop.chosenSpan choice } := by
  intro change follow x'
  obtain ⟨stop', hleads, hsame⟩ := Session.exists_leads_carry leads placed current fits origin
  have hnormal := LiveStop.normalize_normal (x.remap change (t.splice stop.span choice).length)
  have hindex : stop'.index = stop.index := by rw [hsame]
  have hspan : stop'.span = stop.chosenSpan choice := by rw [hsame]
  have hstretch := hleads.stretchFirst_eq hnormal.upright
  rw [hindex, hspan] at hstretch
  have hfollow : follow x = x.carry change (t.splice stop.span choice).length :=
    Stack.replaced_movedStops? placed.normal change _
  have hsession : x' = x.carry change (t.splice stop.span choice).length := by
    unfold x'
    rw [hfollow, Session.stretch, hstretch]
    exact congrArg (Session.mk x.id x.current) (LiveStop.normalize_eq_self hnormal)
  rw [hsession]
  exact ⟨rfl, stop', hleads, hsame⟩

section

variable {c : Change} {surface : σ} (placed : s.Placed) (choosing : s.Choosing top stop)
  (happly : Surface.apply s.surface ⟨[⟨stop.span, s.upcoming stop⟩], .choice⟩ = (.ok c, surface))

include placed choosing happly

theorem Choosing.replaced : c = ⟨[⟨stop.span, s.upcoming stop⟩], .choice⟩ ∧
    (Editor.document surface).text =
      (Editor.document s.surface).text.splice stop.span (s.upcoming stop) := by
  obtain ⟨hup, hin⟩ := choosing.bounds placed
  obtain ⟨d', happly', htext, -⟩ :=
    Document.apply_single (e := ⟨stop.span, s.upcoming stop⟩) hup hin .choice
  have hsame := (Editor.document_of_ok happly).symm.trans happly'
  simp only [Except.ok.injEq, Prod.mk.injEq] at hsame
  exact ⟨hsame.1, hsame.2 ▸ htext⟩

theorem chosen_selection : (Editor.document (s.chosen stop c surface).surface).selection =
    .ofSpan (stop.chosenSpan (s.upcoming stop)) := by
  obtain ⟨hup, hin⟩ := choosing.bounds placed
  have hroom := Text.length_splice (Editor.document s.surface).text (s.upcoming stop)
    (Nat.le_trans hup hin)
  rw [← (choosing.replaced placed happly).2] at hroom
  rw [chosen_surface, Editor.document_select, Document.select]
  simp only [Selection.clamp, Selection.ofSpan, LiveStop.chosenSpan, Selection.mk.injEq]
  omega

/-- The stop is found again after its text has been replaced. -/
theorem chosen_leads (leads : LiveStop.Leads top.stops stop)
    (fits : ((Editor.document s.surface).text.splice stop.span (s.upcoming stop)).length <
      9223372036854775808) :
    ∃ top' stop', (s.chosen stop c surface).Choosing top' stop' ∧ LiveStop.Leads top'.stops stop' ∧
      stop'.toTabStop = { stop.toTabStop with span := stop.chosenSpan (s.upcoming stop) } := by
  obtain ⟨-, hcurrent⟩ := Session.mem_of_currentStop? choosing.current
  obtain ⟨outer, hsessions⟩ : ∃ outer, s.stack.sessions = top :: outer :=
    List.head?_eq_some_iff.mp choosing.innermost
  have htop : top.Placed (Editor.document s.surface).text.length :=
    placed top (hsessions ▸ List.mem_cons_self)
  have hselection := chosen_selection placed choosing happly
  obtain ⟨rfl, htext⟩ := choosing.replaced placed happly
  obtain ⟨hcurrent', stop', hleads, hsame⟩ :=
    exists_leads_stretch leads htop hcurrent fits .choice
  rw [← htext, ← Editor.length_eq] at hcurrent' hleads
  have hne : (Change.mk [⟨stop.span, s.upcoming stop⟩] .choice).edits ≠ [] := List.cons_ne_nil _ _
  have hsessions' := chosen_sessions hsessions hne stop surface
  refine ⟨_, stop', ⟨?_, ?_, ?_⟩, hleads, hsame⟩
  · rw [Stack.top?, hsessions']
    rfl
  · refine Session.currentStop?_of_leads hleads ?_ ?_
    · rw [hcurrent', ← hcurrent, hsame]
    · rw [Editor.selection_eq, hselection, hsame]
      exact ⟨Nat.le_add_right _ _, Nat.le_refl _⟩
  · rw [hsame]
    exact choosing.listed

end

/-- When the editor takes the batch, a sync that is asked for changes neither the sessions nor the
document any more. -/
theorem cycleChoice_chosen {c : Change} {surface : σ} (choosing : s.Choosing top stop)
    (happly : Surface.apply s.surface ⟨[⟨stop.span, s.upcoming stop⟩], .choice⟩ = (.ok c, surface))
    (settings : Settings) : (s.cycleChoice settings).1 = .moved stop.index ∧
      (s.cycleChoice settings).2.stack = (s.chosen stop c surface).stack ∧
      (s.cycleChoice settings).2.surface = (s.chosen stop c surface).surface := by
  have hchose := s.chose settings
  generalize (s.cycleChoice settings).1 = result, (s.cycleChoice settings).2 = s' at hchose ⊢
  cases hchose with
  | nowhere reason _ hnone => exact absurd choosing (hnone top stop)
  | refused top' stop' refusal surface' hchoosing happly' =>
    obtain ⟨rfl, rfl⟩ := choosing.unique hchoosing
    cases happly.symm.trans happly'
  | moved top' stop' c' surface' _ hchoosing happly' hs' =>
    obtain ⟨rfl, rfl⟩ := choosing.unique hchoosing
    obtain ⟨hc, rfl⟩ := Prod.mk.inj (happly.symm.trans happly')
    obtain rfl := Except.ok.inj hc
    rcases hs' with rfl | rfl
    · exact ⟨rfl, rfl, rfl⟩
    · exact ⟨rfl, rfl, rfl⟩

/-! ## Requests one after the other -/

theorem Retexted.upcoming_eq {shown : Text} (h : Retexted P s stop shown s')
    (inside : stop.span.start ≤ (Editor.document s.surface).text.length) {stop' : LiveStop}
    (same : stop'.toTabStop = { stop.toTabStop with span := stop.chosenSpan shown }) :
    s'.upcoming stop' = nextChoice (stop.choices.getD []) shown := by
  rw [upcoming, Editor.slice_eq, h.text, same]
  exact congrArg (nextChoice _) (Text.slice_splice inside shown)

theorem Retexted.cycleChoice {shown : Text} (h : Retexted P s stop shown s')
    (never : Editor.NeverRefuses P) (settings : Settings)
    (inside : stop.span.start ≤ (Editor.document s.surface).text.length)
    (fits : (Editor.document s'.surface).Fits)
    (room : ((Editor.document s.surface).text.splice stop.span
      (nextChoice (stop.choices.getD []) shown)).length < 9223372036854775808) :
    let next := nextChoice (stop.choices.getD []) shown
    (s'.cycleChoice settings).1 = .moved stop.index ∧
      Retexted P s stop next (s'.cycleChoice settings).2 ∧
      (Editor.document (s'.cycleChoice settings).2.surface).selection =
        .ofSpan (stop.chosenSpan next) := by
  intro next
  obtain ⟨top', stop', choosing, leads, hsame⟩ := h.leads
  have hnext : s'.upcoming stop' = next := h.upcoming_eq inside hsame
  have hindex : stop'.index = stop.index := by rw [hsame]
  have hspan : stop'.span = stop.chosenSpan shown := by rw [hsame]
  have hchosen : stop'.chosenSpan next = stop.chosenSpan next := by
    rw [LiveStop.chosenSpan, hspan]
    rfl
  have htext : (Editor.document s'.surface).text.splice stop'.span (s'.upcoming stop') =
      (Editor.document s.surface).text.splice stop.span next := by
    rw [h.text, hspan, hnext]
    exact Text.splice_splice inside shown next
  obtain ⟨hup, hin⟩ := choosing.bounds h.placed
  obtain ⟨d', happly', -⟩ :=
    Document.apply_single (e := ⟨stop'.span, s'.upcoming stop'⟩) hup hin .choice
  obtain ⟨c', surface', happly, hwilling⟩ :=
    never.apply s'.surface _ h.willing (Document.apply_eq_ok happly').1
  obtain ⟨top₁, stop₁, hchoosing, hleads, hsame₁⟩ :=
    chosen_leads h.placed choosing happly leads (htext ▸ room)
  have hselection := chosen_selection h.placed choosing happly
  obtain ⟨hmoved, hstack, hsurface⟩ := cycleChoice_chosen choosing happly settings
  have htext' : (Editor.document (s'.cycleChoice settings).2.surface).text =
      (Editor.document s.surface).text.splice stop.span next := by
    rw [hsurface, chosen_text, (choosing.replaced h.placed happly).2, htext]
  rw [hnext, hchosen] at hselection
  refine ⟨hmoved.trans (by rw [hindex]), ⟨?_, ?_, htext', top₁, stop₁, ⟨?_, ?_, hchoosing.listed⟩,
    hleads, ?_⟩, by rw [hsurface, hselection]⟩
  · rw [hsurface, chosen_surface]
    exact never.select _ _ hwilling
  · exact cycleChoice_placed settings s' h.placed fits (by rw [Document.Fits, htext']; exact room)
  · rw [hstack]
    exact hchoosing.innermost
  · rw [hsurface]
    exact hchoosing.current
  · rw [hsame₁, hnext, hchosen, hsame]

def cycled (settings : Settings) (s : Scene σ) (k : Nat) : Scene σ :=
  (fun s => (s.cycleChoice settings).2)^[k] s

theorem cycled_succ (settings : Settings) (s : Scene σ) (k : Nat) :
    s.cycled settings (k + 1) = ((s.cycled settings k).cycleChoice settings).2 :=
  Function.iterate_succ_apply' _ _ _

/-- The text that a stop shows after that, one entry of its list being the next of the other. -/
def shown (s : Scene σ) (stop : LiveStop) (k : Nat) : Text :=
  (nextChoice (stop.choices.getD []))^[k] (Surface.slice s.surface stop.span)

def selectedText (s : Scene σ) : Text := Surface.slice s.surface (Surface.selection s.surface).span

/-- The request after `k` of them: it shows the next text of the stop, selects it and leaves the
rest of the document as it was. -/
structure CyclesOn (s : Scene σ) (settings : Settings) (stop : LiveStop) (k : Nat) : Prop where
  moved : ((s.cycled settings k).cycleChoice settings).1 = .moved stop.index
  text : (Editor.document (s.cycled settings (k + 1)).surface).text =
    (Editor.document s.surface).text.splice stop.span (s.shown stop (k + 1))
  selection : (Editor.document (s.cycled settings (k + 1)).surface).selection =
    .ofSpan (stop.chosenSpan (s.shown stop (k + 1)))
  current : ∃ stop', (s.cycled settings (k + 1)).currentStop? = some stop' ∧
    stop'.toTabStop = { stop.toTabStop with span := stop.chosenSpan (s.shown stop (k + 1)) }

theorem CyclesOn.selectedText_eq {settings : Settings} {k : Nat} (h : s.CyclesOn settings stop k)
    (inside : stop.span.start ≤ (Editor.document s.surface).text.length) :
    (s.cycled settings (k + 1)).selectedText = s.shown stop (k + 1) := by
  have hspan : (Selection.ofSpan (stop.chosenSpan (s.shown stop (k + 1)))).span =
      stop.chosenSpan (s.shown stop (k + 1)) := by
    simp only [Selection.span, Selection.ofSpan, LiveStop.chosenSpan, Span.mk.injEq]
    omega
  rw [selectedText, Editor.selection_eq, Editor.slice_eq, h.selection, hspan, h.text]
  exact Text.slice_splice inside _

/-- Before the first request the stop shows its own text. -/
theorem retexted_self (willing : P s.surface) (placed : s.Placed) (choosing : s.Choosing top stop)
    (leads : LiveStop.Leads top.stops stop) : Retexted P s stop (s.shown stop 0) s := by
  obtain ⟨hup, hin⟩ := choosing.bounds placed
  have hlive : s.shown stop 0 = (Editor.document s.surface).text.slice stop.span :=
    Editor.slice_eq _ _
  have hspan : stop.chosenSpan (s.shown stop 0) = stop.span := by
    refine Span.ext rfl ?_
    rw [hlive, LiveStop.chosenSpan, Text.length_slice]
    dsimp only
    omega
  refine ⟨willing, placed, ?_, top, stop, choosing, leads, ?_⟩
  · rw [hlive, Text.splice_slice hup]
  · rw [hspan]

theorem retexted_cycled (never : Editor.NeverRefuses P)
    (start : Retexted P s stop (s.shown stop 0) s) (settings : Settings)
    (inside : stop.span.start ≤ (Editor.document s.surface).text.length)
    (room : ∀ k, ((Editor.document s.surface).text.splice stop.span (s.shown stop k)).length <
      9223372036854775808) (k : Nat) :
    Retexted P s stop (s.shown stop k) (s.cycled settings k) ∧ s.CyclesOn settings stop k := by
  have hnext (k : Nat) :
      s.shown stop (k + 1) = nextChoice (stop.choices.getD []) (s.shown stop k) :=
    Function.iterate_succ_apply' _ _ _
  have hstep {k : Nat} (h : Retexted P s stop (s.shown stop k) (s.cycled settings k)) :
      Retexted P s stop (s.shown stop (k + 1)) (s.cycled settings (k + 1)) ∧
        s.CyclesOn settings stop k := by
    have hfits : (Editor.document (s.cycled settings k).surface).Fits := by
      rw [Document.Fits, h.text]
      exact room k
    obtain ⟨hmoved, hretexted, hselection⟩ :=
      h.cycleChoice never settings inside hfits (hnext k ▸ room (k + 1))
    rw [← hnext, ← cycled_succ] at hretexted hselection
    obtain ⟨top', stop', choosing', -, hsame⟩ := hretexted.leads
    refine ⟨hretexted, hmoved, hretexted.text, hselection, stop', ?_, hsame⟩
    rw [currentStop?, choosing'.innermost, Option.bind_some, choosing'.current]
  have hall : Retexted P s stop (s.shown stop k) (s.cycled settings k) := by
    induction k with
    | zero => exact start
    | succ k ih => exact (hstep ih).1
  exact ⟨hall, (hstep hall).2⟩

/-- While no stop of the same index in front of it reaches it, the stop goes through its list: every
request shows the next entry, and all entries are shown exactly when the list is one round. -/
theorem Reach.cycles (h : Reach s) (never : Editor.NeverRefuses P) (willing : P s.surface)
    (choosing : s.Choosing top stop) (leads : LiveStop.Leads top.stops stop)
    (listed : Surface.slice s.surface stop.span ∈ stop.choices.getD [])
    (room : ∀ choice ∈ stop.choices.getD [],
      ((Editor.document s.surface).text.splice stop.span choice).length < 9223372036854775808)
    (settings : Settings) :
    (∀ k, s.CyclesOn settings stop k) ∧
      ((∀ choice ∈ stop.choices.getD [], ∃ k < (stop.choices.getD []).length,
          (s.cycled settings (k + 1)).selectedText = choice) ↔
        OneRound (stop.choices.getD [])) := by
  obtain ⟨hup, hin⟩ := choosing.bounds h.placed
  have hinside := Nat.le_trans hup hin
  have hcycles (k : Nat) : s.CyclesOn settings stop k :=
    (retexted_cycled never (retexted_self willing h.placed choosing leads) settings hinside
      (fun k => room _ (iterate_nextChoice_mem listed k)) k).2
  refine ⟨hcycles, ?_⟩
  rw [← shows_all_iff listed]
  simp only [(hcycles _).selectedText_eq hinside]
  exact Iff.rfl

def menu : Scene Document := opened (.parse "${1|ab,c,|} $1".toList)

def menuStop : LiveStop := ⟨⟨1, ⟨0, 2⟩, some ["ab".toList, "c".toList, []], some 0⟩, [1]⟩

def menuSession : Session :=
  ⟨0, 1, [menuStop, ⟨⟨1, ⟨3, 3⟩, none, some 0⟩, [0]⟩, ⟨⟨0, ⟨3, 3⟩, none, none⟩, []⟩]⟩

theorem menu_cycles : (∀ k, menu.CyclesOn {} menuStop k) ∧
    ∀ choice ∈ menuStop.choices.getD [], ∃ k < 3,
      (menu.cycled {} (k + 1)).selectedText = choice := by
  have hreach : Reach menu := .opened (by decide +kernel)
  have hchoosing : menu.Choosing menuSession menuStop :=
    ⟨by decide +kernel, by decide +kernel, by decide +kernel⟩
  have hleads : LiveStop.Leads menuSession.stops menuStop := ⟨[], _, rfl, by simp⟩
  obtain ⟨hcycles, hall⟩ := hreach.cycles Document.neverRefuses trivial hchoosing hleads
    (by decide +kernel) (by decide +kernel) {}
  exact ⟨hcycles, hall.mpr (oneRound_of_nodup (by decide +kernel))⟩

def stutter : Scene Document := opened (.parse "${1|a,b,a,c|}".toList)

def stutterStop : LiveStop := ⟨⟨1, ⟨0, 1⟩, some [['a'], ['b'], ['a'], ['c']], none⟩, []⟩

def meeting : Scene Document := opened (.parse "${1|a,b|}${1|c,d|}".toList)

def meetingSecond : Scene Document := { meeting with surface := meeting.surface.select ⟨1, 2⟩ }

def meetingStop : LiveStop := ⟨⟨1, ⟨1, 2⟩, some [['c'], ['d']], some 0⟩, [0]⟩

/-- The text behind the repeated one is never reached. And a stop that reaches the current one takes
in its text, so that the second request is for the other stop, and removes both texts. -/
theorem cycling_goes_astray :
    (Reach stutter ∧ stutter.currentStop? = some stutterStop ∧
        stutter.surface.text.slice stutterStop.span ∈ stutterStop.choices.getD [] ∧
        ['c'] ∈ stutterStop.choices.getD [] ∧
        ∀ k < 4, (stutter.cycled {} (k + 1)).selectedText ≠ ['c']) ∧
      Reach meetingSecond ∧ meetingSecond.currentStop? = some meetingStop ∧
        meetingSecond.surface.text.slice meetingStop.span ∈ meetingStop.choices.getD [] ∧
        (meetingSecond.cycled {} 1).surface.text = "ad".toList ∧
        (meetingSecond.cycled {} 2).surface.text = "a".toList := by
  have hstutter : Reach stutter := .opened (by decide +kernel)
  have hmeeting : Reach meeting := .opened (by decide +kernel)
  have hsecond : Reach meetingSecond := hmeeting.step (.select meeting ⟨1, 2⟩) (by decide +kernel)
  exact ⟨⟨hstutter, by decide +kernel, by decide +kernel, by decide +kernel, by decide +kernel⟩,
    hsecond, by decide +kernel, by decide +kernel, by decide +kernel, by decide +kernel⟩

end Scene

end Snippets
