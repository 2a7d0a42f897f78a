import Snippets.Proofs.FixedPoint
import Snippets.Proofs.Templates

/-!
# Syncing twice

Main statement: a sync that was applied, or that found nothing to do, leaves nothing to do. Once it
has settled, another sync is up to date and changes neither the text, nor the selection, nor any
stop.
-/

namespace Snippets

open Sync (Site)

namespace Session

variable {x : Session}

/-- Of two stops of one group the first ends where the second begins, or before. -/
def GroupsApart (x : Session) : Prop :=
  x.stops.Pairwise fun a b => a.isReference → b.group = a.group → a.span.finish ≤ b.span.start

instance (x : Session) : Decidable x.GroupsApart :=
  inferInstanceAs (Decidable (x.stops.Pairwise _))

/-- In the stops of a template the index decides about the group, and the group about the index. -/
theorem OfTemplate.exists_grouping (h : x.OfTemplate) : ∃ grouping : Nat → Option Nat,
    (∀ a ∈ x.stops, a.group = grouping a.index) ∧
      ∀ {i j g}, grouping i = some g → grouping j = some g → i = j := by
  obtain ⟨_, ⟨body, resolve, indent, rfl⟩, hperm⟩ := h
  unfold Template.instantiate at hperm
  generalize (Body.read body).render resolve indent 0 = r at hperm
  refine ⟨fun i => (repeatedIndices (Template.kept r)).idxOf? i, fun a ha => ?_,
    fun {i j g} hi hj => ?_⟩
  · have hlabel : a.label ∈ x.labels := List.mem_map_of_mem (f := fun s : LiveStop => s.label) ha
    rw [hperm.mem_iff, Template.stops_ofRendering, List.map_map] at hlabel
    obtain ⟨s, _, hs⟩ := List.mem_map.mp hlabel
    have hindex : s.index = a.index := congrArg Prod.fst hs
    have hgroup : (repeatedIndices (Template.kept r)).idxOf? s.index = a.group :=
      congrArg (fun l => l.2.1) hs
    rw [← hgroup, hindex]
  · have hsame := (Template.group_eq_some hi).symm.trans (Template.group_eq_some hj)
    exact Option.some.inj hsame

theorem OfTemplate.sameGroup_iff (h : x.OfTemplate) {a b : LiveStop} (ha : a ∈ x.stops)
    (hb : b ∈ x.stops) (reference : a.isReference) : a.SameGroup b ↔ b.index = a.index := by
  obtain ⟨grouping, hgroup, hinjective⟩ := h.exists_grouping
  obtain ⟨g, hg⟩ := Option.isSome_iff_exists.mp reference
  have hga := hgroup a ha
  have hgb := hgroup b hb
  constructor
  · rintro ⟨g', ha', hb'⟩
    exact hinjective (hgb.symm.trans hb') (hga.symm.trans ha')
  · intro hindex
    refine ⟨g, hg, ?_⟩
    rw [hgb, hindex, ← hga, hg]

end Session

namespace Scene

variable {σ : Type} [Editor σ] {s s' : Scene σ} {site : Site}

theorem inLine (hsite : site.At s.stack (Editor.document s.surface).selection)
    (placed : s.TopPlaced) (template : site.top.OfTemplate) (apart : site.top.GroupsApart) :
    site.InLine (Editor.document s.surface) := by
  obtain ⟨stop, hstop, hindex, _⟩ := Session.currentPosition?_cases hsite.current
  obtain rfl : stop = site.stop := Option.some.inj (hstop.symm.trans hsite.stop)
  have hmem := List.mem_of_getElem? hstop
  have hgroup : ∀ m ∈ site.top.stops, site.stop.SameGroup m ↔ m.index = site.top.current := by
    intro m hm
    rw [template.sameGroup_iff hmem hm hsite.reference, hindex]
  refine ⟨placed.sound hsite, hindex, hgroup, fun {i j a b} ha hb hij => ?_⟩
  obtain ⟨g, hg, hga⟩ := (hgroup a (List.mem_of_getElem? ha.stop)).mpr ha.index
  obtain ⟨g', hg', hgb⟩ := (hgroup b (List.mem_of_getElem? hb.stop)).mpr hb.index
  have hsame : b.group = a.group := by
    rw [hga, hgb, ← hg', hg]
  obtain ⟨hi, rfl⟩ := List.getElem?_eq_some_iff.mp ha.stop
  obtain ⟨hj, rfl⟩ := List.getElem?_eq_some_iff.mp hb.stop
  have hreference : (site.top.stops[i]).isReference := Option.isSome_iff_exists.mpr ⟨g, hga⟩
  exact List.pairwise_iff_getElem.mp apart i j hi hj hij hreference hsame

/-! ## Syncs that replace nothing -/

theorem stops_of_unmoved {d : Document} (unmoved : site.top.movedBy (site.stops d) = false) :
    site.stops d = site.top.stops := by
  apply List.ext_getElem?
  intro k
  have hnew := Site.getElem?_stops site d k
  cases hold : site.top.stops[k]? with
  | none =>
    rw [hold] at hnew
    exact hnew
  | some t =>
    rw [hold, Option.map_some] at hnew
    rw [Session.movedBy, List.any_eq_false] at unmoved
    have hpair : ((site.stops d).zip site.top.stops)[k]? = some (_, t) :=
      List.getElem?_zip_eq_some.mpr ⟨hnew, hold⟩
    have hspan := unmoved _ (List.mem_of_getElem? hpair)
    simp only [bne_iff_ne, ne_eq, not_not] at hspan
    rw [hnew, hspan]

/-- A sync that replaces nothing puts the stops where its plan has them, at any rate. -/
theorem runSync_of_edits_nil (hsite : site.At s.stack (Editor.document s.surface).selection)
    (sound : site.Sound (Editor.document s.surface))
    (nil : site.edits (Editor.document s.surface) = []) (op : Nat) :
    runSync op s = (.skipped .upToDate, { s with
      stack := restacked site (site.stops (Editor.document s.surface)) site.outer s.stack.nextId
      guard := s.guard.settle }) := by
  have htop : s.stack.top? = some site.top := by rw [Stack.top?, hsite.sessions]; rfl
  have hreplace :
      s.stack.apply (.replace site.outer.length (site.stops (Editor.document s.surface))) =
        restacked site (site.stops (Editor.document s.surface)) site.outer s.stack.nextId :=
    Stack.apply_replace_top hsite.sessions _
  unfold runSync
  dsimp only
  rw [hsite.plan_eq]
  dsimp only
  rw [Site.plan_edits_eq_nil.mpr nil, List.isEmpty_nil, if_pos rfl, htop, Option.any_some]
  cases hmoved : site.top.movedBy (site.plan (Editor.document s.surface)).stops with
  | true => rw [if_pos rfl, effect, ← hreplace]; rfl
  | false =>
    have hsame : restacked site (site.stops (Editor.document s.surface)) site.outer s.stack.nextId =
        s.stack := by
      rw [restacked, stops_of_unmoved hmoved, LiveStop.normalize_eq_self sound.normal,
        ← hsite.sessions]
    rw [hsame]
    rfl

/-! ## The first sync -/

theorem plan_ne_upToDate (stack : Stack) (surface : σ) :
    Sync.plan stack surface ≠ .error .upToDate := by
  intro h
  have hplanned := Sync.planned stack surface
  rw [h] at hplanned
  cases hplanned with
  | refused _ hreason => exact hreason rfl

def Did (outcome : Sync.Outcome) : Prop :=
  outcome.isApplied = true ∨ outcome = .skipped .upToDate

theorem Did.reason_eq {reason : Sync.SkipReason} (did : Did (.skipped reason)) :
    reason = .upToDate := by
  rcases did with happlied | hskipped
  · cases happlied
  · exact Sync.Outcome.skipped.inj hskipped

structure Left (s : Scene σ) (site : Site) (outcome : Sync.Outcome) (s' : Scene σ) : Prop where
  picked : site.At s.stack (Editor.document s.surface).selection
  accepted : ∃ origin, Batch.fault? ⟨(site.plan (Editor.document s.surface)).edits, origin⟩
    (Editor.document s.surface).text.length = none
  followed : site.Followed (Editor.document s.surface) (Editor.document s'.surface)
  stack : ∃ outer, s'.stack = ⟨site.synced (Editor.document s.surface) :: outer, s.stack.nextId⟩
  guard : s'.guard.phase = .idle ∨ outcome.isApplied = true ∧ ∃ op, s'.guard.phase = .settling op

theorem syncNow_left {outcome : Sync.Outcome} (sync : s.syncNow = (outcome, s')) (did : Did outcome)
    (placed : s.TopPlaced) (inside : (Editor.document s.surface).SelectionInside)
    (fits' : (Editor.document s'.surface).Fits) : ∃ site, Left s site outcome s' := by
  have hrun : runSync s.guard.issue.latest { s with guard := s.guard.issue } = (outcome, s') := by
    unfold syncNow at sync
    split at sync
    · cases sync
      cases did.reason_eq
    · exact sync
  have hran := ran s.guard.issue.latest { s with guard := s.guard.issue }
  rw [hrun] at hran
  cases hran with
  | unplanned reason hplan => exact absurd (did.reason_eq ▸ hplan) (plan_ne_upToDate _ _)
  | refused => cases did.reason_eq
  | upToDate site stack hsite hnil _ =>
    have hsound := placed.sound hsite
    rw [runSync_of_edits_nil (s := { s with guard := s.guard.issue }) hsite hsound hnil] at hrun
    have hstack := congrArg (fun r : Sync.Outcome × Scene σ => r.2.stack) hrun
    refine ⟨site, hsite, ⟨.user, ?_⟩, Site.followed_of_nil hnil, ⟨site.outer, hstack.symm⟩,
      Or.inl rfl⟩
    rw [hsound.fault?_eq_none_iff, hnil]
    exact .nil
  | applied site surface change hsite hne happly =>
    exact ⟨site, hsite, ⟨_, (Document.apply_eq_ok happly).1⟩,
      (placed.sound hsite).followed_of_apply inside fits' happly, ⟨_, rfl⟩, Or.inr ⟨rfl, _, rfl⟩⟩

/-! ## The second sync -/

theorem tick_of_idle (idle : s.guard.phase = .idle) : s.tick = (none, s) := by
  unfold tick
  rw [idle]

theorem ticks_settle (n : Nat) (quiet : s.guard.phase = .idle ∨
      (1 ≤ n ∧ ∃ op, s.guard.phase = .settling op)) :
    ∃ guard, (fun s : Scene σ => s.tick.2)^[n] s = { s with guard } ∧ guard.phase = .idle := by
  have hidle (n : Nat) {s : Scene σ} (idle : s.guard.phase = .idle) :
      (fun s : Scene σ => s.tick.2)^[n] s = s :=
    Function.iterate_fixed (by rw [tick_of_idle idle]) n
  rcases quiet with idle | ⟨hn, op, settling⟩
  · exact ⟨s.guard, hidle n idle, idle⟩
  · obtain ⟨n, rfl⟩ := Nat.exists_eq_add_of_le' hn
    have htick : s.tick.2 = { s with guard := s.guard.settle } := by
      unfold tick
      rw [settling]
    rw [Function.iterate_succ_apply, htick]
    exact ⟨s.guard.settle, hidle n rfl, rfl⟩

/-- When the groups of a session for a template lie apart, a sync that was applied or found nothing
to do leaves nothing to do, wherever the selection is. After the tick that an applied one settles
for, another sync finds everything up to date and leaves all as it is. -/
theorem syncNow_settled {outcome : Sync.Outcome} (sync : s.syncNow = (outcome, s'))
    (did : Did outcome) (placed : s.TopPlaced)
    (inside : (Editor.document s.surface).SelectionInside)
    (fits : (Editor.document s.surface).Fits) (fits' : (Editor.document s'.surface).Fits)
    (template : ∀ top, s.stack.top? = some top → top.OfTemplate ∧ top.GroupsApart) (ticks : Nat)
    (settled : outcome.isApplied = true → 1 ≤ ticks) :
    ∃ guard, ((fun s : Scene σ => s.tick.2)^[ticks] s').syncNow =
      (.skipped .upToDate, { s' with guard }) := by
  obtain ⟨site, left⟩ := syncNow_left sync did placed inside fits'
  obtain ⟨outer, hstack⟩ := left.stack
  have htop : s.stack.top? = some site.top := by rw [Stack.top?, left.picked.sessions]; rfl
  obtain ⟨htemplate, hapart⟩ := template site.top htop
  obtain ⟨origin, haccepted⟩ := left.accepted
  have hline := inLine left.picked placed htemplate hapart
  obtain ⟨again, hagain, hsound, hnil, hstops⟩ := hline.exists_again haccepted fits fits'
    left.followed left.picked.current inside left.picked.linked outer s.stack.nextId
  obtain ⟨guard, hticks, hidle⟩ := ticks_settle ticks (s := s') (by
    rcases left.guard with idle | ⟨happlied, settling⟩
    · exact Or.inl idle
    · exact Or.inr ⟨settled happlied, settling⟩)
  rw [hticks]
  rw [← hstack] at hagain
  have hnow : syncNow { s' with guard } =
      runSync guard.issue.latest { s' with guard := guard.issue } := by
    unfold syncNow
    rw [if_neg (by simp [Sync.Guard.inFlight, hidle])]
  have hrestacked : restacked again (again.stops (Editor.document s'.surface)) again.outer
      s'.stack.nextId = s'.stack := by
    rw [restacked, hstops, LiveStop.normalize_eq_self hsound.normal, ← hagain.sessions]
  rw [hnow, runSync_of_edits_nil (s := { s' with guard := guard.issue }) hagain hsound hnil,
    hrestacked]
  exact ⟨_, rfl⟩

def newTwin : Scene Document where
  stack := ⟨[⟨0, 1, [⟨{ index := 1, span := ⟨0, 1⟩, group := some 0 }, [1]⟩,
    ⟨{ index := 1, span := ⟨2, 2⟩, group := some 0 }, [0]⟩,
    ⟨{ index := 0, span := ⟨2, 2⟩ }, []⟩]⟩], 1⟩
  guard := {}
  surface := ⟨['x', ' '], .cursor 1, 2⟩

theorem newTwin_ofTemplate : ∀ top, newTwin.stack.top? = some top →
    top.OfTemplate ∧ top.GroupsApart := by
  intro top htop
  cases htop
  have hbody : (Template.parse "$1 $1".toList).OfBody := Template.instantiate_ofBody _ _ _
  exact ⟨⟨_, hbody, by decide +kernel⟩, by decide⟩

theorem newTwin_settled : ∃ guard, newTwin.syncNow.2.tick.2.syncNow =
    (.skipped .upToDate, { newTwin.syncNow.2 with guard }) := by
  have sync : newTwin.syncNow = (.applied 1 1, newTwin.syncNow.2) := by decide +kernel
  have placed : newTwin.TopPlaced := by
    intro top htop
    cases htop
    exact ⟨by decide, by decide⟩
  exact syncNow_settled sync (Or.inl rfl) placed (by decide) (by decide) (by decide +kernel)
    newTwin_ofTemplate 1 fun _ => Nat.le_refl 1

end Scene

end Snippets
