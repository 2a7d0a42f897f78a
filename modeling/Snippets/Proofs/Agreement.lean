import Snippets.Proofs.Moves

/-!
# Groups that agree

When the stops of a group read the same text, a sync has nothing to copy unless it takes more than
the current stop: text between that stop and the end of the selection. Main statement: exactly then
it plans replacements, and otherwise syncing and leaving the stop change nothing in the document.
-/

namespace Snippets

namespace Sync.Site

/-- The other stops of the group read the text of the current one. -/
def Agrees (site : Site) (d : Document) : Prop :=
  ∀ i ∈ site.stop.linked, ∀ m ∈ site.top.stops[i]?,
    d.text.slice m.span = d.text.slice site.stop.span

instance (site : Site) (d : Document) : Decidable (site.Agrees d) :=
  inferInstanceAs (Decidable (∀ _ ∈ _, ∀ _ ∈ _, _))

/-- The selection ends behind the current stop, no stop of the group bounds the source right there,
and some stop of the group lies clear of the stretched source. -/
def Overreaches (site : Site) (d : Document) : Prop :=
  site.stop.span.finish < d.selection.span.finish ∧
    (∀ i ∈ site.stop.linked, ∀ m ∈ site.top.stops[i]?, m.span.start ≠ site.stop.span.finish) ∧
    ∃ i ∈ site.stop.linked, ∃ m ∈ site.top.stops[i]?, ¬ m.span.Overlaps (site.source d)

instance (site : Site) (d : Document) : Decidable (site.Overreaches d) :=
  inferInstanceAs (Decidable (_ ∧ (∀ _ ∈ _, ∀ _ ∈ _, _) ∧ ∃ _ ∈ _, ∃ _ ∈ _, _))

variable {site : Site} {d : Document}

theorem Sound.source_stretched (h : site.Sound d) (inside : d.SelectionInside)
    (past : site.stop.span.finish < d.selection.span.finish)
    (free : ∀ i ∈ site.stop.linked, ∀ m ∈ site.top.stops[i]?,
      m.span.start ≠ site.stop.span.finish) : site.stop.span.finish < (site.source d).finish := by
  have hselection : d.selection.span.finish ≤ d.text.length := Nat.max_le.mpr inside
  rw [h.source_finish]
  rcases site.bound_cases d with hend | ⟨i, hi, m, hm, hnext, hle⟩
  · omega
  · have hne := free i hi m hm
    omega

/-- In a group that agrees, a stretched source is longer than the text of any stop. -/
theorem Sound.replaces_of_stretched (h : site.Sound d) (agrees : site.Agrees d)
    (stretched : site.stop.span.finish < (site.source d).finish) {i : Nat} {m : LiveStop}
    (hi : i ∈ site.stop.linked) (hm : site.top.stops[i]? = some m)
    (clear : ¬ m.span.Overlaps (site.source d)) : site.Replaces d i m := by
  refine ⟨hi, hm, clear, fun hsame => ?_⟩
  have hlen := congrArg List.length ((agrees i hi m hm).symm.trans hsame)
  have hstart := h.source_start
  have hbounds := h.stop_bounds
  rw [h.length_text, Text.length_slice, Span.length] at hlen
  omega

theorem Sound.edits_ne_nil_iff (h : site.Sound d) (inside : d.SelectionInside)
    (agrees : site.Agrees d) : site.edits d ≠ [] ↔ site.Overreaches d := by
  constructor
  · intro hne
    obtain ⟨⟨i, e⟩, hmem⟩ := List.exists_mem_of_ne_nil _ hne
    obtain ⟨m, hm, _⟩ := mem_edits.mp hmem
    have hstretched : site.source d ≠ site.stop.span := by
      intro hsource
      exact hm.differs ((agrees i hm.linked m hm.stop).trans (congrArg d.text.slice hsource.symm))
    have hlonger : site.stop.span.finish < (site.source d).finish :=
      Nat.lt_of_le_of_ne h.finish_le_source fun heq => hstretched (h.source_eq_of_finish heq.symm)
    refine ⟨?_, fun j hj n hn hat => ?_, i, hm.linked, m, hm.stop, hm.clear⟩
    · by_contra hle
      exact hstretched (h.source_eq (Nat.le_of_not_lt hle))
    · have := h.source_finish_le hj hn (Nat.le_of_eq hat.symm)
      omega
  · rintro ⟨past, free, i, hi, m, hm, clear⟩ hnil
    have hstretched := h.source_stretched inside past free
    have hreplaces := h.replaces_of_stretched agrees hstretched hi hm clear
    have hmem : (i, ⟨m.span, site.text d⟩) ∈ site.edits d := mem_edits.mpr ⟨m, hreplaces, rfl⟩
    rw [hnil] at hmem
    cases hmem

end Sync.Site

namespace Scene

open Sync (Site)

variable {σ : Type} [Editor σ] {s s' : Scene σ}

def selecting (s : Scene σ) (selection : Selection) : Scene σ :=
  { s with surface := Surface.select s.surface selection }

def GroupAgrees (s : Scene σ) : Prop :=
  ∀ site : Site, site.At s.stack (Editor.document s.surface).selection →
    site.Agrees (Editor.document s.surface)

theorem groupAgrees_of_at {site : Site}
    (hsite : site.At s.stack (Editor.document s.surface).selection)
    (agrees : site.Agrees (Editor.document s.surface)) : s.GroupAgrees := by
  intro site' hsite'
  rw [hsite'.unique hsite]
  exact agrees

def Overreaches (s : Scene σ) : Prop :=
  ∃ site : Site, site.At s.stack (Editor.document s.surface).selection ∧
    site.Overreaches (Editor.document s.surface)

def Settled (s : Scene σ) : Prop :=
  ∀ site : Site, site.At s.stack (Editor.document s.surface).selection →
    site.edits (Editor.document s.surface) = []

/-! ## Syncs that replace nothing -/

def Unchanged (s : Scene σ) (outcome : Sync.Outcome) (s' : Scene σ) : Prop :=
  outcome.isApplied = false ∧ Editor.document s'.surface = Editor.document s.surface

theorem Ran.unchanged {op : Nat} {outcome : Sync.Outcome} (h : Ran op s outcome s')
    (settled : s.Settled) : s.Unchanged outcome s' := by
  cases h with
  | unplanned reason _ => exact ⟨rfl, rfl⟩
  | upToDate site stack _ _ _ => exact ⟨rfl, rfl⟩
  | refused site surface refusal hsite hne _ => exact absurd (settled site hsite) hne
  | applied site surface change hsite hne _ => exact absurd (settled site hsite) hne

theorem Settled.runSync (h : s.Settled) (op : Nat) (guard : Sync.Guard) :
    s.Unchanged (Scene.runSync op { s with guard }).1 (Scene.runSync op { s with guard }).2 :=
  (ran op { s with guard }).unchanged h

theorem Settled.syncNow (h : s.Settled) (guard : Sync.Guard) :
    s.Unchanged (Scene.syncNow { s with guard }).1 (Scene.syncNow { s with guard }).2 := by
  unfold Scene.syncNow
  split
  · exact ⟨rfl, rfl⟩
  · exact h.runSync _ guard.issue

theorem Settled.flush (h : s.Settled) : s.Unchanged s.flush.1 s.flush.2 := by
  have hafresh := h.syncNow s.guard.settle
  unfold Scene.flush
  dsimp only
  split
  · split
    · exact h.runSync _ s.guard
    · exact hafresh
  · exact hafresh

theorem Settled.tick (h : s.Settled) {outcome : Sync.Outcome} (hs : s.tick = (some outcome, s')) :
    s.Unchanged outcome s' := by
  unfold Scene.tick at hs
  split at hs
  · cases hs
  · split at hs
    · cases hs
      exact h.runSync _ s.guard
    · cases hs
      exact ⟨rfl, rfl⟩
  · cases hs

theorem Settled.flushReference (h : s.Settled) :
    Editor.document s.flushReference.surface = Editor.document s.surface := by
  unfold Scene.flushReference
  split
  · exact h.flush.2
  · rfl

theorem Settled.visit (h : s.Settled) (index : Nat) :
    (Editor.document (s.flushReference.visit index).surface).text =
      (Editor.document s.surface).text := by
  rw [document_visit_text, h.flushReference]

theorem Settled.jumpFrom (h : s.Settled) (top : Session) :
    (Editor.document (s.jumpFrom top).2.surface).text = (Editor.document s.surface).text := by
  have hclose : (Editor.document (s.flushReference.effect .pop).surface).text =
      (Editor.document s.surface).text := congrArg Document.text h.flushReference
  unfold Scene.jumpFrom
  split
  · dsimp only
    split
    · exact hclose
    · exact h.visit 0
  · exact h.visit _
  · split
    · rfl
    · exact hclose

theorem Settled.jumpPrevious (h : s.Settled) :
    (Editor.document s.jumpPrevious.2.surface).text = (Editor.document s.surface).text := by
  unfold Scene.jumpPrevious
  split
  · rfl
  · split
    · rfl
    · exact h.visit _

/-- No sync is applied or changes the document, and leaving the stop changes no text. -/
structure Untouched (s : Scene σ) : Prop where
  sync : ∀ outcome s', s.SyncsTo outcome s' → s.Unchanged outcome s'
  leave : Editor.document s.flushReference.surface = Editor.document s.surface
  next : ∀ top, s.stack.top? = some top →
    (Editor.document (s.jumpFrom top).2.surface).text = (Editor.document s.surface).text
  previous : (Editor.document s.jumpPrevious.2.surface).text = (Editor.document s.surface).text

theorem Settled.untouched (h : s.Settled) : s.Untouched where
  sync outcome s' hs := by
    rcases hs with hs | hs | hs
    · have hnow := h.syncNow s.guard
      rw [hs] at hnow
      exact hnow
    · have hflush := h.flush
      rw [hs] at hflush
      exact hflush
    · exact h.tick hs
  leave := h.flushReference
  next top _ := h.jumpFrom top
  previous := h.jumpPrevious

theorem Placed.edits_ne_nil_iff (h : s.Placed)
    (inside : (Editor.document s.surface).SelectionInside) (agrees : s.GroupAgrees) {site : Site}
    (hsite : site.At s.stack (Editor.document s.surface).selection) :
    site.edits (Editor.document s.surface) ≠ [] ↔ site.Overreaches (Editor.document s.surface) :=
  (h.topPlaced.sound hsite).edits_ne_nil_iff inside (agrees site hsite)

theorem Placed.settled (h : s.Placed) (inside : (Editor.document s.surface).SelectionInside)
    (agrees : s.GroupAgrees) (near : ¬ s.Overreaches) : s.Settled := by
  intro site hsite
  by_contra hne
  exact near ⟨site, hsite, (h.edits_ne_nil_iff inside agrees hsite).mp hne⟩

theorem Placed.overreaches_iff (h : s.Placed)
    (inside : (Editor.document s.surface).SelectionInside) (agrees : s.GroupAgrees) :
    s.Overreaches ↔ ∃ plan, Sync.plan s.stack s.surface = .ok plan ∧ plan.edits ≠ [] := by
  constructor
  · rintro ⟨site, hsite, hover⟩
    refine ⟨_, hsite.plan_eq, fun hnil => ?_⟩
    exact (h.edits_ne_nil_iff inside agrees hsite).mpr hover (Site.plan_edits_eq_nil.mp hnil)
  · rintro ⟨plan, hplan, hne⟩
    obtain ⟨site, hsite, rfl⟩ := Sync.plan_eq_ok_iff.mp hplan
    refine ⟨site, hsite, (h.edits_ne_nil_iff inside agrees hsite).mp fun hnil => ?_⟩
    exact hne (Site.plan_edits_eq_nil.mpr hnil)

/-- In a group that agrees, syncs and jumps off the stop leave the text alone wherever the selection
is put, unless the selection makes the stop reach over text behind it. -/
theorem Reach.agreeing_group_kept (h : Reach s) (selection : Selection)
    (agrees : (s.selecting selection).GroupAgrees) :
    ((s.selecting selection).Overreaches ↔
      ∃ plan, Sync.plan (s.selecting selection).stack (s.selecting selection).surface = .ok plan ∧
        plan.edits ≠ []) ∧
      (¬ (s.selecting selection).Overreaches → (s.selecting selection).Untouched) := by
  have hplaced : (s.selecting selection).Placed := h.placed.select selection
  have hinside : (Editor.document (s.selecting selection).surface).SelectionInside := by
    rw [selecting, Editor.document_select]
    exact Document.select_inside _ selection
  exact ⟨hplaced.overreaches_iff hinside agrees,
    fun hnear => (hplaced.settled hinside agrees hnear).untouched⟩

def twins : Scene Document := opened (.parse "${1:a} ${1:a} b".toList)

def twinsSite : Site where
  top := ⟨0, 1, [⟨{ index := 1, span := ⟨0, 1⟩, group := some 0 }, [1]⟩,
    ⟨{ index := 1, span := ⟨2, 3⟩, group := some 0 }, [0]⟩, ⟨{ index := 0, span := ⟨5, 5⟩ }, []⟩]⟩
  outer := []
  current := 0
  stop := ⟨{ index := 1, span := ⟨0, 1⟩, group := some 0 }, [1]⟩

theorem twins_reach : Reach twins := .opened (by decide +kernel)

theorem twins_at {selection : Selection}
    (first : twinsSite.top.currentPosition? selection = some 0) :
    twinsSite.At twins.stack selection :=
  ⟨by decide +kernel, first, rfl, rfl, by decide⟩

theorem twins_kept : (twins.selecting (.cursor 1)).GroupAgrees ∧
    ¬ (twins.selecting (.cursor 1)).Overreaches ∧ (twins.selecting (.cursor 1)).Untouched := by
  have hagrees : (twins.selecting (.cursor 1)).GroupAgrees :=
    groupAgrees_of_at (twins_at (by decide +kernel)) (by decide +kernel)
  have hnear : ¬ (twins.selecting (.cursor 1)).Overreaches := by
    rintro ⟨site, hsite, hover⟩
    rw [hsite.unique (twins_at (by decide +kernel))] at hover
    exact absurd hover (by decide +kernel)
  exact ⟨hagrees, hnear, (twins_reach.agreeing_group_kept (.cursor 1) hagrees).2 hnear⟩

/-- With the cursor behind both copies the first one reaches as far as the second, and the second is
rewritten though both read the same. -/
theorem twins_overreached : Reach twins ∧ (twins.selecting (.cursor 5)).GroupAgrees ∧
    (twins.selecting (.cursor 5)).syncNow.1 = .applied 1 1 ∧
    (twins.selecting (.cursor 5)).surface.text = "a a b".toList ∧
    (twins.selecting (.cursor 5)).syncNow.2.surface.text = "a a  b".toList :=
  ⟨twins_reach, groupAgrees_of_at (twins_at (by decide +kernel)) (by decide +kernel),
    by decide +kernel, by decide +kernel, by decide +kernel⟩

end Scene

end Snippets
