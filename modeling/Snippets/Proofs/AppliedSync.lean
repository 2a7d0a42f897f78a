import Snippets.Proofs.Shifting

/-!
# Applied syncs

What a run of a sync does, and what holds of the document after one that was applied: it is the old
document with some ranges of the group replaced by the source text, and the current stop and all
stops that were replaced read that text.
-/

namespace Snippets

open Sync (Site)

namespace Scene

variable {σ : Type} [Editor σ]

def restacked (site : Site) (stops : List LiveStop) (outer : List Session) (nextId : Nat) : Stack :=
  ⟨{ site.top with stops := LiveStop.normalize stops } :: outer, nextId⟩

inductive Ran (op : Nat) (s : Scene σ) : Sync.Outcome → Scene σ → Prop where
  | unplanned (reason) : Sync.plan s.stack s.surface = .error reason →
      Ran op s (.skipped reason) { s with guard := s.guard.settle }
  | upToDate (site : Site) (stack : Stack) : site.At s.stack (Editor.document s.surface).selection →
      site.edits (Editor.document s.surface) = [] →
      (stack = s.stack ∨ stack = restacked site (site.stops (Editor.document s.surface)) site.outer
        s.stack.nextId) →
      Ran op s (.skipped .upToDate) { s with stack, guard := s.guard.settle }
  | refused (site : Site) (surface : σ) (refusal : Refusal) :
      site.At s.stack (Editor.document s.surface).selection →
      site.edits (Editor.document s.surface) ≠ [] →
      Surface.apply s.surface ⟨(site.plan (Editor.document s.surface)).edits, .sync op⟩ =
        (.error refusal, surface) →
      Ran op s (.skipped .surfaceUnavailable) { s with surface, guard := s.guard.settle }
  | applied (site : Site) (surface : σ) (change : Change) :
      site.At s.stack (Editor.document s.surface).selection →
      site.edits (Editor.document s.surface) ≠ [] →
      (Editor.document s.surface).apply
        ⟨(site.plan (Editor.document s.surface)).edits, .sync op⟩ =
          .ok (change, Editor.document surface) →
      Ran op s (.applied op (site.edits (Editor.document s.surface)).length)
        ⟨restacked site (site.stops (Editor.document s.surface))
          (site.outer.map (·.carry change (Editor.document surface).text.length)) s.stack.nextId,
          { s.guard with phase := .settling op }, surface⟩

theorem ran (op : Nat) (s : Scene σ) : Ran op s (runSync op s).1 (runSync op s).2 := by
  unfold runSync
  dsimp only
  cases hplan : Sync.plan s.stack s.surface with
  | error reason => exact .unplanned reason hplan
  | ok plan =>
    obtain ⟨site, hsite, rfl⟩ := Sync.plan_eq_ok_iff.mp hplan
    have hperm := Site.plan_edits_perm site (Editor.document s.surface)
    have hlen : (site.plan (Editor.document s.surface)).edits.length =
        (site.edits (Editor.document s.surface)).length := by
      rw [hperm.length_eq, List.length_map]
    dsimp only
    split
    · rename_i hempty
      have hnil : site.edits (Editor.document s.surface) = [] := by
        rw [List.isEmpty_iff_length_eq_zero, hlen] at hempty
        exact List.eq_nil_of_length_eq_zero hempty
      split
      · have heq : s.stack.apply (.replace (site.plan (Editor.document s.surface)).depth
            (site.plan (Editor.document s.surface)).stops) =
            restacked site (site.stops (Editor.document s.surface)) site.outer s.stack.nextId :=
          Stack.apply_replace_top hsite.sessions _
        simp only [effect, heq]
        exact .upToDate site _ hsite hnil (Or.inr rfl)
      · exact .upToDate site _ hsite hnil (Or.inl rfl)
    · rename_i hempty
      have hne : site.edits (Editor.document s.surface) ≠ [] := by
        intro hnil
        rw [List.isEmpty_iff_length_eq_zero, hlen, hnil] at hempty
        exact hempty rfl
      split
      · rename_i refusal surface happly
        exact .refused site surface refusal hsite hne happly
      · rename_i change surface happly
        have hdoc := Editor.document_of_ok happly
        have hstack : remapOuter s.stack change (Surface.length surface) =
            ⟨site.top :: site.outer.map (·.carry change (Editor.document surface).text.length),
              s.stack.nextId⟩ := by
          rw [Editor.length_eq, ← remapOuter_eq_carry, ← hsite.sessions]
        have hdepth : (site.plan (Editor.document s.surface)).depth =
            (site.outer.map (·.carry change (Editor.document surface).text.length)).length :=
          (List.length_map _).symm
        rw [hstack, hdepth, effect, Stack.apply_replace_top rfl, hlen]
        exact .applied site surface change hsite hne hdoc

def SyncsTo (s : Scene σ) (outcome : Sync.Outcome) (s' : Scene σ) : Prop :=
  s.syncNow = (outcome, s') ∨ s.flush = (outcome, s') ∨ s.tick = (some outcome, s')

/-- Unless a sync is in flight already or is found stale, it is carried out. -/
theorem SyncsTo.run {s s' : Scene σ} {outcome : Sync.Outcome} (h : s.SyncsTo outcome s')
    (free : outcome ≠ .skipped .inFlight) (fresh : outcome ≠ .skipped .stale) :
    ∃ op guard, runSync op { s with guard } = (outcome, s') := by
  have hnow (guard : Sync.Guard) (h : syncNow { s with guard } = (outcome, s')) :
      ∃ op guard, runSync op { s with guard } = (outcome, s') := by
    unfold syncNow at h
    split at h
    · exact absurd (congrArg Prod.fst h).symm free
    · exact ⟨_, _, h⟩
  rcases h with h | h | h
  · exact hnow s.guard h
  · unfold flush at h
    dsimp only at h
    split at h
    · split at h
      · exact ⟨_, s.guard, h⟩
      · exact hnow _ h
    · exact hnow _ h
  · unfold tick at h
    split at h
    · cases h
    · split at h
      · rename_i op session _ _
        refine ⟨op, s.guard, ?_⟩
        have hfst := congrArg Prod.fst h
        have hsnd := congrArg Prod.snd h
        exact Prod.ext (Option.some.inj hfst) hsnd
      · exact absurd (Option.some.inj (congrArg Prod.fst h)).symm fresh
    · cases h

theorem SyncsTo.site {s s' : Scene σ} {op count : Nat} (h : s.SyncsTo (.applied op count) s') :
    ∃ (site : Site) (change : Change), site.At s.stack (Editor.document s.surface).selection ∧
      count = (site.edits (Editor.document s.surface)).length ∧
      (Editor.document s.surface).apply
        ⟨(site.plan (Editor.document s.surface)).edits, .sync op⟩ =
          .ok (change, Editor.document s'.surface) ∧
      s'.stack = restacked site (site.stops (Editor.document s.surface))
        (site.outer.map (·.carry change (Editor.document s'.surface).text.length))
        s.stack.nextId := by
  obtain ⟨op', guard, hrun⟩ := h.run nofun nofun
  have hran := ran op' { s with guard }
  rw [hrun] at hran
  generalize ho : Sync.Outcome.applied op count = outcome at hran
  cases hran with
  | unplanned => cases ho
  | upToDate => cases ho
  | refused => cases ho
  | applied site surface change hsite hne happly =>
    cases ho
    exact ⟨site, change, hsite, rfl, happly, rfl⟩

end Scene

namespace Sync.Site

variable {site : Site} {d : Document}

theorem Sound.listed (h : site.Sound d) {origin : Origin}
    (hf : Batch.fault? ⟨(site.plan d).edits, origin⟩ d.text.length = none) :
    Listed d.text.length (site.edits d) := ⟨(h.accepted hf).2, h.edits_positions⟩

theorem getElem?_stops (site : Site) (d : Document) (i : Nat) : (site.stops d)[i]? =
    site.top.stops[i]?.map fun m => { m with
      span := shiftedSpan (site.edits d) site.current (site.source d).length m.span i } := by
  simp [stops, List.getElem?_zipIdx, Function.comp_def]

/-- No replaced range reaches into the source, and what is inserted where it begins counts for it.
-/
theorem Sound.counted_current (h : site.Sound d)
    (hsource : (site.source d).start < (site.source d).finish) :
    (∀ a ∈ counted (site.edits d) (site.source d).start site.current,
        a.2.span.finish ≤ (site.source d).start) ∧
      ∀ a ∈ uncounted (site.edits d) (site.source d).start site.current,
        (site.source d).finish ≤ a.2.span.start := by
  have hstart := h.source_start
  constructor
  · intro a ha
    obtain ⟨hmem, hcount⟩ := mem_counted.mp ha
    obtain ⟨m, hm, he⟩ := mem_edits.mp hmem
    have hclear := hm.clear
    rw [he] at hcount ⊢
    unfold Span.Overlaps at hclear
    split at hclear
    · dsimp only at *
      omega
    · dsimp only at *
      omega
  · intro a ha
    obtain ⟨hmem, hcount⟩ := mem_uncounted.mp ha
    obtain ⟨m, hm, he⟩ := mem_edits.mp hmem
    have hclear := hm.clear
    have hne := h.linked_ne hm.linked
    have hmup := h.edits_upright hmem
    rw [he] at hcount hmup ⊢
    dsimp only at *
    unfold Span.Overlaps at hclear
    by_cases hat : m.span.start = (site.source d).start
    · -- An empty stop behind the current one at its start bounds the source there.
      have hlt : site.current < a.1 := by omega
      have hle := LiveStop.le_iff.mp (h.le_of_lt h.stop hm.stop hlt)
      have hbound := h.stop_bounds
      split at hclear
      · exact h.source_finish_le hm.linked hm.stop (by omega)
      · omega
    · split at hclear
      · omega
      · omega

section

variable {origin : Origin} (h : site.Sound d)
  (hf : Batch.fault? ⟨(site.plan d).edits, origin⟩ d.text.length = none)
  (fits : d.text.length < 9223372036854775808)
  (fits' : (d.text.replaceFrom 0 ((site.edits d).map (·.2))).length < 9223372036854775808)

include h hf fits fits'

theorem Sound.slice_current : (d.text.replaceFrom 0 ((site.edits d).map (·.2))).slice
    (shiftedSpan (site.edits d) site.current (site.source d).length site.stop.span site.current) =
      site.text d := by
  have hbounds := h.source_bounds
  unfold shiftedSpan
  rw [if_pos (Or.inl rfl), ← h.source_start]
  by_cases hsource : (site.source d).start < (site.source d).finish
  · obtain ⟨hfront, hbehind⟩ := h.counted_current hsource
    exact (h.listed hf).slice_between fits fits' hbounds.1 hbounds.2 hfront hbehind
  · have hlen : (site.source d).length = 0 := by
      unfold Span.length
      omega
    have hempty : site.text d = [] := d.text.slice_inverted (by omega)
    rw [hlen, hempty]
    exact Text.slice_inverted _ (Nat.le_refl _)

theorem Sound.slice_replaced {i : Nat} {m : LiveStop} (hm : site.Replaces d i m) :
    (d.text.replaceFrom 0 ((site.edits d).map (·.2))).slice
      (shiftedSpan (site.edits d) site.current (site.source d).length m.span i) = site.text d := by
  have hmem : (i, ⟨m.span, site.text d⟩) ∈ site.edits d := mem_edits.mpr ⟨m, hm, rfl⟩
  have hany : (site.edits d).any (·.1 == i) = true :=
    List.any_eq_true.mpr ⟨_, hmem, by simp⟩
  unfold shiftedSpan
  rw [if_pos (Or.inr hany), ← h.length_text]
  have hslice := (h.listed hf).slice_edit fits fits' hmem
  dsimp only at hslice
  exact hslice

end

end Sync.Site

end Snippets
