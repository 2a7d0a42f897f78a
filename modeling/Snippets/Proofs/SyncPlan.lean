import Snippets.Proofs.Carrying
import Snippets.Proofs.Editor

/-!
# What a sync plans

A plan depends on the document, the innermost session and the stop that the selection is in. Its
replacements are listed in document order; an accepted batch makes exactly them, one behind the
other.
-/

namespace Snippets.Sync

/-- What a plan looks at: the innermost session, and the stop in it that the selection is in. -/
structure Site where
  top : Session
  outer : List Session
  current : Nat
  stop : LiveStop

structure Site.At (site : Site) (stack : Stack) (selection : Selection) : Prop where
  sessions : stack.sessions = site.top :: site.outer
  current : site.top.currentPosition? selection = some site.current
  stop : site.top.stops[site.current]? = some site.stop
  reference : site.stop.isReference
  linked : site.stop.linked ≠ []

namespace Site

variable (site : Site) (d : Document)

def source : Span := sourceSpan site.top.stops site.stop d.selection d.text.length

def text : Text := d.text.slice (site.source d)

def edits : List (Nat × Edit) :=
  replacements d site.top.stops site.stop.linked (site.source d) (site.text d)

def stops : List LiveStop :=
  site.top.stops.zipIdx.map fun (s, i) =>
    { s with span := shiftedSpan (site.edits d) site.current (site.source d).length s.span i }

def plan : Plan where
  depth := site.outer.length
  source := site.source d
  text := site.text d
  edits := sortStable (fun a b => b.span.start ≤ a.span.start) ((site.edits d).map (·.2))
  stops := site.stops d

end Site

theorem replacements_document {σ : Type} [Editor σ] (s : σ) (stops : List LiveStop)
    (linked : List Nat) (source : Span) (text : Text) :
    replacements s stops linked source text =
      replacements (Editor.document s) stops linked source text := by
  simp [replacements, Editor.slice_eq]

theorem Site.At.plan_eq {σ : Type} [Editor σ] {site : Site} {stack : Stack} {s : σ}
    (h : site.At stack (Editor.document s).selection) :
    Sync.plan stack s = .ok (site.plan (Editor.document s)) := by
  have hlinked : site.stop.linked.isEmpty = false := by simpa using h.linked
  unfold Sync.plan
  simp only [h.sessions, Editor.selection_eq, Editor.length_eq, Editor.slice_eq, h.current, h.stop,
    h.reference, hlinked, replacements_document s, Bool.not_true, Bool.false_eq_true, if_false]
  rfl

theorem Site.At.unique {site site' : Site} {stack : Stack} {selection : Selection}
    (h : site.At stack selection)
    (h' : site'.At stack selection) : site = site' := by
  obtain ⟨htop, houter⟩ := List.cons.inj (h.sessions.symm.trans h'.sessions)
  have hcurrent := h.current
  have hstop := h.stop
  rw [htop, h'.current, Option.some.injEq] at hcurrent
  rw [htop, ← hcurrent, h'.stop, Option.some.injEq] at hstop
  obtain ⟨top, outer, current, stop⟩ := site
  obtain ⟨top', outer', current', stop'⟩ := site'
  dsimp only at *
  rw [htop, houter, hcurrent, hstop]

inductive Planned (stack : Stack) (selection : Selection) : Except SkipReason Plan → Prop where
  | refused (reason : SkipReason) : reason ≠ .upToDate → Planned stack selection (.error reason)
  | made (site : Site) (p : Plan) (move : Span → Nat → Span) : site.At stack selection →
      p.depth = site.outer.length →
      p.stops = site.top.stops.zipIdx.map (fun (s, i) => { s with span := move s.span i }) →
      Planned stack selection (.ok p)

theorem planned {σ : Type} [Surface σ] (stack : Stack) (surface : σ) :
    Planned stack (Surface.selection surface) (Sync.plan stack surface) := by
  unfold Sync.plan
  cases hs : stack.sessions with
  | nil => exact .refused _ (by decide)
  | cons top outer =>
    dsimp only
    cases hc : top.currentPosition? (Surface.selection surface) with
    | none => exact .refused _ (by decide)
    | some current =>
      dsimp only
      cases hst : top.stops[current]? with
      | none => exact .refused _ (by decide)
      | some stop =>
        dsimp only
        cases hr : stop.isReference with
        | false => exact .refused _ (by decide)
        | true =>
          cases hl : stop.linked.isEmpty with
          | true => exact .refused _ (by decide)
          | false =>
            have hlinked : stop.linked ≠ [] := fun h => by simp [h] at hl
            exact .made ⟨top, outer, current, stop⟩ _ _ ⟨hs, hc, hst, hr, hlinked⟩ rfl rfl

theorem plan_eq_ok_iff {σ : Type} [Editor σ] {stack : Stack} {s : σ} {p : Plan} :
    Sync.plan stack s = .ok p ↔
      ∃ site : Site, site.At stack (Editor.document s).selection ∧
        p = site.plan (Editor.document s) := by
  constructor
  · intro h
    have hplanned := planned stack s
    rw [h, Editor.selection_eq] at hplanned
    cases hplanned with
    | made site _ _ hsite =>
      exact ⟨site, hsite, (Except.ok.inj (hsite.plan_eq.symm.trans h)).symm⟩
  · rintro ⟨site, hsite, rfl⟩
    exact hsite.plan_eq

namespace Site

structure Sound (site : Site) (d : Document) : Prop where
  stop : site.top.stops[site.current]? = some site.stop
  normal : LiveStop.Normal site.top.stops
  inside : LiveStop.Inside d.text.length site.top.stops

variable {site : Site} {d : Document}

theorem Sound.stop_bounds (h : site.Sound d) : site.stop.span.start ≤ site.stop.span.finish ∧
    site.stop.span.finish ≤ d.text.length := by
  have hmem := List.mem_of_getElem? h.stop
  exact ⟨h.normal.upright _ hmem, h.inside _ hmem⟩

theorem Sound.source_start (h : site.Sound d) : (site.source d).start = site.stop.span.start := by
  have := h.stop_bounds
  simp only [source, sourceSpan]
  omega

theorem Sound.source_bounds (h : site.Sound d) : (site.source d).start ≤ (site.source d).finish ∧
    (site.source d).finish ≤ d.text.length := by
  have := h.stop_bounds
  simp only [source, sourceSpan]
  omega

theorem Sound.length_text (h : site.Sound d) : (site.text d).length = (site.source d).length := by
  have := h.source_bounds
  rw [text, Text.length_slice, Span.length, Nat.min_eq_left this.2]

/-- Where the source has to end at the latest: where the next stop of the group begins, or with the
document. -/
def bound (site : Site) (d : Document) : Nat :=
  (((site.stop.linked.filterMap (site.top.stops[·]?)).map (·.span.start)).filter
    (site.stop.span.finish ≤ ·)).min?.getD d.text.length

theorem bound_cases (site : Site) (d : Document) : site.bound d = d.text.length ∨
    ∃ i ∈ site.stop.linked, ∃ m, site.top.stops[i]? = some m ∧ site.bound d = m.span.start ∧
      site.stop.span.finish ≤ m.span.start := by
  unfold bound
  cases hmin : (((site.stop.linked.filterMap (site.top.stops[·]?)).map (·.span.start)).filter
      (site.stop.span.finish ≤ ·)).min? with
  | none => exact Or.inl rfl
  | some v =>
    have hmem := List.min?_mem hmin
    simp only [List.mem_filter, List.mem_map, List.mem_filterMap, decide_eq_true_eq] at hmem
    obtain ⟨⟨m, ⟨i, hi, hm⟩, hv⟩, hle⟩ := hmem
    exact Or.inr ⟨i, hi, m, hm, hv.symm, hv ▸ hle⟩

theorem bound_le {i : Nat} {m : LiveStop} (hi : i ∈ site.stop.linked)
    (hm : site.top.stops[i]? = some m) (hfin : site.stop.span.finish ≤ m.span.start) :
    site.bound d ≤ m.span.start := by
  apply List.min?_getD_le_of_mem
  simp only [List.mem_filter, List.mem_map, List.mem_filterMap, decide_eq_true_eq]
  exact ⟨⟨m, ⟨i, hi, hm⟩, rfl⟩, hfin⟩

theorem Sound.finish_le_bound (h : site.Sound d) : site.stop.span.finish ≤ site.bound d := by
  rcases site.bound_cases d with hend | ⟨i, _, m, _, hnext, hle⟩
  · exact hend ▸ h.stop_bounds.2
  · exact hnext ▸ hle

theorem Sound.source_finish (h : site.Sound d) : (site.source d).finish =
    min (min (max site.stop.span.finish d.selection.span.finish) (site.bound d)) d.text.length := by
  have hbound := h.finish_le_bound
  have hstop := h.stop_bounds
  unfold bound at hbound ⊢
  simp only [source, sourceSpan]
  omega

theorem Sound.finish_le_source (h : site.Sound d) :
    site.stop.span.finish ≤ (site.source d).finish := by
  have hbound := h.finish_le_bound
  have hstop := h.stop_bounds
  rw [h.source_finish]
  omega

/-- The source does not reach into a stop of the group that begins behind the current one. -/
theorem Sound.source_finish_le (h : site.Sound d) {i : Nat} {m : LiveStop}
    (hi : i ∈ site.stop.linked)
    (hm : site.top.stops[i]? = some m) (hfin : site.stop.span.finish ≤ m.span.start) :
    (site.source d).finish ≤ m.span.start := by
  have hbound : site.bound d ≤ m.span.start := bound_le hi hm hfin
  rw [h.source_finish]
  omega

theorem Sound.source_eq_of_finish (h : site.Sound d)
    (hfinish : (site.source d).finish = site.stop.span.finish) :
    site.source d = site.stop.span := by
  calc site.source d = ⟨(site.source d).start, (site.source d).finish⟩ := rfl
    _ = site.stop.span := by rw [h.source_start, hfinish]

/-- Without a selection past its end, a stop is its own source. -/
theorem Sound.source_eq (h : site.Sound d)
    (hsel : d.selection.span.finish ≤ site.stop.span.finish) : site.source d = site.stop.span := by
  apply h.source_eq_of_finish
  have hbound := h.finish_le_bound
  have hstop := h.stop_bounds
  rw [h.source_finish]
  omega

theorem Sound.linked_eq (h : site.Sound d) :
    site.stop.linked = LiveStop.linksAt site.top.stops site.stop site.current := by
  have hlink := LiveStop.getElem?_link site.top.stops site.current
  rw [h.normal.linked, h.stop, Option.map_some, Option.some.injEq] at hlink
  exact congrArg LiveStop.linked hlink

theorem Sound.linked_ascending (h : site.Sound d) : site.stop.linked.Pairwise (· < ·) := by
  rw [h.linked_eq, LiveStop.linksAt]
  split
  · exact .nil
  · exact LiveStop.members_ascending _ _ _

theorem Sound.linked_ne (h : site.Sound d) {i : Nat} (hi : i ∈ site.stop.linked) :
    i ≠ site.current := by
  rw [h.linked_eq, LiveStop.linksAt] at hi
  split at hi
  · cases hi
  · exact (LiveStop.mem_members.mp hi).1

theorem Sound.exists_of_mem_linked (h : site.Sound d) {i : Nat} (hi : i ∈ site.stop.linked) :
    ∃ m, site.top.stops[i]? = some m := by
  rw [h.linked_eq, LiveStop.linksAt] at hi
  split at hi
  · cases hi
  · obtain ⟨_, m, hm, _⟩ := LiveStop.mem_members.mp hi
    exact ⟨m, hm⟩

theorem Sound.le_of_lt (h : site.Sound d) {i j : Nat} {a b : LiveStop}
    (ha : site.top.stops[i]? = some a) (hb : site.top.stops[j]? = some b) (hij : i < j) :
    LiveStop.le a b := h.normal.le_of_le ha hb (Nat.le_of_lt hij)

/-- A stop of the group is replaced unless it shares characters with the source or holds the text.
-/
structure Replaces (site : Site) (d : Document) (i : Nat) (m : LiveStop) : Prop where
  linked : i ∈ site.stop.linked
  stop : site.top.stops[i]? = some m
  clear : ¬ m.span.Overlaps (site.source d)
  differs : d.text.slice m.span ≠ site.text d

theorem mem_edits {i : Nat} {e : Edit} :
    (i, e) ∈ site.edits d ↔ ∃ m, site.Replaces d i m ∧ e = ⟨m.span, site.text d⟩ := by
  simp only [edits, replacements, List.mem_filterMap, Option.bind_eq_some_iff]
  constructor
  · rintro ⟨j, hj, m, hm, he⟩
    split at he
    · cases he
    · rename_i hno
      cases he
      exact ⟨m, ⟨hj, hm, fun h => hno (Or.inl h), fun h => hno (Or.inr h)⟩, rfl⟩
  · rintro ⟨m, ⟨hi, hm, hclear, hdiffers⟩, rfl⟩
    exact ⟨i, hi, m, hm, if_neg fun h => h.elim hclear hdiffers⟩

theorem Sound.edits_positions (h : site.Sound d) :
    (site.edits d).Pairwise fun a b => a.1 < b.1 := by
  refine List.Pairwise.filterMap _ (fun i j hij a ha b hb => ?_) h.linked_ascending
  obtain ⟨m, _, ha⟩ := Option.bind_eq_some_iff.mp ha
  obtain ⟨n, _, hb⟩ := Option.bind_eq_some_iff.mp hb
  split at ha <;> split at hb <;> cases ha <;> cases hb
  exact hij

theorem Sound.edits_starts (h : site.Sound d) :
    (site.edits d).Pairwise fun a b => a.2.span.start ≤ b.2.span.start := by
  refine List.Pairwise.imp_of_mem (fun {a b} ha hb hab => ?_) h.edits_positions
  obtain ⟨m, hm, hma⟩ := mem_edits.mp ha
  obtain ⟨n, hn, hnb⟩ := mem_edits.mp hb
  have hle := LiveStop.le_iff.mp (h.le_of_lt hm.stop hn.stop hab)
  rw [hma, hnb]
  dsimp only
  omega

theorem Sound.edits_upright (h : site.Sound d) {p : Nat × Edit} (hp : p ∈ site.edits d) :
    p.2.span.start ≤ p.2.span.finish ∧ p.2.span.finish ≤ d.text.length := by
  obtain ⟨m, hm, he⟩ := mem_edits.mp hp
  have hmem := List.mem_of_getElem? hm.stop
  rw [he]
  exact ⟨h.normal.upright _ hmem, h.inside _ hmem⟩

theorem plan_edits_perm (site : Site) (d : Document) :
    (site.plan d).edits.Perm ((site.edits d).map (·.2)) := sortStable_perm _ _

theorem plan_edits_eq_nil {site : Site} {d : Document} :
    (site.plan d).edits = [] ↔ site.edits d = [] := by
  rw [← List.length_eq_zero_iff, (plan_edits_perm site d).length_eq, List.length_map,
    List.length_eq_zero_iff]

/-- The batch of a sync is accepted exactly when no two of its ranges clash. -/
theorem Sound.fault?_eq_none_iff (h : site.Sound d) (origin : Origin) :
    Batch.fault? ⟨(site.plan d).edits, origin⟩ d.text.length = none ↔
      (site.edits d).Pairwise fun a b => a.2.span.Apart b.2.span := by
  rw [Batch.fault?_eq_none_iff_apart,
    (plan_edits_perm site d).pairwise_iff fun h => Span.Apart.symm h, List.pairwise_map]
  refine ⟨fun hb => hb.2, fun hb => ⟨fun e he => ?_, hb⟩⟩
  obtain ⟨p, hp, rfl⟩ := List.mem_map.mp ((plan_edits_perm site d).mem_iff.mp he)
  exact h.edits_upright hp

/-- An accepted sync makes its replacements in the order in which the stops are listed. -/
theorem Sound.accepted (h : site.Sound d) {origin : Origin}
    (hf : Batch.fault? ⟨(site.plan d).edits, origin⟩ d.text.length = none) :
    (Change.ofBatch ⟨(site.plan d).edits, origin⟩).edits = (site.edits d).map (·.2) ∧
      Edit.Ordered d.text.length ((site.edits d).map (·.2)) := by
  have hsorted := Batch.fault?_eq_none_iff.mp hf
  have hapart : ((site.edits d).map (·.2)).Pairwise fun a b => a.span.Precedes b.span := by
    rw [List.pairwise_map]
    refine ((h.fault?_eq_none_iff origin).mp hf).imp₂ (fun a b hap hle => ?_) h.edits_starts
    unfold Span.Apart Span.Precedes at hap
    unfold Span.Precedes
    omega
  have hperm : (sortStable Edit.le (site.plan d).edits).Perm ((site.edits d).map (·.2)) :=
    (sortStable_perm _ _).trans (plan_edits_perm site d)
  have heq : sortStable Edit.le (site.plan d).edits = (site.edits d).map (·.2) := by
    refine hperm.eq_of_pairwise ?_ hsorted.apart hapart
    intro a b _ _ hab hba
    unfold Span.Precedes at hab hba
    omega
  exact ⟨heq, heq ▸ hsorted⟩

end Site

end Snippets.Sync
