import Snippets.Proofs.Reach

/-!
# Syncs that cannot be made

Main statement: in a reachable scene the document accepts a planned sync exactly when no two stops
that it replaces clash. A sync that finds the surface unavailable then met such a clash or an editor
that refused a batch without a fault.
-/

namespace Snippets

namespace Sync.Site

variable {site : Site} {d : Document}

/-- Two stops that a sync replaces begin at one offset or share characters. -/
def Clash (site : Site) (d : Document) : Prop :=
  ∃ i j m n, i < j ∧ site.Replaces d i m ∧ site.Replaces d j n ∧ ¬ m.span.Apart n.span

theorem Sound.accepted_iff (h : site.Sound d) (origin : Origin) :
    Batch.fault? ⟨(site.plan d).edits, origin⟩ d.text.length = none ↔ ¬ site.Clash d := by
  rw [h.fault?_eq_none_iff]
  constructor
  · rintro hapart ⟨i, j, m, n, hij, hm, hn, hclash⟩
    have : Std.Symm fun a b : Nat × Edit => a.2.span.Apart b.2.span := ⟨fun _ _ h => h.symm⟩
    have hne : (i, (⟨m.span, site.text d⟩ : Edit)) ≠ (j, ⟨n.span, site.text d⟩) := by
      intro heq
      have := congrArg Prod.fst heq
      dsimp only at this
      omega
    exact hclash (hapart.forall (mem_edits.mpr ⟨m, hm, rfl⟩) (mem_edits.mpr ⟨n, hn, rfl⟩) hne)
  · intro hclear
    refine List.Pairwise.imp_of_mem (fun {a b} ha hb hab => ?_) h.edits_positions
    obtain ⟨m, hm, hma⟩ := mem_edits.mp ha
    obtain ⟨n, hn, hnb⟩ := mem_edits.mp hb
    rw [hma, hnb]
    by_contra hclash
    exact hclear ⟨_, _, m, n, hab, hm, hn, hclash⟩

theorem Clash.edits_ne_nil (h : site.Clash d) : site.edits d ≠ [] := by
  obtain ⟨i, j, m, n, _, hm, _⟩ := h
  exact List.ne_nil_of_mem (mem_edits.mpr ⟨m, hm, rfl⟩)

end Sync.Site

namespace Scene

variable {σ : Type} [Editor σ] {s : Scene σ}

def CopiesClash (s : Scene σ) : Prop :=
  ∃ site : Sync.Site, site.At s.stack (Editor.document s.surface).selection ∧
    site.Clash (Editor.document s.surface)

/-- The editor refuses a batch in which the document finds no fault. -/
def EditorFails (s : Scene σ) (b : Batch) : Prop :=
  b.fault? (Editor.document s.surface).text.length = none ∧
    ∃ refusal, (Surface.apply s.surface b).1 = .error refusal

theorem Placed.runSync_of_clash (h : s.Placed) (clash : s.CopiesClash) (op : Nat) :
    (s.runSync op).1 = .skipped .surfaceUnavailable := by
  obtain ⟨site, hsite, hclash⟩ := clash
  have hran := ran op s
  generalize s.runSync op = result at hran ⊢
  obtain ⟨outcome, s'⟩ := result
  dsimp only at hran ⊢
  cases hran with
  | unplanned reason hplan => cases hplan.symm.trans hsite.plan_eq
  | upToDate site' stack hsite' hnil _ =>
    obtain rfl := hsite.unique hsite'
    exact absurd hnil hclash.edits_ne_nil
  | refused => rfl
  | applied site' surface change hsite' _ happly =>
    obtain rfl := hsite.unique hsite'
    have hfault := (Document.apply_eq_ok happly).1
    exact absurd hclash (((h.topPlaced.sound hsite).accepted_iff _).mp hfault)

theorem Placed.unavailable (h : s.Placed) {op : Nat}
    (hout : (s.runSync op).1 = .skipped .surfaceUnavailable) {plan : Sync.Plan}
    (hplan : Sync.plan s.stack s.surface = .ok plan) :
    s.CopiesClash ∨ s.EditorFails ⟨plan.edits, .sync op⟩ := by
  have hran := ran op s
  generalize s.runSync op = result at hran hout
  obtain ⟨outcome, s'⟩ := result
  dsimp only at hran hout
  subst hout
  cases hran with
  | unplanned reason hfail => cases hfail.symm.trans hplan
  | refused site surface refusal hsite hne happly =>
    obtain rfl := Except.ok.inj (hsite.plan_eq.symm.trans hplan)
    by_cases hclash : site.Clash (Editor.document s.surface)
    · exact Or.inl ⟨site, hsite, hclash⟩
    · exact Or.inr ⟨((h.topPlaced.sound hsite).accepted_iff _).mpr hclash, refusal, by rw [happly]⟩

theorem reach_sync_accepted_iff (h : Reach s) {plan : Sync.Plan}
    (hplan : Sync.plan s.stack s.surface = .ok plan) (op : Nat) :
    (Batch.fault? ⟨plan.edits, .sync op⟩ (Editor.document s.surface).text.length = none ↔
        ¬ s.CopiesClash) ∧
      (s.CopiesClash → (s.runSync op).1 = .skipped .surfaceUnavailable) ∧
      ∀ s', s.SyncsTo (.skipped .surfaceUnavailable) s' →
        s.CopiesClash ∨ ∃ op, s.EditorFails ⟨plan.edits, .sync op⟩ := by
  obtain ⟨site, hsite, rfl⟩ := Sync.plan_eq_ok_iff.mp hplan
  have hsound := h.placed.topPlaced.sound hsite
  have hclash : s.CopiesClash ↔ site.Clash (Editor.document s.surface) := by
    constructor
    · rintro ⟨site', hsite', hclash⟩
      obtain rfl := hsite.unique hsite'
      exact hclash
    · exact fun hclash => ⟨site, hsite, hclash⟩
  refine ⟨?_, fun hclash => h.placed.runSync_of_clash hclash op, fun s' hout => ?_⟩
  · rw [hsound.accepted_iff, hclash]
  · obtain ⟨op', guard, hrun⟩ := hout.run nofun nofun
    have hplaced : { s with guard }.Placed := h.placed.guarded guard
    exact (hplaced.unavailable (congrArg Prod.fst hrun) hplan).imp_right fun hfails => ⟨op', hfails⟩

def crowdedTwin : Scene Document where
  stack := ⟨[⟨0, 1, [⟨{ index := 1, span := ⟨0, 1⟩, group := some 0 }, [1, 2]⟩,
    ⟨{ index := 1, span := ⟨2, 2⟩, group := some 0 }, [0, 2]⟩,
    ⟨{ index := 1, span := ⟨2, 2⟩, group := some 0 }, [0, 1]⟩,
    ⟨{ index := 0, span := ⟨2, 2⟩ }, []⟩]⟩], 1⟩
  guard := {}
  surface := ⟨"x ".toList, .cursor 1, 2⟩

theorem crowdedTwin_reach : Reach crowdedTwin := by
  have htyped : (opened (.parse "$1 $1$1".toList)).typed {} ['x'] = .ok crowdedTwin := by
    decide +kernel
  exact .opened_typed htyped (by decide +kernel) (by decide)

theorem crowdedTwin_accepted_iff : ∃ plan,
    Sync.plan crowdedTwin.stack crowdedTwin.surface = .ok plan ∧
    (Batch.fault? ⟨plan.edits, .sync 1⟩ 2 = none ↔ ¬ crowdedTwin.CopiesClash) ∧
    (crowdedTwin.CopiesClash → (crowdedTwin.runSync 1).1 = .skipped .surfaceUnavailable) := by
  obtain ⟨plan, hplan⟩ : ∃ plan, Sync.plan crowdedTwin.stack crowdedTwin.surface = .ok plan :=
    ⟨_, rfl⟩
  have hiff := reach_sync_accepted_iff crowdedTwin_reach hplan 1
  exact ⟨plan, hplan, hiff.1, hiff.2.1⟩

theorem document_never_fails (s : Scene Document) (b : Batch) : ¬ s.EditorFails b := by
  rintro ⟨hfault, refusal, hrefused⟩
  obtain ⟨d', hd'⟩ := Document.apply_ok_of_fault?_none hfault
  rw [Editor.document_self] at hd'
  simp [Surface.apply, hd'] at hrefused

/-- The document never fails, and yet the sync finds it unavailable. -/
theorem crowdedTwin_rejected : Reach crowdedTwin ∧ (∀ b, ¬ crowdedTwin.EditorFails b) ∧
    (∃ plan, Sync.plan crowdedTwin.stack crowdedTwin.surface = .ok plan ∧
      Batch.fault? ⟨plan.edits, .sync 1⟩ 2 ≠ none) ∧
    crowdedTwin.syncNow.1 = .skipped .surfaceUnavailable :=
  ⟨crowdedTwin_reach, document_never_fails crowdedTwin, ⟨_, rfl, by decide⟩, by decide⟩

end Scene

end Snippets
