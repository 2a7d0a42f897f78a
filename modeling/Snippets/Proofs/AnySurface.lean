import Snippets.Proofs.Effects
import Snippets.Proofs.Moves

/-!
# Syncs on any surface

Nothing is assumed of the surface here: it may refuse a batch, or answer with nonsense. A sync still
keeps every session, its id, the index that is current in it and the labels of its stops.
-/

namespace Snippets

def Session.Stays (x x' : Session) : Prop := x.Continues x' ∧ x'.current = x.current

namespace Session

variable {x x' x'' : Session}

theorem Stays.refl (x : Session) : x.Stays x := ⟨.refl x, rfl⟩

theorem Stays.trans (h : x.Stays x') (h' : x'.Stays x'') : x.Stays x'' :=
  ⟨h.1.trans h'.1, h'.2.trans h.2⟩

theorem stays_normalize {stops : List LiveStop} (same : stops.map (·.label) = x.labels) :
    x.Stays { x with stops := LiveStop.normalize stops } :=
  ⟨continues_normalize same, rfl⟩

theorem stays_carry (c : Change) (length : Nat) (x : Session) : x.Stays (x.carry c length) :=
  ⟨continues_carry c length x, rfl⟩

end Session

namespace Stack

structure Stays (s s' : Stack) : Prop where
  sessions : List.Forall₂ Session.Stays s.sessions s'.sessions
  nextId : s'.nextId = s.nextId

variable {s s' : Stack}

theorem forall₂_stays (sessions : List Session) : List.Forall₂ Session.Stays sessions sessions :=
  List.forall₂_same.mpr fun x _ => .refl x

theorem forall₂_stays_trans {a b c : List Session} (h : List.Forall₂ Session.Stays a b)
    (h' : List.Forall₂ Session.Stays b c) : List.Forall₂ Session.Stays a c := by
  induction h generalizing c with
  | nil => exact h'
  | cons hhead _ ih =>
    cases h' with
    | cons hhead' htail' => exact .cons (hhead.trans hhead') (ih htail')

theorem Stays.refl (s : Stack) : s.Stays s := ⟨forall₂_stays _, rfl⟩

theorem map_id_of_stays {a b : List Session} (h : List.Forall₂ Session.Stays a b) :
    b.map (·.id) = a.map (·.id) := by
  induction h with
  | nil => rfl
  | cons hhead _ ih => rw [List.map_cons, List.map_cons, hhead.1.1, ih]

theorem Stays.ids (h : s.Stays s') : s'.ids = s.ids := map_id_of_stays h.sessions

theorem Stays.replace {top : Session} {outer : List Session} (hs : s.sessions = top :: outer)
    {stops : List LiveStop} (same : stops.map (·.label) = top.labels) :
    s.Stays (s.apply (.replace outer.length stops)) := by
  rw [apply_replace_top hs]
  refine ⟨?_, rfl⟩
  rw [hs]
  exact .cons (Session.stays_normalize same) (forall₂_stays outer)

end Stack

/-- A plan is for the innermost session, and keeps the labels of its stops. -/
theorem Sync.exists_top_of_plan {σ : Type} [Surface σ] {stack : Stack} {surface : σ} {p : Sync.Plan}
    (h : Sync.plan stack surface = .ok p) :
    ∃ top outer, stack.sessions = top :: outer ∧ p.depth = outer.length ∧
      p.stops.map (·.label) = top.labels := by
  have hplanned := Sync.planned stack surface
  rw [h] at hplanned
  cases hplanned with
  | made site _ _ hsite hdepth hstops =>
    refine ⟨site.top, site.outer, hsite.sessions, hdepth, ?_⟩
    rw [hstops, site.top.labels_zipIdx, List.map_map]
    rfl

namespace Scene

variable {σ : Type} [Surface σ]

/-- How carrying out a sync ends on any surface: either it was applied and settles for a tick, or it
did nothing to the document that counts and nothing is in flight. -/
inductive Concluded (op : Nat) (s : Scene σ) : Sync.Outcome → Scene σ → Prop where
  | applied (count : Nat) (s' : Scene σ) : s.stack.Stays s'.stack →
      s'.guard = ⟨.settling op, s.guard.latest⟩ → Concluded op s (.applied op count) s'
  | skipped (reason : Sync.SkipReason) (s' : Scene σ) : s.stack.Stays s'.stack →
      s'.guard = s.guard.settle → Concluded op s (.skipped reason) s'

omit [Surface σ] in
theorem Concluded.stays {op : Nat} {s s' : Scene σ} {outcome : Sync.Outcome}
    (h : Concluded op s outcome s') : s.stack.Stays s'.stack := by
  cases h with
  | applied _ _ hstays _ => exact hstays
  | skipped _ _ hstays _ => exact hstays

theorem concluded (op : Nat) (s : Scene σ) : Concluded op s (runSync op s).1 (runSync op s).2 := by
  unfold runSync
  dsimp only
  cases hplan : Sync.plan s.stack s.surface with
  | error reason => exact .skipped reason _ (.refl _) rfl
  | ok plan =>
    obtain ⟨top, outer, hs, hdepth, hlabels⟩ := Sync.exists_top_of_plan hplan
    dsimp only
    split
    · rw [hdepth]
      split
      · exact .skipped _ _ (.replace hs hlabels) rfl
      · exact .skipped _ _ (.refl _) rfl
    · split
      · exact .skipped _ _ (.refl _) rfl
      · rename_i change surface _
        refine .applied _ _ ?_ rfl
        have hcarry := remapOuter_eq_carry top outer s.stack.nextId change (Surface.length surface)
        rw [← hs] at hcarry
        have hlength : outer.length =
            (outer.map (·.carry change (Surface.length surface))).length := (List.length_map _).symm
        rw [effect, hcarry, hdepth, hlength, Stack.apply_replace_top rfl]
        refine ⟨?_, rfl⟩
        rw [hs]
        refine .cons (Session.stays_normalize hlabels) ?_
        rw [List.forall₂_map_right_iff, List.forall₂_same]
        exact fun x _ => x.stays_carry change _

theorem runSync_stays (op : Nat) (s : Scene σ) : s.stack.Stays (runSync op s).2.stack :=
  (concluded op s).stays

theorem syncNow_stays (s : Scene σ) : s.stack.Stays s.syncNow.2.stack := by
  unfold syncNow
  split
  · exact .refl _
  · exact runSync_stays _ { s with guard := s.guard.issue }

theorem flush_stays (s : Scene σ) : s.stack.Stays s.flush.2.stack := by
  have hafresh := syncNow_stays { s with guard := s.guard.settle }
  unfold flush
  dsimp only
  split
  · split
    · exact runSync_stays _ s
    · exact hafresh
  · exact hafresh

theorem tick_stays (s : Scene σ) : s.stack.Stays s.tick.2.stack := by
  unfold tick
  split
  · exact .refl _
  · split
    · exact runSync_stays _ s
    · exact .refl _
  · exact .refl _

end Scene

end Snippets
