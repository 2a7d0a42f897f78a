import Mathlib.Data.List.Nodup
import Snippets.Proofs.Issued

/-!
# Lifetimes of sessions

Main statement: in every scene that a run reaches, all stops and the selection lie in the document,
links name stops of the same group and every session has one exit. A session is opened with the
stops of a template and has them as long as it is open: what moves are their ranges and their order.
-/

namespace Snippets

theorem exitStop_index (sorted : List TabStop) (length : Nat) :
    (exitStop sorted length).index = 0 := by
  unfold exitStop
  cases hfind : sorted.find? (·.index == 0) with
  | none => rfl
  | some s => simpa using List.find?_some hfind

theorem Template.ofRendering_exits (r : Rendering) :
    (ofRendering r).stops.countP (·.index == 0) = 1 := by
  have hothers (sorted : List TabStop) :
      (sorted.filter (·.index != 0)).countP (·.index == 0) = 0 := by
    rw [List.countP_eq_zero]
    intro s hs
    simpa using (List.mem_filter.mp hs).2
  unfold ofRendering
  dsimp only
  rw [List.countP_map, List.countP_cons]
  simp [Function.comp_def, exitStop_index, hothers]

theorem Session.OfTemplate.exits {x : Session} (h : x.OfTemplate) :
    x.stops.countP (·.index == 0) = 1 := by
  obtain ⟨_, ⟨body, resolve, indent, rfl⟩, hperm⟩ := h
  have hcount := hperm.countP_eq fun label => label.1 == 0
  rw [Session.labels, List.countP_map, List.countP_map] at hcount
  exact hcount.trans (Template.ofRendering_exits _)

/-! ## Stacks that follow on each other -/

namespace Stack

variable {s s' s'' : Stack}

/-- The sessions of the later stack were open before, or were opened for templates since. -/
structure LeadsTo (s s' : Stack) : Prop where
  nextId : s.nextId ≤ s'.nextId
  origin : ∀ x' ∈ s'.sessions,
    (∃ x ∈ s.sessions, x.Continues x') ∨ (s.nextId ≤ x'.id ∧ x'.OfTemplate)

theorem LeadsTo.refl (s : Stack) : s.LeadsTo s :=
  ⟨Nat.le_refl _, fun x hx => Or.inl ⟨x, hx, .refl x⟩⟩

theorem LeadsTo.trans (h : s.LeadsTo s') (h' : s'.LeadsTo s'') : s.LeadsTo s'' := by
  refine ⟨Nat.le_trans h.nextId h'.nextId, fun x'' hx => ?_⟩
  rcases h'.origin x'' hx with ⟨x', hx', hcont⟩ | ⟨hid, htemplate⟩
  · rcases h.origin x' hx' with ⟨x, hx, hcont'⟩ | ⟨hid, htemplate⟩
    · exact Or.inl ⟨x, hx, hcont'.trans hcont⟩
    · exact Or.inr ⟨hcont.1 ▸ hid, htemplate.continues hcont⟩
  · exact Or.inr ⟨Nat.le_trans h.nextId hid, htemplate⟩

theorem Evolves.leadsTo (h : s.Evolves s') : s.LeadsTo s' := by
  refine ⟨h.nextId_le, fun x' hx => ?_⟩
  rcases h.origin hx with hold | ⟨hid, htemplate⟩
  · exact Or.inl hold
  · exact Or.inr ⟨Nat.le_of_eq hid.symm, htemplate⟩

def Nested (s : Stack) : Prop := (s.sessions.map (·.id)).Pairwise (· > ·)

theorem map_id_eq {kept sessions : List Session}
    (h : List.Forall₂ Session.Continues kept sessions) :
    sessions.map (·.id) = kept.map (·.id) := by
  induction h with
  | nil => rfl
  | cons hhead _ ih => rw [List.map_cons, List.map_cons, hhead.1, ih]

theorem Evolves.nested (h : s.Evolves s') (nested : s.Nested) (issued : s.Issued) : s'.Nested := by
  cases h with
  | keep hsub hkept =>
    rw [Nested, map_id_eq hkept]
    exact nested.sublist (hsub.map _)
  | push hid _ =>
    rw [Nested, List.map_cons, List.pairwise_cons]
    refine ⟨fun id hmem => ?_, nested⟩
    obtain ⟨x, hx, rfl⟩ := List.mem_map.mp hmem
    exact hid ▸ issued x hx

theorem Nested.eq_of_id (h : s.Nested) {x y : Session} (hx : x ∈ s.sessions) (hy : y ∈ s.sessions)
    (same : x.id = y.id) : x = y := by
  have hne : (s.sessions.map (·.id)).Nodup := h.imp fun hlt => Nat.ne_of_gt hlt
  exact List.inj_on_of_nodup_map hne hx hy same

/-- A session that is in both stacks is the same one. -/
theorem LeadsTo.continues (h : s.LeadsTo s') (issued : s.Issued) (nested : s.Nested)
    {x x' : Session} (hx : x ∈ s.sessions) (hx' : x' ∈ s'.sessions) (same : x'.id = x.id) :
    x.Continues x' := by
  rcases h.origin x' hx' with ⟨y, hy, hcont⟩ | ⟨hid, _⟩
  · obtain rfl := nested.eq_of_id hx hy (same.symm.trans hcont.1)
    exact hcont
  · have := issued x hx
    omega

end Stack

namespace Scene

variable {σ : Type} [Editor σ] {s s' s'' : Scene σ}

/-- A scene and what it becomes by operations, in documents whose offsets are words. -/
inductive Run (s : Scene σ) : Scene σ → Prop where
  | refl : Run s s
  | step {s' s'' : Scene σ} : Run s s' → Step s' s'' → (Editor.document s''.surface).Fits →
      Run s s''

theorem Run.jumpNext (h : Run s s')
    (fits : ∀ n, (Editor.document (Scene.jumpRounds n .exited s').2.surface).Fits) :
    Run s s'.jumpNext.2 :=
  jumpNext_induction .step h fits

theorem Run.trans (h : Run s s') (h' : Run s' s'') : Run s s'' := by
  induction h' with
  | refl => exact h
  | step _ hstep hfits ih => exact .step ih hstep hfits

theorem Run.reach (h : Run s s') (reach : Reach s) : Reach s' := by
  induction h with
  | refl => exact reach
  | step _ hstep hfits ih => exact .step ih hstep hfits

theorem Run.moves (h : Run s s') : Moves s s' := by
  induction h with
  | refl => exact .refl
  | step _ hstep _ ih => exact Relation.ReflTransGen.trans ih hstep.moves

theorem Moves.leadsTo (h : Moves s s') : s.stack.LeadsTo s'.stack := by
  induction h with
  | refl => exact .refl _
  | tail _ hmove ih => exact ih.trans hmove.evolves.leadsTo

theorem Moves.nested (h : Moves s s') (nested : s.stack.Nested) (issued : s.Issued) :
    s'.stack.Nested := by
  induction h with
  | refl => exact nested
  | tail hmoves hmove ih => exact hmove.evolves.nested ih (Moves.issued hmoves issued).sessions

theorem Moves.selection_inside (h : Moves s s')
    (inside : (Editor.document s.surface).SelectionInside) :
    (Editor.document s'.surface).SelectionInside := by
  induction h with
  | refl => exact inside
  | tail _ hmove ih => exact hmove.selection_inside ih

/-- What holds of the sessions and the selection between operations. -/
structure Consistent (s : Scene σ) : Prop where
  selection : (Editor.document s.surface).SelectionInside
  stops : ∀ x ∈ s.stack.sessions, ∀ t ∈ x.stops, t.span.start ≤ t.span.finish ∧
    t.span.finish ≤ (Editor.document s.surface).text.length
  linked : ∀ x ∈ s.stack.sessions, ∀ t ∈ x.stops, ∀ i ∈ t.linked,
    ∃ u, x.stops[i]? = some u ∧ u.group = t.group
  exits : ∀ x ∈ s.stack.sessions, x.stops.countP (·.index == 0) = 1
  template : ∀ x ∈ s.stack.sessions, x.OfTemplate
  nested : s.stack.Nested

theorem linked_valid {stops : List LiveStop} (normal : LiveStop.Normal stops) {t : LiveStop}
    (ht : t ∈ stops) {i : Nat} (hi : i ∈ t.linked) :
    ∃ u, stops[i]? = some u ∧ u.group = t.group := by
  obtain ⟨j, hj⟩ := List.mem_iff_getElem?.mp ht
  have hlink := LiveStop.getElem?_link stops j
  rw [normal.linked, hj, Option.map_some, Option.some.injEq] at hlink
  rw [congrArg LiveStop.linked hlink, LiveStop.linksAt] at hi
  split at hi
  · cases hi
  · rename_i group hgroup
    obtain ⟨_, u, hu, hsame⟩ := LiveStop.mem_members.mp hi
    exact ⟨u, hu, hsame.trans hgroup.symm⟩

theorem insertTemplate_opens (issued : s.Issued) (t : Template) (target : Span) {x : Session}
    (hx : x ∈ (s.insertTemplate t target).2.stack.sessions) (new : x.id = s.stack.nextId) :
    x.labels.Perm (t.stops.map TabStop.label) := by
  have hput := s.put t target
  have hopened {change : Change} {surface : σ} {s' : Scene σ}
      (hmoves : Moves (({ s with surface }.remap change).openSession target.start t) s')
      (hx : x ∈ s'.stack.sessions) : x.labels.Perm (t.stops.map TabStop.label) := by
    have hissued : ({ s with surface }.remap change).stack.Issued :=
      (Stack.Evolves.remap s.stack change _).issued issued.sessions
    have hnext : ({ s with surface }.remap change).stack.nextId = s.stack.nextId :=
      Stack.remap_nextId s.stack change _
    generalize { s with surface }.remap change = carried at hmoves hissued hnext
    have hid : (carried.openSession target.start t).stack.nextId = s.stack.nextId + 1 :=
      congrArg (· + 1) hnext
    rcases (Moves.leadsTo hmoves).origin x hx with ⟨y, hy, hcont⟩ | ⟨hlater, _⟩
    · rcases List.mem_cons.mp hy with rfl | hy
      · have hperm := Session.labels_normalize carried.stack.nextId 0
          (t.stops.map (LiveStop.ofTabStop target.start))
        rw [List.map_map] at hperm
        exact hcont.2.trans hperm
      · have := hissued y hy
        have := hcont.1
        omega
    · omega
  generalize (s.insertTemplate t target).1 = result, (s.insertTemplate t target).2 = s' at hput hx
  cases hput with
  | refused =>
    have := issued.sessions x hx
    omega
  | visited change surface index _ => exact hopened (moves_visit _ index) hx
  | left change surface _ => exact hopened ((moves_visit _ 0).tail (.pop _)) hx

/-- The second part says what a session keeps while it is open, the third one what it starts
with. -/
theorem run_consistent {surface : σ} (fits : (Editor.document surface).Fits)
    (inside : (Editor.document surface).SelectionInside) (before : Run (start surface) s)
    (after : Run s s') :
    s'.Consistent ∧
      (∀ x ∈ s.stack.sessions, ∀ x' ∈ s'.stack.sessions, x'.id = x.id → x'.labels.Perm x.labels) ∧
      ∀ t target, ∀ x ∈ (s'.insertTemplate t target).2.stack.sessions, x.id = s'.stack.nextId →
        x.labels.Perm (t.stops.map TabStop.label) := by
  have hmoves := (before.trans after).moves
  have hplaced := ((before.trans after).reach (.start surface fits)).placed
  have hempty : (start surface).stack.Nested := .nil
  have htemplate : ∀ x ∈ s'.stack.sessions, x.OfTemplate := by
    intro x hx
    rcases (Moves.leadsTo hmoves).origin x hx with ⟨_, hnone, _⟩ | ⟨_, htemplate⟩
    · cases hnone
    · exact htemplate
  refine ⟨?_, ?_, ?_⟩
  · constructor
    · exact Moves.selection_inside hmoves inside
    · intro x hx t ht
      have := hplaced x hx
      exact ⟨this.normal.upright t ht, this.inside t ht⟩
    · intro x hx t ht i hi
      exact linked_valid (hplaced x hx).normal ht hi
    · exact fun x hx => (htemplate x hx).exits
    · exact htemplate
    · exact Moves.nested hmoves hempty (issued_start surface)
  · intro x hx x' hx' same
    have hissued := Moves.issued before.moves (issued_start surface)
    have hnested := Moves.nested before.moves hempty (issued_start surface)
    exact ((Moves.leadsTo after.moves).continues hissued.sessions hnested hx hx' same).2
  · intro t target x hx new
    exact insertTemplate_opens (Moves.issued hmoves (issued_start surface)) t target hx new

def echoPair : Scene Document where
  stack := ⟨[⟨0, 1, [⟨{ index := 1, span := ⟨0, 1⟩, group := some 0 }, [1]⟩,
    ⟨{ index := 1, span := ⟨2, 2⟩, group := some 0 }, [0]⟩,
    ⟨{ index := 0, span := ⟨2, 2⟩ }, []⟩]⟩], 1⟩
  guard := {}
  surface := ⟨"x ".toList, .cursor 1, 2⟩

theorem echoPair_consistent : echoPair.syncNow.2.Consistent ∧
    (∀ x ∈ echoPair.stack.sessions, ∀ x' ∈ echoPair.syncNow.2.stack.sessions, x'.id = x.id →
      x'.labels.Perm x.labels) ∧
    ∀ t target, ∀ x ∈ (echoPair.syncNow.2.insertTemplate t target).2.stack.sessions,
      x.id = echoPair.syncNow.2.stack.nextId → x.labels.Perm (t.stops.map TabStop.label) := by
  have htyped : (opened (.parse "$1 $1".toList)).typed {} ['x'] = .ok echoPair := by decide +kernel
  have hopened : Run (start (Document.ofText [])) (opened (.parse "$1 $1".toList)) :=
    .step .refl (.insert _ "$1 $1".toList (fun _ => none) [] ⟨0, 0⟩) (by decide +kernel)
  have before : Run (start (Document.ofText [])) echoPair :=
    .step hopened (.typed htyped) (by decide)
  have after : Run echoPair echoPair.syncNow.2 := .step .refl (.sync echoPair) (by decide)
  exact run_consistent (by decide) (by decide) before after

example : echoPair.syncNow.2.surface.text = "x x".toList := by decide +kernel

end Scene

end Snippets
