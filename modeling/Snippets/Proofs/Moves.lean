import Mathlib.Data.List.Forall2
import Mathlib.Logic.Relation
import Snippets.Proofs.Reach

/-!
# Moves

Every operation of the engine is a chain of moves that change one thing each: the guard, the
surface, the selection, or the stack. What a move can do to the stack is said once, in
`Stack.Evolves`: close sessions and move stops, or open one session for a template.
-/

namespace Snippets

def TabStop.label (s : TabStop) : Nat × Option Nat × Option (List Text) :=
  (s.index, s.group, s.choices)

def Template.OfBody (t : Template) : Prop :=
  ∃ body resolve indent, t = .instantiate body resolve indent

theorem Template.instantiate_ofBody (body : Text) (resolve : Resolver) (indent : Text) :
    (Template.instantiate body resolve indent).OfBody := ⟨body, resolve, indent, rfl⟩

theorem Definition.instantiate_ofBody (d : Definition) (resolve : Resolver) (indent : Text) :
    (d.instantiate resolve indent).OfBody := by
  rcases d.instantiate_cases resolve indent with h | h
  · rw [h]
    exact Template.instantiate_ofBody _ _ _
  · rw [h]
    exact Template.instantiate_ofBody _ _ _

namespace Session

def labels (x : Session) : List (Nat × Option Nat × Option (List Text)) :=
  x.stops.map (·.label)

/-- The session later on: its stops may have moved and changed places in the list. -/
def Continues (x x' : Session) : Prop := x'.id = x.id ∧ x'.labels.Perm x.labels

def OfTemplate (x : Session) : Prop :=
  ∃ t : Template, t.OfBody ∧ x.labels.Perm (t.stops.map TabStop.label)

theorem labels_zipIdx (x : Session) : x.labels = x.stops.zipIdx.map fun p => p.1.label := by
  rw [labels, ← Function.comp_def (fun s : LiveStop => s.label) Prod.fst, ← List.map_map,
    List.zipIdx_map_fst]

variable {x x' x'' : Session}

theorem Continues.refl (x : Session) : x.Continues x := ⟨rfl, .refl _⟩

theorem Continues.trans (h : x.Continues x') (h' : x'.Continues x'') : x.Continues x'' :=
  ⟨h'.1.trans h.1, h'.2.trans h.2⟩

theorem OfTemplate.continues (h : x.OfTemplate) (h' : x.Continues x') : x'.OfTemplate := by
  obtain ⟨t, hbody, hperm⟩ := h
  exact ⟨t, hbody, h'.2.trans hperm⟩

theorem labels_normalize (id current : Nat) (stops : List LiveStop) :
    (Session.mk id current (LiveStop.normalize stops)).labels.Perm (stops.map (·.label)) := by
  have hperm := (LiveStop.normalize_perm stops).map TabStop.label
  rwa [List.map_map, List.map_map] at hperm

theorem continues_normalize {stops : List LiveStop} (same : stops.map (·.label) = x.labels) :
    x.Continues { x with stops := LiveStop.normalize stops } :=
  ⟨rfl, same ▸ labels_normalize x.id x.current stops⟩

end Session

theorem remapStops_labels (stops : List LiveStop) (current : Nat) (c : Change) (length : Nat) :
    (remapStops stops current c length).map (·.label) = stops.map (·.label) := by
  rw [remapStops, List.map_map]
  rfl

theorem Session.continues_carry (c : Change) (length : Nat) (x : Session) :
    x.Continues (x.carry c length) :=
  continues_normalize (remapStops_labels x.stops x.current c length)

namespace Stack

inductive Evolves (s : Stack) : Stack → Prop where
  | keep {kept sessions : List Session} : kept.Sublist s.sessions →
      List.Forall₂ Session.Continues kept sessions → Evolves s ⟨sessions, s.nextId⟩
  | push {x : Session} : x.id = s.nextId → x.OfTemplate →
      Evolves s ⟨x :: s.sessions, s.nextId + 1⟩

variable {s : Stack}

theorem forall₂_continues (sessions : List Session) :
    List.Forall₂ Session.Continues sessions sessions :=
  List.forall₂_same.mpr fun x _ => .refl x

theorem Evolves.refl (s : Stack) : s.Evolves s := .keep (.refl _) (forall₂_continues _)

theorem Evolves.restack {top top' : Session} {outer outer' : List Session}
    (hs : s.sessions = top :: outer) (htop : top.Continues top')
    (houter : List.Forall₂ Session.Continues outer outer') :
    s.Evolves ⟨top' :: outer', s.nextId⟩ :=
  .keep (hs ▸ .refl _) (.cons htop houter)

theorem Evolves.updateIndex (s : Stack) (index : Nat) :
    s.Evolves (s.apply (.updateIndex index)) := by
  rw [Stack.apply]
  split
  · exact .refl s
  · rename_i top outer hs
    exact .restack hs ⟨rfl, .refl _⟩ (forall₂_continues _)

theorem Evolves.replace {top : Session} {outer : List Session} (hs : s.sessions = top :: outer)
    {stops : List LiveStop} (same : stops.map (·.label) = top.labels) :
    s.Evolves (s.apply (.replace outer.length stops)) := by
  rw [apply_replace_top hs]
  exact .restack hs (Session.continues_normalize same) (forall₂_continues _)

theorem continues_replaced {pick : Session → Option (List LiveStop)} {x : Session}
    (same : ∀ stops, pick x = some stops → stops.map (·.label) = x.labels) :
    x.Continues (replaced pick x) := by
  unfold replaced
  cases hpick : pick x with
  | none => exact .refl x
  | some stops => exact Session.continues_normalize (same stops hpick)

theorem Evolves.remap (s : Stack) (c : Change) (length : Nat) : s.Evolves (s.remap c length) := by
  by_cases hc : c.edits = []
  · rw [remap_of_edits_nil hc]
    exact .refl s
  · rw [remap_eq_replaced s hc]
    refine .keep (.refl _) ?_
    rw [List.forall₂_map_right_iff, List.forall₂_same]
    intro x _
    refine continues_replaced fun stops hstops => ?_
    unfold movedStops? at hstops
    split at hstops
    · cases hstops
      exact remapStops_labels x.stops x.current c length
    · cases hstops

theorem Evolves.openTemplate (s : Stack) (base : Nat) {t : Template} (hbody : t.OfBody) :
    s.Evolves (s.apply (.push 0 (t.stops.map (LiveStop.ofTabStop base)))) := by
  refine .push rfl ⟨t, hbody, ?_⟩
  have hperm := Session.labels_normalize s.nextId 0 (t.stops.map (LiveStop.ofTabStop base))
  rwa [List.map_map] at hperm

end Stack

def Document.SelectionInside (d : Document) : Prop :=
  d.selection.anchor ≤ d.text.length ∧ d.selection.head ≤ d.text.length

instance (d : Document) : Decidable d.SelectionInside := inferInstanceAs (Decidable (_ ∧ _))

theorem Document.select_inside (d : Document) (selection : Selection) :
    (d.select selection).SelectionInside := ⟨Nat.min_le_right _ _, Nat.min_le_right _ _⟩

theorem Document.apply_inside {d d' : Document} {b : Batch} {c : Change}
    (h : d.apply b = .ok (c, d')) : d'.SelectionInside := by
  rw [SelectionInside, apply_selection h]
  exact ⟨Nat.min_le_right _ _, Nat.min_le_right _ _⟩

namespace Scene

variable {σ : Type} [Editor σ]

inductive Move : Scene σ → Scene σ → Prop where
  /-- A sync is scheduled only for the innermost session. -/
  | guard (s : Scene σ) (guard : Sync.Guard) :
      (∀ op id, guard.phase = .scheduled op id →
        s.guard.phase = .scheduled op id ∨ ∃ top, s.stack.top? = some top ∧ top.id = id) →
      Move s { s with guard }
  | surface (s : Scene σ) (surface : σ) : Editor.document surface = Editor.document s.surface →
      Move s { s with surface }
  | select (s : Scene σ) (selection : Selection) :
      Move s { s with surface := Surface.select s.surface selection }
  | pop (s : Scene σ) : Move s (s.effect .pop)
  | clear (s : Scene σ) : Move s (s.effect .clear)
  | updateIndex (s : Scene σ) (index : Nat) : Move s (s.effect (.updateIndex index))
  | stretch (s : Scene σ) (top : Session) (outer : List Session) (index start finish : Nat) :
      s.stack.sessions = top :: outer →
      Move s (s.effect (.replace outer.length (stretchFirst index start finish top.stops)))
  | openSession (s : Scene σ) (base : Nat) (t : Template) : t.OfBody → Move s (s.openSession base t)
  /-- The editor made a change, and the sessions follow. -/
  | carry (s : Scene σ) (surface : σ) (c : Change) : (Editor.document surface).SelectionInside →
      Move s ({ s with surface }.remap c)
  | sync (s : Scene σ) (op : Nat) : Move s (s.runSync op).2

abbrev Moves : Scene σ → Scene σ → Prop := Relation.ReflTransGen Move

theorem stretchFirst_labels (index start finish : Nat) (stops : List LiveStop) :
    (stretchFirst index start finish stops).map (·.label) = stops.map (·.label) := by
  induction stops with
  | nil => rfl
  | cons s rest ih =>
    rw [stretchFirst]
    split
    · rfl
    · rw [List.map_cons, List.map_cons, ih]

theorem site_labels (site : Sync.Site) (d : Document) :
    (site.stops d).map (·.label) = site.top.labels := by
  rw [site.top.labels_zipIdx, Sync.Site.stops, List.map_map]
  rfl

theorem Ran.evolves {op : Nat} {outcome : Sync.Outcome} {s s' : Scene σ} (h : Ran op s outcome s') :
    s.stack.Evolves s'.stack := by
  cases h with
  | unplanned reason _ => exact .refl s.stack
  | upToDate site stack hsite _ hstack =>
    rcases hstack with rfl | rfl
    · exact .refl s.stack
    · exact .restack hsite.sessions (Session.continues_normalize (site_labels site _))
        (Stack.forall₂_continues _)
  | refused site surface refusal _ _ _ => exact .refl s.stack
  | applied site surface change hsite _ _ =>
    refine .restack hsite.sessions (Session.continues_normalize (site_labels site _)) ?_
    rw [List.forall₂_map_right_iff, List.forall₂_same]
    exact fun x _ => x.continues_carry _ _

theorem Ran.selection_inside {op : Nat} {outcome : Sync.Outcome} {s s' : Scene σ}
    (h : Ran op s outcome s') (inside : (Editor.document s.surface).SelectionInside) :
    (Editor.document s'.surface).SelectionInside := by
  cases h with
  | unplanned => exact inside
  | upToDate => exact inside
  | refused site surface refusal _ _ happly =>
    exact Editor.document_of_error happly ▸ inside
  | applied site surface change _ _ happly => exact Document.apply_inside happly

theorem Ran.unscheduled {op : Nat} {outcome : Sync.Outcome} {s s' : Scene σ}
    (h : Ran op s outcome s') (op' id : Nat) : s'.guard.phase ≠ .scheduled op' id := by
  intro hphase
  cases h with
  | unplanned => cases hphase
  | upToDate => cases hphase
  | refused => cases hphase
  | applied => cases hphase

theorem Move.evolves {s s' : Scene σ} (h : Move s s') : s.stack.Evolves s'.stack := by
  cases h with
  | guard => exact .refl s.stack
  | surface => exact .refl s.stack
  | select => exact .refl s.stack
  | pop => exact .keep (List.tail_sublist _) (Stack.forall₂_continues _)
  | clear => exact .keep (List.nil_sublist _) .nil
  | updateIndex index => exact .updateIndex s.stack index
  | stretch top outer index start finish hs =>
    exact .replace hs (stretchFirst_labels index start finish top.stops)
  | openSession base t hbody => exact .openTemplate s.stack base hbody
  | carry surface c => exact .remap s.stack c _
  | sync op => exact (ran op s).evolves

theorem Move.selection_inside {s s' : Scene σ} (h : Move s s')
    (inside : (Editor.document s.surface).SelectionInside) :
    (Editor.document s'.surface).SelectionInside := by
  cases h with
  | surface surface same => exact same ▸ inside
  | select selection =>
    rw [Editor.document_select]
    exact Document.select_inside _ selection
  | carry surface c hinside => exact hinside
  | sync op => exact (ran op s).selection_inside inside
  | _ => exact inside

theorem moves_settle (s : Scene σ) : Move s { s with guard := s.guard.settle } := by
  refine .guard s _ fun op id hphase => ?_
  cases hphase

theorem moves_requestSync (s : Scene σ) : Move s s.requestSync.2 := by
  refine .guard s (s.guard.request s.stack).2 fun op id hphase => ?_
  rw [Sync.Guard.request] at hphase
  split at hphase
  · exact Or.inl hphase
  · split at hphase
    · exact Or.inl hphase
    · rename_i top htop
      cases hphase
      exact Or.inr ⟨top, htop, rfl⟩

theorem moves_syncNow (s : Scene σ) : Moves s s.syncNow.2 := by
  unfold syncNow
  split
  · exact .refl
  · exact .tail (.single (.guard s s.guard.issue fun _ _ hphase => Or.inl hphase)) (.sync _ _)

theorem moves_flush (s : Scene σ) : Moves s s.flush.2 := by
  have hafresh := (moves_syncNow { s with guard := s.guard.settle }).head (moves_settle s)
  unfold flush
  dsimp only
  split
  · split
    · exact .single (.sync s _)
    · exact hafresh
  · exact hafresh

theorem moves_tick (s : Scene σ) : Moves s s.tick.2 := by
  unfold tick
  split
  · exact .refl
  · split
    · exact .single (.sync s _)
    · exact .single (moves_settle s)
  · exact .single (moves_settle s)

theorem moves_flushReference (s : Scene σ) : Moves s s.flushReference := by
  unfold flushReference
  split
  · exact moves_flush s
  · exact .refl

theorem moves_visit (s : Scene σ) (index : Nat) : Moves s (s.visit index) := by
  unfold visit
  dsimp only
  split
  · exact .tail (.single (.select s _)) (.updateIndex _ index)
  · exact .single (.updateIndex s index)

theorem moves_leave (s : Scene σ) (index : Nat) : Moves s (s.flushReference.visit index) :=
  (moves_flushReference s).trans (moves_visit _ index)

theorem moves_jumpFrom (s : Scene σ) (top : Session) : Moves s (s.jumpFrom top).2 := by
  have hclose := (moves_flushReference s).tail (.pop _)
  unfold jumpFrom
  split
  · dsimp only
    split
    · exact hclose
    · exact moves_leave s 0
  · exact moves_leave s _
  · split
    · exact .single (.pop s)
    · exact hclose

theorem moves_jumpPrevious (s : Scene σ) : Moves s s.jumpPrevious.2 := by
  unfold jumpPrevious
  split
  · exact .refl
  · split
    · exact .refl
    · exact moves_leave s _

theorem moves_forceExit (s : Scene σ) : Moves s s.forceExit.2 := by
  refine .tail (.single (.clear s)) (.guard _ _ fun op id hphase => ?_)
  cases hphase

/-- A change that the engine does not carry its sessions across finds none or has no edits. -/
theorem moves_observe (settings : Settings) (s : Scene σ) {surface : σ}
    (inside : (Editor.document surface).SelectionInside) {c : Change} (user : c.origin = .user) :
    Moves s ({ s with surface }.observe settings c).2 := by
  have hcarried : Moves s ({ s with surface }.remap c) := .single (.carry s surface c inside)
  unfold observe
  split
  · rename_i hskip
    have hsame : ({ s with surface }.remap c).stack = s.stack := by
      rw [user, Origin.isEngine, Bool.or_false, Bool.or_eq_true, Bool.not_eq_true',
        List.isEmpty_iff] at hskip
      rcases hskip with hidle | hc
      · rw [isActive, Bool.not_eq_false', List.isEmpty_iff] at hidle
        exact Stack.remap_of_sessions_nil hidle c _
      · exact Stack.remap_of_edits_nil hc _
    have heq : ({ s with surface }.remap c) = { s with surface } :=
      congrArg (Scene.mk · s.guard surface) hsame
    exact heq ▸ hcarried
  · dsimp only
    split
    · exact hcarried
    · split
      · exact hcarried
      · split
        · exact hcarried.tail (moves_requestSync _)
        · exact hcarried

theorem moves_insertTemplate (s : Scene σ) {t : Template} (hbody : t.OfBody) (target : Span) :
    Moves s (s.insertTemplate t target).2 := by
  have hput := s.put t target
  have hopen {change : Change} {surface : σ}
      (happly : Surface.apply s.surface ⟨[⟨target, t.text⟩], .expansion⟩ = (.ok change, surface)) :
      Moves s (({ s with surface }.remap change).openSession target.start t) :=
    .tail (.single (.carry s surface change (Document.apply_inside (Editor.document_of_ok happly))))
      (.openSession _ _ t hbody)
  generalize (s.insertTemplate t target).1 = result, (s.insertTemplate t target).2 = s' at hput ⊢
  cases hput with
  | refused refusal surface happly =>
    exact .single (.surface s surface (Editor.document_of_error happly))
  | visited change surface index happly => exact (hopen happly).trans (moves_visit _ index)
  | left change surface happly => exact ((hopen happly).trans (moves_visit _ 0)).tail (.pop _)

theorem moves_insertSnippet (settings : Settings) (resolve : Resolver) (s : Scene σ)
    (d : Definition) (target : Span) :
    Moves s (s.insertSnippet settings resolve d target).2 := by
  unfold insertSnippet
  exact moves_insertTemplate s (d.instantiate_ofBody resolve _) target

theorem moves_expandAtCursor (settings : Settings) (resolve : Resolver) (index : TriggerIndex)
    (s : Scene σ) : Moves s (s.expandAtCursor settings resolve index).2 := by
  unfold expandAtCursor
  dsimp only
  split
  · exact .refl
  · split
    · exact .refl
    · exact moves_insertSnippet settings resolve s _ _

theorem moves_stretch (s : Scene σ) (index : Nat) (chosen : Span) :
    Moves s (s.stretch index chosen) := by
  unfold stretch
  split
  · exact .refl
  · rename_i top outer hs
    exact .single (.stretch s top outer index chosen.start chosen.finish hs)

theorem moves_cycleChoice (settings : Settings) (s : Scene σ) :
    Moves s (s.cycleChoice settings).2 := by
  have hchose := s.chose settings
  generalize (s.cycleChoice settings).1 = result, (s.cycleChoice settings).2 = s' at hchose ⊢
  cases hchose with
  | nowhere => exact .refl
  | refused top stop refusal surface _ happly =>
    exact .single (.surface s surface (Editor.document_of_error happly))
  | moved top stop change surface _ _ happly hs' =>
    have hinside := Document.apply_inside (Editor.document_of_ok happly)
    have hcarried : Moves s ({ s with surface }.remap change) :=
      .single (.carry s surface change hinside)
    have hchosen : Moves s (s.chosen stop change surface) :=
      (hcarried.trans (moves_stretch _ _ _)).tail (.select _ _)
    rcases hs' with rfl | rfl
    · exact hchosen
    · exact hchosen.tail (moves_requestSync _)

theorem Step.moves {s s' : Scene σ} (h : Step s s') : Moves s s' := by
  cases h with
  | insert body resolve indent target =>
    exact moves_insertTemplate s (Template.instantiate_ofBody body resolve indent) target
  | snippet settings resolve d target => exact moves_insertSnippet settings resolve s d target
  | expand settings resolve index => exact moves_expandAtCursor settings resolve index s
  | round top _ => exact moves_jumpFrom s top
  | previous => exact moves_jumpPrevious s
  | choice settings => exact moves_cycleChoice settings s
  | exit => exact moves_forceExit s
  | sync => exact moves_syncNow s
  | tick => exact moves_tick s
  | select selection => exact .single (.select s selection)
  | edit settings b c d' surface selection user made here =>
    refine moves_observe settings s ?_ ?_
    · rw [here]
      exact Document.select_inside d' selection
    · rw [(Document.apply_eq_ok made).2.1]
      exact user
  | host surface same => exact .single (.surface s surface same)

end Scene

end Snippets
