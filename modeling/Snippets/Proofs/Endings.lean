import Snippets.Proofs.Carrying
import Snippets.Scene.Insertion

/-!
# How operations end

Putting in a template and cycling a choice ask the editor for one batch. What each of them does is
said once here, by the ways in which it can end, and what the engine takes note of after an edit of
the user's; later proofs split on these ways and open none of the operations.
-/

namespace Snippets

def LiveStop.chosenSpan (stop : LiveStop) (choice : Text) : Span :=
  ⟨stop.span.start, stop.span.start + choice.length⟩

def Session.stretch (x : Session) (index : Nat) (chosen : Span) : Session :=
  { x with
    stops := LiveStop.normalize (Scene.stretchFirst index chosen.start chosen.finish x.stops) }

namespace Scene

variable {σ : Type}

def stretch (s : Scene σ) (index : Nat) (chosen : Span) : Scene σ :=
  match s.stack.sessions with
  | [] => s
  | top :: outer =>
    s.effect (.replace outer.length (stretchFirst index chosen.start chosen.finish top.stops))

variable [Surface σ]

inductive Put (t : Template) (target : Span) (s : Scene σ) : Navigation → Scene σ → Prop where
  | refused (refusal : Refusal) (surface : σ) :
      Surface.apply s.surface ⟨[⟨target, t.text⟩], .expansion⟩ = (.error refusal, surface) →
      Put t target s (.unavailable .surfaceUnavailable) { s with surface }
  | visited (change : Change) (surface : σ) (index : Nat) :
      Surface.apply s.surface ⟨[⟨target, t.text⟩], .expansion⟩ = (.ok change, surface) →
      Put t target s (.moved index)
        ((({ s with surface }.remap change).openSession target.start t).visit index)
  | left (change : Change) (surface : σ) :
      Surface.apply s.surface ⟨[⟨target, t.text⟩], .expansion⟩ = (.ok change, surface) →
      Put t target s .exited
        (((({ s with surface }.remap change).openSession target.start t).visit 0).effect .pop)

theorem put (s : Scene σ) (t : Template) (target : Span) :
    Put t target s (s.insertTemplate t target).1 (s.insertTemplate t target).2 := by
  unfold insertTemplate
  split
  · rename_i refusal surface happly
    exact .refused refusal surface happly
  · rename_i change surface happly
    dsimp only
    split
    · exact .visited change surface _ happly
    · exact .left change surface happly

structure Choosing (s : Scene σ) (top : Session) (stop : LiveStop) : Prop where
  innermost : s.stack.top? = some top
  current : top.currentStop? (Surface.selection s.surface) = some stop
  listed : stop.choices.getD [] ≠ []

def upcoming (s : Scene σ) (stop : LiveStop) : Text :=
  nextChoice (stop.choices.getD []) (Surface.slice s.surface stop.span)

def chosen (s : Scene σ) (stop : LiveStop) (change : Change) (surface : σ) : Scene σ :=
  let span := stop.chosenSpan (s.upcoming stop)
  let s' := ({ s with surface }.remap change).stretch stop.index span
  { s' with surface := Surface.select s'.surface (.ofSpan span) }

theorem chosen_surface (s : Scene σ) (stop : LiveStop) (change : Change) (surface : σ) :
    (s.chosen stop change surface).surface =
      Surface.select surface (.ofSpan (stop.chosenSpan (s.upcoming stop))) := by
  have hstretched : (({ s with surface }.remap change).stretch stop.index
      (stop.chosenSpan (s.upcoming stop))).surface = surface := by
    unfold stretch
    split
    · rfl
    · rfl
  rw [chosen, hstretched]

/-- Only the innermost session has its stop set; the sessions around it just follow the change. -/
theorem chosen_sessions {s : Scene σ} {top : Session} {outer : List Session} {change : Change}
    (hs : s.stack.sessions = top :: outer) (hc : change.edits ≠ []) (stop : LiveStop)
    (surface : σ) :
    let follow := Stack.replaced (Stack.movedStops? change (Surface.length surface))
    let span := stop.chosenSpan (s.upcoming stop)
    (s.chosen stop change surface).stack.sessions =
      (follow top).stretch stop.index span :: outer.map follow := by
  intro follow span
  have hremapped : ({ s with surface }.remap change).stack.sessions =
      follow top :: outer.map follow := by
    rw [remap, Stack.remap_eq_replaced _ hc, hs, List.map_cons]
  have hstretched : (({ s with surface }.remap change).stretch stop.index span).stack =
      ({ s with surface }.remap change).stack.apply (.replace (outer.map follow).length
        (stretchFirst stop.index span.start span.finish (follow top).stops)) := by
    rw [stretch, hremapped]
    rfl
  exact congrArg Stack.sessions (hstretched.trans (Stack.apply_replace_top hremapped _))

inductive Chose (s : Scene σ) : Navigation → Scene σ → Prop where
  | nowhere (reason : NavigationReason) : reason ≠ .surfaceUnavailable →
      (∀ top stop, ¬ s.Choosing top stop) → Chose s (.unavailable reason) s
  | refused (top : Session) (stop : LiveStop) (refusal : Refusal) (surface : σ) :
      s.Choosing top stop →
      Surface.apply s.surface ⟨[⟨stop.span, s.upcoming stop⟩], .choice⟩ =
        (.error refusal, surface) →
      Chose s (.unavailable .surfaceUnavailable) { s with surface }
  | moved (top : Session) (stop : LiveStop) (change : Change) (surface : σ) (s' : Scene σ) :
      s.Choosing top stop →
      Surface.apply s.surface ⟨[⟨stop.span, s.upcoming stop⟩], .choice⟩ = (.ok change, surface) →
      s' = s.chosen stop change surface ∨ s' = (s.chosen stop change surface).requestSync.2 →
      Chose s (.moved stop.index) s'

theorem chose (s : Scene σ) (settings : Settings) :
    Chose s (s.cycleChoice settings).1 (s.cycleChoice settings).2 := by
  unfold cycleChoice
  cases htop : s.stack.top? with
  | none =>
    refine .nowhere _ (by decide) fun top stop h => ?_
    cases htop.symm.trans h.innermost
  | some top =>
    dsimp only
    cases hstop : top.currentStop? (Surface.selection s.surface) with
    | none =>
      refine .nowhere _ (by decide) fun top' stop h => ?_
      obtain rfl := Option.some.inj (htop.symm.trans h.innermost)
      cases hstop.symm.trans h.current
    | some stop =>
      dsimp only
      by_cases hempty : (stop.choices.getD []).isEmpty
      · rw [if_pos hempty]
        refine .nowhere _ (by decide) fun top' stop' h => ?_
        obtain rfl := Option.some.inj (htop.symm.trans h.innermost)
        obtain rfl := Option.some.inj (hstop.symm.trans h.current)
        exact h.listed (List.isEmpty_iff.mp hempty)
      · have hchoosing : s.Choosing top stop :=
          ⟨htop, hstop, fun hnil => hempty (List.isEmpty_iff.mpr hnil)⟩
        rw [if_neg hempty]
        split
        · rename_i refusal surface happly
          exact .refused top stop refusal surface hchoosing happly
        · rename_i change surface happly
          refine .moved top stop change surface _ hchoosing happly ?_
          split
          · exact Or.inr rfl
          · exact Or.inl rfl

theorem observe_surface (settings : Settings) (s : Scene σ) (c : Change) :
    (s.observe settings c).2.surface = s.surface := by
  unfold observe
  split
  · rfl
  · dsimp only
    split
    · rfl
    · split
      · rfl
      · split
        · rfl
        · rfl

/-- Whether or not a sync is asked for, the sessions follow the change. -/
theorem observe_stack (settings : Settings) (s : Scene σ) {c : Change}
    (user : c.origin.isEngine = false) :
    (s.observe settings c).2.stack = (s.remap c).stack := by
  unfold observe
  split
  · rename_i hskip
    rw [user, Bool.or_false, Bool.or_eq_true, Bool.not_eq_true', List.isEmpty_iff] at hskip
    rcases hskip with hidle | hc
    · rw [isActive, Bool.not_eq_false', List.isEmpty_iff] at hidle
      exact (Stack.remap_of_sessions_nil hidle c _).symm
    · exact (Stack.remap_of_edits_nil hc _).symm
  · dsimp only
    split
    · rfl
    · split
      · rfl
      · split
        · rfl
        · rfl

end Scene

end Snippets
