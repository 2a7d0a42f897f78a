import Snippets.Proofs.Jumps
import Snippets.Proofs.Lifetimes
import Snippets.Proofs.OwedTicks

/-!
# Redraws

Main statement: a command that does not ask for a redraw answers a message that left the text and
the selection as they were, on any surface whose refusals change nothing. Operations that fail leave
both alone but for one: a jump that finds no stop left may have synced on the way. It never comes to
that, since every open session keeps the exit of its template.
-/

namespace Snippets

namespace Surface

variable {σ : Type} [Surface σ]

def shown (s : σ) : Text × Selection := (slice s ⟨0, length s⟩, selection s)

def Atomic (σ : Type) [Surface σ] : Prop :=
  ∀ (s s' : σ) (b : Batch) (refusal : Refusal),
    apply s b = (.error refusal, s') → shown s' = shown s

end Surface

theorem Editor.shown_eq {σ : Type} [Editor σ] (s : σ) :
    Surface.shown s = ((document s).text, (document s).selection) := by
  rw [Surface.shown, length_eq, slice_eq, selection_eq, Text.slice, List.take_length,
    List.drop_zero]

theorem Editor.atomic (σ : Type) [Editor σ] : Surface.Atomic σ := by
  intro s s' b refusal happly
  rw [shown_eq, shown_eq, document_of_error happly]

theorem Session.OfTemplate.hasExit {x : Session} (h : x.OfTemplate) : x.hasIndex 0 = true := by
  have hexit : 0 < x.stops.countP (·.index == 0) := by
    rw [h.exits]
    exact Nat.one_pos
  rw [hasIndex, List.any_eq_true]
  exact List.countP_pos_iff.mp hexit

/-- Only from its exit there is no way on in a session that has one. -/
theorem Session.current_eq_zero {x : Session} (exit : x.hasIndex 0 = true) (h : x.next? = none) :
    x.current = 0 := by
  by_contra hcurrent
  rw [next?, if_neg hcurrent, if_pos exit] at h
  split at h
  · cases h
  · cases h

namespace Stack

def OfTemplates (s : Stack) : Prop := ∀ x ∈ s.sessions, x.OfTemplate

variable {s s' : Stack}

theorem LeadsTo.ofTemplates (h : s.LeadsTo s') (templates : s.OfTemplates) : s'.OfTemplates := by
  intro x' hx
  rcases h.origin x' hx with ⟨x, hx, hcont⟩ | ⟨_, htemplate⟩
  · exact (templates x hx).continues hcont
  · exact htemplate

theorem Stays.leadsTo (h : s.Stays s') : s.LeadsTo s' := by
  refine ⟨Nat.le_of_eq h.nextId.symm, fun x' hx => Or.inl ?_⟩
  exact exists_continues (h.sessions.imp fun _ _ hstays => hstays.1) hx

theorem leadsTo_pop (s : Stack) : s.LeadsTo (s.apply .pop) :=
  (Evolves.keep (List.tail_sublist _) (forall₂_continues _)).leadsTo

theorem leadsTo_clear (s : Stack) : s.LeadsTo (s.apply .clear) :=
  (Evolves.keep (List.nil_sublist _) .nil).leadsTo

end Stack

namespace Scene

variable {σ : Type} [Surface σ] {s s' : Scene σ}

/-- What an operation does to a scene, given whether it reports success: its sessions go on or are
those of templates, and without success the user sees no difference. -/
structure Acted (s : Scene σ) (succeeded : Bool) (s' : Scene σ) : Prop where
  stack : s.stack.LeadsTo s'.stack
  shown : succeeded = false → Surface.shown s'.surface = Surface.shown s.surface

theorem Acted.refl (s : Scene σ) (succeeded : Bool) : s.Acted succeeded s :=
  ⟨.refl s.stack, fun _ => rfl⟩

theorem acted_of_success (h : s.stack.LeadsTo s'.stack) : s.Acted true s' := ⟨h, nofun⟩

theorem acted_of_refusal (atomic : Surface.Atomic σ) {b : Batch} {refusal : Refusal} {surface : σ}
    (h : Surface.apply s.surface b = (.error refusal, surface)) (succeeded : Bool) :
    s.Acted succeeded { s with surface } :=
  ⟨.refl s.stack, fun _ => atomic _ _ _ _ h⟩

theorem visit_leadsTo (s : Scene σ) (index : Nat) : s.stack.LeadsTo (s.visit index).stack :=
  (Stack.Evolves.updateIndex s.stack index).leadsTo

theorem leave_leadsTo (s : Scene σ) (index : Nat) :
    s.stack.LeadsTo (s.flushReference.visit index).stack :=
  s.flushReference_stays.leadsTo.trans (visit_leadsTo _ index)

/-- Only a sync that was applied changes the document. -/
theorem runSync_acted (atomic : Surface.Atomic σ) (op : Nat) (s : Scene σ) :
    s.Acted (runSync op s).1.isApplied (runSync op s).2 := by
  refine ⟨(runSync_stays op s).leadsTo, fun hfailed => ?_⟩
  unfold runSync at hfailed ⊢
  dsimp only at hfailed ⊢
  split
  · rfl
  · split
    · split
      · rfl
      · rfl
    · split
      · rename_i refusal surface happly
        exact atomic _ _ _ _ happly
      · simp_all [Sync.Outcome.isApplied]

theorem tick_acted (atomic : Surface.Atomic σ) (s : Scene σ) :
    s.Acted (s.tick.1.any (·.isApplied)) s.tick.2 := by
  unfold tick
  split
  · exact .refl s _
  · split
    · exact runSync_acted atomic _ s
    · exact ⟨.refl s.stack, fun _ => rfl⟩
  · exact ⟨.refl s.stack, fun _ => rfl⟩

theorem jumpFrom_leadsTo (s : Scene σ) (top : Session) :
    s.stack.LeadsTo (s.jumpFrom top).2.stack := by
  have hclose := s.flushReference_stays.leadsTo.trans (Stack.leadsTo_pop _)
  unfold jumpFrom
  split
  · dsimp only
    split
    · exact hclose
    · exact leave_leadsTo s 0
  · exact leave_leadsTo s _
  · split
    · exact Stack.leadsTo_pop s.stack
    · exact hclose

/-- Where there is an exit, a jump never runs out of stops. -/
theorem jumpFrom_succeeds {top : Session} (exit : top.hasIndex 0 = true) {result : Navigation}
    (h : (s.jumpFrom top).1 = .closed result) : result.succeeded = true := by
  unfold jumpFrom at h
  split at h
  · dsimp only at h
    split at h
    · cases h
      rfl
    · cases h
  · cases h
  · rename_i hnext
    split at h
    · cases h
      rfl
    · rename_i hcurrent
      exact absurd (Session.current_eq_zero exit hnext) hcurrent

theorem jumpRounds_acted (rounds : Nat) (result : Navigation) (success : result.succeeded = true)
    (s : Scene σ) (templates : s.stack.OfTemplates) :
    (jumpRounds rounds result s).1.succeeded = true ∧
      s.stack.LeadsTo (jumpRounds rounds result s).2.stack := by
  induction rounds generalizing result s with
  | zero => exact ⟨success, .refl s.stack⟩
  | succ rounds ih =>
    rw [jumpRounds]
    cases htop : s.stack.top? with
    | none => exact ⟨success, .refl s.stack⟩
    | some top =>
      have hleads := jumpFrom_leadsTo s top
      have hexit := (templates top (List.mem_of_head? htop)).hasExit
      have hsucceeds (closed : Navigation) (h : (s.jumpFrom top).1 = .closed closed) :=
        jumpFrom_succeeds hexit h
      dsimp only
      generalize s.jumpFrom top = jumped at hleads hsucceeds ⊢
      obtain ⟨jump, s'⟩ := jumped
      cases jump with
      | landed index => exact ⟨rfl, hleads⟩
      | closed closed =>
        obtain ⟨hdone, hrest⟩ := ih closed (hsucceeds closed rfl) s' (hleads.ofTemplates templates)
        exact ⟨hdone, hleads.trans hrest⟩

theorem jumpNext_acted (s : Scene σ) (templates : s.stack.OfTemplates) :
    s.Acted s.jumpNext.1.succeeded s.jumpNext.2 := by
  unfold jumpNext
  split
  · obtain ⟨hdone, hleads⟩ := jumpRounds_acted s.stack.depth .exited rfl s templates
    rw [hdone]
    exact acted_of_success hleads
  · exact .refl s _

theorem jumpPrevious_acted (s : Scene σ) : s.Acted s.jumpPrevious.1.succeeded s.jumpPrevious.2 := by
  unfold jumpPrevious
  split
  · exact .refl s _
  · split
    · exact .refl s _
    · exact acted_of_success (leave_leadsTo s _)

theorem forceExit_acted (s : Scene σ) : s.Acted s.forceExit.1.succeeded s.forceExit.2 :=
  ⟨Stack.leadsTo_clear s.stack, fun _ => rfl⟩

theorem observe_acted (settings : Settings) (s : Scene σ) (c : Change) :
    s.Acted false (s.observe settings c).2 := by
  have hcarried : s.stack.LeadsTo (s.remap c).stack :=
    (Stack.Evolves.remap s.stack c (Surface.length s.surface)).leadsTo
  unfold observe
  split
  · exact .refl s _
  · dsimp only
    split
    · exact ⟨hcarried, fun _ => rfl⟩
    · split
      · exact ⟨hcarried, fun _ => rfl⟩
      · split
        · exact ⟨hcarried, fun _ => rfl⟩
        · exact ⟨hcarried, fun _ => rfl⟩

theorem insertTemplate_acted (atomic : Surface.Atomic σ) (s : Scene σ) {t : Template}
    (hbody : t.OfBody) (target : Span) :
    s.Acted (s.insertTemplate t target).1.succeeded (s.insertTemplate t target).2 := by
  have hput := s.put t target
  have hopen (change : Change) (surface : σ) : s.stack.LeadsTo
      (({ s with surface }.remap change).openSession target.start t).stack :=
    (Stack.Evolves.remap s.stack change (Surface.length surface)).leadsTo.trans
      (Stack.Evolves.openTemplate _ target.start hbody).leadsTo
  generalize (s.insertTemplate t target).1 = result, (s.insertTemplate t target).2 = s' at hput ⊢
  cases hput with
  | refused refusal surface happly => exact acted_of_refusal atomic happly _
  | visited change surface index _ =>
    exact acted_of_success ((hopen change surface).trans (visit_leadsTo _ index))
  | left change surface _ =>
    exact acted_of_success
      (((hopen change surface).trans (visit_leadsTo _ 0)).trans (Stack.leadsTo_pop _))

theorem insertSnippet_acted (atomic : Surface.Atomic σ) (settings : Settings) (resolve : Resolver)
    (s : Scene σ) (d : Definition) (target : Span) :
    s.Acted (s.insertSnippet settings resolve d target).1.succeeded
      (s.insertSnippet settings resolve d target).2 :=
  insertTemplate_acted atomic s (d.instantiate_ofBody resolve _) target

theorem expandAtCursor_acted (atomic : Surface.Atomic σ) (settings : Settings) (resolve : Resolver)
    (index : TriggerIndex) (s : Scene σ) :
    s.Acted ((s.expandAtCursor settings resolve index).1.any (·.succeeded))
      (s.expandAtCursor settings resolve index).2 := by
  unfold expandAtCursor
  dsimp only
  split
  · exact .refl s _
  · split
    · exact .refl s _
    · exact insertSnippet_acted atomic settings resolve s _ _

omit [Surface σ] in
theorem stretch_leadsTo (s : Scene σ) (index : Nat) (chosen : Span) :
    s.stack.LeadsTo (s.stretch index chosen).stack := by
  unfold stretch
  split
  · exact .refl s.stack
  · rename_i top outer hs
    have hlabels := stretchFirst_labels index chosen.start chosen.finish top.stops
    exact (Stack.Evolves.replace hs hlabels).leadsTo

theorem cycleChoice_acted (atomic : Surface.Atomic σ) (settings : Settings) (s : Scene σ) :
    s.Acted (s.cycleChoice settings).1.succeeded (s.cycleChoice settings).2 := by
  have hchose := s.chose settings
  generalize (s.cycleChoice settings).1 = result, (s.cycleChoice settings).2 = s' at hchose ⊢
  cases hchose with
  | nowhere => exact .refl s _
  | refused top stop refusal surface _ happly => exact acted_of_refusal atomic happly _
  | moved top stop change surface _ _ _ hs' =>
    have hcarried := (Stack.Evolves.remap s.stack change (Surface.length surface)).leadsTo
    have hchosen : s.stack.LeadsTo (s.chosen stop change surface).stack :=
      hcarried.trans (stretch_leadsTo ({ s with surface }.remap change) _ _)
    refine acted_of_success ?_
    rcases hs' with rfl | rfl
    · exact hchosen
    · exact hchosen

end Scene

theorem Command.needsRedraw_asking (redraw tick : Bool) :
    (asking redraw tick).any (·.needsRedraw) = redraw := by
  cases redraw with
  | true =>
    cases tick with
    | true => rfl
    | false => rfl
  | false =>
    cases tick with
    | true => rfl
    | false => rfl

namespace Engine

variable {σ : Type} [Surface σ] {e : Engine σ} {m : Message}

theorem perform_acted (atomic : Surface.Atomic σ) (templates : e.scene.stack.OfTemplates)
    {changed : Bool} {scene : Scene σ} (h : e.perform m = some (changed, scene)) :
    e.scene.Acted changed scene := by
  cases m with
  | expand =>
    cases h
    exact Scene.expandAtCursor_acted atomic e.settings e.resolver e.index e.scene
  | insert trigger =>
    obtain ⟨d, _, hresult⟩ := Option.map_eq_some_iff.mp h
    cases hresult
    exact Scene.insertSnippet_acted atomic e.settings e.resolver e.scene d _
  | jumpNext =>
    cases h
    exact Scene.jumpNext_acted e.scene templates
  | jumpPrevious =>
    cases h
    exact Scene.jumpPrevious_acted e.scene
  | cycleChoice =>
    cases h
    exact Scene.cycleChoice_acted atomic e.settings e.scene
  | forceExit =>
    cases h
    exact Scene.forceExit_acted e.scene
  | changed change =>
    cases h
    exact Scene.observe_acted e.settings e.scene change
  | tick =>
    cases h
    exact Scene.tick_acted atomic e.scene

/-- A message leaves the engine as it was, or the work for it succeeded exactly if its command asks
for a redraw. -/
theorem handle_acted (atomic : Surface.Atomic σ) (templates : e.scene.stack.OfTemplates)
    (m : Message) :
    e.scene.Acted ((e.handle m).1.any (·.needsRedraw)) (e.handle m).2.scene := by
  unfold handle
  cases hperform : e.perform m with
  | none => exact .refl e.scene _
  | some result =>
    dsimp only
    rw [Command.needsRedraw_asking]
    exact perform_acted atomic templates hperform

end Engine

namespace Hosted

variable {σ : Type} [Surface σ] {h : Hosted σ}

def OfTemplates (h : Hosted σ) : Prop := h.engine.scene.stack.OfTemplates

omit [Surface σ] in
theorem ofTemplates_start (settings : Settings) (surface : σ) :
    (start settings surface).OfTemplates := nofun

theorem OfTemplates.react (atomic : Surface.Atomic σ) (templates : h.OfTemplates)
    (happening : Happening σ) : (h.react happening).OfTemplates := by
  cases happening with
  | message m => exact (Engine.handle_acted atomic templates m).stack.ofTemplates templates
  | surface surface => exact templates
  | register definitions => exact templates
  | setValue name value => exact templates

theorem OfTemplates.reactAll (atomic : Surface.Atomic σ) (templates : h.OfTemplates)
    (happenings : List (Happening σ)) : (h.reactAll happenings).OfTemplates := by
  induction happenings generalizing h with
  | nil => exact templates
  | cons happening rest ih => exact ih (templates.react atomic happening)

/-- Whatever messages came to a fresh engine, and whatever the editor did in between: a message that
changes the text or the selection is answered by a command that asks for a redraw. -/
theorem reactAll_redraws (atomic : Surface.Atomic σ) (settings : Settings) (surface : σ)
    (happenings : List (Happening σ)) (m : Message) :
    let e := ((start settings surface).reactAll happenings).engine
    Surface.shown (e.handle m).2.scene.surface ≠ Surface.shown e.scene.surface →
      ∃ command, (e.handle m).1 = some command ∧ command.needsRedraw = true := by
  intro e hseen
  have htemplates := (ofTemplates_start settings surface).reactAll atomic happenings
  have hacted := Engine.handle_acted atomic htemplates m
  have hredraw : (e.handle m).1.any (·.needsRedraw) = true := by
    by_contra hnone
    exact hseen (hacted.shown (Bool.eq_false_of_not_eq_true hnone))
  exact (Option.any_eq_true _ _).mp hredraw

def filledIn : List (Happening Host) :=
  [.register [{ trigger := ['p'], body := "$1-$1".toList }], .message .expand,
    .surface ⟨⟨"x-".toList, .cursor 1, 2⟩, true⟩,
    .message (.changed ⟨[⟨⟨0, 0⟩, ['x']⟩], .user⟩)]

theorem filledIn_redraws :
    let e := ((start {} (⟨.ofText ['p'], true⟩ : Host)).reactAll filledIn).engine
    Surface.shown e.scene.surface = ("x-".toList, .cursor 1) ∧
      Surface.shown (e.handle .jumpNext).2.scene.surface = ("x-x".toList, .cursor 3) ∧
      ∃ command, (e.handle .jumpNext).1 = some command ∧ command.needsRedraw = true :=
  ⟨by decide +kernel, by decide +kernel,
    reactAll_redraws (Editor.atomic Host) {} ⟨.ofText ['p'], true⟩ filledIn .jumpNext
      (by decide +kernel)⟩

end Hosted

end Snippets
