import Snippets.Proofs.Endings
import Snippets.Proofs.Placement

/-!
# Reachable scenes

Every operation of the engine, and every edit of the user that the engine takes note of at once,
leaves all sessions placed. So they are placed in every scene that is reached from a fresh one.
-/

namespace Snippets.Scene

variable {σ : Type} [Editor σ]

def Placed (s : Scene σ) : Prop := s.stack.Placed (Editor.document s.surface).text.length

def StaysPlaced (s s' : Scene σ) : Prop :=
  s.Placed → (Editor.document s.surface).Fits → (Editor.document s'.surface).Fits → s'.Placed

variable {s : Scene σ}

theorem placed_start (surface : σ) : (start surface).Placed := by
  intro x hx
  cases hx

theorem Placed.topPlaced (h : s.Placed) : s.TopPlaced := by
  intro top htop
  rw [Stack.top?] at htop
  exact h top (List.mem_of_head? htop)

theorem document_select_text (surface : σ) (selection : Selection) :
    (Editor.document (Surface.select surface selection)).text = (Editor.document surface).text := by
  rw [Editor.document_select]
  rfl

theorem document_visit_text (s : Scene σ) (index : Nat) :
    (Editor.document (s.visit index).surface).text = (Editor.document s.surface).text := by
  simp only [visit, effect]
  split
  · exact document_select_text _ _
  · rfl

theorem Placed.effect_pop (h : s.Placed) : (s.effect .pop).Placed := Stack.Placed.pop h

theorem Placed.visit (h : s.Placed) (index : Nat) : (s.visit index).Placed := by
  rw [Placed, document_visit_text]
  exact Stack.Placed.updateIndex h index

theorem Placed.guarded (h : s.Placed) (guard : Sync.Guard) : { s with guard }.Placed := h

theorem Ran.placed {op : Nat} {outcome : Sync.Outcome} {s' : Scene σ} (h : Ran op s outcome s') :
    s.StaysPlaced s' := by
  intro placed fits fits'
  cases h with
  | unplanned reason hplan => exact placed.guarded _
  | upToDate site stack hsite hnil hstack =>
    rcases hstack with rfl | rfl
    · exact placed.guarded _
    · have hsound := placed.topPlaced.sound hsite
      have hfault : Batch.fault? ⟨(site.plan (Editor.document s.surface)).edits, .user⟩
          (Editor.document s.surface).text.length = none := by
        rw [hsound.fault?_eq_none_iff, hnil]
        exact .nil
      have hsame : (Editor.document s.surface).text.replaceFrom 0 [] =
          (Editor.document s.surface).text := rfl
      have hbounds := hsound.stops_bounds hfault fits (by
        rw [hnil, List.map_nil, hsame]
        exact fits)
      rw [hnil, List.map_nil, hsame] at hbounds
      intro x hx
      rcases List.mem_cons.mp hx with rfl | hx
      · exact Session.placed_of_bounds hbounds _ _
      · refine placed x ?_
        rw [hsite.sessions]
        exact List.mem_cons_of_mem _ hx
  | refused site surface refusal hsite hne happly =>
    rw [Placed, Editor.document_of_error happly]
    exact placed
  | applied site surface change hsite hne happly =>
    obtain ⟨hfault, hchange, htext⟩ := Document.apply_eq_ok happly
    have hsound := placed.topPlaced.sound hsite
    rw [hchange, (hsound.accepted hfault).1] at htext
    have hbounds := hsound.stops_bounds hfault fits (htext ▸ fits')
    rw [← htext] at hbounds
    intro x hx
    rcases List.mem_cons.mp hx with rfl | hx
    · exact Session.placed_of_bounds hbounds _ _
    · obtain ⟨y, _, rfl⟩ := List.mem_map.mp hx
      exact y.carry_placed change _

theorem runSync_placed (op : Nat) (s : Scene σ) : s.StaysPlaced (s.runSync op).2 :=
  (ran op s).placed

theorem syncNow_placed (s : Scene σ) : s.StaysPlaced s.syncNow.2 := by
  intro h
  unfold syncNow
  split
  · exact fun _ _ => h
  · exact runSync_placed _ { s with guard := s.guard.issue } h

theorem flush_placed (s : Scene σ) : s.StaysPlaced s.flush.2 := by
  intro h
  have hafresh := syncNow_placed { s with guard := s.guard.settle } h
  unfold flush
  dsimp only
  split
  · split
    · exact runSync_placed _ s h
    · exact hafresh
  · exact hafresh

theorem tick_placed (s : Scene σ) : s.StaysPlaced s.tick.2 := by
  intro h
  unfold tick
  split
  · exact fun _ _ => h
  · split
    · exact runSync_placed _ s h
    · exact fun _ _ => h
  · exact fun _ _ => h

theorem flushReference_placed (s : Scene σ) : s.StaysPlaced s.flushReference := by
  intro h
  unfold flushReference
  split
  · exact flush_placed s h
  · exact fun _ _ => h

theorem visit_placed (s : Scene σ) (index : Nat) :
    s.StaysPlaced (s.flushReference.visit index) := by
  intro h fits fits'
  rw [Document.Fits, document_visit_text] at fits'
  exact (flushReference_placed s h fits fits').visit index

theorem jumpFrom_placed (s : Scene σ) (top : Session) : s.StaysPlaced (s.jumpFrom top).2 := by
  intro h
  unfold jumpFrom
  split
  · dsimp only
    split
    · exact fun fits fits' => (flushReference_placed s h fits fits').effect_pop
    · exact visit_placed s 0 h
  · exact visit_placed s _ h
  · split
    · exact fun _ _ => h.effect_pop
    · exact fun fits fits' => (flushReference_placed s h fits fits').effect_pop

theorem jumpPrevious_placed (s : Scene σ) : s.StaysPlaced s.jumpPrevious.2 := by
  intro h
  unfold jumpPrevious
  split
  · exact fun _ _ => h
  · split
    · exact fun _ _ => h
    · exact visit_placed s _ h

theorem forceExit_placed (s : Scene σ) : s.StaysPlaced s.forceExit.2 :=
  fun _ _ _ => Stack.Placed.clear _ s.stack

theorem growth_nil {d d' : Document} {b : Batch} {c : Change} (h : d.apply b = .ok (c, d'))
    (hc : c.edits = []) : d'.text.length = d.text.length := by
  rw [(Document.apply_eq_ok h).2.2, hc]
  rfl

theorem Placed.remap (h : s.Placed) {b : Batch} {c : Change} {d' : Document} {surface : σ}
    (made : (Editor.document s.surface).apply b = .ok (c, d'))
    (text : (Editor.document surface).text = d'.text) :
    ({ s with surface }.remap c).Placed := by
  change (s.stack.remap c (Surface.length surface)).Placed (Editor.document surface).text.length
  rw [Editor.length_eq]
  exact Stack.Placed.remap h c fun hc => by rw [text, growth_nil made hc]

theorem observe_placed (settings : Settings) (h : s.Placed) {b : Batch} {c : Change} {d' : Document}
    {surface : σ} (made : (Editor.document s.surface).apply b = .ok (c, d'))
    (user : b.origin = .user) (text : (Editor.document surface).text = d'.text) :
    ({ s with surface }.observe settings c).2.Placed := by
  have hengine : c.origin.isEngine = false := by
    rw [(Document.apply_eq_ok made).2.1, Change.ofBatch, user]
    rfl
  rw [Placed, observe_surface, observe_stack settings _ hengine]
  exact h.remap made text

theorem written_le {d d' : Document} {e : Edit} {origin : Origin} {c : Change}
    (h : d.apply ⟨[e], origin⟩ = .ok (c, d')) : e.span.start + e.text.length ≤ d'.text.length := by
  obtain ⟨hfault, hchange, htext⟩ := Document.apply_eq_ok h
  obtain ⟨hup, hin⟩ := (Batch.fault?_eq_none_iff_apart.mp hfault).1 e List.mem_cons_self
  rw [htext, hchange]
  simp only [Change.ofBatch, sortStable, insertSorted, Text.replaceFrom, List.length_append,
    Text.length_slice]
  omega

theorem Placed.openSession (h : s.Placed) {t : Template}
    (bounds : ∀ x ∈ t.stops, x.span.start ≤ x.span.finish ∧ x.span.finish ≤ t.text.length)
    {base : Nat} (room : base + t.text.length ≤ (Editor.document s.surface).text.length) :
    (s.openSession base t).Placed := by
  refine Stack.Placed.push h (fun x hx => ?_) 0
  obtain ⟨stop, hstop, rfl⟩ := List.mem_map.mp hx
  have hin := bounds stop hstop
  have hstart := Nat.mod_le (base + stop.span.start) 18446744073709551616
  have hfinish := Nat.mod_le (base + stop.span.finish) 18446744073709551616
  simp only [LiveStop.ofTabStop, Span.shift, Word.unsigned]
  omega

theorem insertTemplate_placed (s : Scene σ) {t : Template}
    (bounds : ∀ x ∈ t.stops, x.span.start ≤ x.span.finish ∧ x.span.finish ≤ t.text.length)
    (target : Span) : s.StaysPlaced (s.insertTemplate t target).2 := by
  intro h _ _
  have hput := s.put t target
  generalize (s.insertTemplate t target).1 = result, (s.insertTemplate t target).2 = s' at hput ⊢
  have hopen {change : Change} {surface : σ}
      (happly : Surface.apply s.surface ⟨[⟨target, t.text⟩], .expansion⟩ = (.ok change, surface)) :
      (({ s with surface }.remap change).openSession target.start t).Placed :=
    have made := Editor.document_of_ok happly
    (h.remap made rfl).openSession bounds (written_le made)
  cases hput with
  | refused refusal surface happly =>
    rw [Placed, Editor.document_of_error happly]
    exact h
  | visited change surface index happly => exact (hopen happly).visit index
  | left change surface happly => exact ((hopen happly).visit 0).effect_pop

theorem insertSnippet_placed (settings : Settings) (resolve : Resolver) (s : Scene σ)
    (d : Definition) (target : Span) :
    s.StaysPlaced (s.insertSnippet settings resolve d target).2 := by
  unfold insertSnippet
  exact insertTemplate_placed s (d.instantiate_bounds resolve _) target

theorem expandAtCursor_placed (settings : Settings) (resolve : Resolver) (index : TriggerIndex)
    (s : Scene σ) : s.StaysPlaced (s.expandAtCursor settings resolve index).2 := by
  unfold expandAtCursor
  dsimp only
  split
  · exact fun h _ _ => h
  · split
    · exact fun h _ _ => h
    · exact insertSnippet_placed settings resolve s _ _

theorem mem_stretchFirst {index start finish : Nat} {stops : List LiveStop} {x : LiveStop}
    (h : x ∈ stretchFirst index start finish stops) : x ∈ stops ∨ x.span = ⟨start, finish⟩ := by
  induction stops with
  | nil => cases h
  | cons s rest ih =>
    rw [stretchFirst] at h
    split at h
    · rcases List.mem_cons.mp h with rfl | h
      · exact Or.inr rfl
      · exact Or.inl (List.mem_cons_of_mem s h)
    · rcases List.mem_cons.mp h with rfl | h
      · exact Or.inl List.mem_cons_self
      · exact (ih h).imp_left (List.mem_cons_of_mem s)

theorem Placed.stretch (h : s.Placed) {chosen : Span} (upright : chosen.start ≤ chosen.finish)
    (inside : chosen.finish ≤ (Editor.document s.surface).text.length) (index : Nat) :
    (s.stretch index chosen).Placed := by
  unfold Scene.stretch
  split
  · exact h
  · rename_i top outer hs
    refine Stack.Placed.replace h (fun x hx => ?_) _
    rcases mem_stretchFirst hx with hx | hx
    · have htop := h top (by rw [hs]; exact List.mem_cons_self)
      have hup := htop.normal.upright x hx
      have hin := htop.inside x hx
      omega
    · rw [hx]
      exact ⟨Nat.le_trans upright inside, inside⟩

theorem Placed.select (h : s.Placed) (selection : Selection) :
    { s with surface := Surface.select s.surface selection }.Placed := by
  rw [Placed, document_select_text]
  exact h

theorem chosen_text (s : Scene σ) (stop : LiveStop) (c : Change) (surface : σ) :
    (Editor.document (s.chosen stop c surface).surface).text = (Editor.document surface).text := by
  rw [chosen_surface, document_select_text]

theorem cycleChoice_placed (settings : Settings) (s : Scene σ) :
    s.StaysPlaced (s.cycleChoice settings).2 := by
  intro h _ _
  have hchose := s.chose settings
  generalize (s.cycleChoice settings).1 = result, (s.cycleChoice settings).2 = s' at hchose ⊢
  cases hchose with
  | nowhere => exact h
  | refused top stop refusal surface _ happly =>
    rw [Placed, Editor.document_of_error happly]
    exact h
  | moved top stop change surface _ _ happly hs' =>
    have made := Editor.document_of_ok happly
    have hupright : (stop.chosenSpan (s.upcoming stop)).start ≤
      (stop.chosenSpan (s.upcoming stop)).finish := Nat.le_add_right _ _
    have hstretched := (h.remap made rfl).stretch hupright (written_le made) stop.index
    rcases hs' with rfl | rfl
    · exact hstretched.select _
    · exact hstretched.select _

/-- One operation of the engine, or one edit of the user that the engine takes note of. The editor
may refuse what the engine asks for, come and go, and put the selection where it likes. -/
inductive Step : Scene σ → Scene σ → Prop where
  | insert (s : Scene σ) (body : Text) (resolve : Resolver) (indent : Text) (target : Span) :
      Step s (s.insertTemplate (.instantiate body resolve indent) target).2
  | snippet (s : Scene σ) (settings : Settings) (resolve : Resolver) (d : Definition)
      (target : Span) : Step s (s.insertSnippet settings resolve d target).2
  | expand (s : Scene σ) (settings : Settings) (resolve : Resolver) (index : TriggerIndex) :
      Step s (s.expandAtCursor settings resolve index).2
  /-- One round of a jump to the next stop. -/
  | round (s : Scene σ) (top : Session) : s.stack.top? = some top → Step s (s.jumpFrom top).2
  | previous (s : Scene σ) : Step s s.jumpPrevious.2
  | choice (s : Scene σ) (settings : Settings) : Step s (s.cycleChoice settings).2
  | exit (s : Scene σ) : Step s s.forceExit.2
  | sync (s : Scene σ) : Step s s.syncNow.2
  | tick (s : Scene σ) : Step s s.tick.2
  | select (s : Scene σ) (selection : Selection) :
      Step s { s with surface := Surface.select s.surface selection }
  | edit (s : Scene σ) (settings : Settings) (b : Batch) (c : Change) (d' : Document) (surface : σ)
      (selection : Selection) : b.origin = .user →
      (Editor.document s.surface).apply b = .ok (c, d') →
      Editor.document surface = d'.select selection →
      Step s ({ s with surface }.observe settings c).2
  | host (s : Scene σ) (surface : σ) : Editor.document surface = Editor.document s.surface →
      Step s { s with surface }

theorem Step.placed {s' : Scene σ} (h : Step s s') : s.StaysPlaced s' := by
  cases h with
  | insert body resolve indent target =>
    exact insertTemplate_placed s (Template.instantiate_bounds body resolve indent) target
  | snippet settings resolve d target => exact insertSnippet_placed settings resolve s d target
  | expand settings resolve index => exact expandAtCursor_placed settings resolve index s
  | round top _ => exact jumpFrom_placed s top
  | previous => exact jumpPrevious_placed s
  | choice settings => exact cycleChoice_placed settings s
  | exit => exact forceExit_placed s
  | sync => exact syncNow_placed s
  | tick => exact tick_placed s
  | select selection => exact fun h _ _ => h.select selection
  | edit settings b c d' surface selection user made here =>
    exact fun h _ _ => observe_placed settings h made user (by rw [here]; rfl)
  | host surface same =>
    intro h _ _
    rw [Placed, same]
    exact h

theorem Step.applied {s : Scene Document} (settings : Settings) {b : Batch} {c : Change}
    {d' : Document} (user : b.origin = .user) (happly : s.surface.apply b = .ok (c, d')) :
    Step s ({ s with surface := d' }.observe settings c).2 := by
  have hclamp : d'.select d'.selection = d' := by
    rw [Document.select, Document.apply_selection happly, Selection.clamp, Selection.clamp,
      Nat.min_assoc, Nat.min_assoc, Nat.min_self, ← Selection.clamp,
      ← Document.apply_selection happly]
  exact .edit s settings b c d' d' d'.selection user happly hclamp.symm

/-- The user replaces a range and puts the cursor somewhere, and the engine takes note of it. -/
theorem Step.replaced {s : Scene Document} (settings : Settings) {e : Edit} {c : Change}
    {d' : Document} (happly : s.surface.apply ⟨[e], .user⟩ = .ok (c, d')) {cursor : Nat}
    (near : cursor ≤ e.span.start + e.text.length) :
    Step s
      ({ s with surface := { d' with selection := .cursor cursor } }.observe settings c).2 := by
  have hend := written_le happly
  refine .edit s settings _ c d' _ (.cursor cursor) rfl happly ?_
  simp only [Editor.document_self, Document.select, Selection.clamp, Selection.cursor,
    Nat.min_eq_left (Nat.le_trans near hend)]

theorem Step.typed {s s' : Scene Document} {settings : Settings} {t : Text}
    (h : s.typed settings t = .ok s') : Step s s' := by
  unfold Scene.typed typing at h
  cases htype : s.surface.type t with
  | error fault =>
    rw [htype] at h
    cases h
  | ok result =>
    obtain ⟨change, d'⟩ := result
    obtain ⟨made, happly, rfl⟩ := Document.type_eq_ok htype
    rw [htype] at h
    cases h
    exact .replaced settings happly (Nat.le_refl _)

theorem Step.backspaced {s s' : Scene Document} {settings : Settings}
    (h : s.backspaced settings = .ok s') : s' = s ∨ Step s s' := by
  unfold Scene.backspaced at h
  cases hback : s.surface.backspace with
  | error fault =>
    rw [hback] at h
    cases h
  | ok result =>
    obtain ⟨c, d'⟩ := result
    rw [hback] at h
    rcases Document.backspace_eq_ok hback with
      ⟨rfl, rfl⟩ | ⟨span, change, made, rfl, happly, rfl⟩
    · cases h
      exact Or.inl rfl
    · cases h
      exact Or.inr (.replaced settings happly (Nat.le_refl _))

/-- Scenes that are reached from a fresh one, in documents whose offsets are words. -/
inductive Reach : Scene σ → Prop where
  | start (surface : σ) : (Editor.document surface).Fits → Reach (Scene.start surface)
  | step {s s' : Scene σ} : Reach s → Step s s' → (Editor.document s'.surface).Fits → Reach s'

theorem Reach.fits (h : Reach s) : (Editor.document s.surface).Fits := by
  cases h with
  | start surface hfits => exact hfits
  | step _ _ hfits => exact hfits

theorem Reach.placed (h : Reach s) : s.Placed := by
  induction h with
  | start surface _ => exact placed_start surface
  | step hreach hstep hfits ih => exact hstep.placed ih hreach.fits hfits

/-- What every operation keeps a jump keeps too: it is made of rounds, each of which may sync. -/
theorem jumpRounds_induction {P : Scene σ → Prop}
    (closed : ∀ {s s' : Scene σ}, P s → Step s s' → (Editor.document s'.surface).Fits → P s')
    (h : P s) (rounds : Nat) (result : Navigation)
    (fits : ∀ n ≤ rounds, (Editor.document (jumpRounds n result s).2.surface).Fits) :
    P (jumpRounds rounds result s).2 := by
  -- A round lands on a stop or closes a session; after the latter the other rounds go on.
  induction rounds generalizing s result with
  | zero => exact h
  | succ rounds ih =>
    cases htop : s.stack.top? with
    | none =>
      rw [jumpRounds, htop]
      exact h
    | some top =>
      have hstep := Step.round s top htop
      cases hjump : s.jumpFrom top with
      | mk jump s' =>
        rw [hjump] at hstep
        cases jump with
        | landed index =>
          have hround (n : Nat) : jumpRounds (n + 1) result s = (.moved index, s') := by
            rw [jumpRounds, htop]
            dsimp only
            rw [hjump]
          have hfits := fits 1 (by omega)
          rw [hround] at hfits ⊢
          exact closed h hstep hfits
        | closed result' =>
          have hround (n : Nat) : jumpRounds (n + 1) result s = jumpRounds n result' s' := by
            rw [jumpRounds, htop]
            dsimp only
            rw [hjump]
          have hfits := fits 1 (by omega)
          rw [hround] at hfits ⊢
          refine ih (closed h hstep hfits) result' fun n hn => ?_
          have := fits (n + 1) (by omega)
          rw [hround] at this
          exact this

theorem jumpNext_induction {P : Scene σ → Prop}
    (closed : ∀ {s s' : Scene σ}, P s → Step s s' → (Editor.document s'.surface).Fits → P s')
    (h : P s) (fits : ∀ n, (Editor.document (jumpRounds n .exited s).2.surface).Fits) :
    P s.jumpNext.2 := by
  unfold jumpNext
  split
  · exact jumpRounds_induction closed h _ _ fun n _ => fits n
  · exact h

theorem Reach.opened {body : Text} (fits : (opened (.parse body)).surface.Fits) :
    Reach (Scene.opened (.parse body)) := by
  have hstart : Reach (Scene.start (Document.ofText [])) := .start _ (by decide)
  exact .step hstart (.insert _ body (fun _ => none) [] ⟨0, 0⟩) fits

theorem Reach.opened_typed {s : Scene Document} {body : Text} {settings : Settings} {t : Text}
    (h : (Scene.opened (.parse body)).typed settings t = .ok s)
    (fits : (Scene.opened (.parse body)).surface.Fits) (fits' : s.surface.Fits) : Reach s :=
  .step (.opened fits) (.typed h) fits'

theorem Reach.jumpNext (h : Reach s)
    (fits : ∀ n, (Editor.document (Scene.jumpRounds n .exited s).2.surface).Fits) :
    Reach s.jumpNext.2 :=
  jumpNext_induction .step h fits

end Snippets.Scene
