import Snippets.Document
import Snippets.Proofs.Endings

/-!
# Refused batches

An operation asks the editor for one batch at most, and everything else that it does comes after the
answer. Main statement: when an editor that keeps its state refuses the batch, the surface and all
sessions are as before, and no sync is left in flight.
-/

namespace Snippets

def Surface.KeepsRefused {σ : Type} [Surface σ] (s : σ) : Prop :=
  ∀ b refusal s', apply s b = (.error refusal, s') → s' = s

theorem Document.keepsRefused (d : Document) : Surface.KeepsRefused d := by
  intro b refusal d' h
  simp only [Surface.apply] at h
  split at h
  · cases h
  · cases h
    rfl

theorem Host.keepsRefused (host : Host) : Surface.KeepsRefused host := by
  intro b refusal host' h
  simp only [Surface.apply] at h
  split at h
  · cases hdoc : host.document.apply b with
    | error fault =>
      rw [hdoc] at h
      cases h
      rfl
    | ok made =>
      rw [hdoc] at h
      cases h
  · cases h
    rfl

/-- The guard has no part in a plan. -/
theorem Sync.plan_ne_inFlight {σ : Type} [Surface σ] (stack : Stack) (surface : σ) :
    Sync.plan stack surface ≠ .error .inFlight := by
  unfold Sync.plan
  cases stack.sessions with
  | nil => nofun
  | cons top outer =>
    dsimp only
    cases top.currentPosition? (Surface.selection surface) with
    | none => nofun
    | some current =>
      dsimp only
      cases top.stops[current]? with
      | none => nofun
      | some stop =>
        dsimp only
        cases stop.isReference with
        | false => nofun
        | true =>
          cases stop.linked.isEmpty with
          | true => nofun
          | false => nofun

namespace Scene

variable {σ : Type}

structure AsBefore (s s' : Scene σ) : Prop where
  surface : s'.surface = s.surface
  stack : s'.stack = s.stack

variable [Surface σ] {s : Scene σ}

/-- Nothing is in flight, so the next sync is neither dropped nor skipped for one before it. -/
structure Unblocked (s : Scene σ) : Prop where
  idle : s.guard.inFlight = false
  now : s.syncNow.1 ≠ .skipped .inFlight
  request : s.requestSync.1 ≠ .skipped .inFlight

theorem runSync_ne_inFlight (op : Nat) (s : Scene σ) : (s.runSync op).1 ≠ .skipped .inFlight := by
  unfold runSync
  dsimp only
  split
  · rename_i reason hplan
    intro h
    cases h
    exact Sync.plan_ne_inFlight _ _ hplan
  · split
    · nofun
    · split
      · nofun
      · nofun

theorem unblocked_of_idle (idle : s.guard.inFlight = false) : s.Unblocked := by
  refine ⟨idle, ?_, ?_⟩
  · simp only [syncNow, idle, Bool.false_eq_true, if_false]
    exact runSync_ne_inFlight _ _
  · simp only [requestSync, Sync.Guard.request, idle, Bool.false_eq_true, if_false]
    split
    · nofun
    · nofun

/-! ## One operation after the other -/

theorem insertTemplate_refused (keeps : Surface.KeepsRefused s.surface) {t : Template}
    {target : Span} (h : (s.insertTemplate t target).1 = .unavailable .surfaceUnavailable) :
    s.AsBefore (s.insertTemplate t target).2 := by
  have hput := s.put t target
  rw [h] at hput
  generalize (s.insertTemplate t target).2 = s' at hput
  cases hput with
  | refused refusal surface happly => exact ⟨keeps _ _ _ happly, rfl⟩

theorem insertSnippet_refused (keeps : Surface.KeepsRefused s.surface) {settings : Settings}
    {resolve : Resolver} {d : Definition} {target : Span}
    (h : (s.insertSnippet settings resolve d target).1 = .unavailable .surfaceUnavailable) :
    s.AsBefore (s.insertSnippet settings resolve d target).2 :=
  insertTemplate_refused keeps h

theorem expandAtCursor_refused (keeps : Surface.KeepsRefused s.surface) {settings : Settings}
    {resolve : Resolver} {index : TriggerIndex}
    (h : (s.expandAtCursor settings resolve index).1 = some (.unavailable .surfaceUnavailable)) :
    s.AsBefore (s.expandAtCursor settings resolve index).2 := by
  unfold expandAtCursor at h ⊢
  dsimp only at h ⊢
  split
  · exact ⟨rfl, rfl⟩
  · rename_i hcursor
    rw [if_neg hcursor] at h
    split
    · exact ⟨rfl, rfl⟩
    · rename_i d hfound
      rw [hfound] at h
      exact insertSnippet_refused keeps (Option.some.inj h)

theorem cycleChoice_refused (keeps : Surface.KeepsRefused s.surface) {settings : Settings}
    (h : (s.cycleChoice settings).1 = .unavailable .surfaceUnavailable) :
    s.AsBefore (s.cycleChoice settings).2 := by
  have hchose := s.chose settings
  rw [h] at hchose
  generalize (s.cycleChoice settings).2 = s' at hchose
  cases hchose with
  | nowhere => exact ⟨rfl, rfl⟩
  | refused top stop refusal surface _ happly => exact ⟨keeps _ _ _ happly, rfl⟩

/-- A sync that could not be made ends where it began, with nothing in flight. -/
theorem runSync_refused (keeps : Surface.KeepsRefused s.surface) {op : Nat}
    (h : (s.runSync op).1 = .skipped .surfaceUnavailable) :
    s.AsBefore (s.runSync op).2 ∧ (s.runSync op).2.Unblocked := by
  unfold runSync at h ⊢
  dsimp only at h ⊢
  split
  · exact ⟨⟨rfl, rfl⟩, unblocked_of_idle rfl⟩
  · rename_i plan hplan
    rw [hplan] at h
    dsimp only at h
    split
    · rename_i hnil
      rw [if_pos hnil] at h
      cases h
    · rename_i hne
      rw [if_neg hne] at h
      split
      · rename_i refusal surface happly
        exact ⟨⟨keeps _ _ _ happly, rfl⟩, unblocked_of_idle rfl⟩
      · rename_i change surface happly
        rw [happly] at h
        cases h

theorem syncNow_refused (keeps : Surface.KeepsRefused s.surface)
    (h : s.syncNow.1 = .skipped .surfaceUnavailable) :
    s.AsBefore s.syncNow.2 ∧ s.syncNow.2.Unblocked := by
  unfold syncNow at h ⊢
  split
  · rename_i hbusy
    rw [if_pos hbusy] at h
    cases h
  · rename_i hidle
    rw [if_neg hidle] at h
    obtain ⟨⟨hsurface, hstack⟩, hunblocked⟩ :=
      runSync_refused (s := { s with guard := s.guard.issue }) keeps h
    exact ⟨⟨hsurface, hstack⟩, hunblocked⟩

theorem tick_refused (keeps : Surface.KeepsRefused s.surface)
    (h : s.tick.1 = some (.skipped .surfaceUnavailable)) :
    s.AsBefore s.tick.2 ∧ s.tick.2.Unblocked := by
  unfold tick at h ⊢
  split
  · rename_i hidle
    rw [hidle] at h
    cases h
  · rename_i op session hphase
    rw [hphase] at h
    dsimp only at h
    split
    · rename_i hcurrent
      rw [if_pos hcurrent] at h
      exact runSync_refused keeps (Option.some.inj h)
    · exact ⟨⟨rfl, rfl⟩, unblocked_of_idle rfl⟩
  · exact ⟨⟨rfl, rfl⟩, unblocked_of_idle rfl⟩

/-- Whatever reports that the surface was not available did nothing else. -/
structure RefusalsHarmless (s : Scene σ) : Prop where
  template : ∀ t target, (s.insertTemplate t target).1 = .unavailable .surfaceUnavailable →
    s.AsBefore (s.insertTemplate t target).2
  snippet : ∀ settings resolve d target,
    (s.insertSnippet settings resolve d target).1 = .unavailable .surfaceUnavailable →
      s.AsBefore (s.insertSnippet settings resolve d target).2
  expand : ∀ settings resolve index,
    (s.expandAtCursor settings resolve index).1 = some (.unavailable .surfaceUnavailable) →
      s.AsBefore (s.expandAtCursor settings resolve index).2
  choice : ∀ settings, (s.cycleChoice settings).1 = .unavailable .surfaceUnavailable →
    s.AsBefore (s.cycleChoice settings).2
  now : s.syncNow.1 = .skipped .surfaceUnavailable →
    s.AsBefore s.syncNow.2 ∧ s.syncNow.2.Unblocked
  tick : s.tick.1 = some (.skipped .surfaceUnavailable) →
    s.AsBefore s.tick.2 ∧ s.tick.2.Unblocked

theorem refusalsHarmless (s : Scene σ) (keeps : Surface.KeepsRefused s.surface) :
    s.RefusalsHarmless where
  template _ _ := insertTemplate_refused keeps
  snippet _ _ _ _ := insertSnippet_refused keeps
  expand _ _ _ := expandAtCursor_refused keeps
  choice _ := cycleChoice_refused keeps
  now := syncNow_refused keeps
  tick := tick_refused keeps

def awayForm : Scene Host where
  stack := ⟨[⟨0, 1, [⟨⟨1, ⟨0, 1⟩, some [['a'], ['b']], some 0⟩, [1]⟩,
    ⟨⟨1, ⟨2, 3⟩, none, some 0⟩, [0]⟩, ⟨⟨0, ⟨3, 3⟩, none, none⟩, []⟩]⟩], 1⟩
  guard := {}
  surface := ⟨⟨"b a".toList, .cursor 1, 2⟩, false⟩

def awaySync : Scene Host := { awayForm with guard := ⟨.scheduled 1 0, 1⟩ }

theorem awayForm_unharmed :
    (awayForm.insertTemplate (.parse "$1".toList) ⟨0, 0⟩).1 = .unavailable .surfaceUnavailable ∧
      (awayForm.expandAtCursor {} (fun _ => none)
        (.ofList [{ trigger := ['b'], body := "<$1>".toList }])).1 =
          some (.unavailable .surfaceUnavailable) ∧
      (awayForm.cycleChoice {}).1 = .unavailable .surfaceUnavailable ∧
      awayForm.syncNow.1 = .skipped .surfaceUnavailable ∧
      awaySync.tick.1 = some (.skipped .surfaceUnavailable) ∧
      awayForm.RefusalsHarmless ∧ awaySync.RefusalsHarmless :=
  ⟨by decide +kernel, by decide +kernel, by decide +kernel, by decide +kernel, by decide +kernel,
    refusalsHarmless awayForm (Host.keepsRefused _),
    refusalsHarmless awaySync (Host.keepsRefused _)⟩

end Scene

end Snippets
