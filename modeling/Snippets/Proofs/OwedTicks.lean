import Snippets.Engine
import Snippets.Proofs.AnySurface

/-!
# Owed ticks

An editor owes a tick for every command that asks for one, and pays with every tick that it sends.
Main statement: whatever messages come, and whatever the editor does in between, a sync is in flight
only while a tick is owed; and two ticks in a row end whatever is in flight.
-/

namespace Snippets

namespace Command

theorem needsTick_asking (redraw tick : Bool) : (asking redraw tick).any (·.needsTick) = tick := by
  cases redraw with
  | true =>
    cases tick with
    | true => rfl
    | false => rfl
  | false =>
    cases tick with
    | true => rfl
    | false => rfl

end Command

namespace Scene

variable {σ : Type} {s : Scene σ}

theorem Concluded.unscheduled {op : Nat} {outcome : Sync.Outcome} {s' : Scene σ}
    (h : Concluded op s outcome s') (op' session : Nat) :
    s'.guard.phase ≠ .scheduled op' session := by
  intro hphase
  cases h with
  | applied _ _ _ hguard =>
    rw [hguard] at hphase
    cases hphase
  | skipped _ _ _ hguard =>
    rw [hguard] at hphase
    cases hphase

variable [Surface σ]

theorem tick_unscheduled (s : Scene σ) (op session : Nat) :
    s.tick.2.guard.phase ≠ .scheduled op session := by
  unfold tick
  split
  · rename_i hidle
    intro hphase
    rw [hidle] at hphase
    cases hphase
  · rename_i waiting id _
    by_cases hcurrent : s.guard.isCurrent waiting id s.stack
    · rw [if_pos hcurrent]
      exact (concluded waiting s).unscheduled op session
    · rw [if_neg hcurrent]
      intro hphase
      cases hphase
  · intro hphase
    cases hphase

theorem tick_idle (unscheduled : ∀ op session, s.guard.phase ≠ .scheduled op session) :
    s.tick.2.guard.inFlight = false := by
  unfold tick
  split
  · rename_i hidle
    rw [Sync.Guard.inFlight, hidle]
    rfl
  · rename_i op session hphase
    exact absurd hphase (unscheduled op session)
  · rfl

theorem tick_tick_idle (s : Scene σ) : s.tick.2.tick.2.guard.inFlight = false :=
  tick_idle s.tick_unscheduled

end Scene

namespace Engine

variable {σ : Type} [Surface σ] (e : Engine σ)

theorem handle_tick : (e.handle .tick).2.scene = e.scene.tick.2 := rfl

/-- There is nothing to work on only where a snippet is asked for that is not registered. -/
theorem perform_eq_none {e : Engine σ} {m : Message} (h : e.perform m = none) :
    ∃ trigger, m = .insert trigger ∧ e.index.get? trigger = none := by
  cases m with
  | insert trigger => exact ⟨trigger, rfl, Option.map_eq_none_iff.mp h⟩
  | _ => cases h

/-- A message leaves the engine as it was, or its command asks for a tick exactly if a sync is in
flight after it. -/
theorem handle_cases (m : Message) :
    (m ≠ .tick ∧ e.handle m = (none, e)) ∨
      (e.handle m).1.any (·.needsTick) = (e.handle m).2.scene.guard.inFlight := by
  unfold handle
  cases hperform : e.perform m with
  | none =>
    obtain ⟨trigger, rfl, _⟩ := perform_eq_none hperform
    exact Or.inl ⟨nofun, rfl⟩
  | some result => exact Or.inr (Command.needsTick_asking _ _)

end Engine

/-- What an editor does: it sends a message, or it does as it likes with its surface, the snippets
and the values of variables. -/
inductive Happening (σ : Type) where
  | message (m : Message)
  | surface (surface : σ)
  | register (definitions : List Definition)
  | setValue (name value : Text)

/-- An engine and the ticks that its editor owes. -/
structure Hosted (σ : Type) where
  engine : Engine σ
  owed : Nat

namespace Hosted

variable {σ : Type}

def start (settings : Settings) (surface : σ) : Hosted σ := ⟨.start settings surface, 0⟩

def InFlight (h : Hosted σ) : Prop := h.engine.scene.guard.inFlight = true

instance (h : Hosted σ) : Decidable h.InFlight := inferInstanceAs (Decidable (_ = _))

variable [Surface σ]

/-- A tick that nobody asked for pays nothing. -/
def react (h : Hosted σ) : Happening σ → Hosted σ
  | .message m =>
    let (command, engine) := h.engine.handle m
    let left := if m = .tick then h.owed - 1 else h.owed
    ⟨engine, if command.any (·.needsTick) then left + 1 else left⟩
  | .surface surface =>
    { h with engine := { h.engine with scene := { h.engine.scene with surface } } }
  | .register definitions => { h with engine := h.engine.register definitions }
  | .setValue name value => { h with engine := h.engine.setValue name value }

def reactAll (h : Hosted σ) (happenings : List (Happening σ)) : Hosted σ := happenings.foldl react h

/-- A sync is in flight only while a tick is owed. -/
def Provided (h : Hosted σ) : Prop := h.InFlight → 0 < h.owed

variable {h : Hosted σ}

theorem react_message (h : Hosted σ) (m : Message) : h.react (.message m) =
    ⟨(h.engine.handle m).2, if (h.engine.handle m).1.any (·.needsTick)
      then (if m = .tick then h.owed - 1 else h.owed) + 1
      else if m = .tick then h.owed - 1 else h.owed⟩ := rfl

theorem Provided.react (provided : h.Provided) (happening : Happening σ) :
    (h.react happening).Provided := by
  cases happening with
  | message m =>
    intro hflight
    rw [react_message] at hflight ⊢
    rcases h.engine.handle_cases m with ⟨hm, hsame⟩ | hasks
    · rw [hsame] at hflight ⊢
      rw [if_neg (show ¬ Option.any _ none = true from nofun), if_neg hm]
      exact provided hflight
    · rw [if_pos (hasks.trans hflight)]
      exact Nat.succ_pos _
  | surface surface => exact provided
  | register definitions => exact provided
  | setValue name value => exact provided

theorem Provided.reactAll (provided : h.Provided) (happenings : List (Happening σ)) :
    (h.reactAll happenings).Provided := by
  induction happenings generalizing h with
  | nil => exact provided
  | cons happening rest ih => exact ih (provided.react happening)

omit [Surface σ] in
theorem provided_start (settings : Settings) (surface : σ) : (start settings surface).Provided := by
  intro hflight
  cases hflight

/-- A fresh engine never waits for a tick that nobody owes, and two ticks leave it idle. -/
theorem reactAll_never_stalls (settings : Settings) (surface : σ)
    (happenings : List (Happening σ)) :
    let h := (start settings surface).reactAll happenings
    (h.InFlight → 0 < h.owed) ∧ ¬ ((h.react (.message .tick)).react (.message .tick)).InFlight := by
  intro h
  constructor
  · exact (provided_start settings surface).reactAll happenings
  · intro hflight
    rw [InFlight, react_message, react_message] at hflight
    dsimp only at hflight
    rw [Engine.handle_tick, Engine.handle_tick, Scene.tick_tick_idle] at hflight
    cases hflight

end Hosted

end Snippets
