import Mathlib.Data.List.Sort
import Snippets.Proofs.Effects
import Snippets.Proofs.Moves

/-!
# Sessions that a change passes over

A change brings new stops only for the sessions that it moves. Main statement: on every stack that
effects lead to, this is the same as bringing them for all sessions. The others hold orderly stops,
and putting those in order again, links included, leaves them as they are.
-/

namespace Snippets

namespace LiveStop

/-- Orderly stops are left as they are: a stop that lists the rest of its group in order lists it as
linking does. -/
theorem Orderly.normal {stops : List LiveStop} (h : Orderly stops) : Normal stops := by
  refine ⟨h.upright, h.sorted.imp le_iff_sortKey_le.mpr, List.ext_getElem? fun i => ?_⟩
  rw [getElem?_link]
  cases hi : stops[i]? with
  | none => rfl
  | some s =>
    have hlinks : linksAt stops s i = s.linked := by
      refine (linksAt_ascending stops s i).eq_of_mem_iff
        (h.ascending s (List.mem_of_getElem? hi)) fun j => ?_
      rw [mem_linksAt, h.linked i s hi]
    rw [Option.map_some, hlinks]

end LiveStop

namespace Stack

/-! ## Stacks that effects lead to -/

/-- Effects of any kind lead to the stack. -/
inductive Reachable : Stack → Prop where
  | empty : Reachable {}
  | apply {s : Stack} (effect : Effect) : Reachable s → Reachable (s.apply effect)

variable {s : Stack}

theorem Reachable.applyAll (h : s.Reachable) (effects : List Effect) :
    (s.applyAll effects).Reachable := by
  induction effects generalizing s with
  | nil => exact h
  | cons effect rest ih => exact ih (h.apply effect)

theorem Reachable.remap (h : s.Reachable) (c : Change) (length : Nat) :
    (s.remap c length).Reachable := h.applyAll _

theorem Reachable.sound (h : s.Reachable) : s.Sound := by
  induction h with
  | empty => exact sound_empty
  | apply effect _ ih => exact ih.apply effect

end Stack

namespace Scene

variable {σ : Type} {s s' : Scene σ}

theorem reachable_effect (h : s.stack.Reachable) (e : Effect) : (s.effect e).stack.Reachable :=
  h.apply e

variable [Editor σ]

theorem reachable_runSync (op : Nat) (h : s.stack.Reachable) :
    (runSync op s).2.stack.Reachable := by
  unfold runSync
  dsimp only
  split
  · exact h
  · split
    · split
      · exact reachable_effect h _
      · exact h
    · split
      · exact h
      · exact reachable_effect (h.applyAll _) _

theorem Move.reachable (h : Move s s') (reachable : s.stack.Reachable) : s'.stack.Reachable := by
  cases h with
  | guard => exact reachable
  | surface => exact reachable
  | select => exact reachable
  | pop => exact reachable_effect reachable _
  | clear => exact reachable_effect reachable _
  | updateIndex => exact reachable_effect reachable _
  | stretch => exact reachable_effect reachable _
  | openSession => exact reachable_effect reachable _
  | carry surface c => exact reachable.remap c _
  | sync op => exact reachable_runSync op reachable

theorem Moves.reachable (h : Moves s s') (reachable : s.stack.Reachable) : s'.stack.Reachable := by
  induction h with
  | refl => exact reachable
  | tail _ hmove ih => exact hmove.reachable ih

/-- However the user works, the stack changes by effects only. -/
theorem Reach.reachable (h : Reach s) : s.stack.Reachable := by
  induction h with
  | start surface _ => exact .empty
  | step _ hstep _ ih => exact Moves.reachable hstep.moves ih

end Scene

namespace Stack

variable {s : Stack}

/-! ## Replacing every session -/

/-- The transitions that bring its carried stops to every session, moved or not, the outermost
first. -/
def everyReplacement (s : Stack) (c : Change) (length : Nat) : List Effect :=
  s.sessions.reverse.zipIdx.map fun (x, depth) =>
    .replace depth (remapStops x.stops x.current c length)

theorem applyAll_everyReplacement (s : Stack) (c : Change) (length : Nat) :
    s.applyAll (s.everyReplacement c length) =
      ⟨s.sessions.map (·.carry c length), s.nextId⟩ := by
  have hevery : s.everyReplacement c length =
      replacing (fun x => some (x.remap c length)) s.sessions :=
    zipIdx_replace_eq (·.remap c length) s.sessions
  rw [hevery]
  exact applyAll_replacing (fun x => some (x.remap c length)) [] s.sessions s.nextId

/-- Passing over the sessions that do not move makes no difference: every session ends with its own
stops carried and in order. -/
theorem Reachable.remap_eq_every (h : s.Reachable) {c : Change} (hc : c.edits ≠ []) (length : Nat) :
    s.remap c length = s.applyAll (s.everyReplacement c length) ∧
      s.remap c length = { s with sessions := s.sessions.map fun x =>
        { x with stops := LiveStop.normalize (remapStops x.stops x.current c length) } } := by
  -- A session that does not move holds orderly stops, so carrying it changes nothing either.
  have hcarry : s.remap c length = ⟨s.sessions.map (·.carry c length), s.nextId⟩ :=
    remap_eq_carry (fun x hx => (h.sound.orderly x hx).normal) hc length
  exact ⟨hcarry.trans (s.applyAll_everyReplacement c length).symm, hcarry⟩

def shortOnLong : Stack := applyAll {}
  [.push 1 [⟨⟨0, ⟨20, 20⟩, none, none⟩, []⟩, ⟨⟨1, ⟨9, 9⟩, none, some 0⟩, []⟩,
      ⟨⟨1, ⟨0, 2⟩, none, some 0⟩, []⟩],
    .push 2 [⟨⟨2, ⟨0, 1⟩, none, none⟩, []⟩]]

def insertedBehind : Change := ⟨[⟨⟨9, 9⟩, ['+', '+']⟩], .user⟩

theorem shortOnLong_every : shortOnLong.Reachable ∧ insertedBehind.edits ≠ [] ∧
    (shortOnLong.remapEffects insertedBehind 22).length = 1 ∧
    (shortOnLong.everyReplacement insertedBehind 22).length = 2 ∧
    shortOnLong.remap insertedBehind 22 =
      shortOnLong.applyAll (shortOnLong.everyReplacement insertedBehind 22) := by
  have hreachable : shortOnLong.Reachable := Reachable.empty.applyAll _
  exact ⟨hreachable, by decide, by decide +kernel, by decide +kernel,
    (hreachable.remap_eq_every (by decide) 22).1⟩

/-- A change without edits brings nothing, even where the document is too short for the stops. -/
example : shortOnLong.remap ⟨[], .user⟩ 5 = shortOnLong ∧
    shortOnLong.applyAll (shortOnLong.everyReplacement ⟨[], .user⟩ 5) ≠ shortOnLong := by
  decide +kernel

end Stack

end Snippets
