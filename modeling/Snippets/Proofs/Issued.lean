import Snippets.Proofs.Moves

/-!
# Session ids

Every id in use was given out before: the ids of the open sessions, and the id of the session that a
sync waits for. A session that is opened therefore finds no sync that was meant for another one.
-/

namespace Snippets

namespace Stack

def Issued (s : Stack) : Prop := ∀ x ∈ s.sessions, x.id < s.nextId

variable {s s' : Stack}

theorem exists_continues {kept sessions : List Session}
    (h : List.Forall₂ Session.Continues kept sessions) {x' : Session} (hx : x' ∈ sessions) :
    ∃ x ∈ kept, x.Continues x' := by
  induction h with
  | nil => cases hx
  | cons hhead _ ih =>
    rcases List.mem_cons.mp hx with rfl | hx
    · exact ⟨_, List.mem_cons_self, hhead⟩
    · obtain ⟨x, hmem, hcont⟩ := ih hx
      exact ⟨x, List.mem_cons_of_mem _ hmem, hcont⟩

/-- A session is one that was there before, or it was opened just now. -/
theorem Evolves.origin (h : s.Evolves s') {x' : Session} (hx : x' ∈ s'.sessions) :
    (∃ x ∈ s.sessions, x.Continues x') ∨ (x'.id = s.nextId ∧ x'.OfTemplate) := by
  cases h with
  | keep hsub hkept =>
    obtain ⟨x, hmem, hcont⟩ := exists_continues hkept hx
    exact Or.inl ⟨x, hsub.mem hmem, hcont⟩
  | push hid htemplate =>
    rcases List.mem_cons.mp hx with rfl | hx
    · exact Or.inr ⟨hid, htemplate⟩
    · exact Or.inl ⟨x', hx, .refl x'⟩

theorem Evolves.nextId_le (h : s.Evolves s') : s.nextId ≤ s'.nextId := by
  cases h with
  | keep => exact Nat.le_refl _
  | push => exact Nat.le_succ _

theorem Evolves.issued (h : s.Evolves s') (issued : s.Issued) : s'.Issued := by
  intro x' hx
  rcases h.origin hx with ⟨x, hmem, hcont⟩ | ⟨hid, _⟩
  · have := issued x hmem
    have := h.nextId_le
    have := hcont.1
    omega
  · cases h with
    | keep hsub hkept =>
      obtain ⟨x, hmem, hcont⟩ := exists_continues hkept hx
      exact hcont.1 ▸ issued x (hsub.mem hmem)
    | push => exact hid ▸ Nat.lt_succ_self _

end Stack

namespace Scene

variable {σ : Type}

structure Issued (s : Scene σ) : Prop where
  sessions : s.stack.Issued
  waiting : ∀ op id, s.guard.phase = .scheduled op id → id < s.stack.nextId

theorem issued_start (surface : σ) : (start surface).Issued := by
  constructor
  · intro x hx
    cases hx
  · intro op id hphase
    cases hphase

variable [Editor σ] {s s' : Scene σ}

theorem Move.issued (h : Move s s') (issued : s.Issued) : s'.Issued := by
  have hstack := h.evolves
  refine ⟨hstack.issued issued.sessions, fun op id hphase => ?_⟩
  have hwaiting (hphase : s.guard.phase = .scheduled op id) : id < s'.stack.nextId :=
    Nat.lt_of_lt_of_le (issued.waiting op id hphase) hstack.nextId_le
  cases h with
  | guard guard scheduled =>
    rcases scheduled op id hphase with hphase | ⟨top, htop, rfl⟩
    · exact hwaiting hphase
    · exact issued.sessions top (List.mem_of_head? htop)
  | sync op' => exact absurd hphase ((ran op' s).unscheduled op id)
  | _ => exact hwaiting hphase

theorem Moves.issued (h : Moves s s') (issued : s.Issued) : s'.Issued := by
  induction h with
  | refl => exact issued
  | tail _ hmove ih => exact hmove.issued ih

theorem Reach.issued (h : Reach s) : s.Issued := by
  induction h with
  | start surface _ => exact issued_start surface
  | step _ hstep _ ih => exact Moves.issued hstep.moves ih

end Scene

end Snippets
