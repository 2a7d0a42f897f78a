import Snippets.Proofs.AnySurface

/-!
# Jumping through all sessions

A jump closes sessions from the inside until one of them has a stop to go to. The stops that are
still ahead in it become fewer with every jump, and syncs on the way only move stops. Main
statement: a jump lands on a stop or closes everything, and whoever keeps jumping gets out.
-/

namespace Snippets

namespace Session

variable {x x' : Session}

/-- The stops that jumps can still land on: none from the exit, else the exit and all higher
indices. -/
def ahead (x : Session) : Nat :=
  if x.current = 0 then 0 else x.labels.countP fun l => l.1 = 0 || x.current < l.1

theorem hasIndex_iff {index : Nat} : x.hasIndex index = true ↔ ∃ l ∈ x.labels, l.1 = index := by
  simp [hasIndex, labels, TabStop.label]

theorem Stays.hasIndex (h : x.Stays x') (index : Nat) : x'.hasIndex index = x.hasIndex index := by
  rw [Bool.eq_iff_iff, hasIndex_iff, hasIndex_iff]
  simp only [h.1.2.mem_iff]

theorem Stays.ahead (h : x.Stays x') : x'.ahead = x.ahead := by
  unfold Session.ahead
  rw [h.2, h.1.2.countP_eq]

theorem ahead_le (x : Session) : x.ahead ≤ x.stops.length := by
  unfold ahead
  split
  · exact Nat.zero_le _
  · exact List.countP_le_length.trans_eq (List.length_map _)

end Session

theorem countP_lt {α : Type} {p q : α → Bool} {l : List α} (sub : ∀ a ∈ l, p a → q a) {a : α}
    (ha : a ∈ l) (hp : p a = false) (hq : q a = true) : l.countP p < l.countP q := by
  obtain ⟨front, behind, rfl⟩ := List.append_of_mem ha
  have hfront : front.countP p ≤ front.countP q :=
    List.countP_mono_left fun b hb => sub b (List.mem_append_left _ hb)
  have hbehind : behind.countP p ≤ behind.countP q :=
    List.countP_mono_left fun b hb => sub b (List.mem_append_right _ (List.mem_cons_of_mem a hb))
  rw [List.countP_append, List.countP_append, List.countP_cons_of_neg (by simp [hp]),
    List.countP_cons_of_pos hq]
  omega

namespace Session

variable {x : Session}

/-- A jump within a session leaves fewer stops ahead. -/
theorem ahead_lt_of_next {index : Nat} (h : x.next? = some index) :
    x.hasIndex index = true ∧ ({ x with current := index }).ahead < x.ahead := by
  unfold next? at h
  split at h
  · cases h
  rename_i hcurrent
  split at h
  · rename_i hindex
    cases h
    obtain ⟨l, hl, hlabel⟩ := hasIndex_iff.mp hindex
    refine ⟨hindex, ?_⟩
    have hsame : ({ x with current := x.current + 1 } : Session).labels = x.labels := rfl
    unfold ahead
    rw [if_neg hcurrent, if_neg (Nat.succ_ne_zero _), hsame]
    refine countP_lt (fun a _ ha => ?_) hl ?_ ?_
    · simp only [Bool.or_eq_true, decide_eq_true_eq] at ha ⊢
      omega
    · simp only [Bool.or_eq_false_iff, decide_eq_false_iff_not]
      omega
    · simp only [Bool.or_eq_true, decide_eq_true_eq]
      omega
  · split at h
    · rename_i hindex
      cases h
      obtain ⟨l, hl, hlabel⟩ := hasIndex_iff.mp hindex
      refine ⟨hindex, ?_⟩
      unfold ahead
      rw [if_neg hcurrent, if_pos rfl]
      exact List.countP_pos_iff.mpr ⟨l, hl, by simp [hlabel]⟩
    · cases h

end Session

namespace Stack

def ahead : List Session → Nat
  | [] => 0
  | x :: outer => x.ahead + ahead outer

def totalStops (s : Stack) : Nat := (s.sessions.flatMap (·.stops)).length

theorem ahead_le_totalStops (s : Stack) : ahead s.sessions ≤ s.totalStops := by
  unfold totalStops
  induction s.sessions with
  | nil => exact Nat.le_refl _
  | cons x outer ih =>
    rw [ahead, List.flatMap_cons, List.length_append]
    exact Nat.add_le_add x.ahead_le ih

theorem ahead_of_stays {a b : List Session} (h : List.Forall₂ Session.Stays a b) :
    ahead b = ahead a := by
  induction h with
  | nil => rfl
  | cons hhead _ ih => rw [ahead, ahead, hhead.ahead, ih]

theorem ahead_append (a b : List Session) : ahead (a ++ b) = ahead a + ahead b := by
  induction a with
  | nil => exact (Nat.zero_add _).symm
  | cons x a ih => rw [List.cons_append, ahead, ahead, ih, Nat.add_assoc]

/-- The sessions around one that stays were there before, around the same one. -/
theorem exists_around {sessions closed outer : List Session} {top : Session}
    (h : List.Forall₂ Session.Stays sessions (closed ++ top :: outer)) :
    ∃ closed' top' outer', sessions = closed' ++ top' :: outer' ∧ top'.Stays top ∧
      List.Forall₂ Session.Stays outer' outer := by
  induction closed generalizing sessions with
  | nil =>
    cases h with
    | cons hhead htail => exact ⟨[], _, _, rfl, hhead, htail⟩
  | cons x closed ih =>
    cases h with
    | cons hhead htail =>
      obtain ⟨closed', top', outer', rfl, htop, houter⟩ := ih htail
      exact ⟨_ :: closed', top', outer', rfl, htop, houter⟩

end Stack

namespace Navigation

theorem exited_ne_moved (index : Nat) : exited ≠ moved index := by
  intro h
  cases h

theorem unavailable_ne_moved (reason : NavigationReason) (index : Nat) :
    unavailable reason ≠ moved index := by
  intro h
  cases h

end Navigation

namespace Scene

variable {σ : Type} [Surface σ]

theorem flushReference_stays (s : Scene σ) : s.stack.Stays s.flushReference.stack := by
  unfold flushReference
  split
  · exact flush_stays s
  · exact .refl _

theorem visit_sessions {s : Scene σ} {top : Session} {outer : List Session}
    (hs : s.stack.sessions = top :: outer) (index : Nat) :
    (s.visit index).stack.sessions = { top with current := index } :: outer := by
  simp [visit, effect, Stack.apply, hs]

inductive Jumped (top : Session) (outer : List Session) : Jump → List Session → Prop where
  | landed (index : Nat) (top' : Session) (outer' : List Session) : top.Continues top' →
      top'.current = index → top'.hasIndex index → top'.ahead < top.ahead →
      List.Forall₂ Session.Stays outer outer' → Jumped top outer (.landed index) (top' :: outer')
  | closed (result : Navigation) (outer' : List Session) : (∀ index, result ≠ .moved index) →
      List.Forall₂ Session.Stays outer outer' → Jumped top outer (.closed result) outer'

theorem flushReference_sessions {s : Scene σ} {top : Session} {outer : List Session}
    (hs : s.stack.sessions = top :: outer) :
    ∃ top' outer', s.flushReference.stack.sessions = top' :: outer' ∧ top.Stays top' ∧
      List.Forall₂ Session.Stays outer outer' := by
  have hstays := s.flushReference_stays.sessions
  rw [hs] at hstays
  cases hsessions : s.flushReference.stack.sessions with
  | nil =>
    rw [hsessions] at hstays
    cases hstays
  | cons top' outer' =>
    rw [hsessions] at hstays
    cases hstays with
    | cons hhead htail => exact ⟨top', outer', rfl, hhead, htail⟩

theorem jumped_visit {s : Scene σ} {top : Session} {outer : List Session}
    (hs : s.stack.sessions = top :: outer) {index : Nat} (hnext : top.next? = some index) :
    Jumped top outer (.landed index) (s.flushReference.visit index).stack.sessions := by
  obtain ⟨top', outer', hflushed, htop, houter⟩ := flushReference_sessions hs
  obtain ⟨hindex, hahead⟩ := Session.ahead_lt_of_next hnext
  rw [visit_sessions hflushed]
  have hsame : Session.Stays { top with current := index } { top' with current := index } :=
    ⟨htop.1, rfl⟩
  refine .landed index _ outer' htop.1 rfl ?_ ?_ houter
  · rw [hsame.hasIndex]
    exact hindex
  · rw [hsame.ahead]
    exact hahead

theorem jumped_close {s : Scene σ} {top : Session} {outer : List Session}
    (hs : s.stack.sessions = top :: outer) {result : Navigation}
    (unmoved : ∀ index, result ≠ .moved index) :
    Jumped top outer (.closed result) (s.flushReference.effect .pop).stack.sessions := by
  obtain ⟨top', outer', hflushed, _, houter⟩ := flushReference_sessions hs
  rw [effect, Stack.apply, hflushed]
  exact .closed result _ unmoved houter

theorem jumped {s : Scene σ} {top : Session} {outer : List Session}
    (hs : s.stack.sessions = top :: outer) :
    Jumped top outer (s.jumpFrom top).1 (s.jumpFrom top).2.stack.sessions := by
  unfold jumpFrom
  split
  · rename_i hnext
    dsimp only
    split
    · exact jumped_close hs Navigation.exited_ne_moved
    · exact jumped_visit hs hnext
  · rename_i index hnext
    exact jumped_visit hs hnext
  · split
    · rw [effect, Stack.apply, hs]
      exact .closed _ _ Navigation.exited_ne_moved (Stack.forall₂_stays outer)
    · exact jumped_close hs (Navigation.unavailable_ne_moved _)

/-- What a jump does to the sessions: it closes some from the inside and lands in the next one, or
it closes all. -/
inductive Navigated (sessions : List Session) : Navigation → List Session → Prop where
  | moved (index : Nat) (closed : List Session) (top : Session) (outer : List Session)
      (top' : Session) (outer' : List Session) : sessions = closed ++ top :: outer →
      top.Continues top' → top'.current = index → top'.hasIndex index → top'.ahead < top.ahead →
      List.Forall₂ Session.Stays outer outer' → Navigated sessions (.moved index) (top' :: outer')
  | emptied (result : Navigation) : (∀ index, result ≠ .moved index) → Navigated sessions result []

theorem Navigated.close {result : Navigation} {top : Session} {outer outer' after : List Session}
    (stays : List.Forall₂ Session.Stays outer outer') (h : Navigated outer' result after) :
    Navigated (top :: outer) result after := by
  cases h with
  | moved index closed inner rest inner' rest' hs hcontinues hcurrent hindex hahead hrest =>
    rw [hs] at stays
    obtain ⟨closed', inner₀, rest₀, rfl, hinner, hrest₀⟩ := Stack.exists_around stays
    exact .moved index (top :: closed') inner₀ rest₀ inner' rest' rfl
      (hinner.1.trans hcontinues) hcurrent hindex (hinner.ahead ▸ hahead)
      (Stack.forall₂_stays_trans hrest₀ hrest)
  | emptied _ hunmoved => exact .emptied result hunmoved

theorem jumpRounds_navigated (rounds : Nat) (result : Navigation)
    (unmoved : ∀ index, result ≠ .moved index) (s : Scene σ)
    (enough : s.stack.sessions.length ≤ rounds) :
    Navigated s.stack.sessions (jumpRounds rounds result s).1
      (jumpRounds rounds result s).2.stack.sessions := by
  induction rounds generalizing result s with
  | zero =>
    have hempty := List.length_eq_zero_iff.mp (Nat.le_zero.mp enough)
    rw [jumpRounds, hempty]
    exact .emptied result unmoved
  | succ rounds ih =>
    cases hs : s.stack.sessions with
    | nil =>
      have htop : s.stack.top? = none := by rw [Stack.top?, hs]; rfl
      rw [jumpRounds, htop, hs]
      exact .emptied result unmoved
    | cons top outer =>
      have htop : s.stack.top? = some top := by rw [Stack.top?, hs]; rfl
      have hjumped := jumped hs
      rw [jumpRounds, htop]
      dsimp only
      cases hjump : s.jumpFrom top with
      | mk jump s' =>
        rw [hjump] at hjumped
        generalize hafter : s'.stack.sessions = after at hjumped
        cases hjumped with
        | landed index top' outer' hcontinues hcurrent hindex hahead houter =>
          dsimp only
          rw [hafter]
          exact .moved index [] top outer top' outer' rfl hcontinues hcurrent hindex hahead houter
        | closed result' _ hunmoved houter =>
          rw [hs, List.length_cons, houter.length_eq, ← hafter] at enough
          have hrest := ih result' hunmoved s' (Nat.le_of_succ_le_succ enough)
          rw [hafter] at hrest
          exact hrest.close houter

theorem jumpNext_of_inactive {s : Scene σ} (h : s.stack.sessions = []) :
    s.jumpNext = (.unavailable .noActiveSession, s) := by
  simp [jumpNext, isActive, h]

theorem navigated (s : Scene σ) :
    Navigated s.stack.sessions s.jumpNext.1 s.jumpNext.2.stack.sessions := by
  cases hs : s.stack.sessions with
  | nil =>
    rw [jumpNext_of_inactive hs, hs]
    exact .emptied _ (Navigation.unavailable_ne_moved _)
  | cons top outer =>
    have hactive : s.isActive = true := by simp [isActive, hs]
    rw [jumpNext, if_pos hactive, ← hs]
    exact jumpRounds_navigated s.stack.depth .exited Navigation.exited_ne_moved s (Nat.le_refl _)

/-- A jump that lands leaves fewer stops ahead. -/
theorem Navigated.ahead_lt {sessions after : List Session} {result : Navigation}
    (h : Navigated sessions result after) :
    after = [] ∨ Stack.ahead after < Stack.ahead sessions := by
  cases h with
  | moved index closed top outer top' outer' hs _ _ _ hahead houter =>
    right
    rw [hs, Stack.ahead_append, Stack.ahead, Stack.ahead, Stack.ahead_of_stays houter]
    omega
  | emptied => exact Or.inl rfl

theorem jumpNext_empties (calls : Nat) (s : Scene σ)
    (enough : s.stack.sessions = [] ∨ Stack.ahead s.stack.sessions < calls) :
    ((fun s => s.jumpNext.2)^[calls] s).stack.sessions = [] := by
  induction calls generalizing s with
  | zero =>
    rcases enough with hs | hlt
    · exact hs
    · exact absurd hlt (Nat.not_lt_zero _)
  | succ calls ih =>
    rw [Function.iterate_succ_apply]
    apply ih
    rcases enough with hs | hlt
    · rw [jumpNext_of_inactive hs]
      exact Or.inl hs
    · rcases s.navigated.ahead_lt with hs | hless
      · exact Or.inl hs
      · right
        omega

/-- A jump lands on a stop of the innermost session that it leaves open, whose index is current
then, or it closes every session. What it closes are the innermost sessions, and the others stay.
Whoever jumps more often than there are stops has closed every session. -/
theorem jumpNext_navigates (s : Scene σ) :
    Navigated s.stack.sessions s.jumpNext.1 s.jumpNext.2.stack.sessions ∧
      ∀ calls, s.stack.totalStops < calls →
        ((fun s => s.jumpNext.2)^[calls] s).stack.sessions = [] := by
  refine ⟨s.navigated, fun calls hcalls => jumpNext_empties calls s (Or.inr ?_)⟩
  exact Nat.lt_of_le_of_lt s.stack.ahead_le_totalStops hcalls

end Scene

end Snippets
