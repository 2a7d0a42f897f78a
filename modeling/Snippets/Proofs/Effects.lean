import Mathlib.Data.Prod.Lex
import Snippets.Proofs.Placement

/-!
# Stacks under effects

Effects may come in any order and bring any stops. The stops of every session are upright, in order
and linked all the same, the ids of the sessions grow inwards, and no id is given out twice.
-/

namespace Snippets

namespace LiveStop

def sortKey (s : LiveStop) : ℕ ×ₗ ℕ ×ₗ Bool ×ₗ ℕ :=
  toLex (s.span.start, toLex (s.span.finish, toLex (s.index == 0, s.index)))

theorem rankLe_iff_toLex_le {a b : LiveStop} : rankLe a b = true ↔
    toLex (a.index == 0, a.index) ≤ toLex (b.index == 0, b.index) := by
  rw [rankLe_iff, Prod.Lex.toLex_le_toLex]
  by_cases ha : a.index = 0
  · by_cases hb : b.index = 0
    · simp [ha, hb]
    · simp [ha, hb]
  · by_cases hb : b.index = 0
    · simp [ha, hb, Bool.lt_iff]
    · simp [ha, beq_false_of_ne ha, beq_false_of_ne hb, hb]

theorem le_iff_sortKey_le {a b : LiveStop} : le a b = true ↔ a.sortKey ≤ b.sortKey := by
  simp only [le_iff, rankLe_iff_toLex_le, sortKey, Prod.Lex.toLex_le_toLex]

def SameGroup (s t : LiveStop) : Prop := ∃ group, s.group = some group ∧ t.group = some group

theorem SameGroup.symm {s t : LiveStop} (h : s.SameGroup t) : t.SameGroup s := by
  obtain ⟨group, hs, ht⟩ := h
  exact ⟨group, ht, hs⟩

structure Orderly (stops : List LiveStop) : Prop where
  upright : ∀ s ∈ stops, s.span.start ≤ s.span.finish
  sorted : stops.Pairwise fun a b => a.sortKey ≤ b.sortKey
  /-- A stop lists the positions of the other stops of its group, and nothing else. -/
  linked : ∀ (i : Nat) (s : LiveStop), stops[i]? = some s →
    ∀ j, j ∈ s.linked ↔ j ≠ i ∧ ∃ t, stops[j]? = some t ∧ s.SameGroup t
  /-- It lists each of them once. -/
  ascending : ∀ s ∈ stops, s.linked.Pairwise (· < ·)

theorem Orderly.irrefl {stops : List LiveStop} (h : Orderly stops) {i : Nat} {s : LiveStop}
    (hi : stops[i]? = some s) : i ∉ s.linked :=
  fun hself => ((h.linked i s hi i).mp hself).1 rfl

theorem Orderly.symm {stops : List LiveStop} (h : Orderly stops) {i j : Nat} {s t : LiveStop}
    (hi : stops[i]? = some s) (hj : stops[j]? = some t) (hlinked : j ∈ s.linked) :
    i ∈ t.linked := by
  obtain ⟨hne, t', ht', hgroup⟩ := (h.linked i s hi j).mp hlinked
  rw [hj] at ht'
  cases ht'
  exact (h.linked j t hj i).mpr ⟨hne.symm, s, hi, hgroup.symm⟩

theorem mem_linksAt {stops : List LiveStop} {s : LiveStop} {i j : Nat} :
    j ∈ linksAt stops s i ↔ j ≠ i ∧ ∃ t, stops[j]? = some t ∧ s.SameGroup t := by
  unfold linksAt SameGroup
  cases hgroup : s.group with
  | none => simp
  | some group =>
    rw [mem_members]
    simp [eq_comm]

theorem linksAt_ascending (stops : List LiveStop) (s : LiveStop) (i : Nat) :
    (linksAt stops s i).Pairwise (· < ·) := by
  unfold linksAt
  cases s.group with
  | none => exact .nil
  | some group => exact members_ascending stops group i

theorem Normal.linked_eq {stops : List LiveStop} (h : Normal stops) {i : Nat} {s : LiveStop}
    (hi : stops[i]? = some s) : s.linked = linksAt stops s i := by
  have hlink := getElem?_link stops i
  rw [h.linked, hi, Option.map_some, Option.some_inj] at hlink
  exact congrArg LiveStop.linked hlink

theorem Normal.orderly {stops : List LiveStop} (h : Normal stops) : Orderly stops where
  upright := h.upright
  sorted := h.sorted.imp le_iff_sortKey_le.mp
  linked i s hi j := by rw [h.linked_eq hi, mem_linksAt]
  ascending s hs := by
    obtain ⟨i, hi⟩ := List.mem_iff_getElem?.mp hs
    rw [h.linked_eq hi]
    exact linksAt_ascending stops s i

theorem normalize_normalize (stops : List LiveStop) :
    normalize (normalize stops) = normalize stops :=
  normalize_eq_self (normalize_normal stops)

end LiveStop

namespace Stack

variable {s : Stack}

def ids (s : Stack) : List Nat := s.sessions.map (·.id)

theorem map_id_replaceAt (depth : Nat) (stops : List LiveStop) (sessions : List Session) :
    (replaceAt depth stops sessions).map (·.id) = sessions.map (·.id) := by
  induction sessions with
  | nil => rfl
  | cons x outer ih =>
    rw [replaceAt]
    split
    · rfl
    · rw [List.map_cons, List.map_cons, ih]

/-- An effect opens one session with the next id, or it opens none. -/
theorem ids_apply (s : Stack) (effect : Effect) :
    ((s.apply effect).ids = s.nextId :: s.ids ∧ (s.apply effect).nextId = s.nextId + 1) ∨
      ((s.apply effect).ids.Sublist s.ids ∧ (s.apply effect).nextId = s.nextId) := by
  cases effect with
  | push current stops => exact Or.inl ⟨rfl, rfl⟩
  | pop =>
    refine Or.inr ⟨?_, rfl⟩
    exact (List.tail_sublist s.sessions).map _
  | updateIndex index =>
    refine Or.inr ?_
    cases hs : s.sessions with
    | nil => simp [apply, hs]
    | cons top outer => simp [apply, ids, hs]
  | replace depth stops =>
    refine Or.inr ⟨?_, rfl⟩
    rw [ids, apply, map_id_replaceAt]
    exact .refl _
  | clear => exact Or.inr ⟨List.nil_sublist _, rfl⟩

theorem nextId_le_apply (s : Stack) (effect : Effect) : s.nextId ≤ (s.apply effect).nextId := by
  rcases s.ids_apply effect with ⟨_, hnext⟩ | ⟨_, hnext⟩
  · rw [hnext]
    exact Nat.le_succ _
  · exact Nat.le_of_eq hnext.symm

def opened? (s : Stack) : Effect → Option Session
  | .push current stops => (s.apply (.push current stops)).top?
  | _ => none

def opened (s : Stack) : List Effect → List Session
  | [] => []
  | effect :: rest => (s.opened? effect).toList ++ (s.apply effect).opened rest

theorem opened?_eq_some {effect : Effect} {x : Session} (h : s.opened? effect = some x) :
    x.id = s.nextId ∧ (s.apply effect).nextId = s.nextId + 1 := by
  cases effect with
  | push current stops =>
    cases h
    exact ⟨rfl, rfl⟩
  | _ => cases h

theorem nextId_le_opened {effects : List Effect} {x : Session} (h : x ∈ s.opened effects) :
    s.nextId ≤ x.id := by
  induction effects generalizing s with
  | nil => cases h
  | cons effect rest ih =>
    rcases List.mem_append.mp h with h | h
    · exact Nat.le_of_eq (opened?_eq_some (Option.mem_toList.mp h)).1.symm
    · exact Nat.le_trans (s.nextId_le_apply effect) (ih h)

theorem opened_ascending (s : Stack) (effects : List Effect) :
    (s.opened effects).Pairwise fun x y => x.id < y.id := by
  induction effects generalizing s with
  | nil => exact .nil
  | cons effect rest ih =>
    refine List.pairwise_append.mpr ⟨?_, ih _, fun x hx y hy => ?_⟩
    · cases s.opened? effect with
      | none => exact .nil
      | some x => exact List.pairwise_singleton _ _
    · obtain ⟨hid, hnext⟩ := opened?_eq_some (Option.mem_toList.mp hx)
      have := nextId_le_opened hy
      omega

/-! ## What every effect keeps -/

structure Sound (s : Stack) : Prop where
  orderly : ∀ x ∈ s.sessions, LiveStop.Orderly x.stops
  /-- Ids grow inwards. -/
  inwards : s.ids.Pairwise (· > ·)
  issued : ∀ id ∈ s.ids, id < s.nextId

theorem sound_empty : Sound {} := by
  constructor
  · intro x hx
    cases hx
  · exact .nil
  · intro id hid
    cases hid

theorem Sound.apply_orderly (h : s.Sound) (effect : Effect) :
    ∀ x ∈ (s.apply effect).sessions, LiveStop.Orderly x.stops := by
  intro x hx
  cases effect with
  | push current stops =>
    rcases List.mem_cons.mp hx with rfl | hx
    · exact (LiveStop.normalize_normal stops).orderly
    · exact h.orderly x hx
  | pop => exact h.orderly x (List.mem_of_mem_tail hx)
  | updateIndex index =>
    have horderly := h.orderly
    cases hs : s.sessions with
    | nil => simp [Stack.apply, hs] at hx
    | cons top outer =>
      rw [hs] at horderly
      simp only [Stack.apply, hs] at hx
      rcases List.mem_cons.mp hx with rfl | hx
      · exact horderly top List.mem_cons_self
      · exact horderly x (List.mem_cons_of_mem top hx)
  | replace depth stops =>
    rcases mem_replaceAt hx with hx | hstops
    · exact h.orderly x hx
    · rw [hstops]
      exact (LiveStop.normalize_normal stops).orderly
  | clear => cases hx

theorem Sound.apply (h : s.Sound) (effect : Effect) : (s.apply effect).Sound := by
  refine ⟨h.apply_orderly effect, ?_, ?_⟩
  · rcases s.ids_apply effect with ⟨hids, _⟩ | ⟨hids, _⟩
    · rw [hids]
      exact List.pairwise_cons.mpr ⟨h.issued, h.inwards⟩
    · exact h.inwards.sublist hids
  · intro id hid
    rcases s.ids_apply effect with ⟨hids, hnext⟩ | ⟨hids, hnext⟩
    · rw [hids] at hid
      rw [hnext]
      rcases List.mem_cons.mp hid with rfl | hid
      · exact Nat.lt_succ_self _
      · exact Nat.lt_succ_of_lt (h.issued id hid)
    · rw [hnext]
      exact h.issued id (hids.subset hid)

theorem Sound.applyAll (h : s.Sound) (effects : List Effect) : (s.applyAll effects).Sound := by
  induction effects generalizing s with
  | nil => exact h
  | cons effect rest ih => exact ih (h.apply effect)

/-- After any effects the stops of every session are orderly, their links symmetric and never to
themselves, ids grow inwards and no two pushes were given one id. Putting stops in order repairs
inverted ranges and links, keeps everything else about the stops, and is done once and for all. -/
theorem applyAll_orderly (effects : List Effect) :
    (∀ x ∈ (applyAll {} effects).sessions, LiveStop.Orderly x.stops ∧
      ∀ (i : Nat) (s : LiveStop), x.stops[i]? = some s → i ∉ s.linked ∧
        ∀ (j : Nat) (t : LiveStop), x.stops[j]? = some t → (j ∈ s.linked ↔ i ∈ t.linked)) ∧
      (applyAll {} effects).ids.Pairwise (· > ·) ∧
      (opened {} effects).Pairwise (fun x y => x.id < y.id) ∧
      ∀ stops, ((LiveStop.normalize stops).map (·.toTabStop)).Perm
          (stops.map (·.upright.toTabStop)) ∧
        LiveStop.normalize (LiveStop.normalize stops) = LiveStop.normalize stops := by
  have hsound := sound_empty.applyAll effects
  refine ⟨fun x hx => ?_, hsound.inwards, opened_ascending {} effects, fun stops => ?_⟩
  · have horderly := hsound.orderly x hx
    refine ⟨horderly, fun i s hi => ⟨horderly.irrefl hi, fun j t hj => ?_⟩⟩
    exact ⟨horderly.symm hi hj, horderly.symm hj hi⟩
  · exact ⟨LiveStop.normalize_perm stops, LiveStop.normalize_normalize stops⟩

end Stack

end Snippets
