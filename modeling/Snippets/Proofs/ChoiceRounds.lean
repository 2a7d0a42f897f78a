import Mathlib.Data.List.Induction
import Mathlib.Data.List.Nodup
import Mathlib.Logic.Function.Iterate
import Snippets.Scene.Navigation

/-!
# Rounds of choices

The next choice is the one behind the first place where the list has the shown text. Main statement:
asking for it again and again shows every text of the list exactly when the list is a round of
different texts that may be followed by more of them, the first one first.
-/

namespace Snippets.Scene

/-- Different texts, and behind them only some of the same, beginning with the first. -/
def OneRound (choices : List Text) : Prop :=
  ∃ round rest, choices = round ++ rest ∧ round.Nodup ∧ (∀ c ∈ rest, c ∈ round) ∧
    (rest ≠ [] → rest.head? = round.head?)

theorem oneRound_of_nodup {choices : List Text} (h : choices.Nodup) : OneRound choices :=
  ⟨choices, [], (List.append_nil _).symm, h, by simp, by simp⟩

theorem nextChoice_mem {choices : List Text} (h : choices ≠ []) (shown : Text) :
    nextChoice choices shown ∈ choices := by
  have hpos : 0 < choices.length := List.length_pos_iff.mpr h
  have hin (i : Nat) (hi : i < choices.length) : choices[i]?.getD [] ∈ choices := by
    rw [List.getElem?_eq_getElem hi, Option.getD_some]
    exact List.getElem_mem hi
  unfold nextChoice
  cases choices.idxOf? shown with
  | none => exact hin 0 hpos
  | some i => exact hin _ (Nat.mod_lt _ hpos)

theorem iterate_nextChoice_mem {choices : List Text} {shown : Text} (h : shown ∈ choices)
    (k : Nat) : (nextChoice choices)^[k] shown ∈ choices := by
  cases k with
  | zero => exact h
  | succ k =>
    rw [Function.iterate_succ_apply']
    exact nextChoice_mem (List.ne_nil_of_mem h) _

section

variable {round rest : List Text} (nodup : round.Nodup)

include nodup

theorem idxOf?_round {i : Nat} (hi : i < round.length) :
    (round ++ rest).idxOf? round[i] = some i := by
  rw [List.idxOf?_eq_some_iff]
  refine ⟨by rw [List.length_append]; omega, List.getElem_append_left hi, fun j hj heq => ?_⟩
  rw [List.getElem_append_left (by omega)] at heq
  exact absurd ((List.Nodup.getElem_inj_iff nodup).mp heq) (by omega)

theorem nextChoice_round {i : Nat} (hi : i + 1 < round.length) :
    nextChoice (round ++ rest) round[i] = round[i + 1] := by
  have hlt : i + 1 < (round ++ rest).length := by
    rw [List.length_append]
    omega
  simp only [nextChoice, idxOf?_round nodup (Nat.lt_of_succ_lt hi), Nat.mod_eq_of_lt hlt,
    List.getElem?_eq_getElem hlt, Option.getD_some]
  exact List.getElem_append_left hi

/-- The last text of the round is followed by what stands behind the round, or by the first text. -/
theorem nextChoice_last {i : Nat} (hi : i + 1 = round.length) :
    some (nextChoice (round ++ rest) round[i]) = (rest ++ round).head? := by
  have hfound : (round ++ rest).idxOf? round[i] = some i := idxOf?_round nodup (by omega)
  cases rest with
  | nil =>
    rw [List.append_nil] at hfound ⊢
    simp only [nextChoice, hfound, hi, Nat.mod_self, List.nil_append]
    rw [List.head?_eq_getElem?, List.getElem?_eq_getElem (by omega), Option.getD_some]
  | cons r rest =>
    have hlt : i + 1 < (round ++ r :: rest).length := by
      rw [List.length_append, List.length_cons]
      omega
    simp only [nextChoice, hfound, Nat.mod_eq_of_lt hlt, List.getElem?_eq_getElem hlt,
      Option.getD_some]
    simp [hi]

/-- A list that repeats a text of the round behind it never leaves the round. -/
theorem nextChoice_mem_round (back : ∀ r ∈ rest.head?, r ∈ round) {shown : Text}
    (h : shown ∈ round) : nextChoice (round ++ rest) shown ∈ round := by
  obtain ⟨i, hi, rfl⟩ := List.mem_iff_getElem.mp h
  rcases Nat.lt_or_ge (i + 1) round.length with hlt | hge
  · rw [nextChoice_round nodup hlt]
    exact List.getElem_mem hlt
  · have hlast : some (nextChoice (round ++ rest) round[i]) = (rest ++ round).head? :=
      nextChoice_last nodup (by omega)
    cases rest with
    | nil => exact List.mem_of_mem_head? hlast.symm
    | cons r rest =>
      rw [Option.some.inj hlast]
      exact back r rfl

theorem iterate_nextChoice_mem_round (back : ∀ r ∈ rest.head?, r ∈ round) {shown : Text}
    (h : shown ∈ round) (k : Nat) : (nextChoice (round ++ rest))^[k] shown ∈ round := by
  induction k with
  | zero => exact h
  | succ k ih =>
    rw [Function.iterate_succ_apply']
    exact nextChoice_mem_round nodup back ih

theorem iterate_nextChoice_round (again : rest ≠ [] → rest.head? = round.head?) {i : Nat}
    (hi : i < round.length) (k : Nat) :
    some ((nextChoice (round ++ rest))^[k] round[i]) = round[(i + k) % round.length]? := by
  induction k with
  | zero => rw [Nat.add_zero, Nat.mod_eq_of_lt hi, List.getElem?_eq_getElem hi]; rfl
  | succ k ih =>
    have hlt : (i + k) % round.length < round.length := Nat.mod_lt _ (by omega)
    rw [List.getElem?_eq_getElem hlt] at ih
    rw [Function.iterate_succ_apply', Option.some.inj ih, ← Nat.add_assoc]
    rcases Nat.lt_or_ge ((i + k) % round.length + 1) round.length with hin | hout
    · have hmod : (i + k + 1) % round.length = (i + k) % round.length + 1 := by
        rw [← Nat.mod_add_mod, Nat.mod_eq_of_lt hin]
      rw [nextChoice_round nodup hin, hmod, List.getElem?_eq_getElem hin]
    · have hlast : (i + k) % round.length + 1 = round.length := by omega
      have hfirst : (rest ++ round).head? = round.head? := by
        cases rest with
        | nil => rfl
        | cons r rest => exact again (List.cons_ne_nil _ _)
      rw [nextChoice_last nodup hlast, hfirst, ← Nat.mod_add_mod, hlast, Nat.mod_self,
        List.head?_eq_getElem?]

end

/-- Every list begins with a round: it ends where a text comes a second time. -/
theorem exists_round (choices : List Text) : ∃ round rest, choices = round ++ rest ∧ round.Nodup ∧
    ∀ r ∈ rest.head?, r ∈ round := by
  induction choices using List.reverseRecOn with
  | nil => exact ⟨[], [], rfl, List.nodup_nil, by simp⟩
  | append_singleton front c ih =>
    obtain ⟨round, rest, rfl, hnodup, hback⟩ := ih
    cases rest with
    | cons r rest => exact ⟨round, r :: rest ++ [c], by simp, hnodup, hback⟩
    | nil =>
      by_cases hc : c ∈ round
      · exact ⟨round, [c], by simp, hnodup, by simpa using hc⟩
      · refine ⟨round ++ [c], [], by simp, ?_, by simp⟩
        rw [← List.concat_eq_append]
        exact hnodup.concat hc

/-- A text that is shown again after the round has been entered is a text of the round. -/
theorem mem_round_of_shown {round rest : List Text} (nodup : round.Nodup)
    (back : ∀ r ∈ rest.head?, r ∈ round) {live : Text} {k p : Nat}
    (enters : (nextChoice (round ++ rest))^[k] live ∈ round)
    (again : (nextChoice (round ++ rest))^[p + 1] live = live) : live ∈ round := by
  have hmany : (nextChoice (round ++ rest))^[(p + 1) * k] live = live := by
    rw [Function.iterate_mul]
    exact Function.iterate_fixed again k
  have hlate : (p + 1) * k = p * k + k := Nat.succ_mul p k
  rw [hlate, Function.iterate_add_apply] at hmany
  rw [← hmany]
  exact iterate_nextChoice_mem_round nodup back enters _

/-- If the first text of the round is shown again, then behind the round it stands first. -/
theorem head?_of_shown_first {round rest : List Text} (nodup : round.Nodup) {before first : Text}
    (h : before ∈ round) (hfirst : round.head? = some first)
    (shown : nextChoice (round ++ rest) before = first) :
    (rest ++ round).head? = round.head? := by
  obtain ⟨i, hi, rfl⟩ := List.mem_iff_getElem.mp h
  rcases Nat.lt_or_ge (i + 1) round.length with hlt | hge
  · rw [nextChoice_round nodup hlt] at shown
    have hzero : round[0] = first := by
      rw [List.head?_eq_getElem?, List.getElem?_eq_getElem (by omega)] at hfirst
      exact Option.some.inj hfirst
    exact absurd ((List.Nodup.getElem_inj_iff nodup).mp (shown.trans hzero.symm)) (by omega)
  · rw [← nextChoice_last nodup (show i + 1 = round.length by omega), shown, hfirst]

/-- As many steps as the list has entries show all of them exactly when the list is one round. -/
theorem shows_all_iff {choices : List Text} {live : Text} (h : live ∈ choices) :
    (∀ c ∈ choices, ∃ k < choices.length, (nextChoice choices)^[k + 1] live = c) ↔
      OneRound choices := by
  constructor
  · intro hall
    obtain ⟨round, rest, rfl, hnodup, hback⟩ := exists_round choices
    cases hfirst : round.head? with
    | none =>
      obtain rfl := List.head?_eq_none_iff.mp hfirst
      cases rest with
      | nil => cases h
      | cons r rest => cases hback r rfl
    | some first =>
      have hmem : first ∈ round := List.mem_of_mem_head? hfirst
      obtain ⟨k, -, hk⟩ := hall first (List.mem_append_left _ hmem)
      obtain ⟨p, -, hp⟩ := hall live h
      have hlive : live ∈ round := mem_round_of_shown hnodup hback (hk ▸ hmem) hp
      refine ⟨round, rest, rfl, hnodup, fun c hc => ?_, fun hne => ?_⟩
      · obtain ⟨j, -, hj⟩ := hall c (List.mem_append_right _ hc)
        rw [← hj]
        exact iterate_nextChoice_mem_round hnodup hback hlive _
      · rw [Function.iterate_succ_apply'] at hk
        have hhead := head?_of_shown_first hnodup
          (iterate_nextChoice_mem_round hnodup hback hlive k) hfirst hk
        rwa [List.head?_append_of_ne_nil rest hne] at hhead
  · rintro ⟨round, rest, rfl, hnodup, hsame, hagain⟩ c hc
    have hround {c : Text} (hc : c ∈ round ++ rest) : c ∈ round :=
      (List.mem_append.mp hc).elim id (hsame c)
    obtain ⟨i, hi, rfl⟩ := List.mem_iff_getElem.mp (hround h)
    obtain ⟨j, hj, rfl⟩ := List.mem_iff_getElem.mp (hround hc)
    -- From place `i` on to place `j`, around the end of the round if `j` is not behind `i`.
    let k := if i < j then j - i - 1 else j + round.length - i - 1
    have hk : k < round.length ∧ (i + (k + 1)) % round.length = j := by
      unfold k
      split
      · rw [show i + (j - i - 1 + 1) = j by omega, Nat.mod_eq_of_lt hj]
        omega
      · rw [show i + (j + round.length - i - 1 + 1) = j + round.length by omega,
          Nat.add_mod_right, Nat.mod_eq_of_lt hj]
        omega
    refine ⟨k, by rw [List.length_append]; omega, Option.some.inj ?_⟩
    rw [iterate_nextChoice_round hnodup hagain hi, hk.2, List.getElem?_eq_getElem hj]

end Snippets.Scene
