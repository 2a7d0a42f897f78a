import Snippets.Proofs.Crossing
import Snippets.Proofs.GroupPlaces
import Snippets.Proofs.Placement

/-!
# Where the user is after a sync

The selection is carried along with the text, so it may touch other stops than before and end
elsewhere. In a group in line it makes no difference: the stop that the user is in afterwards has
the range of the one that was copied, and takes no more text than its own.
-/

namespace Snippets

namespace Session

variable {x : Session} {selection : Selection} {q : Nat}

/-- The current position is the first one that touches the head of the selection, or the first one
when none does. -/
theorem currentPosition?_cases (h : x.currentPosition? selection = some q) :
    ∃ stop, x.stops[q]? = some stop ∧ stop.index = x.current ∧
      ((stop.span.Touches selection.head ∧ ∀ k t, x.stops[k]? = some t → t.index = x.current →
          t.span.Touches selection.head → q ≤ k) ∨
        ∀ k t, x.stops[k]? = some t → t.index = x.current →
          ¬ t.span.Touches selection.head ∧ q ≤ k) := by
  have hfirst {P : LiveStop → Bool} (hfind : x.stops.findIdx? P = some q) :
      ∃ stop, x.stops[q]? = some stop ∧ P stop ∧ ∀ k t, x.stops[k]? = some t → P t → q ≤ k := by
    obtain ⟨hlt, hstop, hbefore⟩ := List.findIdx?_eq_some_iff_getElem.mp hfind
    refine ⟨_, List.getElem?_eq_getElem hlt, hstop, fun k t ht hP => ?_⟩
    by_contra hle
    obtain ⟨hk, rfl⟩ := List.getElem?_eq_some_iff.mp ht
    exact hbefore k (Nat.lt_of_not_le hle) hP
  unfold currentPosition? at h
  cases hfind : x.stops.findIdx? fun t => t.index == x.current && t.span.Touches selection.head with
  | some k =>
    rw [hfind, Option.some_or, Option.some_inj] at h
    rw [h] at hfind
    obtain ⟨stop, hstop, hP, hbefore⟩ := hfirst hfind
    simp only [Bool.and_eq_true, beq_iff_eq, decide_eq_true_eq] at hP hbefore
    refine ⟨stop, hstop, hP.1, Or.inl ⟨hP.2, fun k t ht hindex htouch => ?_⟩⟩
    exact hbefore k t ht ⟨hindex, htouch⟩
  | none =>
    rw [hfind, Option.none_or] at h
    obtain ⟨stop, hstop, hP, hbefore⟩ := hfirst h
    simp only [beq_iff_eq] at hP hbefore
    refine ⟨stop, hstop, hP, Or.inr fun k t ht hindex => ⟨fun htouch => ?_, hbefore k t ht hindex⟩⟩
    have hnone := List.findIdx?_eq_none_iff.mp hfind t (List.mem_of_getElem? ht)
    simp [hindex, htouch] at hnone

theorem mem_of_currentStop? {stop : LiveStop} (h : x.currentStop? selection = some stop) :
    stop ∈ x.stops ∧ stop.index = x.current := by
  obtain ⟨q, hq, hstop⟩ := Option.bind_eq_some_iff.mp h
  obtain ⟨stop', hstop', hindex, -⟩ := currentPosition?_cases hq
  obtain rfl := Option.some.inj (hstop.symm.trans hstop')
  exact ⟨List.mem_of_getElem? hstop, hindex⟩

theorem exists_currentPosition? {t : LiveStop} (ht : t ∈ x.stops) (hindex : t.index = x.current)
    (selection : Selection) : ∃ q, x.currentPosition? selection = some q := by
  unfold currentPosition?
  cases hfind : x.stops.findIdx? fun t => t.index == x.current && t.span.Touches selection.head with
  | some k => exact ⟨k, rfl⟩
  | none =>
    rw [Option.none_or, ← Option.isSome_iff_exists, positionOf?, List.findIdx?_isSome,
      List.any_eq_true]
    exact ⟨t, ht, by simpa using hindex⟩

end Session

namespace Sync

/-- An offset that is clear of all edits moves by the growth of those in front of it. -/
theorem Listed.landing_eq {edits : List (Nat × Edit)} {length x : Nat} {p : Nat × Edit → Bool}
    (h : Listed length edits)
    (down : ∀ a b, a.1 < b.1 ∧ a.2.span.Precedes b.2.span → p b → p a)
    (passed : ∀ c ∈ edits, p c → c.2.span.finish < x)
    (ahead : ∀ c ∈ edits, p c = false → x ≤ c.2.span.start) :
    Edit.landing x .before (edits.map (·.2)) = x + gainsOf edits p := by
  have hcut := filter_append_filter_not h.pairwise down
  have hordered := h.ordered
  rw [← hcut, List.map_append] at hordered ⊢
  rw [Edit.landing_append hordered]
  · rw [gainsOf, hcut]
  · intro e he
    obtain ⟨c, hc, rfl⟩ := List.mem_map.mp he
    exact passed c (List.mem_filter.mp hc).1 (List.mem_filter.mp hc).2
  · intro e he
    obtain ⟨c, hc, rfl⟩ := List.mem_map.mp he
    exact ahead c (List.mem_filter.mp hc).1 (by simpa using (List.mem_filter.mp hc).2)

namespace Site

variable {site : Site} {d : Document}

def landing (site : Site) (d : Document) (x : Nat) : Int :=
  Edit.landing x .before ((site.edits d).map (·.2))

namespace InLine

variable (h : site.InLine d) {origin : Origin}
  (hf : Batch.fault? ⟨(site.plan d).edits, origin⟩ d.text.length = none)
  (fits : d.text.length < 9223372036854775808)
  (fits' : (d.text.replaceFrom 0 ((site.edits d).map (·.2))).length < 9223372036854775808)

include h hf

theorem landing_of_clear {x : Nat}
    (clear : ∀ c ∈ site.edits d, c.2.span.finish < x ∨ x ≤ c.2.span.start) :
    site.landing d x = x + gainsOf (site.edits d) fun c => c.2.span.start < x := by
  refine (h.sound.listed hf).landing_eq (fun a b hab hb => ?_) (fun c hc hp => ?_) fun c hc hp => ?_
  · have := hab.2.1
    simp only [decide_eq_true_eq] at hb ⊢
    omega
  · simp only [decide_eq_true_eq] at hp
    rcases clear c hc with hpassed | hahead
    · exact hpassed
    · omega
  · simp only [decide_eq_false_iff_not] at hp
    omega

include fits fits'

variable {i : Nat} {a : LiveStop} (ha : site.Member i a) {x : Nat}

include ha

theorem moved_lt_landing (behind : site.reach d i a < x)
    (clear : ∀ c ∈ site.edits d, c.2.span.finish < x ∨ x ≤ c.2.span.start) :
    (site.moved d i a).finish < site.landing d x := by
  have hfinish := h.moved_finish ha hf fits fits'
  have hreach := h.start_le_reach ha
  have hroom := (h.sound.listed hf).gainsOf_le (p := fun c => decide (c.1 < i + 1))
    (q := fun c => decide (c.2.span.start < x)) (x := site.reach d i a) (y := x - 1)
    (fun c hc hlt => by
      obtain ⟨m, hm, _, hspan, _⟩ := h.member_of_edit hc
      simp only [decide_eq_true_eq, hspan] at hlt ⊢
      by_contra hle
      have := h.lt_of_start_lt ha hm (by omega)
      omega)
    (by omega) fun c hc hlt hnot => by
      obtain ⟨m, hm, _, hspan, _⟩ := h.member_of_edit hc
      simp only [decide_eq_true_eq, decide_eq_false_iff_not] at hlt hnot
      have hle := h.reach_le ha hm (by omega)
      have hclear := clear c hc
      rw [hspan] at hlt hclear ⊢
      omega
  rw [h.landing_of_clear hf clear]
  unfold lead at hfinish
  omega

theorem landing_lt_moved (front : x < a.span.start)
    (clear : ∀ c ∈ site.edits d, c.2.span.finish < x ∨ x < c.2.span.start) :
    site.landing d x < (site.moved d i a).start := by
  have hstart := h.moved_start ha hf fits fits'
  have hroom := (h.sound.listed hf).gainsOf_le (p := fun c => decide (c.2.span.start < x))
    (q := fun c => decide (c.1 < i)) (x := x + 1) (y := a.span.start)
    (fun c hc hlt => by
      obtain ⟨m, hm, _, hspan, _⟩ := h.member_of_edit hc
      simp only [decide_eq_true_eq, hspan] at hlt ⊢
      exact h.lt_of_start_lt hm ha (by omega))
    (by omega) fun c hc hlt hnot => by
      obtain ⟨m, hm, _, hspan, _⟩ := h.member_of_edit hc
      simp only [decide_eq_true_eq, decide_eq_false_iff_not] at hlt hnot
      have hapart := h.apart hm ha hlt
      have hup := h.member_upright hm
      have hclear := clear c hc
      rw [hspan] at hnot hclear ⊢
      omega
  rw [h.landing_of_clear hf fun c hc => (clear c hc).imp_right Nat.le_of_lt]
  unfold lead at hstart
  omega

omit fits fits' ha in
/-- Inside the source, and behind all members listed before it, an offset moves with the source. -/
theorem landing_inside (passed : ∀ i a, site.Member i a → i < site.current → a.span.finish < x)
    (inside : x ≤ (site.source d).finish) :
    site.landing d x = x + site.lead d site.current := by
  refine (h.sound.listed hf).landing_eq (p := fun c => decide (c.1 < site.current))
    (fun a b hab hb => ?_) (fun c hc hp => ?_) fun c hc hp => ?_
  · simp only [decide_eq_true_eq] at hb ⊢
    exact Nat.lt_trans hab.1 hb
  · obtain ⟨m, hm, _, hspan, _⟩ := h.member_of_edit hc
    rw [hspan]
    exact passed c.1 m hm (of_decide_eq_true hp)
  · exact Nat.le_trans inside (h.source_le_edit hc (of_decide_eq_false hp))

omit fits fits' ha in
/-- What lies in front of the end of the source is not carried past the end of the current stop. -/
theorem landing_le (inside : x ≤ (site.source d).finish) :
    site.landing d x ≤ (site.source d).finish + site.lead d site.current := by
  have listed := h.sound.listed hf
  have hcut := filter_append_filter_not (p := fun c => decide (c.1 < site.current)) listed.pairwise
    fun a b hab hb => by
      simp only [decide_eq_true_eq] at hb ⊢
      exact Nat.lt_trans hab.1 hb
  have hordered := listed.ordered
  have hmono : site.landing d x ≤ site.landing d (site.source d).finish :=
    Edit.landing_mono hordered inside
  refine Int.le_trans hmono ?_
  unfold landing
  rw [← hcut, List.map_append] at hordered ⊢
  refine Int.le_trans (Edit.landing_append_le hordered ?_ ?_) ?_
  · intro e he
    obtain ⟨c, hc, rfl⟩ := List.mem_map.mp he
    obtain ⟨hmem, hlt⟩ := List.mem_filter.mp hc
    obtain ⟨m, hm, _, hspan, _⟩ := h.member_of_edit hmem
    have hapart := h.apart hm h.member_current (of_decide_eq_true hlt)
    have hstart := h.sound.source_start
    have hsource := h.sound.source_bounds
    rw [hspan]
    omega
  · intro e he
    obtain ⟨c, hc, rfl⟩ := List.mem_map.mp he
    obtain ⟨hmem, hnot⟩ := List.mem_filter.mp hc
    exact h.source_le_edit hmem (by simpa using hnot)
  · exact Int.le_refl _

omit hf fits fits' ha in
/-- The members listed before the current stop end in front of the head of the selection, by which
it was picked. The head touches the current stop, or it touches no member and the current one is
first. -/
theorem picked {selection : Selection}
    (current : site.top.currentPosition? selection = some site.current) :
    (∀ i a, site.Member i a → i < site.current → a.span.finish < selection.head) ∧
      (site.stop.span.Touches selection.head ∨
        ∀ i a, site.Member i a → ¬ a.span.Touches selection.head ∧ site.current ≤ i) := by
  obtain ⟨stop, hstop, _, hpicked⟩ := Session.currentPosition?_cases current
  obtain rfl : stop = site.stop := Option.some.inj (hstop.symm.trans h.sound.stop)
  rcases hpicked with ⟨htouch, hfirst⟩ | hnone
  · refine ⟨fun i a ha hlt => ?_, Or.inl htouch⟩
    have hapart := h.apart ha h.member_current hlt
    have hup := h.member_upright ha
    by_contra hle
    unfold Span.Touches at htouch hfirst
    have := hfirst i a ha.stop ha.index (by omega)
    omega
  · refine ⟨fun i a ha hlt => ?_, Or.inr fun i a ha => hnone i a ha.stop ha.index⟩
    have := (hnone i a ha.stop ha.index).2
    omega

omit ha in
/-- A head in the source moves along with it. -/
theorem touches_of_inside {head : Nat} (carried : (head : Int) = site.landing d x)
    (before : ∀ i a, site.Member i a → i < site.current → a.span.finish < x)
    (inside : site.stop.span.start ≤ x ∧ x ≤ (site.source d).finish) :
    (site.moved d site.current site.stop).Touches head ∧
      ∀ i a, site.Member i a → (site.moved d i a).Touches head → site.current ≤ i := by
  have hland := h.landing_inside hf before inside.2
  have hstart := h.moved_start h.member_current hf fits fits'
  have hfinish := h.moved_finish h.member_current hf fits fits'
  rw [reach_current, h.lead_current] at hfinish
  refine ⟨by unfold Span.Touches; omega, fun i a ha htouch => ?_⟩
  by_contra hlt
  have hpassed := before i a ha (Nat.lt_of_not_le hlt)
  rw [← reach_of_ne (d := d) (show i ≠ site.current by omega)] at hpassed
  have hbehind := h.moved_lt_landing hf fits fits' ha hpassed fun c hc => by
    by_cases hfront : c.1 < site.current
    · obtain ⟨m, hm, _, hspan, _⟩ := h.member_of_edit hc
      exact Or.inl (hspan ▸ before c.1 m hm hfront)
    · exact Or.inr (Nat.le_trans inside.2 (h.source_le_edit hc hfront))
  unfold Span.Touches at htouch
  omega

/-- A head that is clear of the source and of all members stays clear of them. -/
theorem not_touches_of_outside {head : Nat} (carried : (head : Int) = site.landing d x)
    (outside : ¬ (site.stop.span.start ≤ x ∧ x ≤ (site.source d).finish))
    (far : ∀ i a, site.Member i a → ¬ a.span.Touches x) : ¬ (site.moved d i a).Touches head := by
  have hclear : ∀ c ∈ site.edits d, c.2.span.finish < x ∨ x < c.2.span.start := by
    intro c hc
    obtain ⟨m, hm, _, hspan, _⟩ := h.member_of_edit hc
    have hfar := far c.1 m hm
    unfold Span.Touches at hfar
    rw [hspan]
    omega
  have hside : site.reach d i a < x ∨ x < a.span.start := by
    by_cases hi : i = site.current
    · rw [h.eq_current ha hi, hi, reach_current]
      omega
    · have hfar := far i a ha
      unfold Span.Touches at hfar
      rw [reach_of_ne hi]
      omega
  intro htouch
  unfold Span.Touches at htouch
  rcases hside with hbehind | hfront
  · have := h.moved_lt_landing hf fits fits' ha hbehind fun c hc =>
      (hclear c hc).imp_right Nat.le_of_lt
    omega
  · have := h.landing_lt_moved hf fits fits' ha hfront hclear
    omega

omit ha in
/-- The head of the selection, by which the current stop was picked, touches the moved one and none
listed before it, or it touches none and the current stop is the first. -/
theorem lands {selection : Selection}
    (current : site.top.currentPosition? selection = some site.current) {head : Nat}
    (carried : (head : Int) = site.landing d selection.head) :
    ((site.moved d site.current site.stop).Touches head ∧ ∀ i a, site.Member i a →
        (site.moved d i a).Touches head → site.current ≤ i) ∨
      ∀ i a, site.Member i a → ¬ (site.moved d i a).Touches head ∧ site.current ≤ i := by
  obtain ⟨hbefore, hpicked⟩ := h.picked current
  by_cases hin : site.stop.span.start ≤ selection.head ∧ selection.head ≤ (site.source d).finish
  · exact Or.inl (h.touches_of_inside hf fits fits' carried hbefore hin)
  · have hfar : ∀ i a, site.Member i a → ¬ a.span.Touches selection.head ∧ site.current ≤ i := by
      rcases hpicked with htouch | hfar
      · have := h.sound.finish_le_source
        unfold Span.Touches at htouch
        omega
      · exact hfar
    refine Or.inr fun i a ha => ⟨?_, (hfar i a ha).2⟩
    exact h.not_touches_of_outside hf fits fits' ha carried hin fun j b hb => (hfar j b hb).1

end InLine

end Site

end Sync

end Snippets
