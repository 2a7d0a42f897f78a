import Snippets.Document

/-!
# Line starts

Main statement: the line of an offset begins behind the last complete line break that ends at or
before the offset, and the text of the line up to the offset is what stands from there on. A
carriage return in front of a line feed completes nothing.
-/

namespace Snippets

namespace Lines

def BreakEnds (t : Text) (x : Nat) : Prop :=
  ∃ k c, x = k + 1 ∧ t[k]? = some c ∧ isBreak c ∧ ¬ (c = '\r' ∧ t[k + 1]? = some '\n')

structure StartsAt (t : Text) (offset start : Nat) : Prop where
  start_le : start ≤ offset
  break_before : start = 0 ∨ BreakEnds t start
  last : ∀ x, BreakEnds t x → x ≤ offset → x ≤ start

variable {t rest front : Text} {c : Char} {x offset start : Nat}

theorem StartsAt.unique {start' : Nat} (h : StartsAt t offset start)
    (h' : StartsAt t offset start') : start = start' := by
  have hle : start ≤ start' := by
    rcases h.break_before with rfl | hbreak
    · exact Nat.zero_le _
    · exact h'.last start hbreak h.start_le
  have hge : start' ≤ start := by
    rcases h'.break_before with rfl | hbreak
    · exact Nat.zero_le _
    · exact h.last start' hbreak h'.start_le
  exact Nat.le_antisymm hle hge

theorem not_breakEnds_zero : ¬ BreakEnds t 0 := by
  rintro ⟨k, c, hk, _⟩
  omega

theorem not_breakEnds_nil : ¬ BreakEnds [] x := by
  rintro ⟨k, c, _, hc, _⟩
  rw [List.getElem?_nil] at hc
  cases hc

theorem breakEnds_cons : BreakEnds (c :: rest) (x + 1) ↔
    (x = 0 ∧ isBreak c ∧ ¬ (c = '\r' ∧ rest[0]? = some '\n')) ∨ BreakEnds rest x := by
  constructor
  · rintro ⟨k, b, hk, hb, hbreak, hpair⟩
    obtain rfl : x = k := by omega
    cases x with
    | zero =>
      obtain rfl : c = b := by simpa using hb
      exact Or.inl ⟨rfl, hbreak, hpair⟩
    | succ k => exact Or.inr ⟨k, b, rfl, hb, hbreak, hpair⟩
  · rintro (⟨rfl, hbreak, hpair⟩ | ⟨k, b, rfl, hb, hbreak, hpair⟩)
    · exact ⟨0, c, rfl, rfl, hbreak, hpair⟩
    · exact ⟨k + 1, b, rfl, hb, hbreak, hpair⟩

theorem breakEnds_cons_plain (hc : isBreak c = false) :
    BreakEnds (c :: rest) (x + 1) ↔ BreakEnds rest x := by
  rw [breakEnds_cons, hc]
  simp

def Leads (front rest : Text) : Prop :=
  ∀ x, BreakEnds (front ++ rest) x ↔
    x = front.length ∨ ∃ y, x = front.length + y ∧ BreakEnds rest y

theorem leads_single (hc : isBreak c) (alone : ¬ (c = '\r' ∧ rest[0]? = some '\n')) :
    Leads [c] rest := by
  intro x
  rw [List.singleton_append, List.length_singleton]
  cases x with
  | zero =>
    refine ⟨fun h => absurd h not_breakEnds_zero, ?_⟩
    rintro (hx | ⟨y, hx, _⟩)
    · omega
    · omega
  | succ x =>
    rw [breakEnds_cons]
    constructor
    · rintro (⟨rfl, _⟩ | hrest)
      · exact Or.inl rfl
      · exact Or.inr ⟨x, Nat.add_comm x 1, hrest⟩
    · rintro (hx | ⟨y, hx, hrest⟩)
      · exact Or.inl ⟨by omega, hc, alone⟩
      · obtain rfl : x = y := by omega
        exact Or.inr hrest

/-- The carriage return of a pair ends nothing: the pair is as its line feed, one place further. -/
theorem leads_pair : Leads ['\r', '\n'] rest := by
  have hfeed : Leads ['\n'] rest := leads_single (by decide) fun h => absurd h.1 (by decide)
  intro x
  change BreakEnds ('\r' :: ('\n' :: rest)) x ↔ x = 2 ∨ ∃ y, x = 2 + y ∧ BreakEnds rest y
  cases x with
  | zero =>
    refine ⟨fun h => absurd h not_breakEnds_zero, ?_⟩
    rintro (hx | ⟨y, hx, _⟩)
    · omega
    · omega
  | succ x =>
    have hreturn : ¬ (x = 0 ∧ isBreak '\r' ∧
        ¬ ('\r' = '\r' ∧ ('\n' :: rest)[0]? = some '\n')) := fun h => h.2.2 ⟨rfl, rfl⟩
    rw [breakEnds_cons, or_iff_right hreturn]
    refine (hfeed x).trans ?_
    rw [List.length_singleton]
    constructor
    · rintro (rfl | ⟨y, rfl, hrest⟩)
      · exact Or.inl rfl
      · exact Or.inr ⟨y, by omega, hrest⟩
    · rintro (hx | ⟨y, hx, hrest⟩)
      · exact Or.inl (by omega)
      · exact Or.inr ⟨y, by omega, hrest⟩

theorem Leads.startsAt_zero (h : Leads front rest) (inside : offset < front.length) :
    StartsAt (front ++ rest) offset 0 := by
  refine ⟨Nat.zero_le _, Or.inl rfl, fun x hx hle => ?_⟩
  rcases (h x).mp hx with rfl | ⟨y, rfl, _⟩
  · omega
  · omega

theorem Leads.startsAt_behind (h : Leads front rest) (behind : front.length ≤ offset)
    (hrest : StartsAt rest (offset - front.length) start) :
    StartsAt (front ++ rest) offset (front.length + start) := by
  constructor
  · have := hrest.start_le
    omega
  · right
    rcases hrest.break_before with rfl | hbreak
    · exact (h _).mpr (Or.inl rfl)
    · exact (h _).mpr (Or.inr ⟨start, rfl, hbreak⟩)
  · intro x hx hle
    rcases (h x).mp hx with rfl | ⟨y, rfl, hy⟩
    · omega
    · have := hrest.last y hy (by omega)
      omega

/-- A character that is no break moves the start of every line but the first. -/
theorem StartsAt.cons_plain (h : StartsAt rest offset start) (hc : isBreak c = false) :
    StartsAt (c :: rest) (offset + 1) (if start = 0 then 0 else start + 1) := by
  have hshift (x : Nat) (hx : BreakEnds (c :: rest) x) : ∃ y, x = y + 1 ∧ BreakEnds rest y := by
    cases x with
    | zero => exact absurd hx not_breakEnds_zero
    | succ y => exact ⟨y, rfl, (breakEnds_cons_plain hc).mp hx⟩
  by_cases hstart : start = 0
  · rw [if_pos hstart]
    refine ⟨Nat.zero_le _, Or.inl rfl, fun x hx hle => ?_⟩
    obtain ⟨y, rfl, hy⟩ := hshift x hx
    have hnone := h.last y hy (by omega)
    obtain rfl : y = 0 := by omega
    exact absurd hy not_breakEnds_zero
  · rw [if_neg hstart]
    have hbreak := h.break_before.resolve_left hstart
    refine ⟨Nat.succ_le_succ h.start_le, Or.inr ((breakEnds_cons_plain hc).mpr hbreak), ?_⟩
    intro x hx hle
    obtain ⟨y, rfl, hy⟩ := hshift x hx
    exact Nat.succ_le_succ (h.last y hy (by omega))

def startOf (lines : List Text) (offset : Nat) : Nat :=
  offsetAt lines ⟨(positionAt lines offset).line, 0⟩

variable {line next : Text} {lines more : List Text}

theorem startOf_single : startOf [line] offset = 0 := by
  simp [startOf, positionAt, offsetAt]

theorem startOf_first (h : offset < line.length) : startOf (line :: next :: more) offset = 0 := by
  simp [startOf, positionAt, offsetAt, h]

theorem startOf_later (h : line.length ≤ offset) : startOf (line :: next :: more) offset =
    line.length + startOf (next :: more) (offset - line.length) := by
  rw [startOf, positionAt, if_neg (Nat.not_lt.mpr h)]
  rfl

theorem exists_ofText (t : Text) : ∃ line more, ofText t = line :: more := by
  fun_induction ofText t with
  | case1 => exact ⟨_, _, rfl⟩
  | case2 rest ih => exact ⟨_, _, rfl⟩
  | case3 c rest _ hc ih => exact ⟨_, _, rfl⟩
  | case4 c rest _ hc ih =>
    obtain ⟨line, more, hrest⟩ := ih
    rw [hrest]
    exact ⟨_, _, rfl⟩

/-- What a text is cut into: every line but the last has characters, and the last has no break. -/
inductive Cut : List Text → Prop where
  | last {line : Text} : (∀ c ∈ line, isBreak c = false) → Cut [line]
  | cons {line next : Text} {more : List Text} : line ≠ [] → Cut (next :: more) →
      Cut (line :: next :: more)

theorem Cut.extendFirst {c : Char} (h : Cut lines) (hc : isBreak c = false) :
    Cut (extendFirst c lines) := by
  cases h with
  | last hplain => exact .last (List.forall_mem_cons.mpr ⟨hc, hplain⟩)
  | cons _ hmore => exact .cons (List.cons_ne_nil _ _) hmore

theorem Cut.behind {front : Text} (h : Cut lines) (hfront : front ≠ []) : Cut (front :: lines) := by
  cases h with
  | last hplain => exact .cons hfront (.last hplain)
  | cons hne hmore => exact .cons hfront (.cons hne hmore)

theorem cut_ofText (t : Text) : Cut (ofText t) := by
  fun_induction ofText t with
  | case1 => exact .last (by simp)
  | case2 rest ih => exact ih.behind (List.cons_ne_nil _ _)
  | case3 c rest _ hc ih => exact ih.behind (List.cons_ne_nil _ _)
  | case4 c rest _ hc ih => exact ih.extendFirst (by simpa using hc)

theorem line_ne_nil (h : ofText t = line :: next :: more) : line ≠ [] := by
  have hcut := cut_ofText t
  rw [h] at hcut
  cases hcut with
  | cons hne _ => exact hne

theorem startOf_extendFirst (c : Char) (t : Text) (offset : Nat) :
    startOf (extendFirst c (ofText t)) (offset + 1) =
      if startOf (ofText t) offset = 0 then 0 else startOf (ofText t) offset + 1 := by
  obtain ⟨line, more, ht⟩ := exists_ofText t
  rw [ht]
  cases more with
  | nil => rw [extendFirst, startOf_single, startOf_single, if_pos rfl]
  | cons next more =>
    rw [extendFirst]
    by_cases hin : offset < line.length
    · rw [startOf_first (by rw [List.length_cons]; omega), startOf_first hin, if_pos rfl]
    · have hlen : (c :: line).length ≤ offset + 1 := by
        rw [List.length_cons]
        omega
      have hne : line.length ≠ 0 := fun h => line_ne_nil ht (List.eq_nil_of_length_eq_zero h)
      rw [startOf_later hlen, startOf_later (Nat.not_lt.mp hin), if_neg (by omega),
        List.length_cons, Nat.add_sub_add_right]
      omega

theorem Leads.startsAt_startOf (h : Leads front rest)
    (hrest : ∀ offset, StartsAt rest offset (startOf (ofText rest) offset)) (offset : Nat) :
    StartsAt (front ++ rest) offset (startOf (front :: ofText rest) offset) := by
  obtain ⟨line, more, hlines⟩ := exists_ofText rest
  rw [hlines] at hrest ⊢
  by_cases hin : offset < front.length
  · rw [startOf_first hin]
    exact h.startsAt_zero hin
  · rw [startOf_later (Nat.not_lt.mp hin)]
    exact h.startsAt_behind (Nat.not_lt.mp hin) (hrest _)

theorem startsAt_startOf (t : Text) (offset : Nat) :
    StartsAt t offset (startOf (ofText t) offset) := by
  fun_induction ofText t generalizing offset with
  | case1 =>
    rw [startOf_single]
    exact ⟨Nat.zero_le _, Or.inl rfl, fun x hx _ => absurd hx not_breakEnds_nil⟩
  | case2 rest ih => exact leads_pair.startsAt_startOf ih offset
  | case3 c rest hpair hc ih =>
    have hleads : Leads [c] rest := by
      refine leads_single hc fun h => ?_
      cases rest with
      | nil => cases h.2
      | cons b rest => exact hpair rest h.1 (by simpa using h.2)
    exact hleads.startsAt_startOf ih offset
  | case4 c rest _ hc ih =>
    cases offset with
    | zero =>
      obtain ⟨line, more, hrest⟩ := exists_ofText rest
      have hzero : startOf (extendFirst c (ofText rest)) 0 = 0 := by
        rw [hrest]
        cases more with
        | nil => exact startOf_single
        | cons next more => exact startOf_first (Nat.succ_pos _)
      rw [hzero]
      exact ⟨Nat.le_refl _, Or.inl rfl, fun x _ hle => hle⟩
    | succ offset =>
      rw [startOf_extendFirst]
      exact (ih offset).cons_plain (by simpa using hc)

end Lines

/-- The text of a line up to an offset reaches back to the start of the line. -/
theorem Document.linePrefix_eq (d : Document) {offset : Nat} (inside : offset ≤ d.text.length) :
    ∃ start, Lines.StartsAt d.text offset start ∧
      Surface.linePrefix d offset = d.text.slice ⟨start, offset⟩ := by
  refine ⟨_, Lines.startsAt_startOf d.text offset, ?_⟩
  simp only [Surface.linePrefix, Surface.length, Surface.positionAt, Surface.offsetAt,
    Surface.slice, positionAt, offsetAt, Nat.min_eq_left inside]
  rfl

end Snippets
