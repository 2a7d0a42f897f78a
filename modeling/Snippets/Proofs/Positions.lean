import Snippets.Proofs.LineStarts

/-!
# Positions

A place in a text is named by an offset, or by a line and a column. Main statements: the position
of an offset leads back to the offset, later offsets have later positions, and a column past the end
of its line stays on the line exactly when a line feed or nothing ends the line.
-/

namespace Snippets

/-- Positions are compared by line, then by column. -/
instance : LT Position := ⟨fun p q => p.line < q.line ∨ (p.line = q.line ∧ p.column < q.column)⟩

theorem Position.lt_iff {p q : Position} :
    p < q ↔ p.line < q.line ∨ (p.line = q.line ∧ p.column < q.column) := Iff.rfl

instance (p q : Position) : Decidable (p < q) := decidable_of_iff _ Position.lt_iff.symm

namespace Lines

variable {lines more : List Text} {line next : Text} {p : Position} {l offset : Nat}

theorem flatten_extendFirst (c : Char) (lines : List Text) :
    (extendFirst c lines).flatten = c :: lines.flatten := by
  cases lines with
  | nil => rfl
  | cons line more => rfl

/-- The lines of a text add up to it. -/
theorem flatten_ofText (t : Text) : (ofText t).flatten = t := by
  fun_induction ofText t with
  | case1 => rfl
  | case2 rest ih => rw [List.flatten_cons, ih]; rfl
  | case3 c rest _ hc ih => rw [List.flatten_cons, ih]; rfl
  | case4 c rest _ hc ih => rw [flatten_extendFirst, ih]

theorem Cut.ne_nil (h : Cut lines) : lines ≠ [] := by
  cases h with
  | last => exact List.cons_ne_nil _ _
  | cons => exact List.cons_ne_nil _ _

theorem Cut.line_pos (h : Cut lines) (hl : lines[l]? = some line) (hnext : l + 1 < lines.length) :
    0 < line.length := by
  induction h generalizing l with
  | last _ => simp at hnext
  | cons hne _ ih =>
    cases l with
    | zero =>
      cases hl
      exact List.length_pos_iff.mpr hne
    | succ l => exact ih hl (Nat.lt_of_succ_lt_succ hnext)

theorem Cut.last_plain (h : Cut lines) (hl : lines[l]? = some line) (hlast : l + 1 = lines.length) :
    ∀ c ∈ line, isBreak c = false := by
  induction h generalizing l with
  | last hplain =>
    obtain rfl : l = 0 := by simpa using hlast
    cases hl
    exact hplain
  | cons _ _ ih =>
    cases l with
    | zero => simp at hlast
    | succ l => exact ih hl (Nat.succ.inj hlast)

theorem width_of_feed (h : line.getLast? = some '\n') : width line = line.length - 1 := if_pos h

theorem width_of_other (h : line.getLast? ≠ some '\n') : width line = line.length := if_neg h

theorem width_of_plain (h : ∀ c ∈ line, isBreak c = false) : width line = line.length := by
  refine width_of_other fun hfeed => ?_
  have hbreak : isBreak '\n' = false := h '\n' (List.mem_of_getLast? hfeed)
  cases hbreak

theorem width_le (line : Text) : width line ≤ line.length := by
  by_cases hfeed : line.getLast? = some '\n'
  · rw [width_of_feed hfeed]
    exact Nat.sub_le _ _
  · exact Nat.le_of_eq (width_of_other hfeed)

theorem le_width {column : Nat} (h : column < line.length) : column ≤ width line := by
  by_cases hfeed : line.getLast? = some '\n'
  · rw [width_of_feed hfeed]
    exact Nat.le_pred_of_lt h
  · rw [width_of_other hfeed]
    exact Nat.le_of_lt h

/-- Only a line feed is left out of the width. -/
theorem width_lt_iff (h : 0 < line.length) :
    width line < line.length ↔ line.getLast? = some '\n' := by
  by_cases hfeed : line.getLast? = some '\n'
  · rw [width_of_feed hfeed]
    exact iff_of_true (Nat.pred_lt_of_lt h) hfeed
  · rw [width_of_other hfeed]
    exact iff_of_false (Nat.lt_irrefl _) hfeed

theorem offsetAt_past (h : lines.length ≤ p.line) : offsetAt lines p = lines.flatten.length := by
  induction lines generalizing p with
  | nil => rfl
  | cons line more ih =>
    obtain ⟨l, column⟩ := p
    cases l with
    | zero => cases h
    | succ l =>
      rw [offsetAt, ih (Nat.le_of_succ_le_succ h), List.flatten_cons, List.length_append]

/-- The offset of a position is that of the start of the line and as much of the column as the line
is wide. -/
theorem offsetAt_eq (h : lines[l]? = some line) (column : Nat) :
    offsetAt lines ⟨l, column⟩ = offsetAt lines ⟨l, 0⟩ + min column (width line) := by
  induction lines generalizing l with
  | nil => cases h
  | cons first more ih =>
    cases l with
    | zero =>
      cases h
      rw [offsetAt, offsetAt, Nat.zero_min, Nat.zero_add]
    | succ l => rw [offsetAt, offsetAt, ih h, Nat.add_assoc]

theorem offsetAt_next (h : lines[l]? = some line) :
    offsetAt lines ⟨l + 1, 0⟩ = offsetAt lines ⟨l, 0⟩ + line.length := by
  induction lines generalizing l with
  | nil => cases h
  | cons first more ih =>
    cases l with
    | zero =>
      cases h
      cases more with
      | nil => simp [offsetAt]
      | cons next more => simp [offsetAt]
    | succ l =>
      rw [offsetAt, ih h, ← Nat.add_assoc]
      rfl

/-- The place is one of its line: in front of the end of it, or anywhere if no line follows. -/
def OnLine (lines : List Text) (p : Position) : Prop :=
  ∃ line, lines[p.line]? = some line ∧ (p.column < line.length ∨ p.line + 1 = lines.length)

theorem OnLine.behind (h : OnLine lines p) (front : Text) :
    OnLine (front :: lines) ⟨p.line + 1, p.column⟩ := by
  obtain ⟨line, hl, hplace⟩ := h
  exact ⟨line, hl, hplace.imp_right (congrArg Nat.succ)⟩

theorem positionAt_last (line : Text) (offset : Nat) : positionAt [line] offset = ⟨0, offset⟩ := rfl

theorem positionAt_first (h : offset < line.length) :
    positionAt (line :: next :: more) offset = ⟨0, offset⟩ := if_pos h

theorem positionAt_later (h : line.length ≤ offset) : positionAt (line :: next :: more) offset =
    ⟨(positionAt (next :: more) (offset - line.length)).line + 1,
      (positionAt (next :: more) (offset - line.length)).column⟩ :=
  if_neg (Nat.not_lt.mpr h)

theorem onLine_positionAt (h : lines ≠ []) (offset : Nat) :
    OnLine lines (positionAt lines offset) := by
  induction lines generalizing offset with
  | nil => exact absurd rfl h
  | cons line more ih =>
    cases more with
    | nil => exact ⟨line, rfl, Or.inr rfl⟩
    | cons next more =>
      by_cases hin : offset < line.length
      · rw [positionAt_first hin]
        exact ⟨line, rfl, Or.inl hin⟩
      · rw [positionAt_later (Nat.not_lt.mp hin)]
        exact (ih (List.cons_ne_nil _ _) _).behind line

/-- An offset is as far behind the start of its line as its column says. -/
theorem startOf_add_column (lines : List Text) (offset : Nat) :
    startOf lines offset + (positionAt lines offset).column = offset := by
  induction lines generalizing offset with
  | nil => simp [startOf, offsetAt, positionAt]
  | cons line more ih =>
    cases more with
    | nil => rw [startOf_single, Nat.zero_add, positionAt_last]
    | cons next more =>
      by_cases hin : offset < line.length
      · rw [startOf_first hin, Nat.zero_add, positionAt_first hin]
      · have hout := Nat.not_lt.mp hin
        rw [startOf_later hout, positionAt_later hout, Nat.add_assoc, ih]
        exact Nat.add_sub_cancel' hout

/-- No other place of a line has the offset. -/
theorem positionAt_of_onLine (h : OnLine lines p) :
    positionAt lines (offsetAt lines ⟨p.line, 0⟩ + p.column) = p := by
  obtain ⟨l, column⟩ := p
  induction lines generalizing l with
  | nil =>
    obtain ⟨line, hl, _⟩ := h
    cases hl
  | cons first more ih =>
    obtain ⟨line, hl, hplace⟩ := h
    cases more with
    | nil =>
      cases l with
      | zero => simp [positionAt, offsetAt]
      | succ l => cases hl
    | cons next more =>
      cases l with
      | zero =>
        cases hl
        have hin : column < first.length := hplace.resolve_right (by simp)
        simpa [offsetAt] using positionAt_first hin
      | succ l =>
        -- A later line starts behind the first one, so the search goes on behind it.
        have hmore : OnLine (next :: more) ⟨l, column⟩ :=
          ⟨line, hl, hplace.imp_right Nat.succ.inj⟩
        rw [offsetAt, Nat.add_assoc, positionAt_later (Nat.le_add_right _ _),
          Nat.add_sub_cancel_left, ih l hmore]

/-- Later offsets have later positions. -/
theorem positionAt_lt (lines : List Text) {offset offset' : Nat} (h : offset < offset') :
    positionAt lines offset < positionAt lines offset' := by
  induction lines generalizing offset offset' with
  | nil => exact Or.inr ⟨rfl, h⟩
  | cons line more ih =>
    cases more with
    | nil => exact Or.inr ⟨rfl, h⟩
    | cons next more =>
      by_cases hin' : offset' < line.length
      · rw [positionAt_first hin', positionAt_first (Nat.lt_trans h hin')]
        exact Or.inr ⟨rfl, h⟩
      · have hout' := Nat.not_lt.mp hin'
        rw [positionAt_later hout']
        by_cases hin : offset < line.length
        · rw [positionAt_first hin]
          exact Or.inl (Nat.succ_pos _)
        · have hout := Nat.not_lt.mp hin
          rw [positionAt_later hout]
          have hmore := ih (Nat.sub_lt_sub_right hout h)
          exact hmore.imp Nat.succ_lt_succ (And.imp_left (congrArg Nat.succ))

/-- The column of an offset in the text does not exceed the width of its line. -/
theorem Cut.offsetAt_positionAt (h : Cut lines) (inside : offset ≤ lines.flatten.length) :
    offsetAt lines (positionAt lines offset) = offset := by
  obtain ⟨line, hl, hplace⟩ := onLine_positionAt h.ne_nil offset
  have hcolumn : offsetAt lines ⟨(positionAt lines offset).line, 0⟩ +
      (positionAt lines offset).column = offset := startOf_add_column lines offset
  have hwidth : (positionAt lines offset).column ≤ width line := by
    rcases hplace with hin | hlast
    · exact le_width hin
    · -- Behind the last line nothing is left of the text.
      have hend := offsetAt_next hl
      rw [offsetAt_past (Nat.le_of_eq hlast.symm)] at hend
      rw [width_of_plain (h.last_plain hl hlast)]
      omega
  calc offsetAt lines (positionAt lines offset)
      = offsetAt lines ⟨(positionAt lines offset).line, 0⟩ +
          min (positionAt lines offset).column (width line) := offsetAt_eq hl _
    _ = offset := by rw [Nat.min_eq_left hwidth, hcolumn]

theorem offsetAt_le (lines : List Text) (p : Position) :
    offsetAt lines p ≤ lines.flatten.length := by
  fun_induction offsetAt lines p with
  | case1 => exact Nat.zero_le _
  | case2 line more column =>
    have := width_le line
    rw [List.flatten_cons, List.length_append]
    omega
  | case3 line more l column ih =>
    rw [List.flatten_cons, List.length_append]
    omega

theorem onLine_iff (hl : lines[l]? = some line) (column : Nat) :
    OnLine lines ⟨l, column⟩ ↔ column < line.length ∨ l + 1 = lines.length := by
  constructor
  · rintro ⟨line', hl', hplace⟩
    obtain rfl := Option.some.inj (hl.symm.trans hl')
    exact hplace
  · exact fun hplace => ⟨line, hl, hplace⟩

theorem Cut.onLine_start (h : Cut lines) (hl : l < lines.length) : OnLine lines ⟨l, 0⟩ := by
  have hline : lines[l]? = some lines[l] := List.getElem?_eq_getElem hl
  rw [onLine_iff hline]
  by_cases hlast : l + 1 = lines.length
  · exact Or.inr hlast
  · exact Or.inl (h.line_pos hline (by omega))

/-- The width of a line is one of its places, unless a break other than a line feed is in front of
the end of the line. -/
theorem Cut.onLine_width_iff (h : Cut lines) (hl : lines[l]? = some line) (column : Nat) :
    OnLine lines ⟨l, min column (width line)⟩ ↔
      column < line.length ∨ line.getLast? = some '\n' ∨ l + 1 = lines.length := by
  rw [onLine_iff hl]
  by_cases hlast : l + 1 = lines.length
  · exact iff_of_true (Or.inr hlast) (Or.inr (Or.inr hlast))
  · have hle := (List.getElem?_eq_some_iff.mp hl).1
    have hpos : 0 < line.length := h.line_pos hl (by omega)
    have hwidth := width_le line
    rw [← width_lt_iff hpos]
    omega

theorem Cut.positionAt_offsetAt (h : Cut lines) (hl : lines[l]? = some line) {column : Nat}
    (stays : column < line.length ∨ line.getLast? = some '\n' ∨ l + 1 = lines.length) :
    positionAt lines (offsetAt lines ⟨l, column⟩) = ⟨l, min column (width line)⟩ := by
  rw [offsetAt_eq hl]
  exact positionAt_of_onLine ((h.onLine_width_iff hl column).mpr stays)

/-- Any other column leads to the start of the next line. -/
theorem Cut.positionAt_offsetAt_beyond (h : Cut lines) (hl : lines[l]? = some line) {column : Nat}
    (leaves : ¬ (column < line.length ∨ line.getLast? = some '\n' ∨ l + 1 = lines.length)) :
    positionAt lines (offsetAt lines ⟨l, column⟩) = ⟨l + 1, 0⟩ := by
  obtain ⟨hcolumn, hother, hnext⟩ : line.length ≤ column ∧ line.getLast? ≠ some '\n' ∧
      l + 1 ≠ lines.length := by simpa [not_or] using leaves
  have hle := (List.getElem?_eq_some_iff.mp hl).1
  have hwidth := width_of_other hother
  have hoffset : offsetAt lines ⟨l, column⟩ = offsetAt lines ⟨l + 1, 0⟩ + 0 := by
    rw [offsetAt_eq hl, hwidth, Nat.min_eq_right hcolumn, offsetAt_next hl, Nat.add_zero]
  rw [hoffset]
  exact positionAt_of_onLine (h.onLine_start (by omega))

end Lines

namespace Document

def lines (d : Document) : List Text := Lines.ofText d.text

theorem cut_lines (d : Document) : Lines.Cut d.lines := Lines.cut_ofText d.text

theorem flatten_lines (d : Document) : d.lines.flatten = d.text := Lines.flatten_ofText d.text

theorem offsetAt_eq (d : Document) (p : Position) : d.offsetAt p = Lines.offsetAt d.lines p := rfl

theorem positionAt_eq (d : Document) {offset : Nat} (inside : offset ≤ d.text.length) :
    d.positionAt offset = Lines.positionAt d.lines offset := by
  rw [positionAt, Nat.min_eq_left inside, lines]

theorem offsetAt_le (d : Document) (p : Position) : d.offsetAt p ≤ d.text.length := by
  have hle := Lines.offsetAt_le d.lines p
  rwa [flatten_lines] at hle

theorem positionAt_offsetAt_eq (d : Document) (p : Position) :
    d.positionAt (d.offsetAt p) = Lines.positionAt d.lines (Lines.offsetAt d.lines p) :=
  d.positionAt_eq (d.offsetAt_le p)

/-- Offsets and positions name the same places in the same order, and a column counts the characters
behind the last complete line break. -/
theorem positions_convert (d : Document) :
    (∀ offset ≤ d.text.length, d.offsetAt (d.positionAt offset) = offset ∧
      ∃ start, Lines.StartsAt d.text offset start ∧ (d.positionAt offset).column = offset - start ∧
        Surface.linePrefix d offset = d.text.slice ⟨start, offset⟩) ∧
    ∀ offset offset', offset < offset' → offset' ≤ d.text.length →
      d.positionAt offset < d.positionAt offset' := by
  constructor
  · intro offset inside
    rw [d.positionAt_eq inside]
    constructor
    · rw [offsetAt_eq]
      exact d.cut_lines.offsetAt_positionAt (by rwa [flatten_lines])
    · obtain ⟨start, hstart, hprefix⟩ := d.linePrefix_eq inside
      have hline : Lines.StartsAt d.text offset (Lines.startOf d.lines offset) :=
        Lines.startsAt_startOf d.text offset
      have hcolumn := Lines.startOf_add_column d.lines offset
      rw [hline.unique hstart] at hcolumn
      exact ⟨start, hstart, Nat.eq_sub_of_add_eq' hcolumn, hprefix⟩
  · intro offset offset' hlt inside
    rw [d.positionAt_eq (Nat.le_trans (Nat.le_of_lt hlt) inside), d.positionAt_eq inside]
    exact Lines.positionAt_lt _ hlt

def mixedBreaks : Document := .ofText ['a', '\r', '\n', 'b', '\r', '\u2028', '\n', 'c', '\x0b']

theorem mixedBreaks_convert :
    (mixedBreaks.offsetAt (mixedBreaks.positionAt 2) = 2 ∧
      ∃ start, Lines.StartsAt mixedBreaks.text 2 start ∧
        (mixedBreaks.positionAt 2).column = 2 - start ∧
        Surface.linePrefix mixedBreaks 2 = mixedBreaks.text.slice ⟨start, 2⟩) ∧
      mixedBreaks.positionAt 2 < mixedBreaks.positionAt 9 := by
  obtain ⟨hback, hlater⟩ := positions_convert mixedBreaks
  exact ⟨hback 2 (by decide), hlater 2 9 (by decide) (by decide)⟩

example : (List.range 10).map mixedBreaks.positionAt = [⟨0, 0⟩, ⟨0, 1⟩, ⟨0, 2⟩, ⟨1, 0⟩, ⟨1, 1⟩,
    ⟨2, 0⟩, ⟨3, 0⟩, ⟨4, 0⟩, ⟨4, 1⟩, ⟨5, 0⟩] := by decide

/-- A column stays on its line exactly when it is in front of the end of the line, or when a line
feed or nothing ends the line; any other column is the start of the next line. Larger columns never
lead back. -/
theorem column_stays_iff (d : Document) {l : Nat} {line : Text}
    (hl : d.lines[l]? = some line) :
    (∀ column, d.offsetAt ⟨l, column⟩ ≤ d.text.length ∧
      ((d.positionAt (d.offsetAt ⟨l, column⟩)).line = l ↔
        column < line.length ∨ line.getLast? = some '\n' ∨ l + 1 = d.lines.length) ∧
      ((d.positionAt (d.offsetAt ⟨l, column⟩)).line ≠ l →
        d.positionAt (d.offsetAt ⟨l, column⟩) = ⟨l + 1, 0⟩)) ∧
    ∀ column column', column ≤ column' → d.offsetAt ⟨l, column⟩ ≤ d.offsetAt ⟨l, column'⟩ := by
  constructor
  · intro column
    rw [positionAt_offsetAt_eq]
    by_cases stays : column < line.length ∨ line.getLast? = some '\n' ∨ l + 1 = d.lines.length
    · have hline := congrArg Position.line (d.cut_lines.positionAt_offsetAt hl stays)
      exact ⟨d.offsetAt_le _, iff_of_true hline stays, fun hne => absurd hline hne⟩
    · have hnext := d.cut_lines.positionAt_offsetAt_beyond hl stays
      have hne : (Lines.positionAt d.lines (Lines.offsetAt d.lines ⟨l, column⟩)).line ≠ l := by
        rw [hnext]
        exact Nat.succ_ne_self l
      exact ⟨d.offsetAt_le _, iff_of_false hne stays, fun _ => hnext⟩
  · intro column column' hle
    rw [offsetAt_eq, offsetAt_eq, Lines.offsetAt_eq hl column, Lines.offsetAt_eq hl column']
    omega

def returned : Document := .ofText ['a', '\r', 'b', '\n']

theorem returned_column_stays : (returned.positionAt (returned.offsetAt ⟨1, 7⟩)).line = 1 ∧
    returned.offsetAt ⟨1, 0⟩ ≤ returned.offsetAt ⟨1, 7⟩ := by
  have hl : returned.lines[1]? = some ['b', '\n'] := by decide
  obtain ⟨hcolumn, hmono⟩ := returned.column_stays_iff hl
  exact ⟨(hcolumn 7).2.1.mpr (Or.inr (Or.inl (by decide))), hmono 0 7 (by decide)⟩

/-- Past the carriage return a column is on the next line. -/
theorem returned_column_leaves : 0 < returned.lines.length ∧
    (returned.positionAt (returned.offsetAt ⟨0, 2⟩)).line ≠ 0 := by decide

end Document

end Snippets
