import Snippets.Proofs.Fields
import Snippets.Proofs.Carrying

/-!
# Layouts

A row of fields between two texts, as a document shows it while its session is open. What navigation
looks up in such a session is read off the row.
-/

namespace Snippets

/-- A row between two texts. Indices that occur more than once have a group. -/
structure Layout where
  lead : Text
  row : Row
  tail : Text
  group : Grouping

namespace Layout

def base (l : Layout) : Nat := l.lead.length

def text (l : Layout) : Text := l.lead ++ (l.row.text ++ l.tail)

def stops (l : Layout) : List LiveStop := l.row.stops l.group l.base

def session (l : Layout) (id current : Nat) : Session := ⟨id, current, LiveStop.link l.stops⟩

def revise (l : Layout) (new : Revision) : Layout := { l with row := l.row.revise new }

structure Sound (l : Layout) : Prop where
  spaced : l.row.Spaced
  distinct : ∀ {i j g}, l.group i = some g → l.group j = some g → i = j
  repeated : ∀ {k}, k ≠ 0 → (l.group k = none ↔ (l.row.map (·.index)).count k ≤ 1)

variable {l : Layout}

@[simp] theorem length_text (l : Layout) :
    l.text.length = l.base + l.row.width + l.tail.length := by
  simp [text, base, Nat.add_assoc]

theorem base_le (l : Layout) : l.base ≤ l.text.length := by
  rw [length_text]
  omega

theorem drop_text (l : Layout) : l.text.drop l.base = l.row.text ++ l.tail := List.drop_left' rfl

theorem Sound.upright (_ : l.Sound) : ∀ s ∈ l.stops, s.span.start ≤ s.span.finish :=
  fun _ hs => (Row.stops_bounds hs).1

theorem Sound.sorted (h : l.Sound) : l.stops.Pairwise fun a b => LiveStop.le a b :=
  (Row.stops_strict h.spaced l.base).imp And.left

theorem Sound.placed (h : l.Sound) (id current : Nat) :
    (l.session id current).Placed l.text.length := by
  refine ⟨LiveStop.link_normal h.upright h.sorted, fun s hs => ?_⟩
  have hmem : s.toTabStop ∈ (LiveStop.link l.stops).map (·.toTabStop) := List.mem_map_of_mem hs
  rw [LiveStop.map_toTabStop_link] at hmem
  obtain ⟨t, ht, heq⟩ := List.mem_map.mp hmem
  have := (Row.stops_bounds ht).2
  rw [← heq, length_text]
  omega

theorem Sound.revise (h : l.Sound) (new : Revision) : (l.revise new).Sound := by
  refine ⟨h.spaced.revise new, h.distinct, fun hk => ?_⟩
  have hsame : (l.row.revise new).map (·.index) = l.row.map (·.index) := by
    rw [Row.revise, List.map_map]
    exact List.map_congr_left fun f _ => f.revise_index new
  rw [Layout.revise, hsame]
  exact h.repeated hk

theorem Sound.gap_length_ne_zero (h : l.Sound) {front behind : Row} {f : Field}
    (split : l.row = front ++ f :: behind) (ne : behind ≠ []) : f.gap.length ≠ 0 := by
  have hspaced := h.spaced
  rw [split] at hspaced
  exact fun hnil => hspaced.gap_ne_nil ne (List.eq_nil_of_length_eq_zero hnil)

/-- A list that shows the stops of a layout becomes its session once it is normalized. -/
theorem Sound.normalize_eq (h : l.Sound) {stops : List LiveStop}
    (same : ∀ i : Nat, stops[i]?.map LiveStop.toTabStop = l.stops[i]?.map LiveStop.toTabStop) :
    LiveStop.normalize stops = LiveStop.link l.stops := by
  refine LiveStop.normalize_eq_link_of_eq (List.ext_getElem? fun i => ?_) h.upright h.sorted
  rw [List.getElem?_map, List.getElem?_map]
  exact same i

end Layout

namespace Row

variable {g : Grouping} {P : LiveStop → Bool} {front behind : Row} {f : Field}

/-- The first stop with a property that only one field and those behind it may have. -/
theorem findIdx?_stops (before : ∀ e ∈ front, ∀ offset, P (e.stop g offset) = false) {base : Nat}
    (here : P (f.stop g (base + width front)) = true) :
    (stops g base (front ++ f :: behind)).findIdx? P = some front.length := by
  induction front generalizing base with
  | nil =>
    have here : P (f.stop g base) = true := here
    simp [stops, List.findIdx?_cons, here]
  | cons e rest ih =>
    obtain ⟨he, hrest⟩ := List.forall_mem_cons.mp before
    rw [width, ← Nat.add_assoc] at here
    rw [List.cons_append, stops, List.findIdx?_cons, he base, ih hrest here]
    rfl

theorem find?_stops (before : ∀ e ∈ front, ∀ offset, P (e.stop g offset) = false) {base : Nat}
    (here : P (f.stop g (base + width front)) = true) :
    (stops g base (front ++ f :: behind)).find? P = some (f.stop g (base + width front)) := by
  induction front generalizing base with
  | nil =>
    have here : P (f.stop g base) = true := here
    simp [stops, here, width]
  | cons e rest ih =>
    obtain ⟨he, hrest⟩ := List.forall_mem_cons.mp before
    rw [width, ← Nat.add_assoc] at here
    rw [List.cons_append, stops, List.find?_cons, he base, ih hrest here, width, Nat.add_assoc]

def HasIndex (r : Row) (k : Nat) : Prop := ∃ f ∈ r, f.index = k

theorem any_stops (g : Grouping) (base : Nat) (r : Row) (k : Nat) :
    (stops g base r).any (·.index == k) = true ↔ r.HasIndex k ∨ k = 0 := by
  induction r generalizing base with
  | nil =>
    simp only [stops, Field.exit, HasIndex, List.any_cons, List.any_nil, Bool.or_false, beq_iff_eq,
      List.not_mem_nil, false_and, exists_false, false_or]
    exact eq_comm
  | cons f rest ih =>
    rw [stops, List.any_cons, Bool.or_eq_true, ih]
    simp [HasIndex, Field.stop, or_assoc]

theorem hasIndex_revise {r : Row} {new : Revision} {k : Nat} :
    (r.revise new).HasIndex k ↔ r.HasIndex k := by
  constructor
  · rintro ⟨e, he, hk⟩
    obtain ⟨f, hf, rfl⟩ := List.mem_map.mp he
    exact ⟨f, hf, (f.revise_index new).symm.trans hk⟩
  · rintro ⟨f, hf, hk⟩
    exact ⟨f.revise new, List.mem_map_of_mem hf, (f.revise_index new).trans hk⟩

theorem HasIndex.first {r : Row} {k : Nat} (h : r.HasIndex k) :
    ∃ front f behind, r = front ++ f :: behind ∧ f.index = k ∧ ∀ e ∈ front, e.index ≠ k := by
  obtain ⟨f, hf, hk⟩ := h
  cases hfind : r.find? (·.index == k) with
  | none =>
    have := List.find?_eq_none.mp hfind f hf
    simp [hk] at this
  | some e =>
    obtain ⟨he, front, behind, hr, hfront⟩ := List.find?_eq_some_iff_append.mp hfind
    exact ⟨front, e, behind, hr, by simpa using he, fun a ha => by simpa using hfront a ha⟩

end Row

namespace Layout

variable {l : Layout} {id current k : Nat} {front behind : Row} {f : Field}

theorem hasIndex_session : (l.session id current).hasIndex k = true ↔ l.row.HasIndex k ∨ k = 0 := by
  rw [Session.hasIndex, session, LiveStop.any_link (fun _ => rfl)]
  exact Row.any_stops l.group l.base l.row k

theorem getElem?_stops (split : l.row = front ++ f :: behind) :
    l.stops[front.length]? = some (f.stop l.group (l.base + front.width)) := by
  rw [stops, split, Row.getElem?_stops]

theorem getElem?_stops_exit :
    l.stops[l.row.length]? = some (Field.exit (l.base + l.row.width)) :=
  Row.getElem?_stops_exit _ _ _

theorem getElem?_stops_none {i : Nat} (h : l.row.length < i) : l.stops[i]? = none := by
  rw [stops, List.getElem?_eq_none]
  rw [Row.length_stops]
  omega

section

variable (split : l.row = front ++ f :: behind) (index : f.index = k)
  (first : ∀ e ∈ front, e.index ≠ k)

include split index first

theorem firstStop?_session : ((l.session id current).firstStop? k).map (·.span) =
    some (f.span (l.base + front.width)) := by
  have hfind := LiveStop.find?_link (P := (·.index == k)) (fun _ => rfl) l.stops
  rw [stops, split, Row.find?_stops (by simpa [Field.stop] using first)
    (by simpa [Field.stop] using index)] at hfind
  rw [Session.firstStop?, session]
  have := congrArg (Option.map TabStop.span) hfind
  rw [Option.map_map] at this
  rw [stops, split]
  exact this

theorem currentPosition?_session {selection : Selection}
    (touches : (f.span (l.base + front.width)).Touches selection.head) :
    (l.session id k).currentPosition? selection = some front.length := by
  have hfind := LiveStop.findIdx?_link
    (P := fun t => t.index == k && t.span.Touches selection.head) (fun _ => rfl) l.stops
  rw [stops, split, Row.findIdx?_stops
    (fun e he offset => by simp [Field.stop, first e he])
    (by simpa [Field.stop, index] using touches)] at hfind
  rw [Session.currentPosition?, session]
  rw [stops, split, hfind]
  rfl

end

end Layout

end Snippets
