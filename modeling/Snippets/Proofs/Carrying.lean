import Snippets.Scene.Syncing
import Snippets.Proofs.NormalStops

/-!
# Carrying a stack

Replacements name a session by its depth, the outermost first, and a session that a change does not
move gets none. On a stack of normal sessions the outcome is the same as carrying every session on
its own.
-/

namespace Snippets

namespace LiveStop

def Inside (length : Nat) (stops : List LiveStop) : Prop := ∀ s ∈ stops, s.span.finish ≤ length

instance (length : Nat) (stops : List LiveStop) : Decidable (Inside length stops) :=
  inferInstanceAs (Decidable (∀ _ ∈ _, _))

theorem normalize_inside {length : Nat} {stops : List LiveStop}
    (h : ∀ s ∈ stops, s.span.start ≤ length ∧ s.span.finish ≤ length) :
    Inside length (normalize stops) := by
  intro s hs
  obtain ⟨t, ht, heq⟩ := exists_of_mem_normalize hs
  have := h t ht
  simp only [heq, upright]
  omega

end LiveStop

theorem Change.mapSpan_bounds (c : Change) (s : Span) (grows : Bool) (length : Nat) :
    (c.mapSpan s grows length).start ≤ (c.mapSpan s grows length).finish ∧
      (c.mapSpan s grows length).finish ≤ length := by
  simp only [mapSpan]
  omega

namespace Session

structure Placed (length : Nat) (s : Session) : Prop where
  normal : LiveStop.Normal s.stops
  inside : LiveStop.Inside length s.stops

def carry (c : Change) (length : Nat) (s : Session) : Session :=
  { s with stops := LiveStop.normalize (s.remap c length) }

theorem carry_placed (c : Change) (length : Nat) (s : Session) :
    (s.carry c length).Placed length := by
  refine ⟨LiveStop.normalize_normal _, LiveStop.normalize_inside fun t ht => ?_⟩
  obtain ⟨old, _, rfl⟩ := List.mem_map.mp ht
  have := c.mapSpan_bounds old.span (old.index == s.current) length
  dsimp only
  omega

theorem remap_eq_of_not_moved {c : Change} {length : Nat} {s : Session}
    (h : s.movedBy (s.remap c length) = false) : s.remap c length = s.stops := by
  have hzip : (s.remap c length).zip s.stops = s.stops.map fun t =>
      ({ t with span := c.mapSpan t.span (t.index == s.current) length }, t) := by
    rw [remap, remapStops, List.zip_map_left, List.zip_eq_zipWith, List.zipWith_self, List.map_map]
    rfl
  rw [movedBy, hzip, List.any_map, List.any_eq_false] at h
  refine (List.map_congr_left fun t ht => ?_).trans (List.map_id s.stops)
  have hspan : c.mapSpan t.span (t.index == s.current) length = t.span := by simpa using h t ht
  simp [hspan]

end Session

namespace Stack

/-- One replacement for every session that `pick` gives stops for, the outermost first. -/
def replacing (pick : Session → Option (List LiveStop)) : List Session → List Effect
  | [] => []
  | s :: outer => replacing pick outer ++ (pick s).toList.map (.replace outer.length)

def replaced (pick : Session → Option (List LiveStop)) (s : Session) : Session :=
  match pick s with
  | none => s
  | some stops => { s with stops := LiveStop.normalize stops }

theorem replaceAt_append (inner : List Session) (s : Session) (outer : List Session)
    (stops : List LiveStop) :
    replaceAt outer.length stops (inner ++ s :: outer) = inner ++ { s with stops } :: outer := by
  induction inner with
  | nil => simp [replaceAt]
  | cons t inner ih =>
    have hne : (inner ++ s :: outer).length ≠ outer.length := by simp; omega
    rw [List.cons_append, replaceAt, if_neg hne, ih, List.cons_append]

theorem apply_replace_top {s : Stack} {top : Session} {outer : List Session}
    (hs : s.sessions = top :: outer) (stops : List LiveStop) :
    s.apply (.replace outer.length stops) =
      ⟨{ top with stops := LiveStop.normalize stops } :: outer, s.nextId⟩ := by
  have hat := replaceAt_append [] top outer (LiveStop.normalize stops)
  rw [List.nil_append, List.nil_append] at hat
  rw [apply, hs, hat]

theorem applyAll_replacing (pick : Session → Option (List LiveStop)) (inner outer : List Session)
    (nextId : Nat) :
    applyAll ⟨inner ++ outer, nextId⟩ (replacing pick outer) =
      ⟨inner ++ outer.map (replaced pick), nextId⟩ := by
  induction outer generalizing inner with
  | nil => simp [replacing, applyAll]
  | cons s outer ih =>
    have hfront := ih (inner ++ [s])
    simp only [List.append_assoc, List.singleton_append] at hfront
    rw [applyAll] at hfront
    rw [replacing, applyAll, List.foldl_append, hfront]
    cases hp : pick s with
    | none => simp [replaced, hp]
    | some stops =>
      have hat := replaceAt_append inner s (outer.map (replaced pick)) (LiveStop.normalize stops)
      rw [List.length_map] at hat
      simp [replaced, hp, apply, hat]

/-- One replacement for every session: counted from the outermost, each has its depth. -/
theorem zipIdx_replace_eq (f : Session → List LiveStop) (sessions : List Session) :
    (sessions.reverse.zipIdx.map fun p => Effect.replace p.2 (f p.1)) =
      replacing (fun s => some (f s)) sessions := by
  induction sessions with
  | nil => rfl
  | cons s sessions ih => simp [List.zipIdx_append, replacing, ih]

def movedStops? (c : Change) (length : Nat) (x : Session) : Option (List LiveStop) :=
  if x.movedBy (x.remap c length) then some (x.remap c length) else none

theorem replacements_eq (c : Change) (length : Nat) (sessions : List Session) :
    replacements c length sessions = replacing (movedStops? c length) sessions := by
  induction sessions with
  | nil => rfl
  | cons s outer ih =>
    rw [replacements, replacing, ih, movedStops?]
    cases s.movedBy (s.remap c length) <;> simp

theorem remap_eq_replaced (s : Stack) {c : Change} (hc : c.edits ≠ []) (length : Nat) :
    s.remap c length = ⟨s.sessions.map (replaced (movedStops? c length)), s.nextId⟩ := by
  have hall := applyAll_replacing (movedStops? c length) [] s.sessions s.nextId
  rw [List.nil_append, List.nil_append] at hall
  rw [remap, remapEffects, if_neg (by simpa using hc), replacements_eq]
  exact hall

/-- Passing over a session that does not move makes no difference. -/
theorem replaced_movedStops? {x : Session} (normal : LiveStop.Normal x.stops) (c : Change)
    (length : Nat) : replaced (movedStops? c length) x = x.carry c length := by
  cases hmoved : x.movedBy (x.remap c length) with
  | true => simp [replaced, movedStops?, hmoved, Session.carry]
  | false =>
    have hstops : LiveStop.normalize (x.remap c length) = x.stops := by
      rw [Session.remap_eq_of_not_moved hmoved, LiveStop.normalize_eq_self normal]
    simp [replaced, movedStops?, hmoved, Session.carry, hstops]

theorem remap_eq_carry {s : Stack} (normal : ∀ x ∈ s.sessions, LiveStop.Normal x.stops) {c : Change}
    (hc : c.edits ≠ []) (length : Nat) :
    s.remap c length = ⟨s.sessions.map (·.carry c length), s.nextId⟩ := by
  rw [remap_eq_replaced s hc]
  congr 1
  exact List.map_congr_left fun x hx => replaced_movedStops? (normal x hx) c length

theorem remap_of_edits_nil {s : Stack} {c : Change} (hc : c.edits = []) (length : Nat) :
    s.remap c length = s := by
  simp [remap, remapEffects, hc, applyAll]

theorem remap_nextId (s : Stack) (c : Change) (length : Nat) :
    (s.remap c length).nextId = s.nextId := by
  by_cases hc : c.edits = []
  · rw [remap_of_edits_nil hc]
  · rw [remap_eq_replaced s hc]

theorem remap_of_sessions_nil {s : Stack} (hs : s.sessions = []) (c : Change) (length : Nat) :
    s.remap c length = s := by
  simp [remap, remapEffects, hs, replacements, applyAll]

end Stack

theorem Scene.remapOuter_eq_carry (top : Session) (outer : List Session) (nextId : Nat) (c : Change)
    (length : Nat) :
    remapOuter ⟨top :: outer, nextId⟩ c length =
      ⟨top :: outer.map (·.carry c length), nextId⟩ := by
  calc remapOuter ⟨top :: outer, nextId⟩ c length
      = Stack.applyAll ⟨top :: outer, nextId⟩
          (Stack.replacing (fun s => some (s.remap c length)) outer) :=
        congrArg (Stack.applyAll _) (Stack.zipIdx_replace_eq (·.remap c length) outer)
    _ = ⟨top :: outer.map (·.carry c length), nextId⟩ :=
        Stack.applyAll_replacing (fun s => some (s.remap c length)) [top] outer nextId

end Snippets
