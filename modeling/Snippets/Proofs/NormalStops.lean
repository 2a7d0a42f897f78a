import Mathlib.Data.List.Pairwise
import Snippets.Proofs.StableSorting
import Snippets.Session.Stop

/-!
# Normal stop lists

What `LiveStop.normalize` restores: upright ranges, document order, and links that name exactly the
other stops of a group. Order and links depend on the stops apart from their old links, so a normal
list is left as it is.
-/

namespace Snippets.LiveStop

theorem le_iff {a b : LiveStop} : le a b = true ↔
    a.span.start < b.span.start ∨ (a.span.start = b.span.start ∧
      (a.span.finish < b.span.finish ∨ (a.span.finish = b.span.finish ∧ rankLe a b = true))) := by
  simp [le]

theorem rankLe_iff {a b : LiveStop} : rankLe a b = true ↔
    (a.index = 0 ∧ b.index = 0) ∨ (a.index ≠ 0 ∧ (b.index = 0 ∨ a.index ≤ b.index)) := by
  unfold rankLe
  split
  · simp [*]
  · simp [*]

theorem le_total (a b : LiveStop) : le a b || le b a := by
  rw [Bool.or_eq_true, le_iff, le_iff, rankLe_iff, rankLe_iff]
  omega

theorem le_trans (a b c : LiveStop) (h : le a b) (k : le b c) : le a c := by
  rw [le_iff, rankLe_iff] at *
  omega

theorem members_congr {stops stops' : List LiveStop}
    (h : stops.map (·.toTabStop) = stops'.map (·.toTabStop)) (group self : Nat) :
    members stops group self = members stops' group self := by
  have hview (l : List LiveStop) : members l group self =
      ((l.map (·.toTabStop)).zipIdx.filter fun (t, i) => i != self && t.group == some group).map
        (·.2) := by
    rw [members, List.zipIdx_map, List.filter_map, List.map_map]
    rfl
  rw [hview, hview, h]

theorem mem_members {stops : List LiveStop} {group self i : Nat} :
    i ∈ members stops group self ↔ i ≠ self ∧ ∃ s, stops[i]? = some s ∧ s.group = some group := by
  simp only [members, List.mem_map, List.mem_filter, Bool.and_eq_true, bne_iff_ne, beq_iff_eq,
    Prod.exists, List.mem_zipIdx_iff_getElem?]
  constructor
  · rintro ⟨s, j, ⟨hs, hj, hg⟩, rfl⟩
    exact ⟨hj, s, hs, hg⟩
  · rintro ⟨hi, s, hs, hg⟩
    exact ⟨s, i, ⟨hs, hi, hg⟩, rfl⟩

theorem members_ascending (stops : List LiveStop) (group self : Nat) :
    (members stops group self).Pairwise (· < ·) := by
  have hidx : stops.zipIdx.Pairwise fun a b => a.2 < b.2 := by
    rw [← List.pairwise_map (f := Prod.snd), List.zipIdx_map_snd]
    exact List.pairwise_lt_range'
  rw [members, List.pairwise_map]
  exact hidx.filter _

def linksAt (stops : List LiveStop) (s : LiveStop) (i : Nat) : List Nat :=
  match s.group with
  | none => []
  | some group => members stops group i

theorem getElem?_link (stops : List LiveStop) (i : Nat) :
    (link stops)[i]? = stops[i]?.map fun s => { s with linked := linksAt stops s i } := by
  simp only [link, List.getElem?_map, List.getElem?_zipIdx, Option.map_map, Nat.zero_add]
  rfl

theorem map_toTabStop_link (stops : List LiveStop) :
    (link stops).map (·.toTabStop) = stops.map (·.toTabStop) := by
  apply List.ext_getElem?
  intro i
  simp [getElem?_link, Function.comp_def]

theorem link_congr {stops stops' : List LiveStop}
    (h : stops.map (·.toTabStop) = stops'.map (·.toTabStop)) : link stops = link stops' := by
  apply List.ext_getElem?
  intro i
  have hi : stops[i]?.map (·.toTabStop) = stops'[i]?.map (·.toTabStop) := by
    rw [← List.getElem?_map, h, List.getElem?_map]
  rw [getElem?_link, getElem?_link]
  cases hs : stops[i]? with
  | none =>
    rw [hs, Option.map_none, eq_comm, Option.map_eq_none_iff] at hi
    simp [hi]
  | some s =>
    rw [hs] at hi
    obtain ⟨s', hs', heq⟩ := Option.map_eq_some_iff.mp hi.symm
    have hgroup : linksAt stops' s' i = linksAt stops s i := by
      simp only [linksAt, heq]
      split
      · rfl
      · exact (members_congr h _ _).symm
    simp [hs', hgroup, heq]

theorem link_link (stops : List LiveStop) : link (link stops) = link stops :=
  link_congr (map_toTabStop_link stops)

structure Normal (stops : List LiveStop) : Prop where
  upright : ∀ s ∈ stops, s.span.start ≤ s.span.finish
  sorted : stops.Pairwise fun a b => le a b
  linked : link stops = stops

instance (stops : List LiveStop) : Decidable (Normal stops) :=
  decidable_of_iff ((∀ s ∈ stops, s.span.start ≤ s.span.finish) ∧
      (stops.Pairwise fun a b => le a b) ∧ link stops = stops)
    ⟨fun ⟨hu, hs, hl⟩ => ⟨hu, hs, hl⟩, fun ⟨hu, hs, hl⟩ => ⟨hu, hs, hl⟩⟩

theorem le_refl (a : LiveStop) : le a a := by simpa using le_total a a

theorem Normal.le_of_le {stops : List LiveStop} (h : Normal stops) {i j : Nat} {a b : LiveStop}
    (ha : stops[i]? = some a) (hb : stops[j]? = some b) (hij : i ≤ j) : le a b := by
  rcases Nat.lt_or_eq_of_le hij with hlt | rfl
  · obtain ⟨hi, rfl⟩ := List.getElem?_eq_some_iff.mp ha
    obtain ⟨hj, rfl⟩ := List.getElem?_eq_some_iff.mp hb
    exact List.pairwise_iff_getElem.mp h.sorted i j hi hj hlt
  · obtain rfl := Option.some.inj (ha.symm.trans hb)
    exact le_refl a

theorem pairwise_le_congr {stops stops' : List LiveStop}
    (h : stops.map (·.toTabStop) = stops'.map (·.toTabStop)) :
    (stops.Pairwise fun a b => le a b) ↔ stops'.Pairwise fun a b => le a b := by
  have hview (l : List LiveStop) : (l.Pairwise fun a b => le a b) ↔
      (l.map (·.toTabStop)).Pairwise fun a b => le ⟨a, []⟩ ⟨b, []⟩ := by
    rw [List.pairwise_map]
    exact Iff.rfl
  rw [hview, hview, h]

theorem upright_upright (s : LiveStop) : s.upright.span.start ≤ s.upright.span.finish := by
  simp only [upright]
  omega

theorem upright_eq_self {s : LiveStop} (h : s.span.start ≤ s.span.finish) : s.upright = s := by
  have : max s.span.start s.span.finish = s.span.finish := Nat.max_eq_right h
  simp [upright, this]

theorem map_upright_eq_self {stops : List LiveStop}
    (h : ∀ s ∈ stops, s.span.start ≤ s.span.finish) : stops.map upright = stops :=
  (List.map_congr_left fun s hs => upright_eq_self (h s hs)).trans (List.map_id stops)

theorem link_normal {stops : List LiveStop} (upright : ∀ s ∈ stops, s.span.start ≤ s.span.finish)
    (sorted : stops.Pairwise fun a b => le a b) : Normal (link stops) := by
  refine ⟨fun s hs => ?_, (pairwise_le_congr (map_toTabStop_link stops)).mpr sorted,
    link_link stops⟩
  have hmem : s.toTabStop ∈ (link stops).map (·.toTabStop) := List.mem_map_of_mem hs
  rw [map_toTabStop_link] at hmem
  obtain ⟨t, ht, heq⟩ := List.mem_map.mp hmem
  rw [← heq]
  exact upright t ht

theorem normalize_normal (stops : List LiveStop) : Normal (normalize stops) := by
  apply link_normal
  · intro s hs
    obtain ⟨t, _, rfl⟩ := List.mem_map.mp (mem_sortStable.mp hs)
    exact upright_upright t
  · exact sortStable_pairwise le_total le_trans _

theorem normalize_eq_self {stops : List LiveStop} (h : Normal stops) : normalize stops = stops := by
  rw [normalize, map_upright_eq_self h.upright, sortStable_eq_insertionSort,
    h.sorted.insertionSort_eq, h.linked]

theorem normalize_perm (stops : List LiveStop) :
    ((normalize stops).map (·.toTabStop)).Perm (stops.map (·.upright.toTabStop)) := by
  rw [normalize, map_toTabStop_link]
  simpa [Function.comp_def] using (sortStable_perm le (stops.map upright)).map (·.toTabStop)

theorem exists_of_mem_normalize {stops : List LiveStop} {s : LiveStop} (h : s ∈ normalize stops) :
    ∃ t ∈ stops, s.toTabStop = t.upright.toTabStop := by
  have hmem := (normalize_perm stops).mem_iff.mp (List.mem_map_of_mem h)
  obtain ⟨t, ht, heq⟩ := List.mem_map.mp hmem
  exact ⟨t, ht, heq.symm⟩

/-- A list that shows sorted stops is only linked anew. -/
theorem normalize_eq_link_of_eq {stops ordered : List LiveStop}
    (same : stops.map (·.toTabStop) = ordered.map (·.toTabStop))
    (upright : ∀ s ∈ ordered, s.span.start ≤ s.span.finish)
    (sorted : ordered.Pairwise fun a b => le a b) : normalize stops = link ordered := by
  have hup : ∀ s ∈ stops, s.span.start ≤ s.span.finish := by
    intro s hs
    have hmem : s.toTabStop ∈ stops.map (·.toTabStop) := List.mem_map_of_mem hs
    rw [same] at hmem
    obtain ⟨t, ht, heq⟩ := List.mem_map.mp hmem
    rw [← heq]
    exact upright t ht
  have hsorted := (pairwise_le_congr same).mpr sorted
  rw [normalize, map_upright_eq_self hup, sortStable_eq_insertionSort, hsorted.insertionSort_eq,
    link_congr same]

section

variable {P : LiveStop → Bool} (view : ∀ s : LiveStop, P s = P ⟨s.toTabStop, []⟩)
  (stops : List LiveStop)

include view

theorem findIdx?_link : (link stops).findIdx? P = stops.findIdx? P := by
  have hview (l : List LiveStop) :
      l.findIdx? P = (l.map (·.toTabStop)).findIdx? fun t => P ⟨t, []⟩ := by
    rw [List.findIdx?_map]
    exact congrArg (List.findIdx? · l) (funext view)
  rw [hview, map_toTabStop_link, ← hview]

theorem any_link : (link stops).any P = stops.any P := by
  have hview (l : List LiveStop) : l.any P = (l.map (·.toTabStop)).any fun t => P ⟨t, []⟩ := by
    rw [List.any_map]
    exact congrArg (List.any l) (funext view)
  rw [hview, map_toTabStop_link, ← hview]

theorem find?_link :
    ((link stops).find? P).map (·.toTabStop) = (stops.find? P).map (·.toTabStop) := by
  have hview (l : List LiveStop) :
      (l.find? P).map (·.toTabStop) = (l.map (·.toTabStop)).find? fun t => P ⟨t, []⟩ := by
    rw [List.find?_map]
    exact congrArg (fun Q => (l.find? Q).map _) (funext view)
  rw [hview, map_toTabStop_link, ← hview]

end

theorem eq_of_le_of_le {stops : List LiveStop}
    (strict : stops.Pairwise fun a b => ¬ (le a b ∧ le b a)) {a b : LiveStop} (ha : a ∈ stops)
    (hb : b ∈ stops) (hab : le a b) (hba : le b a) : a = b := by
  by_contra hne
  have : Std.Symm fun a b : LiveStop => ¬ (le a b ∧ le b a) := ⟨fun a b h k => h k.symm⟩
  exact strict.forall ha hb hne ⟨hab, hba⟩

/-- Normalizing puts stops into strict order if they have one, however they were listed. -/
theorem normalize_eq_link {stops ordered : List LiveStop}
    (upright : ∀ s ∈ ordered, s.span.start ≤ s.span.finish)
    (sorted : ordered.Pairwise fun a b => le a b)
    (strict : ordered.Pairwise fun a b => ¬ (le a b ∧ le b a)) (perm : stops.Perm ordered) :
    normalize stops = link ordered := by
  have hsame : sortStable le stops = ordered := by
    have hperm := (sortStable_perm le stops).trans perm
    refine hperm.eq_of_pairwise ?_ (sortStable_pairwise le_total le_trans stops) sorted
    intro a b ha hb hab hba
    exact eq_of_le_of_le strict (hperm.mem_iff.mp ha) hb hab hba
  rw [normalize, map_upright_eq_self fun s hs => upright s (perm.mem_iff.mp hs), hsame]

end Snippets.LiveStop
