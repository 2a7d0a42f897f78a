import Mathlib.Data.Finset.Card
import Snippets.TriggerIndex

/-!
# Looking up triggers

Main statement: an index answers as the list does that it was made of. A trigger stands for the last
definition that has it, and a text is looked up by the longest trigger at its end. The trie, the
window that is cut from the text and the bounds of the search do not show.
-/

namespace Snippets

namespace Trie

variable {α : Type}

theorem find?_nil (t : Trie α) : t.find? [] = none := by
  cases t with
  | empty => rfl
  | branch => rfl

theorem find?_single (word : Text) (a : α) (w : Text) :
    (single word a).find? w = if w = word ∧ w ≠ [] then some a else none := by
  induction word generalizing w with
  | nil =>
    have hnone : ¬ (w = [] ∧ w ≠ []) := fun h => h.2 h.1
    rw [if_neg hnone]
    rfl
  | cons c word ih =>
    cases w with
    | nil => rw [find?_nil, if_neg (fun h => h.2 rfl)]
    | cons c' w =>
      by_cases hc : c = c'
      · subst hc
        cases word with
        | nil =>
          by_cases hw : w = []
          · simp [single, find?, hw]
          · simp [single, find?, hw]
        | cons c₂ word =>
          by_cases hw : w = []
          · simp [single, find?, hw]
          · simp [single, find?, hw, ih]
      · have hne : ¬ c' = c := fun h => hc h.symm
        cases word with
        | nil => simp [single, find?, hc, hne]
        | cons c₂ word => simp [single, find?, hc, hne]

/-- Setting the value of a word changes the value of no other word. -/
theorem find?_insert (t : Trie α) (word : Text) (a : α) (w : Text) :
    (t.insert word a).find? w = if w = word ∧ w ≠ [] then some a else t.find? w := by
  induction t generalizing word w with
  | empty => exact find?_single word a w
  | branch letter value longer others ihLonger ihOthers =>
    cases word with
    | nil =>
      have hnone : ¬ (w = [] ∧ w ≠ []) := fun h => h.2 h.1
      rw [if_neg hnone]
      rfl
    | cons c word =>
      cases w with
      | nil => rw [find?_nil, find?_nil, if_neg (fun h => h.2 rfl)]
      | cons c' w =>
        by_cases hc : letter = c
        · subst hc
          by_cases hc' : letter = c'
          · subst hc'
            by_cases hword : word = []
            · by_cases hw : w = []
              · simp [insert, find?, hword, hw]
              · simp [insert, find?, hword, hw]
            · by_cases hw : w = []
              · have hne : ¬ [] = word := fun h => hword h.symm
                simp [insert, find?, hword, hw, hne]
              · simp [insert, find?, hword, hw, ihLonger]
          · have hne : ¬ c' = letter := fun h => hc' h.symm
            by_cases hword : word = []
            · simp [insert, find?, hword, hc', hne]
            · simp [insert, find?, hword, hc', hne]
        · by_cases hc' : letter = c'
          · have hne : ¬ c' = c := fun h => hc (hc'.trans h)
            simp [insert, find?, hc', hne]
          · simp [insert, find?, hc, hc', ihOthers]

theorem size_single (word : Text) (a : α) :
    (single word a).size = if word = [] then 0 else 1 := by
  induction word with
  | nil => rfl
  | cons c word ih =>
    cases word with
    | nil => rfl
    | cons c₂ word => simpa [single, size] using ih

/-- A word is counted once, however often its value is set. -/
theorem size_insert (t : Trie α) {word : Text} (nonempty : word ≠ []) (a : α) :
    (t.insert word a).size = t.size + if t.find? word = none then 1 else 0 := by
  induction t generalizing word with
  | empty =>
    rw [insert, size_single, if_neg nonempty]
    rfl
  | branch letter value longer others ihLonger ihOthers =>
    cases word with
    | nil => exact absurd rfl nonempty
    | cons c word =>
      by_cases hc : letter = c
      · by_cases hword : word = []
        · rw [insert, find?, if_pos hc, if_pos hword, if_pos hc, if_pos hword, size, size]
          cases value with
          | none =>
            rw [if_pos rfl]
            change 1 + longer.size + others.size = 0 + longer.size + others.size + 1
            omega
          | some old => rfl
        · simp only [insert, find?, size, if_pos hc, if_neg hword, ihLonger hword]
          omega
      · simp only [insert, find?, size, if_neg hc, ihOthers nonempty]
        omega

end Trie

/-! ## What a list of definitions says -/

def triggersOf (definitions : List Definition) : List Text :=
  (definitions.map (·.trigger)).filter (· ≠ [])

def lastWith? (definitions : List Definition) (trigger : Text) : Option Definition :=
  (definitions.filter (·.trigger = trigger)).getLast?

section

variable {definitions : List Definition} {trigger : Text} {d : Definition}

theorem mem_triggersOf :
    trigger ∈ triggersOf definitions ↔ (∃ d ∈ definitions, d.trigger = trigger) ∧ trigger ≠ [] := by
  simp [triggersOf]

theorem lastWith?_trigger (h : lastWith? definitions trigger = some d) :
    d ∈ definitions ∧ d.trigger = trigger := by
  have hmem := List.mem_filter.mp (List.mem_of_getLast? h)
  exact ⟨hmem.1, of_decide_eq_true hmem.2⟩

theorem lastWith?_eq_none_iff :
    lastWith? definitions trigger = none ↔ ∀ d ∈ definitions, d.trigger ≠ trigger := by
  simp [lastWith?]

theorem lastWith?_snoc (definitions : List Definition) (d : Definition) (trigger : Text) :
    lastWith? (definitions ++ [d]) trigger =
      if d.trigger = trigger then some d else lastWith? definitions trigger := by
  by_cases hd : d.trigger = trigger
  · simp [lastWith?, hd]
  · simp [lastWith?, hd]

theorem triggersOf_snoc (definitions : List Definition) (d : Definition) :
    triggersOf (definitions ++ [d]) =
      triggersOf definitions ++ if d.trigger = [] then [] else [d.trigger] := by
  by_cases hd : d.trigger = []
  · simp [triggersOf, hd]
  · simp [triggersOf, hd]

end

namespace TriggerIndex

theorem trie_ofList_snoc (definitions : List Definition) (d : Definition) :
    (ofList (definitions ++ [d])).trie = if d.trigger = [] then (ofList definitions).trie
      else (ofList definitions).trie.insert d.trigger d := by
  by_cases hd : d.trigger = []
  · simp [ofList, hd]
  · simp [ofList, hd, List.foldl_append]

/-- The last definition with a trigger is the one that counts. -/
theorem get?_ofList (definitions : List Definition) (trigger : Text) :
    (ofList definitions).get? trigger =
      if trigger = [] then none else lastWith? definitions trigger := by
  by_cases htrigger : trigger = []
  · rw [if_pos htrigger, htrigger]
    exact Trie.find?_nil _
  rw [if_neg htrigger]
  induction definitions using List.reverseRecOn with
  | nil => rfl
  | append_singleton definitions d ih =>
    rw [lastWith?_snoc, get?, trie_ofList_snoc]
    by_cases hd : d.trigger = []
    · have hne : ¬ d.trigger = trigger := fun h => htrigger (h.symm.trans hd)
      rw [if_pos hd, if_neg hne]
      exact ih
    · rw [if_neg hd, Trie.find?_insert]
      by_cases hsame : trigger = d.trigger
      · rw [if_pos ⟨hsame, htrigger⟩, if_pos hsame.symm]
      · rw [if_neg fun h => hsame h.1, if_neg fun h => hsame h.symm]
        exact ih

theorem get?_eq_some_iff {definitions : List Definition} {trigger : Text} {d : Definition} :
    (ofList definitions).get? trigger = some d ↔
      trigger ≠ [] ∧ lastWith? definitions trigger = some d := by
  rw [get?_ofList]
  by_cases htrigger : trigger = []
  · simp [htrigger]
  · simp [htrigger]

theorem get?_isSome_iff {definitions : List Definition} {trigger : Text} :
    ((ofList definitions).get? trigger).isSome ↔ trigger ∈ triggersOf definitions := by
  rw [get?_ofList, mem_triggersOf]
  by_cases htrigger : trigger = []
  · simp [htrigger]
  · rw [if_neg htrigger, Option.isSome_iff_ne_none, ne_eq, lastWith?_eq_none_iff]
    simp [htrigger]

theorem size_ofList (definitions : List Definition) :
    (ofList definitions).size = (triggersOf definitions).toFinset.card := by
  induction definitions using List.reverseRecOn with
  | nil => rfl
  | append_singleton definitions d ih =>
    rw [size, trie_ofList_snoc, triggersOf_snoc]
    by_cases hd : d.trigger = []
    · rw [if_pos hd, if_pos hd, List.append_nil]
      exact ih
    · have hknown : (ofList definitions).trie.find? d.trigger = none ↔
          d.trigger ∉ (triggersOf definitions).toFinset := by
        rw [List.mem_toFinset, ← get?_isSome_iff, Option.not_isSome_iff_eq_none]
        rfl
      have hset : (triggersOf definitions ++ [d.trigger]).toFinset =
          insert d.trigger (triggersOf definitions).toFinset := by
        ext w
        simp
      rw [if_neg hd, if_neg hd, Trie.size_insert _ hd, hset]
      change (ofList definitions).size + _ = _
      rw [ih]
      by_cases hnew : d.trigger ∈ (triggersOf definitions).toFinset
      · rw [if_neg fun h => hknown.mp h hnew, Finset.insert_eq_of_mem hnew]
        rfl
      · rw [if_pos (hknown.mpr hnew), Finset.card_insert_of_notMem hnew]

/-- The lengths of the triggers as the bounds are read off them. -/
theorem lengths_eq (definitions : List Definition) :
    ((definitions.filter fun d => !d.trigger.isEmpty).map fun d => d.trigger.length) =
      (triggersOf definitions).map List.length := by
  have hkept : (definitions.filter fun d => !d.trigger.isEmpty).map (·.trigger) =
      triggersOf definitions := by
    rw [triggersOf, List.filter_map]
    congr 1
    refine List.filter_congr fun d _ => ?_
    by_cases hd : d.trigger = []
    · simp [hd]
    · simp [hd]
  rw [← hkept, List.map_map]
  rfl

theorem bounds_ofList (definitions : List Definition) :
    (ofList definitions).shortest = ((triggersOf definitions).map List.length).min?.getD 0 ∧
      (ofList definitions).longest = ((triggersOf definitions).map List.length).max?.getD 0 := by
  simp only [ofList, lengths_eq, and_self]

variable {definitions : List Definition} {trigger : Text}

theorem shortest_le (h : trigger ∈ triggersOf definitions) :
    (ofList definitions).shortest ≤ trigger.length := by
  rw [(bounds_ofList definitions).1]
  cases hmin : ((triggersOf definitions).map List.length).min? with
  | none => exact Nat.zero_le _
  | some n => exact (List.min?_eq_some_iff.mp hmin).2 _ (List.mem_map_of_mem h)

theorem le_longest (h : trigger ∈ triggersOf definitions) :
    trigger.length ≤ (ofList definitions).longest := by
  rw [(bounds_ofList definitions).2]
  cases hmax : ((triggersOf definitions).map List.length).max? with
  | none =>
    rw [List.max?_eq_none_iff, List.map_eq_nil_iff] at hmax
    rw [hmax] at h
    cases h
  | some n => exact (List.max?_eq_some_iff.mp hmax).2 _ (List.mem_map_of_mem h)

theorem exists_shortest (h : triggersOf definitions ≠ []) :
    ∃ w ∈ triggersOf definitions, w.length = (ofList definitions).shortest := by
  rw [(bounds_ofList definitions).1]
  cases hmin : ((triggersOf definitions).map List.length).min? with
  | none => exact absurd (List.map_eq_nil_iff.mp (List.min?_eq_none_iff.mp hmin)) h
  | some n => exact List.mem_map.mp (List.min?_eq_some_iff.mp hmin).1

theorem exists_longest (h : triggersOf definitions ≠ []) :
    ∃ w ∈ triggersOf definitions, w.length = (ofList definitions).longest := by
  rw [(bounds_ofList definitions).2]
  cases hmax : ((triggersOf definitions).map List.length).max? with
  | none => exact absurd (List.map_eq_nil_iff.mp (List.max?_eq_none_iff.mp hmax)) h
  | some n => exact List.mem_map.mp (List.max?_eq_some_iff.mp hmax).1

/-- What the search finds is a suffix, and no longer suffix is a trigger. -/
theorem longestSuffix?_eq_some {i : TriggerIndex} {t : Text} {d : Definition}
    (h : i.longestSuffix? t = some d) : ∃ w, w <:+ t ∧ i.get? w = some d ∧
      ∀ v, v <:+ t → (i.get? v).isSome → v.length ≤ w.length := by
  induction t with
  | nil => cases h
  | cons c rest ih =>
    rw [longestSuffix?] at h
    by_cases hshort : rest.length + 1 < i.shortest
    · rw [if_pos hshort] at h
      cases h
    · rw [if_neg hshort] at h
      cases hget : i.get? (c :: rest) with
      | some found =>
        rw [hget, Option.some_or] at h
        exact ⟨c :: rest, List.suffix_rfl, hget.trans h, fun v hv _ => hv.length_le⟩
      | none =>
        rw [hget, Option.none_or] at h
        obtain ⟨w, hw, hfound, hlongest⟩ := ih h
        refine ⟨w, hw.trans (List.suffix_cons c rest), hfound, ?_⟩
        intro v hv hsome
        rcases List.suffix_cons_iff.mp hv with rfl | hv
        · rw [hget] at hsome
          cases hsome
        · exact hlongest v hv hsome

/-- The search gives up only where no suffix is a trigger. -/
theorem longestSuffix?_eq_none {i : TriggerIndex} {t : Text}
    (shortest : ∀ w, (i.get? w).isSome → i.shortest ≤ w.length) (h : i.longestSuffix? t = none) :
    ∀ w, w <:+ t → i.get? w = none := by
  induction t with
  | nil =>
    intro w hw
    rw [List.suffix_nil.mp hw]
    exact Trie.find?_nil _
  | cons c rest ih =>
    intro w hw
    rw [longestSuffix?] at h
    by_cases hshort : rest.length + 1 < i.shortest
    · have hle := hw.length_le
      rw [List.length_cons] at hle
      rw [← Option.not_isSome_iff_eq_none]
      intro hsome
      have := shortest w hsome
      omega
    · rw [if_neg hshort, Option.or_eq_none_iff] at h
      rcases List.suffix_cons_iff.mp hw with rfl | hw
      · exact h.1
      · exact ih h.2 w hw

/-- Suffixes that fit into a window at the end of a text are the suffixes of the window. -/
theorem suffix_window_iff {w t : Text} {n : Nat} (h : w.length ≤ n) :
    w <:+ t.drop (t.length - n) ↔ w <:+ t := by
  constructor
  · exact fun hw => hw.trans (List.drop_suffix _ t)
  · rintro ⟨front, rfl⟩
    rw [List.drop_append_of_le_length (by rw [List.length_append]; omega)]
    exact List.suffix_append _ w

/-- A look-up sees only the window: cutting the text to it in advance changes nothing. -/
theorem lookup_window (i : TriggerIndex) (t : Text) :
    i.lookup (t.drop (t.length - i.longest)) = i.lookup t := by
  have hnarrow : (t.drop (t.length - i.longest)).length - i.longest = 0 := by
    rw [List.length_drop]
    omega
  rw [lookup, hnarrow, List.drop_zero]
  rfl

theorem lookup_slice (i : TriggerIndex) {t : Text} {cursor : Nat} (inside : cursor ≤ t.length) :
    i.lookup (t.slice ⟨cursor - i.longest, cursor⟩) = i.lookup (t.take cursor) := by
  have hwindow : t.slice ⟨cursor - i.longest, cursor⟩ =
      (t.take cursor).drop ((t.take cursor).length - i.longest) := by
    rw [List.length_take, Nat.min_eq_left inside]
    rfl
  rw [hwindow, lookup_window]

variable {t : Text} {d : Definition}

theorem lookup_eq_some_iff : (ofList definitions).lookup t = some d ↔
    lastWith? definitions d.trigger = some d ∧ d.trigger ∈ triggersOf definitions ∧
      d.trigger <:+ t ∧ ∀ w ∈ triggersOf definitions, w <:+ t → w.length ≤ d.trigger.length := by
  have hwindow {w : Text} (hw : w ∈ triggersOf definitions) :
      w <:+ t.drop (t.length - (ofList definitions).longest) ↔ w <:+ t :=
    suffix_window_iff (le_longest hw)
  constructor
  · intro h
    obtain ⟨w, hw, hfound, hlongest⟩ := longestSuffix?_eq_some h
    obtain ⟨hne, hlast⟩ := get?_eq_some_iff.mp hfound
    obtain ⟨hmem, rfl⟩ := lastWith?_trigger hlast
    have htrigger := mem_triggersOf.mpr ⟨⟨d, hmem, rfl⟩, hne⟩
    refine ⟨hlast, htrigger, (hwindow htrigger).mp hw, fun v hv hsuffix => ?_⟩
    exact hlongest v ((hwindow hv).mpr hsuffix) (get?_isSome_iff.mpr hv)
  · rintro ⟨hlast, htrigger, hsuffix, hlongest⟩
    have hget := get?_eq_some_iff.mpr ⟨(mem_triggersOf.mp htrigger).2, hlast⟩
    cases hfound : (ofList definitions).lookup t with
    | none =>
      have hnone := longestSuffix?_eq_none
        (fun w hw => shortest_le (get?_isSome_iff.mp hw)) hfound d.trigger
        ((hwindow htrigger).mpr hsuffix)
      rw [hget] at hnone
      cases hnone
    | some found =>
      -- Both triggers are the longest one at the end of the text, so they are the same.
      obtain ⟨w, hw, hfound, hlonger⟩ := longestSuffix?_eq_some hfound
      have hwtrigger := get?_isSome_iff.mp (Option.isSome_of_eq_some hfound)
      have hle := hlongest w hwtrigger ((hwindow hwtrigger).mp hw)
      have hge := hlonger d.trigger ((hwindow htrigger).mpr hsuffix)
        (get?_isSome_iff.mpr htrigger)
      have hsame : w = d.trigger :=
        (List.suffix_of_suffix_length_le ((hwindow hwtrigger).mp hw) hsuffix hle).eq_of_length
          (Nat.le_antisymm hle hge)
      rw [← hfound, hsame, hget]

theorem lookup_eq_none_iff : (ofList definitions).lookup t = none ↔
    ∀ w ∈ triggersOf definitions, ¬ w <:+ t := by
  constructor
  · intro h w hw hsuffix
    have hnone := longestSuffix?_eq_none (fun w hw => shortest_le (get?_isSome_iff.mp hw)) h w
      ((suffix_window_iff (le_longest hw)).mpr hsuffix)
    have hsome := get?_isSome_iff.mpr hw
    rw [hnone] at hsome
    cases hsome
  · intro h
    cases hfound : (ofList definitions).lookup t with
    | none => rfl
    | some d =>
      obtain ⟨_, htrigger, hsuffix, _⟩ := lookup_eq_some_iff.mp hfound
      exact absurd hsuffix (h _ htrigger)

/-! ## An index and its list -/

structure Answers (i : TriggerIndex) (definitions : List Definition) : Prop where
  found : ∀ t d, i.lookup t = some d ↔
    lastWith? definitions d.trigger = some d ∧ d.trigger ∈ triggersOf definitions ∧
      d.trigger <:+ t ∧ ∀ w ∈ triggersOf definitions, w <:+ t → w.length ≤ d.trigger.length
  missed : ∀ t, i.lookup t = none ↔ ∀ w ∈ triggersOf definitions, ¬ w <:+ t
  get : ∀ w, w ≠ [] → i.get? w = lastWith? definitions w
  blank : i.get? [] = none
  size : i.size = (triggersOf definitions).toFinset.card
  bounds : triggersOf definitions ≠ [] →
    (∃ w ∈ triggersOf definitions, w.length = i.shortest) ∧
      (∃ w ∈ triggersOf definitions, w.length = i.longest) ∧
      ∀ w ∈ triggersOf definitions, i.shortest ≤ w.length ∧ w.length ≤ i.longest
  unbounded : triggersOf definitions = [] → i.shortest = 0 ∧ i.longest = 0

theorem ofList_answers (definitions : List Definition) :
    (ofList definitions).Answers definitions := by
  constructor
  · exact fun t d => lookup_eq_some_iff
  · exact fun t => lookup_eq_none_iff
  · intro w hw
    rw [get?_ofList, if_neg hw]
  · rw [get?_ofList, if_pos rfl]
  · exact size_ofList definitions
  · intro hne
    exact ⟨exists_shortest hne, exists_longest hne, fun w hw => ⟨shortest_le hw, le_longest hw⟩⟩
  · intro hnil
    obtain ⟨hshortest, hlongest⟩ := bounds_ofList definitions
    rw [hnil] at hshortest hlongest
    exact ⟨hshortest, hlongest⟩

def logging : List Definition :=
  [⟨"log".toList, "a".toList, none, 0, false⟩, ⟨"logerr".toList, "b".toList, none, 0, false⟩,
    ⟨"log".toList, "c".toList, none, 0, false⟩, ⟨[], "d".toList, none, 0, false⟩]

example : ((ofList logging).lookup "xlog".toList).map (·.body) = some "c".toList := by decide

end TriggerIndex

end Snippets
