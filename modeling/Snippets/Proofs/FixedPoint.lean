import Mathlib.Data.Nat.Find
import Snippets.Proofs.Moves
import Snippets.Proofs.Settling

/-!
# The next sync

After a sync of a group in line the next sync is for the same group. Its source is its stop, all
members read the same text, and so it has nothing to replace and no stop to move.
-/

namespace Snippets

section

variable {α : Type} {P : α → Bool} {l : List α}

theorem one_lt_countP {i j : Nat} (hij : i < j) {a b : α} (ha : l[i]? = some a)
    (hb : l[j]? = some b) (hPa : P a) (hPb : P b) : 1 < l.countP P := by
  have hfront : 0 < (l.take j).countP P :=
    List.countP_pos_iff.mpr ⟨a, List.mem_of_getElem? ((List.getElem?_take_of_lt hij).trans ha), hPa⟩
  have hbehind : 0 < (l.drop j).countP P := by
    refine List.countP_pos_iff.mpr ⟨b, List.mem_of_getElem? (i := 0) ?_, hPb⟩
    rw [List.getElem?_drop, Nat.add_zero, hb]
  rw [← List.take_append_drop j l, List.countP_append]
  omega

theorem exists_ne_of_one_lt_countP (h : 1 < l.countP P) (q : Nat) :
    ∃ k a, k ≠ q ∧ l[k]? = some a ∧ P a := by
  induction l generalizing q with
  | nil => cases h
  | cons a rest ih =>
    by_cases hq : q = 0
    · have hrest : 0 < rest.countP P := by
        have := List.countP_cons (p := P) (a := a) (l := rest)
        have : (if P a = true then 1 else 0) ≤ 1 := by split <;> omega
        omega
      obtain ⟨b, hb, hPb⟩ := List.countP_pos_iff.mp hrest
      obtain ⟨k, hk⟩ := List.mem_iff_getElem?.mp hb
      exact ⟨k + 1, b, by omega, hk, hPb⟩
    · by_cases hPa : P a
      · exact ⟨0, a, Ne.symm hq, rfl, hPa⟩
      · rw [List.countP_cons_of_neg hPa] at h
        obtain ⟨k, b, hk, hb, hPb⟩ := ih h (q - 1)
        exact ⟨k + 1, b, by omega, hb, hPb⟩

end

namespace Sync.Site

variable {site : Site} {d d' : Document}

def synced (site : Site) (d : Document) : Session :=
  { site.top with stops := LiveStop.normalize (site.stops d) }

theorem exists_of_mem_synced {t : LiveStop} (ht : t ∈ (site.synced d).stops) :
    ∃ (i : Nat) (a : LiveStop), site.top.stops[i]? = some a ∧
      t.toTabStop = { a.toTabStop with span := site.moved d i a } := by
  obtain ⟨new, hnew, heq⟩ := LiveStop.exists_of_mem_normalize ht
  obtain ⟨i, hi⟩ := List.mem_iff_getElem?.mp hnew
  rw [getElem?_stops] at hi
  obtain ⟨a, ha, rfl⟩ := Option.map_eq_some_iff.mp hi
  refine ⟨i, a, ha, ?_⟩
  rw [heq, LiveStop.upright_eq_self (shiftedSpan_upright _ _ _ _ _)]
  rfl

/-- Two stops that have something in common after the sync are at two positions then. -/
theorem exists_other (P : TabStop → Bool) {i j : Nat} {a b : LiveStop} (hij : i < j)
    (ha : site.top.stops[i]? = some a) (hb : site.top.stops[j]? = some b)
    (hPa : P { a.toTabStop with span := site.moved d i a })
    (hPb : P { b.toTabStop with span := site.moved d j b }) (q : Nat) :
    ∃ k t, k ≠ q ∧ (site.synced d).stops[k]? = some t ∧ P t.toTabStop := by
  have hup (k : Nat) (m : LiveStop) (hm : site.top.stops[k]? = some m) :
      ((site.stops d).map (·.upright.toTabStop))[k]? =
        some { m.toTabStop with span := site.moved d k m } := by
    rw [List.getElem?_map, getElem?_stops, hm, Option.map_some, Option.map_some,
      LiveStop.upright_eq_self (shiftedSpan_upright _ _ _ _ _)]
    rfl
  have hcount := one_lt_countP hij (hup i a ha) (hup j b hb) hPa hPb
  rw [← (LiveStop.normalize_perm _).countP_eq] at hcount
  obtain ⟨k, stop, hk, hstop, hPstop⟩ := exists_ne_of_one_lt_countP hcount q
  rw [List.getElem?_map] at hstop
  obtain ⟨t, ht, rfl⟩ := Option.map_eq_some_iff.mp hstop
  exact ⟨k, t, hk, ht, hPstop⟩

theorem shifted_nil {offset : Nat} (fits : offset < 9223372036854775808) (position : Nat) :
    shifted [] offset position = offset := by
  have hoffset : shifted [] offset position = Word.offset offset := rfl
  rw [hoffset, Word.offset_eq]
  · exact Int.toNat_natCast offset
  · unfold Word.Fits
    omega

/-- A sync that replaces nothing and takes no more than its stop leaves all stops where they are. -/
theorem Sound.stops_eq (h : site.Sound d) (fits : d.text.length < 9223372036854775808)
    (source : site.source d = site.stop.span) (nil : site.edits d = []) :
    site.stops d = site.top.stops := by
  apply List.ext_getElem?
  intro k
  rw [getElem?_stops, nil, source]
  cases ht : site.top.stops[k]? with
  | none => rfl
  | some t =>
    have hmem := List.mem_of_getElem? ht
    have hup := h.normal.upright t hmem
    have hin := h.inside t hmem
    have hspan : shiftedSpan [] site.current site.stop.span.length t.span k = t.span := by
      unfold shiftedSpan
      rw [shifted_nil (by omega), shifted_nil (by omega)]
      by_cases hk : k = site.current
      · obtain rfl : t = site.stop := by
          rw [hk, h.stop, Option.some_inj] at ht
          exact ht.symm
        rw [if_pos (Or.inl hk), Span.length, Nat.add_sub_cancel' hup]
      · rw [if_neg (by simp [hk]), Nat.max_eq_right hup]
    rw [Option.map_some, hspan]

structure Followed (site : Site) (d d' : Document) : Prop where
  text : d'.text = d.text.replaceFrom 0 ((site.edits d).map (·.2))
  head : (d'.selection.head : Int) = site.landing d d.selection.head
  anchor : (d'.selection.anchor : Int) = site.landing d d.selection.anchor

theorem followed_of_nil (nil : site.edits d = []) : site.Followed d d := by
  constructor
  · rw [nil]
    rfl
  · rw [landing, nil]
    rfl
  · rw [landing, nil]
    rfl

theorem Sound.followed_of_apply (h : site.Sound d) {origin : Origin} {change : Change}
    (inside : d.SelectionInside) (fits' : d'.Fits)
    (happly : d.apply ⟨(site.plan d).edits, origin⟩ = .ok (change, d')) : site.Followed d d' := by
  obtain ⟨hfault, hchange, htext⟩ := Document.apply_eq_ok happly
  obtain ⟨hedits, hordered⟩ := h.accepted hfault
  rw [← hchange] at hedits
  have hselection := Document.apply_selection happly
  have hcarried {x : Nat} (hx : x ≤ d.text.length) :
      ((min (change.mapOffset x .before) d'.text.length : Nat) : Int) = site.landing d x := by
    rw [← hedits] at hordered
    have hfits : (d.text.replaceFrom 0 change.edits).length < 9223372036854775808 := htext ▸ fits'
    have hle := Change.mapOffset_le_length hordered hfits hx .before
    rw [← htext] at hle
    rw [Nat.min_eq_left hle, Change.mapOffset_eq hordered hfits hx, hedits]
    rfl
  constructor
  · rw [htext, hedits]
  · rw [hselection]
    exact hcarried inside.2
  · rw [hselection]
    exact hcarried inside.1

namespace InLine

variable (h : site.InLine d) {origin : Origin}
  (hf : Batch.fault? ⟨(site.plan d).edits, origin⟩ d.text.length = none)
  (fits : d.text.length < 9223372036854775808)
  (fits' : (d.text.replaceFrom 0 ((site.edits d).map (·.2))).length < 9223372036854775808)
  (followed : site.Followed d d')
  (current : site.top.currentPosition? d.selection = some site.current)

include h hf fits fits'

/-- A member listed at or after the current stop does not get in front of it unless both are empty
at one place. -/
theorem moved_eq {i : Nat} {a : LiveStop} (ha : site.Member i a) (hi : site.current ≤ i)
    {t now : LiveStop} (hle : LiveStop.le t now) (ht : t.span = site.moved d i a)
    (hnow : now.span = site.moved d site.current site.stop) :
    t.span = site.moved d site.current site.stop := by
  rcases Nat.lt_or_eq_of_le hi with hlt | heq
  · have hapart := h.moved_apart h.member_current ha hf fits fits' hlt
    have hup : (site.moved d i a).start ≤ (site.moved d i a).finish := shiftedSpan_upright _ _ _ _ _
    have hup' : (site.moved d site.current site.stop).start ≤
        (site.moved d site.current site.stop).finish := shiftedSpan_upright _ _ _ _ _
    rw [LiveStop.le_iff, ht, hnow] at hle
    rw [ht]
    cases hi : site.moved d i a with
    | mk start finish =>
      cases hp : site.moved d site.current site.stop with
      | mk start' finish' =>
        rw [hi] at hapart hup hle
        rw [hp] at hapart hup' hle
        dsimp only at *
        congr 1
        · omega
        · omega
  · rw [ht, ← heq, h.eq_current ha heq.symm]

omit hf fits fits' in
/-- A member that bounds the source is listed behind the current stop. In front of it only an empty
one could, and then the user would be in that one. -/
theorem lt_of_bounds (current : site.top.currentPosition? d.selection = some site.current) {i : Nat}
    {m : LiveStop} (hm : site.Member i m) (hne : i ≠ site.current)
    (bounds : site.stop.span.finish ≤ m.span.start) : site.current < i := by
  by_contra hle
  have hlt : i < site.current := by omega
  have hapart := h.apart hm h.member_current hlt
  have hstop := h.sound.stop_bounds
  have hup := h.member_upright hm
  obtain ⟨hbefore, htouch | hfar⟩ := h.picked current
  · have := hbefore i m hm hlt
    unfold Span.Touches at htouch
    omega
  · exact hle (Nat.lt_of_le_of_ne (hfar i m hm).2 (Ne.symm hne))

omit hf fits fits' in
/-- When the source ends where a member behind the current stop begins, so does the next member, and
nothing is replaced in between. -/
theorem exists_nearest {i : Nat} {m : LiveStop} (hm : site.Member i m) (hi : site.current < i)
    (hstart : m.span.start = (site.source d).finish) :
    ∃ j b, site.current < j ∧ site.Member j b ∧ b.span.start = (site.source d).finish ∧
      site.lead d j = site.lead d (site.current + 1) := by
  classical
  have hex : ∃ j, site.current < j ∧ ∃ b, site.Member j b := ⟨i, hi, m, hm⟩
  obtain ⟨hj, b, hb⟩ := Nat.find_spec hex
  have hleast : ∀ k, site.current < k → (∃ b, site.Member k b) → Nat.find hex ≤ k :=
    fun k hk hb => Nat.find_min' hex ⟨hk, hb⟩
  generalize Nat.find hex = j at hj hb hleast
  refine ⟨j, b, hj, hb, ?_, gainsOf_congr fun c hc => ?_⟩
  · have hle := h.reach_le h.member_current hb hj
    rw [reach_current] at hle
    have := h.start_le hb hm (hleast i hi ⟨m, hm⟩)
    omega
  · obtain ⟨n, hn, _⟩ := h.member_of_edit hc
    rw [decide_eq_decide]
    constructor
    · intro hlt
      by_contra hgt
      have := hleast c.1 (by omega) ⟨n, hn⟩
      omega
    · intro hlt
      omega

include followed current

theorem current_span {q : Nat} (hq : (site.synced d).currentPosition? d'.selection = some q) :
    ∃ stop, (site.synced d).stops[q]? = some stop ∧ stop.index = site.top.current ∧
      stop.span = site.moved d site.current site.stop := by
  obtain ⟨now, hnow, hspan, hsame⟩ := exists_normalized (d := d) h.sound.stop
  obtain ⟨k, hk⟩ := List.mem_iff_getElem?.mp hnow
  have hindex : now.index = site.top.current :=
    (congrArg TabStop.index hsame).trans h.current
  obtain ⟨stop, hstop, hstopIndex, hpicked⟩ := Session.currentPosition?_cases hq
  obtain ⟨i, a, ha, heq⟩ := exists_of_mem_synced (List.mem_of_getElem? hstop)
  have hmember : site.Member i a := ⟨ha, (congrArg TabStop.index heq).symm.trans hstopIndex⟩
  have hmoved : stop.span = site.moved d i a := congrArg TabStop.span heq
  have hfirst : q ≤ k → LiveStop.le stop now :=
    (LiveStop.normalize_normal (site.stops d)).le_of_le hstop hk
  refine ⟨stop, hstop, hstopIndex, ?_⟩
  rcases h.lands hf fits fits' current followed.head with ⟨htouch, hbefore⟩ | hnone
  · rcases hpicked with ⟨hstopTouch, hleast⟩ | hfar
    · have hi := hbefore i a hmember (hmoved ▸ hstopTouch)
      have hle := hfirst (hleast k now hk hindex (hspan ▸ htouch))
      exact h.moved_eq hf fits fits' hmember hi hle hmoved hspan
    · exact absurd (hspan ▸ htouch) (hfar k now hk hindex).1
  · rcases hpicked with ⟨hstopTouch, _⟩ | hfar
    · exact absurd (hmoved ▸ hstopTouch) (hnone i a hmember).1
    · have hle := hfirst (hfar k now hk hindex).2
      exact h.moved_eq hf fits fits' hmember (hnone i a hmember).2 hle hmoved hspan

end InLine

structure Repeats (site : Site) (d d' : Document) (again : Site) : Prop where
  top : again.top = site.synced d
  sound : again.Sound d'
  index : again.stop.index = site.top.current
  span : again.stop.span = site.moved d site.current site.stop

namespace Repeats

variable {again : Site} (r : site.Repeats d d' again) (h : site.InLine d)

include r h

theorem member_of_index {k : Nat} {t : LiveStop} (ht : again.top.stops[k]? = some t)
    (hindex : t.index = site.top.current) : ∃ (i : Nat) (a : LiveStop), site.Member i a ∧
      t.span = site.moved d i a ∧ site.stop.SameGroup t := by
  rw [r.top] at ht
  obtain ⟨i, a, ha, heq⟩ := exists_of_mem_synced (List.mem_of_getElem? ht)
  have hmember : site.Member i a := ⟨ha, (congrArg TabStop.index heq).symm.trans hindex⟩
  obtain ⟨group, hstop, hgroup⟩ := (h.group a (List.mem_of_getElem? ha)).mpr hmember.index
  exact ⟨i, a, hmember, congrArg TabStop.span heq, group, hstop,
    (congrArg TabStop.group heq).trans hgroup⟩

theorem sameGroup_iff {k : Nat} {t : LiveStop} (ht : again.top.stops[k]? = some t) :
    again.stop.SameGroup t ↔ t.index = site.top.current := by
  obtain ⟨_, _, _, _, group, hstop, hagain⟩ := r.member_of_index h r.sound.stop r.index
  constructor
  · rintro ⟨group', hagain', ht'⟩
    rw [hagain, Option.some_inj] at hagain'
    rw [r.top] at ht
    obtain ⟨i, a, ha, heq⟩ := exists_of_mem_synced (List.mem_of_getElem? ht)
    have hgroup : a.group = some group' := (congrArg TabStop.group heq).symm.trans ht'
    refine (congrArg TabStop.index heq).trans ?_
    exact (h.group a (List.mem_of_getElem? ha)).mp ⟨group', hagain' ▸ hstop, hgroup⟩
  · intro hindex
    obtain ⟨_, _, _, _, group', hstop', ht'⟩ := r.member_of_index h ht hindex
    rw [hstop, Option.some_inj] at hstop'
    exact ⟨group, hagain, hstop' ▸ ht'⟩

theorem mem_linked {k : Nat} : k ∈ again.stop.linked ↔
    k ≠ again.current ∧ ∃ t, again.top.stops[k]? = some t ∧ t.index = site.top.current := by
  rw [r.sound.linked_eq, LiveStop.mem_linksAt]
  refine and_congr_right fun _ => exists_congr fun t => and_congr_right fun ht => ?_
  exact r.sameGroup_iff h ht

theorem isReference : again.stop.isReference := by
  obtain ⟨_, _, _, _, group, _, hagain⟩ := r.member_of_index h r.sound.stop r.index
  rw [LiveStop.isReference, hagain]
  rfl

theorem linked_ne_nil (linked : site.stop.linked ≠ []) : again.stop.linked ≠ [] := by
  obtain ⟨j, hj⟩ := List.exists_mem_of_ne_nil _ linked
  obtain ⟨b, hb⟩ := h.sound.exists_of_mem_linked hj
  obtain ⟨hne, hmember⟩ := (h.linked_iff hb).mp hj
  have hother : ∃ k t, k ≠ again.current ∧ (site.synced d).stops[k]? = some t ∧
      (t.index == site.top.current) = true := by
    rcases Nat.lt_or_gt_of_ne hne with hlt | hlt
    · exact exists_other (fun t => t.index == site.top.current) hlt hb h.sound.stop
        (by simpa using hmember.index) (by simpa using h.current) _
    · exact exists_other (fun t => t.index == site.top.current) hlt h.sound.stop hb
        (by simpa using h.current) (by simpa using hmember.index) _
  obtain ⟨k, t, hk, ht, hindex⟩ := hother
  rw [← r.top] at ht
  exact List.ne_nil_of_mem ((r.mem_linked h).mpr ⟨hk, t, ht, by simpa using hindex⟩)

variable {origin : Origin}
  (hf : Batch.fault? ⟨(site.plan d).edits, origin⟩ d.text.length = none)
  (fits : d.text.length < 9223372036854775808)
  (fits' : (d.text.replaceFrom 0 ((site.edits d).map (·.2))).length < 9223372036854775808)

include hf fits fits'

/-- The selection was carried to the end of the moved stop at most, if it ended in the source. -/
theorem selection_le (followed : site.Followed d d')
    (short : d.selection.span.finish ≤ (site.source d).finish) :
    d'.selection.span.finish ≤ again.stop.span.finish := by
  have hfinish := h.moved_finish h.member_current hf fits fits'
  rw [reach_current, h.lead_current] at hfinish
  obtain ⟨hanchor, hhead⟩ := Nat.max_le.mp short
  have hanchor' := h.landing_le hf hanchor
  have hhead' := h.landing_le hf hhead
  have := followed.anchor
  have := followed.head
  rw [r.span]
  exact Nat.max_le.mpr ⟨by omega, by omega⟩

/-- The source ended where another member begins, so the moved stop ends where a member begins. -/
theorem exists_next {i : Nat} {m : LiveStop} (hm : site.Member i m) (hi : site.current < i)
    (hstart : m.span.start = (site.source d).finish) :
    ∃ k t, k ∈ again.stop.linked ∧ again.top.stops[k]? = some t ∧
      t.span.start = again.stop.span.finish := by
  obtain ⟨j, b, hj, hb, hbstart, hlead⟩ := h.exists_nearest hm hi hstart
  have hmoved : (site.moved d j b).start = again.stop.span.finish := by
    have hfinish := h.moved_finish h.member_current hf fits fits'
    have hstart' := h.moved_start hb hf fits fits'
    rw [reach_current] at hfinish
    rw [r.span]
    omega
  by_cases hempty : (site.moved d site.current site.stop).start = again.stop.span.finish
  · -- Both are empty at one place, and the current stop of the second sync is one of them.
    obtain ⟨k, t, hk, ht, hPt⟩ := exists_other (d := d)
      (fun t => t.index == site.top.current && t.span.start == again.stop.span.finish) hj
      h.sound.stop hb.stop (by simpa using ⟨h.current, hempty⟩)
      (by simpa using ⟨hb.index, hmoved⟩) again.current
    simp only [Bool.and_eq_true, beq_iff_eq] at hPt
    rw [← r.top] at ht
    exact ⟨k, t, (r.mem_linked h).mpr ⟨hk, t, ht, hPt.1⟩, ht, hPt.2⟩
  · obtain ⟨t, ht, hspan, hsame⟩ := exists_normalized (d := d) hb.stop
    obtain ⟨k, hk⟩ := List.mem_iff_getElem?.mp ht
    have hnext : t.span.start = again.stop.span.finish := (congrArg Span.start hspan).trans hmoved
    have hindex : t.index = site.top.current := (congrArg TabStop.index hsame).trans hb.index
    have hlisted : again.top.stops[k]? = some t := by
      rw [r.top]
      exact hk
    have hne : k ≠ again.current := by
      intro heq
      have hstop := r.sound.stop
      rw [← heq] at hstop
      obtain rfl := Option.some.inj (hlisted.symm.trans hstop)
      rw [r.span] at hnext hempty
      exact hempty hnext
    exact ⟨k, t, (r.mem_linked h).mpr ⟨hne, t, hlisted, hindex⟩, hlisted, hnext⟩

/-- A second sync takes exactly the text of its stop. -/
theorem source_eq (followed : site.Followed d d')
    (current : site.top.currentPosition? d.selection = some site.current)
    (inside : d.SelectionInside) : again.source d' = again.stop.span := by
  by_cases hshort : d.selection.span.finish ≤ (site.source d).finish
  · exact r.sound.source_eq (r.selection_le h hf fits fits' followed hshort)
  have hselection : d.selection.span.finish ≤ d.text.length := Nat.max_le.mpr inside
  have hsource := h.sound.source_finish
  rcases site.bound_cases d with hend | ⟨i, hi, m, hm, hbound, hle⟩
  · omega
  obtain ⟨hne, hmember⟩ := (h.linked_iff hm).mp hi
  have hbehind : site.current < i := h.lt_of_bounds current hmember hne hle
  obtain ⟨k, t, hk, ht, hnext⟩ := r.exists_next h hf fits fits' hmember hbehind (by omega)
  have hle := r.sound.source_finish_le hk ht (Nat.le_of_eq hnext.symm)
  have hge := r.sound.finish_le_source
  exact r.sound.source_eq_of_finish (by omega)

theorem edits_eq_nil (source : again.source d' = again.stop.span)
    (text : d'.text = d.text.replaceFrom 0 ((site.edits d).map (·.2))) : again.edits d' = [] := by
  have hreads {k : Nat} {t : LiveStop} (ht : again.top.stops[k]? = some t)
      (hindex : t.index = site.top.current) : d'.text.slice t.span = site.text d := by
    obtain ⟨i, a, ha, hspan, _⟩ := r.member_of_index h ht hindex
    rw [text, hspan]
    exact h.slice_moved ha hf fits fits'
  refine List.eq_nil_iff_forall_not_mem.mpr fun c hc => ?_
  obtain ⟨t, ht, _⟩ := mem_edits.mp (show (c.1, c.2) ∈ again.edits d' from hc)
  obtain ⟨_, t', ht', hindex⟩ := (r.mem_linked h).mp ht.linked
  obtain rfl := Option.some.inj (ht'.symm.trans ht.stop)
  have htext : again.text d' = site.text d := by
    rw [Site.text, source]
    exact hreads r.sound.stop r.index
  exact ht.differs ((hreads ht.stop hindex).trans htext.symm)

end Repeats

/-- Syncing again finds a group that agrees, and its stop unstretched. -/
theorem InLine.exists_again (h : site.InLine d) {origin : Origin}
    (hf : Batch.fault? ⟨(site.plan d).edits, origin⟩ d.text.length = none) (fits : d.Fits)
    (fits' : d'.Fits) (followed : site.Followed d d')
    (current : site.top.currentPosition? d.selection = some site.current)
    (inside : d.SelectionInside) (linked : site.stop.linked ≠ []) (outer : List Session)
    (nextId : Nat) :
    ∃ again : Site, again.At ⟨site.synced d :: outer, nextId⟩ d'.selection ∧ again.Sound d' ∧
      again.edits d' = [] ∧ again.stops d' = again.top.stops := by
  have hfits' : (d.text.replaceFrom 0 ((site.edits d).map (·.2))).length < 9223372036854775808 :=
    followed.text ▸ fits'
  obtain ⟨now, hnow, _, hsame⟩ := exists_normalized (d := d) h.sound.stop
  have hindex : now.index = (site.synced d).current :=
    (congrArg TabStop.index hsame).trans h.current
  obtain ⟨q, hq⟩ := (site.synced d).exists_currentPosition? hnow hindex d'.selection
  obtain ⟨stop, hstop, hstopIndex, hspan⟩ :=
    h.current_span hf fits hfits' followed current hq
  have hplaced := Session.placed_of_bounds (h.sound.stops_bounds hf fits hfits') site.top.id
    site.top.current
  rw [← followed.text] at hplaced
  have r : site.Repeats d d' ⟨site.synced d, outer, q, stop⟩ :=
    ⟨rfl, ⟨hstop, hplaced.normal, hplaced.inside⟩, hstopIndex, hspan⟩
  have hsource := r.source_eq h hf fits hfits' followed current inside
  have hnil := r.edits_eq_nil h hf fits hfits' hsource followed.text
  exact ⟨_, ⟨rfl, hq, hstop, r.isReference h, r.linked_ne_nil h linked⟩, r.sound, hnil,
    r.sound.stops_eq fits' hsource hnil⟩

end Sync.Site

end Snippets
