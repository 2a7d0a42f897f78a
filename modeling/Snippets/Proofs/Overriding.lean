import Snippets.Disk.Memory
import Snippets.Library
import Snippets.Proofs.NameOrder
import Snippets.Proofs.StableSorting
import Snippets.Proofs.Triggers

/-!
# Overriding

Snippets with one trigger override each other. Main statement: of the snippets on a disk the one in
the last file counts, and in a file the one with the greatest name; files that cannot be read or are
bad make no difference. How the entries of a file are read plays no part in it.
-/

namespace Snippets

section

variable {definitions : List Definition} {trigger : Text} {d : Definition}

theorem lastWith?_append (front back : List Definition) (trigger : Text) :
    lastWith? (front ++ back) trigger = (lastWith? back trigger).or (lastWith? front trigger) := by
  rw [lastWith?, lastWith?, lastWith?, List.filter_append, List.getLast?_append]

theorem lastWith?_eq_some_iff : lastWith? definitions trigger = some d ↔
    d.trigger = trigger ∧ ∃ front back, definitions = front ++ d :: back ∧
      ∀ other ∈ back, other.trigger ≠ trigger := by
  rw [lastWith?, List.getLast?_eq_head?_reverse, ← List.filter_reverse, List.head?_filter,
    List.find?_eq_some_iff_append, decide_eq_true_eq]
  refine and_congr_right fun _ => ?_
  constructor
  · rintro ⟨back, front, hsplit, hback⟩
    refine ⟨front.reverse, back.reverse, ?_, fun other hother => ?_⟩
    · rw [← List.reverse_reverse definitions, hsplit]
      simp
    · simpa using hback other (List.mem_reverse.mp hother)
  · rintro ⟨front, back, rfl, hback⟩
    refine ⟨back.reverse, front.reverse, by simp, fun other hother => ?_⟩
    simpa using hback other (List.mem_reverse.mp hother)

variable {α : Type} {f : α → List Definition} {parts : List α}

theorem lastWith?_flatMap_eq_none_iff : lastWith? (parts.flatMap f) trigger = none ↔
    ∀ part ∈ parts, lastWith? (f part) trigger = none := by
  simp only [lastWith?_eq_none_iff, List.mem_flatMap]
  constructor
  · exact fun h part hpart d hd => h d ⟨part, hpart, hd⟩
  · rintro h d ⟨part, hpart, hd⟩
    exact h part hpart d hd

/-- Of the parts of a list the last one that has the trigger counts. -/
theorem lastWith?_flatMap_eq_some_iff : lastWith? (parts.flatMap f) trigger = some d ↔
    ∃ front part back, parts = front ++ part :: back ∧ lastWith? (f part) trigger = some d ∧
      ∀ other ∈ back, lastWith? (f other) trigger = none := by
  induction parts with
  | nil => simp [lastWith?]
  | cons first parts ih =>
    rw [List.flatMap_cons, lastWith?_append, Option.or_eq_some_iff, ih,
      lastWith?_flatMap_eq_none_iff]
    constructor
    · rintro (⟨front, part, back, rfl, hpart, hback⟩ | ⟨hnone, hfirst⟩)
      · exact ⟨first :: front, part, back, rfl, hpart, hback⟩
      · exact ⟨[], first, parts, rfl, hfirst, hnone⟩
    · rintro ⟨front, part, back, hsplit, hpart, hback⟩
      cases front with
      | nil =>
        obtain ⟨rfl, rfl⟩ := List.cons.inj hsplit
        exact Or.inr ⟨hback, hpart⟩
      | cons _ front =>
        obtain ⟨-, rfl⟩ := List.cons.inj hsplit
        exact Or.inl ⟨front, part, back, rfl, hpart, hback⟩

end

namespace SnippetFile

variable {decode : Decoder} {entries sorted : List (Text × Definition)} {name other : Text}
  {d e : Definition}

theorem mem_put (h : sorted.Pairwise (·.1 < ·.1)) : (other, e) ∈ put name d sorted ↔
    (other = name ∧ e = d) ∨ (other ≠ name ∧ (other, e) ∈ sorted) := by
  induction sorted with
  | nil => simp [put]
  | cons first rest ih =>
    obtain ⟨hfirst, hrest⟩ := List.pairwise_cons.mp h
    obtain ⟨n, f⟩ := first
    have hbehind (hmem : (other, e) ∈ rest) : n < other := hfirst _ hmem
    by_cases hname : other = name
    · subst hname
      rw [put]
      split
      · rename_i hsame
        have habsent : (other, e) ∉ rest := fun hmem =>
          absurd (hbehind hmem) (hsame ▸ List.lt_irrefl other)
        simp [habsent]
      · rename_i hdiffer
        split
        · rename_i hlt
          have habsent : (other, e) ∉ rest := fun hmem =>
            absurd (List.lt_trans hlt (hbehind hmem)) (List.lt_irrefl other)
          simp [habsent, hdiffer]
        · rw [List.mem_cons, ih hrest]
          simp [hdiffer]
    · rw [put]
      split
      · rename_i hsame
        simp [hname, ← hsame]
      · split
        · simp [hname]
        · rw [List.mem_cons, ih hrest]
          simp [hname]

theorem put_sorted (h : sorted.Pairwise (·.1 < ·.1)) (name : Text) (d : Definition) :
    (put name d sorted).Pairwise (·.1 < ·.1) := by
  induction sorted with
  | nil => exact List.pairwise_singleton _ _
  | cons first rest ih =>
    obtain ⟨hfirst, hrest⟩ := List.pairwise_cons.mp h
    obtain ⟨n, f⟩ := first
    rw [put]
    split
    · rename_i hsame
      exact List.pairwise_cons.mpr ⟨hsame ▸ hfirst, hrest⟩
    · rename_i hdiffer
      split
      · rename_i hlt
        refine List.pairwise_cons.mpr ⟨fun entry hentry => ?_, h⟩
        rcases List.mem_cons.mp hentry with rfl | hentry
        · exact hlt
        · exact List.lt_trans hlt (hfirst entry hentry)
      · rename_i hge
        refine List.pairwise_cons.mpr ⟨fun entry hentry => ?_, ih hrest⟩
        obtain ⟨other, e⟩ := entry
        rcases (mem_put hrest).mp hentry with ⟨hname, -⟩ | ⟨-, hold⟩
        · rcases lt_trichotomy name n with hlt | heq | hgt
          · exact absurd hlt hge
          · exact absurd heq hdiffer
          · exact hname ▸ hgt
        · exact hfirst _ hold

/-- The entries in the order of their names, each name with what was put there last. -/
theorem sorted_entries (entries : List (Text × Definition)) :
    let sorted := entries.foldl (fun sorted (name, d) => put name d sorted) []
    sorted.Pairwise (·.1 < ·.1) ∧
      ∀ name d, (name, d) ∈ sorted ↔ entries.reverse.lookup name = some d := by
  induction entries using List.reverseRecOn with
  | nil => exact ⟨.nil, by simp⟩
  | append_singleton entries last ih =>
    obtain ⟨hsorted, hmem⟩ := ih
    rw [List.foldl_append, List.reverse_append]
    refine ⟨put_sorted hsorted _ _, fun name d => ?_⟩
    rw [List.foldl_cons, List.foldl_nil, mem_put hsorted, hmem, List.reverse_singleton,
      List.singleton_append, List.lookup_cons]
    by_cases hname : name = last.1
    · simp [hname, eq_comm]
    · simp [hname, beq_false_of_ne hname]

/-- The file has an entry with this name; of entries with one name the last counts. -/
def Maps (decode : Decoder) (t : Text) (name : Text) (d : Definition) : Prop :=
  ∃ entries, decode t = some entries ∧ entries.reverse.lookup name = some d

theorem exists_sorted_of_read? {t : Text} {definitions : List Definition}
    (h : read? t decode = some definitions) : ∃ sorted : List (Text × Definition),
      definitions = sorted.map (·.2) ∧ sorted.Pairwise (·.1 < ·.1) ∧
        ∀ name d, (name, d) ∈ sorted ↔ Maps decode t name d := by
  obtain ⟨entries, hentries, rfl⟩ := Option.map_eq_some_iff.mp h
  obtain ⟨hsorted, hmem⟩ := sorted_entries entries
  refine ⟨_, rfl, hsorted, fun name d => (hmem name d).trans ⟨fun hlookup => ?_, ?_⟩⟩
  · exact ⟨entries, hentries, hlookup⟩
  · rintro ⟨entries', hentries', hlookup⟩
    obtain rfl := Option.some.inj (hentries.symm.trans hentries')
    exact hlookup

theorem not_maps_of_read? {t : Text} (h : read? t decode = none) (name : Text) (d : Definition) :
    ¬ Maps decode t name d := by
  rintro ⟨entries, hentries, -⟩
  rw [read?, hentries] at h
  cases h

/-- In the order of the names the last one with a trigger has the greatest name. -/
theorem lastWith?_sorted (h : sorted.Pairwise (·.1 < ·.1)) {trigger : Text} :
    lastWith? (sorted.map (·.2)) trigger = some d ↔ ∃ name, (name, d) ∈ sorted ∧
      d.trigger = trigger ∧ ∀ other e, (other, e) ∈ sorted → e.trigger = trigger →
        other.bytes ≤ name.bytes := by
  rw [lastWith?_eq_some_iff]
  constructor
  · rintro ⟨htrigger, front, back, hsplit, hback⟩
    obtain ⟨front', rest', rfl, -, hrest⟩ := List.map_eq_append_iff.mp hsplit
    obtain ⟨⟨name, _⟩, back', rfl, rfl, rfl⟩ := List.map_eq_cons_iff.mp hrest
    obtain ⟨-, -, hcross⟩ := List.pairwise_append.mp h
    refine ⟨name, List.mem_append_right _ List.mem_cons_self, htrigger, fun other e hother he => ?_⟩
    rw [Text.bytes_le_bytes_iff]
    rcases List.mem_append.mp hother with hfront | hrest
    · exact List.lt_asymm (hcross _ hfront _ List.mem_cons_self)
    · rcases List.mem_cons.mp hrest with heq | hbehind
      · obtain ⟨rfl, -⟩ := Prod.mk.inj heq
        exact List.lt_irrefl _
      · exact absurd he (hback e (List.mem_map.mpr ⟨_, hbehind, rfl⟩))
  · rintro ⟨name, hmem, htrigger, hgreatest⟩
    obtain ⟨front, back, rfl⟩ := List.append_of_mem hmem
    refine ⟨htrigger, front.map (·.2), back.map (·.2), by simp, fun other hother he => ?_⟩
    obtain ⟨⟨n, _⟩, hbehind, rfl⟩ := List.mem_map.mp hother
    obtain ⟨-, hrest, -⟩ := List.pairwise_append.mp h
    have hlt := (List.pairwise_cons.mp hrest).1 _ hbehind
    have hle := hgreatest n _ (List.mem_append_right _ (List.mem_cons_of_mem _ hbehind)) he
    exact Text.bytes_le_bytes_iff.mp hle hlt

end SnippetFile

namespace Library

open SnippetFile (Decoder)

def Defines (decode : Decoder) (content : Option Text) (name : Text) (d : Definition) : Prop :=
  ∃ t, content = some t ∧ SnippetFile.Maps decode t name d

section

variable (decode : Decoder) (content : Option Text)

theorem definitionsIn_cases :
    (definitionsIn decode content = [] ∧ ∀ name d, ¬ Defines decode content name d) ∨
      ∃ sorted : List (Text × Definition), definitionsIn decode content = sorted.map (·.2) ∧
        sorted.Pairwise (·.1 < ·.1) ∧
          ∀ name d, (name, d) ∈ sorted ↔ Defines decode content name d := by
  cases content with
  | none =>
    refine Or.inl ⟨rfl, ?_⟩
    rintro name d ⟨t, ⟨⟩, -⟩
  | some t =>
    have hdefines (name : Text) (d : Definition) :
        Defines decode (some t) name d ↔ SnippetFile.Maps decode t name d := by
      simp [Defines]
    simp only [hdefines]
    cases hread : SnippetFile.read? t decode with
    | none =>
      exact Or.inl ⟨by simp [definitionsIn, goodIn?, hread], SnippetFile.not_maps_of_read? hread⟩
    | some definitions =>
      obtain ⟨sorted, rfl, hsorted, hmem⟩ := SnippetFile.exists_sorted_of_read? hread
      exact Or.inr ⟨sorted, by simp [definitionsIn, goodIn?, hread], hsorted, hmem⟩

variable {decode content}

theorem lastWith?_definitionsIn_eq_some_iff {trigger : Text} {d : Definition} :
    lastWith? (definitionsIn decode content) trigger = some d ↔
      ∃ name, Defines decode content name d ∧ d.trigger = trigger ∧
        ∀ other e, Defines decode content other e → e.trigger = trigger →
          other.bytes ≤ name.bytes := by
  rcases definitionsIn_cases decode content with ⟨hnil, hnone⟩ | ⟨sorted, hsorted, horder, hmem⟩
  · simp [hnil, hnone, lastWith?]
  · rw [hsorted, SnippetFile.lastWith?_sorted horder]
    simp only [hmem]

theorem lastWith?_definitionsIn_eq_none_iff {trigger : Text} :
    lastWith? (definitionsIn decode content) trigger = none ↔
      ∀ name d, Defines decode content name d → d.trigger ≠ trigger := by
  rw [lastWith?_eq_none_iff]
  rcases definitionsIn_cases decode content with ⟨hnil, hnone⟩ | ⟨sorted, hsorted, -, hmem⟩
  · simp [hnil, hnone]
  · simp only [hsorted, List.mem_map, ← hmem]
    constructor
    · exact fun h name d hd => h d ⟨_, hd, rfl⟩
    · rintro h d ⟨⟨name, _⟩, hd, rfl⟩
      exact h name _ hd

end

theorem exists_front_of_join (directory : Text) : ∃ front : Text, ∀ name : Text,
    name.head? ≠ some '/' → Path.join directory name = front ++ name := by
  by_cases hempty : directory.isEmpty
  · refine ⟨[], fun name hname => ?_⟩
    rw [Path.join, hempty, Bool.or_true, if_pos rfl, List.nil_append]
  by_cases hslash : directory.getLast? = some '/'
  · refine ⟨directory, fun name hname => ?_⟩
    simp [Path.join, hname, hempty, hslash]
  · refine ⟨directory ++ ['/'], fun name hname => ?_⟩
    simp [Path.join, hname, hempty, hslash]

/-- Inside one directory paths are in the order of the names. -/
theorem join_bytes_le {directory a b : Text} (ha : a.head? ≠ some '/') (hb : b.head? ≠ some '/')
    (h : a.bytes ≤ b.bytes) : (Path.join directory a).bytes ≤ (Path.join directory b).bytes := by
  obtain ⟨front, hfront⟩ := exists_front_of_join directory
  rw [hfront a ha, hfront b hb, Text.bytes_append, Text.bytes_append]
  exact List.append_left_le h

/-! ## A disk that is read -/

section

variable (decode : Decoder) (disk : Disk Id) (home : Option Text) (s : Settings)

def content? (path : Text) : Option Text := (disk.read path).run

def ownNames : List Text :=
  match home with
  | none => []
  | some home => (disk.names (snippetsPath home)).run.filter (Path.hasExtension "json".toList)

def ownPath (name : Text) : Text := Path.join ((home.map snippetsPath).getD []) name

def files : List Text := (userFiles disk home).run ++ s.snippetFiles

def index : TriggerIndex := .ofList (loadAll disk home s decode).run

end

section

variable {decode : Decoder} {disk disk' : Disk Id} {home : Option Text} {s s' : Settings}

theorem userFiles_run : (userFiles disk home).run =
    (sortStable (fun a b => !decide (b < a)) (ownNames disk home)).map (ownPath home) := by
  cases home with
  | none => rfl
  | some home => rfl

theorem loadAll_run : (loadAll disk home s decode).run =
    (files disk home s).flatMap fun path => definitionsIn decode (content? disk path) := by
  have hread : (loadAll disk home s decode).run =
      definitionsOf decode ((files disk home s).mapM disk.read).run := rfl
  rw [hread, List.idRun_mapM]
  exact List.flatMap_map ..

theorem names_sorted (names : List Text) :
    (sortStable (fun a b => !decide (b < a)) names).Pairwise (·.bytes ≤ ·.bytes) := by
  have hle (a b : Text) : (!decide (b < a)) = true ↔ a.bytes ≤ b.bytes := by
    rw [Bool.not_eq_true', decide_eq_false_iff_not, Text.bytes_le_bytes_iff]
  refine (sortStable_pairwise (fun a b => ?_) (fun a b c hab hbc => ?_) names).imp
    fun h => (hle _ _).mp h
  · rw [Bool.or_eq_true, hle, hle]
    exact List.le_total a.bytes b.bytes
  · rw [hle] at hab hbc ⊢
    exact List.le_trans hab hbc

/-! ## Bad files -/

def good? (decode : Decoder) (disk : Disk Id) (path : Text) : Option (List Definition) :=
  goodIn? decode (content? disk path)

def goodOwn (decode : Decoder) (disk : Disk Id) (home : Option Text) :
    List (Text × List Definition) :=
  (ownNames disk home).filterMap fun name => (good? decode disk (ownPath home name)).map (name, ·)

/-- Two disks and two lists of files differ in bad files only. -/
structure SameGood (decode : Decoder) (disk disk' : Disk Id) (home : Option Text)
    (s s' : Settings) : Prop where
  own : (goodOwn decode disk home).Perm (goodOwn decode disk' home)
  listed : s.snippetFiles.filterMap (good? decode disk) =
    s'.snippetFiles.filterMap (good? decode disk')

theorem mem_goodOwn {name : Text} {definitions : List Definition}
    (h : (name, definitions) ∈ goodOwn decode disk home) :
    good? decode disk (ownPath home name) = some definitions := by
  obtain ⟨other, -, hother⟩ := List.mem_filterMap.mp h
  obtain ⟨_, hgood, heq⟩ := Option.map_eq_some_iff.mp hother
  obtain ⟨rfl, rfl⟩ := Prod.mk.inj heq
  exact hgood

theorem loadAll_eq_flatten : (loadAll disk home s decode).run =
    ((files disk home s).filterMap (good? decode disk)).flatten := by
  rw [loadAll_run]
  induction files disk home s with
  | nil => rfl
  | cons path rest ih =>
    rw [List.flatMap_cons, ih, List.filterMap_cons]
    unfold definitionsIn good?
    cases goodIn? decode (content? disk path) with
    | none => rfl
    | some definitions => rfl

theorem exists_goodOwn_sorted (decode : Decoder) (disk : Disk Id) (home : Option Text) :
    ∃ sorted : List (Text × List Definition),
      sorted.Perm (goodOwn decode disk home) ∧ sorted.Pairwise (·.1.bytes ≤ ·.1.bytes) ∧
        (userFiles disk home).run.filterMap (good? decode disk) = sorted.map (·.2) := by
  refine ⟨(sortStable (fun a b => !decide (b < a)) (ownNames disk home)).filterMap
    fun name => (good? decode disk (ownPath home name)).map (name, ·), ?_, ?_, ?_⟩
  · exact (sortStable_perm _ _).filterMap _
  · refine (names_sorted (ownNames disk home)).filterMap _ fun a b h => ?_
    intro entry hentry entry' hentry'
    obtain ⟨_, -, rfl⟩ := Option.map_eq_some_iff.mp hentry
    obtain ⟨_, -, rfl⟩ := Option.map_eq_some_iff.mp hentry'
    exact h
  · rw [userFiles_run, List.filterMap_map, List.map_filterMap]
    refine List.filterMap_congr fun name _ => ?_
    rw [Option.map_map]
    exact Option.map_id'.symm

theorem SameGood.loadAll_eq (h : SameGood decode disk disk' home s s') :
    (loadAll disk home s decode).run = (loadAll disk' home s' decode).run := by
  obtain ⟨sorted, hperm, horder, hown⟩ := exists_goodOwn_sorted decode disk home
  obtain ⟨sorted', hperm', horder', hown'⟩ := exists_goodOwn_sorted decode disk' home
  have hsame : sorted = sorted' := by
    have hpp : sorted.Perm sorted' := (hperm.trans h.own).trans hperm'.symm
    refine hpp.eq_of_pairwise ?_ horder horder'
    rintro ⟨name, definitions⟩ ⟨name', definitions'⟩ hmem hmem' hle hge
    -- Equal names are names of one file, which has one content.
    obtain rfl : name = name' := by
      rcases lt_trichotomy name name' with hlt | heq | hgt
      · exact absurd hlt (Text.bytes_le_bytes_iff.mp hge)
      · exact heq
      · exact absurd hgt (Text.bytes_le_bytes_iff.mp hle)
    have hgood := mem_goodOwn (hperm.mem_iff.mp hmem)
    have hgood' := mem_goodOwn (hperm.mem_iff.mp (hpp.mem_iff.mpr hmem'))
    rw [Option.some.inj (hgood.symm.trans hgood')]
  rw [loadAll_eq_flatten, loadAll_eq_flatten, files, files, List.filterMap_append,
    List.filterMap_append, hown, hown', hsame, h.listed]

end

/-! ## Files in memory -/

/-- A file system in memory that cannot be changed any more. -/
def snapshot (m : Memory) : Disk Id where
  read path := m.read? path
  write _ _ := false
  isPresent path := (m.lookup? path).isSome
  names path := m.names path
  makeDirectory _ := ()

theorem run_bind_of_kept {α β : Type} {m : Memory} {request : StateM Memory α} {a : α}
    (h : request.run m = (a, m)) (rest : α → StateM Memory β) :
    (request >>= rest).run m = (rest a).run m := by
  rw [StateT.run_bind, h]
  rfl

theorem mapM_read_run (m : Memory) (paths : List Text) :
    (paths.mapM Memory.disk.read).run m = (paths.map (content? (snapshot m)), m) := by
  induction paths with
  | nil => rfl
  | cons path rest ih =>
    have hread : (Memory.disk.read path).run m = (content? (snapshot m) path, m) := rfl
    rw [List.mapM_cons, run_bind_of_kept hread, run_bind_of_kept ih]
    rfl

theorem userFiles_memory (m : Memory) (home : Option Text) :
    (userFiles Memory.disk home).run m = ((userFiles (snapshot m) home).run, m) := by
  cases home with
  | none => rfl
  | some home => rfl

/-- Reading snippets changes nothing, and finds what the snapshot has. -/
theorem loadAll_memory (decode : Decoder) (m : Memory) (home : Option Text) (s : Settings) :
    (loadAll Memory.disk home s decode).run m =
      ((loadAll (snapshot m) home s decode).run, m) := by
  rw [loadAll, run_bind_of_kept (userFiles_memory m home), loadDefinitions,
    run_bind_of_kept (mapM_read_run m _), loadAll_run, ← List.flatMap_map]
  rfl

/-! ## Which definition counts -/

section

variable {decode : Decoder} {disk : Disk Id} {home : Option Text} {s : Settings}

/-- The last file with the trigger has this definition, and under no greater name another one with
the trigger. -/
def Wins (decode : Decoder) (disk : Disk Id) (paths : List Text) (trigger : Text)
    (d : Definition) : Prop :=
  ∃ front path back name, paths = front ++ path :: back ∧
    (Defines decode (content? disk path) name d ∧ d.trigger = trigger ∧
      ∀ other e, Defines decode (content? disk path) other e → e.trigger = trigger →
        other.bytes ≤ name.bytes) ∧
    ∀ later ∈ back, ∀ other e, Defines decode (content? disk later) other e → e.trigger ≠ trigger

theorem get?_index {trigger : Text} (h : trigger ≠ []) :
    (index decode disk home s).get? trigger = lastWith? ((files disk home s).flatMap fun path =>
      definitionsIn decode (content? disk path)) trigger := by
  rw [index, TriggerIndex.get?_ofList, if_neg h, loadAll_run]

theorem get?_index_eq_some_iff {trigger : Text} (h : trigger ≠ []) {d : Definition} :
    (index decode disk home s).get? trigger = some d ↔
      Wins decode disk (files disk home s) trigger d := by
  rw [get?_index h, lastWith?_flatMap_eq_some_iff]
  simp only [lastWith?_definitionsIn_eq_some_iff, lastWith?_definitionsIn_eq_none_iff]
  constructor
  · rintro ⟨front, path, back, hsplit, ⟨name, hname⟩, hback⟩
    exact ⟨front, path, back, name, hsplit, hname, hback⟩
  · rintro ⟨front, path, back, name, hsplit, hname, hback⟩
    exact ⟨front, path, back, hsplit, ⟨name, hname⟩, hback⟩

theorem get?_index_eq_none_iff {trigger : Text} (h : trigger ≠ []) :
    (index decode disk home s).get? trigger = none ↔ ∀ path ∈ files disk home s, ∀ name d,
      Defines decode (content? disk path) name d → d.trigger ≠ trigger := by
  rw [get?_index h, lastWith?_flatMap_eq_none_iff]
  simp only [lastWith?_definitionsIn_eq_none_iff]

/-- How the snippets on a disk override each other, however the entries of a file are read. -/
structure Overriding (decode : Decoder) (disk : Disk Id) (home : Option Text) (s : Settings) :
    Prop where
  /-- The user's own files come first, in the order of their names. -/
  own : ∃ names : List Text, names.Perm (ownNames disk home) ∧ names.Pairwise (·.bytes ≤ ·.bytes) ∧
    files disk home s = names.map (ownPath home) ++ s.snippetFiles
  /-- That is the order of their paths. -/
  paths : (∀ name ∈ ownNames disk home, name.head? ≠ some '/') →
    (userFiles disk home).run.Pairwise (·.bytes ≤ ·.bytes)
  found : ∀ trigger ≠ [], ∀ d, (index decode disk home s).get? trigger = some d ↔
    Wins decode disk (files disk home s) trigger d
  missed : ∀ trigger ≠ [], (index decode disk home s).get? trigger = none ↔
    ∀ path ∈ files disk home s, ∀ name d,
      Defines decode (content? disk path) name d → d.trigger ≠ trigger
  bad : ∀ disk' s', SameGood decode disk disk' home s s' →
    index decode disk home s = index decode disk' home s'

theorem overriding (decode : Decoder) (disk : Disk Id) (home : Option Text) (s : Settings) :
    Overriding decode disk home s := by
  have hsorted := names_sorted (ownNames disk home)
  constructor
  · exact ⟨_, sortStable_perm _ _, hsorted, by rw [files, userFiles_run]⟩
  · intro hnames
    rw [userFiles_run, List.pairwise_map]
    refine hsorted.imp_of_mem fun ha hb hle => ?_
    exact join_bytes_le (hnames _ (mem_sortStable.mp ha)) (hnames _ (mem_sortStable.mp hb)) hle
  · exact fun _ h _ => get?_index_eq_some_iff h
  · exact fun _ h => get?_index_eq_none_iff h
  · intro disk' s' h
    rw [index, index, h.loadAll_eq]

/-- Two files in one directory, the last of them in the order of the names with two entries that
have one trigger, and a third file that is bad. -/
def clashing : Memory :=
  let place (name : String) := ["snippets".toList, name.toList]
  let file (content : String) : FileEntry := .file (some content.toList)
  { working := []
    entries :=
      [(["snippets".toList], .directory),
        (place "b.json", file "\x7b\"z\":[\"go\",\"one\"],\"B\":[\"go\",\"two\"]\x7d"),
        (place "a.json", file "\x7b\"zz\":[\"go\",\"three\"]\x7d"),
        (place "c.json", file "\x7b\"zzz\":[\"go\",\"four\"]")] }

/-- With the reader of JSON the entry with the greatest name in the last good file counts. -/
theorem clashing_overriding :
    Overriding SnippetFile.entries? (snapshot clashing) (some "/".toList) {} ∧
      ((index SnippetFile.entries? (snapshot clashing) (some "/".toList) {}).get?
        "go".toList).map (·.body) = some "one".toList :=
  ⟨overriding SnippetFile.entries? (snapshot clashing) (some "/".toList) {}, by decide +kernel⟩

end

end Library

end Snippets
