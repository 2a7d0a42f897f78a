import Mathlib.Data.List.Basic
import Snippets.Change
import Snippets.Proofs.StableSorting

/-!
# Simultaneous replacement

A batch that is accepted holds ranges that lie one behind the other. Making its edits one by one
from the last to the first is then the same as replacing all ranges at once, and the growth of the
edits in front of a place says where the place is afterwards.
-/

namespace Snippets

variable {α : Type}

theorem filter_append_filter_not {R : α → α → Prop} {p : α → Bool} {l : List α}
    (sorted : l.Pairwise R) (down : ∀ a b, R a b → p b → p a) :
    l.filter p ++ l.filter (fun a => !p a) = l := by
  induction l with
  | nil => rfl
  | cons a rest ih =>
    obtain ⟨ha, hrest⟩ := List.pairwise_cons.mp sorted
    by_cases hp : p a
    · simp [hp, ih hrest]
    · have hnone : rest.filter p = [] := by
        rw [List.filter_eq_nil_iff]
        intro b hb hpb
        exact hp (down a b (ha b hb) hpb)
      have hall : rest.filter (fun b => !p b) = rest := by
        rw [List.filter_eq_self]
        intro b hb
        simpa using List.filter_eq_nil_iff.mp hnone b hb
      simp [hp, hnone, hall]

namespace Span

/-- The range ends before the other one begins, and does not begin where it does. -/
def Precedes (a b : Span) : Prop := a.start < b.start ∧ a.finish ≤ b.start

instance (a b : Span) : Decidable (a.Precedes b) := inferInstanceAs (Decidable (_ ∧ _))

def Apart (a b : Span) : Prop := a.Precedes b ∨ b.Precedes a

instance (a b : Span) : Decidable (a.Apart b) := inferInstanceAs (Decidable (_ ∨ _))

theorem Precedes.trans {a b c : Span} (h : a.Precedes b) (k : b.Precedes c) : a.Precedes c := by
  unfold Precedes at *
  omega

theorem Apart.symm {a b : Span} (h : a.Apart b) : b.Apart a := Or.symm h

end Span

namespace Edit

/-! ## Growth in whole numbers -/

/-- Growth of the document, not wrapped to a word. -/
def gain (e : Edit) : Int := e.text.length - ((e.span.finish : Int) - e.span.start)

def gains : List Edit → Int
  | [] => 0
  | e :: rest => e.gain + gains rest

@[simp] theorem gains_nil : gains [] = 0 := rfl

@[simp] theorem gains_cons (e : Edit) (l : List Edit) : gains (e :: l) = e.gain + gains l := rfl

theorem gains_append (l m : List Edit) : gains (l ++ m) = gains l + gains m := by
  induction l with
  | nil => simp
  | cons e rest ih => simp [ih, Int.add_assoc]

/-- Wrapping every growth on the way does not change what the whole sum wraps to. -/
theorem signed_add_growth (n : Int) (l : List Edit) :
    Word.signed (n + growth l) = Word.signed (n + gains l) := by
  induction l generalizing n with
  | nil => rfl
  | cons e rest ih =>
    calc Word.signed (n + (Word.signed e.gain + growth rest))
        = Word.signed (n + growth rest + Word.signed e.gain) := by congr 1; omega
      _ = Word.signed (n + growth rest + e.gain) := Word.signed_add_signed _ _
      _ = Word.signed (n + e.gain + growth rest) := by congr 1; omega
      _ = Word.signed (n + (e.gain + gains rest)) := by rw [ih]; congr 1; omega

theorem offset_add_growth {n : Int} {l : List Edit} (h : Word.Fits (n + gains l)) :
    Word.offset (n + growth l) = (n + gains l).toNat := by
  rw [Word.offset, signed_add_growth, Word.signed_eq h]

structure Ordered (length : Nat) (edits : List Edit) : Prop where
  upright : ∀ e ∈ edits, e.span.start ≤ e.span.finish
  inside : ∀ e ∈ edits, e.span.finish ≤ length
  apart : edits.Pairwise fun a b => a.span.Precedes b.span

theorem Ordered.tail {length : Nat} {e : Edit} {edits : List Edit}
    (h : Ordered length (e :: edits)) :
    Ordered length edits :=
  ⟨fun a ha => h.upright a (List.mem_cons_of_mem e ha),
    fun a ha => h.inside a (List.mem_cons_of_mem e ha), (List.pairwise_cons.mp h.apart).2⟩

theorem Ordered.head_precedes {length : Nat} {e : Edit} {edits : List Edit}
    (h : Ordered length (e :: edits)) : ∀ b ∈ edits, e.span.Precedes b.span :=
  (List.pairwise_cons.mp h.apart).1

theorem Ordered.sublist {length : Nat} {l m : List Edit} (h : Ordered length m)
    (hl : l.Sublist m) : Ordered length l :=
  ⟨fun e he => h.upright e (hl.subset he), fun e he => h.inside e (hl.subset he),
    h.apart.sublist hl⟩

/-- Ranges between two offsets shrink by no more than the offsets are apart. -/
theorem gains_between {length x y : Nat} {l : List Edit} (h : Ordered length l) (hxy : x ≤ y)
    (hl : ∀ e ∈ l, x ≤ e.span.start ∧ e.span.finish ≤ y) : 0 ≤ (y : Int) - x + gains l := by
  induction l generalizing x with
  | nil =>
    rw [gains_nil]
    omega
  | cons e rest ih =>
    obtain ⟨hstart, hfinish⟩ := hl e List.mem_cons_self
    have hrest := ih h.tail hfinish fun b hb =>
      ⟨(h.head_precedes b hb).2, (hl b (List.mem_cons_of_mem e hb)).2⟩
    rw [gains_cons, gain]
    omega

theorem rangeFault?_eq_none_iff {length : Nat} {edits : List Edit} :
    rangeFault? length edits = none ↔
      ∀ e ∈ edits, e.span.start ≤ e.span.finish ∧ e.span.finish ≤ length := by
  induction edits with
  | nil => simp [rangeFault?]
  | cons e rest ih =>
    simp only [rangeFault?, List.forall_mem_cons, ← ih]
    split
    · simp; omega
    · split
      · simp; omega
      · simp; omega

/-- A neighbour is accepted behind an upright range exactly when the range precedes it. -/
theorem precedes_iff {a b : Span} (ha : a.start ≤ a.finish) :
    a.Precedes b ↔ ¬ (b.start < a.finish ∨ (a.start = b.start ∧ a.IsEmpty)) := by
  unfold Span.IsEmpty Span.Precedes
  omega

theorem overlapFault?_eq_none_iff {edits : List Edit}
    (upright : ∀ e ∈ edits, e.span.start ≤ e.span.finish) :
    overlapFault? edits = none ↔ edits.Pairwise fun a b => a.span.Precedes b.span := by
  induction edits with
  | nil => simp [overlapFault?]
  | cons a rest ih =>
    have ih := ih fun e he => upright e (List.mem_cons_of_mem a he)
    cases rest with
    | nil => simp [overlapFault?]
    | cons b rest =>
      have hab := precedes_iff (b := b.span) (upright a List.mem_cons_self)
      rw [overlapFault?, List.pairwise_cons, List.forall_mem_cons, ← ih, hab]
      split
      · rename_i h
        simp [h]
      · rename_i h
        refine ⟨fun hn => ⟨⟨h, fun c hc => ?_⟩, hn⟩, fun hn => hn.2⟩
        exact (hab.mpr h).trans ((List.pairwise_cons.mp (ih.mp hn)).1 c hc)

end Edit

namespace Batch

open Edit

theorem fault?_eq_none_iff {b : Batch} {length : Nat} :
    b.fault? length = none ↔ Ordered length (sortStable Edit.le b.edits) := by
  rw [Batch.fault?, Option.or_eq_none_iff, rangeFault?_eq_none_iff]
  constructor
  · rintro ⟨hrange, hover⟩
    have hup := fun e he => (hrange e he).1
    exact ⟨hup, fun e he => (hrange e he).2, (overlapFault?_eq_none_iff hup).mp hover⟩
  · rintro ⟨hup, hin, hap⟩
    exact ⟨fun e he => ⟨hup e he, hin e he⟩, (overlapFault?_eq_none_iff hup).mpr hap⟩

/-- Whether a batch is accepted does not depend on the order in which its edits are listed. -/
theorem fault?_eq_none_iff_apart {b : Batch} {length : Nat} :
    b.fault? length = none ↔
      (∀ e ∈ b.edits, e.span.start ≤ e.span.finish ∧ e.span.finish ≤ length) ∧
        b.edits.Pairwise fun a b => a.span.Apart b.span := by
  have hsorted := sortStable_pairwise le_total le_trans b.edits
  have hperm := sortStable_perm Edit.le b.edits
  rw [fault?_eq_none_iff, ← hperm.pairwise_iff fun h => Span.Apart.symm h]
  constructor
  · rintro ⟨hup, hin, hap⟩
    refine ⟨fun e he => ?_, hap.imp Or.inl⟩
    have hs : e ∈ sortStable Edit.le b.edits := mem_sortStable.mpr he
    exact ⟨hup e hs, hin e hs⟩
  · rintro ⟨hrange, hap⟩
    refine ⟨fun e he => (hrange e (mem_sortStable.mp he)).1,
      fun e he => (hrange e (mem_sortStable.mp he)).2, hap.imp₂ (fun a b hap hle => ?_) hsorted⟩
    simp only [Edit.le, Bool.or_eq_true, Bool.and_eq_true, decide_eq_true_eq, beq_iff_eq] at hle
    unfold Span.Apart Span.Precedes at hap
    unfold Span.Precedes
    omega

end Batch

end Snippets
