import Mathlib.Data.List.Sort
import Mathlib.Data.List.TakeWhile

/-! # Ordered sets

A set of a linear order, kept as its elements in increasing order: insertion, removal, the first
element, and the elements below a bound.
-/

structure OrderedSet (α : Type*) [LinearOrder α] where
  toList : List α
  sorted : toList.Pairwise (· < ·)

namespace OrderedSet

variable {α : Type*} [LinearOrder α]

instance : Membership α (OrderedSet α) := ⟨fun s a => a ∈ s.toList⟩

instance (s : OrderedSet α) (a : α) : Decidable (a ∈ s) := inferInstanceAs (Decidable (a ∈ s.toList))

theorem nodup (s : OrderedSet α) : s.toList.Nodup := s.sorted.imp ne_of_lt

def empty : OrderedSet α := ⟨[], List.Pairwise.nil⟩

@[simp]
theorem not_mem_empty (a : α) : a ∉ (empty : OrderedSet α) := List.not_mem_nil

/-! ## Insertion and removal -/

theorem sorted_orderedInsert {a : α} {l : List α} (h : l.Pairwise (· < ·)) (ha : a ∉ l) :
    (l.orderedInsert (· ≤ ·) a).Pairwise (· < ·) := by
  have hle : (l.orderedInsert (· ≤ ·) a).Pairwise (· ≤ ·) := (h.imp le_of_lt).orderedInsert a l
  have hnodup : (l.orderedInsert (· ≤ ·) a).Nodup :=
    (List.perm_orderedInsert (· ≤ ·) a l).nodup_iff.mpr (List.nodup_cons.mpr ⟨ha, h.imp ne_of_lt⟩)
  exact hle.and hnodup |>.imp fun hab => lt_of_le_of_ne hab.1 hab.2

/-- An element that is there already stays as it is. -/
def insert (s : OrderedSet α) (a : α) : OrderedSet α :=
  if h : a ∈ s.toList then s else ⟨s.toList.orderedInsert (· ≤ ·) a, sorted_orderedInsert s.sorted h⟩

@[simp]
theorem mem_insert {s : OrderedSet α} {a b : α} : b ∈ s.insert a ↔ b = a ∨ b ∈ s := by
  unfold insert
  split
  · rename_i ha
    constructor
    · exact Or.inr
    · rintro (rfl | hb)
      · exact ha
      · exact hb
  · exact List.mem_orderedInsert (· ≤ ·)

theorem perm_insert {s : OrderedSet α} {a : α} (h : a ∉ s) : (s.insert a).toList.Perm (a :: s.toList) := by
  rw [insert, dif_neg (by exact h)]
  exact List.perm_orderedInsert (· ≤ ·) a s.toList

def erase (s : OrderedSet α) (a : α) : OrderedSet α :=
  ⟨s.toList.erase a, s.sorted.sublist List.erase_sublist⟩

@[simp]
theorem mem_erase {s : OrderedSet α} {a b : α} : b ∈ s.erase a ↔ b ≠ a ∧ b ∈ s :=
  s.nodup.mem_erase_iff

theorem perm_erase {s : OrderedSet α} {a : α} (h : a ∈ s) : s.toList.Perm (a :: (s.erase a).toList) :=
  List.perm_cons_erase h

/-! ## Order -/

def first (s : OrderedSet α) : Option α := s.toList.head?

theorem first_none {s : OrderedSet α} : s.first = none ↔ ∀ a, a ∉ s := by
  rw [first, List.head?_eq_none_iff, List.eq_nil_iff_forall_not_mem]
  exact Iff.rfl

theorem mem_of_first {s : OrderedSet α} {a : α} (h : s.first = some a) : a ∈ s := List.mem_of_head? h

theorem first_le {s : OrderedSet α} {a b : α} (h : s.first = some a) (hb : b ∈ s) : a ≤ b := by
  obtain ⟨rest, hrest⟩ := List.head?_eq_some_iff.mp h
  have hsorted := s.sorted
  have hmem : b ∈ s.toList := hb
  rw [hrest] at hsorted hmem
  rcases List.mem_cons.mp hmem with rfl | hlater
  · exact le_refl b
  · exact le_of_lt (List.rel_of_pairwise_cons hsorted hlater)

/-- The elements before the first one that is not below `b`. -/
def below (s : OrderedSet α) (b : α) : List α := s.toList.takeWhile (· < b)

/-- What is left without them. -/
def eraseBelow (s : OrderedSet α) (b : α) : OrderedSet α :=
  ⟨s.toList.dropWhile (· < b), s.sorted.sublist (List.dropWhile_sublist _)⟩

theorem le_of_mem_dropWhile {l : List α} (h : l.Pairwise (· < ·)) {a b : α} (ha : a ∈ l.dropWhile (· < b)) :
    b ≤ a := by
  induction l with
  | nil => cases ha
  | cons c l ih =>
    obtain ⟨hc, hl⟩ := List.pairwise_cons.mp h
    by_cases hcb : c < b
    · rw [List.dropWhile_cons_of_pos (by simpa using hcb)] at ha
      exact ih hl ha
    · rw [List.dropWhile_cons_of_neg (by simpa using hcb)] at ha
      have hbc : b ≤ c := not_lt.mp hcb
      rcases List.mem_cons.mp ha with rfl | ha
      · exact hbc
      · exact hbc.trans (le_of_lt (hc a ha))

theorem mem_eraseBelow {s : OrderedSet α} {a b : α} (ha : a ∈ s.eraseBelow b) : a ∈ s ∧ b ≤ a :=
  ⟨(List.dropWhile_sublist _).subset ha, le_of_mem_dropWhile s.sorted ha⟩

theorem below_append (s : OrderedSet α) (b : α) : s.below b ++ (s.eraseBelow b).toList = s.toList :=
  List.takeWhile_append_dropWhile

theorem below_eq_filter (s : OrderedSet α) (b : α) : s.below b = s.toList.filter (· < b) := by
  have hbelow : (s.below b).filter (· < b) = s.below b := by
    rw [List.filter_eq_self]
    intro a ha
    have hlt := List.mem_takeWhile_imp (show a ∈ s.toList.takeWhile (· < b) from ha)
    exact hlt
  have hrest : (s.eraseBelow b).toList.filter (· < b) = [] := by
    rw [List.filter_eq_nil_iff]
    intro a ha
    simpa using (mem_eraseBelow ha).2
  rw [← s.below_append b, List.filter_append, hbelow, hrest, List.append_nil]

end OrderedSet
