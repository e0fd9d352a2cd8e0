import Mathlib.Data.List.Basic

/-! # Copying ranges of an array

What `std::copy` does on an array, the array given as a list. Each operation is `none` where C++
leaves it undefined: an index outside the array, or a target inside the range that it copies.
-/

namespace RangeCopy

variable {α : Type*}

/-- The elements with index `i ≤ k < j`. -/
def slice (l : List α) (i j : Nat) : List α := (l.drop i).take (j - i)

/-- `l` with `data` written over the elements from index `dst` on. -/
def overwrite (l : List α) (dst : Nat) (data : List α) : List α :=
  l.take dst ++ data ++ l.drop (dst + data.length)

/-- Reads `n` elements from index `first` on. -/
def readRange (l : List α) (first n : Nat) : Option (List α) :=
  if first + n ≤ l.length then some (slice l first (first + n)) else none

/-- Copies `data`, which lies outside the array, to index `dst` on. -/
def copyInto (l : List α) (dst : Nat) (data : List α) : Option (List α) :=
  if dst + data.length ≤ l.length then some (overwrite l dst data) else none

/-- `n` assignments, lowest index first, each reading what the array holds by then. -/
def copyLoop (l : List α) (first dst : Nat) : Nat → List α
  | 0 => l
  | n + 1 =>
    match l[first]? with
    | some a => copyLoop (l.set dst a) (first + 1) (dst + 1) n
    | none => l

/-- Copies the elements from `first` up to `last` to index `dst` on, in the same array. -/
def copyWithin (l : List α) (first last dst : Nat) : Option (List α) :=
  if first ≤ last ∧ last ≤ l.length ∧ dst + (last - first) ≤ l.length ∧ ¬ (first ≤ dst ∧ dst < last) then
    some (copyLoop l first dst (last - first))
  else none

/-! ## Slices -/

@[simp]
theorem slice_length (l : List α) (i j : Nat) : (slice l i j).length = min (j - i) (l.length - i) := by
  simp [slice]

theorem slice_self (l : List α) (i : Nat) : slice l i i = [] := by simp [slice]

theorem slice_drop (l : List α) (i j n : Nat) : (slice l i j).drop n = slice l (i + n) j := by
  rw [slice, slice, List.drop_take, List.drop_drop]
  congr 1
  omega

theorem slice_take (l : List α) (i j n : Nat) (h : i + n ≤ j) :
    (slice l i j).take n = slice l i (i + n) := by
  rw [slice, slice, List.take_take]
  congr 1
  omega

theorem slice_append_slice (l : List α) {i j k : Nat} (hij : i ≤ j) (hjk : j ≤ k) :
    slice l i j ++ slice l j k = slice l i k := by
  have hk : k - i = (j - i) + (k - j) := by omega
  rw [slice, slice, slice, hk, List.take_add, List.drop_drop, Nat.add_sub_cancel' hij]

theorem slice_append_left (l m : List α) (i j : Nat) (h : j ≤ l.length) :
    slice (l ++ m) i j = slice l i j := by
  rcases Nat.le_total i l.length with hi | hi
  · rw [slice, slice, List.drop_append_of_le_length hi, List.take_append_of_le_length (by simp; omega)]
  · rw [slice, slice, Nat.sub_eq_zero_of_le (by omega), List.take_zero, List.take_zero]

/-! ## Overwriting -/

theorem overwrite_length (l : List α) (dst : Nat) (data : List α) (h : dst + data.length ≤ l.length) :
    (overwrite l dst data).length = l.length := by
  simp only [overwrite, List.length_append, List.length_take, List.length_drop]
  omega

theorem slice_overwrite_left (l : List α) (dst : Nat) (data : List α) (i : Nat) (hi : i ≤ dst)
    (h : dst ≤ l.length) :
    slice (overwrite l dst data) i (dst + data.length) = slice l i dst ++ data := by
  have hlen : (l.take dst).length = dst := by simp [h]
  rw [overwrite, slice_append_left _ _ _ _ (by simp; omega), slice, slice,
    List.drop_append_of_le_length (by omega), List.drop_take, List.take_of_length_le]
  simp only [List.length_append, List.length_take, List.length_drop]
  omega

theorem slice_overwrite_right (l : List α) (dst : Nat) (data : List α) (j : Nat)
    (hj : dst + data.length ≤ j) (h : dst ≤ l.length) :
    slice (overwrite l dst data) dst j = data ++ slice l (dst + data.length) j := by
  have hdrop : (overwrite l dst data).drop dst = data ++ l.drop (dst + data.length) := by
    rw [overwrite, List.append_assoc, List.drop_append_of_le_length (by simp [h]),
      List.drop_take, Nat.sub_self, List.take_zero, List.nil_append]
  rw [slice, hdrop, List.take_append, List.take_of_length_le (by omega), slice]
  congr 2
  omega

/-! ## The loop -/

/-- Moving elements to lower indices reads each of them before it is overwritten. -/
theorem copyLoop_left (l : List α) (first dst n : Nat) (h : dst ≤ first) (hn : first + n ≤ l.length) :
    copyLoop l first dst n = overwrite l dst (slice l first (first + n)) := by
  induction n generalizing l first dst with
  | zero => simp [copyLoop, overwrite, slice]
  | succ n ih =>
    have hfirst : first < l.length := by omega
    rw [copyLoop, List.getElem?_eq_getElem hfirst]
    simp only
    rw [ih (l.set dst l[first]) (first + 1) (dst + 1) (by omega) (by simp; omega)]
    have hslice : slice (l.set dst l[first]) (first + 1) (first + 1 + n) = slice l (first + 1) (first + 1 + n) := by
      rw [slice, slice, List.drop_set_of_lt (by omega)]
    have hcons : slice l first (first + (n + 1)) = l[first] :: slice l (first + 1) (first + 1 + n) := by
      rw [slice, slice, List.drop_eq_getElem_cons hfirst, show first + (n + 1) - first = n + 1 by omega,
        List.take_succ_cons, show first + 1 + n - (first + 1) = n by omega]
    have htake : (l.set dst l[first]).take (dst + 1) = l.take dst ++ [l[first]] := by
      rw [List.take_set, List.take_add_one, List.getElem?_eq_getElem (by omega : dst < l.length),
        List.set_append_right _ _ (List.length_take_le _ _)]
      simp [Nat.min_eq_left (by omega : dst ≤ l.length)]
    rw [hslice, hcons, overwrite, overwrite, htake]
    simp only [List.length_cons, List.append_assoc, List.cons_append, List.nil_append]
    rw [List.drop_set_of_lt (by omega), show dst + 1 + (slice l (first + 1) (first + 1 + n)).length =
      dst + ((slice l (first + 1) (first + 1 + n)).length + 1) by omega]

theorem copyWithin_left (l : List α) (first last dst : Nat) (h : dst < first) (hle : first ≤ last)
    (hlast : last ≤ l.length) :
    copyWithin l first last dst = some (overwrite l dst (slice l first last)) := by
  rw [copyWithin, if_pos ⟨hle, hlast, by omega, by omega⟩, copyLoop_left l first dst _ (by omega) (by omega),
    Nat.add_sub_cancel' hle]

theorem copyInto_of_le (l : List α) (dst : Nat) (data : List α) (h : dst + data.length ≤ l.length) :
    copyInto l dst data = some (overwrite l dst data) := by rw [copyInto, if_pos h]

theorem copyInto_length {l m : List α} {dst : Nat} {data : List α} (h : copyInto l dst data = some m) :
    m.length = l.length := by
  unfold copyInto at h
  split at h
  · rename_i hin
    cases h
    exact overwrite_length l dst data hin
  · cases h

theorem readRange_of_le (l : List α) (first n : Nat) (h : first + n ≤ l.length) :
    readRange l first n = some (slice l first (first + n)) := by rw [readRange, if_pos h]

end RangeCopy
