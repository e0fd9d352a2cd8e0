import Muduo.Decimal
import Muduo.TimerQueue.Code

/-! # The text of a time stamp

`Timestamp::toString` of `src/Timestamp.cc`. Both numbers keep their sign, and the text says exactly one time.
-/

namespace Muduo.Timestamp

/-- `sizeof(buf)` -/
def bufSize : Nat := 32

/-- The values of an `int64_t`. -/
def InRange (t : Int) : Prop := -0x8000000000000000 ≤ t ∧ t < 0x8000000000000000

/-- `/` and `%` round towards zero. `snprintf` is told one less than the size of `buf`, and writes a zero behind the
text. -/
def toString (t : Timestamp) : List Char :=
  let seconds := t.tdiv kMicroSecondsPerSecond
  let microseconds := t.tmod kMicroSecondsPerSecond
  (Decimal.format 0 seconds ++ '.' :: Decimal.format 6 microseconds).take (bufSize - 1 - 1)

/-- The time that a text says. -/
def ofText (text : List Char) : Timestamp :=
  Decimal.read (text.takeWhile (· != '.')) * kMicroSecondsPerSecond +
    Decimal.read ((text.dropWhile (· != '.')).drop 1)

theorem format_no_point {width : Nat} {n : Int} {c : Char} (hc : c ∈ Decimal.format width n) : (c != '.') = true := by
  rcases Decimal.isDigit_format hc with rfl | hdigit
  · decide
  · rw [bne_iff_ne]
    rintro rfl
    cases hdigit

theorem seconds_lt {t : Timestamp} (h : InRange t) : (t.tdiv kMicroSecondsPerSecond).natAbs < 10 ^ 13 := by
  unfold InRange at h
  unfold kMicroSecondsPerSecond
  rw [Int.natAbs_tdiv]
  have ht : t.natAbs ≤ 0x8000000000000000 := by omega
  exact lt_of_le_of_lt (Nat.div_le_div_right ht) (by decide)

theorem microseconds_lt (t : Timestamp) : (t.tmod kMicroSecondsPerSecond).natAbs < 10 ^ 6 := by
  unfold kMicroSecondsPerSecond
  rw [Int.natAbs_tmod]
  exact Nat.mod_lt _ (by decide)

theorem toString_whole {t : Timestamp} (h : InRange t) : toString t =
    Decimal.format 0 (t.tdiv kMicroSecondsPerSecond) ++ '.' :: Decimal.format 6 (t.tmod kMicroSecondsPerSecond) ∧
    (toString t).length ≤ 22 := by
  have hseconds := Decimal.format_length_le (by decide) (seconds_lt h) (Nat.zero_le 13)
  have hmicroseconds := Decimal.format_length_le (by decide) (microseconds_lt t) le_rfl
  have hlength : (Decimal.format 0 (t.tdiv kMicroSecondsPerSecond) ++
      '.' :: Decimal.format 6 (t.tmod kMicroSecondsPerSecond)).length ≤ 22 := by
    rw [List.length_append, List.length_cons]
    omega
  have hwhole : toString t = _ := List.take_of_length_le (le_trans hlength (by decide))
  exact ⟨hwhole, hwhole ▸ hlength⟩

theorem ofText_point {seconds microseconds : List Char} (h : ∀ c ∈ seconds, (c != '.') = true) :
    ofText (seconds ++ '.' :: microseconds) =
      Decimal.read seconds * kMicroSecondsPerSecond + Decimal.read microseconds := by
  unfold ofText
  rw [List.takeWhile_append_of_pos h, List.dropWhile_append_of_pos h, List.takeWhile_cons, List.dropWhile_cons]
  simp

/-- What `toString` prints of any `int64_t` is not cut off and says this time and no other. From the epoch on, six
digits stand behind the point. -/
theorem toString_exact (t : Timestamp) (h : InRange t) :
    (toString t).length ≤ 22 ∧ ofText (toString t) = t ∧
    (0 ≤ t → ∃ seconds microseconds, toString t = seconds ++ '.' :: microseconds ∧ microseconds.length = 6 ∧
      ∀ c ∈ seconds ++ microseconds, c.isDigit = true) := by
  obtain ⟨hwhole, hlength⟩ := toString_whole h
  refine ⟨hlength, ?_, fun ht => ?_⟩
  · rw [hwhole, ofText_point fun c => format_no_point, Decimal.read_format, Decimal.read_format, Int.mul_comm]
    exact Int.mul_tdiv_add_tmod t kMicroSecondsPerSecond
  · refine ⟨_, _, hwhole, Decimal.format_length_eq (by decide) (Int.tmod_nonneg _ ht) (microseconds_lt t),
      fun c hc => ?_⟩
    have hseconds : 0 ≤ t.tdiv kMicroSecondsPerSecond := Int.tdiv_nonneg ht (by decide)
    rcases List.mem_append.mp hc with hc | hc
    · exact Decimal.isDigit_of_nonneg hseconds hc
    · exact Decimal.isDigit_of_nonneg (Int.tmod_nonneg _ ht) hc

theorem toString_exact_before : ofText (toString (-1500000)) = -1500000 :=
  (toString_exact (-1500000) ⟨by decide, by decide⟩).2.1

example : String.ofList (toString (-1500000)) = "-1.-500000" := by decide

end Muduo.Timestamp
