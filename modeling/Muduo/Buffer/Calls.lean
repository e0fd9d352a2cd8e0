import Muduo.Buffer.Proofs

/-! # Calls with any length

`retrieveAsString` is called with any `len` here, as its signature allows. What it asks for beyond the
content is read from `_buf` as it lies there.
-/

open RangeCopy

namespace Muduo.Buffer

/-- `readv` fills at most what it was offered. -/
def Reads (b : Buffer) : Op → Prop
  | .readFd (.ok data) => data.length ≤ b.offered
  | _ => True

instance (b : Buffer) : (op : Op) → Decidable (b.Reads op)
  | .readFd (.ok data) => inferInstanceAs (Decidable (data.length ≤ b.offered))
  | .readFd (.error _) | .append _ | .prepend _ | .retrieve _ | .retrieveAsString _ | .retrieveAllAsString =>
    .isTrue trivial

/-- A call of a public member function. It is `none` where it would read outside `_buf`. -/
def call (b : Buffer) (op : Op) : Option Buffer :=
  if b.Reads op then (b.apply op).map (·.1) else none

/-- `retrieveAsString` gives out what `retrieve` removes. -/
def Agrees (b : Buffer) (len : Nat) : Prop :=
  b.retrieveAsString len = some (b.retrieve len, b.content.take len)

/-! ## One call -/

theorem retrieveAsString_some {b b' : Buffer} {len : Nat} {result : List Byte}
    (h : b.retrieveAsString len = some (b', result)) : b' = b.retrieve len ∧ result.length = len := by
  unfold retrieveAsString readRange at h
  split at h
  · rename_i hin
    cases h
    refine ⟨rfl, ?_⟩
    rw [slice_length]
    omega
  · cases h

/-- Beyond the content come the bytes that lie behind `_writerIndex`. -/
theorem retrieveAsString_long {b : Buffer} (h : b.Wf) {len : Nat} (hlen : b.readableBytes < len)
    (hin : b.readerIndex + len ≤ b.buf.length) :
    b.retrieveAsString len =
      some (b.retrieve len, b.content ++ slice b.buf b.writerIndex (b.readerIndex + len)) := by
  have hr := h.reader_le
  unfold readableBytes at hlen
  rw [retrieveAsString, readRange_of_le _ _ _ hin, content, slice_append_slice _ hr (by omega)]
  rfl

theorem agrees_iff {b : Buffer} (h : b.Wf) (len : Nat) : b.Agrees len ↔ len ≤ b.readableBytes := by
  constructor
  · intro hagrees
    have hlen := (retrieveAsString_some hagrees).2
    rw [List.length_take, content_length h] at hlen
    omega
  · intro hlen
    exact retrieveAsString_spec h len hlen

theorem allowed_of_reads {b : Buffer} {op : Op} (hop : ∀ len, op ≠ .retrieveAsString len) (h : b.Reads op) :
    b.Allowed op := by
  cases op with
  | retrieveAsString len => exact absurd rfl (hop len)
  | readFd res => cases res <;> exact h
  | _ => trivial

theorem call_wf {b b' : Buffer} {op : Op} (h : b.Wf) (hcall : call b op = some b') : b'.Wf := by
  unfold call at hcall
  split at hcall
  · rename_i hreads
    by_cases hop : ∃ len, op = .retrieveAsString len
    · obtain ⟨len, rfl⟩ := hop
      obtain ⟨⟨c, out⟩, happ, rfl⟩ := Option.map_eq_some_iff.mp hcall
      rw [(retrieveAsString_some happ).1]
      exact retrieve_wf h len
    · have hallowed := allowed_of_reads (not_exists.mp hop) hreads
      exact step_wf h ((if_pos hallowed).trans hcall)
  · cases hcall

theorem calls_wf {initialSize : Nat} {ops : List Op} {b : Buffer}
    (hrun : Machine.run call (init initialSize) ops = some b) : b.Wf :=
  Machine.run_invariant (fun _ _ _ => call_wf) (init_wf initialSize) hrun

/-! ## Runs -/

theorem offered_ge (b : Buffer) : sizeofExtrabuf ≤ b.offered := by
  unfold offered
  split <;> omega

/-- Whatever was done to a `Buffer`, `readFd` puts what was read behind its content. -/
theorem readFd_appends (initialSize : Nat) (ops : List Op) (b : Buffer)
    (hrun : Machine.run call (init initialSize) ops = some b) :
    sizeofExtrabuf ≤ b.offered ∧
    (∀ savedErrno (data : List Byte), data.length ≤ b.offered →
      ∃ b', b.readFd savedErrno (.ok data) = some (b', (data.length : Int), savedErrno) ∧
        b'.content = b.content ++ data) ∧
    (∀ savedErrno errno, b.readFd savedErrno (.error errno) = some (b, -1, errno)) := by
  refine ⟨offered_ge b, fun savedErrno data _ => ?_, fun _ _ => rfl⟩
  obtain ⟨b', hread, -, hcontent, -⟩ := readFd_spec (calls_wf hrun) savedErrno data
  exact ⟨b', hread, hcontent⟩

/-- A buffer of two bytes with its reader moved on, and a read that spills. -/
theorem readFd_appends_spill :
    let b : Buffer := ⟨[0, 0, 0, 0, 0, 0, 0, 0, 1, 2], 9, 10⟩
    ∃ b', b.readFd 0 (.ok [3, 4, 5]) = some (b', 3, 0) ∧ b'.content = [2, 3, 4, 5] :=
  (readFd_appends 2 [.append [1, 2], .retrieve 1] _ (by decide)).2.1 0 [3, 4, 5] (by decide)

/-- `retrieveAsString` agrees with `retrieve` exactly on the lengths that are readable. -/
theorem retrieveAsString_agrees (initialSize : Nat) (ops : List Op) (b : Buffer)
    (hrun : Machine.run call (init initialSize) ops = some b) (len : Nat) :
    b.Agrees len ↔ len ≤ b.readableBytes :=
  agrees_iff (calls_wf hrun) len

/-- Two bytes come and are taken, one comes, and two are asked for. -/
def consumed : List Op := [.append [1, 2], .retrieve 2, .append [3]]

theorem retrieveAsString_agrees_consumed : Agrees ⟨[0, 0, 0, 0, 0, 0, 0, 0, 3, 2], 8, 9⟩ 1 :=
  (retrieveAsString_agrees 2 consumed _ (by decide) 1).mpr (by decide)

/-- The second byte that is given out was taken before. Asked for three, it reads behind the end of `_buf`. -/
theorem retrieveAsString_stale :
    ∃ b, Machine.run call (init 2) consumed = some b ∧ b.content = [3] ∧
      b.retrieveAsString 2 = some (b.retrieve 2, [3, 2]) ∧ ¬ b.Agrees 2 ∧
      b.retrieveAsString 3 = none ∧ ¬ b.Agrees 3 :=
  ⟨⟨[0, 0, 0, 0, 0, 0, 0, 0, 3, 2], 8, 9⟩, by decide, by decide, by decide, by unfold Agrees; decide, by decide,
    by unfold Agrees; decide⟩

end Muduo.Buffer
