import Muduo.Buffer.Proofs

/-! # The size of `_buf`

`makeSpace` grows `_buf` only where little has been consumed: a reader far to the right always leads
to compaction.
-/

open RangeCopy

namespace Muduo.Buffer

/-- The size of `_buf` is the old one, or less than twice the content and `kCheapPrepend`. -/
def Fits (size : Nat) (b : Buffer) : Prop :=
  b.buf.length = size ∨ b.buf.length ≤ 2 * b.readableBytes + 7

/-! ## One call -/

theorem retrieve_fits (b : Buffer) (len : Nat) : (b.retrieve len).Fits b.buf.length := by
  unfold retrieve
  split <;> exact Or.inl rfl

theorem makeSpace_length {b m : Buffer} (h : b.Wf) {len : Nat} (hlen : b.writableBytes < len)
    (hm : b.makeSpace len = some m) :
    m.buf.length = b.buf.length ∨ m.buf.length ≤ 2 * (b.readableBytes + len) + 7 := by
  obtain ⟨hr, hw, hc⟩ := h
  unfold makeSpace at hm
  split at hm
  · rename_i hgrow
    cases hm
    right
    simp only [resize, List.length_append, List.length_take, List.length_replicate]
    simp only [writableBytes, prependableBytes, readableBytes, kCheapPrepend] at hlen hgrow ⊢
    omega
  · rename_i hfit
    left
    have hleft : kCheapPrepend < b.readerIndex := compacts_reader ⟨hlen, hfit⟩
    simp only [copyWithin_left _ _ _ _ hleft hr hw, Option.bind_eq_bind, Option.bind_some] at hm
    cases hm
    refine overwrite_length _ _ _ ?_
    rw [slice_length]
    simp only [writableBytes, prependableBytes] at hlen hfit
    omega

theorem append_fits {b b' : Buffer} (h : b.Wf) {data : List Byte} (happ : b.append data = some b') :
    b'.Fits b.buf.length := by
  obtain ⟨c, hc, hwf, hcontent, -⟩ := append_spec h data
  rw [happ, Option.some.injEq] at hc
  subst hc
  have hreadable : b'.readableBytes = b.readableBytes + data.length := by
    rw [← content_length hwf, hcontent, List.length_append, content_length h]
  rw [Fits, hreadable]
  obtain ⟨m, hm, hcopy⟩ := Option.bind_eq_some_iff.mp happ
  obtain ⟨buf, hbuf, hb'⟩ := Option.bind_eq_some_iff.mp hcopy
  cases hb'
  have hlen : buf.length = m.buf.length := copyInto_length hbuf
  rw [hlen]
  split at hm
  · exact makeSpace_length h (by omega) hm
  · cases hm
    exact Or.inl rfl

theorem readFd_fits {b b' : Buffer} (h : b.Wf) {savedErrno : Int} {data : List Byte} {r : Int × Int}
    (hread : b.readFd savedErrno (.ok data) = some (b', r)) : b'.Fits b.buf.length := by
  obtain ⟨buf, hbuf, hread⟩ := Option.bind_eq_some_iff.mp hread
  have hlen : buf.length = b.buf.length := copyInto_length hbuf
  obtain ⟨c, hc, hcb⟩ := Option.map_eq_some_iff.mp hread
  cases hcb
  rw [← hlen]
  split at hc
  · cases hc
    exact Or.inl rfl
  · refine append_fits ⟨?_, Nat.le_refl _, ?_⟩ hc
    · exact hlen ▸ Nat.le_trans h.reader_le h.writer_le
    · exact hlen ▸ h.cheap_le

theorem step_fits {b b' : Buffer} {op : Op} (h : b.Wf) (hstep : step b op = some b') : b'.Fits b.buf.length := by
  obtain ⟨hallowed, out, happ⟩ := step_some hstep
  cases op with
  | append data =>
    obtain ⟨c, hc, hcb⟩ := Option.map_eq_some_iff.mp happ
    cases hcb
    exact append_fits h hc
  | prepend data =>
    obtain ⟨c, hc, hcb⟩ := Option.map_eq_some_iff.mp happ
    cases hcb
    left
    unfold prepend at hc
    split at hc
    · cases hc
      rfl
    · obtain ⟨buf, hbuf, hb'⟩ := Option.bind_eq_some_iff.mp hc
      cases hb'
      exact copyInto_length hbuf
  | retrieve len =>
    cases happ
    exact retrieve_fits b len
  | retrieveAsString len =>
    rw [apply, retrieveAsString_spec h len hallowed] at happ
    cases happ
    exact retrieve_fits b len
  | retrieveAllAsString =>
    rw [apply, retrieveAllAsString_spec h] at happ
    cases happ
    exact retrieve_fits b _
  | readFd res =>
    cases res with
    | ok data =>
      obtain ⟨c, hc, hcb⟩ := Option.map_eq_some_iff.mp happ
      cases hcb
      exact readFd_fits h hc
    | error errno =>
      cases happ
      exact Or.inl rfl

/-! ## Runs -/

/-- However much passes through a `Buffer`, `_buf` stays within its first size or twice the most that
was ever readable. -/
theorem storage_bounded (initialSize M : Nat) (ops : List Op)
    (hM : Machine.Always step (fun b => b.readableBytes ≤ M) (init initialSize) ops) :
    Machine.Always step (fun b => b.buf.length ≤ max (8 + initialSize) (2 * M + 7)) (init initialSize) ops := by
  refine Machine.always_of_always (I := fun b => b.Wf ∧ b.buf.length ≤ max (8 + initialSize) (2 * M + 7))
    (fun b op b' hI hreadable hstep => ⟨step_wf hI.1 hstep, ?_⟩) (fun _ hI => hI.2)
    ⟨init_wf initialSize, by simp [init, kCheapPrepend]⟩ hM
  rcases step_fits hI.1 hstep with hsame | hgrown
  · exact hsame ▸ hI.2
  · exact Nat.le_trans hgrown (Nat.le_trans (by omega) (Nat.le_max_right _ _))

/-- Bytes come and go, and `_buf` keeps its first size. -/
theorem storage_bounded_stream :
    let ops : List Op := [.append [1, 2, 3], .retrieve 2, .readFd (.ok [4, 5]), .retrieve 2, .append [6, 7]]
    Machine.Always step (fun b => b.buf.length ≤ max (8 + 3) (2 * 3 + 7)) (init 3) ops :=
  storage_bounded 3 3 _ (by decide)

/-! ## Reads into an empty buffer -/

/-- Nothing is readable, and nothing is lost in front. -/
def Fresh (b : Buffer) : Prop := b.readerIndex = kCheapPrepend ∧ b.writerIndex = kCheapPrepend

theorem retrieve_fresh (b : Buffer) : (b.retrieve b.readableBytes).Fresh := by
  unfold retrieve
  rw [if_neg (Nat.lt_irrefl _)]
  exact ⟨rfl, rfl⟩

theorem readFd_fresh {b b' : Buffer} (h : b.Wf) (hfresh : b.Fresh) {savedErrno : Int} {data : List Byte}
    {r : Int × Int} (hread : b.readFd savedErrno (.ok data) = some (b', r)) :
    b'.buf.length = max b.buf.length (kCheapPrepend + data.length) := by
  obtain ⟨hr, hw⟩ := hfresh
  have hc := h.cheap_le
  obtain ⟨buf, hbuf, hread⟩ := Option.bind_eq_some_iff.mp hread
  have hlen : buf.length = b.buf.length := copyInto_length hbuf
  obtain ⟨c, hcopy, hcb⟩ := Option.map_eq_some_iff.mp hread
  cases hcb
  simp only [writableBytes, hw] at hcopy
  split at hcopy
  · cases hcopy
    rw [hlen]
    omega
  · -- The vector is full up to its end, so `append` makes room for the rest behind it.
    obtain ⟨m, hm, hcopied⟩ := Option.bind_eq_some_iff.mp hcopy
    obtain ⟨filled, hfilled, hb'⟩ := Option.bind_eq_some_iff.mp hcopied
    cases hb'
    have hgrown : m.buf.length = b.buf.length + (data.length - (b.buf.length - kCheapPrepend)) := by
      simp only [writableBytes, makeSpace, prependableBytes, resize, List.length_drop, hr, Nat.sub_self] at hm
      rw [if_pos (by omega), if_pos (by omega)] at hm
      cases hm
      simp only [List.length_append, List.length_take, List.length_replicate, hlen]
      omega
    have hsame : filled.length = m.buf.length := copyInto_length hfilled
    simp only [hsame, hgrown]
    omega

/-- What `readFd` can bring at once where everything is taken out after each read: 128k - 1 bytes. -/
def kMaxRead : Nat := 2 * sizeofExtrabuf - 1

theorem offered_fresh {b : Buffer} (hfresh : b.Fresh) (hlen : b.buf.length ≤ kCheapPrepend + kMaxRead) :
    b.offered ≤ kMaxRead := by
  simp only [offered, writableBytes, hfresh.2, kMaxRead, sizeofExtrabuf] at hlen ⊢
  split <;> omega

end Muduo.Buffer
