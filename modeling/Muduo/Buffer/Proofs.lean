import Muduo.Buffer.Spec

/-!
# The code of `Buffer` computes `Spec.lean`

One spec per member function, then the runs.
-/

open RangeCopy

namespace Muduo

namespace Buffer

theorem init_wf (initialSize : Nat) : (init initialSize).Wf := by
  constructor <;> simp [init]

theorem content_init (initialSize : Nat) : (init initialSize).content = [] := slice_self _ _

theorem content_length {b : Buffer} (h : b.Wf) : b.content.length = b.readableBytes := by
  have := h.writer_le
  rw [content, slice_length, readableBytes]
  omega

/-! ## The member functions -/

theorem prepend_spec {b : Buffer} (h : b.Wf) (data : List Byte) :
    ∃ b', b.prepend data = some b' ∧ b'.Wf ∧
      b'.content = if data.length ≤ b.prependableBytes then data ++ b.content else b.content := by
  obtain ⟨hr, hw, hc⟩ := h
  unfold prepend
  by_cases hlen : data.length ≤ b.prependableBytes
  · have hfit : data.length ≤ b.readerIndex := hlen
    have hin : b.readerIndex - data.length + data.length ≤ b.buf.length := by omega
    rw [if_neg (by omega), if_pos hlen]
    simp only [copyInto_of_le _ _ _ hin]
    have hbuf := overwrite_length _ _ _ hin
    refine ⟨_, rfl, ⟨by simp only; omega, ?_, ?_⟩, ?_⟩
    · rw [hbuf]
      exact hw
    · rw [hbuf]
      exact hc
    · have hcopy := slice_overwrite_right b.buf _ data b.writerIndex (by omega)
        (by omega : b.readerIndex - data.length ≤ _)
      rw [Nat.sub_add_cancel hfit] at hcopy
      exact hcopy
  · rw [if_pos (by omega), if_neg hlen]
    exact ⟨b, rfl, ⟨hr, hw, hc⟩, rfl⟩

theorem retrieve_wf {b : Buffer} (h : b.Wf) (len : Nat) : (b.retrieve len).Wf := by
  obtain ⟨hr, hw, hc⟩ := h
  unfold retrieve readableBytes
  split
  · exact ⟨by simp only; omega, hw, hc⟩
  · exact ⟨Nat.le_refl _, hc, hc⟩

theorem retrieve_content {b : Buffer} (h : b.Wf) (len : Nat) :
    (b.retrieve len).content = b.content.drop len := by
  have hlen := content_length h
  unfold retrieve
  split
  · rw [content, content, slice_drop]
  · rw [List.drop_eq_nil_of_le (by omega)]
    exact slice_self _ _

theorem retrieveAsString_spec {b : Buffer} (h : b.Wf) (len : Nat) (hlen : len ≤ b.readableBytes) :
    b.retrieveAsString len = some (b.retrieve len, b.content.take len) := by
  obtain ⟨hr, hw, hc⟩ := h
  unfold readableBytes at hlen
  rw [retrieveAsString, readRange_of_le _ _ _ (by omega), content, slice_take _ _ _ _ (by omega)]
  rfl

theorem retrieveAllAsString_spec {b : Buffer} (h : b.Wf) :
    b.retrieveAllAsString = some (b.retrieve b.readableBytes, b.content) := by
  rw [retrieveAllAsString, retrieveAsString_spec h _ (Nat.le_refl _), ← content_length h, List.take_length]

theorem compacts_reader {b : Buffer} {len : Nat} (h : b.Compacts len) : kCheapPrepend < b.readerIndex := by
  obtain ⟨h1, h2⟩ := h
  unfold prependableBytes at h2
  omega

theorem makeSpace_spec {b : Buffer} (h : b.Wf) (len : Nat) (hlen : b.writableBytes < len) :
    ∃ b', b.makeSpace len = some b' ∧ b'.Wf ∧ b'.content = b.content ∧ len ≤ b'.writableBytes ∧
      (b'.readerIndex = b.readerIndex ∨ b'.readerIndex = kCheapPrepend) := by
  obtain ⟨hr, hw, hc⟩ := h
  unfold makeSpace
  split
  · -- The vector grows, and the content stays where it is.
    refine ⟨_, rfl, ?_⟩
    have hgrow : b.buf.length ≤ b.writerIndex + len := by unfold writableBytes at hlen; omega
    have hbuf : (b.resize (b.writerIndex + len)).buf.length = b.writerIndex + len := by
      simp only [resize, List.length_append, List.length_take, List.length_replicate]
      omega
    refine ⟨⟨hr, by rw [hbuf]; exact Nat.le_add_right _ _, by rw [hbuf]; omega⟩, ?_, ?_, Or.inl rfl⟩
    · rw [content, content, resize, List.take_of_length_le hgrow]
      exact slice_append_left _ _ _ _ hw
    · rw [writableBytes, hbuf]
      simp [resize]
  · -- The content moves to index 8, which is to its left.
    rename_i hfit
    have hleft : kCheapPrepend < b.readerIndex := compacts_reader ⟨hlen, hfit⟩
    have hs : (slice b.buf b.readerIndex b.writerIndex).length = b.readableBytes := by
      rw [slice_length, readableBytes]
      omega
    unfold readableBytes at hs ⊢
    unfold writableBytes prependableBytes at hfit
    have hin : kCheapPrepend + (slice b.buf b.readerIndex b.writerIndex).length ≤ b.buf.length := by omega
    have hbuf := overwrite_length _ _ _ hin
    simp only [copyWithin_left _ _ _ _ hleft hr hw]
    refine ⟨_, rfl, ⟨Nat.le_add_right _ _, ?_, ?_⟩, ?_, ?_, Or.inr rfl⟩
    · rw [hbuf]
      dsimp only
      omega
    · rw [hbuf]
      exact hc
    · rw [content, ← hs, slice_overwrite_left _ _ _ _ (Nat.le_refl _) hc, slice_self]
      rfl
    · rw [writableBytes, hbuf]
      dsimp only
      omega

theorem append_spec {b : Buffer} (h : b.Wf) (data : List Byte) :
    ∃ b', b.append data = some b' ∧ b'.Wf ∧ b'.content = b.content ++ data ∧
      (b'.readerIndex = b.readerIndex ∨ b'.readerIndex = kCheapPrepend) := by
  have hroom : ∃ m, (if data.length > b.writableBytes then b.makeSpace data.length else some b) = some m ∧
      m.Wf ∧ m.content = b.content ∧ data.length ≤ m.writableBytes ∧
      (m.readerIndex = b.readerIndex ∨ m.readerIndex = kCheapPrepend) := by
    split
    · exact makeSpace_spec h _ (by omega)
    · exact ⟨b, rfl, h, rfl, by omega, Or.inl rfl⟩
  obtain ⟨m, hm, ⟨hr, hw, hc⟩, hcontent, hfit, hreader⟩ := hroom
  unfold writableBytes at hfit
  have hin : m.writerIndex + data.length ≤ m.buf.length := by omega
  simp only [append, hm, Option.bind_eq_bind, Option.bind_some, copyInto_of_le _ _ _ hin]
  refine ⟨_, rfl, ⟨by simp only; omega, ?_, ?_⟩, ?_, hreader⟩
  · simpa only [overwrite_length _ _ _ hin] using hin
  · simpa only [overwrite_length _ _ _ hin] using hc
  · rw [← hcontent]
    exact slice_overwrite_left _ _ _ _ hr hw

theorem fill_spec {b : Buffer} (h : b.Wf) (data : List Byte) (hlen : data.length ≤ b.writableBytes) :
    let filled : Buffer := ⟨overwrite b.buf b.writerIndex data, b.readerIndex, b.writerIndex + data.length⟩
    filled.Wf ∧ filled.content = b.content ++ data := by
  obtain ⟨hr, hw, hc⟩ := h
  unfold writableBytes at hlen
  have hin : b.writerIndex + data.length ≤ b.buf.length := by omega
  refine ⟨⟨by simp only; omega, ?_, ?_⟩, slice_overwrite_left _ _ _ _ hr hw⟩
  · simpa only [overwrite_length _ _ _ hin] using hin
  · simpa only [overwrite_length _ _ _ hin] using hc

theorem readFd_spec {b : Buffer} (h : b.Wf) (savedErrno : Int) (data : List Byte) :
    ∃ b', b.readFd savedErrno (.ok data) = some (b', (data.length : Int), savedErrno) ∧ b'.Wf ∧
      b'.content = b.content ++ data ∧
      (b'.readerIndex = b.readerIndex ∨ b'.readerIndex = kCheapPrepend) := by
  have hw := h.writer_le
  have htake : (data.take b.writableBytes).length ≤ b.writableBytes := List.length_take_le _ _
  have hin : b.writerIndex + (data.take b.writableBytes).length ≤ b.buf.length := by
    unfold writableBytes at htake ⊢
    omega
  obtain ⟨hfwf, hfcontent⟩ := fill_spec h _ htake
  simp only [readFd, copyInto_of_le _ _ _ hin, Option.bind_eq_bind, Option.bind_some]
  by_cases hlen : data.length ≤ b.writableBytes
  · rw [List.take_of_length_le hlen] at hfwf hfcontent ⊢
    rw [if_pos hlen]
    exact ⟨_, rfl, hfwf, hfcontent, Or.inl rfl⟩
  · have hfull : b.writerIndex + (data.take b.writableBytes).length = b.buf.length := by
      rw [List.length_take]
      unfold writableBytes at hlen ⊢
      omega
    rw [hfull] at hfwf hfcontent
    rw [if_neg hlen, overwrite_length _ _ _ hin]
    obtain ⟨b', happ, hwf, hcontent, hreader⟩ := append_spec hfwf (data.drop b.writableBytes)
    rw [happ]
    refine ⟨b', rfl, hwf, ?_, hreader⟩
    rw [hcontent, hfcontent, List.append_assoc, List.take_append_drop]

end Buffer

/-! ## Buffers that keep the invariant

What a `TcpConnection` owns. Here the member functions are total: they stay inside `_buf`.
-/

structure WfBuffer where
  raw : Buffer
  wf : raw.Wf

namespace WfBuffer

def init (initialSize : Nat) : WfBuffer := ⟨Buffer.init initialSize, Buffer.init_wf initialSize⟩

def content (b : WfBuffer) : List Byte := b.raw.content

def readableBytes (b : WfBuffer) : Nat := b.raw.readableBytes

def retrieve (b : WfBuffer) (len : Nat) : WfBuffer := ⟨b.raw.retrieve len, Buffer.retrieve_wf b.wf len⟩

def append (b : WfBuffer) (data : List Byte) : WfBuffer where
  raw := (b.raw.append data).get (by obtain ⟨b', h, -⟩ := Buffer.append_spec b.wf data; simp [h])
  wf := by obtain ⟨b', h, hwf, -⟩ := Buffer.append_spec b.wf data; simpa [h] using hwf

/-- `readFd` where `readv` read these bytes. -/
def readFd (b : WfBuffer) (data : List Byte) : WfBuffer where
  raw := ((b.raw.readFd 0 (.ok data)).get (by obtain ⟨b', h, -⟩ := Buffer.readFd_spec b.wf 0 data; simp [h])).1
  wf := by obtain ⟨b', h, hwf, -⟩ := Buffer.readFd_spec b.wf 0 data; simpa [h] using hwf

/-- The buffer and the string that `retrieveAllAsString` leave. -/
def retrieveAllAsString (b : WfBuffer) : WfBuffer × List Byte where
  fst := b.retrieve b.readableBytes
  snd := (b.raw.retrieveAllAsString.get (by simp [Buffer.retrieveAllAsString_spec b.wf])).2

@[simp]
theorem content_init (initialSize : Nat) : (init initialSize).content = [] := Buffer.content_init _

@[simp]
theorem content_retrieve (b : WfBuffer) (len : Nat) : (b.retrieve len).content = b.content.drop len :=
  Buffer.retrieve_content b.wf len

@[simp]
theorem content_append (b : WfBuffer) (data : List Byte) : (b.append data).content = b.content ++ data := by
  obtain ⟨b', h, -, hcontent, -⟩ := Buffer.append_spec b.wf data
  simpa [append, content, h] using hcontent

theorem readableBytes_eq (b : WfBuffer) : b.readableBytes = b.content.length :=
  (Buffer.content_length b.wf).symm

@[simp]
theorem content_readFd (b : WfBuffer) (data : List Byte) : (b.readFd data).content = b.content ++ data := by
  obtain ⟨b', h, -, hcontent, -⟩ := Buffer.readFd_spec b.wf 0 data
  simpa [readFd, content, h] using hcontent

@[simp]
theorem retrieveAllAsString_fst (b : WfBuffer) : b.retrieveAllAsString.1.content = [] := by
  simp [retrieveAllAsString, readableBytes_eq]

@[simp]
theorem retrieveAllAsString_snd (b : WfBuffer) : b.retrieveAllAsString.2 = b.content := by
  simp [retrieveAllAsString, content, Buffer.retrieveAllAsString_spec b.wf]

end WfBuffer

namespace Buffer

/-! ## Runs -/

/-- One call of a public member function is one step of the deque, and touches no byte outside `_buf`. -/
theorem apply_spec {b : Buffer} (h : b.Wf) (op : Op) (hop : b.Allowed op) :
    ∃ b' out, b.apply op = some (b', out) ∧ b'.Wf ∧
      (b'.content, out) = deque b.prependableBytes b.content op := by
  cases op with
  | append data =>
    obtain ⟨b', happ, hwf, hcontent, -⟩ := append_spec h data
    exact ⟨b', [], by rw [apply, happ]; rfl, hwf, by rw [hcontent]; rfl⟩
  | prepend data =>
    obtain ⟨b', hpre, hwf, hcontent⟩ := prepend_spec h data
    exact ⟨b', [], by rw [apply, hpre]; rfl, hwf, by rw [hcontent]; rfl⟩
  | retrieve len =>
    exact ⟨_, _, rfl, retrieve_wf h len, by rw [retrieve_content h]; rfl⟩
  | retrieveAsString len =>
    exact ⟨_, _, retrieveAsString_spec h len hop, retrieve_wf h len, by rw [retrieve_content h]; rfl⟩
  | retrieveAllAsString =>
    refine ⟨_, _, retrieveAllAsString_spec h, retrieve_wf h _, ?_⟩
    rw [retrieve_content h, ← content_length h, List.drop_length]
    rfl
  | readFd res =>
    cases res with
    | ok data =>
      obtain ⟨b', hread, hwf, hcontent, -⟩ := readFd_spec h 0 data
      exact ⟨b', [], by rw [apply, hread]; rfl, hwf, by rw [hcontent]; rfl⟩
    | error errno => exact ⟨b, [], rfl, h, rfl⟩

theorem step_some {b b' : Buffer} {op : Op} (hstep : step b op = some b') :
    b.Allowed op ∧ ∃ out, b.apply op = some (b', out) := by
  unfold step at hstep
  split at hstep
  · rename_i hop
    obtain ⟨⟨c, out⟩, happ, rfl⟩ := Option.map_eq_some_iff.mp hstep
    exact ⟨hop, out, happ⟩
  · cases hstep

theorem step_wf {b b' : Buffer} {op : Op} (h : b.Wf) (hstep : step b op = some b') : b'.Wf := by
  obtain ⟨hop, out, happ⟩ := step_some hstep
  obtain ⟨c, out', happ', hwf, -⟩ := apply_spec h op hop
  rw [happ, Option.some.injEq, Prod.mk.injEq] at happ'
  exact happ'.1 ▸ hwf

theorem step_reader {b b' : Buffer} {op : Op} (h : b.Wf) (hop : ¬ IsPrepend op)
    (hreader : kCheapPrepend ≤ b.readerIndex) (hstep : step b op = some b') :
    kCheapPrepend ≤ b'.readerIndex := by
  have hretrieve : ∀ len, kCheapPrepend ≤ (b.retrieve len).readerIndex := by
    intro len
    unfold retrieve
    split
    · exact Nat.le_add_right_of_le hreader
    · exact Nat.le_refl _
  obtain ⟨hallowed, out, happ⟩ := step_some hstep
  cases op with
  | append data =>
    obtain ⟨c, hc, -, -, hcases⟩ := append_spec h data
    rw [apply, hc] at happ
    cases happ
    rcases hcases with hcases | hcases <;> omega
  | prepend data => exact absurd trivial hop
  | retrieve len =>
    cases happ
    exact hretrieve len
  | retrieveAsString len =>
    rw [apply, retrieveAsString_spec h len hallowed] at happ
    cases happ
    exact hretrieve len
  | retrieveAllAsString =>
    rw [apply, retrieveAllAsString_spec h] at happ
    cases happ
    exact hretrieve _
  | readFd res =>
    cases res with
    | ok data =>
      obtain ⟨c, hc, -, -, hcases⟩ := readFd_spec h 0 data
      rw [apply, hc] at happ
      cases happ
      show kCheapPrepend ≤ c.readerIndex
      rcases hcases with hcases | hcases <;> omega
    | error errno =>
      cases happ
      exact hreader

theorem run_wf {initialSize : Nat} {ops : List Op} {b : Buffer}
    (hrun : Machine.run step (init initialSize) ops = some b) : b.Wf :=
  Machine.run_invariant (fun _ _ _ => step_wf) (init_wf initialSize) hrun

theorem run_reader {initialSize : Nat} {ops : List Op} {b : Buffer}
    (hrun : Machine.run step (init initialSize) ops = some b) (hops : ∀ op ∈ ops, ¬ IsPrepend op) :
    kCheapPrepend ≤ b.readerIndex := by
  have hmeets : Machine.Meets step (fun _ op => ¬ IsPrepend op) (init initialSize) ops := by
    intro pre op _ hpre _
    exact hops op (hpre.subset (by simp))
  refine (Machine.run_invariant_of_meets (I := fun c => c.Wf ∧ kCheapPrepend ≤ c.readerIndex)
    (fun _ _ _ hI hop hstep => ?_) ⟨init_wf initialSize, Nat.le_refl _⟩ hmeets hrun).2
  exact ⟨step_wf hI.1 hstep, step_reader hI.1 hop hI.2 hstep⟩

/-- A `Buffer` behaves as a deque of bytes, whatever is done to it. -/
theorem buffer_refines_deque (initialSize : Nat) (ops : List Op) (b : Buffer)
    (hrun : Machine.run step (init initialSize) ops = some b) :
    (b.readerIndex ≤ b.writerIndex ∧ b.writerIndex ≤ b.buf.length ∧ kCheapPrepend ≤ b.buf.length) ∧
    (∀ op, b.Allowed op → ∃ b' out, b.apply op = some (b', out) ∧
      (b'.content, out) = deque b.prependableBytes b.content op) ∧
    (∀ data : List Byte, b.prependableBytes < data.length → b.prepend data = some b) ∧
    (∀ w len, (w = b.writerIndex ∨ w = b.buf.length) →
      Compacts { b with writerIndex := w } len → kCheapPrepend < b.readerIndex) ∧
    ((∀ op ∈ ops, ¬ IsPrepend op) → kCheapPrepend ≤ b.prependableBytes ∧
      ∀ data : List Byte, data.length ≤ kCheapPrepend →
        ∃ b', b.prepend data = some b' ∧ b'.content = data ++ b.content) := by
  have hwf := run_wf hrun
  refine ⟨⟨hwf.reader_le, hwf.writer_le, hwf.cheap_le⟩, fun op hop => ?_, fun data hlen => if_pos hlen,
    fun w len _ => compacts_reader, ?_⟩
  · obtain ⟨b', out, happ, -, hdeque⟩ := apply_spec hwf op hop
    exact ⟨b', out, happ, hdeque⟩
  · intro hops
    have hroom : kCheapPrepend ≤ b.prependableBytes := run_reader hrun hops
    refine ⟨hroom, fun data hdata => ?_⟩
    obtain ⟨b', hpre, -, hcontent⟩ := prepend_spec hwf data
    rw [if_pos (Nat.le_trans hdata hroom)] at hcontent
    exact ⟨b', hpre, hcontent⟩

/-- A run in which the vector grows and a `prepend` fits. -/
theorem buffer_refines_deque_short :
    let b : Buffer := ⟨[0, 0, 0, 0, 0, 0, 0, 9, 1, 2, 3], 8, 11⟩
    b.readerIndex ≤ b.writerIndex ∧ b.writerIndex ≤ b.buf.length ∧ kCheapPrepend ≤ b.buf.length :=
  (buffer_refines_deque 2 [.append [1, 2, 3], .prepend [9], .retrieve 1] _ (by decide)).1

end Buffer

end Muduo
