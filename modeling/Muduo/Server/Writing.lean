import Muduo.Connection.Interest
import Muduo.Server.Announce
import Muduo.Server.Streams

/-! # What the open connections of a server ask epoll for

The loops switch `EPOLLOUT` on and off for many connections. An open one asks for it exactly while bytes wait in its
`_outBuf`. Behind `handleClose` nothing is promised.
-/

namespace Muduo

namespace TcpConnection

/-- The connection asks to write exactly while bytes wait. -/
def Asks (c : TcpConnection) : Prop := c.pSocketChannel.isWriting = true ↔ c.outBuf.content ≠ []

/-- An open connection asks for what it needs. -/
def AsksOpen (c : TcpConnection) : Prop := c.pSocketChannel.index ≠ .kDeleted → c.Asks

theorem init_asks (sockfd : Int) : (init sockfd).Asks := by
  have hempty : (init sockfd).outBuf.content = [] := WfBuffer.content_init Buffer.kInitialSize
  refine iff_of_false ?_ (not_not_intro hempty)
  have hevents : (init sockfd).pSocketChannel.events = 0 := rfl
  rw [Channel.isWriting, hevents]
  decide

theorem enableReading_asks {c : TcpConnection} : c.enableReading.1.Asks ↔ c.Asks := by
  have hwriting : c.enableReading.1.pSocketChannel.isWriting = c.pSocketChannel.isWriting :=
    c.pSocketChannel.enableReading_isWriting
  have hout : c.enableReading.1.outBuf = c.outBuf := rfl
  rw [Asks, Asks, hwriting, hout]

theorem bufferRest_asks {c : TcpConnection} (h : c.Asks) {message : List Byte} {n : Int} (hn : -0x80000000 ≤ n)
    (hlen : message.length < 0x8000000000000000) : (c.bufferRest message n).conn.Asks := by
  unfold bufferRest
  split
  · rename_i hlt
    cases hsub : substr message (toSize n) message.length with
    | none => exact h
    | some rest =>
      have hwaits : (c.outBuf.append rest).content ≠ [] := by
        simpa using fun _ => Watch.substr_ne_nil hlt hn hlen hsub
      simp only
      split
      · rename_i hwriting
        exact iff_of_true hwriting hwaits
      · exact iff_of_true (Channel.enableWriting_isWriting _) hwaits
  · exact h

theorem sendInLoop_asks {c : TcpConnection} (h : c.Asks) {message : List Byte} {w : WriteResult}
    (hlen : message.length < 0x8000000000000000) (hw : w.Possible message.length) :
    (c.sendInLoop message w).conn.Asks := by
  unfold sendInLoop
  split
  · rw [Call.behind_conn]
    exact bufferRest_asks h (Link.n_bounds hw).1 hlen
  · exact bufferRest_asks h (by decide) hlen

theorem handleWrite_asks {c : TcpConnection} (h : c.Asks) (w : WriteResult) : (c.handleWrite w).conn.Asks := by
  unfold handleWrite
  split
  · rename_i hwriting
    simp only
    split
    · split
      · rename_i hempty
        rw [WfBuffer.readableBytes_eq] at hempty
        have hnil := List.eq_nil_of_length_eq_zero hempty
        exact iff_of_false (by simp [Channel.disableWriting_isWriting]) (not_not_intro hnil)
      · rename_i hleft
        rw [WfBuffer.readableBytes_eq] at hleft
        exact iff_of_true hwriting fun hnil => hleft (by rw [hnil]; rfl)
    · exact h
  · exact h

theorem handleRead_asks {c : TcpConnection} (h : c.Asks) (res : Buffer.ReadResult) : (c.handleRead res).1.Asks := by
  cases res <;> simp only [handleRead] <;> split <;> exact h

end TcpConnection

namespace Link

theorem Op.conn_asks {tcp : TcpConnection} (h : tcp.AsksOpen) {op : Op}
    (hcall : ∀ e, op = .call e → (silent tcp).Possible e) : (op.conn tcp).AsksOpen := by
  cases op with
  | create sockfd => exact fun _ => TcpConnection.init_asks sockfd
  | call e =>
    have hpos := hcall e rfl
    cases e with
    | sendInLoop message w =>
      intro hopen
      refine TcpConnection.sendInLoop_asks (h fun hdeleted => hopen ?_) hpos.1 hpos.2
      exact (tcp.sendInLoop_calm message w).keeps.deleted.mpr hdeleted
    | handleWrite w =>
      intro hopen
      refine TcpConnection.handleWrite_asks (h fun hdeleted => hopen ?_) w
      exact (tcp.handleWrite_calm w).keeps.deleted.mpr hdeleted
    | handleRead res =>
      intro hopen
      refine TcpConnection.handleRead_asks (h fun hdeleted => hopen ?_) res
      exact (TcpConnection.handleRead_keeps rfl).deleted.mpr hdeleted
  | enableReading =>
    intro hopen
    refine TcpConnection.enableReading_asks.mpr (h fun hdeleted => hopen ?_)
    exact tcp.enableReading_keeps.deleted.mpr hdeleted
  | setRevents revents | setUser | setUpLayerCloseCallback => exact h
  | disableChannel =>
    intro hopen
    exact absurd ((Channel.update_deleted { tcp.pSocketChannel.setIndex .kDeleted with events := 0 }).mpr rfl) hopen

end Link

namespace Server

theorem step_asks {s u : Server} {l : Label} {c : ConnId} (h : (s.conn c).tcp.AsksOpen) (hsized : s.Sized c l)
    (hstep : step s l = some u) : (u.conn c).tcp.AsksOpen := by
  rw [step_op hstep]
  cases hop : s.op c l with
  | none => exact h
  | some op =>
    refine Link.Op.conn_asks h fun e he => ?_
    subst he
    exact op_possible hstep hsized hop

end Server

end Muduo
