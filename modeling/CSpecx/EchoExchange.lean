import CSpecx.EchoTurns

/-!
# The exchange on a connection

What a client and its connection hold in the middle of the calls. Each socket
has delivered a part of what the other end has written. Every step of either
end keeps this and, unless it changes nothing, adds to the work done.
-/

namespace EchoServer

open CExec Component Errors HeapBuffers Polling

/-- Messages of one to 65535 bytes whose replies fit the buffer of the client. -/
def Fits (ctx : EchoContext) (len : Nat) (msgs : List (List UInt8)) : Prop :=
  len < 2 ^ 16 ∧ ∀ m ∈ msgs, m ≠ [] ∧ m.length < 2 ^ 16 ∧ (body ctx m).length ≤ len

/-- The client and the connection in the middle of the calls: `past` is done,
`extra` is what the server has consumed beyond. -/
structure Exchange (ctx : EchoContext) (msgs : List (List UInt8)) (client : Client)
    (c : Connection) (past extra : List (List UInt8)) (sent got rest unsent : List UInt8) :
    Prop where
  split : msgs = past ++ client.calls
  results : client.results = past.map (result ctx)
  calling : Calling ctx client sent got
  current : extra = [] ∨ ∃ m more, client.calls = m :: more ∧ extra = [m] ∧ sent = frame m
  written : client.sock.written = frames past ++ sent
  received : client.sock.received = answers ctx past ++ got
  holds : Holds c rest unsent
  consumed : c.sock.received = frames (past ++ extra) ++ rest
  answered : c.sock.written ++ unsent = answers ctx (past ++ extra)
  up : c.sock.received <+: client.sock.written
  down : client.sock.received <+: c.sock.written

/-- What has been done so far. -/
def workDone (client : Client) (c : Connection) (n : Nat) : Nat :=
  client.sock.written.length + client.sock.received.length + c.sock.received.length +
    c.sock.written.length + 3 * n + stage c

section Parts

variable {ctx : EchoContext} {client : Client} {sent got m : List UInt8}
  {msgs more : List (List UInt8)} {len : Nat}

theorem Fits.small (fits : Fits ctx len msgs) (hm : m ∈ msgs) : Small ctx m := by
  obtain ⟨hne, -, hbody⟩ := fits.2 m hm
  have hlen := fits.1
  have hlength : (body ctx m).length = ctx.pre.length + m.length + ctx.suf.length := by
    simp only [body, List.length_append]
  exact ⟨hne, by omega⟩

theorem length_answer : (answer ctx m).length = 4 + (body ctx m).length := length_frame

theorem answers_singleton : answers ctx [m] = answer ctx m := by simp [answers]

theorem frames_singleton : frames [m] = frame m := by simp [frames]

/-- While the client writes, its request is not complete and nothing is read. -/
theorem calling_writing (calling : Calling ctx client sent got)
    (hcalls : client.calls = m :: more) :
    (client.offers ≠ [] ∧ client.wants = 0 ∧ got = [] ∧ sent <+: frame m ∧
        sent.length < (frame m).length) ∨
      (client.offers = [] ∧ 0 < client.wants ∧ sent = frame m ∧
        got.length < (answer ctx m).length) := by
  cases calling with
  | idle hnone => cases hnone.symm.trans hcalls
  | writeSize m' more' total hcalls' hstage hlt =>
    obtain ⟨rfl, rfl⟩ := List.cons.inj (hcalls.symm.trans hcalls')
    refine .inl ⟨?_, ?_, rfl, ?_, ?_⟩
    · simp only [Client.offers, hcalls, hstage, ne_eq, List.drop_eq_nil_iff, length_setPrefix]
      omega
    · simp only [Client.wants, hcalls, hstage]
    · exact ( List.take_prefix _ _).trans (List.prefix_append _ _)
    · rw [length_frame, List.length_take]
      omega
  | writeMessage m' more' total hcalls' hstage hlt =>
    obtain ⟨rfl, rfl⟩ := List.cons.inj (hcalls.symm.trans hcalls')
    refine .inl ⟨?_, ?_, rfl, ?_, ?_⟩
    · simp only [Client.offers, hcalls, hstage, ne_eq, List.drop_eq_nil_iff]
      omega
    · simp only [Client.wants, hcalls, hstage]
    · exact (List.prefix_append_right_inj _).mpr ( List.take_prefix _ _)
    · rw [length_frame, List.length_append, length_setPrefix, List.length_take]
      omega
  | readSize m' more' _ hcalls' hstage hlt =>
    obtain ⟨rfl, rfl⟩ := List.cons.inj (hcalls.symm.trans hcalls')
    refine .inr ⟨?_, ?_, rfl, ?_⟩
    · simp only [Client.offers, hcalls, hstage]
    · simp only [Client.wants, hcalls, hstage]
      omega
    · rw [length_answer]
      omega
  | readMessage m' more' dest hcalls' hstage hlt =>
    obtain ⟨rfl, rfl⟩ := List.cons.inj (hcalls.symm.trans hcalls')
    refine .inr ⟨?_, ?_, rfl, ?_⟩
    · simp only [Client.offers, hcalls, hstage]
    · simp only [Client.wants, hcalls, hstage]
      omega
    · rw [length_answer, List.length_append, length_setPrefix]
      omega

theorem calling_idle (calling : Calling ctx client sent got) (hcalls : client.calls = []) :
    sent = [] ∧ got = [] ∧ client.offers = [] ∧ client.wants = 0 := by
  cases calling with
  | idle => exact ⟨rfl, rfl, by simp only [Client.offers, hcalls],
      by simp only [Client.wants, hcalls]⟩
  | writeSize _ _ _ hcalls' => cases hcalls.symm.trans hcalls'
  | writeMessage _ _ _ hcalls' => cases hcalls.symm.trans hcalls'
  | readSize _ _ _ hcalls' => cases hcalls.symm.trans hcalls'
  | readMessage _ _ _ hcalls' => cases hcalls.symm.trans hcalls'

end Parts

section Steps

variable {ctx : EchoContext} {client : Client} {c c' : Connection}
  {sent got rest unsent bytes : List UInt8} {msgs past extra : List (List UInt8)} {len n : Nat}
  {e : ErrorObject}
  {grants : Nat → Grant} {h h' : Heap} {r : RecvResult} {s : SendResult} {code : Int}

theorem calls_of_offers (calling : Calling ctx client sent got)
    (h : client.offers ≠ [] ∨ 0 < client.wants) : ∃ m more, client.calls = m :: more := by
  cases hcalls : client.calls with
  | nil =>
    obtain ⟨-, -, hoffers, hwants⟩ := calling_idle calling hcalls
    rcases h with h | h
    · exact absurd hoffers h
    · omega
  | cons m more => exact ⟨m, more, rfl⟩

/-- The client sends. -/
theorem Exchange.send (ex : Exchange ctx msgs client c past extra sent got rest unsent)
    (hpos : 0 < n) (hoffers : client.offers ≠ []) :
    ∃ sent', Exchange ctx msgs (client.send n) c past extra sent' got rest unsent ∧
      ∀ k, workDone client c k < workDone (client.send n) c k := by
  obtain ⟨m, more, hcalls⟩ := calls_of_offers ex.calling (.inl hoffers)
  obtain ⟨bytes, hne, calling', hsock⟩ := send_calling ex.calling hpos hoffers
  have hnew : (client.send n).sock.written = client.sock.written ++ bytes := by rw [hsock]
  refine ⟨sent ++ bytes, ⟨ex.split, ex.results, calling', .inl ?_, ?_, ?_, ex.holds, ex.consumed,
    ex.answered, ?_, ?_⟩, fun k => ?_⟩
  · rcases ex.current with hnone | ⟨m', more', hcalls', -, hsent⟩
    · exact hnone
    · obtain ⟨rfl, -⟩ := List.cons.inj (hcalls.symm.trans hcalls')
      rcases calling_writing ex.calling hcalls with ⟨-, -, -, -, hshort⟩ | ⟨hnil, -⟩
      · rw [hsent] at hshort
        exact absurd hshort (Nat.lt_irrefl _)
      · exact absurd hnil hoffers
  · rw [hnew, ex.written, List.append_assoc]
  · rw [hsock]
    exact ex.received
  · rw [hnew]
    exact ex.up.trans (List.prefix_append _ _)
  · rw [hsock]
    exact ex.down
  · have hlen := List.length_pos_iff.mpr hne
    simp only [workDone, hsock, List.length_append]
    omega

/-- The client receives; the server must have answered the current request. -/
theorem Exchange.recv (ex : Exchange ctx msgs client c past extra sent got rest unsent)
    (fits : Fits ctx client.len msgs) (hwants : 0 < client.wants) (hne : bytes ≠ [])
    (harrives : client.sock.received ++ bytes <+: c.sock.written) :
    ∃ past' extra' sent' got', Exchange ctx msgs (client.recv bytes) c past' extra' sent' got' rest
        unsent ∧ (client.recv bytes).len = client.len ∧
      past' ++ extra' = past ++ extra ∧
      ∀ k, workDone client c k < workDone (client.recv bytes) c k := by
  obtain ⟨m, more, hcalls⟩ := calls_of_offers ex.calling (.inr hwants)
  have hm : m ∈ msgs := by
    rw [ex.split, hcalls]
    exact List.mem_append_right _ List.mem_cons_self
  have hsent : sent = frame m := by
    rcases calling_writing ex.calling hcalls with ⟨-, hzero, -⟩ | ⟨-, -, hsent, -⟩
    · omega
    · exact hsent
  -- what arrives is a part of the reply to the current request
  have hreply : got ++ bytes <+: answers ctx extra := by
    have hall : client.sock.received ++ bytes <+: answers ctx (past ++ extra) :=
      harrives.trans ⟨unsent, ex.answered⟩
    rw [ex.received, answers_append, List.append_assoc] at hall
    exact (List.prefix_append_right_inj _).mp hall
  have hextra : extra = [m] := by
    rcases ex.current with hnone | ⟨m', more', hcalls', hextra, -⟩
    · rw [hnone] at hreply
      have hnil := List.prefix_nil.mp hreply
      exact absurd (List.append_eq_nil_iff.mp hnil).2 hne
    · obtain ⟨rfl, -⟩ := List.cons.inj (hcalls.symm.trans hcalls')
      exact hextra
  rw [hextra, answers_singleton] at hreply
  obtain ⟨hmne, -, hbody⟩ := fits.2 m hm
  have hbodypos : 0 < (body ctx m).length := by
    have := List.length_pos_iff.mpr hmne
    simp only [body, List.length_append]
    omega
  have hlen := fits.1
  obtain ⟨x, hxne, hxbegin, hsock, hlen', hcase⟩ :=
    recv_calling ex.calling hcalls hwants hne hbody hbodypos (by omega) hreply
  have hnew : (client.recv bytes).sock.received = client.sock.received ++ x := by rw [hsock]
  have hdown : (client.recv bytes).sock.received <+: c.sock.written := by
    rw [hnew]
    exact ((List.prefix_append_right_inj _).mpr hxbegin).trans harrives
  have hup : c.sock.received <+: (client.recv bytes).sock.written := by
    rw [hsock]
    exact ex.up
  have hwork : ∀ k, workDone client c k < workDone (client.recv bytes) c k := by
    intro k
    have hxlen := List.length_pos_iff.mpr hxne
    simp only [workDone, hsock, List.length_append]
    omega
  rcases hcase with ⟨calling', hcalls', hresults⟩ | ⟨hwhole, calling', hcalls', hresults⟩
  · refine ⟨past, extra, sent, got ++ x,
      ⟨hcalls' ▸ ex.split, hresults.trans ex.results, calling', ?_, ?_, ?_, ex.holds, ex.consumed,
        ex.answered, hup, hdown⟩, hlen', rfl, hwork⟩
    · exact .inr ⟨m, more, hcalls'.trans hcalls, hextra, hsent⟩
    · rw [hsock]
      exact ex.written
    · rw [hnew, ex.received, List.append_assoc]
  · refine ⟨past ++ [m], [], [], [],
      ⟨?_, ?_, calling', .inl rfl, ?_, ?_, ex.holds, ?_, ?_, hup, hdown⟩, hlen', ?_, hwork⟩
    · rw [ex.split, hcalls, hcalls', List.append_assoc]
      rfl
    · rw [hresults, ex.results, List.map_append]
      rfl
    · rw [hsock, frames_append, frames_singleton, List.append_nil]
      exact hsent ▸ ex.written
    · rw [hnew, ex.received, List.append_assoc, hwhole, answers_append, answers_singleton,
        List.append_nil]
    · rw [List.append_nil, ← hextra]
      exact ex.consumed
    · rw [List.append_nil, ← hextra]
      exact ex.answered
    · rw [List.append_nil, hextra]

/-- What is sent belongs to the calls that have not returned. -/
theorem Exchange.sending (ex : Exchange ctx msgs client c past extra sent got rest unsent) :
    sent <+: frames client.calls := by
  cases hcalls : client.calls with
  | nil =>
    rw [(calling_idle ex.calling hcalls).1]
    exact List.nil_prefix
  | cons m more =>
    rcases calling_writing ex.calling hcalls with ⟨-, -, -, hbegin, -⟩ | ⟨-, -, hsent, -⟩
    · exact hbegin.trans (List.prefix_append _ _)
    · exact hsent ▸ List.prefix_append _ _

/-- The requests that the server sees are those of the client. -/
theorem Exchange.requests (ex : Exchange ctx msgs client c past extra sent got rest unsent)
    (fits : Fits ctx len msgs) :
    Requests ctx (frames (past ++ extra) ++ rest) ∧ ∀ m ∈ past ++ extra, Small ctx m := by
  have hsmall : ∀ m ∈ msgs, Small ctx m := fun m hm => fits.small hm
  have hpast : ∀ m ∈ past, m ∈ msgs := fun m hm => ex.split ▸ List.mem_append_left _ hm
  refine ⟨⟨msgs, hsmall, ?_⟩, fun m hm => ?_⟩
  · rw [← ex.consumed]
    refine ex.up.trans ?_
    rw [ex.written, ex.split, frames_append]
    exact (List.prefix_append_right_inj _).mpr ex.sending
  · rcases List.mem_append.mp hm with hm | hm
    · exact hsmall m (hpast m hm)
    · rcases ex.current with hnone | ⟨m', more, hcalls, hextra, -⟩
      · rw [hnone] at hm
        exact absurd hm List.not_mem_nil
      · rw [hextra, List.mem_singleton] at hm
        refine hsmall m ?_
        rw [ex.split, hcalls, hm]
        exact List.mem_append_right _ List.mem_cons_self

theorem Exchange.fitting (ex : Exchange ctx msgs client c past extra sent got rest unsent)
    (fits : Fits ctx len msgs) (granted : ∀ k, (grants k).granted = true) : Fitting ctx grants c :=
  ex.holds.fitting (ex.requests fits).1 (ex.requests fits).2 granted

/-- What is received and not consumed belongs to the current request. -/
theorem Exchange.pending (ex : Exchange ctx msgs client c past extra sent got rest unsent)
    (hrest : rest ≠ []) : extra = [] ∧ rest <+: sent := by
  have hup := ex.up
  rw [ex.consumed, ex.written, frames_append, List.append_assoc] at hup
  have hsent : frames extra ++ rest <+: sent := (List.prefix_append_right_inj _).mp hup
  rcases ex.current with hnone | ⟨m, more, hcalls, hextra, hframe⟩
  · rw [hnone] at hsent
    exact ⟨hnone, hsent⟩
  · rw [hextra, frames_singleton, hframe] at hsent
    have hlen := hsent.length_le
    rw [List.length_append] at hlen
    have hpos := List.length_pos_iff.mpr hrest
    omega

/-- A request that is complete meets no reply that is still being sent. -/
theorem Exchange.clear (ex : Exchange ctx msgs client c past extra sent got rest unsent)
    (hidle : Idle c) (hbody : 4 < c.rxCap) (hfull : c.rxLen = c.rxCap) : c.txCap = 0 := by
  have sound := ex.holds.sound
  have hsize : c.rxCap = c.rxBuf.bytes.length := sound.rxSize
  have hrest : rest ≠ [] := by
    intro hnil
    have hlen := congrArg List.length ex.holds.rest_eq
    rw [hnil, List.length_take, List.length_nil] at hlen
    omega
  obtain ⟨hextra, -⟩ := ex.pending hrest
  have hanswered := ex.answered
  have hdown := ex.down
  rw [hextra, List.append_nil] at hanswered
  rw [ex.received] at hdown
  have hunsent : unsent.length = 0 := by
    have hle := hdown.length_le
    have heq := congrArg List.length hanswered
    rw [List.length_append] at hle heq
    omega
  rw [ex.holds.unsent_eq, List.length_drop, List.length_take] at hunsent
  have htxSize : c.txCap ≤ c.txBuf.bytes.length := sound.txSize
  have htxSent := sound.txSent
  by_contra hne
  exact hidle ⟨Nat.pos_of_ne_zero hne, by omega⟩

/-- `echo_conn_func` consumes the current request or nothing. -/
theorem Exchange.serve (ex : Exchange ctx msgs client c past extra sent got rest unsent)
    (fits : Fits ctx len msgs) (granted : ∀ k, (grants k).granted = true)
    (serving : Serving ctx grants h c e code h' c' e) :
    ∃ extra' rest' unsent', Exchange ctx msgs client c' past extra' sent got rest' unsent' ∧
      c'.sock = c.sock ∧ ((c' = c ∧ c.rxLen < c.rxCap ∧ extra' = extra) ∨
        (stage c' ≠ stage c ∧ workDone client c' (past ++ extra').length =
          workDone client c (past ++ extra).length + 1)) := by
  obtain ⟨hrequests, hold⟩ := ex.requests fits
  obtain ⟨hsock, hcase⟩ := serving.holds ex.holds granted hrequests hold
    fun hidle hbody hfull => ex.clear hidle hbody hfull
  rcases hcase with ⟨holds', hstage⟩ | ⟨m', hm', hrest, hunsent, holds', hstage⟩
  · refine ⟨extra, rest, unsent, ⟨ex.split, ex.results, ex.calling, ex.current, ex.written,
      ex.received, holds', ?_, ?_, ?_, ?_⟩, hsock, ?_⟩
    · exact hsock ▸ ex.consumed
    · exact hsock ▸ ex.answered
    · exact hsock ▸ ex.up
    · exact hsock ▸ ex.down
    · rcases hstage with ⟨hsame, hwait⟩ | hstage
      · exact .inl ⟨hsame, hwait, rfl⟩
      · refine .inr ⟨by omega, ?_⟩
        simp only [workDone, hsock]
        omega
  · -- the request in the buffer is the current one, and it is complete
    have hne : rest ≠ [] := by
      rw [hrest]
      intro hnil
      have hlen := congrArg List.length hnil
      rw [length_frame, List.length_nil] at hlen
      omega
    obtain ⟨hextra, hbegin⟩ := ex.pending hne
    obtain ⟨m, more, hcalls⟩ : ∃ m more, client.calls = m :: more := by
      cases hcalls : client.calls with
      | nil =>
        rw [(calling_idle ex.calling hcalls).1] at hbegin
        exact absurd (List.prefix_nil.mp hbegin) hne
      | cons m more => exact ⟨m, more, rfl⟩
    have hm : m ∈ msgs := by
      rw [ex.split, hcalls]
      exact List.mem_append_right _ List.mem_cons_self
    have hsent : sent <+: frame m := by
      rcases calling_writing ex.calling hcalls with ⟨-, -, -, hsent, -⟩ | ⟨-, -, hsent, -⟩
      · exact hsent
      · exact hsent ▸ List.prefix_refl _
    obtain rfl : m' = m := by
      obtain ⟨tail, htail⟩ := (hrest ▸ hbegin.trans hsent : frame m' <+: frame m)
      have heq : frame m' ++ tail = frame m ++ [] := by rw [htail, List.append_nil]
      exact (frame_inj hm'.length_lt (fits.small hm).length_lt heq).1
    have hwhole : sent = frame m' :=
      hsent.eq_of_length (Nat.le_antisymm hsent.length_le (hrest ▸ hbegin.length_le))
    have hconsumed := ex.consumed
    have hanswered := ex.answered
    rw [hextra, List.append_nil] at hconsumed hanswered
    refine ⟨[m'], [], answer ctx m', ⟨ex.split, ex.results, ex.calling,
      .inr ⟨m', more, hcalls, rfl, hwhole⟩, ex.written, ex.received, holds', ?_, ?_, ?_, ?_⟩, hsock,
      .inr ⟨by omega, ?_⟩⟩
    · rw [hsock, hconsumed, hrest, frames_append, frames_singleton, List.append_nil]
    · rw [hunsent, List.append_nil] at hanswered
      rw [hsock, hanswered, answers_append, answers_singleton]
    · exact hsock ▸ ex.up
    · exact hsock ▸ ex.down
    · rw [hextra]
      simp only [workDone, hsock, List.length_append, List.length_nil, List.length_singleton]
      omega

/-- A read appends to what is not consumed. -/
theorem Exchange.read (ex : Exchange ctx msgs client c past extra sent got rest unsent)
    (hrun : handleRead r c e = .ok (success, c', e))
    (harrives : ∀ bytes, r = .data bytes → c.sock.received ++ bytes <+: client.sock.written) :
    ∃ rest', Exchange ctx msgs client c' past extra sent got rest' unsent ∧
      ∀ k, workDone client c k < workDone client c' k := by
  obtain ⟨hclear, herror, -⟩ := handleRead_code hrun
  rcases handleRead_holds ex.holds hrun with
    ⟨-, hends⟩ | ⟨x, hne, holds', hstage, hsock, bytes, hr, hx⟩
  · exact absurd hclear.symm (herror.mpr (.inr hends))
  · refine ⟨rest ++ x, ⟨ex.split, ex.results, ex.calling, ex.current, ex.written, ex.received,
      holds', ?_, ?_, ?_, ?_⟩, fun k => ?_⟩
    · rw [hsock, ← List.append_assoc, ← ex.consumed]
    · rw [hsock]
      exact ex.answered
    · rw [hsock]
      exact ((List.prefix_append_right_inj _).mpr hx).trans (harrives bytes hr)
    · rw [hsock]
      exact ex.down
    · have hlen := List.length_pos_iff.mpr hne
      simp only [workDone, hsock, hstage, List.length_append]
      omega

/-- A write moves the first unsent bytes to the socket. -/
theorem Exchange.write (ex : Exchange ctx msgs client c past extra sent got rest unsent)
    (clear : e.causeCode = success) (hrun : handleWrite s c e = .ok (c', e))
    (htakes : ∀ n, s = .sent n → 0 < n) :
    ∃ unsent', Exchange ctx msgs client c' past extra sent got rest unsent' ∧
      ∀ k, workDone client c k < workDone client c' k := by
  have hlt := (handleWrite_cases hrun).1
  rcases handleWrite_holds ex.holds hrun with
    ⟨-, hfailed⟩ | ⟨bytes, unsent', hsplit, holds', hstage, hsock, n, hs, hlen⟩
  · exact absurd clear hfailed
  · refine ⟨unsent', ⟨ex.split, ex.results, ex.calling, ex.current, ex.written, ex.received,
      holds', ?_, ?_, ?_, ?_⟩, fun k => ?_⟩
    · rw [hsock]
      exact ex.consumed
    · rw [hsock, List.append_assoc, ← hsplit]
      exact ex.answered
    · rw [hsock]
      exact ex.up
    · rw [hsock]
      exact ex.down.trans (List.prefix_append _ _)
    · have hpos := htakes n hs
      simp only [workDone, hsock, hstage, List.length_append]
      omega

/-- What one turn does behind `echo_conn_func`. -/
theorem Exchange.turn {a : Answers}
    (ex : Exchange ctx msgs client c past extra sent got rest unsent)
    (clear : e.causeCode = success)
    (turn : Turn a e c c')
    (harrives : ∀ revents bytes, a.poll = .ready revents → (revents 1).pollin = true →
      a.recv 1 = .data bytes → c.sock.received ++ bytes <+: client.sock.written)
    (htakes : ∀ revents n, a.poll = .ready revents → (revents 1).pollout = true →
      a.send 1 = .sent n → 0 < n) :
    ∃ rest' unsent', Exchange ctx msgs client c' past extra sent got rest' unsent' ∧
      (c' = c ∨ ∀ k, workDone client c k < workDone client c' k) := by
  rcases turn with ⟨-, rfl⟩ | ⟨revents, hpoll, ⟨hin, hread⟩ | ⟨-, hout, hwrite⟩ | ⟨-, -, rfl⟩⟩
  · exact ⟨rest, unsent, ex, .inl rfl⟩
  · obtain ⟨rest', ex', hwork⟩ := ex.read hread fun bytes hr => harrives revents bytes hpoll hin hr
    exact ⟨rest', unsent, ex', .inr hwork⟩
  · obtain ⟨unsent', ex', hwork⟩ :=
      ex.write clear hwrite fun n hs => htakes revents n hpoll hout hs
    exact ⟨rest, unsent', ex', .inr hwork⟩
  · exact ⟨rest, unsent, ex, .inl rfl⟩

/-- A connection that waits has not read all that the client has written, or it
has not sent all of the reply. -/
theorem Exchange.waiting (ex : Exchange ctx msgs client c past extra sent got rest unsent)
    (fits : Fits ctx len msgs) (hwait : c.rxLen < c.rxCap) (hwants : 0 < client.wants)
    (hread : client.sock.received = c.sock.written)
    (hall : c.sock.received = client.sock.written) : (wanted c).pollout = true := by
  obtain ⟨m, more, hcalls⟩ := calls_of_offers ex.calling (.inr hwants)
  obtain ⟨hsent, hgot⟩ : sent = frame m ∧ got.length < (answer ctx m).length := by
    rcases calling_writing ex.calling hcalls with ⟨-, hzero, -⟩ | ⟨-, -, hsent, hgot⟩
    · omega
    · exact ⟨hsent, hgot⟩
  obtain ⟨hrequests, hold⟩ := ex.requests fits
  have sound := ex.holds.sound
  -- the request is consumed: a complete one leaves the connection no room to wait
  have hextra : extra = [m] := by
    rcases ex.current with hnone | ⟨m', more', hcalls', hextra, -⟩
    · have hconsumed := ex.consumed
      rw [hnone, List.append_nil, hall, ex.written, hsent] at hconsumed
      have hrest : frame m = rest := List.append_cancel_left hconsumed
      have hlen : rest.length = c.rxLen := by
        have hcap := sound.rxLen
        have hsize : c.rxCap = c.rxBuf.bytes.length := sound.rxSize
        rw [ex.holds.rest_eq, List.length_take]
        omega
      rw [← hrest, length_frame] at hlen
      obtain ⟨m', hm', hmsg, -⟩ := ex.holds.next hrequests hold (by omega)
      have hm : m ∈ msgs := by
        rw [ex.split, hcalls]
        exact List.mem_append_right _ List.mem_cons_self
      have hlength : msgLength c = m.length := by
        have hbegin : rest.take 4 = c.rxBuf.bytes.take 4 := by
          rw [ex.holds.rest_eq, List.take_take, Nat.min_eq_left (by omega)]
        rw [msgLength, ← hbegin, decode_take, ← hrest, ← List.append_nil (frame m)]
        exact decode_frame (fits.small hm).length_lt []
      rcases sound.phase with ⟨hzero, -⟩ | hfour | ⟨-, -, hbody⟩
      · omega
      · omega
      · omega
    · obtain ⟨rfl, -⟩ := List.cons.inj (hcalls.symm.trans hcalls')
      exact hextra
  have hanswered := ex.answered
  rw [← hread, ex.received, hextra, answers_append, answers_singleton,
    List.append_assoc] at hanswered
  have hunsent : 0 < unsent.length := by
    have hlen := congrArg List.length (List.append_cancel_left hanswered)
    rw [List.length_append] at hlen
    omega
  rw [ex.holds.unsent_eq, List.length_drop, List.length_take] at hunsent
  have hpos : 0 < c.txCap ∧ c.txSent ≠ c.txCap := by omega
  simpa [wanted] using hpos

/-- What is consumed is the start of the messages. -/
theorem Exchange.started (ex : Exchange ctx msgs client c past extra sent got rest unsent) :
    past ++ extra <+: msgs := by
  rw [ex.split]
  refine (List.prefix_append_right_inj past).mpr ?_
  rcases ex.current with hnone | ⟨m, more, hcalls, hextra, -⟩
  · exact hnone ▸ List.nil_prefix
  · rw [hcalls, hextra]
    exact ⟨more, rfl⟩

theorem Exchange.bound (ex : Exchange ctx msgs client c past extra sent got rest unsent) :
    workDone client c (past ++ extra).length ≤
      2 * (frames msgs).length + 2 * (answers ctx msgs).length + 3 * msgs.length + 3 := by
  have hwritten : client.sock.written.length ≤ (frames msgs).length := by
    obtain ⟨more, hmore⟩ : client.sock.written <+: frames msgs := by
      rw [ex.written, ex.split, frames_append]
      exact (List.prefix_append_right_inj _).mpr ex.sending
    rw [← hmore, List.length_append]
    omega
  have hreplies : c.sock.written.length ≤ (answers ctx msgs).length := by
    obtain ⟨more, hmore⟩ := ex.started
    have hlen := congrArg List.length ex.answered
    rw [← hmore, answers_append, List.length_append, ← hlen, List.length_append]
    omega
  have hcount := ex.started.length_le
  have hup := ex.up.length_le
  have hdown := ex.down.length_le
  have hstage : stage c ≤ 3 := by
    simp only [stage]
    split_ifs <;> omega
  simp only [workDone]
  omega

end Steps

end EchoServer
