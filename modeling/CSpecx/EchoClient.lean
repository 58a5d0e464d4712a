import CSpecx.EchoFrames

/-!
# The request-reply client

`client.c` with `client_write_all_size_prefixed` and
`client_read_all_size_prefixed` called in turn. The client is between two
returns of `i_socket_send` or `i_socket_recv`; a step is one such return.
-/

namespace EchoServer

open CExec Errors HeapBuffers Polling

/-- In `write_exact` with its `total`, or in `read_exact` with the bytes stored so far. -/
inductive Stage where
  | writeSize (total : Nat)
  | writeMessage (total : Nat)
  | readSize (wire : List UInt8)
  | readMessage (msgLen : Nat) (dest : List UInt8)
  deriving DecidableEq

/-- `calls` are the messages of the calls that have not returned, `results` is
what the reading calls returned and stored, `len` is their argument. -/
structure Client where
  calls : List (List UInt8)
  stage : Stage
  results : List (Int × List UInt8)
  len : Nat
  sock : Socket

namespace Client

/-- The argument of `i_socket_send`. -/
def offers (c : Client) : List UInt8 :=
  match c.calls, c.stage with
  | m :: _, .writeSize total => (setPrefix m.length).drop total
  | m :: _, .writeMessage total => m.drop total
  | _, _ => []

/-- The length that `i_socket_recv` is called with. -/
def wants (c : Client) : Nat :=
  match c.calls, c.stage with
  | _ :: _, .readSize wire => 4 - wire.length
  | _ :: _, .readMessage msgLen dest => msgLen - dest.length
  | _, _ => 0

/-- The second `write_exact`, and the first `read_exact` behind it. -/
def startMessage (m : List UInt8) : Stage :=
  if 0 < m.length then .writeMessage 0 else .readSize []

/-- `client_read_all_size_prefixed` returns. -/
def finish (code : Int) (dest : List UInt8) (c : Client) : Client :=
  { c with calls := c.calls.tail, stage := .writeSize 0, results := c.results ++ [(code, dest)] }

/-- The second `read_exact`, once the length is known. -/
def startReply (msgLen : Nat) (c : Client) : Client :=
  if c.len < msgLen then c.finish errIo []
  else if 0 < msgLen then { c with stage := .readMessage msgLen [] }
  else c.finish 0 []

/-- The loop of `write_exact` when `i_socket_send` has taken `k` bytes. -/
def afterSend (k : Nat) (c : Client) : Stage :=
  match c.calls, c.stage with
  | m :: _, .writeSize total =>
    if total + k < 4 then .writeSize (total + k) else startMessage m
  | m :: _, .writeMessage total =>
    if total + k < m.length then .writeMessage (total + k) else .readSize []
  | _, stage => stage

/-- `i_socket_send` takes up to `n` bytes. -/
def send (n : Nat) (c : Client) : Client :=
  let bytes := c.offers.take n
  { c with
    stage := c.afterSend bytes.length
    sock := { c.sock with written := c.sock.written ++ bytes } }

/-- `i_socket_recv` returns what it can of the bytes that have arrived. -/
def recv (bytes : List UInt8) (c : Client) : Client :=
  let got := bytes.take c.wants
  let c := { c with sock := { c.sock with received := c.sock.received ++ got } }
  match c.calls, c.stage with
  | _ :: _, .readSize wire =>
    if wire.length + got.length < 4 then { c with stage := .readSize (wire ++ got) }
    else c.startReply (decodePrefix (wire ++ got))
  | _ :: _, .readMessage msgLen dest =>
    if dest.length + got.length < msgLen then { c with stage := .readMessage msgLen (dest ++ got) }
    else c.finish msgLen (dest ++ got)
  | _, _ => c

end Client

/-- The message of a reply. -/
def body (ctx : EchoContext) (m : List UInt8) : List UInt8 := ctx.pre ++ m ++ ctx.suf

/-- What the call for `m` returns and stores. -/
def result (ctx : EchoContext) (m : List UInt8) : Int × List UInt8 :=
  ((body ctx m).length, body ctx m)

/-- Of the current call, `sent` has been written and `got` has been read. -/
inductive Calling (ctx : EchoContext) (c : Client) : List UInt8 → List UInt8 → Prop where
  | idle (hcalls : c.calls = []) : Calling ctx c [] []
  | writeSize (m : List UInt8) (more : List (List UInt8)) (total : Nat)
      (hcalls : c.calls = m :: more) (hstage : c.stage = .writeSize total) (hlt : total < 4) :
      Calling ctx c ((setPrefix m.length).take total) []
  | writeMessage (m : List UInt8) (more : List (List UInt8)) (total : Nat)
      (hcalls : c.calls = m :: more) (hstage : c.stage = .writeMessage total)
      (hlt : total < m.length) : Calling ctx c (setPrefix m.length ++ m.take total) []
  | readSize (m : List UInt8) (more : List (List UInt8)) (wire : List UInt8)
      (hcalls : c.calls = m :: more) (hstage : c.stage = .readSize wire) (hlt : wire.length < 4) :
      Calling ctx c (frame m) wire
  | readMessage (m : List UInt8) (more : List (List UInt8)) (dest : List UInt8)
      (hcalls : c.calls = m :: more)
      (hstage : c.stage = .readMessage (body ctx m).length dest)
      (hlt : dest.length < (body ctx m).length) :
      Calling ctx c (frame m) (setPrefix (body ctx m).length ++ dest)

section Steps

variable {ctx : EchoContext} {c : Client} {sent got bytes m : List UInt8} {n : Nat}
  {more : List (List UInt8)}

/-- A piece taken behind the first `n` bytes extends them. -/
theorem take_piece (xs : List UInt8) (total : Nat) :
    xs.take total ++ (xs.drop total).take n =
      xs.take (total + ((xs.drop total).take n).length) := by
  rw [List.take_add, ← List.prefix_iff_eq_take.mp ( List.take_prefix n (xs.drop total))]

theorem piece_ne_nil (hpos : 0 < n) (h : bytes ≠ []) : bytes.take n ≠ [] := by
  intro hnil
  rcases List.take_eq_nil_iff.mp hnil with hzero | hnil
  · omega
  · exact h hnil

/-- Between two calls. -/
theorem calling_start (hstage : c.stage = .writeSize 0) : Calling ctx c [] [] := by
  cases hcalls : c.calls with
  | nil => exact .idle hcalls
  | cons m more =>
    have next : Calling ctx c ((setPrefix m.length).take 0) [] :=
      .writeSize m more 0 hcalls hstage (by decide)
    rwa [List.take_zero] at next

/-- A send extends what is sent of the current request. -/
theorem send_calling (calling : Calling ctx c sent got) (hpos : 0 < n) (hoffers : c.offers ≠ []) :
    ∃ bytes, bytes ≠ [] ∧ Calling ctx (c.send n) (sent ++ bytes) got ∧
      (c.send n).sock = { c.sock with written := c.sock.written ++ bytes } := by
  refine ⟨c.offers.take n, piece_ne_nil hpos hoffers, ?_, rfl⟩
  cases calling with
  | idle hcalls => exact absurd (by simp only [Client.offers, hcalls]) hoffers
  | writeSize m more total hcalls hstage hlt =>
    have hpiece : c.offers = (setPrefix m.length).drop total := by
      simp only [Client.offers, hcalls, hstage]
    obtain ⟨k, hk⟩ : ∃ k, k = (c.offers.take n).length := ⟨_, rfl⟩
    have hjoin : (setPrefix m.length).take total ++ c.offers.take n =
        (setPrefix m.length).take (total + k) := by
      rw [hk, hpiece]
      exact take_piece _ _
    have hafter : (c.send n).stage = if total + k < 4 then .writeSize (total + k)
        else Client.startMessage m := by
      simp only [Client.send, Client.afterSend, hcalls, hstage, hk]
    rw [hjoin]
    by_cases hmore : total + k < 4
    · rw [if_pos hmore] at hafter
      exact .writeSize m more (total + k) hcalls hafter hmore
    · have hall : (setPrefix m.length).take (total + k) = setPrefix m.length :=
        List.take_of_length_le (by rw [length_setPrefix]; omega)
      rw [if_neg hmore, Client.startMessage] at hafter
      rw [hall]
      by_cases hm : 0 < m.length
      · rw [if_pos hm] at hafter
        have next : Calling ctx (c.send n) (setPrefix m.length ++ m.take 0) [] :=
          .writeMessage m more 0 hcalls hafter hm
        rwa [List.take_zero, List.append_nil] at next
      · rw [if_neg hm] at hafter
        have hnil : m = [] := List.eq_nil_of_length_eq_zero (by omega)
        have next : Calling ctx (c.send n) (frame m) [] :=
          .readSize m more [] hcalls hafter (by decide)
        have hframe : frame m = setPrefix m.length := by
          rw [frame, hnil, List.append_nil]
        exact hframe ▸ next
  | writeMessage m more total hcalls hstage hlt =>
    have hpiece : c.offers = m.drop total := by simp only [Client.offers, hcalls, hstage]
    obtain ⟨k, hk⟩ : ∃ k, k = (c.offers.take n).length := ⟨_, rfl⟩
    have hjoin : m.take total ++ c.offers.take n = m.take (total + k) := by
      rw [hk, hpiece]
      exact take_piece _ _
    have hafter : (c.send n).stage = if total + k < m.length then .writeMessage (total + k)
        else .readSize [] := by
      simp only [Client.send, Client.afterSend, hcalls, hstage, hk]
    rw [List.append_assoc, hjoin]
    by_cases hmore : total + k < m.length
    · rw [if_pos hmore] at hafter
      exact .writeMessage m more (total + k) hcalls hafter hmore
    · rw [if_neg hmore] at hafter
      rw [List.take_of_length_le (by omega)]
      exact .readSize m more [] hcalls hafter (by decide)
  | readSize m more wire hcalls hstage =>
    exact absurd (by simp only [Client.offers, hcalls, hstage]) hoffers
  | readMessage m more dest hcalls hstage =>
    exact absurd (by simp only [Client.offers, hcalls, hstage]) hoffers

/-- A receive extends what is read of the current reply, or completes it. -/
theorem recv_calling (calling : Calling ctx c sent got) (hcalls : c.calls = m :: more)
    (hwants : 0 < c.wants) (hne : bytes ≠ []) (hlen : (body ctx m).length ≤ c.len)
    (hbody : 0 < (body ctx m).length) (hsmall : (body ctx m).length < 2 ^ 32)
    (hbegin : got ++ bytes <+: answer ctx m) :
    ∃ x, x ≠ [] ∧ x <+: bytes ∧
      (c.recv bytes).sock = { c.sock with received := c.sock.received ++ x } ∧
      (c.recv bytes).len = c.len ∧
      ((Calling ctx (c.recv bytes) sent (got ++ x) ∧ (c.recv bytes).calls = c.calls ∧
        (c.recv bytes).results = c.results) ∨
      (got ++ x = answer ctx m ∧ Calling ctx (c.recv bytes) [] [] ∧ (c.recv bytes).calls = more ∧
        (c.recv bytes).results = c.results ++ [result ctx m])) := by
  obtain ⟨x, hx⟩ : ∃ x, x = bytes.take c.wants := ⟨_, rfl⟩
  have hxne : x ≠ [] := hx ▸ piece_ne_nil hwants hne
  have hxbegin : x <+: bytes := hx ▸ List.take_prefix _ _
  have hsofar : got ++ x <+: answer ctx m :=
    (List.prefix_append_right_inj got).mpr hxbegin |>.trans hbegin
  refine ⟨x, hxne, hxbegin, ?_⟩
  cases calling with
  | idle hnone => cases hnone.symm.trans hcalls
  | writeSize m' more' total hcalls' hstage =>
    exact absurd hwants (by simp only [Client.wants, hcalls', hstage]; omega)
  | writeMessage m' more' total hcalls' hstage =>
    exact absurd hwants (by simp only [Client.wants, hcalls', hstage]; omega)
  | readSize m' more' _ hcalls' hstage hlt =>
    obtain ⟨rfl, rfl⟩ := List.cons.inj (hcalls.symm.trans hcalls')
    obtain ⟨d, hd⟩ : ∃ d, d = { c with sock := { c.sock with received := c.sock.received ++ x } } :=
      ⟨_, rfl⟩
    have hrecv : c.recv bytes = if got.length + x.length < 4 then
        { d with stage := .readSize (got ++ x) } else d.startReply (decodePrefix (got ++ x)) := by
      simp only [Client.recv, hcalls, hstage, ← hx, hd]
    by_cases hmore : got.length + x.length < 4
    · rw [if_pos hmore] at hrecv
      rw [hrecv, hd]
      refine ⟨rfl, rfl, .inl ⟨.readSize m more (got ++ x) hcalls rfl ?_, rfl, rfl⟩⟩
      rw [List.length_append]
      exact hmore
    · rw [if_neg hmore] at hrecv
      have hxlen : x.length ≤ 4 - got.length := by
        rw [hx]
        refine (List.length_take_le _ _).trans ?_
        simp only [Client.wants, hcalls, hstage]
        exact le_refl _
      have hwire : got ++ x = setPrefix (body ctx m).length :=
        (List.prefix_of_prefix_length_le hsofar (List.prefix_append _ _)
          (by rw [List.length_append, length_setPrefix]; omega)).eq_of_length
          (by rw [List.length_append, length_setPrefix]; omega)
      have hdecode : decodePrefix (got ++ x) = (body ctx m).length := by
        have := decode_setPrefix hsmall []
        rwa [List.append_nil, ← hwire] at this
      have hdlen : ¬ d.len < (body ctx m).length := by
        rw [hd]
        exact Nat.not_lt.mpr hlen
      rw [hdecode, Client.startReply, if_neg hdlen, if_pos hbody] at hrecv
      rw [hrecv, hd, hwire]
      refine ⟨rfl, rfl, .inl ⟨?_, rfl, rfl⟩⟩
      rw [← List.append_nil (setPrefix _)]
      exact .readMessage m more [] hcalls rfl hbody
  | readMessage m' more' dest hcalls' hstage hlt =>
    obtain ⟨rfl, rfl⟩ := List.cons.inj (hcalls.symm.trans hcalls')
    obtain ⟨d, hd⟩ : ∃ d, d = { c with sock := { c.sock with received := c.sock.received ++ x } } :=
      ⟨_, rfl⟩
    have hrecv : c.recv bytes = if dest.length + x.length < (body ctx m).length then
        { d with stage := .readMessage (body ctx m).length (dest ++ x) }
        else d.finish (body ctx m).length (dest ++ x) := by
      simp only [Client.recv, hcalls, hstage, ← hx, hd]
    by_cases hmore : dest.length + x.length < (body ctx m).length
    · rw [if_pos hmore] at hrecv
      rw [hrecv, hd, List.append_assoc]
      refine ⟨rfl, rfl, .inl ⟨.readMessage m more (dest ++ x) hcalls rfl ?_, rfl, rfl⟩⟩
      rw [List.length_append]
      exact hmore
    · rw [if_neg hmore] at hrecv
      have hxlen : x.length ≤ (body ctx m).length - dest.length := by
        rw [hx]
        refine (List.length_take_le _ _).trans ?_
        simp only [Client.wants, hcalls, hstage]
        exact le_refl _
      have hwhole : dest ++ x = body ctx m := by
        have hsame : dest ++ x <+: body ctx m := by
          rw [List.append_assoc] at hsofar
          exact (List.prefix_append_right_inj _).mp hsofar
        exact hsame.eq_of_length (by rw [List.length_append]; omega)
      rw [hrecv, hd, hwhole]
      refine ⟨rfl, rfl, .inr ⟨?_, ?_, ?_, rfl⟩⟩
      · rw [List.append_assoc, hwhole]
        rfl
      · exact calling_start rfl
      · show c.calls.tail = more
        rw [hcalls, List.tail_cons]

end Steps

end EchoServer
