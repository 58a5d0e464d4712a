import CSpecx.HeapBuffers
import Mathlib.Logic.Function.Basic

/-!
# The polling server

`polling_server.c` over any connection actions. A connection is a value at the
index that points to it, and a socket carries the bytes that have passed
through it. The latches are left out: one thread runs the server. What the
system calls of one `pserv_execute` answer is given with the call.
-/

namespace Polling

open CExec Errors HeapBuffers

/-- The bits of `events` and `revents`. -/
structure Events where
  pollin : Bool
  pollout : Bool
  pollerr : Bool
  pollhup : Bool
  pollnval : Bool
  deriving DecidableEq, Repr

def Events.none : Events := ⟨false, false, false, false, false⟩

structure PollFd where
  fd : Int
  events : Events
  revents : Events

/-- `i_socket` with the bytes received and sent through it so far. -/
structure Socket where
  fd : Int
  received : List UInt8
  written : List UInt8
  deriving DecidableEq

/-- `id` is the block of the structure itself. -/
structure Connection where
  id : Nat
  rxBuf : Ptr
  rxCap : Nat
  rxLen : Nat
  txBuf : Ptr
  txCap : Nat
  txSent : Nat
  sock : Socket
  deriving DecidableEq

/-- `memset` to zero, then the socket that `i_socket_accept` fills in. -/
def Connection.fresh (id : Nat) (fd : Int) : Connection :=
  ⟨id, .null, 0, 0, .null, 0, 0, ⟨fd, [], []⟩⟩

/-- `struct conn_actions` with its context. -/
structure ConnActions where
  connAlloc : Grant → Heap → ErrorObject → Outcome (Option Nat × Heap × ErrorObject)
  connFunc : (Nat → Grant) → Heap → Connection → ErrorObject →
    Outcome (Int × Heap × Connection × ErrorObject)
  connFree : Heap → Nat → Outcome Heap

/-- `struct polling_server`; `opened` says whether `fds` and `conns` are not `NULL`. -/
structure PollingServer where
  fds : Nat → PollFd
  conns : Nat → Option Connection
  len : Nat
  cap : Nat
  running : Int
  opened : Bool

/-- The server with the heap and the error object of the call. -/
structure State where
  ps : PollingServer
  heap : Heap
  e : ErrorObject

inductive PollResult where
  | failed
  | idle
  | ready (revents : Nat → Events)

/-- `data` holds what the peer has sent; a call takes what fits its buffer. -/
inductive RecvResult where
  | failed
  | data (bytes : List UInt8)

/-- `sent` is cut to what the call offers. -/
inductive SendResult where
  | failed
  | sent (n : Nat)

structure Accept where
  conn : Grant
  sock : Option Int
  fdsGranted : Bool
  connsGranted : Bool
  closed : Bool

/-- The answers of the system calls during one `pserv_execute`, by the index
they are made for. -/
structure Answers where
  grants : Nat → Nat → Grant
  poll : PollResult
  recv : Nat → RecvResult
  send : Nat → SendResult
  closed : Nat → Bool
  accept : Accept

namespace State

def fail (st : State) (c : Int) (msg : Message) : State :=
  { st with e := (errorCausef st.e c msg).2 }

def setConn (st : State) (i : Nat) (c : Connection) : State :=
  { st with ps := { st.ps with conns := Function.update st.ps.conns i (some c) } }

def setFd (st : State) (i : Nat) (f : PollFd) : State :=
  { st with ps := { st.ps with fds := Function.update st.ps.fds i f } }

def setHeap (st : State) (h : Heap) : State := { st with heap := h }

def setError (st : State) (e : ErrorObject) : State := { st with e := e }

@[simp] theorem setConn_self (st : State) (i : Nat) (c : Connection) :
    (st.setConn i c).ps.conns i = some c := by
  simp only [setConn, Function.update_self]

@[simp] theorem setFd_self (st : State) (i : Nat) (f : PollFd) : (st.setFd i f).ps.fds i = f := by
  simp only [setFd, Function.update_self]

end State

/-! ## The events of a connection -/

/-- What `pserv_execute_conns` asks `poll` for. -/
def wanted (c : Connection) : Events :=
  { Events.none with
    pollin := decide (0 < c.rxCap) && decide (c.rxLen ≠ c.rxCap)
    pollout := decide (0 < c.txCap) && decide (c.txSent ≠ c.txCap) }

/-- One iteration of `pserv_execute_conns`, with the code of an early return. -/
def executeConn (actions : ConnActions) (grants : Nat → Grant) (i : Nat) (st : State) :
    Outcome (Option Int × State) := do
  let c ← nonNull (st.ps.conns i)
  let (failed, h, c, e) ← actions.connFunc grants st.heap c st.e
  let st := ((st.setHeap h).setError e).setConn i c
  if failed ≠ 0 then .ok (some (errorTrace st.e), st)
  else .ok (none, st.setFd i { st.ps.fds i with events := wanted c })

/-- The iterations from `i` on, `n` of them. -/
def executeConns (actions : ConnActions) (grants : Nat → Nat → Grant) :
    Nat → Nat → State → Outcome (Int × State)
  | 0, _, st => .ok (success, st)
  | n + 1, i, st => do
    let (returned, st) ← executeConn actions (grants i) i st
    match returned with
    | some code => .ok (code, st)
    | none => executeConns actions grants n (i + 1) st

def pservExecuteConns (actions : ConnActions) (grants : Nat → Nat → Grant) (st : State) :
    Outcome (Int × State) := executeConns actions grants (st.ps.len - 1) 1 st

/-! ## Reading and writing -/

def handleRead (r : RecvResult) (c : Connection) (e : ErrorObject) :
    Outcome (Int × Connection × ErrorObject) := do
  assert (c.rxLen < c.rxCap)
  c.rxBuf.offset c.rxLen
  match r with
  | .failed =>
    let e := (errorCausef e errIo ⟨"recv: %s", []⟩).2
    .ok (errorTrace e, c, e)
  | .data bytes =>
    let got := bytes.take (c.rxCap - c.rxLen)
    if got = [] then
      let e := (errorCausef e errIo ⟨"recv: peer closed connection", []⟩).2
      .ok (errorTrace e, c, e)
    else do
      let p ← c.rxBuf.store c.rxLen got
      .ok (errorTrace e,
        { c with
          rxBuf := p
          rxLen := u32 (c.rxLen + got.length)
          sock := { c.sock with received := c.sock.received ++ got } }, e)

def handleWrite (s : SendResult) (c : Connection) (e : ErrorObject) :
    Outcome (Connection × ErrorObject) := do
  assert (c.txSent < c.txCap)
  c.txBuf.offset c.txSent
  match s with
  | .failed => .ok (c, (errorCausef e errIo ⟨"send: %s", []⟩).2)
  | .sent n => do
    let bytes ← c.txBuf.load c.txSent (min n (c.txCap - c.txSent))
    .ok ({ c with
      txSent := u32 (c.txSent + bytes.length)
      sock := { c.sock with written := c.sock.written ++ bytes } }, e)

/-! ## Accepting and removing -/

/-- `i_realloc_right` of one of the two arrays, whose elements have eight bytes. -/
def growArray (granted : Bool) (newCap : Nat) (st : State) : Outcome (Bool × State) := do
  assert (0 < newCap)
  assert (newCap * 8 < 2 ^ 32)
  if granted then .ok (true, st)
  else .ok (false, st.fail errNomem ⟨"realloc %u bytes: %s", [newCap * 8]⟩)

def growIfNeeded (a : Accept) (st : State) : Outcome (Int × State) :=
  if st.ps.len < st.ps.cap then .ok (success, st)
  else do
    let (fds, st) ← growArray a.fdsGranted (u32 (st.ps.cap * 2)) st
    if fds = false then .ok (errorTrace st.e, st)
    else do
      let (conns, st) ← growArray a.connsGranted (u32 (st.ps.cap * 2)) st
      if conns = false then .ok (errorTrace st.e, st)
      else .ok (success, { st with ps := { st.ps with cap := u32 (st.ps.cap * 2) } })

/-- The end of `handle_accept`: the connection gets the next index. Below `cap`
the sum does not wrap. -/
def addConn (c : Connection) (st : State) : Outcome State := do
  access (st.ps.len < st.ps.cap)
  let st := (st.setFd st.ps.len ⟨c.sock.fd, Events.none, Events.none⟩).setConn st.ps.len c
  .ok { st with ps := { st.ps with len := st.ps.len + 1 } }

/-- `handle_accept` once the connection is allocated. -/
def acceptConn (actions : ConnActions) (a : Accept) (id : Nat) (st : State) :
    Outcome (Int × State) :=
  match a.sock with
  | none => do
    let st := st.fail errIo ⟨"accept: %s", []⟩
    let h ← actions.connFree st.heap id
    .ok (errorTrace st.e, st.setHeap h)
  | some fd => do
    let (failed, st) ← growIfNeeded a st
    if failed ≠ 0 then do
      let st := if a.closed then st else st.fail errIo ⟨"close: %s", []⟩
      let h ← actions.connFree st.heap id
      .ok (errorTrace st.e, st.setHeap h)
    else do
      let st ← addConn (Connection.fresh id fd) st
      .ok (success, st)

def handleAccept (actions : ConnActions) (a : Accept) (st : State) : Outcome (Int × State) := do
  let (conn, h, e) ← actions.connAlloc a.conn st.heap st.e
  let st := (st.setHeap h).setError e
  match conn with
  | none => .ok (errorTrace st.e, st)
  | some id => acceptConn actions a id st

/-- `i_free` of both buffers. -/
def freeBuffers (c : Connection) (h : Heap) : Outcome (Connection × Heap) := do
  let h ← iFree c.rxBuf h
  let h ← iFree c.txBuf h
  .ok ({ c with rxBuf := .dangling, txBuf := .dangling }, h)

def removeClient (actions : ConnActions) (closed : Bool) (i : Nat) (st : State) :
    Outcome (Int × State) := do
  let c ← nonNull (st.ps.conns i)
  let (c, h) ← freeBuffers c st.heap
  let st := (st.setHeap h).setConn i c
  if closed = false then
    let st := st.fail errIo ⟨"close: %s", []⟩
    .ok (errorTrace st.e, st)
  else do
    let h ← actions.connFree st.heap c.id
    let last := st.ps.len - 1
    let ps := { st.ps with
      fds := Function.update st.ps.fds i (st.ps.fds last)
      conns := Function.update st.ps.conns i (st.ps.conns last)
      len := last }
    .ok (success, { st with ps := ps, heap := h })

/-! ## One call -/

/-- The branch of a connection that has no `POLLERR` or `POLLHUP`. -/
def serveConn (actions : ConnActions) (a : Answers) (i : Nat) (ev : Events) (st : State) :
    Outcome (Option Int × State) := do
  let c ← nonNull (st.ps.conns i)
  if ev.pollin then do
    let (failed, c, e) ← handleRead (a.recv i) c st.e
    let st := (st.setError e).setConn i c
    if failed ≠ 0 then do
      let (failed, st) ← removeClient actions (a.closed i) i st
      if failed ≠ 0 then .ok (some (errorTrace st.e), st) else .ok (none, st)
    else .ok (none, st)
  else if ev.pollout then do
    let (c, e) ← handleWrite (a.send i) c st.e
    .ok (none, (st.setError e).setConn i c)
  else .ok (none, st)

/-- One iteration of the loop of `pserv_execute`, with the code of an early return. -/
def handleEvent (actions : ConnActions) (a : Answers) (i : Nat) (st : State) :
    Outcome (Option Int × State) :=
  let ev := (st.ps.fds i).revents
  if ev = Events.none then .ok (none, st)
  else if i = 0 then do
    assert (ev.pollin = true)
    let (failed, st) ← handleAccept actions a.accept st
    if failed ≠ 0 then .ok (some (errorTrace st.e), st) else .ok (none, st)
  else if ev.pollerr || ev.pollhup then do
    let (failed, st) ← removeClient actions (a.closed i) i st
    if failed ≠ 0 then .ok (some (errorTrace st.e), st) else .ok (none, st)
  else serveConn actions a i ev st

/-- The iterations for the indices below `n`, from the last one down. -/
def pollLoop (actions : ConnActions) (a : Answers) : Nat → State → Outcome (Int × State)
  | 0, st => .ok (st.ps.running, st)
  | i + 1, st => do
    let (returned, st) ← handleEvent actions a i st
    match returned with
    | some code => .ok (code, st)
    | none => pollLoop actions a i st

/-- `poll` stores its results in the array. -/
def storeRevents (revents : Nat → Events) (st : State) : State :=
  { st with ps := { st.ps with fds := fun i => { st.ps.fds i with revents := revents i } } }

/-- `i_poll` and the loop behind it. -/
def pollAndHandle (actions : ConnActions) (a : Answers) (st : State) : Outcome (Int × State) :=
  match a.poll with
  | .failed =>
    let st := st.fail errIo ⟨"poll: %s", []⟩
    .ok (errorTrace st.e, st)
  | .idle => .ok (st.ps.running, st)
  | .ready revents => pollLoop actions a st.ps.len (storeRevents revents st)

def pservExecute (actions : ConnActions) (a : Answers) (st : State) : Outcome (Int × State) := do
  let (failed, st) ← pservExecuteConns actions a.grants st
  if failed ≠ 0 then .ok (errorTrace st.e, st)
  else pollAndHandle actions a st

/-! ## Opening and closing -/

/-- `pserv_open` after both allocations and the socket calls; `fd` is the listening socket. -/
def pservOpened (fd : Int) (conns : Nat → Option Connection) (fds : Nat → PollFd) :
    PollingServer where
  fds := Function.update fds 0 ⟨fd, { Events.none with pollin := true }, Events.none⟩
  conns := Function.update conns 0 none
  len := 1
  cap := 101
  running := 1
  opened := true

/-- One iteration of `pserv_close`; a failing `close` is only recorded. -/
def closeConn (actions : ConnActions) (closed : Bool) (i : Nat) (st : State) : Outcome State := do
  let c ← nonNull (st.ps.conns i)
  let (c, h) ← freeBuffers c st.heap
  let st := (st.setHeap h).setConn i c
  let st := if closed then st else st.fail errIo ⟨"close: %s", []⟩
  let h ← actions.connFree st.heap c.id
  .ok (st.setHeap h)

def closeConns (actions : ConnActions) (closed : Nat → Bool) : Nat → Nat → State → Outcome State
  | 0, _, st => .ok st
  | n + 1, i, st => do
    let st ← closeConn actions (closed i) i st
    closeConns actions closed n (i + 1) st

/-- `closed 0` is the answer for the listening socket. -/
def pservClose (actions : ConnActions) (closed : Nat → Bool) (st : State) :
    Outcome (Int × State) := do
  let st ← closeConns actions closed (st.ps.len - 1) 1 st
  let st := if closed 0 then st else st.fail errIo ⟨"close: %s", []⟩
  assert (st.ps.opened = true)
  let ps := { st.ps with opened := false, len := 0, cap := 0 }
  .ok (errorTrace st.e, { st with ps := ps })

end Polling
