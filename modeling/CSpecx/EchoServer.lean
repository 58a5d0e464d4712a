import CSpecx.PollingServer

/-!
# The echo server

The connection actions of `echo_server.c`. The prefix and suffix are the bytes
of the two strings. `i_htonl` and `i_ntohl` convert between a number and its
four bytes, the most significant first.
-/

namespace EchoServer

open CExec Errors HeapBuffers Polling

structure EchoContext where
  pre : List UInt8
  suf : List UInt8

/-- The four bytes of `i_htonl (n)`. -/
def setPrefix (n : Nat) : List UInt8 :=
  [UInt8.ofNat (n / 2 ^ 24), UInt8.ofNat (n / 2 ^ 16), UInt8.ofNat (n / 2 ^ 8), UInt8.ofNat n]

/-- `i_ntohl` of the first four bytes. -/
def decodePrefix : List UInt8 → Nat
  | b₀ :: b₁ :: b₂ :: b₃ :: _ =>
    b₀.toNat * 2 ^ 24 + b₁.toNat * 2 ^ 16 + b₂.toNat * 2 ^ 8 + b₃.toNat
  | _ => 0

/-- `(u32)strlen (ctx->prefix)`. -/
def EchoContext.plen (ctx : EchoContext) : Nat := u32 ctx.pre.length

/-- `(u32)strlen (ctx->suffix)`. -/
def EchoContext.slen (ctx : EchoContext) : Nat := u32 ctx.suf.length

/-- The branch of a new connection. -/
def createRx (g : Grant) (h : Heap) (c : Connection) (e : ErrorObject) :
    Outcome (Int × Heap × Connection × ErrorObject) := do
  let (p, h, e) ← iMallocBytes g 4 h e
  if p = .null then .ok (errorTrace e, h, { c with rxBuf := p }, e)
  else .ok (success, h, { c with rxBuf := p, rxCap := 4, rxLen := 0 }, e)

/-- The branch of a complete length prefix. -/
def extendRx (g : Grant) (h : Heap) (c : Connection) (e : ErrorObject) :
    Outcome (Int × Heap × Connection × ErrorObject) := do
  let wire ← c.rxBuf.load 0 4
  let msgLen := decodePrefix wire
  if msgLen = 0 then .ok (success, h, { c with rxLen := 0 }, e)
  else do
    let (p, h, e) ← iReallocRight g c.rxBuf c.rxCap (u32 (4 + msgLen)) h e
    if p = .null then .ok (errorTrace e, h, c, e)
    else .ok (success, h, { c with rxBuf := p, rxCap := u32 (4 + msgLen) }, e)

/-- The bytes of the reply, and where `head` ends. -/
def writeReply (ctx : EchoContext) (tx rx : Ptr) (mlen msgLen : Nat) : Outcome (Ptr × Nat) := do
  let tx ← tx.store 0 (setPrefix msgLen)
  let tx ← tx.store 4 (ctx.pre.take ctx.plen)
  let msg ← rx.load 4 mlen
  let tx ← tx.store (u32 (4 + ctx.plen)) msg
  let tx ← tx.store (u32 (u32 (4 + ctx.plen) + mlen)) (ctx.suf.take ctx.slen)
  .ok (tx, u32 (u32 (u32 (4 + ctx.plen) + mlen) + ctx.slen))

/-- The shrinking of the receive buffer after the reply is in place. -/
def resetRx (g : Grant) (oldRxCap : Nat) (h : Heap) (c : Connection) (e : ErrorObject) :
    Outcome (Int × Heap × Connection × ErrorObject) := do
  let (p, h, e) ← iReallocRight g c.rxBuf oldRxCap 4 h e
  if p = .null then .ok (errorTrace e, h, c, e)
  else .ok (success, h, { c with rxBuf := p, rxCap := 4, rxLen := 0 }, e)

/-- The branch of a complete request. -/
def reply (ctx : EchoContext) (grants : Nat → Grant) (h : Heap) (c : Connection)
    (e : ErrorObject) : Outcome (Int × Heap × Connection × ErrorObject) := do
  assert (c.rxLen = c.rxCap)
  let wire ← c.rxBuf.load 0 4
  let mlen := decodePrefix wire
  let msgLen := u32 (mlen + ctx.plen + ctx.slen)
  let frameLen := u32 (msgLen + 4)
  let (p, h, e) ← iMallocBytes (grants 0) frameLen h e
  if p = .null then .ok (errorTrace e, h, { c with txBuf := p }, e)
  else do
    let (p, head) ← writeReply ctx p c.rxBuf mlen msgLen
    assert (head = frameLen)
    resetRx (grants 1) (sub32 (sub32 frameLen ctx.plen) ctx.slen) h
      { c with txBuf := p, txCap := frameLen, txSent := 0 } e

def echoConnFunc (ctx : EchoContext) (grants : Nat → Grant) (h : Heap) (c : Connection)
    (e : ErrorObject) : Outcome (Int × Heap × Connection × ErrorObject) :=
  if c.rxCap = 0 ∧ c.txCap = 0 then createRx (grants 0) h c e
  else if 0 < c.txCap ∧ c.txSent = c.txCap then
    .ok (success, h, { c with txCap := 0, txSent := 0 }, e)
  else if c.rxLen < c.rxCap then .ok (success, h, c, e)
  else if c.rxCap = 4 then extendRx (grants 0) h c e
  else reply ctx grants h c e

/-- `i_malloc (1, sizeof (struct connection), e)`; the structure has 40 bytes. -/
def echoConnAlloc (g : Grant) (h : Heap) (e : ErrorObject) :
    Outcome (Option Nat × Heap × ErrorObject) := do
  let (ok, e) ← iMalloc g.granted 1 40 e
  if ok then .ok (some h.next, h.grow, e) else .ok (none, h, e)

def echoConnFree (h : Heap) (id : Nat) : Outcome Heap := do
  access (id ∈ h.live)
  .ok (h.free id)

def echoActions (ctx : EchoContext) : ConnActions where
  connAlloc := echoConnAlloc
  connFunc := echoConnFunc ctx
  connFree := echoConnFree

end EchoServer
