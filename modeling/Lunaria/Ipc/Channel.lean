import Lunaria.Lib.Frames

/-! The message channel between two processes of `luna_process_ipc.c`. A message goes out as a packet of eight header
    bytes and its payload; the packets wait in a queue until the socket takes them, in pieces. A tick reads what the
    socket has into the header and then the payload, and hands over what is complete. What the socket and `malloc` answer
    is given to each call as a list. -/

namespace Lunaria.Ipc

open Function

abbrev Message := List UInt8

/-- The error numbers the channel names, and all the others. -/
inductive Errno
  | eintr
  | eagain
  | epipe
  | eproto
  | emsgsize
  | enobufs
  | enomem
  | other (n : Nat)
  deriving DecidableEq

/-- What the kernel does with one `send` or `recv`. -/
inductive Answer
  /-- It moves at most `n + 1` of the bytes it may move. -/
  | moved (n : Nat)
  /-- It returns 0. -/
  | closed
  | failed (e : Errno)
  deriving DecidableEq

/-- `LUNA_PROCESS_MESSAGE_MAX`. -/
def messageMax : Nat := 1024 * 1024

/-- `QUEUE_MAX`. -/
def queueMax : Nat := 8 * messageMax

/-- The four bytes `LSP1`. -/
def magic : List UInt8 := [0x4c, 0x53, 0x50, 0x31]

def put32 (v : Nat) : List UInt8 := (List.range 4).map fun i => UInt8.ofNat (v >>> (i * 8))

def get32 (p : List UInt8) : Nat :=
  (p.getD 0 0).toNat ||| (p.getD 1 0).toNat <<< 8 ||| (p.getD 2 0).toNat <<< 16 ||| (p.getD 3 0).toNat <<< 24

/-- `struct packet`; `next` is the place in the queue. -/
structure Packet where
  size : Nat
  offset : Nat
  bytes : List UInt8
  deriving DecidableEq

/-- `struct luna_process_channel`, with the packets from `head` to `tail`; an `error` of 0 is `none`. -/
structure Channel where
  error : Option Errno
  packets : List Packet
  queued : Nat
  header : List UInt8
  headerSize : Nat
  received : Nat
  incoming : Option Packet
  deriving DecidableEq

namespace Channel

/-- What `luna_process_channel_open` makes of a socket. -/
def new : Channel := ⟨none, [], 0, List.replicate 8 0, 0, 0, none⟩

/-- `if(rc)c->error=-rc;` -/
def record (c : Channel) : Option Errno → Channel
  | none => c
  | some e => { c with error := some e }

/-! ### Sending -/

/-- `flush`, with the bytes the socket took. Where the answers end, it would block. -/
def flush (c : Channel) : List Answer → Channel × List UInt8 × Option Errno
  | [] => (c, [], none)
  | a :: answers =>
    match c.packets with
    | [] => (c, [], none)
    | p :: rest =>
      match a with
      | .failed .eintr => flush c answers
      | .failed .eagain => (c, [], none)
      | .failed e => (c, [], some e)
      | .closed => (c, [], some .epipe)
      | .moved k =>
        let n := min (k + 1) (p.size - p.offset)
        if n = 0 then (c, [], some .epipe)
        else
          let p' := { p with offset := p.offset + n }
          let packets := if p'.offset = p'.size then rest else p' :: rest
          let (c', out, rc) := flush { c with packets := packets, queued := c.queued - n } answers
          (c', (p.bytes.drop p.offset).take n ++ out, rc)

/-- The checks of `luna_process_channel_send` before it queues a packet. -/
def refusal (c : Channel) (size : Nat) (malloc : Bool) : Option Errno :=
  if messageMax < size then some .emsgsize
  else match c.error with
    | some e => some e
    | none => if queueMax < c.queued + size + 8 then some .enobufs else if malloc then none else some .enomem

def packet (data : Message) : Packet := ⟨data.length + 8, 0, magic ++ put32 data.length ++ data⟩

/-- `luna_process_channel_send`, with the bytes the socket took. -/
def send (c : Channel) (data : Message) (malloc : Bool) (answers : List Answer) : Channel × List UInt8 × Option Errno :=
  match c.refusal data.length malloc with
  | some e => (c, [], some e)
  | none =>
    let p := packet data
    let (c', out, rc) := flush { c with packets := c.packets ++ [p], queued := c.queued + p.size } answers
    (c'.record rc, out, rc)

/-! ### Receiving -/

/-- What one round of the loop in `luna_process_channel_tick` finds to do. -/
inductive Turn
  | stop (e : Errno)
  | deliver (c : Channel) (m : Message)
  | read (c : Channel) (left : Nat)

/-- The packet under construction, which is made when the header is complete. Its bytes are what `malloc` left there. -/
def open' (c : Channel) (alloc : Option (Nat → UInt8)) : Except Errno (Channel × Packet) :=
  match c.incoming with
  | some p => .ok (c, p)
  | none =>
    let size := get32 (c.header.drop 4)
    if c.header.take 4 ≠ magic ∨ messageMax < size then .error .eproto
    else match alloc with
      | none => .error .enomem
      | some junk =>
        let p : Packet := ⟨size, 0, (List.range size).map junk⟩
        .ok ({ c with incoming := some p, received := 0 }, p)

def turn (c : Channel) (alloc : Option (Nat → UInt8)) : Turn :=
  if c.headerSize < 8 then .read c (8 - c.headerSize)
  else match c.open' alloc with
    | .error e => .stop e
    | .ok (c, p) =>
      if p.size - c.received = 0 then .deliver { c with incoming := none, headerSize := 0 } p.bytes
      else .read c (p.size - c.received)

/-- The bytes of one `recv` go to the header or to the payload. -/
def store (c : Channel) (piece : List UInt8) : Channel :=
  if c.headerSize < 8 then
    { c with header := fill c.header c.headerSize piece, headerSize := c.headerSize + piece.length }
  else
    { c with incoming := c.incoming.map fun p => { p with bytes := fill p.bytes c.received piece },
             received := c.received + piece.length }

/-- The loop of `luna_process_channel_tick`, over what is in flight and the messages it has collected. Where the answers
    end, it would block; every round uses an answer or completes one of at most 32 messages. -/
def tickLoop (alloc : Nat → Option (Nat → UInt8)) :
    Nat → Channel → List UInt8 → List Answer → List Message → Channel × List UInt8 × List Message × Option Errno
  | 0, c, wire, _, got => (c, wire, got, none)
  | fuel + 1, c, wire, answers, got =>
    if 32 ≤ got.length then (c, wire, got, none)
    else match c.turn (alloc got.length) with
      | .stop e => (c, wire, got, some e)
      | .deliver c m => tickLoop alloc fuel c wire answers (got ++ [m])
      | .read c left =>
        match answers with
        | [] => (c, wire, got, none)
        | .failed .eintr :: answers => tickLoop alloc fuel c wire answers got
        | .failed .eagain :: _ => (c, wire, got, none)
        | .failed e :: _ => (c, wire, got, some e)
        | .closed :: _ =>
          (c, wire, got, some (if c.headerSize ≠ 0 ∨ c.incoming.isSome then .eproto else .epipe))
        | .moved k :: answers =>
          -- nothing in flight is would-block, whatever the kernel could have moved
          if wire = [] then (c, wire, got, none)
          else
            let n := min (k + 1) (min left wire.length)
            tickLoop alloc fuel (c.store (wire.take n)) (wire.drop n) answers got

/-- What a tick did: the channel, the bytes it sent, what is left in flight towards it, the messages it passed to the
    callback and its result. -/
structure Ticked where
  chan : Channel
  out : List UInt8
  wire : List UInt8
  messages : List Message
  result : Except Errno Nat

/-- `luna_process_channel_tick`. -/
def tick (c : Channel) (wire : List UInt8) (alloc : Nat → Option (Nat → UInt8)) (sends recvs : List Answer) : Ticked :=
  match c.error with
  | some e => ⟨c, [], wire, [], .error e⟩
  | none =>
    match c.flush sends with
    | (c, out, some e) => ⟨c.record (some e), out, wire, [], .error e⟩
    | (c, out, none) =>
      let (c, wire, got, rc) := tickLoop alloc (recvs.length + 33) c wire recvs []
      ⟨c.record rc, out, wire, got, match rc with | some e => .error e | none => .ok got.length⟩

end Channel

/-! ### Two ends of a socket pair -/

inductive Side
  | left
  | right
  deriving DecidableEq

def Side.peer : Side → Side
  | .left => .right
  | .right => .left

@[simp] theorem Side.peer_peer (s : Side) : s.peer.peer = s := by cases s <;> rfl

@[simp] theorem Side.peer_ne (s : Side) : s.peer ≠ s := by cases s <;> decide

/-- The two channels, the bytes each side has put on the socket and the peer has not read, and what was said: the messages
    each side queued, those of them whose send returned 0, and the messages passed to its callback. -/
structure Pair where
  chan : Side → Channel
  wire : Side → List UInt8
  posted : Side → List Message
  accepted : Side → List Message
  passed : Side → List Message

def Pair.new : Pair := ⟨fun _ => .new, fun _ => [], fun _ => [], fun _ => [], fun _ => []⟩

/-- A call on one side, with the answers of the system during it. -/
inductive Call
  | send (s : Side) (data : Message) (malloc : Bool) (answers : List Answer)
  | tick (s : Side) (alloc : Nat → Option (Nat → UInt8)) (sends recvs : List Answer)

def Pair.step (w : Pair) : Call → Pair
  | .send s data malloc answers =>
    let (c, out, rc) := (w.chan s).send data malloc answers
    { chan := update w.chan s c
      wire := update w.wire s (w.wire s ++ out)
      posted := if (w.chan s).refusal data.length malloc = none then update w.posted s (w.posted s ++ [data])
        else w.posted
      accepted := if rc = none then update w.accepted s (w.accepted s ++ [data]) else w.accepted
      passed := w.passed }
  | .tick s alloc sends recvs =>
    let t := (w.chan s).tick (w.wire s.peer) alloc sends recvs
    { chan := update w.chan s t.chan
      wire := update (update w.wire s.peer t.wire) s (w.wire s ++ t.out)
      posted := w.posted
      accepted := w.accepted
      passed := update w.passed s (w.passed s ++ t.messages) }

def Pair.run (calls : List Call) : Pair := calls.foldl Pair.step .new

end Lunaria.Ipc
