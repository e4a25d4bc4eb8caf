import Mathlib.Algebra.Group.Nat.Defs
import Mathlib.Data.List.FinRange

/-! The codec of `dvm_media.c`. A caller leases input buffers, queues them, takes output buffers and releases them. With
    libavcodec the decoding and the conversion of a picture are jobs of a thread of the codec; every section under its
    lock is a step, and so is what the thread does between two of them. Otherwise a packet is decoded in the call that
    queues it. The decoder itself is outside: for a packet, or a pull at the end of the stream, it gives nothing or one
    picture. Allocation failure, the format codes and the list of rendered frames are left out. -/

namespace Lunaria.Media

open Function

/-- `LM_IN_BUFS` and `LM_OUT_BUFS` are both 6. -/
abbrev Buf := Fin 6

abbrev Sink := Nat

/-- A decoded picture, with the epoch of the input that it was decoded from. -/
structure Picture where
  origin : Nat
deriving DecidableEq

/-- `struct lm_inbuf`; `p` says whether the buffer was allocated. -/
structure InBuf where
  p : Bool
  queued : Bool
  submitted : Bool
  decoding : Bool
deriving DecidableEq

/-- `struct lm_outbuf`; a `len` of 0 is no picture. `serial` numbers the pictures in the order in which they were stored. -/
structure OutBuf where
  picture : Option Picture
  eos : Bool
  busy : Bool
  ready : Bool
  rendering : Bool
  serial : Nat
deriving DecidableEq

inductive Job where
  | decode (idx : Buf) (size : Nat) (eos : Bool) (epoch : Nat)
  | render (idx : Buf) (sink : Sink) (epoch : Nat)
deriving DecidableEq

/-- Where the thread is: before its wait, outside the lock with one of its kinds of work, or after a conversion. In
    `decoding`, `current` says whether the epoch of the job was the codec's when the thread looked. -/
inductive Pc where
  | idle
  | flushing
  | pulling (epoch : Nat)
  | taken (idx : Buf) (size : Nat) (eos : Bool) (epoch : Nat)
  | decoding (idx : Buf) (eos : Bool) (epoch : Nat) (current : Bool)
  | converting (idx : Buf) (sink : Sink) (epoch : Nat)
  | committing (idx : Buf) (sink : Sink) (epoch : Nat)
  | converted (idx : Buf) (sink : Sink)
deriving DecidableEq

/-- A picture that was given to a sink: the epoch of the job, and that of the codec at this time. -/
structure Commit where
  sink : Sink
  picture : Option Picture
  epoch : Nat
  now : Nat
deriving DecidableEq

/-- `struct lm_codec`. `threaded` is a codec with `vctx`; `known` says whether the format is known. After these the history:
    the epochs of the packets the decoder was fed since it was flushed, how many pictures were stored and which were
    returned, the output buffers the caller holds, the references the jobs have on each sink, and what was committed. -/
structure Codec where
  threaded : Bool
  started : Bool
  inp : Buf → InBuf
  out : Buf → OutBuf
  jobs : List Job
  epoch : Nat
  flushDecoder : Bool
  draining : Bool
  drained : Bool
  pendingDecodes : Int
  gotEos : Bool
  sentEos : Bool
  announcedFormat : Bool
  known : Bool
  thOn : Bool
  pc : Pc
  fed : List Nat
  stored : Nat
  returned : List Nat
  held : Buf → Bool
  refs : Sink → Int
  commits : List Commit

namespace Codec

def new (threaded : Bool) : Codec where
  threaded := threaded
  started := false
  inp _ := ⟨false, false, false, false⟩
  out _ := ⟨none, false, false, false, false, 0⟩
  jobs := []
  epoch := 0
  flushDecoder := false
  draining := false
  drained := false
  pendingDecodes := 0
  gotEos := false
  sentEos := false
  announcedFormat := false
  known := false
  thOn := false
  pc := .idle
  fed := []
  stored := 0
  returned := []
  held _ := false
  refs _ := 0
  commits := []

def setIn (c : Codec) (i : Buf) (b : InBuf) : Codec := { c with inp := update c.inp i b }

def setOut (c : Codec) (i : Buf) (b : OutBuf) : Codec := { c with out := update c.out i b }

/-- A slot that holds nothing. -/
def free (o : OutBuf) : Bool := !o.busy && !o.ready

def freeOutbuf (c : Codec) : Option Buf := (List.finRange 6).find? fun i => free (c.out i)

/-- With all slots taken the picture is dropped. -/
def keepPicture (c : Codec) (p : Picture) : Codec :=
  match c.freeOutbuf with
  | none => c
  | some i =>
    { c.setOut i { c.out i with picture := some p, eos := false, ready := true, serial := c.stored } with
      known := true, stored := c.stored + 1 }

def Job.sink : Job → Option Sink
  | .decode .. => none
  | .render _ s _ => some s

def sinkRef (c : Codec) (sink : Option Sink) (n : Int) : Codec :=
  match sink with
  | none => c
  | some s => { c with refs := update c.refs s (c.refs s + n) }

/-- `codec_job_push`: the ring has 16 places. -/
def jobPush (c : Codec) (j : Job) : Option Codec :=
  if 16 ≤ c.jobs.length then none else some ({ c with jobs := c.jobs ++ [j] }.sinkRef (Job.sink j) 1)

/-- `codec_thread_ensure`; `created` is what `pthread_create` would answer. -/
def threadEnsure (c : Codec) (created : Bool) : Bool × Codec :=
  if c.thOn then (true, c) else (created, { c with thOn := created })

/-- An output buffer is given back. -/
def freeSlot (c : Codec) (i : Buf) : Codec := c.setOut i { c.out i with busy := false, ready := false }

/-! ### The calls -/

/-- `codec_flush_locked`. -/
def flush (c : Codec) : Codec :=
  let inflight := (List.finRange 6).countP fun i => (c.inp i).decoding
  let c := { c with
    inp := fun i => if (c.inp i).decoding then c.inp i else { c.inp i with queued := false }
    out := fun i => if (c.out i).rendering then c.out i else { c.out i with busy := false, ready := false }
    gotEos := false
    sentEos := false
    held := fun _ => false }
  if c.threaded then
    let c := c.jobs.foldl (fun c j => c.sinkRef (Job.sink j) (-1)) c
    { c with
      pendingDecodes := inflight
      epoch := (c.epoch + 1) % 2 ^ 32
      jobs := []
      flushDecoder := true
      draining := false
      drained := false }
  else c

def freeCount (c : Codec) : Int := (List.finRange 6).countP fun i => free (c.out i)

/-- The buffers that the caller has and did not queue. -/
def leases (c : Codec) : Int := (List.finRange 6).countP fun i => (c.inp i).queued && !(c.inp i).submitted

/-- The first input buffer that is not queued goes to the caller. -/
def leaseInput (c : Codec) : Codec :=
  match (List.finRange 6).find? fun i => !(c.inp i).queued with
  | none => c
  | some i => c.setIn i { c.inp i with p := true, queued := true, submitted := false }

/-- `lm_codec_dequeue_input`. Without a thread the count of the free slots only has to differ from that of the input
    buffers in use. -/
def dequeueInput (c : Codec) : Codec :=
  if !c.started then c
  else if c.threaded then if 0 < c.freeCount - c.pendingDecodes - c.leases then c.leaseInput else c
  else if c.freeCount - (List.finRange 6).countP (fun i => (c.inp i).queued) = 0 then c
  else c.leaseInput

/-- `LM_IN_CAP`. -/
def inCap : Nat := 1048576

/-- `lm_codec_queue_input`; `created` answers for the thread, and `got` is what the decoder gives at once where there is
    none. -/
def queueInput (c : Codec) (idx : Buf) (offset size : Nat) (eos created : Bool) (got : Option Picture) : Codec :=
  if !(c.inp idx).p ∨ inCap < offset + size then c
  else if c.threaded then
    let c := { c.setIn idx { c.inp idx with submitted := true } with gotEos := c.gotEos || eos }
    let unqueued (c : Codec) : Codec := c.setIn idx { c.inp idx with queued := false }
    if 0 < size ∨ eos then
      match c.threadEnsure created with
      | (false, c) => unqueued c
      | (true, c) =>
        match c.jobPush (.decode idx size eos c.epoch) with
        | none => unqueued c
        | some c => { c with pendingDecodes := c.pendingDecodes + 1 }
    else unqueued c
  else
    let c := { c.setIn idx { c.inp idx with queued := false } with gotEos := c.gotEos || eos }
    match got with
    | some p => if 0 < size then c.keepPicture p else c
    | none => c

/-- `codec_dequeue_output_locked`. -/
def dequeueOutput (c : Codec) : Codec :=
  if !c.started then c
  else if c.known ∧ !c.announcedFormat then { c with announcedFormat := true }
  else
    match (List.finRange 6).find? fun i => (c.out i).ready && !(c.out i).busy with
    | some i =>
      { c.setOut i { c.out i with busy := true, ready := false } with
        returned := c.returned ++ [(c.out i).serial], held := update c.held i true }
    | none =>
      if c.threaded ∧ c.gotEos ∧ (c.pendingDecodes ≠ 0 ∨ !c.drained) then c
      else if c.gotEos ∧ !c.sentEos then
        match (List.finRange 6).find? fun i => !(c.out i).busy with
        | some i =>
          { c.setOut i { c.out i with busy := true, picture := none, eos := true } with
            sentEos := true, held := update c.held i true }
        | none => c
      else c

/-- `codec_release_output`; `sink` is where the picture is rendered to, if it is, and `images` says that this is an
    `ImageReader`. -/
def releaseOutput (c : Codec) (idx : Buf) (sink : Option Sink) (images created : Bool) : Codec :=
  let c := { c with held := update c.held idx false }
  if c.threaded then
    if !(c.out idx).busy then c
    else
      match sink with
      | none => c.freeSlot idx
      | some s =>
        match c.threadEnsure created with
        | (false, c) => c.freeSlot idx
        | (true, c) => (c.jobPush (.render idx s c.epoch)).getD (c.freeSlot idx)
  else if sink.isSome ∧ images then c.freeSlot idx
  else if !(c.out idx).busy then c
  else c.freeSlot idx

/-! ### The thread -/

/-- The thread leaves its wait. -/
def threadTake (c : Codec) : Option Codec :=
  if c.pc ≠ .idle ∨ !c.thOn then none
  else if c.flushDecoder then some { c with flushDecoder := false, pc := .flushing }
  else
    match c.jobs with
    | [] => if c.draining ∧ !c.drained ∧ c.freeOutbuf.isSome then some { c with pc := .pulling c.epoch } else none
    | .decode idx size eos epoch :: rest =>
      some { c.setIn idx { c.inp idx with decoding := true } with jobs := rest, pc := .taken idx size eos epoch }
    | .render idx sink epoch :: rest =>
      let c := { c with jobs := rest }
      if epoch = c.epoch ∧ (c.out idx).picture.isSome then
        some { c.setOut idx { c.out idx with rendering := true } with pc := .converting idx sink epoch }
      else some ((c.freeSlot idx).sinkRef (some sink) (-1))

/-- What the thread meets outside the lock: what the decoder gives and whether the picture has a format that can be kept,
    and how a commit ends: done, refused, or to be tried again. -/
inductive Outside where
  | nothing
  | decoded (got : Option Picture) (keepable : Bool)
  | begun (rgba : Bool)
  | committed
  | refused
  | again

/-- The packets the decoder was fed, after a decode job whose epoch was the codec's or not. -/
def fedWith (c : Codec) (epoch : Nat) (current : Bool) : List Nat := if current then epoch :: c.fed else c.fed

/-- A picture goes to a slot if it belongs to the codec's epoch and can be kept. -/
def keepFrame (c : Codec) (epoch : Nat) (got : Option Picture) (keepable : Bool) : Codec :=
  match got with
  | some p => if epoch = c.epoch ∧ keepable then c.keepPicture p else c
  | none => c

/-- A pull past the end of the stream is over. -/
def finishPull (c : Codec) (epoch : Nat) (got : Option Picture) (keepable : Bool) : Codec :=
  let c := { c with pc := .idle }
  if epoch ≠ c.epoch then c
  else if got.isSome ∧ keepable then c.keepFrame epoch got keepable
  else { c with drained := true }

/-- A decode job is over. -/
def finishDecode (c : Codec) (idx : Buf) (eos : Bool) (epoch : Nat) (current : Bool) (got : Option Picture)
    (keepable : Bool) : Codec :=
  let pending := if 0 < c.pendingDecodes then c.pendingDecodes - 1 else c.pendingDecodes
  let c := { c.setIn idx { c.inp idx with decoding := false, queued := false } with
    fed := c.fedWith epoch current, pc := .idle, pendingDecodes := pending }
  let c := c.keepFrame epoch got keepable
  { c with draining := c.draining || (eos && epoch = c.epoch) }

/-- A render job is over. -/
def finishRender (c : Codec) (idx : Buf) (sink : Sink) : Codec :=
  let c := { c.setOut idx { c.out idx with rendering := false, busy := false, ready := false } with pc := .idle }
  c.sinkRef (some sink) (-1)

/-- The step of the thread after it left the lock. A picture comes from a packet that was fed since the decoder was flushed. -/
def threadStep (c : Codec) (o : Outside) : Option Codec :=
  match c.pc, o with
  | .flushing, .nothing => some { c with fed := [], pc := .idle }
  | .pulling epoch, .decoded got keepable =>
    if got.all fun p => p.origin ∈ c.fed then some (c.finishPull epoch got keepable) else none
  | .taken idx _ eos epoch, .nothing => some { c with pc := .decoding idx eos epoch (epoch = c.epoch) }
  | .decoding idx eos epoch current, .decoded got keepable =>
    if (current ∨ got = none) ∧ got.all fun p => p.origin ∈ c.fedWith epoch current then
      some (c.finishDecode idx eos epoch current got keepable)
    else none
  | .converting idx sink epoch, .nothing =>
    -- the check of `codec_commit_sink`
    some { c with pc := if epoch = c.epoch then .committing idx sink epoch else .converted idx sink }
  | .converting idx sink _, .begun false => some { c with pc := .converted idx sink }
  | .committing idx sink epoch, .committed =>
    some { c with
      pc := .converted idx sink, commits := c.commits ++ [⟨sink, (c.out idx).picture, epoch, c.epoch⟩] }
  | .committing idx sink _, .refused => some { c with pc := .converted idx sink }
  | .committing idx sink epoch, .again => some { c with pc := .converting idx sink epoch }
  | .converted idx sink, .nothing => some (c.finishRender idx sink)
  | _, _ => none

/-- What `lm_codec_free` does with the jobs, once the thread has ended. -/
def release (c : Codec) : Codec :=
    { c.jobs.foldl (fun c j => c.sinkRef (Job.sink j) (-1)) c with jobs := [], thOn := false }

inductive Act where
  | start
  | csd (got : Option Picture)
  | stop
  | flush
  | dequeueInput
  | queueInput (idx : Buf) (offset size : Nat) (eos created : Bool) (got : Option Picture)
  | dequeueOutput
  | releaseOutput (idx : Buf) (sink : Option Sink) (images created : Bool)
  | take
  | outside (o : Outside)

/-- One step of the caller or the thread. The parameter sets that `lm_codec_start` feeds where there is no thread are steps
    `csd`. -/
def step (c : Codec) : Act → Option Codec
  | .start => some { c with started := true }
  | .csd got =>
    if c.threaded then none
    else
      match got with
      | some p => some (c.keepPicture p)
      | none => some c
  | .stop => some { c with started := false }.flush
  | .flush => some c.flush
  | .dequeueInput => some c.dequeueInput
  | .queueInput idx offset size eos created got => some (c.queueInput idx offset size eos created got)
  | .dequeueOutput => some c.dequeueOutput
  | .releaseOutput idx sink images created => some (c.releaseOutput idx sink images created)
  | .take => if c.threaded then c.threadTake else none
  | .outside o => if c.threaded then c.threadStep o else none

end Codec

end Lunaria.Media
