import Chaconne.Stream.Spec
import Chaconne.CLib.Refine

/-!
# The stream is a byte FIFO

The specification a stream implements is a queue of bytes (`queueStep`): a put
appends its bytes at the back when its nodes can be allocated, and consume,
get and flush remove bytes from the front. The environment decides how many
`malloc` calls succeed and what `writev` returns; each call is shown to the
specification as the event it is (`streamEvent`), with whether the put's
nodes fit in the `malloc` calls that succeed. Every call keeps `StreamInv` and
moves the queue as its event does (`streamStep_spec`), so by the labelled
simulation rule of `CLib` the queue of any run from `stream_new` is the queue
of its events (`stream_run`).

The specification covers byte strings shorter than `2^64 - 4096`, for which the
node count of `stream_put` is exact, and counts that `stream_get`,
`stream_iovec` and `stream_flush` can return in an `int` (`StreamOp.Admitted`);
`stream_counts_wrap` shows each of these bounds is needed.
-/

namespace Chaconne

open CLib

/-- A call on a stream, with what its environment decides: the number of
`malloc` calls that succeed for a put, and for a flush whether the `malloc` of
`stream_iovec` succeeds and the result of `writev` (`none` for `-1`). -/
inductive StreamOp
  | put (avail : Nat) (data : List UInt8)
  | putc (avail : Nat) (c : Int)
  | putstrn (avail : Nat) (str : List UInt8) (n : Nat)
  | consume (c : Nat)
  | get (c : Nat)
  | flush (ok : Bool) (written : Option Nat)

/-- One call on a stream. -/
def streamStep (s : Stream) : StreamOp → Stream
  | .put avail data => (streamPut s avail data).2
  | .putc avail c => (streamPutc s avail c).2
  | .putstrn avail str n => (streamPutstrn s avail str n).2
  | .consume c => streamConsume s c
  | .get c => (streamGet s c).2.2
  | .flush ok written => (streamFlush s ok written).2

/-- The calls the specification covers, in the stream they are made on. -/
def StreamOp.Admitted (s : Stream) : StreamOp → Prop
  | .put _ data => data.length < 2 ^ 64 - 4096
  | .putc _ _ => True
  | .putstrn _ str n => (str.take n).length < 2 ^ 64 - 4096
  | .consume _ => True
  | .get c => min c s.queue.length < 2 ^ 31
  | .flush _ none => True
  | .flush _ (some n) => n < 2 ^ 31 ∧ s.nodes.length < 2 ^ 31

instance (s : Stream) : DecidablePred (StreamOp.Admitted s) := fun op => by
  cases op with
  | flush ok written => cases written <;> unfold StreamOp.Admitted <;> infer_instance
  | _ => unfold StreamOp.Admitted; infer_instance

/-! ## The specification -/

/-- What a call does to the byte queue: a put of `data`, made when its nodes
`fit` in the `malloc` calls that succeed, or a read from the front. -/
inductive StreamEvent
  | put (data : List UInt8) (fits : Bool)
  | consume (c : Nat)
  | get (c : Nat)
  | flush (ok : Bool) (written : Option Nat)
  deriving DecidableEq

/-- **The byte FIFO.** A put appends all its bytes or none; consume and get
drop the first `c` bytes; a flush drops the bytes `writev` wrote, and nothing
when the `malloc` or the `writev` fails. -/
def queueStep (q : List UInt8) : StreamEvent → List UInt8
  | .put data fits => if fits then q ++ data else q
  | .consume c => q.drop c
  | .get c => q.drop c
  | .flush true (some n) => q.drop n
  | .flush _ _ => q

/-- The event a call is, in the stream it is made on: a put's nodes fit when
no more are needed than `malloc` calls succeed. -/
def streamEvent (s : Stream) : StreamOp → StreamEvent
  | .put avail data => .put data (putNodesNeeded s data ≤ avail)
  | .putc avail c =>
    .put [UInt8.ofNat (c % 256).toNat] (putNodesNeeded s [UInt8.ofNat (c % 256).toNat] ≤ avail)
  | .putstrn avail str n => .put (str.take n) (putNodesNeeded s (str.take n) ≤ avail)
  | .consume c => .consume c
  | .get c => .get c
  | .flush ok written => .flush ok written

/-- The events of a run. -/
def streamEvents : Stream → List StreamOp → List StreamEvent :=
  runLabels streamStep streamEvent

/-! ## Step and run -/

/-- A put moves the queue as its event does. -/
theorem streamPut_queue {s : Stream} (hs : StreamInv s) (avail : Nat) {data : List UInt8}
    (hlen : data.length < 2 ^ 64 - 4096) :
    StreamInv (streamPut s avail data).2 ∧
      (streamPut s avail data).2.queue =
        queueStep s.queue (.put data (putNodesNeeded s data ≤ avail)) := by
  obtain ⟨hinv, hfail, hok⟩ := streamPut_spec hs avail hlen
  refine ⟨hinv, ?_⟩
  by_cases hfit : putNodesNeeded s data ≤ avail
  · rw [queueStep, decide_eq_true hfit, if_pos rfl]
    exact (hok hfit).2
  · rw [queueStep, decide_eq_false hfit, if_neg Bool.false_ne_true, hfail (by omega)]

/-- **Step lemma.** An admitted call keeps the invariant and moves the queue as
its event does. -/
theorem streamStep_spec {s : Stream} (hs : StreamInv s) {op : StreamOp} (hop : op.Admitted s) :
    StreamInv (streamStep s op) ∧
      (streamStep s op).queue = queueStep s.queue (streamEvent s op) := by
  cases op with
  | put avail data => exact streamPut_queue hs avail hop
  | putc avail c => exact streamPut_queue hs avail (by simp)
  | putstrn avail str n => exact streamPut_queue hs avail hop
  | consume c => exact streamConsume_spec hs c
  | get c =>
    obtain ⟨_, _, hinv, hq⟩ := streamGet_of_lt hs hop
    exact ⟨hinv, hq⟩
  | flush ok written =>
    refine ⟨streamFlush_inv hs ok written, ?_⟩
    -- only a flush with its `malloc` and `writev` done consumes
    match ok, written, hop with
    | true, some _, hop => exact (streamFlush_spec hs hop.1 hop.2).1
    | true, none, _ => exact congrArg Stream.queue (streamFlush_fail s true none (.inr rfl))
    | false, w, _ => exact congrArg Stream.queue (streamFlush_fail s false w (.inl rfl))

/-- **Run lemma.** From `stream_new`, along admitted calls, the invariant holds
and the queue is the FIFO's queue after the run's events. -/
theorem stream_run (ops : List StreamOp)
    (hops : RunAdmitted streamStep StreamOp.Admitted streamNew ops) :
    StreamInv (ops.foldl streamStep streamNew) ∧
      (ops.foldl streamStep streamNew).queue = (streamEvents streamNew ops).foldl queueStep [] :=
  foldl_simulation_labelled (fun _ _ hop hs => (streamStep_spec hs hop).1)
    (fun _ _ hop hs => (streamStep_spec hs hop).2) ops streamNew hops streamNew_inv

end Chaconne
