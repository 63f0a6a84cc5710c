import Std.Data.TreeMap
import Rexx.Text.Basic

/-!
# `Channel` — requests that wait for the host

A script that reaches a checkpoint posts a request on a channel and waits. The host takes requests in the order in
which they were posted and answers each by its number.
-/

namespace Rexx

abbrev Params := List (Text × Text)

structure Checkpoint where
  operation : Text
  params : Params
  timeout : Nat
deriving DecidableEq, Repr

structure Request where
  id : UInt32
  operation : Text
  params : Params
deriving DecidableEq, Repr

structure Response where
  id : UInt32
  done : Bool
  result : Text
  error : Text
  status : Int
deriving DecidableEq, Repr

structure Waiting where
  owner : Nat
  deadline : Option Nat
deriving DecidableEq, Repr

structure Channel where
  nextId : UInt32
  waiting : Std.TreeMap UInt32 Waiting
  outgoing : List Request

namespace Channel

def empty : Channel := ⟨1, ∅, []⟩

/-- The first of the `n` numbers from `id` on that is neither zero nor outstanding. -/
def freeId? (waiting : Std.TreeMap UInt32 Waiting) : Nat → UInt32 → Option UInt32
  | 0, _ => none
  | n + 1, id => if id = 0 || waiting.contains id then freeId? waiting n (id + 1) else some id

/-- When a request posted at `now` is overdue: after its own time if it has one, and otherwise after the time that is
given for all; never if both are zero. -/
def deadlineFor (now : Nat) (own general : Nat) : Option Nat :=
  let ms := if own = 0 then general else own
  if ms = 0 then none else some (now + ms)

def issue (ch : Channel) (id : UInt32) (owner now general : Nat) (c : Checkpoint) : Channel :=
  { nextId := id + 1
    waiting := ch.waiting.insert id ⟨owner, deadlineFor now c.timeout general⟩
    outgoing := ch.outgoing ++ [⟨id, c.operation, c.params⟩] }

/-- Posts a request for an interpreter; none if every number is outstanding. -/
def post? (ch : Channel) (owner now general : Nat) (c : Checkpoint) : Option (UInt32 × Channel) :=
  (freeId? ch.waiting (ch.waiting.size + 2) ch.nextId).map fun id => (id, ch.issue id owner now general c)

def take (ch : Channel) : Option Request × Channel :=
  match ch.outgoing with
  | [] => (none, ch)
  | r :: rs => (some r, { ch with outgoing := rs })

/-- Takes a request off the channel, whether the host has taken it or not. -/
def withdraw (ch : Channel) (id : UInt32) : Bool × Channel :=
  if ch.waiting.contains id then
    (true, { ch with waiting := ch.waiting.erase id, outgoing := ch.outgoing.eraseP fun r => r.id == id })
  else (false, ch)

def forget (ch : Channel) (owner : Nat) : Channel :=
  let mine := ch.waiting.toList.filter fun (_, w) => w.owner == owner
  mine.foldl (fun ch (id, _) => (ch.withdraw id).2) ch

/-- The interpreter that waits for the answer to a request. -/
def owner? (ch : Channel) (id : UInt32) : Option Nat := ch.waiting[id]?.map Waiting.owner

def overdue (ch : Channel) (now : Nat) : List UInt32 :=
  ch.waiting.toList.filterMap fun (id, w) => if w.deadline.any fun d => d ≤ now then some id else none

def outstanding (ch : Channel) : Nat := ch.waiting.size

end Channel

def Response.cancelled (id : UInt32) (why : Text) : Response :=
  ⟨id, false, [], "checkpoint cancelled: " ++ why, -1⟩

end Rexx
