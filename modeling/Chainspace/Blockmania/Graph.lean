/-
  Chainspace.Blockmania.Graph — the interpreter of `blockmania/graph.go`.

  `process` clones the state of the previous block, fires the view timeouts that are due, and feeds
  the outputs of the referenced blocks through `processMessage`. A block's messages are the `out`
  list of its state.

  Conventions:
    • `log.Fatal` and run-time panics end the process: the functions return `Except Halt`.
    • The callback is the list `cb` of its invocations, oldest first.
    • `graph.round` does not wrap: it goes up by one with every round delivered, so it stays below
      2^64 - 1 unless `LastInterpreted` starts there.
    • `process` also returns the log of its `processMessage` calls, which the code prints.
-/
import Chainspace.Blockmania.State
import Mathlib.Data.List.Sort

namespace Chainspace.Blockmania

open Chainspace.Lib

/-! ## §1. Data. -/

/-- The ways the process can end inside the graph. -/
inductive Halt where
  /-- A Go run-time panic: index out of range. -/
  | indexOutOfRange
  /-- `log.Fatal` in `deliver`. -/
  | mismatchingHash (node round : Nat)
  /-- `log.Fatal` in the `ViewChange` case of `processMessage`. -/
  | multipleHashes (node round : Nat)
  deriving DecidableEq, Repr

def Halt.text : Halt → String
  | indexOutOfRange => "runtime error: index out of range"
  | mismatchingHash _ _ => "Mismatching block hash for delivery"
  | multipleHashes _ _ => "Got multiple hashes in a view change"

/-- A block to interpret. -/
structure Entry where
  block : BlockID
  deps : List BlockID
  prev : BlockID
  deriving DecidableEq, Repr

/-- An own block together with the highest round it can mention. -/
structure BlockInfo where
  data : BlockGraph
  max : Nat
  deriving DecidableEq, Repr

/-- The fields of `Graph` set once by `New`, and the growth of Go's slices. -/
structure Params where
  nodeCount : Nat
  nodes : List Nat
  quorum2f : Nat
  quorum2f1 : Nat
  grow : Nat → Nat

/-- The fields of `Graph` that change, and the heap. -/
structure Graph where
  params : Params
  blocks : List BlockInfo
  cb : List Interpreted
  max : PMap BlockID Nat
  resolved : AList (fun _ : Nat => AList (fun _ : Nat => Hash))
  round : Nat
  statess : PMap BlockID State
  heap : Heap

/-- `New`: the quorum sizes come from the number of nodes. -/
def new (nodes : List Nat) (lastInterpreted : Nat) (grow : Nat → Nat) : Graph :=
  let f := (nodes.length - 1) / 3
  { params :=
      { nodeCount := nodes.length
        nodes := nodes
        quorum2f := 2 * f
        quorum2f1 := 2 * f + 1
        grow := grow }
    blocks := []
    cb := []
    max := .empty
    resolved := ∅
    round := lastInterpreted + 1
    statess := .empty
    heap := .empty }

/-! ## §2. Delivery. -/

/-- The blocks of a completed round, one for each node that decided on one, in order of their
hashes. -/
def decidedBlocks (round : Nat) (hashes : AList (fun _ : Nat => Hash)) : List BlockID :=
  ((hashes.entries.filter (fun e => e.2 ≠ [])).map
    (fun e => (⟨e.2, e.1, round⟩ : BlockID))).insertionSort (fun a b => a.hash ≤ b.hash)

/-- The own blocks that a delivery of `round` consumes: the longest run at the front that mentions
no later round. -/
def consumedBlocks (blocks : List BlockInfo) (round : Nat) : List BlockInfo :=
  blocks.takeWhile (fun info => info.max ≤ round)

/-- The identifiers whose states a consumed own block lets go. -/
def BlockInfo.covered (info : BlockInfo) : List BlockID :=
  info.data.block :: info.data.deps.map Dep.block

/-- The identifiers that a delivery of `round` deletes from the maps. -/
def goneBlocks (blocks : List BlockInfo) (round : Nat) : List BlockID :=
  (consumedBlocks blocks round).flatMap BlockInfo.covered

def Graph.purge (g : Graph) (round : Nat) : Graph :=
  { g with
    max := g.max.restrict (fun b => b ∉ goneBlocks g.blocks round)
    statess := g.statess.restrict (fun b => b ∉ goneBlocks g.blocks round)
    blocks := g.blocks.drop (consumedBlocks g.blocks round).length }

/-- The argument of the callback; `first` is `graph.blocks[0]`. -/
def Graph.report (g : Graph) (first : BlockInfo) (round : Nat)
    (hashes : AList (fun _ : Nat => Hash)) : Interpreted where
  blocks := decidedBlocks round hashes
  consumed := first.data.block.round - 1 + (consumedBlocks g.blocks round).length
  round := round

/-- A delivered round: forget it and what it consumed, and call back. -/
def Graph.finishRound (g : Graph) (round : Nat) (data : Interpreted) : Graph :=
  let g := { g with resolved := g.resolved.erase round }.purge round
  { g with round := g.round + 1, cb := g.cb ++ [data] }

/-- `deliverRound`: report a completed round, forget what it consumed, and go on if the next one is
complete. `graph.blocks[0]` panics on an empty list. Each round takes an entry of `resolved`, so
`fuel` is their number. -/
def deliverRound (fuel : Nat) (g : Graph) (round : Nat) (hashes : AList (fun _ : Nat => Hash)) :
    Except Halt Graph :=
  match fuel with
  | 0 => .ok g
  | fuel + 1 =>
    match g.blocks with
    | [] => .error .indexOutOfRange
    | info :: _ =>
      let g := g.finishRound round (g.report info round hashes)
      match g.resolved.lookup (round + 1) with
      | none => .ok g
      | some hashes =>
        if hashes.entries.length = g.params.nodeCount then
          deliverRound fuel g (round + 1) hashes
        else .ok g

def noteHash (hashes : AList (fun _ : Nat => Hash)) (node : Nat) (hash : Hash) :
    AList (fun _ : Nat => Hash) :=
  if (hashes.lookup node).isSome then hashes else hashes.insert node hash

/-- `deliver`: record a decision, and deliver the round once every node has one. -/
def deliver (g : Graph) (node round : Nat) (hash : Hash) : Except Halt Graph :=
  if round < g.round then .ok g
  else
    let hashes := (g.resolved.lookup round).getD ∅
    if (hashes.lookup node).any (fun cur => cur ≠ hash) then .error (.mismatchingHash node round)
    else
      let hashes := noteHash hashes node hash
      let g := { g with resolved := g.resolved.insert round hashes }
      if round ≠ g.round then .ok g
      else if hashes.entries.length = g.params.nodeCount then
        deliverRound g.resolved.entries.length g round hashes
      else .ok g

/-! ## §3. `processMessage`, one function for each case of its switch. -/

/-- What one call of `processMessage` does to the state, and whether it decides a block. -/
structure Reaction where
  heap : Heap
  state : State
  resp : Option Message
  decided : Option Hash

def Reaction.quiet (h : Heap) (s : State) : Reaction := ⟨h, s, none, none⟩

/-- A slice access: `none` is an index out of range. -/
def index {α : Type} (x : Option α) : Except Halt α :=
  match x with
  | some a => .ok a
  | none => .error .indexOutOfRange

def onPrePrepare (p : Params) (h : Heap) (s : State) (v sender receiver : Nat)
    (m : PrePrepare) : Except Halt Reaction :=
  if v ≠ m.view then .ok (.quiet h s)
  else
    let pp : NodeRoundView := ⟨m.node, m.round, m.view⟩
    if (s.data.prePrepared pp).isSome then .ok (.quiet h s)
    else do
      let b ← index ((s.getBitset p.nodeCount m).setPrepare sender)
      let b ← index (b.setPrepare receiver)
      let s := s.putBitset m b
      let s := { s with data := { s.data with prePrepared := s.data.prePrepared.set pp m } }
      .ok ⟨h, s, some (.prepare ⟨m.hash, m.node, m.round, receiver, m.view⟩), none⟩

/-- Record the hash prepared in a view, unless the view has one. -/
def State.notePrepared (s : State) (key : NodeRoundView) (hash : Hash) : State :=
  if (s.data.prepared key).isSome then s
  else { s with data := { s.data with prepared := s.data.prepared.set key hash } }

def onPrepare (p : Params) (h : Heap) (s : State) (v receiver : Nat) (m : Prepare) :
    Except Halt Reaction :=
  if v > m.view then .ok (.quiet h s)
  else do
    let b ← index ((s.getBitset p.nodeCount m.pre).setPrepare m.sender)
    let s := s.putBitset m.pre b
    if v < m.view then .ok (.quiet h s)
    else if b.prepareCount ≠ p.quorum2f1 then .ok (.quiet h s)
    else
      let has ← index (b.hasCommit receiver)
      if has then .ok (.quiet h s)
      else
        let b ← index (b.setCommit receiver)
        let s := s.putBitset m.pre b
        let s := s.notePrepared ⟨m.node, m.round, m.view⟩ m.hash
        .ok ⟨h, s, some (.commit ⟨m.hash, m.node, m.round, receiver, m.view⟩), none⟩

def onCommit (p : Params) (h : Heap) (s : State) (v : Nat) (m : Commit) :
    Except Halt Reaction :=
  if v < m.view then .ok (.quiet h s)
  else do
    let b ← index ((s.getBitset p.nodeCount m.pre).setCommit m.sender)
    let s := s.putBitset m.pre b
    if b.commitCount ≠ p.quorum2f1 then .ok (.quiet h s)
    else
      let nr : NodeRound := ⟨m.node, m.round⟩
      if (s.final nr).isSome then .ok (.quiet h s)
      else .ok ⟨h, { s with final := s.final.set nr m.hash }, none, some m.hash⟩

/-- The non-empty hash among those reported for a new view. Two different ones end the process. -/
def newViewHash (node round : Nat) (acc : Hash) : List Hash → Except Halt Hash
  | [] => .ok acc
  | hval :: rest =>
    if hval ≠ [] then
      if acc ≠ [] ∧ hval ≠ acc then .error (.multipleHashes node round)
      else newViewHash node round hval rest
    else newViewHash node round acc rest

/-- The map object of a `ViewChanged` key; a missing one is created. -/
def vcObject (h : Heap) (s : State) (key : NodeRoundView) : Heap × State × Nat :=
  match s.data.viewChanged key with
  | some i => (h, s, i)
  | none =>
    ({ (h.setVcs key h.next ∅) with next := h.next + 1 },
      { s with data := { s.data with viewChanged := s.data.viewChanged.set key h.next } },
      h.next)

def onViewChange (p : Params) (h : Heap) (s : State) (v receiver : Nat) (m : ViewChange) :
    Except Halt Reaction :=
  if v > m.view then .ok (.quiet h s)
  else
    -- The votes are filed under the CURRENT view `v`, not under the view they ask for.
    let key : NodeRoundView := ⟨m.node, m.round, v⟩
    let (h, s, i) := vcObject h s key
    let vcs := (h.vcs key i).insert m.sender m.hash
    let h := h.setVcs key i vcs
    if vcs.entries.length ≠ p.quorum2f1 then .ok (.quiet h s)
    else do
      let s := s.putView ⟨m.node, m.round⟩ m.view
      let hash ← newViewHash m.node m.round [] (vcs.entries.map (·.2))
      .ok ⟨h, s, some (.newView ⟨hash, m.node, m.round, receiver, m.view⟩), none⟩

def addTimeout (grow : Nat → Nat) (tround : Nat) (hs : Heap × State) (t : Timeout) :
    Heap × State :=
  let (h, slice) := hs.1.append grow tround (hs.2.timeouts tround) t
  (h, { hs.2 with timeouts := fun k => if k = tround then slice else hs.2.timeouts k })

def onNewView (p : Params) (h : Heap) (s : State) (v : Nat) (origin : BlockID) (m : NewView) :
    Except Halt Reaction :=
  if v > m.view then .ok (.quiet h s)
  else
    let key : NodeRoundView := ⟨m.node, m.round, m.view⟩
    if (s.data.hnv key).isSome then .ok (.quiet h s)
    else
      let s := s.putView ⟨m.node, m.round⟩ m.view
      let tval := (origin.round + s.timeout + 5) % 2 ^ 64
      let (h, s) := addTimeout p.grow tval (h, s) ⟨m.node, m.round, m.view⟩
      let s := { s with data := { s.data with hnv := s.data.hnv.set key true } }
      .ok ⟨h, s, some (.prePrepare ⟨m.hash, m.node, m.round, m.view⟩), none⟩

/-- `processMessage` up to the call of `deliver`. -/
def react (p : Params) (h : Heap) (s : State) (sender receiver : Nat) (origin : BlockID)
    (msg : Message) : Except Halt Reaction :=
  -- The finality guard: the code looks under a `states.Final` key of `data`.
  if (s.data.final msg.nodeRound).isSome then .ok (.quiet h s)
  else
    let (v, s) := s.getView msg.nodeRound
    match msg with
    | .prePrepare m => onPrePrepare p h s v sender receiver m
    | .prepare m => onPrepare p h s v receiver m
    | .commit m => onCommit p h s v m
    | .viewChange m => onViewChange p h s v receiver m
    | .newView m => onNewView p h s v origin m

/-- The call of `deliver` at the end of the `Commit` case. -/
def conclude (g : Graph) (msg : Message) (decided : Option Hash) : Except Halt Graph :=
  match decided with
  | none => .ok g
  | some hash => deliver g msg.node msg.round hash

def processMessage (g : Graph) (s : State) (sender receiver : Nat) (origin : BlockID)
    (msg : Message) : Except Halt (Graph × State × Option Message) := do
  let r ← react g.params g.heap s sender receiver origin msg
  let g ← conclude { g with heap := r.heap } msg r.decided
  .ok (g, r.state, r.resp)

/-! ## §4. `processMessages`. -/

/-- One call of `processMessage`: what it started from, was given, and answered. -/
structure Call where
  graph : Graph
  state : State
  sender : Nat
  msg : Message
  resp : Option Message

/-- The variables of the loops of `processMessages` and `process`. -/
structure Acc where
  graph : Graph
  state : State
  processed : List Message
  out : List Message
  calls : List Call

/-- One round of either loop of `processMessages`. -/
def handle (sender receiver : Nat) (origin : BlockID) (a : Acc) (msg : Message) :
    Except Halt Acc :=
  if msg ∈ a.processed then .ok a
  else do
    let (g, s, resp) ← processMessage a.graph a.state sender receiver origin msg
    .ok { graph := g
          state := s
          processed := msg :: a.processed
          out := a.out ++ resp.toList
          calls := a.calls ++ [⟨a.graph, a.state, sender, msg, resp⟩] }

/-- How many responses a message can lead to, itself included: view change, new view, proposal,
prepare vote, commit vote. -/
def Message.weight : Message → Nat
  | .viewChange _ => 5
  | .newView _ => 4
  | .prePrepare _ => 3
  | .prepare _ => 2
  | .commit _ => 1

/-- The second loop of `processMessages`, which appends to the list it traverses; `i` is its
position. -/
def drain (sender receiver : Nat) (origin : BlockID) (fuel i : Nat) (a : Acc) :
    Except Halt Acc :=
  match fuel with
  | 0 => .ok a
  | fuel + 1 =>
    match a.out[i]? with
    | none => .ok a
    | some msg => do
        let a ← handle sender receiver origin a msg
        drain sender receiver origin fuel (i + 1) a

/-- `processMessages`: `out` holds the responses of this call only. -/
def processMessages (sender receiver : Nat) (origin : BlockID) (a : Acc)
    (msgs : List Message) : Except Halt Acc := do
  let a ← msgs.foldlM (handle sender receiver origin) { a with out := [] }
  drain sender receiver origin (a.out.map Message.weight).sum 0 a

/-! ## §5. `process`. -/

def findOrCreateState (g : Graph) (e : Entry) : State :=
  if e.prev.valid then clone (g.statess e.prev) g.round else State.empty

/-- The delays of a block: for each node ten times the distance to its last block referred to. -/
def addDelays (round : Nat) (deps : List BlockID) (delay : AList (fun _ : Nat => Nat)) :
    AList (fun _ : Nat => Nat) :=
  deps.foldl (fun d dep => d.insert dep.node (diff round dep.round * 10 % 2 ^ 64)) delay

/-- The view timeout of a block: at least 10; the delay of the `2f+1`-th fastest node if there are
more than `2f+1` delays, else the largest. -/
def timeoutValue (p : Params) (delay : AList (fun _ : Nat => Nat)) : Except Halt Nat :=
  let vals := delay.entries.map (·.2)
  if vals.length > p.quorum2f1 then do
    let xval ← index ((vals.insertionSort (· ≤ ·))[p.quorum2f]?)
    .ok (max 10 xval)
  else .ok (vals.foldl max 10)

/-- The view-0 timeouts of all nodes for a block's round. -/
def schedule (p : Params) (round tround : Nat) (h : Heap) (s : State) : Heap × State :=
  p.nodes.foldl (fun hs xnode => addTimeout p.grow tround hs ⟨xnode, round, 0⟩) (h, s)

/-- One due timeout: unless the round is final or has moved on, go to the next view and say so, with
the hash prepared in the view that timed out. -/
def fireTimeout (author : Nat) (acc : State × List Message) (t : Timeout) :
    State × List Message :=
  let s := acc.1
  let nr : NodeRound := ⟨t.node, t.round⟩
  if (s.data.final nr).isSome then acc
  else
    let v := s.viewOf nr
    if v > t.view then acc
    else
      let hval := (s.data.prepared ⟨t.node, t.round, t.view⟩).getD []
      (s.putView nr ((v + 1) % 2 ^ 32),
        acc.2 ++ [.viewChange ⟨hval, t.node, t.round, author, (t.view + 1) % 2 ^ 32⟩])

/-- `process` up to the timeout loop: the cloned state with the block's delays, view timeout and
scheduled timeouts. -/
def openBlock (g : Graph) (e : Entry) : Except Halt (Heap × State) := do
  let s := findOrCreateState g e
  let s := { s with delay := addDelays e.block.round e.deps s.delay }
  let tval ← timeoutValue g.params s.delay
  .ok (schedule g.params e.block.round ((e.block.round + tval) % 2 ^ 64) g.heap
    { s with timeout := tval })

/-- `process` before the messages: the opened block with its due timeouts fired, and its first
messages. -/
def beginBlock (g : Graph) (e : Entry) : Except Halt (Graph × State × List Message) := do
  let (h, s) ← openBlock g e
  let (s, out) := (h.read e.block.round (s.timeouts e.block.round)).foldl
    (fireTimeout e.block.node)
    (s, [.prePrepare ⟨e.block.hash, e.block.node, e.block.round, 0⟩])
  .ok ({ g with heap := h }, s, out)

def processDeps (e : Entry) : List BlockID → Acc × List Message → Except Halt (Acc × List Message)
  | [], acc => .ok acc
  | dep :: rest, (a, out) => do
      let a ← processMessages dep.node e.block.node e.block a (getOutput (a.graph.statess dep))
      processDeps e rest (a, out ++ a.out)

/-- `process` with the log of its calls. -/
def interpret (g : Graph) (e : Entry) : Except Halt (Graph × State × List Call) := do
  let (g, s, out) ← beginBlock g e
  let a ← processMessages e.block.node e.block.node e.block ⟨g, s, [], [], []⟩ out
  let (a, out) ← processDeps e e.deps (a, out ++ a.out)
  .ok (a.graph, { a.state with out := out }, a.calls)

def process (g : Graph) (e : Entry) : Except Halt Graph := do
  let (g, s, _) ← interpret g e
  .ok { g with statess := g.statess.set e.block s }

/-! ## §6. `run`: one iteration for each own block. -/

/-- Raise the highest round of a block by that of a block it refers to; the flag records an unknown
one. -/
def raiseMax (known : PMap BlockID Nat) (acc : Nat × Bool) (link : BlockID) : Nat × Bool :=
  match known link with
  | none => (acc.1, true)
  | some m => (max acc.1 m, acc.2)

/-- The final adjustment: an unknown reference counts as the current round. -/
def settleMax (round : Nat) (acc : Nat × Bool) : Nat :=
  if acc.2 then max acc.1 round else acc.1

def depMax (known : PMap BlockID Nat) (round : Nat) (dep : Dep) : Nat :=
  let links := if dep.block.round ≠ 1 then dep.prev :: dep.deps else dep.deps
  settleMax round (links.foldl (raiseMax known) (dep.block.round, false))

/-- The entry built for a dependency. -/
def depEntry (dep : Dep) : Entry :=
  { block := dep.block
    prev := dep.prev
    deps := if dep.block.round ≠ 1 then dep.prev :: dep.deps else dep.deps }

/-- The entry built for the own block. -/
def selfEntry (data : BlockGraph) : Entry :=
  { block := data.block
    prev := data.prev
    deps := data.prev :: data.deps.map Dep.block }

/-- The critical section of `run`: file the block and its dependencies with their highest rounds. -/
def register (g : Graph) (data : BlockGraph) : Graph :=
  let (known, top) := data.deps.foldl
    (fun (acc : PMap BlockID Nat × Nat) dep =>
      let m := depMax acc.1 g.round dep
      (acc.1.set dep.block m, max acc.2 m))
    (g.max, data.block.round)
  let top :=
    if data.block.round ≠ 1 then settleMax g.round (raiseMax known (top, false) data.prev)
    else top
  { g with
    max := known.set data.block top
    blocks := g.blocks ++ [⟨data, top⟩] }

/-- The entries one own block adds, in the order they are processed. -/
def entriesOf (data : BlockGraph) : List Entry := data.deps.map depEntry ++ [selfEntry data]

/-- One iteration of the loop of `run`. -/
def addBlock (g : Graph) (data : BlockGraph) : Except Halt Graph :=
  (entriesOf data).foldlM process (register g data)

end Chainspace.Blockmania
