/-
  Chainspace.Broadcast.Service — the broadcast service of a node (`broadcast/broadcast.go`,
  `broadcast/cache.go`, and the parts of `broadcast/store.go` it writes).

  The inputs are blocks and requests of peers, the steps of the goroutines (`genBlocks`, the
  dependency graph, the tickers), the callback of the consensus graph, and restarts. A step of
  `genBlocks` ends where another goroutine can see what it did: the block is built, cached, written
  to the database, and made the latest one. `log.Fatal` ends the process; since that can happen at
  any moment, such a step is left out and a restart may follow. The lists of blocks made and
  returned to peers are kept for the proofs only.
-/
import Chainspace.Broadcast.Admission
import Chainspace.Broadcast.Depgraph

namespace Chainspace.Broadcast

open Chainspace.Lib Chainspace.Blockmania

/-! ## §1. The cache of own blocks (`cache.go`). -/

structure OwnBlocks where
  data : AList (fun _ : Nat => SignedData)
  latest : Nat

namespace OwnBlocks

def empty : OwnBlocks := ⟨∅, 0⟩

def get (o : OwnBlocks) (round : Nat) : Option SignedData := o.data.lookup round

/-- `prune`; the subtraction is one of `uint64`. -/
def prune (o : OwnBlocks) (size : Nat) : OwnBlocks :=
  if o.data.entries.length ≤ size then o
  else
    let limit := (o.latest + 2 ^ 64 - size) % 2 ^ 64
    { o with data := ⟨o.data.entries.filter fun e => limit ≤ e.1,
        o.data.nodupKeys.sublist List.filter_sublist⟩ }

def set (o : OwnBlocks) (round : Nat) (block : SignedData) : OwnBlocks :=
  ⟨o.data.insert round block, round⟩

theorem get_set (o : OwnBlocks) (round r : Nat) (block : SignedData) :
    (o.set round block).get r = if r = round then some block else o.get r := by
  unfold get set
  split
  next h => rw [h, AList.lookup_insert]
  next h => rw [AList.lookup_insert_ne h]

theorem of_get_prune {o : OwnBlocks} {size round : Nat} {block : SignedData}
    (h : (o.prune size).get round = some block) : o.get round = some block := by
  unfold prune at h
  split at h
  · exact h
  · have hmem := AList.mem_lookup_iff.mp h
    exact AList.mem_lookup_iff.mpr (List.mem_of_mem_filter hmem)

theorem get_prune {o : OwnBlocks} {size round : Nat} {block : SignedData}
    (hlimit : (o.latest + 2 ^ 64 - size) % 2 ^ 64 ≤ round) (h : o.get round = some block) :
    (o.prune size).get round = some block := by
  unfold prune
  split
  · exact h
  · have hmem := AList.mem_lookup_iff.mp h
    exact AList.mem_lookup_iff.mpr (List.mem_filter.mpr ⟨hmem, decide_eq_true hlimit⟩)

/-- What a service does with its cache. `last` is the round of the last own block, at first the one
in the database, and `top` the highest round set. -/
inductive Run : OwnBlocks → Nat → Nat → Prop
  | start {last : Nat} (hlast : last < 2 ^ 64) : Run empty last 0
  | setOwnBlock {o : OwnBlocks} {last top round : Nat} (hrun : Run o last top)
      (hnew : last < round) (hround : round < 2 ^ 64) (block : SignedData) :
      Run (o.set round block) round (max top round)
  -- A refill: a peer is behind, and the block is not in the cache.
  | getOwnBlock {o : OwnBlocks} {last top round : Nat} (hrun : Run o last top)
      (hold : round ≤ last) (hget : o.get round = none) (block : SignedData) :
      Run (o.set round block) last (max top round)
  | prune {o : OwnBlocks} {last top : Nat} (hrun : Run o last top) (size : Nat) :
      Run (o.prune size) last top

variable {o : OwnBlocks} {last top size : Nat}

theorem Run.latest_le (hrun : Run o last top) : last < 2 ^ 64 ∧ top < 2 ^ 64 ∧ o.latest ≤ top := by
  induction hrun with
  | start hlast => exact ⟨hlast, by decide, Nat.le_refl 0⟩
  | setOwnBlock _ _ hround _ ih =>
    exact ⟨hround, Nat.max_lt.mpr ⟨ih.2.1, hround⟩, Nat.le_max_right ..⟩
  | getOwnBlock _ hold _ _ ih =>
    exact ⟨ih.1, Nat.max_lt.mpr ⟨ih.2.1, by omega⟩, Nat.le_max_right ..⟩
  | @prune o _ _ _ size ih =>
    have hlatest : (o.prune size).latest = o.latest := by
      unfold OwnBlocks.prune
      split <;> rfl
    rw [hlatest]
    exact ih

/-- **Where the round set last is at least `size`, the limit does not wrap and pruning keeps every
block of the last `size` rounds.** -/
theorem Run.prune_keeps (hrun : Run o last top)
    (hlatest : o.data.entries.length ≤ size ∨ size ≤ o.latest) :
    (size < o.data.entries.length → (o.latest + 2 ^ 64 - size) % 2 ^ 64 + size = o.latest) ∧
      ∀ round block, top ≤ round + size → o.get round = some block →
        (o.prune size).get round = some block := by
  obtain ⟨_, htop, hle⟩ := hrun.latest_le
  refine ⟨fun hlong => by omega, fun round block hround hget => ?_⟩
  rcases hlatest with hshort | hlatest
  · rw [OwnBlocks.prune, if_pos hshort]
    exact hget
  · exact get_prune (by omega) hget

/-- The cache of a node that started at round 4 and made two blocks. -/
def twoBlocks : OwnBlocks := (empty.set 5 ⟨[], []⟩).set 6 ⟨[], []⟩

theorem run_twoBlocks : Run twoBlocks 6 6 := by
  have hstart : Run empty 4 0 := .start (by decide)
  exact (hstart.setOwnBlock (by decide) (by decide) _).setOwnBlock (by decide) (by decide) _

theorem prune_keeps_five : ((twoBlocks.set 4 ⟨[], []⟩).prune 2).get 5 = some ⟨[], []⟩ :=
  (Run.prune_keeps (run_twoBlocks.getOwnBlock (by decide) rfl _) (.inr (by decide))).2 5 _
    (by decide) rfl

/-- A peer asks for round 1: the limit wraps, and the latest block is forgotten. -/
theorem prune_forgets_latest :
    ∃ o, Run o 6 6 ∧ (o.get 6).isSome ∧ (o.prune 2).get 6 = none ∧
      o.latest < (o.latest + 2 ^ 64 - 2) % 2 ^ 64 :=
  ⟨twoBlocks.set 1 ⟨[], []⟩, run_twoBlocks.getOwnBlock (by decide) rfl _, by decide, by decide,
    by decide⟩

end OwnBlocks

/-! ## §2. The database (`store.go`). -/

structure LastRound where
  round : Nat
  hash : Hash
  ref : SignedData

/-- The database, one field for each key type. -/
structure Db where
  blocks : PMap BlockID SignedData
  ownBlocks : PMap Nat SignedData
  /-- the block graphs, in the order of their rounds -/
  graphs : List BlockGraph
  last : Option LastRound
  included : PMap BlockID Bool
  notIncluded : List BlockID
  sent : Option (PMap Nat Nat)
  /-- the last interpreted round and what it consumed -/
  interpreted : Option (Nat × Nat)

namespace Db

def empty : Db where
  blocks := .empty
  ownBlocks := .empty
  graphs := []
  last := none
  included := .empty
  notIncluded := []
  sent := none
  interpreted := none

def isIncluded (db : Db) (id : BlockID) : Bool := (db.included id).getD false

def setBlock (db : Db) (id : BlockID) (block : SignedData) : Db :=
  if (db.included id).isSome then db
  else { db with
    included := db.included.set id false
    notIncluded := db.notIncluded ++ [id]
    blocks := db.blocks.set id block }

def setOwnBlock (db : Db) (block blockRef : SignedData) (graph : BlockGraph) : Db :=
  let refs := graph.deps.map Dep.block
  { db with
    blocks := db.blocks.set graph.block block
    last := some ⟨graph.block.round, graph.block.hash, blockRef⟩
    graphs := db.graphs ++ [graph]
    included := fun id => if id ∈ refs then some true else db.included id
    notIncluded := db.notIncluded.filter fun id => id ∉ refs
    ownBlocks := db.ownBlocks.set graph.block.round block }

/-- `getNotIncluded`: `order` is the order of the keys. -/
def getNotIncluded (db : Db) (w : Wire) (order : List BlockID) : Option (List BlockData) :=
  order.mapM fun id => (db.blocks id).bind (getBlockData w)

def getBlockGraphs (db : Db) (start limit : Nat) : List BlockGraph :=
  (db.graphs.filter fun g => start ≤ g.block.round).take limit

/-- The batches `replayGraphChanges` feeds to the graph; there are no more than graphs. -/
def replayGraphs (db : Db) : Nat → Nat → List BlockGraph
  | 0, _ => []
  | fuel + 1, start =>
    let blocks := db.getBlockGraphs start 100
    if blocks.length < 100 then blocks else blocks ++ db.replayGraphs fuel (start + 100)

end Db

/-! ## §3. The service. -/

/-- A block `genBlocks` has made, with what it needs to record it. -/
structure OwnBlock where
  signed : SignedData
  blockRef : SignedData
  graph : BlockGraph
  refs : List BlockData

/-- Where `genBlocks` stands. -/
inductive Gen
  | idle
  /-- before `ownBlocks.set` -/
  | built (own : OwnBlock)
  /-- before `store.setOwnBlock` -/
  | cached (own : OwnBlock)
  /-- before the new round shows -/
  | stored (own : OwnBlock)

/-- The fields of `Service` that change. -/
structure Service where
  db : Db
  depgraph : Depgraph
  /-- what the consensus graph was given -/
  feed : List BlockGraph
  ownBlocks : OwnBlocks
  prevhash : Hash
  prevref : Option SignedData
  round : Nat
  sent : PMap Nat Nat
  /-- `txCount` and `txData[:txIdx]` -/
  txs : Transactions
  gen : Gen
  /-- the blocks made, newest first -/
  made : List SignedData
  /-- the blocks returned to peers, newest first -/
  published : List SignedData

/-- What can happen to the service. -/
inductive Input
  /-- `processBlock`, for a block of a peer -/
  | receive (signed : SignedData)
  /-- a step of the dependency graph; `keep` is a choice of the map iteration -/
  | depgraph (keep : List BlockID)
  /-- the next step of `genBlocks` -/
  | genBlocks
  | addTransaction (txdata : Bytes) (fee : Nat)
  | getUnsent (peer : Nat)
  | markSent (peer round : Nat)
  | handleGetRounds (rounds : List Nat)
  | handleGetBlocks (ids : List BlockID)
  | writeSentMap
  /-- `blockmaniaCallback` -/
  | callback (data : Interpreted)
  /-- a crash and `loadState`; `order` is the order of the keys of the blocks not included -/
  | restart (order : List BlockID)

/-! ## §4. Steps. -/

namespace Service

variable (c : Config)

def start (db : Db) (order : List BlockID) (made published : List SignedData) : Option Service := do
  let blocks ← db.getNotIncluded c.wire order
  let consumed := (db.interpreted.map Prod.snd).getD 0
  some {
    db := db
    depgraph := blocks.foldl Depgraph.add .new
    feed := db.replayGraphs (db.graphs.length + 1) consumed
    ownBlocks := .empty
    prevhash := (db.last.map LastRound.hash).getD []
    prevref := db.last.map LastRound.ref
    round := (db.last.map LastRound.round).getD 0
    sent := db.sent.getD fun peer => if peer ∈ c.peers then some 0 else none
    txs := ⟨0, []⟩
    gen := .idle
    made := made
    published := published }

def new : Service where
  db := .empty
  depgraph := .new
  feed := []
  ownBlocks := .empty
  prevhash := []
  prevref := none
  round := 0
  sent := fun peer => if peer ∈ c.peers then some 0 else none
  txs := ⟨0, []⟩
  gen := .idle
  made := []
  published := []

/-- `processBlock`; an error leaves everything as it was. -/
def processBlock (n : Service) (signed : SignedData) : Service :=
  match checkBlock c signed with
  | .error _ => n
  | .ok data => { n with
      db := n.db.setBlock data.id signed
      depgraph := n.depgraph.add data }

def newBlock (n : Service) (refs : List BlockData) : Block where
  node := c.nodeID
  previous := n.prevref
  references := refs.map BlockData.ref
  round := (n.round + 1) % 2 ^ 64
  transactions := some n.txs

/-- That block, encoded and signed, and its place in the consensus graph. -/
def ownBlock (n : Service) (refs : List BlockData) : OwnBlock :=
  let block := n.newBlock c refs
  let data := c.wire.marshalBlock block
  let ref := c.wire.refOf data c.nodeID block.round
  let refData := c.wire.marshalRef ref
  let signature := c.keys.sign c.nodeID refData
  { signed := ⟨data, signature⟩
    blockRef := ⟨refData, signature⟩
    graph := {
      block := ref.id
      prev := if block.round ≠ 1 then ⟨n.prevhash, c.nodeID, (block.round + 2 ^ 64 - 1) % 2 ^ 64⟩
        else .zero
      deps := refs.map fun r => ⟨r.id, r.deps, r.prev⟩ }
    refs := refs }

theorem ownBlock_decoded (n : Service) (refs : List BlockData) :
    c.wire.unmarshalBlock (n.ownBlock c refs).signed.data = some (n.newBlock c refs) :=
  c.wire.unmarshal_marshalBlock _

def build (n : Service) : Service :=
  let (refs, depgraph) := n.depgraph.getBlocks c.refSizeLimit
  let own := n.ownBlock c refs
  { n with
    depgraph := depgraph
    txs := ⟨0, []⟩
    gen := .built own
    made := own.signed :: n.made }

def finish (n : Service) (own : OwnBlock) : Service :=
  let round := own.graph.block.round
  { n with
    depgraph := (own.refs.map BlockData.id).foldl Depgraph.actuallyIncluded n.depgraph
    feed := n.feed ++ [own.graph]
    prevhash := own.graph.block.hash
    prevref := some own.blockRef
    round := round
    ownBlocks := if round % 50 = 0 then n.ownBlocks.prune 50 else n.ownBlocks
    gen := .idle }

def genBlocks (n : Service) : Service :=
  match n.gen with
  | .idle => n.build c
  | .built own => { n with
      ownBlocks := n.ownBlocks.set own.graph.block.round own.signed
      gen := .cached own }
  | .cached own => { n with
      db := n.db.setOwnBlock own.signed own.blockRef own.graph
      gen := .stored own }
  | .stored own => n.finish own

def putUint (bytes n : Nat) : Bytes := (List.range bytes).map fun i => .ofNat (n / 256 ^ i)

/-- The critical section of `AddTransaction`; `none` while the transaction does not fit. -/
def addTransaction (n : Service) (txdata : Bytes) (fee : Nat) : Option Service :=
  let size := txdata.length
  if size ≥ 2 ^ 32 ∨ size > c.txSizeLimit then some n
  else if n.txs.data.length + size + 100 > c.txSizeLimit then none
  else some { n with
    txs := ⟨n.txs.count + 1, n.txs.data ++ putUint 8 fee ++ putUint 4 size ++ txdata⟩ }

/-- `getOwnBlock`: the cache first, then the database. -/
def getOwnBlock (n : Service) (round : Nat) : Option (SignedData × Service) :=
  match n.ownBlocks.get round with
  | some block => some (block, n)
  | none =>
    match n.db.ownBlocks round with
    | none => none
    | some block => some (block, { n with ownBlocks := n.ownBlocks.set round block })

/-- The loop of `getUnsent` over `k` rounds from `i` on; only the first block must fit. -/
def unsent (n : Service) (first : Bool) (total i : Nat) : Nat → Option (List SignedData × Service)
  | 0 => some ([], n)
  | k + 1 =>
    match n.getOwnBlock i with
    | none => none
    | some (block, n) =>
      if total + block.size > c.maxPayload then if first then none else some ([], n)
      else do
        let (blocks, n) ← n.unsent false (total + block.size) (i + 1) k
        some (block :: blocks, n)

def ownBlocksAt (n : Service) : List Nat → List SignedData × Service
  | [] => ([], n)
  | round :: rounds =>
    match n.getOwnBlock round with
    | none => n.ownBlocksAt rounds
    | some (block, n) =>
      let (blocks, n) := n.ownBlocksAt rounds
      (block :: blocks, n)

def publish (n : Service) (blocks : List SignedData) : Service :=
  { n with published := blocks ++ n.published }

/-- `getUnsent`; `none` while there is nothing to send. -/
def getUnsent (n : Service) (peer : Nat) : Option Service :=
  let last := ((n.sent peer).getD 0 + 1) % 2 ^ 64
  if n.round ≥ last then do
    let (blocks, n) ← n.unsent c true 0 last (n.round + 1 - last)
    some (n.publish blocks)
  else none

def handleGetRounds (n : Service) (rounds : List Nat) : Service :=
  if rounds.length > c.maxBlocks then n
  else
    let (blocks, n) := n.ownBlocksAt rounds
    n.publish blocks

/-- `handleGetBlocks`: an unknown block leaves a nil in the list, which cannot be encoded. -/
def handleGetBlocks (n : Service) (ids : List BlockID) : Service :=
  if ids.length > c.maxBlocks then n
  else
    match ids.mapM n.db.blocks with
    | none => n
    | some blocks => n.publish blocks

def step (n : Service) : Input → Option Service
  | .receive signed => some (n.processBlock c signed)
  | .depgraph keep =>
    (n.depgraph.step n.db.isIncluded c.nodeID keep).map fun d => { n with depgraph := d }
  | .genBlocks => some (n.genBlocks c)
  | .addTransaction txdata fee => n.addTransaction c txdata fee
  | .getUnsent peer => n.getUnsent c peer
  | .markSent peer round => some { n with sent := n.sent.set peer round }
  | .handleGetRounds rounds => some (n.handleGetRounds c rounds)
  | .handleGetBlocks ids => some (n.handleGetBlocks c ids)
  | .writeSentMap => some { n with db := { n.db with sent := some n.sent } }
  | .callback data =>
    some { n with db := { n.db with interpreted := some (data.round, data.consumed) } }
  | .restart order =>
    if order.Perm n.db.notIncluded then start c n.db order n.made n.published else none

end Service

/-! ## §5. Runs. -/

/-- **A run of the service**: inputs in any order, each of which satisfies `ok`. -/
inductive ServiceRun (c : Config) (ok : Service → Input → Prop) : Service → Prop
  | start : ServiceRun c ok (.new c)
  | step {n n' : Service} {input : Input} (hrun : ServiceRun c ok n) (hok : ok n input)
      (h : n.step c input = some n') : ServiceRun c ok n'

/-- The inputs of a list, one after the other, while `ok` allows them. -/
def Service.stepWhile (c : Config) (ok : Service → Input → Bool) (n : Service)
    (inputs : List Input) : Option Service :=
  inputs.foldlM (fun n input => if ok n input then n.step c input else none) n

variable {c : Config} {n n' : Service}

/-- A run that is evaluated. -/
theorem ServiceRun.exists_of_stepWhile (c : Config) (okb : Service → Input → Bool)
    (inputs : List Input) {ok : Service → Input → Prop}
    (hok : ∀ n input, okb n input = true → ok n input) {P : Service → Prop} [DecidablePred P]
    (h : ((Service.new c).stepWhile c okb inputs).any (fun n => decide (P n)) = true) :
    ∃ n, ServiceRun c ok n ∧ P n := by
  obtain ⟨n, hn, hP⟩ := exists_of_any h fun _ _ h => h
  refine ⟨n, foldlM_some_inv (ServiceRun c ok) .start ?_ hn, hP⟩
  intro input _ x y hx hy
  split at hy
  next hb => exact hx.step (hok x input hb) hy
  · cases hy

/-! ## §6. What a step can do. -/

/-- Own blocks come from the cache or the database, which may fill the cache. -/
structure Served (n : Service) (blocks : List SignedData) (n' : Service) : Prop where
  others : n' = { n with ownBlocks := n'.ownBlocks }
  blocks : ∀ b ∈ blocks, ∃ r, n.ownBlocks.get r = some b ∨ n.db.ownBlocks r = some b
  cache : ∀ r b, n'.ownBlocks.get r = some b →
    n.ownBlocks.get r = some b ∨ n.db.ownBlocks r = some b

section Served
variable {c : Config} {n n' n'' : Service}

theorem Served.none (n : Service) : Served n [] n :=
  ⟨rfl, fun _ h => absurd h (by simp), fun _ _ h => .inl h⟩

theorem Served.cons {block : SignedData} {blocks : List SignedData} (h : Served n [block] n')
    (h' : Served n' blocks n'') : Served n (block :: blocks) n'' := by
  have hdb : n'.db = n.db := by rw [h.others]
  refine ⟨?_, ?_, ?_⟩
  · rw [h'.others, h.others]
  · intro b hb
    rcases List.mem_cons.mp hb with hb | hb
    · exact h.blocks b (hb ▸ List.mem_cons_self)
    obtain ⟨r, hr | hr⟩ := h'.blocks b hb
    · exact ⟨r, h.cache r b hr⟩
    · exact ⟨r, .inr (hdb ▸ hr)⟩
  intro r b hr
  rcases h'.cache r b hr with hr | hr
  · exact h.cache r b hr
  · exact .inr (hdb ▸ hr)

theorem Service.getOwnBlock_served {round : Nat} {block : SignedData}
    (h : n.getOwnBlock round = some (block, n')) : Served n [block] n' := by
  unfold Service.getOwnBlock at h
  split at h
  next b hget =>
    cases h
    refine ⟨rfl, ?_, fun _ _ h => .inl h⟩
    intro b hb
    exact ⟨round, .inl (List.mem_singleton.mp hb ▸ hget)⟩
  split at h
  · cases h
  next b hdb =>
    cases h
    refine ⟨rfl, ?_, ?_⟩
    · intro b hb
      exact ⟨round, .inr (List.mem_singleton.mp hb ▸ hdb)⟩
    intro r b hr
    rw [OwnBlocks.get_set] at hr
    split at hr
    next heq => exact .inr (heq ▸ hr ▸ hdb)
    · exact .inl hr

theorem Service.unsent_served {first : Bool} {total i k : Nat} {blocks : List SignedData}
    (h : n.unsent c first total i k = some (blocks, n')) : Served n blocks n' := by
  induction k generalizing n first total i blocks with
  | zero =>
    cases h
    exact .none _
  | succ k ih =>
    unfold Service.unsent at h
    split at h
    · cases h
    next hget =>
      have hserved := getOwnBlock_served hget
      split at h
      · split at h
        · cases h
        · cases h
          exact ⟨hserved.others, fun _ hb => absurd hb (by simp), hserved.cache⟩
      obtain ⟨⟨rest, n2⟩, hrest, h⟩ := Option.bind_eq_some_iff.mp h
      cases h
      exact hserved.cons (ih hrest)

theorem Service.ownBlocksAt_served (n : Service) (rounds : List Nat) :
    Served n (n.ownBlocksAt rounds).1 (n.ownBlocksAt rounds).2 := by
  induction rounds generalizing n with
  | nil => exact .none n
  | cons round rounds ih =>
    unfold Service.ownBlocksAt
    split
    · exact ih n
    next n1 hget => exact (getOwnBlock_served hget).cons (ih n1)

end Served

inductive Service.Steps (c : Config) (n : Service) : Input → Service → Prop
  /-- a block or a request that is refused -/
  | same (input : Input) : Steps c n input n
  | receive (signed : SignedData) (data : BlockData) (h : checkBlock c signed = .ok data) :
      Steps c n (.receive signed) { n with
        db := n.db.setBlock data.id signed
        depgraph := n.depgraph.add data }
  | depgraph (keep : List BlockID) (d : Depgraph)
      (h : n.depgraph.step n.db.isIncluded c.nodeID keep = some d) :
      Steps c n (.depgraph keep) { n with depgraph := d }
  | build (h : n.gen = .idle) : Steps c n .genBlocks (n.build c)
  | cache (own : OwnBlock) (h : n.gen = .built own) : Steps c n .genBlocks { n with
      ownBlocks := n.ownBlocks.set own.graph.block.round own.signed
      gen := .cached own }
  | store (own : OwnBlock) (h : n.gen = .cached own) : Steps c n .genBlocks { n with
      db := n.db.setOwnBlock own.signed own.blockRef own.graph
      gen := .stored own }
  | finish (own : OwnBlock) (h : n.gen = .stored own) : Steps c n .genBlocks (n.finish own)
  /-- the buffer of transactions, the rounds of the peers, and their copy in the database -/
  | aside (input : Input) (txs : Transactions) (sent : PMap Nat Nat)
      (stored : Option (PMap Nat Nat)) (interpreted : Option (Nat × Nat)) : Steps c n input { n with
        txs := txs
        sent := sent
        db := { n.db with sent := stored, interpreted := interpreted } }
  | own (input : Input) (blocks : List SignedData) (n1 : Service) (h : Served n blocks n1) :
      Steps c n input (n1.publish blocks)
  | blocks (ids : List BlockID) (blocks : List SignedData)
      (h : ids.mapM n.db.blocks = some blocks) :
      Steps c n (.handleGetBlocks ids) (n.publish blocks)
  | restart (order : List BlockID) (n' : Service) (hperm : order.Perm n.db.notIncluded)
      (h : start c n.db order n.made n.published = some n') : Steps c n (.restart order) n'

theorem Service.step_cases {input : Input} (h : n.step c input = some n') : n.Steps c input n' := by
  cases input with
  | receive signed =>
    cases h
    unfold Service.processBlock
    split
    · exact .same _
    next data hdata => exact .receive signed data hdata
  | depgraph keep =>
    obtain ⟨d, hd, h⟩ := Option.map_eq_some_iff.mp h
    exact h ▸ .depgraph keep d hd
  | genBlocks =>
    cases h
    unfold Service.genBlocks
    split
    next hgen => exact .build hgen
    next own hgen => exact .cache own hgen
    next own hgen => exact .store own hgen
    next own hgen => exact .finish own hgen
  | addTransaction txdata fee =>
    have h : n.addTransaction c txdata fee = some n' := h
    unfold Service.addTransaction at h
    dsimp only at h
    split at h
    · cases h
      exact .same _
    split at h
    · cases h
    · cases h
      exact .aside _ _ n.sent n.db.sent n.db.interpreted
  | getUnsent peer =>
    have h : n.getUnsent c peer = some n' := h
    unfold Service.getUnsent at h
    dsimp only at h
    split at h
    · obtain ⟨⟨blocks, n1⟩, hn1, h⟩ := Option.bind_eq_some_iff.mp h
      cases h
      exact .own _ blocks n1 (unsent_served hn1)
    · cases h
  | markSent =>
    cases h
    exact .aside _ n.txs _ n.db.sent n.db.interpreted
  | handleGetRounds rounds =>
    cases h
    unfold Service.handleGetRounds
    split
    · exact .same _
    · exact .own _ _ _ (n.ownBlocksAt_served rounds)
  | handleGetBlocks ids =>
    cases h
    unfold Service.handleGetBlocks
    split
    · exact .same _
    split
    · exact .same _
    next blocks hblocks => exact .blocks ids blocks hblocks
  | writeSentMap =>
    cases h
    exact .aside _ n.txs n.sent _ n.db.interpreted
  | callback =>
    cases h
    exact .aside _ n.txs n.sent n.db.sent _
  | restart order =>
    have h : (if order.Perm n.db.notIncluded then start c n.db order n.made n.published
      else none) = some n' := h
    split at h
    next hperm => exact .restart order n' hperm h
    · cases h

/-- What a step does to the buffer of transactions and to the rounds of the peers. -/
inductive Service.Touches (c : Config) (n : Service) : Input → Service → Prop
  /-- nothing, but for transactions that were put into a block -/
  | none (input : Input) (n' : Service) (htxs : n'.txs = n.txs ∨ n'.txs = ⟨0, []⟩)
      (hsent : n'.sent = n.sent) (hstored : n'.db.sent = n.db.sent) : Touches c n input n'
  | addTransaction (txdata : Bytes) (fee : Nat) (n' : Service)
      (h : n.addTransaction c txdata fee = some n') (hsent : n'.sent = n.sent)
      (hstored : n'.db.sent = n.db.sent) : Touches c n (.addTransaction txdata fee) n'
  | markSent (peer round : Nat) :
      Touches c n (.markSent peer round) { n with sent := n.sent.set peer round }
  | writeSentMap : Touches c n .writeSentMap { n with db := { n.db with sent := some n.sent } }
  | restart (order : List BlockID) (n' : Service)
      (h : start c n.db order n.made n.published = some n') : Touches c n (.restart order) n'

theorem Served.touches {n1 : Service} {blocks : List SignedData}
    (h : Served n blocks n1) (input : Input) : n.Touches c input (n1.publish blocks) := by
  rw [h.others]
  exact .none _ _ (.inl rfl) rfl rfl

theorem Service.touches {input : Input} (h : n.step c input = some n') : n.Touches c input n' := by
  cases input with
  | addTransaction txdata fee =>
    have hadd : n.addTransaction c txdata fee = some n' := h
    have h := hadd
    unfold Service.addTransaction at h
    dsimp only at h
    split at h
    · cases h
      exact .none _ _ (.inl rfl) rfl rfl
    split at h
    · cases h
    · cases h
      exact .addTransaction txdata fee _ hadd rfl rfl
  | markSent peer round =>
    cases h
    exact .markSent peer round
  | writeSentMap =>
    cases h
    exact .writeSentMap
  | restart order =>
    have h : (if order.Perm n.db.notIncluded then start c n.db order n.made n.published
      else Option.none) = some n' := h
    split at h
    · exact .restart order n' h
    · cases h
  | receive signed =>
    cases h
    unfold Service.processBlock
    split
    · exact .none _ _ (.inl rfl) rfl rfl
    next data _ =>
      refine .none _ _ (.inl rfl) rfl ?_
      unfold Db.setBlock
      split
      all_goals rfl
  | depgraph =>
    obtain ⟨d, _, h⟩ := Option.map_eq_some_iff.mp h
    exact h ▸ .none _ _ (.inl rfl) rfl rfl
  | genBlocks =>
    cases h
    unfold Service.genBlocks
    split
    · exact .none _ _ (.inr rfl) rfl rfl
    · exact .none _ _ (.inl rfl) rfl rfl
    · exact .none _ _ (.inl rfl) rfl rfl
    · exact .none _ _ (.inl rfl) rfl rfl
  | getUnsent peer =>
    have h : n.getUnsent c peer = some n' := h
    unfold Service.getUnsent at h
    dsimp only at h
    split at h
    · obtain ⟨⟨blocks, n1⟩, hn1, h⟩ := Option.bind_eq_some_iff.mp h
      cases h
      exact (unsent_served hn1).touches _
    · cases h
  | handleGetRounds rounds =>
    cases h
    unfold Service.handleGetRounds
    split
    · exact .none _ _ (.inl rfl) rfl rfl
    · exact (n.ownBlocksAt_served rounds).touches _
  | handleGetBlocks =>
    cases h
    unfold Service.handleGetBlocks
    split
    · exact .none _ _ (.inl rfl) rfl rfl
    · split
      all_goals exact .none _ _ (.inl rfl) rfl rfl
  | callback =>
    cases h
    exact .none _ _ (.inl rfl) rfl rfl

end Chainspace.Broadcast
