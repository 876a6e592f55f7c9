/-
  Chainspace.Broadcast.Received — the received sequence and the blocks in the store
  (`broadcast/broadcast.go`, `broadcast/cache.go`, `broadcast/store.go`).

  For each peer the service keeps the last round up to which it has every block, `sequence`. It
  moves on when the next block arrives, when `getMissing` finds no gap, and when `fillMissingBlocks`
  gets an answer to a request for the missing rounds. The last is wrong in two ways: when the answer
  leaves out rounds, `sequence` is set to `latest`, behind all of them (the branches are the wrong
  way round), and a requested round counts as seen when any author's block of it has arrived.
-/
import Chainspace.Broadcast.Acceptance
import Chainspace.Broadcast.Once

namespace Chainspace.Broadcast

open Chainspace.Lib Chainspace.Blockmania List

/-! ## §1. The received map (`cache.go`). -/

structure ReceivedInfo where
  latest : Nat
  sequence : Nat
  deriving DecidableEq

abbrev ReceivedMap := PMap Nat ReceivedInfo

namespace ReceivedMap

/-- `get`: the zero value for a node that is not in the map. -/
def get (m : ReceivedMap) (nodeID : Nat) : ReceivedInfo := (m nodeID).getD ⟨0, 0⟩

def set (m : ReceivedMap) (nodeID round : Nat) : ReceivedMap :=
  let info := m.get nodeID
  PMap.set m nodeID
    ⟨if info.latest < round then round else info.latest,
      if (info.sequence + 1) % 2 ^ 64 = round then round else info.sequence⟩

def setSequence (m : ReceivedMap) (nodeID round : Nat) : ReceivedMap :=
  PMap.set m nodeID ⟨(m.get nodeID).latest, round⟩

end ReceivedMap

/-! ## §2. Missing rounds. -/

/-- The variables of `getMissing`; `full` once it has returned at the limit. -/
structure Scan where
  rounds : List Nat
  latest : Nat
  added : Nat
  full : Bool

/-- The inner loop of `getMissing`, for the `k` rounds from `i` on. -/
def Scan.fill (limit : Nat) (s : Scan) (i : Nat) : Nat → Scan
  | 0 => s
  | k + 1 =>
    if s.added = limit then { s with rounds := s.rounds ++ [i], latest := i, full := true }
    else Scan.fill limit ⟨s.rounds ++ [i], i, s.added + 1, false⟩ (i + 1) k

/-- The body of the loop over the keys, for a block of round `next`. -/
def Scan.visit (limit : Nat) (s : Scan) (next : Nat) : Scan :=
  if s.full then s
  else
    let first := (s.latest + 1) % 2 ^ 64
    let s := s.fill limit first (next - first)
    if s.full then s else { s with latest := next }

/-- `getMissing`, on the keys from round `since + 1` on. -/
def getMissing (keys : List BlockID) (since limit : Nat) : Scan :=
  (keys.map BlockID.round).foldl (Scan.visit limit) ⟨[], since, 0, false⟩

/-- The keys the iterator of `getMissing` runs over: the stored blocks of a node from a round on. -/
structure Db.Lists (db : Db) (nodeID since : Nat) (keys : List BlockID) : Prop where
  mem : ∀ id, id ∈ keys ↔ (db.blocks id).isSome = true ∧ id.node = nodeID ∧
    (since + 1) % 2 ^ 64 ≤ id.round
  sorted : (keys.map BlockID.round).Pairwise (· ≤ ·)

/-! ## §3. The service. -/

/-- Where `fillMissingBlocks` stands for a peer. -/
inductive Filling
  /-- `rounds` is nil -/
  | idle
  /-- `info.sequence` has been read -/
  | looked (since : Nat)
  /-- nothing is missing up to `latest` -/
  | found (latest : Nat)
  /-- the request for `rounds` is out -/
  | asking (rounds : List Nat) (latest : Nat)
  /-- the blocks of the answer are processed; `seen` are the rounds so far -/
  | reading (rounds : List Nat) (latest : Nat) (blocks : List SignedData) (seen : List Nat)

/-- The parts of the service that know what was received: the database, the map, its copy on the way
to the database and the one there, and the goroutine for each peer. -/
structure Receiver where
  db : Db
  received : ReceivedMap
  copied : ReceivedMap
  saved : Option ReceivedMap
  filling : Nat → Filling

namespace Receiver

def load (c : Config) (db : Db) (saved : Option ReceivedMap) : Receiver where
  db := db
  received := saved.getD fun peer => if peer ∈ c.peers then some ⟨0, 0⟩ else none
  copied := .empty
  saved := saved
  filling := fun _ => .idle

def accept (n : Receiver) (signed : SignedData) (data : BlockData) : Receiver :=
  { n with
    db := n.db.setBlock data.id signed
    received := n.received.set data.id.node data.id.round }

def setFilling (n : Receiver) (peer : Nat) (f : Filling) : Receiver :=
  { n with filling := fun p => if p = peer then f else n.filling p }

def read (c : Config) (n : Receiver) (peer : Nat) (rounds : List Nat) (latest : Nat)
    (block : SignedData) (blocks : List SignedData) (seen : List Nat) : Receiver :=
  match checkBlock c block with
  | .error _ => n.setFilling peer (.reading rounds latest blocks seen)
  | .ok data =>
    (n.accept block data).setFilling peer
      (.reading rounds latest blocks (data.id.round :: seen))

theorem read_of_checkBlock {c : Config} {block : SignedData} {data : BlockData}
    (h : checkBlock c block = .ok data) (n : Receiver) (peer : Nat) (rounds : List Nat)
    (latest : Nat) (blocks : List SignedData) (seen : List Nat) :
    n.read c peer rounds latest block blocks seen = (n.accept block data).setFilling peer
      (.reading rounds latest blocks (data.id.round :: seen)) := by
  unfold read
  rw [h]

/-- The last of the requested rounds that was seen, 0 if there is none. -/
def latestSeen (rounds seen : List Nat) : Nat := ((rounds.filter (· ∈ seen)).getLast?).getD 0

def settle (n : Receiver) (peer : Nat) (rounds : List Nat) (latest : Nat) (seen : List Nat) :
    Receiver :=
  let missing := rounds.filter (· ∉ seen)
  let sequence := if missing.length ≠ 0 then latest else latestSeen rounds seen
  let received := if latestSeen rounds seen ≠ 0 then n.received.setSequence peer sequence
    else n.received
  { n with received := received }.setFilling peer
    (if missing.length = 0 then .idle else .asking missing latest)

def Stored (n : Receiver) (peer round : Nat) : Prop :=
  ∃ id, (n.db.blocks id).isSome = true ∧ id.node = peer ∧ id.round = round

/-- **What can happen**: blocks arrive, own blocks are stored, goroutines step with any answers that
`ok` allows, the map is saved, and the process restarts. -/
inductive Step (c : Config) (ok : Receiver → Nat → List SignedData → Prop) (n : Receiver) :
    Receiver → Prop
  | receive (signed : SignedData) (data : BlockData) (hdata : checkBlock c signed = .ok data) :
      Step c ok n (n.accept signed data)
  /-- `setOwnBlock`: the blocks it includes come from the dependency graph, and are stored -/
  | own (block blockRef : SignedData) (graph : BlockGraph)
      (hstored : ∀ id ∈ ownIncludes graph, (n.db.blocks id).isSome = true) :
      Step c ok n { n with db := n.db.setOwnBlock block blockRef graph }
  | look (peer : Nat) (hidle : n.filling peer = .idle)
      (hgap : (n.received.get peer).latest ≠ (n.received.get peer).sequence) :
      Step c ok n (n.setFilling peer (.looked (n.received.get peer).sequence))
  | missing (peer since : Nat) (hlooked : n.filling peer = .looked since) (keys : List BlockID)
      (hkeys : n.db.Lists peer since keys)
      (hsome : (getMissing keys since c.maxBlocks).rounds ≠ []) :
      Step c ok n (n.setFilling peer (.asking (getMissing keys since c.maxBlocks).rounds
        (getMissing keys since c.maxBlocks).latest))
  | none (peer since : Nat) (hlooked : n.filling peer = .looked since) (keys : List BlockID)
      (hkeys : n.db.Lists peer since keys)
      (hnone : (getMissing keys since c.maxBlocks).rounds = []) :
      Step c ok n (n.setFilling peer
        (if (getMissing keys since c.maxBlocks).latest ≠ since ∧
            (getMissing keys since c.maxBlocks).latest ≠ 0 then
          .found (getMissing keys since c.maxBlocks).latest else .idle))
  | skip (peer latest : Nat) (hfound : n.filling peer = .found latest) :
      Step c ok n ({ n with received := n.received.setSequence peer latest }.setFilling peer .idle)
  | answer (peer : Nat) (rounds : List Nat) (latest : Nat)
      (hasking : n.filling peer = .asking rounds latest) (blocks : List SignedData)
      (hne : blocks ≠ []) (hok : ok n peer blocks) :
      Step c ok n (n.setFilling peer (.reading rounds latest blocks []))
  | read (peer : Nat) (rounds : List Nat) (latest : Nat) (block : SignedData)
      (blocks : List SignedData) (seen : List Nat)
      (hreading : n.filling peer = .reading rounds latest (block :: blocks) seen) :
      Step c ok n (n.read c peer rounds latest block blocks seen)
  | settle (peer : Nat) (rounds : List Nat) (latest : Nat) (seen : List Nat)
      (hreading : n.filling peer = .reading rounds latest [] seen) :
      Step c ok n (n.settle peer rounds latest seen)
  | copy : Step c ok n { n with copied := n.received }
  | save : Step c ok n { n with saved := some n.copied }
  | restart : Step c ok n (load c n.db n.saved)

end Receiver

inductive ReceiverRun (c : Config) (ok : Receiver → Nat → List SignedData → Prop) : Receiver → Prop
  | start : ReceiverRun c ok (.load c .empty none)
  | step {n n' : Receiver} (hrun : ReceiverRun c ok n) (h : n.Step c ok n') : ReceiverRun c ok n'

/-! ## §4. What stays true. -/

section Covers
variable {stored : Nat → Prop}

def Upto (stored : Nat → Prop) (x : Nat) : Prop := ∀ r, 1 ≤ r → r ≤ x → stored r

/-- Every round up to `x` is stored or in a list. -/
def Covers (stored : Nat → Prop) (rounds : List Nat) (x : Nat) : Prop :=
  Upto (fun r => stored r ∨ r ∈ rounds) x

theorem Upto.mono {stored' : Nat → Prop} {x : Nat} (h : Upto stored x)
    (hmono : ∀ r, stored r → stored' r) : Upto stored' x :=
  fun r h1 hr => hmono r (h r h1 hr)

theorem Covers.append {rounds : List Nat} {x : Nat} (h : Covers stored rounds x)
    (more : List Nat) : Covers stored (rounds ++ more) x :=
  Upto.mono h fun _ hor => hor.imp_right (mem_append_left more)

/-- **A scan that loses no round**: all up to `latest`, and up to those on its list, are stored or
listed. -/
structure Scan.Covers (stored : Nat → Prop) (s : Scan) : Prop where
  latest : Broadcast.Covers stored s.rounds s.latest
  rounds : ∀ x ∈ s.rounds, Broadcast.Covers stored s.rounds x

variable {s : Scan}

theorem Scan.Covers.snoc (h : s.Covers stored) {i : Nat} (hi : i ≤ s.latest + 1)
    (added : Nat) (full : Bool) : Scan.Covers stored ⟨s.rounds ++ [i], i, added, full⟩ := by
  have hnew : Broadcast.Covers stored (s.rounds ++ [i]) i := by
    intro r h1 hr
    by_cases heq : r = i
    · subst heq
      exact .inr (mem_append_right _ (mem_singleton_self r))
    · exact h.latest.append [i] r h1 (by omega)
  refine ⟨hnew, ?_⟩
  exact forall_mem_append.mpr ⟨fun x hx => (h.rounds x hx).append [i],
    forall_mem_singleton.mpr hnew⟩

/-- The inner loop: every round before the end is covered, unless the limit is reached. -/
theorem Scan.Covers.fill (limit : Nat) (h : s.Covers stored) {i : Nat}
    (hi : i ≤ s.latest + 1) (k : Nat) :
    (s.fill limit i k).Covers stored ∧ ((s.fill limit i k).full = false →
        ∀ r, 1 ≤ r → r < i + k → stored r ∨ r ∈ (s.fill limit i k).rounds) := by
  induction k generalizing s i with
  | zero =>
    refine ⟨h, ?_⟩
    intro _ r h1 hr
    exact h.latest r h1 (by omega)
  | succ k ih =>
    unfold Scan.fill
    split
    · refine ⟨h.snoc hi _ _, ?_⟩
      intro hfull
      cases hfull
    obtain ⟨hcovers, hrest⟩ := ih (h.snoc hi (s.added + 1) false) (Nat.le_refl (i + 1))
    refine ⟨hcovers, ?_⟩
    intro hfull r h1 hr
    exact hrest hfull r h1 (by omega)

theorem Scan.Covers.visit {limit : Nat} (h : s.Covers stored) {next : Nat}
    (hnext : stored next) : (s.visit limit next).Covers stored := by
  have hfirst : (s.latest + 1) % 2 ^ 64 ≤ s.latest + 1 := Nat.mod_le _ _
  obtain ⟨hcovers, hrest⟩ := h.fill limit hfirst (next - (s.latest + 1) % 2 ^ 64)
  unfold Scan.visit
  split
  · exact h
  dsimp only
  split
  · exact hcovers
  next hfull =>
    refine ⟨?_, hcovers.rounds⟩
    intro r h1 hr
    have hr : r ≤ next := hr
    by_cases heq : r = next
    · exact .inl (heq ▸ hnext)
    · exact hrest (by simpa using hfull) r h1 (by omega)

/-- **`getMissing` loses no round.** -/
theorem getMissing_covers {keys : List BlockID} (hkeys : ∀ id ∈ keys, stored id.round) {since : Nat}
    (hsince : Upto stored since) (limit : Nat) : (getMissing keys since limit).Covers stored := by
  refine foldl_inv (fun s : Scan => s.Covers stored) ?_ ?_
  · refine ⟨hsince.mono fun _ => .inl, ?_⟩
    intro x hx
    cases hx
  intro round hround s hs
  obtain ⟨id, hid, heq⟩ := mem_map.mp hround
  exact hs.visit (heq ▸ hkeys id hid)

end Covers

def Answers (c : Config) (rounds : List Nat) (blocks : List SignedData) : Prop :=
  ∃ b ∈ blocks, ∃ data, checkBlock c b = .ok data ∧ data.id.round ∈ rounds

def Brings (c : Config) (peer round : Nat) (blocks : List SignedData) : Prop :=
  ∃ b ∈ blocks, ∃ data, checkBlock c b = .ok data ∧ data.id.node = peer ∧ data.id.round = round

/-- The goroutine for a peer, where `stored` are the rounds of its blocks. -/
def FillingOk (c : Config) (peer : Nat) (stored : Nat → Prop) : Filling → Prop
  | .idle => True
  | .looked since => Upto stored since
  | .found latest => Upto stored latest
  | .asking rounds latest =>
    Covers stored rounds latest ∧ ∀ x ∈ rounds, Covers stored rounds x
  | .reading rounds latest blocks seen =>
    (Covers stored rounds latest ∧ ∀ x ∈ rounds, Covers stored rounds x) ∧
      ((∃ r ∈ rounds, r ∈ seen) ∨ Answers c rounds blocks →
        ∀ r ∈ rounds, stored r ∨ Brings c peer r blocks)

theorem FillingOk.mono {c : Config} {peer : Nat} {stored stored' : Nat → Prop} {f : Filling}
    (h : FillingOk c peer stored f) (hmono : ∀ r, stored r → stored' r) :
    FillingOk c peer stored' f := by
  have hcovers : ∀ {rounds x}, Covers stored rounds x → Covers stored' rounds x :=
    fun h => Upto.mono h fun r hor => hor.imp_left (hmono r)
  cases f with
  | idle => trivial
  | looked | found => exact Upto.mono h hmono
  | asking => exact ⟨hcovers h.1, fun x hx => hcovers (h.2 x hx)⟩
  | reading =>
    refine ⟨⟨hcovers h.1.1, fun x hx => hcovers (h.1.2 x hx)⟩, ?_⟩
    intro hsome r hr
    exact (h.2 hsome r hr).imp_left (hmono r)

def SequencesStored (n : Receiver) (m : ReceivedMap) : Prop :=
  ∀ peer, Upto (n.Stored peer) (m.get peer).sequence

/-- **The state of a run**: a block with an included key is stored, no sequence is ahead of the
store, and the goroutines know the missing rounds. -/
structure Receiver.Sound (c : Config) (n : Receiver) : Prop where
  keys : ∀ id, (n.db.included id).isSome = true → (n.db.blocks id).isSome = true
  received : SequencesStored n n.received
  copied : SequencesStored n n.copied
  saved : ∀ m, n.saved = some m → SequencesStored n m
  filling : ∀ peer, FillingOk c peer (n.Stored peer) (n.filling peer)

/-- **The condition on an answer**: if it has a block of any requested round, then for every
requested round it has a block of the peer or that block is stored. -/
def CompleteAnswer (c : Config) (n : Receiver) (peer : Nat) (blocks : List SignedData) : Prop :=
  ∀ rounds latest, n.filling peer = .asking rounds latest → Answers c rounds blocks →
    ∀ r ∈ rounds, n.Stored peer r ∨ Brings c peer r blocks

/-! ## §5. Every run. -/

section Sound
variable {c : Config} {n n' : Receiver}

/-- A change that loses no block and keeps the maps and the goroutines. -/
theorem Receiver.Sound.grow (h : n.Sound c) {db : Db}
    (hkeys : ∀ id, (db.included id).isSome = true → (db.blocks id).isSome = true)
    (hgrow : ∀ id, (n.db.blocks id).isSome = true → (db.blocks id).isSome = true) :
    Receiver.Sound c { n with db := db } := by
  have hstored : ∀ peer r, n.Stored peer r → Receiver.Stored { n with db := db } peer r := by
    rintro peer r ⟨id, hid, hnode, hround⟩
    exact ⟨id, hgrow id hid, hnode, hround⟩
  exact ⟨hkeys, fun peer => (h.received peer).mono (hstored peer),
    fun peer => (h.copied peer).mono (hstored peer),
    fun m hm peer => (h.saved m hm peer).mono (hstored peer),
    fun peer => (h.filling peer).mono (hstored peer)⟩

theorem Receiver.Sound.setBlock (h : n.Sound c) (id : BlockID) (signed : SignedData) :
    Receiver.Sound c { n with db := n.db.setBlock id signed } ∧
      ((n.db.setBlock id signed).blocks id).isSome = true := by
  by_cases hin : (n.db.included id).isSome = true
  · have hdb : n.db.setBlock id signed = n.db := by
      unfold Db.setBlock
      rw [if_pos hin]
    rw [hdb]
    exact ⟨h, h.keys id hin⟩
  have hdb : n.db.setBlock id signed = { n.db with
      included := n.db.included.set id false
      notIncluded := n.db.notIncluded ++ [id]
      blocks := n.db.blocks.set id signed } := by
    unfold Db.setBlock
    rw [if_neg hin]
  have hgrow : ∀ k, (n.db.blocks k).isSome = true →
      ((n.db.setBlock id signed).blocks k).isSome = true := by
    intro k hk
    rw [hdb]
    show (n.db.blocks.set id signed k).isSome = true
    rw [PMap.set_apply]
    split
    · rfl
    · exact hk
  have hself : ((n.db.setBlock id signed).blocks id).isSome = true := by
    rw [hdb]
    show (n.db.blocks.set id signed id).isSome = true
    rw [PMap.set_self]
    rfl
  refine ⟨h.grow ?_ hgrow, hself⟩
  intro k hk
  by_cases hkid : k = id
  · rw [hkid]
    exact hself
  apply hgrow
  apply h.keys
  rw [hdb] at hk
  have hk : (n.db.included.set id false k).isSome = true := hk
  rwa [PMap.set_ne _ _ hkid] at hk

theorem SequencesStored.set {m : ReceivedMap} (h : SequencesStored n m) {node round : Nat}
    (hstored : n.Stored node round) : SequencesStored n (m.set node round) := by
  intro peer
  by_cases hpeer : peer = node
  · subst hpeer
    have hget : (m.set peer round).get peer =
        ⟨if (m.get peer).latest < round then round else (m.get peer).latest,
          if ((m.get peer).sequence + 1) % 2 ^ 64 = round then round
          else (m.get peer).sequence⟩ := by
      show ((PMap.set m peer _ peer).getD _ : ReceivedInfo) = _
      rw [PMap.set_self]
      rfl
    rw [hget]
    intro r h1 hr
    dsimp only at hr
    split at hr
    next =>
      by_cases heq : r = round
      · exact heq ▸ hstored
      · exact h peer r h1 (by omega)
    · exact h peer r h1 hr
  have hget : (m.set node round).get peer = m.get peer := by
    show (PMap.set m node _ peer).getD _ = _
    rw [PMap.set_ne _ _ hpeer]
    rfl
  rw [hget]
  exact h peer

theorem SequencesStored.setSequence {m : ReceivedMap} (h : SequencesStored n m) {node round : Nat}
    (hstored : Upto (n.Stored node) round) : SequencesStored n (m.setSequence node round) := by
  intro peer
  by_cases hpeer : peer = node
  · subst hpeer
    have hget : (m.setSequence peer round).get peer = ⟨(m.get peer).latest, round⟩ := by
      show ((PMap.set m peer _ peer).getD _ : ReceivedInfo) = _
      rw [PMap.set_self]
      rfl
    rw [hget]
    exact hstored
  have hget : (m.setSequence node round).get peer = m.get peer := by
    show (PMap.set m node _ peer).getD _ = _
    rw [PMap.set_ne _ _ hpeer]
    rfl
  rw [hget]
  exact h peer

variable {peer : Nat} {rounds seen : List Nat}

theorem Receiver.Sound.setFilling (h : n.Sound c) {f : Filling}
    (hf : FillingOk c peer (n.Stored peer) f) : (n.setFilling peer f).Sound c := by
  refine ⟨h.keys, h.received, h.copied, h.saved, ?_⟩
  intro p
  show FillingOk c p (n.Stored p) (if p = peer then f else n.filling p)
  split
  next heq => exact heq ▸ hf
  · exact h.filling p

theorem Receiver.Sound.load {db : Db} {saved : Option ReceivedMap}
    (hkeys : ∀ id, (db.included id).isSome = true → (db.blocks id).isSome = true)
    (hsaved : ∀ m, saved = some m → SequencesStored (.load c db saved) m) :
    (Receiver.load c db saved).Sound c := by
  have hzero : ∀ m : ReceivedMap, (∀ peer, (m.get peer).sequence = 0) →
      SequencesStored (.load c db saved) m := by
    intro m hm peer r h1 hr
    rw [hm peer] at hr
    omega
  refine ⟨hkeys, ?_, hzero _ fun _ => rfl, hsaved, fun _ => trivial⟩
  cases saved with
  | some m => exact hsaved m rfl
  | none =>
    apply hzero
    intro peer
    show (((if peer ∈ c.peers then some ⟨0, 0⟩ else none : Option ReceivedInfo)).getD
      ⟨0, 0⟩).sequence = 0
    split
    all_goals rfl

theorem Receiver.Sound.accept (h : n.Sound c) (signed : SignedData) (data : BlockData) :
    (n.accept signed data).Sound c ∧ (n.accept signed data).Stored data.id.node data.id.round ∧
      ∀ peer r, n.Stored peer r → (n.accept signed data).Stored peer r := by
  obtain ⟨hdb, hself⟩ := h.setBlock data.id signed
  have hstored : Receiver.Stored { n with db := n.db.setBlock data.id signed }
      data.id.node data.id.round := ⟨data.id, hself, rfl, rfl⟩
  refine ⟨⟨hdb.keys, hdb.received.set hstored, hdb.copied, hdb.saved, hdb.filling⟩, hstored, ?_⟩
  rintro peer r ⟨id, hid, hnode, hround⟩
  refine ⟨id, ?_, hnode, hround⟩
  show ((n.db.setBlock data.id signed).blocks id).isSome = true
  unfold Db.setBlock
  split
  · exact hid
  show (n.db.blocks.set data.id signed id).isSome = true
  rw [PMap.set_apply]
  split
  · rfl
  · exact hid

theorem Receiver.Sound.read (h : n.Sound c) {latest : Nat}
    {block : SignedData} {blocks : List SignedData}
    (hreading : n.filling peer = .reading rounds latest (block :: blocks) seen) :
    (n.read c peer rounds latest block blocks seen).Sound c := by
  have hfilling := h.filling peer
  rw [hreading] at hfilling
  obtain ⟨hcovers, hall⟩ := hfilling
  unfold Receiver.read
  split
  next herr =>
    -- a refused block is neither seen nor stored
    refine h.setFilling ⟨hcovers, ?_⟩
    intro hsome r hr
    have hsome : (∃ r ∈ rounds, r ∈ seen) ∨ Answers c rounds (block :: blocks) := by
      refine hsome.imp_right ?_
      rintro ⟨b, hb, hdata⟩
      exact ⟨b, mem_cons_of_mem block hb, hdata⟩
    refine (hall hsome r hr).imp_right ?_
    rintro ⟨b, hb, data, hdata, hnode⟩
    rcases mem_cons.mp hb with heq | hb
    · rw [heq, herr] at hdata
      cases hdata
    · exact ⟨b, hb, data, hdata, hnode⟩
  next data hdata =>
    obtain ⟨hsound, hstored, hgrow⟩ := h.accept block data
    have hmono : ∀ {rounds x}, Covers (n.Stored peer) rounds x →
        Covers ((n.accept block data).Stored peer) rounds x :=
      fun h => Upto.mono h fun r hor => hor.imp_left (hgrow peer r)
    refine hsound.setFilling ⟨⟨hmono hcovers.1, fun x hx => hmono (hcovers.2 x hx)⟩, ?_⟩
    intro hsome r hr
    have hsome : (∃ r ∈ rounds, r ∈ seen) ∨ Answers c rounds (block :: blocks) := by
      rcases hsome with ⟨r', hr', hseen⟩ | ⟨b, hb, hanswer⟩
      · rcases mem_cons.mp hseen with heq | hseen
        · exact .inr ⟨block, mem_cons_self, data, hdata, heq ▸ hr'⟩
        · exact .inl ⟨r', hr', hseen⟩
      · exact .inr ⟨b, mem_cons_of_mem block hb, hanswer⟩
    rcases hall hsome r hr with hs | ⟨b, hb, data', hdata', hnode, hround⟩
    · exact .inl (hgrow peer r hs)
    rcases mem_cons.mp hb with heq | hb
    · rw [heq, hdata] at hdata'
      cases hdata'
      exact .inl (hnode ▸ hround ▸ hstored)
    · exact .inr ⟨b, hb, data', hdata', hnode, hround⟩

theorem mem_of_latestSeen (h : Receiver.latestSeen rounds seen ≠ 0) :
    Receiver.latestSeen rounds seen ∈ rounds ∧ Receiver.latestSeen rounds seen ∈ seen := by
  unfold Receiver.latestSeen at h ⊢
  cases hlast : (rounds.filter (· ∈ seen)).getLast? with
  | none =>
    rw [hlast] at h
    exact absurd rfl h
  | some =>
    have hmem := mem_of_getLast? hlast
    rw [mem_filter] at hmem
    exact ⟨hmem.1, of_decide_eq_true hmem.2⟩

/-- **After a complete answer** every requested round is stored, so the sequence may be set to any
of them, or to the last round. -/
theorem Receiver.Sound.settle (h : n.Sound c) {latest : Nat}
    (hreading : n.filling peer = .reading rounds latest [] seen) :
    (n.settle peer rounds latest seen).Sound c := by
  have hfilling := h.filling peer
  rw [hreading] at hfilling
  obtain ⟨⟨hlatest, hrounds⟩, hall⟩ := hfilling
  have hstored : (∃ r ∈ rounds, r ∈ seen) → ∀ r ∈ rounds, n.Stored peer r := by
    intro hseen r hr
    rcases hall (.inl hseen) r hr with hs | ⟨b, hb, _⟩
    · exact hs
    · cases hb
  -- what is left to ask for covers what the request did
  have hcovers : ∀ x, Covers (n.Stored peer) rounds x →
      Covers (n.Stored peer) (rounds.filter (· ∉ seen)) x := by
    intro x hx r h1 hr
    rcases hx r h1 hr with hs | hmem
    · exact .inl hs
    by_cases hseen : r ∈ seen
    · exact .inl (hstored ⟨r, hmem, hseen⟩ r hmem)
    · exact .inr (mem_filter.mpr ⟨hmem, decide_eq_true hseen⟩)
  have hreceived : SequencesStored n
      (if Receiver.latestSeen rounds seen ≠ 0 then n.received.setSequence peer
        (if (rounds.filter (· ∉ seen)).length ≠ 0 then latest
          else Receiver.latestSeen rounds seen) else n.received) := by
    split
    next hne =>
      obtain ⟨hmem, hseen⟩ := mem_of_latestSeen hne
      have hupto : ∀ x, Covers (n.Stored peer) rounds x → Upto (n.Stored peer) x := by
        intro x hx r h1 hr
        exact (hx r h1 hr).elim (fun hs => hs) fun hr => hstored ⟨_, hmem, hseen⟩ r hr
      apply h.received.setSequence
      split
      · exact hupto latest hlatest
      · exact hupto _ (hrounds _ hmem)
    · exact h.received
  have hmap : Receiver.Sound c { n with received :=
      (if Receiver.latestSeen rounds seen ≠ 0 then n.received.setSequence peer
        (if (rounds.filter (· ∉ seen)).length ≠ 0 then latest
          else Receiver.latestSeen rounds seen) else n.received) } :=
    ⟨h.keys, hreceived, h.copied, h.saved, h.filling⟩
  apply hmap.setFilling
  by_cases hnone : (rounds.filter (· ∉ seen)).length = 0
  · rw [if_pos hnone]
    trivial
  rw [if_neg hnone]
  refine ⟨hcovers latest hlatest, ?_⟩
  intro x hx
  exact hcovers x (hrounds x (mem_of_mem_filter hx))

theorem Receiver.Sound.scan (h : n.Sound c) {since : Nat}
    (hlooked : n.filling peer = .looked since) {keys : List BlockID}
    (hkeys : n.db.Lists peer since keys) :
    (getMissing keys since c.maxBlocks).Covers (n.Stored peer) := by
  have hfilling := h.filling peer
  rw [hlooked] at hfilling
  apply getMissing_covers
  · intro id hid
    obtain ⟨hblock, hnode, _⟩ := (hkeys.mem id).mp hid
    exact ⟨id, hblock, hnode, rfl⟩
  · exact hfilling

/-- **Every step keeps the sequences behind the store**, where answers are complete. -/
theorem Receiver.Sound.step (h : n.Sound c) (hstep : n.Step c (CompleteAnswer c) n') :
    n'.Sound c := by
  cases hstep with
  | receive signed data => exact (h.accept signed data).1
  | own block blockRef graph hstored =>
    have hgrow : ∀ id, (n.db.blocks id).isSome = true →
        ((n.db.setOwnBlock block blockRef graph).blocks id).isSome = true := by
      intro id hid
      show (n.db.blocks.set graph.block block id).isSome = true
      rw [PMap.set_apply]
      split
      · rfl
      · exact hid
    refine h.grow ?_ hgrow
    intro id hid
    apply hgrow
    have hid : (if id ∈ ownIncludes graph then some true else n.db.included id).isSome = true := hid
    split at hid
    next hmem => exact hstored id hmem
    · exact h.keys id hid
  | look peer => exact h.setFilling (h.received peer)
  | missing peer since hlooked keys hkeys =>
    have hscan := h.scan hlooked hkeys
    exact h.setFilling ⟨hscan.latest, hscan.rounds⟩
  | none peer since hlooked keys hkeys hnone =>
    have hlatest := (h.scan hlooked hkeys).latest
    rw [hnone] at hlatest
    apply h.setFilling
    split
    · intro r h1 hr
      exact (hlatest r h1 hr).elim (fun hs => hs) fun hmem => absurd hmem not_mem_nil
    · trivial
  | skip peer latest hfound =>
    have hfilling := h.filling peer
    rw [hfound] at hfilling
    have hmap : Receiver.Sound c { n with received := n.received.setSequence peer latest } :=
      ⟨h.keys, h.received.setSequence hfilling, h.copied, h.saved, h.filling⟩
    exact hmap.setFilling trivial
  | answer peer rounds latest hasking blocks _ hok =>
    have hfilling := h.filling peer
    rw [hasking] at hfilling
    refine h.setFilling ⟨hfilling, ?_⟩
    intro hsome
    rcases hsome with ⟨r, _, hseen⟩ | hanswers
    · cases hseen
    · exact hok rounds latest hasking hanswers
  | read peer rounds latest block blocks seen hreading => exact h.read hreading
  | settle peer rounds latest seen hreading => exact h.settle hreading
  | copy => exact ⟨h.keys, h.received, h.received, h.saved, h.filling⟩
  | save =>
    refine ⟨h.keys, h.received, h.copied, ?_, h.filling⟩
    intro m hm
    cases hm
    exact h.copied
  | restart => exact .load h.keys h.saved

end Sound

/-! ## §6. The result. -/

/-- The received sequence of every peer is behind what is stored. -/
def SequenceStored (n : Receiver) : Prop :=
  ∀ peer r, 1 ≤ r → r ≤ (n.received.get peer).sequence → n.Stored peer r

/-- **The sequence never runs ahead of the store**, in every run whose answers are complete. -/
theorem sequence_stored {c : Config} {n : Receiver} (hrun : ReceiverRun c (CompleteAnswer c) n) :
    SequenceStored n := by
  have hsound : n.Sound c := by
    induction hrun with
    | start =>
      apply Receiver.Sound.load
      · intro id hid
        exact absurd hid (by simp [Db.empty])
      · intro m hm
        cases hm
    | step _ hstep ih => exact ih.step hstep
  exact hsound.received

def blockOfTwo (round : Nat) : SignedData :=
  signBlock pairOne ⟨2, some ⟨pairOne.wire.marshalRef ⟨[], 2, round - 1⟩,
    pairKeys.sign 2 (pairOne.wire.marshalRef ⟨[], 2, round - 1⟩)⟩, [], round, none⟩

def dataOfTwo (round : Nat) : BlockData :=
  let hash := pairOne.wire.hash (blockOfTwo round).data
  ⟨[], ⟨hash, 2, round⟩, if round = 1 then .zero else ⟨[], 2, round - 1⟩,
    ⟨pairOne.wire.marshalRef ⟨hash, 2, round⟩, (blockOfTwo round).signature⟩⟩

theorem blockOfTwo_ok : checkBlock pairOne (blockOfTwo 1) = .ok (dataOfTwo 1) ∧
      checkBlock pairOne (blockOfTwo 2) = .ok (dataOfTwo 2) ∧
      checkBlock pairOne (blockOfTwo 3) = .ok (dataOfTwo 3) ∧
      checkBlock pairOne (blockOfTwo 4) = .ok (dataOfTwo 4) := by
  decide +kernel

theorem Db.setBlock_fresh {db : Db} {id : BlockID} (h : db.included id = none)
    (signed : SignedData) : (db.setBlock id signed).blocks = db.blocks.set id signed := by
  unfold Db.setBlock
  rw [if_neg (by rw [h]; simp)]

def firstAndFourth : Receiver :=
  ((Receiver.load pairOne .empty none).accept (blockOfTwo 1) (dataOfTwo 1)).accept
    (blockOfTwo 4) (dataOfTwo 4)

theorem firstAndFourth_blocks : firstAndFourth.db.blocks =
    (PMap.empty.set (dataOfTwo 1).id (blockOfTwo 1)).set (dataOfTwo 4).id (blockOfTwo 4) := by
  rfl

theorem firstAndFourth_lists : firstAndFourth.db.Lists 2 1 [(dataOfTwo 4).id] := by
  refine ⟨?_, by simp⟩
  intro id
  rw [firstAndFourth_blocks]
  by_cases h4 : id = (dataOfTwo 4).id
  · subst h4
    simp [dataOfTwo]
  by_cases h1 : id = (dataOfTwo 1).id
  · subst h1
    simp [dataOfTwo]
  · simp [h4, h1]

theorem asking_run (ok : Receiver → Nat → List SignedData → Prop) : ReceiverRun pairOne ok
      ((firstAndFourth.setFilling 2 (.looked 1)).setFilling 2 (.asking [2, 3] 4)) := by
  have h1 : ReceiverRun pairOne ok firstAndFourth :=
    (ReceiverRun.start.step (.receive _ _ blockOfTwo_ok.1)).step (.receive _ _ blockOfTwo_ok.2.2.2)
  have h2 := h1.step (.look 2 rfl (by decide +kernel))
  exact h2.step (.missing 2 1 rfl [(dataOfTwo 4).id] firstAndFourth_lists (by decide +kernel))

/-- **An answer that leaves a round out moves the sequence past it**: node 1 asks for rounds 2 and
3, gets round 2, and takes those up to 4 for received. -/
theorem incomplete_answer_skips :
    ¬ ∀ n, ReceiverRun pairOne (fun _ _ _ => True) n → SequenceStored n := by
  intro hall
  have h1 := (asking_run fun _ _ _ => True).step
    (.answer 2 [2, 3] 4 rfl [blockOfTwo 2] (by simp) trivial)
  have h2 := h1.step (.read 2 [2, 3] 4 (blockOfTwo 2) [] [] rfl)
  have h3 := h2.step (.settle 2 [2, 3] 4 [2] rfl)
  obtain ⟨id, hid, _, hround⟩ := hall _ h3 2 3 (by decide) (by decide +kernel)
  have hid : ((firstAndFourth.db.setBlock (dataOfTwo 2).id (blockOfTwo 2)).blocks id).isSome =
    true := hid
  rw [Db.setBlock_fresh (by decide +kernel), firstAndFourth_blocks, PMap.set_apply, PMap.set_apply,
    PMap.set_apply] at hid
  have hne : ∀ k, k ≠ 3 → id ≠ (dataOfTwo k).id := by
    rintro k hk rfl
    exact hk hround
  rw [if_neg (hne 2 (by decide)), if_neg (hne 4 (by decide)), if_neg (hne 1 (by decide))] at hid
  cases hid

/-- With the blocks of both rounds in the answer, the sequence is right. -/
theorem sequence_stored_complete :
    ∃ n, ReceiverRun pairOne (CompleteAnswer pairOne) n ∧ (n.received.get 2).sequence = 3 ∧
      SequenceStored n := by
  have hcomplete : CompleteAnswer pairOne
      ((firstAndFourth.setFilling 2 (.looked 1)).setFilling 2 (.asking [2, 3] 4)) 2
      [blockOfTwo 2, blockOfTwo 3] := by
    intro rounds latest hasking _ r hr
    injection hasking with hrounds _
    subst hrounds
    right
    rcases mem_cons.mp hr with heq | hr
    · exact ⟨blockOfTwo 2, by simp, dataOfTwo 2, blockOfTwo_ok.2.1, rfl, heq.symm⟩
    · exact ⟨blockOfTwo 3, by simp, dataOfTwo 3, blockOfTwo_ok.2.2.1, rfl,
        (mem_singleton.mp hr).symm⟩
  have h1 := (asking_run (CompleteAnswer pairOne)).step
    (.answer 2 [2, 3] 4 rfl [blockOfTwo 2, blockOfTwo 3] (by simp) hcomplete)
  have h2 := h1.step (.read 2 [2, 3] 4 (blockOfTwo 2) [blockOfTwo 3] [] rfl)
  rw [Receiver.read_of_checkBlock blockOfTwo_ok.2.1] at h2
  have h3 := h2.step (.read 2 [2, 3] 4 (blockOfTwo 3) [] [2] rfl)
  rw [Receiver.read_of_checkBlock blockOfTwo_ok.2.2.1] at h3
  have h4 := h3.step (.settle 2 [2, 3] 4 [3, 2] rfl)
  exact ⟨_, h4, by decide +kernel, sequence_stored h4⟩

end Chainspace.Broadcast
