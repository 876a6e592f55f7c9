/-
  Chainspace.Broadcast.Unsent — what a node sends to a peer (`getUnsent`, `maintainBroadcast` and
  `markSent` in `broadcast/broadcast.go`).

  For each peer the node keeps the last round the peer has acknowledged, and sends the own blocks
  after it, as many as fit a payload. It stores whatever number the peer returns: one that the node
  has not reached stops the broadcast to that peer, and the largest `uint64` ends the process.
-/
import Chainspace.Broadcast.Publishing
import Chainspace.Lib.Protobuf
import Chainspace.Network.Conn

namespace Chainspace.Broadcast

open Chainspace.Lib List

/-! ## §1. Acknowledged rounds. -/

def Service.sentTo (n : Service) (peer : Nat) : Nat := (n.sent peer).getD 0

/-- The lookups of the loop of `getUnsent` over `k` rounds from `i` on; one that finds no block ends
the process. -/
def Service.lookups (c : Config) (n : Service) (total i : Nat) : Nat → List (Nat × Bool)
  | 0 => []
  | k + 1 =>
    match n.getOwnBlock i with
    | none => [(i, false)]
    | some (block, n) => (i, true) ::
        if total + block.size > c.maxPayload then [] else n.lookups c (total + block.size) (i + 1) k

def Service.lookupsFor (c : Config) (n : Service) (peer : Nat) : List (Nat × Bool) :=
  let last := (n.sentTo peer + 1) % 2 ^ 64
  if n.round ≥ last then n.lookups c 0 last (n.round + 1 - last) else []

/-- What a run must respect: a peer acknowledges no round that the node has not reached, and rounds
stay below the largest `uint64`. -/
def AckedInput (n : Service) : Input → Prop
  | .markSent _ round => round ≤ n.round
  | .genBlocks => n.round + 2 < 2 ^ 64
  | _ => True

instance (n : Service) : (input : Input) → Decidable (AckedInput n input)
  | .markSent _ round => inferInstanceAs (Decidable (round ≤ n.round))
  | .genBlocks => inferInstanceAs (Decidable (n.round + 2 < 2 ^ 64))
  | .receive _ | .depgraph _ | .addTransaction .. | .getUnsent _ | .handleGetRounds _
  | .handleGetBlocks _ | .writeSentMap | .callback _ | .restart _ => .isTrue trivial

def GenRound (last round : Nat) : Gen → Prop
  | .idle => round = last
  | .built own | .cached own => round = last ∧ own.graph.block.round = last + 1 ∧ last + 2 < 2 ^ 64
  | .stored own => round ≤ last ∧ own.graph.block.round = last

structure Complete (n : Service) : Prop where
  bound : n.db.lastRound + 1 < 2 ^ 64
  gen : GenRound n.db.lastRound n.round n.gen
  own : ∀ r, 1 ≤ r → r ≤ n.db.lastRound → (n.db.ownBlocks r).isSome = true

section Acked
variable {c : Config} {n n' : Service} {input : Input}

theorem Complete.round (h : Complete n) : n.round ≤ n.db.lastRound := by
  have hgen := h.gen
  cases hg : n.gen with
  | idle =>
    rw [hg] at hgen
    exact Nat.le_of_eq hgen
  | built | cached =>
    rw [hg] at hgen
    exact Nat.le_of_eq hgen.1
  | stored =>
    rw [hg] at hgen
    exact hgen.1

/-- One step: the database stays complete, and the round does not go back. -/
theorem Complete.step (h : Complete n) (hok : AckedInput n input)
    (hstep : n.step c input = some n') : Complete n' ∧ n.round ≤ n'.round := by
  have hgen := h.gen
  have hround := h.round
  cases Service.step_cases hstep with
  | same => exact ⟨h, Nat.le_refl _⟩
  | receive signed data =>
    obtain ⟨included, notIncluded, blocks, heq, _⟩ := n.db.setBlock_eq data.id signed
    rw [heq]
    exact ⟨⟨h.bound, hgen, h.own⟩, Nat.le_refl _⟩
  | depgraph | aside | blocks => exact ⟨⟨h.bound, hgen, h.own⟩, Nat.le_refl _⟩
  | build hidle =>
    rw [hidle] at hgen
    have hnext : n.round + 2 < 2 ^ 64 := hok
    have hidle : n.round = n.db.lastRound := hgen
    have hnew : (n.round + 1) % 2 ^ 64 = n.db.lastRound + 1 := by omega
    have hroom : n.db.lastRound + 2 < 2 ^ 64 := by omega
    exact ⟨⟨h.bound, ⟨hgen, hnew, hroom⟩, h.own⟩, Nat.le_refl _⟩
  | cache own hbuilt =>
    rw [hbuilt] at hgen
    exact ⟨⟨h.bound, hgen, h.own⟩, Nat.le_refl _⟩
  | store own hcached =>
    rw [hcached] at hgen
    obtain ⟨heq, hnew, _⟩ := hgen
    have hlast : (n.db.setOwnBlock own.signed own.blockRef own.graph).lastRound =
        n.db.lastRound + 1 := hnew
    refine ⟨⟨by rw [hlast]; omega, ?_, ?_⟩, Nat.le_refl _⟩
    · have hle : n.round ≤ n.db.lastRound + 1 := by omega
      rw [hlast]
      exact ⟨hle, hnew⟩
    intro r hr hle
    rw [hlast] at hle
    show (n.db.ownBlocks.set own.graph.block.round own.signed r).isSome = true
    rw [hnew]
    by_cases heq : r = n.db.lastRound + 1
    · rw [heq, PMap.set_self]
      rfl
    · rw [PMap.set_ne _ _ heq]
      exact h.own r hr (by omega)
  | finish own hstored =>
    rw [hstored] at hgen
    exact ⟨⟨h.bound, hgen.2, h.own⟩, by rw [← hgen.2] at hround; exact hround⟩
  | own _ blocks n1 hserved =>
    rw [hserved.others]
    exact ⟨⟨h.bound, hgen, h.own⟩, Nat.le_refl _⟩
  | restart order n' _ hstart =>
    obtain ⟨blocks, _, hstart⟩ := Option.bind_eq_some_iff.mp hstart
    cases hstart
    exact ⟨⟨h.bound, rfl, h.own⟩, hround⟩

/-- The rounds of the peers are at most the node's own, in memory and in the database. -/
structure SentBelow (n : Service) : Prop where
  sent : ∀ peer, n.sentTo peer ≤ n.round
  stored : ∀ sent, n.db.sent = some sent → ∀ peer, (sent peer).getD 0 ≤ n.round

theorem SentBelow.step (h : SentBelow n) (hround : n.round ≤ n'.round) (hok : AckedInput n input)
    (hstep : n.step c input = some n') : SentBelow n' := by
  have hkeep : n'.sent = n.sent → n'.db.sent = n.db.sent → SentBelow n' := by
    intro hsent hstored
    constructor
    · intro peer
      unfold Service.sentTo
      rw [hsent]
      exact Nat.le_trans (h.sent peer) hround
    intro sent hs peer
    rw [hstored] at hs
    exact Nat.le_trans (h.stored sent hs peer) hround
  cases Service.touches hstep with
  | none _ _ _ hsent hstored | addTransaction _ _ _ _ hsent hstored => exact hkeep hsent hstored
  | markSent peer round =>
    refine ⟨?_, h.stored⟩
    intro other
    show (n.sent.set peer round other).getD 0 ≤ n.round
    by_cases heq : other = peer
    · rw [heq, PMap.set_self]
      exact hok
    · rw [PMap.set_ne _ _ heq]
      exact h.sent other
  | writeSentMap =>
    refine ⟨h.sent, ?_⟩
    intro sent hs peer
    cases hs
    exact h.sent peer
  | restart order _ hstart =>
    obtain ⟨blocks, _, hstart⟩ := Option.bind_eq_some_iff.mp hstart
    cases hstart
    constructor
    · intro peer
      refine Nat.le_trans ?_ hround
      cases hs : n.db.sent with
      | some sent => exact h.stored sent hs peer
      | none =>
        show (if peer ∈ c.peers then some 0 else none : Option Nat).getD 0 ≤ n.round
        split
        all_goals exact Nat.zero_le _
    · intro sent hs peer
      exact Nat.le_trans (h.stored sent hs peer) hround

theorem ServiceRun.acked (hrun : ServiceRun c AckedInput n) : Complete n ∧ SentBelow n := by
  induction hrun with
  | start =>
    refine ⟨⟨by show 0 + 1 < 2 ^ 64; decide, rfl, ?_⟩, ?_, ?_⟩
    · intro r hr hle
      exact absurd hr (Nat.not_le_of_lt (Nat.lt_succ_of_le hle))
    · intro peer
      show (if peer ∈ c.peers then some 0 else none : Option Nat).getD 0 ≤ 0
      split
      all_goals exact Nat.le_refl 0
    · intro sent hs
      cases hs
  | step _ hok hstep ih =>
    obtain ⟨hcomplete, hround⟩ := ih.1.step hok hstep
    exact ⟨hcomplete, ih.2.step hround hok hstep⟩

def Service.own (n : Service) (round : Nat) : Option SignedData :=
  (n.ownBlocks.get round).or (n.db.ownBlocks round)

theorem getOwnBlock_eq {round : Nat} {block : SignedData} (h : n.own round = some block) :
    ∃ n', n.getOwnBlock round = some (block, n') ∧ n'.own = n.own := by
  unfold Service.own at h
  unfold Service.getOwnBlock
  cases hcache : n.ownBlocks.get round with
  | some =>
    rw [hcache] at h
    cases h
    exact ⟨n, rfl, rfl⟩
  | none =>
    rw [hcache] at h
    have hdb : n.db.ownBlocks round = some block := h
    rw [hdb]
    refine ⟨_, rfl, funext fun r => ?_⟩
    unfold Service.own
    rw [OwnBlocks.get_set]
    split
    next heq =>
      rw [heq, hcache, hdb]
      rfl
    · rfl

/-- **The loop goes on to its end exactly when each lookup finds a block**, unless the first block
is too large. -/
theorem unsent_isSome_iff {first : Bool} {total i k : Nat} :
    (n.unsent c first total i k).isSome = true ↔ (∀ q ∈ n.lookups c total i k, q.2 = true) ∧
      (first = true → 0 < k → ∀ block n', n.getOwnBlock i = some (block, n') →
        total + block.size ≤ c.maxPayload) := by
  induction k generalizing n first total i with
  | zero => simp [Service.unsent, Service.lookups]
  | succ k ih =>
    unfold Service.unsent Service.lookups
    cases hget : n.getOwnBlock i with
    | none => simp
    | some found =>
      obtain ⟨block, n1⟩ := found
      dsimp only
      split
      next hbig =>
        cases first with
        | true => simp [hbig]
        | false => simp
      next hfits =>
        have hrest : ((n1.unsent c false (total + block.size) (i + 1) k).bind fun r =>
            some (block :: r.1, r.2)).isSome = true ↔
            ∀ q ∈ n1.lookups c (total + block.size) (i + 1) k, q.2 = true := by
          have hiff := @ih n1 false (total + block.size) (i + 1)
          simp only [Bool.false_eq_true, false_implies, and_true] at hiff
          rw [← hiff]
          cases n1.unsent c false (total + block.size) (i + 1) k with
          | none | some => simp
        simp [hrest, Nat.le_of_not_lt hfits]

theorem lookups_found {total i k : Nat} (h : ∀ r, i ≤ r → r < i + k → (n.own r).isSome = true) :
    ∀ q ∈ n.lookups c total i k, i ≤ q.1 ∧ q.1 < i + k ∧ q.2 = true := by
  induction k generalizing n total i with
  | zero =>
    intro q hq
    cases hq
  | succ k ih =>
    obtain ⟨block, hblock⟩ := Option.isSome_iff_exists.mp (h i (Nat.le_refl i) (by omega))
    obtain ⟨n', hget, hown⟩ := getOwnBlock_eq hblock
    intro q hq
    unfold Service.lookups at hq
    rw [hget] at hq
    rcases mem_cons.mp hq with heq | hq
    · rw [heq]
      exact ⟨Nat.le_refl i, by omega, rfl⟩
    split at hq
    · cases hq
    · have hrest := ih (fun r hr hlt => by rw [hown]; exact h r (by omega) (by omega)) q hq
      exact ⟨by omega, by omega, hrest.2.2⟩

/-- **No acknowledgement derails the sender**, in every run in which peers acknowledge no round that
the node has not reached: `getUnsent` looks up only own rounds from 1 to the last one and finds
them, and no peer is said to have a later round. -/
theorem acknowledged_rounds_found (hrun : ServiceRun c AckedInput n) (peer : Nat) :
    n.sentTo peer ≤ n.round ∧ ∀ q ∈ n.lookupsFor c peer, 1 ≤ q.1 ∧ q.1 ≤ n.round ∧ q.2 = true := by
  obtain ⟨hcomplete, hsent⟩ := hrun.acked
  have hle := hsent.sent peer
  have hround := hcomplete.round
  have hbound := hcomplete.bound
  refine ⟨hle, ?_⟩
  intro q hq
  unfold Service.lookupsFor at hq
  dsimp only at hq
  rw [Nat.mod_eq_of_lt (by omega)] at hq
  split at hq
  · have hfound := lookups_found (fun r hr hlt => by
      unfold Service.own
      rw [Option.isSome_or, hcomplete.own r (by omega) (by omega), Bool.or_true]) q hq
    exact ⟨by omega, by omega, hfound.2.2⟩
  · cases hq

end Acked

/-- The steps of `genBlocks` for `rounds` own blocks. -/
def ownRounds (rounds : Nat) : List Input := List.replicate (4 * rounds) .genBlocks

/-- A peer acknowledges the largest round there is: the node looks up round 0 and gives up. -/
theorem acknowledgement_ends_process : (Service.stepWhile pairOne (fun _ _ => true) (.new pairOne)
        (ownRounds 1 ++ [.markSent 2 (2 ^ 64 - 1)])).map (fun n =>
          (n.round, n.sentTo 2, n.lookupsFor pairOne 2, (n.getUnsent pairOne 2).isNone)) =
      some (1, 2 ^ 64 - 1, [(0, false)], true) := by
  rfl

/-- Of three rounds the peer acknowledges the first: the node looks up the other two. -/
theorem acknowledged_rounds_found_three : ∃ n, ServiceRun pairOne AckedInput n ∧ n.round = 3 ∧
    n.lookupsFor pairOne 2 = [(2, true), (3, true)] ∧ n.sentTo 2 ≤ n.round ∧
      ∀ q ∈ n.lookupsFor pairOne 2, 1 ≤ q.1 ∧ q.1 ≤ n.round ∧ q.2 = true := by
  obtain ⟨n, hrun, hround, hlookups⟩ := ServiceRun.exists_of_stepWhile pairOne
    (fun n input => AckedInput n input) (ownRounds 1 ++ [.markSent 2 1] ++ ownRounds 2)
    (fun _ _ => of_decide_eq_true)
    (P := fun n => n.round = 3 ∧ n.lookupsFor pairOne 2 = [(2, true), (3, true)])
    (by decide +kernel)
  exact ⟨n, hrun, hround, hlookups, acknowledged_rounds_found hrun 2⟩

/-! ## §2. Batches. -/

def accounted (blocks : List SignedData) : Nat := (blocks.map SignedData.size).sum

/-- The blocks are the own ones of `m` rounds from `i` on: all of the `k` rounds, or as many as the
limit admits. -/
structure Batch (c : Config) (own : Nat → Option SignedData) (total i k : Nat)
    (blocks : List SignedData) : Prop where
  few : blocks.length ≤ k
  rounds : blocks.map some = (List.range' i blocks.length).map own
  fits : total + accounted blocks ≤ c.maxPayload
  most : blocks.length = k ∨ ∀ b, own (i + blocks.length) = some b →
    c.maxPayload < total + accounted blocks + b.size

section Batches
variable {c : Config} {n : Service}

/-- **The loop of `getUnsent` takes as many blocks as fit**, and at least the first. -/
theorem unsent_batch (n : Service) (first : Bool) (total i k : Nat) (htotal : total ≤ c.maxPayload)
    (hown : ∀ r, i ≤ r → r < i + k → ∃ b, n.own r = some b)
    (hfirst : first = true → ∀ b, n.own i = some b → total + b.size ≤ c.maxPayload) :
    ∃ blocks n', n.unsent c first total i k = some (blocks, n') ∧
      Batch c n.own total i k blocks ∧ (first = true → 0 < k → blocks ≠ []) := by
  induction k generalizing n first total i with
  | zero =>
    exact ⟨[], n, rfl, ⟨Nat.le_refl 0, rfl, htotal, .inl rfl⟩, fun _ h => absurd h (by simp)⟩
  | succ k ih =>
    obtain ⟨block, hblock⟩ := hown i (Nat.le_refl i) (by omega)
    obtain ⟨n1, hget, hsame⟩ := getOwnBlock_eq hblock
    unfold Service.unsent
    rw [hget]
    dsimp only
    by_cases hbig : total + block.size > c.maxPayload
    · -- the block stays behind, and it is not the first
      rw [if_pos hbig]
      cases first with
      | true => exact absurd (hfirst rfl block hblock) (by omega)
      | false =>
        refine ⟨[], n1, rfl, ⟨Nat.zero_le _, rfl, htotal, .inr ?_⟩, by simp⟩
        intro b hb
        rw [length_nil, Nat.add_zero, hblock] at hb
        cases hb
        exact hbig
    rw [if_neg hbig]
    obtain ⟨blocks, n2, hrest, hbatch, _⟩ := ih n1 false (total + block.size) (i + 1)
      (by omega) (by rw [hsame]; exact fun r hr hlt => hown r (by omega) (by omega)) (by simp)
    rw [hsame] at hbatch
    refine ⟨block :: blocks, n2, by rw [hrest]; rfl, ?_, by simp⟩
    have hsum : accounted (block :: blocks) = block.size + accounted blocks := sum_cons
    have hfits := hbatch.fits
    refine ⟨Nat.succ_le_succ hbatch.few, ?_, by omega, ?_⟩
    · rw [map_cons, hbatch.rounds, length_cons, range'_succ, map_cons, hblock]
    rcases hbatch.most with hall | hmost
    · exact .inl (by rw [length_cons, hall])
    refine .inr ?_
    intro b hb
    rw [length_cons, show i + (blocks.length + 1) = i + 1 + blocks.length by omega] at hb
    have hlarge := hmost b hb
    omega

/-! ## §3. Encoding. -/

def SignedData.marshal (s : SignedData) : Bytes :=
  Protobuf.bytesField 1 s.data ++ Protobuf.bytesField 2 s.signature

def marshalListBlocks (blocks : List SignedData) : Bytes :=
  blocks.flatMap fun b => Protobuf.messageField 1 b.marshal

/-- A `service.Message` in protobuf; `opcode` is not negative. -/
def marshalMessage (id : Nat) (error : Bytes) (opcode : Nat) (payload : Bytes) : Bytes :=
  Protobuf.uintField 1 id ++ Protobuf.bytesField 2 error ++ Protobuf.uintField 3 opcode ++
    Protobuf.bytesField 4 payload

/-- What `maintainBroadcast` writes: a message with `OP_BROADCAST`. -/
def broadcastPayload (blocks : List SignedData) : Bytes :=
  marshalMessage 0 [] 2 (marshalListBlocks blocks)

theorem length_marshalListBlocks {blocks : List SignedData} (h : accounted blocks < 2 ^ 63) :
    (marshalListBlocks blocks).length + 67 * blocks.length ≤ accounted blocks := by
  induction blocks with
  | nil => exact Nat.le_refl 0
  | cons b blocks =>
    have hsum : accounted (b :: blocks) = b.size + accounted blocks := sum_cons
    have hsize : b.size = b.data.length + b.signature.length + 100 := rfl
    have hdata : (Protobuf.bytesField 1 b.data).length ≤ 11 + b.data.length :=
      Protobuf.length_bytesField_le (by omega) (by omega)
    have hsig : (Protobuf.bytesField 2 b.signature).length ≤ 11 + b.signature.length :=
      Protobuf.length_bytesField_le (by omega) (by omega)
    have hboth : b.marshal.length =
      (Protobuf.bytesField 1 b.data).length + (Protobuf.bytesField 2 b.signature).length :=
      length_append
    have hblock : (Protobuf.messageField 1 b.marshal).length ≤ 11 + b.marshal.length :=
      Protobuf.length_messageField_le (by omega) (by omega)
    have hlist : (marshalListBlocks (b :: blocks)).length =
        (Protobuf.messageField 1 b.marshal).length + (marshalListBlocks blocks).length :=
      length_append
    rw [length_cons]
    omega

theorem length_broadcastPayload {blocks : List SignedData} (hne : blocks ≠ [])
    (h : accounted blocks < 2 ^ 63) : (broadcastPayload blocks).length ≤ accounted blocks := by
  have hlist := length_marshalListBlocks h
  have hpos := length_pos_iff.mpr hne
  have hop : (Protobuf.uintField 3 2).length ≤ 11 :=
    Protobuf.length_uintField_le (by omega) (by omega)
  have hpayload : (Protobuf.bytesField 4 (marshalListBlocks blocks)).length ≤
      11 + (marshalListBlocks blocks).length :=
    Protobuf.length_bytesField_le (by omega) (by omega)
  have hsum : (broadcastPayload blocks).length = (Protobuf.uintField 3 2).length +
      (Protobuf.bytesField 4 (marshalListBlocks blocks)).length := length_append
  omega

/-- **Batches are contiguous, not empty, and fit the payload limit.** For a peer that lacks rounds,
each of which fits alone, `getUnsent` returns the own blocks of the rounds after the acknowledged
one, in order, as many as the limit admits; the message with them is written. -/
theorem getUnsent_batch (peer : Nat) (hmax : c.maxPayload < 2 ^ 63) (hround : n.round < 2 ^ 64)
    (hsent : n.sentTo peer < n.round)
    (hown : ∀ r, n.sentTo peer < r → r ≤ n.round → ∃ b, n.own r = some b ∧
      b.data.length + b.signature.length + 100 ≤ c.maxPayload) :
    ∃ (blocks : List SignedData) (n' : Service),
      n.getUnsent c peer = some (n'.publish blocks) ∧ n'.published = n.published ∧
      blocks ≠ [] ∧ n.sentTo peer + blocks.length ≤ n.round ∧
      blocks.map some = (List.range' (n.sentTo peer + 1) blocks.length).map n.own ∧
      accounted blocks ≤ c.maxPayload ∧
      (n.sentTo peer + blocks.length = n.round ∨
        ∀ b, n.own (n.sentTo peer + 1 + blocks.length) = some b →
          c.maxPayload < accounted blocks + b.size) ∧
      (broadcastPayload blocks).length ≤ c.maxPayload ∧
      ∀ conn : Network.Conn, (conn.writePayload c.maxPayload (broadcastPayload blocks)).call =
        .writeHeader 0 (broadcastPayload blocks) := by
  have hlast : (n.sentTo peer + 1) % 2 ^ 64 = n.sentTo peer + 1 := Nat.mod_eq_of_lt (by omega)
  obtain ⟨blocks, n', hunsent, hbatch, hne⟩ := unsent_batch (c := c) n true 0
    (n.sentTo peer + 1) (n.round - n.sentTo peer) (Nat.zero_le _)
    (fun r hr hlt => (hown r (by omega) (by omega)).imp fun _ hb => hb.1)
    (by
      intro _ b hb
      obtain ⟨b', hb', hsize⟩ := hown (n.sentTo peer + 1) (by omega) (by omega)
      rw [hb] at hb'
      cases hb'
      rw [Nat.zero_add]
      exact hsize)
  have hne := hne rfl (by omega)
  have hfits := hbatch.fits
  have hfew := hbatch.few
  rw [Nat.zero_add] at hfits
  have hsize := length_broadcastPayload hne (by omega)
  refine ⟨blocks, n', ?_, ?_, hne, by omega, hbatch.rounds, hfits, ?_, by omega, ?_⟩
  · show (if n.round ≥ (n.sentTo peer + 1) % 2 ^ 64 then
      (n.unsent c true 0 ((n.sentTo peer + 1) % 2 ^ 64)
        (n.round + 1 - (n.sentTo peer + 1) % 2 ^ 64)).bind _ else none) = _
    rw [hlast, if_pos (by omega), Nat.add_sub_add_right, hunsent]
    rfl
  · rw [(Service.unsent_served hunsent).others]
  · rcases hbatch.most with _ | hmost
    · exact .inl (by omega)
    refine .inr ?_
    intro b hb
    have hlarge := hmost b hb
    omega
  · intro conn
    unfold Network.Conn.writePayload
    rw [if_neg (by omega)]

end Batches

/-- Of three blocks the first two go to the peer: with the third the payload would be too large. -/
theorem getUnsent_batch_three : ∃ n, Service.stepWhile pairOne (fun _ _ => true) (.new pairOne)
      (ownRounds 3) = some n ∧ n.round = 3 ∧ ∃ blocks n',
    n.getUnsent pairOne 2 = some (Service.publish n' blocks) ∧ blocks.length = 2 ∧
      (broadcastPayload blocks).length ≤ pairOne.maxPayload := by
  refine exists_of_any (P := fun n => n.round = 3 ∧ n.sentTo 2 = 0 ∧ n.published = [] ∧
    (n.getUnsent pairOne 2).map (fun n => n.published.length) = some 2 ∧
    ∀ r < 4, 0 < r → ∃ b ∈ n.own r,
      b.data.length + b.signature.length + 100 ≤ pairOne.maxPayload) (by decide +kernel) ?_
  rintro n _ ⟨hround, hsent, hpub, htwo, hown⟩
  obtain ⟨blocks, n', hget, hsame, _, _, _, _, _, hfits, _⟩ := getUnsent_batch (c := pairOne)
    (n := n) 2 (by decide) (by omega) (by omega) (fun r hr hle => hown r (by omega) (by omega))
  refine ⟨hround, blocks, n', hget, ?_, hfits⟩
  rw [hget] at htwo
  have hlen : (blocks ++ n'.published).length = 2 := Option.some.inj htwo
  rwa [hsame, hpub, append_nil] at hlen

end Chainspace.Broadcast
