/-
  Chainspace.Broadcast.Publishing — does a node ever publish two blocks for one round?

  It can: `setOwnBlock` puts a new block into the cache before it writes it to the database, and
  `handleGetRounds` answers from the cache for whatever round a peer names. A peer that asks for the
  round in progress gets a block that a crash can still undo; after the restart the node makes
  another one. If no block that has left the node is lost in a crash, one block per round leaves it.
-/
import Chainspace.Broadcast.Service

namespace Chainspace.Broadcast

open Chainspace.Lib Chainspace.Blockmania

/-! ## §1. The property and the condition. -/

def authoredRound (c : Config) (signed : SignedData) : Option Nat :=
  match c.wire.unmarshalBlock signed.data with
  | none => none
  | some block => if block.node = c.nodeID then some block.round else none

/-- The peers got at most one of the node's own blocks for each round. -/
def OneBlockPerRound (c : Config) (n : Service) : Prop :=
  ∀ b ∈ n.published, ∀ b' ∈ n.published, ∀ r,
    authoredRound c b = some r → authoredRound c b' = some r → b = b'

/-- What a run must respect: a crash undoes no block that has left the node; peers show it only such
blocks of its own; the round counter does not wrap. -/
structure DurableInput (c : Config) (n : Service) (input : Input) : Prop where
  crash : ∀ order own, input = .restart order → n.gen = .cached own → own.signed ∉ n.published
  echo : ∀ signed data, input = .receive signed → checkBlock c signed = .ok data →
    data.id.node = c.nodeID → signed ∈ n.published
  rounds : input = .genBlocks → n.gen = .idle → n.round + 1 < 2 ^ 64

/-! ## §2. What is on record. -/

def Db.lastRound (db : Db) : Nat := (db.last.map LastRound.round).getD 0

def GenOk (c : Config) (db : Db) (round : Nat) : Gen → Prop
  | .idle => round = db.lastRound
  | .built own | .cached own =>
    round = db.lastRound ∧ own.graph.block.round = db.lastRound + 1 ∧
      authoredRound c own.signed = some (db.lastRound + 1)
  | .stored own =>
    own.graph.block.round = db.lastRound ∧ db.ownBlocks db.lastRound = some own.signed

def InFlight (n : Service) (b : SignedData) : Prop :=
  ∃ own, n.gen = .cached own ∧ own.signed = b

/-- What the node could return is in the database, or is the block being recorded. -/
structure Recorded (c : Config) (n : Service) : Prop where
  own : ∀ r b, n.db.ownBlocks r = some b → authoredRound c b = some r ∧ r ≤ n.db.lastRound
  gen : GenOk c n.db n.round n.gen
  cache : ∀ r b, n.ownBlocks.get r = some b →
    n.db.ownBlocks r = some b ∨ InFlight n b ∧ r = n.db.lastRound + 1
  published : ∀ b ∈ n.published, ∀ r, authoredRound c b = some r →
    n.db.ownBlocks r = some b ∨ InFlight n b
  blocks : ∀ id b, n.db.blocks id = some b → ∀ r, authoredRound c b = some r →
    n.db.ownBlocks r = some b ∨ b ∈ n.published

section Invariant
variable {c : Config} {n n' : Service} {input : Input}

theorem authoredRound_eq {signed : SignedData} {block : Block}
    (h : c.wire.unmarshalBlock signed.data = some block) :
    authoredRound c signed = if block.node = c.nodeID then some block.round else none := by
  unfold authoredRound
  rw [h]

theorem not_inFlight {gen : Gen} (hgen : n.gen = gen) (hne : ∀ own, gen ≠ .cached own)
    (b : SignedData) : ¬ InFlight n b := by
  intro h
  obtain ⟨own, hcached, _⟩ := h
  exact hne own (hgen ▸ hcached)

theorem GenOk.congr {db db' : Db} {round : Nat} {gen : Gen} (h : GenOk c db round gen)
    (hlast : db'.last = db.last) (hown : db'.ownBlocks = db.ownBlocks) :
    GenOk c db' round gen := by
  have heq : db'.lastRound = db.lastRound := by
    unfold Db.lastRound
    rw [hlast]
  cases gen with
  | idle | built | cached =>
    simp only [GenOk, heq] at h ⊢
    exact h
  | stored =>
    simp only [GenOk, heq, hown] at h ⊢
    exact h

theorem Recorded.inFlight (h : Recorded c n) {b : SignedData} (hb : InFlight n b) :
    authoredRound c b = some (n.db.lastRound + 1) := by
  obtain ⟨own, hgen, hsigned⟩ := hb
  have hg := h.gen
  rw [hgen] at hg
  exact hsigned ▸ hg.2.2

theorem Recorded.oneBlockPerRound (h : Recorded c n) : OneBlockPerRound c n := by
  intro b hb b' hb' r hr hr'
  rcases h.published b hb r hr with hdb | hfly
  · rcases h.published b' hb' r hr' with hdb' | hfly'
    · rw [hdb] at hdb'
      injection hdb'
    have hlast := h.inFlight hfly'
    rw [hr'] at hlast
    injection hlast with hlast
    have hle := (h.own r b hdb).2
    omega
  have hlast := h.inFlight hfly
  rw [hr] at hlast
  injection hlast with hlast
  rcases h.published b' hb' r hr' with hdb' | hfly'
  · have hle := (h.own r b' hdb').2
    omega
  obtain ⟨own, hgen, heq⟩ := hfly
  obtain ⟨own', hgen', heq'⟩ := hfly'
  rw [hgen] at hgen'
  injection hgen' with hgen'
  rw [← heq, ← heq', hgen']

theorem recorded_new (c : Config) : Recorded c (.new c) where
  own := fun _ _ h => absurd h (by simp [Service.new, Db.empty])
  gen := rfl
  cache := fun _ _ h => absurd h (by simp [Service.new, OwnBlocks.empty, OwnBlocks.get])
  published := fun _ h => absurd h (by simp [Service.new])
  blocks := fun _ _ h => absurd h (by simp [Service.new, Db.empty])

/-- A received block changes neither the own blocks nor the rounds on record. -/
theorem Db.setBlock_eq (db : Db) (id : BlockID) (signed : SignedData) :
    ∃ included notIncluded blocks, db.setBlock id signed =
        { db with included := included, notIncluded := notIncluded, blocks := blocks } ∧
      ∀ id' b, blocks id' = some b → db.blocks id' = some b ∨ b = signed := by
  unfold Db.setBlock
  split
  · exact ⟨db.included, db.notIncluded, db.blocks, rfl, fun _ _ h => .inl h⟩
  refine ⟨_, _, _, rfl, ?_⟩
  intro id' b hb
  rcases PMap.of_set hb with ⟨_, hb⟩ | ⟨_, hb⟩
  · exact .inr hb.symm
  · exact .inl hb

theorem ownBlock_authored (n : Service) (refs : List BlockData) :
    (n.ownBlock c refs).graph.block.round = (n.round + 1) % 2 ^ 64 ∧
      authoredRound c (n.ownBlock c refs).signed = some ((n.round + 1) % 2 ^ 64) := by
  refine ⟨rfl, ?_⟩
  rw [authoredRound_eq (n.ownBlock_decoded c refs)]
  exact if_pos rfl

section
variable (h : Recorded c n)
include h

theorem Recorded.receive {signed : SignedData} {data : BlockData}
    (hok : DurableInput c n (.receive signed)) (hdata : checkBlock c signed = .ok data) :
    Recorded c { n with
      db := n.db.setBlock data.id signed
      depgraph := n.depgraph.add data } := by
  obtain ⟨included, notIncluded, blocks, heq, hblocks⟩ := n.db.setBlock_eq data.id signed
  rw [heq]
  refine ⟨h.own, h.gen.congr rfl rfl, h.cache, h.published, ?_⟩
  intro id b hb r hr
  rcases hblocks id b hb with hb | hb
  · exact h.blocks id b hb r hr
  -- A block in the node's own name has left the node before.
  subst hb
  obtain ⟨block, key, hadm⟩ := checkBlock_iff.mp hdata
  rw [authoredRound_eq hadm.decoded] at hr
  split at hr
  next hnode => exact .inr (hok.echo b data rfl hdata (by rw [hadm.node, hnode]))
  · cases hr

theorem Recorded.build (hok : DurableInput c n .genBlocks)
    (hgen : n.gen = .idle) : Recorded c (n.build c) := by
  have hg := h.gen
  rw [hgen] at hg
  have hround : n.round = n.db.lastRound := hg
  have hlt := hok.rounds rfl hgen
  have hnone := not_inFlight hgen (fun _ => by simp)
  obtain ⟨hr, ha⟩ := ownBlock_authored (c := c) n (n.depgraph.getBlocks c.refSizeLimit).1
  rw [Nat.mod_eq_of_lt hlt, hround] at hr ha
  refine ⟨h.own, ⟨hround, hr, ha⟩, ?_, ?_, h.blocks⟩
  · intro r b hb
    exact .inl ((h.cache r b hb).resolve_right (fun hin => hnone b hin.1))
  · intro b hb r hr
    exact .inl ((h.published b hb r hr).resolve_right (hnone b))

theorem Recorded.cacheOwn {own : OwnBlock} (hgen : n.gen = .built own) :
    Recorded c { n with
      ownBlocks := n.ownBlocks.set own.graph.block.round own.signed
      gen := .cached own } := by
  have hg := h.gen
  rw [hgen] at hg
  have hnone := not_inFlight hgen (fun _ => by simp)
  refine ⟨h.own, hg, ?_, ?_, h.blocks⟩
  · intro r b hb
    rw [OwnBlocks.get_set] at hb
    split at hb
    next hr =>
      injection hb with hb
      exact .inr ⟨⟨own, rfl, hb⟩, by rw [hr]; exact hg.2.1⟩
    · exact .inl ((h.cache r b hb).resolve_right (fun hin => hnone b hin.1))
  · intro b hb r hr
    exact .inl ((h.published b hb r hr).resolve_right (hnone b))

theorem Recorded.store {own : OwnBlock} (hgen : n.gen = .cached own) :
    Recorded c { n with
      db := n.db.setOwnBlock own.signed own.blockRef own.graph
      gen := .stored own } := by
  have hg := h.gen
  rw [hgen] at hg
  obtain ⟨_, hround, hauth⟩ := hg
  have hlast : (n.db.setOwnBlock own.signed own.blockRef own.graph).lastRound =
      n.db.lastRound + 1 := hround
  -- What was on record stays there, since the new round has no block yet.
  have hkeep : ∀ r b, n.db.ownBlocks r = some b →
      n.db.ownBlocks.set own.graph.block.round own.signed r = some b := by
    intro r b hb
    have hle := (h.own r b hb).2
    rw [PMap.set_ne _ _ (by omega)]
    exact hb
  have hnew : n.db.ownBlocks.set own.graph.block.round own.signed (n.db.lastRound + 1) =
      some own.signed := by
    rw [hround, PMap.set_self]
  have hfly : ∀ r b, authoredRound c b = some r → n.db.ownBlocks r = some b ∨ InFlight n b →
      n.db.ownBlocks.set own.graph.block.round own.signed r = some b := by
    intro r b hr hb
    rcases hb with hb | ⟨own', hcached, hsigned⟩
    · exact hkeep r b hb
    rw [hgen] at hcached
    injection hcached with hcached
    rw [← hsigned, ← hcached, hauth] at hr
    injection hr with hr
    rw [← hr, ← hsigned, ← hcached]
    exact hnew
  refine ⟨?_, ⟨?_, ?_⟩, ?_, ?_, ?_⟩
  · intro r b hb
    rw [hlast]
    rcases PMap.of_set hb with ⟨hr, hb⟩ | ⟨_, hb⟩
    · rw [← hb, hr, hround]
      exact ⟨hauth, Nat.le_refl _⟩
    · have := h.own r b hb
      exact ⟨this.1, by omega⟩
  · rw [hlast]
    exact hround
  · rw [hlast]
    exact hnew
  · intro r b hb
    rcases h.cache r b hb with hdb | ⟨hin, hr⟩
    · exact .inl (hkeep r b hdb)
    · exact .inl (hfly r b (by rw [h.inFlight hin, hr]) (.inr hin))
  · intro b hb r hr
    exact .inl (hfly r b hr (h.published b hb r hr))
  intro id b hb r hr
  rcases PMap.of_set hb with ⟨_, hb⟩ | ⟨_, hb⟩
  · exact .inl (hfly r b hr (.inr ⟨own, hgen, hb⟩))
  rcases h.blocks id b hb r hr with hdb | hpub
  · exact .inl (hkeep r b hdb)
  · exact .inr hpub

theorem Recorded.finish {own : OwnBlock} (hgen : n.gen = .stored own) :
    Recorded c (n.finish own) := by
  have hg := h.gen
  rw [hgen] at hg
  have hnone := not_inFlight hgen (fun _ => by simp)
  refine ⟨h.own, hg.1, ?_, ?_, h.blocks⟩
  · intro r b hb
    have hb : n.ownBlocks.get r = some b := by
      have hb : (if own.graph.block.round % 50 = 0 then n.ownBlocks.prune 50
        else n.ownBlocks).get r = some b := hb
      split at hb
      · exact OwnBlocks.of_get_prune hb
      · exact hb
    exact .inl ((h.cache r b hb).resolve_right (fun hin => hnone b hin.1))
  · intro b hb r hr
    exact .inl ((h.published b hb r hr).resolve_right (hnone b))

theorem Recorded.serve {blocks : List SignedData} (hs : Served n blocks n') :
    Recorded c (n'.publish blocks) := by
  rw [hs.others]
  refine ⟨h.own, h.gen, ?_, ?_, ?_⟩
  · intro r b hb
    rcases hs.cache r b hb with hb | hb
    · exact h.cache r b hb
    · exact .inl hb
  · intro b hb r hr
    rcases List.mem_append.mp hb with hb | hb
    · obtain ⟨r', hb | hb⟩ := hs.blocks b hb
      · rcases h.cache r' b hb with hdb | ⟨hin, _⟩
        · have hr' := (h.own r' b hdb).1
          rw [hr] at hr'
          injection hr' with hr'
          exact .inl (hr' ▸ hdb)
        · exact .inr hin
      have hr' := (h.own r' b hb).1
      rw [hr] at hr'
      injection hr' with hr'
      exact .inl (hr' ▸ hb)
    · exact h.published b hb r hr
  · intro id b hb r hr
    rcases h.blocks id b hb r hr with hdb | hpub
    · exact .inl hdb
    · exact .inr (List.mem_append_right _ hpub)

theorem Recorded.serveBlocks {ids : List BlockID} {blocks : List SignedData}
    (hblocks : ids.mapM n.db.blocks = some blocks) : Recorded c (n.publish blocks) := by
  refine ⟨h.own, h.gen, h.cache, ?_, ?_⟩
  · intro b hb r hr
    rcases List.mem_append.mp hb with hb | hb
    · obtain ⟨id, _, hid⟩ := mem_of_mapM hblocks hb
      rcases h.blocks id b hid r hr with hdb | hpub
      · exact .inl hdb
      · exact h.published b hpub r hr
    · exact h.published b hb r hr
  intro id b hb r hr
  rcases h.blocks id b hb r hr with hdb | hpub
  · exact .inl hdb
  · exact .inr (List.mem_append_right _ hpub)

/-- After a crash only the database is left, which has all that left the node. -/
theorem Recorded.restart {order : List BlockID} (hok : DurableInput c n (.restart order))
    (hstart : Service.start c n.db order n.made n.published = some n') : Recorded c n' := by
  obtain ⟨blocks, _, hstart⟩ := Option.bind_eq_some_iff.mp hstart
  cases hstart
  refine ⟨h.own, rfl, fun _ _ hb => absurd hb (by simp [OwnBlocks.empty, OwnBlocks.get]), ?_,
    h.blocks⟩
  intro b hb r hr
  rcases h.published b hb r hr with hdb | ⟨own, hgen, hsigned⟩
  · exact .inl hdb
  · exact absurd (hsigned ▸ hb) (hok.crash order own rfl hgen)

theorem Recorded.step (hok : DurableInput c n input)
    (hstep : n.Steps c input n') : Recorded c n' := by
  cases hstep with
  | same => exact h
  | receive signed data hdata => exact h.receive hok hdata
  | depgraph => exact ⟨h.own, h.gen, h.cache, h.published, h.blocks⟩
  | build hgen => exact h.build hok hgen
  | cache own hgen => exact h.cacheOwn hgen
  | store own hgen => exact h.store hgen
  | finish own hgen => exact h.finish hgen
  | aside =>
    exact ⟨h.own, h.gen.congr rfl rfl, h.cache, h.published, h.blocks⟩
  | own input blocks n1 hs => exact h.serve hs
  | blocks ids blocks hblocks => exact h.serveBlocks hblocks
  | restart order n' _ hstart => exact h.restart hok hstart

end

end Invariant

/-! ## §3. Runs. -/

/-- **One block per round leaves the node**, in every run in which no crash undoes a block that has
left. -/
theorem one_block_per_round {c : Config} {n : Service} (h : ServiceRun c (DurableInput c) n) :
    OneBlockPerRound c n := by
  have hrec : Recorded c n := by
    induction h with
    | start => exact recorded_new c
    | step _ hok hstep ih => exact ih.step hok (Service.step_cases hstep)
  exact hrec.oneBlockPerRound

def durable (n : Service) : Input → Bool
  | .restart _ =>
    match n.gen with
    | .cached own => own.signed ∉ n.published
    | _ => true
  | .receive _ => false
  | .genBlocks => n.round + 1 < 2 ^ 64
  | _ => true

theorem durable_ok (c : Config) (n : Service) (input : Input) (h : durable n input = true) :
    DurableInput c n input where
  crash := by
    intro order own hinput hgen
    subst hinput
    unfold durable at h
    simp only [hgen] at h
    exact of_decide_eq_true h
  echo := by
    intro signed data hinput
    subst hinput
    exact absurd h (by simp [durable])
  rounds := by
    intro hinput _
    subst hinput
    exact of_decide_eq_true h

/-- A node makes its first block and returns it, before and after a restart. -/
theorem one_block_per_round_restart : ∃ n, ServiceRun pairOne (DurableInput pairOne) n ∧
      n.published.length = 2 ∧ OneBlockPerRound pairOne n := by
  obtain ⟨n, hrun, hlen⟩ := ServiceRun.exists_of_stepWhile pairOne durable
    [.genBlocks, .genBlocks, .genBlocks, .genBlocks, .handleGetRounds [1], .restart [],
      .handleGetRounds [1]] (durable_ok pairOne) (P := fun n => n.published.length = 2)
    (by decide +kernel)
  exact ⟨n, hrun, hlen, one_block_per_round hrun⟩

def Service.republished (n : Service) : Bool :=
  match n.published with
  | [b, b'] =>
    decide (authoredRound pairOne b = some 1 ∧ authoredRound pairOne b' = some 1 ∧ b ≠ b')
  | _ => false

theorem Service.republished_spec {n : Service} (h : n.republished = true) :
    ¬ OneBlockPerRound pairOne n := by
  intro hone
  unfold Service.republished at h
  split at h
  next b b' heq =>
    obtain ⟨hb, hb', hne⟩ := of_decide_eq_true h
    exact hne (hone b (by simp [heq]) b' (by simp [heq]) 1 hb hb')
  · cases h

/-- **A block lost in a crash is published again, with other contents**: a peer asks for round 1
while only the cache has the block. -/
theorem lost_block_replaced :
    ∃ n, ServiceRun pairOne (fun _ _ => True) n ∧ ¬ OneBlockPerRound pairOne n := by
  obtain ⟨n, hrun, hpub⟩ := ServiceRun.exists_of_stepWhile pairOne (fun _ _ => true)
    [.genBlocks, .genBlocks, .handleGetRounds [1], .restart [], .addTransaction [7] 1,
      .genBlocks, .genBlocks, .handleGetRounds [1]] (fun _ _ _ => trivial)
    (P := fun n => n.republished = true) (by decide +kernel)
  exact ⟨n, hrun, Service.republished_spec hpub⟩

end Chainspace.Broadcast
