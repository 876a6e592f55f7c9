/-
  Chainspace.Sbac.Replay — a node that starts again with rounds it has not acknowledged
  (`New` of `sbac/sbac.go`, `Register` of `broadcast/broadcast.go`).

  `Register` hands the rounds since the last acknowledged one to the callback before it returns, and
  `New` registers its callback before it sets the scheduler of the machines. A replayed transaction
  of the first consensus reaches for the scheduler, which is nil, and the process ends. Without one
  the service starts, and the other events wait for a machine, which there is only if somebody asks
  for the transaction again.
-/
import Chainspace.Sbac.Node

namespace Chainspace.Sbac

open Chainspace.Lib List

/-! ## §1. Starting a service. -/

/-- What the broadcast service has on disk about decided rounds. -/
structure DecidedRounds where
  /-- `getDeliverAcknowledged` -/
  acknowledged : Nat
  interpreted : Nat
  /-- `getInterpreted`: for each block of a round, the data of its transactions -/
  blocks : Nat → List (List Bytes)

/-- A service that is being built by `New`. -/
structure Starting where
  node : Node
  /-- whether `txstates` is set; until then its methods dereference nil -/
  txstates : Bool

section New
variable (unmarshal : Bytes → Option ConsensusTransaction)

/-- `handleDeliver` for one transaction; what cannot be decoded is skipped. -/
def Starting.deliver (b : Starting) (raw : Bytes) : Option Starting :=
  match unmarshal raw with
  | none => some b
  | some data =>
    if data.op = .consensus1 ∧ b.txstates = false then none
    else some { b with node := b.node.deliver data }

def Starting.handleDeliver (b : Starting) (blocks : List (List Bytes)) : Option Starting :=
  blocks.flatten.foldlM (Starting.deliver unmarshal) b

/-- `Register`: the rounds that were not acknowledged are replayed. -/
def Starting.register (b : Starting) (rounds : DecidedRounds) : Option Starting :=
  (List.range' (rounds.acknowledged + 1) (rounds.interpreted - rounds.acknowledged)).foldlM
    (fun b i => b.handleDeliver unmarshal (rounds.blocks i)) b

/-- `New`, on the database of the node. -/
def newService (rounds : DecidedRounds) (store : Store) : Option Node := do
  let b ← Starting.register unmarshal ⟨.new store, false⟩ rounds
  some { b with txstates := true }.node

end New

/-- The transactions of the first consensus that are replayed: there are none. -/
def NoFirstConsensus (unmarshal : Bytes → Option ConsensusTransaction) (rounds : DecidedRounds) :
    Prop :=
  ∀ i, rounds.acknowledged < i → i ≤ rounds.interpreted → ∀ block ∈ rounds.blocks i,
    ∀ raw ∈ block, ∀ data, unmarshal raw = some data → data.op ≠ .consensus1

/-! ## §2. The replay. -/

/-- A node that holds events but has no machine and has done nothing. -/
structure Quiet (store : Store) (n : Node) : Prop where
  store : n.store = store
  machines : n.machines = .empty
  history : n.history = []

section Replay
variable (unmarshal : Bytes → Option ConsensusTransaction) {store : Store} {b : Starting}

theorem Starting.deliver_cases (hb : b.txstates = false) (hq : Quiet store b.node) (raw : Bytes) :
    (b.deliver unmarshal raw = none ∧ ∃ data, unmarshal raw = some data ∧ data.op = .consensus1) ∨
      ∃ b', b.deliver unmarshal raw = some b' ∧ b'.txstates = false ∧ Quiet store b'.node ∧
        ∀ data, unmarshal raw = some data → data.op ≠ .consensus1 := by
  unfold Starting.deliver
  split
  next hraw =>
    refine .inr ⟨b, rfl, hb, hq, ?_⟩
    intro data hdata
    rw [hraw] at hdata
    cases hdata
  next data hraw =>
    by_cases hop : data.op = .consensus1
    · rw [if_pos ⟨hop, hb⟩]
      exact .inl ⟨rfl, data, hraw, hop⟩
    rw [if_neg (fun h => hop h.1)]
    refine .inr ⟨_, rfl, hb, ?_, ?_⟩
    · show Quiet store (b.node.deliver data)
      unfold Node.deliver
      rw [if_neg hop]
      exact ⟨hq.store, hq.machines, hq.history⟩
    intro data' hdata'
    rw [hraw] at hdata'
    cases hdata'
    exact hop

theorem Starting.deliver_all (raws : List Bytes) (hb : b.txstates = false)
    (hq : Quiet store b.node) :
    (raws.foldlM (Starting.deliver unmarshal) b = none ∧
        ∃ raw ∈ raws, ∃ data, unmarshal raw = some data ∧ data.op = .consensus1) ∨
      ∃ b', raws.foldlM (Starting.deliver unmarshal) b = some b' ∧ b'.txstates = false ∧
        Quiet store b'.node ∧
        ∀ raw ∈ raws, ∀ data, unmarshal raw = some data → data.op ≠ .consensus1 := by
  induction raws generalizing b with
  | nil => exact .inr ⟨b, rfl, hb, hq, by simp⟩
  | cons raw raws ih =>
    rw [foldlM_cons]
    rcases Starting.deliver_cases unmarshal hb hq raw with
      ⟨hnone, hdata⟩ | ⟨b1, hb1, htx, hq1, hother⟩
    · rw [hnone]
      exact .inl ⟨rfl, raw, mem_cons_self, hdata⟩
    rw [hb1]
    rcases ih htx hq1 with ⟨hnone, r, hr, hdata⟩ | ⟨b2, hb2, htx2, hq2, hothers⟩
    · exact .inl ⟨hnone, r, mem_cons_of_mem raw hr, hdata⟩
    refine .inr ⟨b2, hb2, htx2, hq2, ?_⟩
    intro r hr
    rcases mem_cons.mp hr with heq | hr
    · exact heq ▸ hother
    · exact hothers r hr

theorem Starting.register_all (blocks : Nat → List (List Bytes)) (is : List Nat)
    (hb : b.txstates = false) (hq : Quiet store b.node) :
    (is.foldlM (fun b i => b.handleDeliver unmarshal (blocks i)) b = none ∧
        ∃ i ∈ is, ∃ block ∈ blocks i, ∃ raw ∈ block, ∃ data,
          unmarshal raw = some data ∧ data.op = .consensus1) ∨
      ∃ b', is.foldlM (fun b i => b.handleDeliver unmarshal (blocks i)) b = some b' ∧
        Quiet store b'.node ∧ ∀ i ∈ is, ∀ block ∈ blocks i, ∀ raw ∈ block, ∀ data,
          unmarshal raw = some data → data.op ≠ .consensus1 := by
  induction is generalizing b with
  | nil => exact .inr ⟨b, rfl, hq, by simp⟩
  | cons i is ih =>
    rw [foldlM_cons]
    unfold Starting.handleDeliver
    rcases Starting.deliver_all unmarshal (blocks i).flatten hb hq with
      ⟨hnone, raw, hraw, hdata⟩ | ⟨b1, hb1, htx, hq1, hothers⟩
    · obtain ⟨block, hblock, hraw⟩ := mem_flatten.mp hraw
      rw [hnone]
      exact .inl ⟨rfl, i, mem_cons_self, block, hblock, raw, hraw, hdata⟩
    rw [hb1]
    rcases ih htx hq1 with ⟨hnone, j, hj, hrest⟩ | ⟨b2, hb2, hq2, hrest⟩
    · exact .inl ⟨hnone, j, mem_cons_of_mem i hj, hrest⟩
    refine .inr ⟨b2, hb2, hq2, ?_⟩
    intro j hj block hblock raw hraw
    rcases mem_cons.mp hj with heq | hj
    · exact hothers raw (mem_flatten.mpr ⟨block, heq ▸ hblock, hraw⟩)
    · exact hrest j hj block hblock raw hraw

/-- **A service starts exactly when no transaction of the first consensus is replayed**; then it
holds the replayed events and has done nothing. -/
theorem newService_cases (rounds : DecidedRounds) (store : Store) :
    (newService unmarshal rounds store = none ∧ ¬ NoFirstConsensus unmarshal rounds) ∨
      ∃ n, newService unmarshal rounds store = some n ∧ Quiet store n ∧
        NoFirstConsensus unmarshal rounds := by
  have hrounds : ∀ i, i ∈ List.range' (rounds.acknowledged + 1)
      (rounds.interpreted - rounds.acknowledged) ↔
        rounds.acknowledged < i ∧ i ≤ rounds.interpreted := by
    intro i
    rw [mem_range'_1]
    omega
  have hquiet : Quiet store (Node.new store) := ⟨rfl, rfl, rfl⟩
  unfold newService Starting.register
  rcases Starting.register_all unmarshal (b := ⟨.new store, false⟩) rounds.blocks
    (List.range' (rounds.acknowledged + 1) (rounds.interpreted - rounds.acknowledged)) rfl hquiet
    with ⟨hnone, i, hi, block, hblock, raw, hraw, data, hdata, hop⟩ | ⟨b, hb, hq, hothers⟩
  · rw [hnone]
    refine .inl ⟨rfl, ?_⟩
    intro h
    obtain ⟨hlt, hle⟩ := (hrounds i).mp hi
    exact h i hlt hle block hblock raw hraw data hdata hop
  rw [hb]
  refine .inr ⟨b.node, rfl, hq, ?_⟩
  intro i hlt hle
  exact hothers i ((hrounds i).mpr ⟨hlt, hle⟩)

end Replay

/-! ## §3. The replayed events. -/

/-- What a machine does to objects, finished transactions, or other shards. -/
def Act.outward : Act → Bool
  | .start _ | .propose _ => false
  | _ => true

/-- **The events of a transaction do nothing**: as long as nobody asks for the transaction again, no
machine of it locks, unlocks, deactivates or creates objects, or sends a message. -/
def Harmless (s : Service) (id : Bytes) (n : Node) : Prop :=
  ∀ inputs n', (∀ input ∈ inputs, ∀ detail initial, Input.creates s input = some (detail, initial) →
      detail.id ≠ id) → n.stepAll s inputs = some n' →
    ¬ n'.Did id (fun act => act.outward = true)

section Harmless
variable {s : Service} {id : Bytes} {n n' : Node} {input : Input}

theorem Node.Steps.absent (h : n.Steps s input n')
    (hinput : ∀ detail initial, input.creates s = some (detail, initial) → detail.id ≠ id)
    (hm : ∀ i m, n.machines i = some m → m.detail.id ≠ id) :
    ∀ i m, n'.machines i = some m → m.detail.id ≠ id := by
  intro i m' hm'
  rcases h.machines hm' with hold | ⟨detail, initial, hc, _, heq⟩ | ⟨m, e, hold, _, heq⟩ |
    ⟨m, f, act, _, hold, hs⟩
  · exact hm i m' hold
  · subst heq
    exact hinput detail initial hc
  · subst heq
    exact hm i m hold
  · rw [hs.detail]
    exact hm i m hold

theorem Node.Steps.silent (h : n.Steps s input n')
    (hm : ∀ i m, n.machines i = some m → m.detail.id ≠ id)
    (hdid : ¬ n.Did id (fun act => act.outward = true)) :
    ¬ n'.Did id (fun act => act.outward = true) := by
  rcases h.around_or_machine with ha | ⟨i, f, m, m', store, act, _, hi, _, heq⟩
  · rw [ha.did_iff (by simp [Act.outward]) (by simp [Act.outward])]
    exact hdid
  subst heq
  rw [Node.did_iff rfl]
  intro hcon
  rcases hcon with ⟨hid, _⟩ | hold
  · exact hm i m hi hid
  · exact hdid hold

theorem harmless_of_quiet {store : Store} (hq : Quiet store n) : Harmless s id n := by
  have hgo : ∀ (inputs : List Input) (n n' : Node),
      (∀ i m, n.machines i = some m → m.detail.id ≠ id) →
      ¬ n.Did id (fun act => act.outward = true) →
      (∀ input ∈ inputs, ∀ detail initial, Input.creates s input = some (detail, initial) →
        detail.id ≠ id) →
      n.stepAll s inputs = some n' → ¬ n'.Did id (fun act => act.outward = true) := by
    intro inputs
    induction inputs with
    | nil =>
      intro n n' _ hdid _ h
      cases h
      exact hdid
    | cons input inputs ih =>
      intro n n' hm hdid hinputs h
      obtain ⟨n1, h1, h⟩ := Option.bind_eq_some_iff.mp h
      have hstep := Node.step_cases h1
      exact ih n1 n' (hstep.absent (hinputs input mem_cons_self) hm) (hstep.silent hm hdid)
        (fun x hx => hinputs x (mem_cons_of_mem input hx)) h
  intro inputs n' hinputs h
  refine hgo inputs n n' ?_ ?_ hinputs h
  · intro i m hm
    rw [hq.machines] at hm
    cases hm
  rintro ⟨r, hr, _⟩
  rw [hq.history] at hr
  cases hr

end Harmless

/-- **Re-delivery is harmless exactly when no transaction of the first consensus is replayed**: then
the service starts, and the replayed events do nothing. -/
theorem replay_harmless_iff (s : Service) (unmarshal : Bytes → Option ConsensusTransaction)
    (rounds : DecidedRounds) (store : Store) :
    (∃ n, newService unmarshal rounds store = some n ∧
        ∀ id, store.finished id = some () → Harmless s id n) ↔
      NoFirstConsensus unmarshal rounds := by
  constructor
  · rintro ⟨n, hn, _⟩
    rcases newService_cases unmarshal rounds store with ⟨hnone, _⟩ | ⟨_, _, _, hno⟩
    · rw [hnone] at hn
      cases hn
    · exact hno
  intro hno
  rcases newService_cases unmarshal rounds store with ⟨_, hcon⟩ | ⟨n, hn, hq, _⟩
  · exact absurd hno hcon
  · exact ⟨n, hn, fun id _ => harmless_of_quiet hq⟩

/-- **A replayed transaction ends the process**: round 1 holds `pairTx`, finished but not
acknowledged. -/
theorem replayed_transaction_panics :
    let data : ConsensusTransaction :=
      ⟨txIDOf (fun data => data) pairTx, pairTx, PMap.empty.set 1 [1], .consensus1, 1⟩
    let store := Store.empty.finishTransaction data.txID
    store.finished data.txID = some () ∧
      newService (fun raw => if raw = [1] then some data else none)
        ⟨0, 1, fun i => if i = 1 then [[[1]]] else []⟩ store = none := by
  intro data store
  have hfinished : Store.empty.finished.set data.txID () data.txID = some () := PMap.set_self _ _ _
  exact ⟨hfinished, rfl⟩

end Chainspace.Sbac
