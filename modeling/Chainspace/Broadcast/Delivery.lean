/-
  Chainspace.Broadcast.Delivery — every round reaches the callback once and in order
  (`broadcast/broadcast.go`, `broadcast/store.go`).

  The consensus graph hands each round to `blockmaniaCallback`, which stores it and then calls the
  registered callback or, while there is none, only notes the round. `Register` sets the callback
  and replays the rounds since the last acknowledged one. Their goroutines meet in the lock `imu`,
  which `Register` holds while it replays.
-/
import Chainspace.Broadcast.Types
import Chainspace.Internal.Lexinum
import Chainspace.Lib.Bytes

namespace Chainspace.Broadcast

open Chainspace.Lib Chainspace.Blockmania List

/-! ## §1. Keys and values. -/

def blockPrefix : UInt8 := 1

def interpretedPrefix : UInt8 := 4

def lastInterpretedPrefix : UInt8 := 7

def roundAcknowledgedPrefix : UInt8 := 12

def encodeBlockID (id : BlockID) : Bytes :=
  Lexinum.encode id.node ++ 0x00 :: (Lexinum.encode id.round ++ 0x00 :: id.hash)

def blockKey (id : BlockID) : Bytes := blockPrefix :: encodeBlockID id

def interpretedKey (round : Nat) : Bytes := interpretedPrefix :: Lexinum.encode round

def lastInterpretedKey : Bytes := [lastInterpretedPrefix]

def roundAcknowledgedKey : Bytes := [roundAcknowledgedPrefix]

abbrev Kv := PMap Bytes Bytes

/-- The value of a round: the number of its blocks, and each key after its length. -/
def encodeRound (blocks : List BlockID) : Bytes :=
  LittleEndian.put 8 blocks.length ++
    blocks.flatMap fun id => LittleEndian.put 2 (blockKey id).length ++ blockKey id

namespace Kv

def setInterpreted (kv : Kv) (data : Interpreted) : Kv :=
  (PMap.set kv (interpretedKey data.round) (encodeRound data.blocks)).set lastInterpretedKey
    (LittleEndian.put 8 data.round ++ LittleEndian.put 8 data.consumed)

/-- The round `getLastInterpreted` returns, 0 if there is none. -/
def lastInterpreted (kv : Kv) : Nat :=
  ((kv lastInterpretedKey).map fun val => LittleEndian.get (val.take 8)).getD 0

def setDeliverAcknowledged (kv : Kv) (round : Nat) : Kv :=
  PMap.set kv roundAcknowledgedKey (LittleEndian.put 8 round)

/-- `getDeliverAcknowledged`, 0 if there is none. -/
def getDeliverAcknowledged (kv : Kv) : Nat :=
  ((kv roundAcknowledgedKey).map fun val => LittleEndian.get (val.take 8)).getD 0

section Blocks
variable (unmarshal : Bytes → Option SignedData)

def getBlock (kv : Kv) (key : Bytes) : Option SignedData := (kv key).bind unmarshal

/-- `getBlocks`: `none` where a block is missing or does not decode. -/
def getBlocks (kv : Kv) (ids : List BlockID) : Option (List SignedData) :=
  ids.mapM fun id => kv.getBlock unmarshal (blockKey id)

/-- The loop of `getInterpreted` from `idx` on; `none` also where a slice is out of range. -/
def readBlocks (kv : Kv) : Nat → Bytes → Option (List SignedData)
  | 0, _ => some []
  | size + 1, val =>
    if val.length < 2 then none
    else
      let ksize := LittleEndian.get (val.take 2)
      if (val.drop 2).length < ksize then none
      else do
        let block ← kv.getBlock unmarshal ((val.drop 2).take ksize)
        let blocks ← readBlocks kv size (val.drop (2 + ksize))
        some (block :: blocks)

/-- `getInterpreted`.  A size from 2 ^ 63 on is a negative `int`. -/
def getInterpreted (kv : Kv) (round : Nat) : Option (List SignedData) := do
  let val ← kv (interpretedKey round)
  if val.length < 8 then none
  else
    let size := LittleEndian.get (val.take 8)
    if size < 2 ^ 63 then kv.readBlocks unmarshal size (val.drop 8) else some []

end Blocks

end Kv

/-! ## §2. A stored round reads back. -/

/-- What `setInterpreted` assumes of a round: key lengths fit into a `uint16`, the number of blocks
into an `int`. -/
structure FitRound (blocks : List BlockID) : Prop where
  keys : ∀ id ∈ blocks, (blockKey id).length < 2 ^ 16
  count : blocks.length < 2 ^ 63

section ReadBack
variable (unmarshal : Bytes → Option SignedData) {kv : Kv}

theorem Kv.readBlocks_flatMap {blocks : List BlockID}
    (h : ∀ id ∈ blocks, (blockKey id).length < 2 ^ 16) :
    kv.readBlocks unmarshal blocks.length
        (blocks.flatMap fun id => LittleEndian.put 2 (blockKey id).length ++ blockKey id) =
      kv.getBlocks unmarshal blocks := by
  induction blocks with
  | nil => rfl
  | cons id blocks ih =>
    have hkey := h id mem_cons_self
    generalize hrest : (blocks.flatMap fun id =>
      LittleEndian.put 2 (blockKey id).length ++ blockKey id) = rest at ih
    have hval : (id :: blocks).flatMap (fun id =>
        LittleEndian.put 2 (blockKey id).length ++ blockKey id) =
        LittleEndian.put 2 (blockKey id).length ++ (blockKey id ++ rest) := by
      rw [flatMap_cons, hrest, append_assoc]
    have htake : (LittleEndian.put 2 (blockKey id).length ++ (blockKey id ++ rest)).take 2 =
        LittleEndian.put 2 (blockKey id).length :=
      take_left' (LittleEndian.length_put 2 _)
    have hdrop : (LittleEndian.put 2 (blockKey id).length ++ (blockKey id ++ rest)).drop 2 =
        blockKey id ++ rest :=
      drop_left' (LittleEndian.length_put 2 _)
    have hsize : LittleEndian.get (LittleEndian.put 2 (blockKey id).length) =
        (blockKey id).length := LittleEndian.get_put_of_lt hkey
    have hlength : ¬ (LittleEndian.put 2 (blockKey id).length ++
        (blockKey id ++ rest)).length < 2 := by
      rw [length_append, LittleEndian.length_put]
      omega
    have hroom : ¬ (blockKey id ++ rest).length < (blockKey id).length := by
      rw [length_append]
      omega
    show Kv.readBlocks unmarshal kv (blocks.length + 1) _ = _
    rw [hval]
    unfold Kv.readBlocks
    rw [if_neg hlength, htake, hsize, hdrop, if_neg hroom, take_left, ← drop_drop,
      hdrop, drop_left, ih fun k hk => h k (mem_cons_of_mem id hk)]
    unfold Kv.getBlocks
    rw [mapM_cons]
    rfl

/-- **A stored round reads back** as the blocks a live delivery of it would pass. -/
theorem Kv.getInterpreted_eq {blocks : List BlockID} (hfits : FitRound blocks) {round : Nat}
    (h : kv (interpretedKey round) = some (encodeRound blocks)) :
    kv.getInterpreted unmarshal round = kv.getBlocks unmarshal blocks := by
  have hcount := hfits.count
  have htake : (encodeRound blocks).take 8 = LittleEndian.put 8 blocks.length :=
    take_left' (LittleEndian.length_put 8 _)
  have hsize : LittleEndian.get (LittleEndian.put 8 blocks.length) = blocks.length :=
    LittleEndian.get_put_of_lt (by omega)
  unfold Kv.getInterpreted
  rw [h, Option.bind_eq_bind, Option.bind_some]
  rw [htake, hsize, if_pos hcount]
  exact Kv.readBlocks_flatMap unmarshal hfits.keys

end ReadBack

theorem interpretedKey_ne {r r' : Nat} (hr : r < 2 ^ 64) (hr' : r' < 2 ^ 64) (h : r ≠ r') :
    interpretedKey r ≠ interpretedKey r' := by
  intro heq
  injection heq with _ heq
  exact h (Lexinum.encode_injective hr hr' heq)

theorem key_ne_of_head {k k' : Bytes} (h : k.head? ≠ k'.head?) : k ≠ k' := by
  rintro rfl
  exact h rfl

/-! ## §3. The goroutines. -/

inductive Interpreting
  | idle
  /-- behind `setInterpreted` -/
  | stored (data : Interpreted)
  /-- behind its critical section, about to call the callback -/
  | calling (data : Interpreted)

/-- The rounds `blockmaniaCallback` is busy with. -/
def Interpreting.under : Interpreting → Nat
  | idle => 0
  | stored _ => 1
  | calling _ => 1

inductive Registering
  | no
  /-- at the head of its loop, with `imu` locked -/
  | replaying (i latest : Nat)
  | done

/-- A call of the registered callback, with the database it was made on. -/
structure Delivered where
  round : Nat
  blocks : List SignedData
  kv : Kv

/-- The database, the fields `cb` and `interpreted` of the service, and the two goroutines. The
calls of the callback, the round acknowledged at its registration, and the blocks of rounds 1, 2, …
are kept for the proofs only. -/
structure Delivery where
  kv : Kv
  cb : Bool
  interpreted : Nat
  callback : Interpreting
  registering : Registering
  output : List Delivered
  acked : Nat
  rounds : List (List BlockID)

def Delivery.new : Delivery where
  kv := .empty
  cb := false
  interpreted := 0
  callback := .idle
  registering := .no
  output := []
  acked := 0
  rounds := []

/-- A key of the entries that other parts of the store write. -/
def OtherKey (key : Bytes) : Prop :=
  key.head? ≠ some interpretedPrefix ∧ key.head? ≠ some lastInterpretedPrefix ∧
    key.head? ≠ some roundAcknowledgedPrefix

/-- **What can happen**: the atomic steps of both goroutines in any order, other writes to the
database, acknowledgements of rounds the callback has got, and restarts. -/
inductive Delivery.Step (unmarshal : Bytes → Option SignedData) (n : Delivery) : Delivery → Prop
  /-- the graph hands over the next round, and `setInterpreted` stores it -/
  | interpret (data : Interpreted) (hidle : n.callback = .idle)
      (hround : data.round = n.kv.lastInterpreted + 1) (hlast : data.round + 1 < 2 ^ 64)
      (hfits : FitRound data.blocks) :
      Step unmarshal n { n with
        kv := n.kv.setInterpreted data
        callback := .stored data
        rounds := n.rounds ++ [data.blocks] }
  /-- the critical section of `blockmaniaCallback`, while there is no callback -/
  | note (data : Interpreted) (hstored : n.callback = .stored data)
      (hfree : ∀ i latest, n.registering ≠ .replaying i latest) (hcb : n.cb = false) :
      Step unmarshal n { n with interpreted := data.round, callback := .idle }
  /-- and when there is one -/
  | check (data : Interpreted) (hstored : n.callback = .stored data)
      (hfree : ∀ i latest, n.registering ≠ .replaying i latest) (hcb : n.cb = true) :
      Step unmarshal n { n with callback := .calling data }
  /-- the call; a block that is missing ends the process -/
  | call (data : Interpreted) (hcalling : n.callback = .calling data) (blocks : List SignedData)
      (hblocks : n.kv.getBlocks unmarshal data.blocks = some blocks) :
      Step unmarshal n { n with
        callback := .idle
        output := n.output ++ [⟨data.round, blocks, n.kv⟩] }
  /-- `Register` locks `imu`, sets the callback and reads the acknowledged round -/
  | register (hno : n.registering = .no) (hcb : n.cb = false) :
      Step unmarshal n { n with
        cb := true
        acked := n.kv.getDeliverAcknowledged
        registering := .replaying ((n.kv.getDeliverAcknowledged + 1) % 2 ^ 64) n.interpreted }
  /-- an iteration of its loop -/
  | replay (i latest : Nat) (hreplaying : n.registering = .replaying i latest) (hle : i ≤ latest)
      (blocks : List SignedData) (hblocks : n.kv.getInterpreted unmarshal i = some blocks) :
      Step unmarshal n { n with
        registering := .replaying ((i + 1) % 2 ^ 64) latest
        output := n.output ++ [⟨i, blocks, n.kv⟩] }
  /-- `Register` unlocks `imu` -/
  | unlock (i latest : Nat) (hreplaying : n.registering = .replaying i latest) (hgt : latest < i) :
      Step unmarshal n { n with registering := .done }
  /-- another part of the store sets or deletes a key -/
  | write (key : Bytes) (val : Option Bytes) (hkey : OtherKey key) :
      Step unmarshal n { n with kv := fun k => if k = key then val else n.kv k }
  /-- `Acknowledge` -/
  | acknowledge (o : Delivered) (ho : o ∈ n.output) :
      Step unmarshal n { n with kv := n.kv.setDeliverAcknowledged o.round }
  /-- a crash and `loadState` -/
  | restart :
      Step unmarshal n { Delivery.new with
        kv := n.kv
        interpreted := n.kv.lastInterpreted
        rounds := n.rounds }

/-- **A run**, from an empty database on. -/
inductive DeliveryRun (unmarshal : Bytes → Option SignedData) : Delivery → Prop
  | start : DeliveryRun unmarshal .new
  | step {n n' : Delivery} (hrun : DeliveryRun unmarshal n) (h : n.Step unmarshal n') :
      DeliveryRun unmarshal n'

/-! ## §4. Every run. -/

structure StoresRounds (rounds : List (List BlockID)) (kv : Kv) : Prop where
  bound : rounds.length + 1 < 2 ^ 64
  last : kv.lastInterpreted = rounds.length
  fits : ∀ blocks ∈ rounds, FitRound blocks
  stored : ∀ k blocks, rounds[k]? = some blocks →
    kv (interpretedKey (k + 1)) = some (encodeRound blocks)
  acked : kv.getDeliverAcknowledged ≤ rounds.length

section Stores
variable {rounds : List (List BlockID)} {kv : Kv}

theorem Kv.setInterpreted_ne (data : Interpreted) {k : Bytes} (hk : k ≠ lastInterpretedKey)
    (hk' : k ≠ interpretedKey data.round) : kv.setInterpreted data k = kv k := by
  unfold Kv.setInterpreted
  rw [PMap.set_ne _ _ hk, PMap.set_ne _ _ hk']

theorem StoresRounds.interpret (h : StoresRounds rounds kv) {data : Interpreted}
    (hround : data.round = kv.lastInterpreted + 1) (hlast : data.round + 1 < 2 ^ 64)
    (hfits : FitRound data.blocks) :
    StoresRounds (rounds ++ [data.blocks]) (kv.setInterpreted data) := by
  rw [h.last] at hround
  have hlen : (rounds ++ [data.blocks]).length = rounds.length + 1 := by simp
  refine ⟨by omega, ?_, ?_, ?_, ?_⟩
  · unfold Kv.lastInterpreted Kv.setInterpreted
    show LittleEndian.get ((LittleEndian.put 8 data.round ++ _).take 8) = _
    rw [take_left' (LittleEndian.length_put 8 _), LittleEndian.get_put_of_lt (by omega)]
    omega
  · exact forall_mem_append.mpr ⟨h.fits, forall_mem_singleton.mpr hfits⟩
  · intro k blocks hk
    have hlast' : interpretedKey (k + 1) ≠ lastInterpretedKey :=
      key_ne_of_head (show some interpretedPrefix ≠ some lastInterpretedPrefix by decide)
    by_cases hnew : k = rounds.length
    · subst hnew
      have hblocks : blocks = data.blocks := by simpa using hk.symm
      unfold Kv.setInterpreted
      rw [PMap.set_ne _ _ hlast', ← hround, PMap.set_self, hblocks]
    have hlt : k < (rounds ++ [data.blocks]).length := (List.getElem?_eq_some_iff.mp hk).1
    have hlt : k < rounds.length := by omega
    rw [getElem?_append_left hlt] at hk
    rw [Kv.setInterpreted_ne data hlast' (interpretedKey_ne (by omega) (by omega) (by omega))]
    exact h.stored k blocks hk
  · rw [hlen]
    exact Nat.le_succ_of_le h.acked

theorem Kv.acknowledged_congr {kv' : Kv} (hsame : ∀ k, ¬ OtherKey k → kv' k = kv k) :
    kv'.getDeliverAcknowledged = kv.getDeliverAcknowledged := by
  unfold Kv.getDeliverAcknowledged
  rw [hsame]
  exact fun hother => hother.2.2 rfl

theorem StoresRounds.congr (h : StoresRounds rounds kv) {kv' : Kv}
    (hsame : ∀ k, ¬ OtherKey k → kv' k = kv k) : StoresRounds rounds kv' where
  bound := h.bound
  last := by
    rw [← h.last]
    unfold Kv.lastInterpreted
    rw [hsame]
    exact fun hother => hother.2.1 rfl
  fits := h.fits
  stored := by
    intro k blocks hk
    rw [hsame]
    · exact h.stored k blocks hk
    · exact fun hother => hother.1 rfl
  acked := by
    rw [Kv.acknowledged_congr hsame]
    exact h.acked

theorem StoresRounds.acknowledge (h : StoresRounds rounds kv) {round : Nat}
    (hround : round ≤ rounds.length) : StoresRounds rounds (kv.setDeliverAcknowledged round) := by
  have hbound := h.bound
  have hother : ∀ k, k.head? ≠ some roundAcknowledgedPrefix →
      kv.setDeliverAcknowledged round k = kv k := by
    intro k hk
    exact PMap.set_ne _ _ (key_ne_of_head hk)
  refine ⟨hbound, ?_, h.fits, ?_, ?_⟩
  · rw [← h.last]
    unfold Kv.lastInterpreted
    rw [hother]
    exact show some lastInterpretedPrefix ≠ some roundAcknowledgedPrefix by decide
  · intro k blocks hk
    rw [hother]
    · exact h.stored k blocks hk
    · exact show some interpretedPrefix ≠ some roundAcknowledgedPrefix by decide
  unfold Kv.getDeliverAcknowledged Kv.setDeliverAcknowledged
  show LittleEndian.get ((LittleEndian.put 8 round).take 8) ≤ _
  rw [take_of_length_le (by rw [LittleEndian.length_put]), LittleEndian.get_put_of_lt (by omega)]
  exact hround

end Stores

def Delivery.Phase (n : Delivery) : Prop :=
  match n.registering with
  | .no => n.cb = false ∧ n.output = [] ∧ n.interpreted + n.callback.under = n.rounds.length ∧
      n.kv.getDeliverAcknowledged ≤ n.interpreted ∧ ∀ data, n.callback ≠ .calling data
  | .replaying i latest => n.cb = true ∧ latest = n.interpreted ∧
      n.interpreted + n.callback.under = n.rounds.length ∧
      i = n.acked + 1 + n.output.length ∧ i ≤ latest + 1 ∧ ∀ data, n.callback ≠ .calling data
  | .done => n.cb = true ∧ n.acked + n.output.length + n.callback.under = n.rounds.length

/-- **The state of a run**: the calls are the rounds after the acknowledged one, with their blocks,
and the goroutines stand where the next round is due. -/
structure Delivery.InOrder (unmarshal : Bytes → Option SignedData) (n : Delivery) : Prop where
  stores : StoresRounds n.rounds n.kv
  data : ∀ data, n.callback = .stored data ∨ n.callback = .calling data →
    data.round = n.rounds.length ∧ n.rounds[data.round - 1]? = some data.blocks
  phase : n.Phase
  order : n.output.map Delivered.round = List.range' (n.acked + 1) n.output.length
  blocks : ∀ o ∈ n.output, o.round ≤ n.rounds.length ∧ ∃ blocks,
    n.rounds[o.round - 1]? = some blocks ∧ o.kv.getBlocks unmarshal blocks = some o.blocks

section Run
variable {unmarshal : Bytes → Option SignedData} {n n' : Delivery}

namespace Delivery.InOrder

theorem new : Delivery.new.InOrder unmarshal := by
  refine ⟨⟨by decide, rfl, ?_, ?_, Nat.le_refl 0⟩, ?_, ?_, rfl, ?_⟩
  · intro blocks hblocks
    cases hblocks
  · intro k blocks hk
    exact absurd hk (by simp [Delivery.new])
  · intro data hdata
    exact absurd hdata (by simp [Delivery.new])
  · exact ⟨rfl, rfl, rfl, Nat.le_refl 0, fun data hdata => Interpreting.noConfusion hdata⟩
  · intro o ho
    cases ho

section
variable (h : n.InOrder unmarshal)
include h

theorem interpret {data : Interpreted} (hidle : n.callback = .idle)
    (hround : data.round = n.kv.lastInterpreted + 1) (hlast : data.round + 1 < 2 ^ 64)
    (hfits : FitRound data.blocks) :
    InOrder unmarshal { n with
      kv := n.kv.setInterpreted data
      callback := .stored data
      rounds := n.rounds ++ [data.blocks] } := by
  have hlen : (n.rounds ++ [data.blocks]).length = n.rounds.length + 1 := by simp
  have hlastround := h.stores.last
  refine ⟨h.stores.interpret hround hlast hfits, ?_, ?_, h.order, ?_⟩
  · intro data' hdata'
    have heq : data = data' := by simpa using hdata'
    subst heq
    refine ⟨by dsimp only; omega, ?_⟩
    have hindex : data.round - 1 = n.rounds.length := by omega
    rw [hindex]
    simp
  · have hphase := h.phase
    unfold Delivery.Phase at hphase ⊢
    rw [hlen]
    cases hreg : n.registering with
    | no =>
      rw [hreg, hidle] at hphase
      obtain ⟨hcb, hout, hcount, hack, _⟩ := hphase
      have hcount : n.interpreted + 0 = n.rounds.length := hcount
      refine ⟨hcb, hout, ?_, ?_, fun data' hdata' => Interpreting.noConfusion hdata'⟩
      · show n.interpreted + 1 = n.rounds.length + 1
        omega
      · exact hack
    | replaying =>
      rw [hreg, hidle] at hphase
      obtain ⟨hcb, hlatest, hcount, hi, hle, _⟩ := hphase
      have hcount : n.interpreted + 0 = n.rounds.length := hcount
      refine ⟨hcb, hlatest, ?_, hi, hle, fun data' hdata' => Interpreting.noConfusion hdata'⟩
      show n.interpreted + 1 = n.rounds.length + 1
      omega
    | done =>
      rw [hreg, hidle] at hphase
      have hcount : n.acked + n.output.length + 0 = n.rounds.length := hphase.2
      refine ⟨hphase.1, ?_⟩
      show n.acked + n.output.length + 1 = n.rounds.length + 1
      omega
  intro o ho
  obtain ⟨_, blocks, hblocks, hget⟩ := h.blocks o ho
  have hlt := (List.getElem?_eq_some_iff.mp hblocks).1
  refine ⟨by dsimp only; omega, blocks, ?_, hget⟩
  rw [getElem?_append_left hlt]
  exact hblocks

theorem note {data : Interpreted} (hstored : n.callback = .stored data) (hcb : n.cb = false) :
    InOrder unmarshal { n with interpreted := data.round, callback := .idle } := by
  have hround := (h.data data (.inl hstored)).1
  refine ⟨h.stores, fun data' hdata' => absurd hdata' (by simp), ?_, h.order, h.blocks⟩
  have hphase := h.phase
  unfold Delivery.Phase at hphase ⊢
  cases hreg : n.registering with
  | no =>
    rw [hreg] at hphase
    refine ⟨hcb, hphase.2.1, hround, ?_, fun data' hdata' => Interpreting.noConfusion hdata'⟩
    rw [hround]
    exact h.stores.acked
  | replaying | done =>
    rw [hreg] at hphase
    exact absurd hphase.1 (by rw [hcb]; simp)

theorem check {data : Interpreted} (hstored : n.callback = .stored data)
    (hfree : ∀ i latest, n.registering ≠ .replaying i latest) (hcb : n.cb = true) :
    InOrder unmarshal { n with callback := .calling data } := by
  refine ⟨h.stores, ?_, ?_, h.order, h.blocks⟩
  · intro data' hdata'
    have heq : data = data' := by simpa using hdata'
    subst heq
    exact h.data data (.inl hstored)
  have hphase := h.phase
  unfold Delivery.Phase at hphase ⊢
  cases hreg : n.registering with
  | no =>
    rw [hreg] at hphase
    exact absurd hphase.1 (by rw [hcb]; simp)
  | replaying i latest => exact absurd hreg (hfree i latest)
  | done =>
    rw [hreg, hstored] at hphase
    exact hphase

theorem order_append {o : Delivered} (ho : o.round = n.acked + 1 + n.output.length) :
    (n.output ++ [o]).map Delivered.round = List.range' (n.acked + 1) (n.output ++ [o]).length := by
  rw [map_append, h.order, length_append, length_singleton, range'_concat,
    map_singleton, ho, Nat.one_mul]

theorem blocks_append {o : Delivered} (ho : o.round ≤ n.rounds.length)
    {blocks : List BlockID} (hblocks : n.rounds[o.round - 1]? = some blocks)
    (hget : o.kv.getBlocks unmarshal blocks = some o.blocks) :
    ∀ o' ∈ n.output ++ [o], o'.round ≤ n.rounds.length ∧ ∃ blocks,
      n.rounds[o'.round - 1]? = some blocks ∧
        o'.kv.getBlocks unmarshal blocks = some o'.blocks := by
  exact forall_mem_append.mpr ⟨h.blocks, forall_mem_singleton.mpr ⟨ho, blocks, hblocks, hget⟩⟩

/-- **A live delivery** is of the next round. -/
theorem call {data : Interpreted} (hcalling : n.callback = .calling data)
    {blocks : List SignedData} (hblocks : n.kv.getBlocks unmarshal data.blocks = some blocks) :
    InOrder unmarshal { n with
      callback := .idle
      output := n.output ++ [⟨data.round, blocks, n.kv⟩] } := by
  obtain ⟨hround, hdata⟩ := h.data data (.inr hcalling)
  -- only behind `Register`
  have hdone : n.registering = .done ∧ n.cb = true ∧
      n.acked + n.output.length + 1 = n.rounds.length := by
    have hphase := h.phase
    unfold Delivery.Phase at hphase
    cases hreg : n.registering with
    | no =>
      rw [hreg] at hphase
      exact absurd hcalling (hphase.2.2.2.2 data)
    | replaying =>
      rw [hreg] at hphase
      exact absurd hcalling (hphase.2.2.2.2.2 data)
    | done =>
      rw [hreg, hcalling] at hphase
      exact ⟨rfl, hphase⟩
  obtain ⟨hreg, hcb, _⟩ := hdone
  have hnext : data.round = n.acked + 1 + n.output.length := by omega
  refine ⟨h.stores, fun data' hdata' => absurd hdata' (by simp), ?_, h.order_append hnext,
    h.blocks_append (Nat.le_of_eq hround) hdata hblocks⟩
  unfold Delivery.Phase
  rw [hreg]
  refine ⟨hcb, ?_⟩
  show n.acked + (n.output ++ [_]).length + 0 = n.rounds.length
  rw [length_append]
  omega

theorem register (hno : n.registering = .no) : InOrder unmarshal { n with
      cb := true
      acked := n.kv.getDeliverAcknowledged
      registering := .replaying ((n.kv.getDeliverAcknowledged + 1) % 2 ^ 64) n.interpreted } := by
  have hphase := h.phase
  unfold Delivery.Phase at hphase
  rw [hno] at hphase
  obtain ⟨_, hout, hcount, _, hcalling⟩ := hphase
  have hbound := h.stores.bound
  have hmod : (n.kv.getDeliverAcknowledged + 1) % 2 ^ 64 = n.kv.getDeliverAcknowledged + 1 :=
    Nat.mod_eq_of_lt (by omega)
  refine ⟨h.stores, h.data, ?_, ?_, h.blocks⟩
  · refine ⟨rfl, rfl, hcount, ?_, ?_, hcalling⟩
    · rw [hmod, hout]
      rfl
    · omega
  · rw [hout]
    rfl

/-- **A replayed round** is the next, with the blocks of a live delivery. -/
theorem replay {i latest : Nat}
    (hreplaying : n.registering = .replaying i latest) (hle : i ≤ latest)
    {blocks : List SignedData} (hblocks : n.kv.getInterpreted unmarshal i = some blocks) :
    InOrder unmarshal { n with
      registering := .replaying ((i + 1) % 2 ^ 64) latest
      output := n.output ++ [⟨i, blocks, n.kv⟩] } := by
  have hphase := h.phase
  unfold Delivery.Phase at hphase
  rw [hreplaying] at hphase
  obtain ⟨hcb, hlatest, hcount, hi, _, hcalling⟩ := hphase
  have hbound := h.stores.bound
  have hlt : i - 1 < n.rounds.length := by omega
  have hround : n.rounds[i - 1]? = some (n.rounds[i - 1]) := getElem?_eq_getElem hlt
  have hstored := h.stores.stored (i - 1) _ hround
  rw [Nat.sub_add_cancel (by omega)] at hstored
  rw [Kv.getInterpreted_eq unmarshal (h.stores.fits _ (getElem_mem hlt)) hstored] at hblocks
  refine ⟨h.stores, h.data, ?_, h.order_append hi, ?_⟩
  · refine ⟨hcb, hlatest, hcount, ?_, ?_, hcalling⟩
    · dsimp only
      rw [length_append, length_singleton]
      omega
    · omega
  · exact h.blocks_append (by dsimp only; omega) hround hblocks

theorem unlock {i latest : Nat}
    (hreplaying : n.registering = .replaying i latest) (hgt : latest < i) :
    InOrder unmarshal { n with registering := .done } := by
  have hphase := h.phase
  unfold Delivery.Phase at hphase
  rw [hreplaying] at hphase
  obtain ⟨hcb, _⟩ := hphase
  refine ⟨h.stores, h.data, ⟨hcb, ?_⟩, h.order, h.blocks⟩
  dsimp only
  omega

theorem congr {kv : Kv} (hstores : StoresRounds n.rounds kv)
    (hack : n.output ≠ [] ∨ kv.getDeliverAcknowledged = n.kv.getDeliverAcknowledged) :
    InOrder unmarshal { n with kv := kv } := by
  refine ⟨hstores, h.data, ?_, h.order, h.blocks⟩
  have hphase := h.phase
  unfold Delivery.Phase at hphase ⊢
  cases hreg : n.registering with
  | no =>
    rw [hreg] at hphase
    obtain ⟨hcb, hout, hcount, hle, hcalling⟩ := hphase
    refine ⟨hcb, hout, hcount, ?_, hcalling⟩
    rw [hack.resolve_left (not_not.mpr hout)]
    exact hle
  | replaying | done =>
    rw [hreg] at hphase
    exact hphase

theorem restart : InOrder unmarshal { Delivery.new with
      kv := n.kv
      interpreted := n.kv.lastInterpreted
      rounds := n.rounds } := by
  refine ⟨h.stores, ?_, ?_, rfl, ?_⟩
  · intro data hdata
    exact absurd hdata (by simp [Delivery.new])
  · refine ⟨rfl, rfl, h.stores.last, ?_, fun data hdata => Interpreting.noConfusion hdata⟩
    rw [h.stores.last]
    exact h.stores.acked
  · intro o ho
    cases ho

theorem step (hstep : n.Step unmarshal n') : n'.InOrder unmarshal := by
  cases hstep with
  | interpret data hidle hround hlast hfits => exact h.interpret hidle hround hlast hfits
  | note data hstored _ hcb => exact h.note hstored hcb
  | check data hstored hfree hcb => exact h.check hstored hfree hcb
  | call data hcalling blocks hblocks => exact h.call hcalling hblocks
  | register hno => exact h.register hno
  | replay i latest hreplaying hle blocks hblocks => exact h.replay hreplaying hle hblocks
  | unlock i latest hreplaying hgt => exact h.unlock hreplaying hgt
  | write key val hkey =>
    have hsame : ∀ k, ¬ OtherKey k → (if k = key then val else n.kv k) = n.kv k := by
      intro k hk
      rw [if_neg]
      rintro rfl
      exact hk hkey
    exact h.congr (h.stores.congr hsame) (.inr (Kv.acknowledged_congr hsame))
  | acknowledge o ho =>
    exact h.congr (h.stores.acknowledge (h.blocks o ho).1) (.inl (ne_nil_of_mem ho))
  | restart => exact h.restart

end

end Delivery.InOrder

theorem DeliveryRun.inOrder (hrun : DeliveryRun unmarshal n) : n.InOrder unmarshal := by
  induction hrun with
  | start => exact .new
  | step _ hstep ih => exact ih.step hstep

end Run

/-! ## §5. The result. -/

/-- **Each round reaches the callback once, in order, with the same blocks.** In every run: the
calls are for the rounds after the one acknowledged at the registration, without gap or repetition;
each passes the blocks of its round; reading a round back gives what a live delivery would pass;
when both goroutines are through, every round has been delivered; and while the blocks are in the
database, neither is stopped. -/
theorem rounds_delivered_once {unmarshal : Bytes → Option SignedData} {n : Delivery}
    (hrun : DeliveryRun unmarshal n) :
    n.output.map Delivered.round = List.range' (n.acked + 1) n.output.length ∧
    (∀ o ∈ n.output, ∃ blocks, n.rounds[o.round - 1]? = some blocks ∧
      o.kv.getBlocks unmarshal blocks = some o.blocks) ∧
    (∀ k blocks, n.rounds[k]? = some blocks →
      n.kv.getInterpreted unmarshal (k + 1) = n.kv.getBlocks unmarshal blocks) ∧
    (n.registering = .done → n.callback = .idle → n.acked + n.output.length = n.rounds.length) ∧
    ((∀ blocks ∈ n.rounds, (n.kv.getBlocks unmarshal blocks).isSome = true) →
      (∀ i latest, n.registering = .replaying i latest → i ≤ latest →
        (n.kv.getInterpreted unmarshal i).isSome = true) ∧
      ∀ data, n.callback = .calling data →
        (n.kv.getBlocks unmarshal data.blocks).isSome = true) := by
  have h := hrun.inOrder
  have hread : ∀ k blocks, n.rounds[k]? = some blocks →
      n.kv.getInterpreted unmarshal (k + 1) = n.kv.getBlocks unmarshal blocks := by
    intro k blocks hk
    have hfits := h.stores.fits blocks (mem_of_getElem? hk)
    exact Kv.getInterpreted_eq unmarshal hfits (h.stores.stored k blocks hk)
  refine ⟨h.order, fun o ho => (h.blocks o ho).2, hread, ?_, ?_⟩
  · intro hdone hidle
    have hphase := h.phase
    unfold Delivery.Phase at hphase
    rw [hdone, hidle] at hphase
    exact hphase.2
  intro hall
  constructor
  · intro i latest hreplaying hle
    have hphase := h.phase
    unfold Delivery.Phase at hphase
    rw [hreplaying] at hphase
    obtain _ := hphase
    have hlt : i - 1 < n.rounds.length := by omega
    have hsome := hread (i - 1) _ (getElem?_eq_getElem hlt)
    rw [Nat.sub_add_cancel (by omega)] at hsome
    rw [hsome]
    exact hall _ (getElem_mem hlt)
  · intro data hcalling
    exact hall _ (mem_of_getElem? (h.data data (.inr hcalling)).2)

def bareSigned (val : Bytes) : Option SignedData := some ⟨val, []⟩

/-- The state of a node that has stored a block, of key `blockKey id`. -/
def oneBlock (id : BlockID) : Delivery :=
  { Delivery.new with kv := fun k => if k = blockKey id then some [7] else none }

/-- A round is interpreted before the registration and replayed; the next comes live. -/
theorem rounds_delivered_once_handover :
    ∃ n, DeliveryRun bareSigned n ∧ n.output.map Delivered.round = [1, 2] ∧
      n.acked + n.output.length = n.rounds.length := by
  have hfits : FitRound [⟨[1], 2, 1⟩] := ⟨by decide +kernel, by decide⟩
  have hother : OtherKey (blockKey ⟨[1], 2, 1⟩) := by
    unfold OtherKey
    decide +kernel
  have h1 : DeliveryRun bareSigned (oneBlock ⟨[1], 2, 1⟩) :=
    DeliveryRun.start.step (.write _ (some [7]) hother)
  have h2 := h1.step (.interpret ⟨[⟨[1], 2, 1⟩], 1, 1⟩ rfl rfl (by decide) hfits)
  have h3 := h2.step (.note _ rfl (by simp [oneBlock, Delivery.new]) rfl)
  have h4 := h3.step (.register rfl rfl)
  have h5 := h4.step (.replay 1 1 rfl (by decide) [⟨[7], []⟩] (by decide +kernel))
  have h6 := h5.step (.unlock 2 1 rfl (by decide))
  have h7 := h6.step (.interpret ⟨[⟨[1], 2, 1⟩], 1, 2⟩ rfl (by decide +kernel) (by decide) hfits)
  have h8 := h7.step (.check _ rfl (by simp) rfl)
  have h9 := h8.step (.call _ rfl [⟨[7], []⟩] (by decide +kernel))
  exact ⟨_, h9, rfl, (rounds_delivered_once h9).2.2.2.1 rfl rfl⟩

end Chainspace.Broadcast
