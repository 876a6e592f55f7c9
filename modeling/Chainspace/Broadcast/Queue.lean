/-
  Chainspace.Broadcast.Queue — the queue of transactions (`AddTransaction` and the cut of
  `genBlocks` in `broadcast/broadcast.go`).

  Callers add transactions to one buffer while `genBlocks` cuts it into blocks and changes the limit
  of their number. A call tests the count under `mu` and appends under `txmu`: between these steps
  anything may happen. A caller that finds the queue full waits for the signal it saw at its test,
  which the end of a block closes. A slice out of the range of the buffer ends the process. What was
  added, what was cut and the largest limit since the last cut are kept for the proofs.
-/
import Chainspace.Broadcast.Transactions

namespace Chainspace.Broadcast

open Chainspace.Lib List

/-! ## §1. The queue. -/

/-- The arguments of `AddTransaction`. -/
structure AddRequest where
  txdata : Bytes
  fee : UInt64

def AddRequest.tx (req : AddRequest) : TransactionData := ⟨req.txdata, req.fee.toNat⟩

def AddRequest.Admitted (limit : Nat) (req : AddRequest) : Prop :=
  ¬ (req.txdata.length ≥ 2 ^ 32 ∨ req.txdata.length > limit)

instance {limit : Nat} {req : AddRequest} : Decidable (req.Admitted limit) :=
  inferInstanceAs (Decidable (¬ _))

/-- Where a call of `AddTransaction` stands. -/
inductive AddPoint
  /-- before the test of the count -/
  | checking
  /-- after it, with the signal it saw -/
  | appending (signal : Nat)
  /-- at `<-signal` -/
  | waiting (signal : Nat)
  /-- returned `errTransactionTooLarge` -/
  | tooLarge
  /-- returned nil -/
  | added
  deriving DecidableEq, Repr

structure AddCall where
  req : AddRequest
  point : AddPoint

/-- A block that was cut, and the largest limit since the cut before. -/
structure Cut where
  block : Block
  highest : Int

structure Queue where
  txCount : Nat
  txCountLimit : Int
  txData : Bytes
  txIdx : Nat
  /-- the number of signals closed -/
  signal : Nat
  calls : PMap Nat AddCall
  /-- a slice was out of range -/
  panicked : Bool
  /-- oldest first -/
  cuts : List Cut
  /-- in the order of the critical sections -/
  added : List TransactionData
  highest : Int

inductive QueueInput
  /-- a call of `AddTransaction` -/
  | call (id : Nat) (req : AddRequest)
  /-- its test of the count, under `mu` -/
  | check (id : Nat)
  /-- its critical section on `txmu` -/
  | append (id : Nat)
  /-- its signal was closed -/
  | wake (id : Nat)
  /-- `genBlocks` sets `txCountLimit` -/
  | setLimit (rate : Int)
  /-- the critical section of `genBlocks` on `txmu`; `block` has the other fields -/
  | cut (block : Block)
  /-- the end of the block: the signal is closed -/
  | finish

def putAt (buf : Bytes) (off : Nat) (bs : Bytes) : Option Bytes :=
  if off + bs.length ≤ buf.length then some (blit buf off bs) else none

/-- `copy(buf[off:], bs)`, which copies what there is room for. -/
def copyAt (buf : Bytes) (off : Nat) (bs : Bytes) : Option Bytes :=
  if off ≤ buf.length then some (blit buf off (bs.take (buf.length - off))) else none

namespace Queue

def new (limit : Nat) (rate : Int) : Queue where
  txCount := 0
  txCountLimit := rate
  txData := List.replicate limit 0
  txIdx := 0
  signal := 0
  calls := .empty
  panicked := false
  cuts := []
  added := []
  highest := rate

/-- What the buffer holds: `txCount` and `txData[:txIdx]`. -/
def pending (q : Queue) : Transactions := ⟨q.txCount, q.txData.take q.txIdx⟩

def write (q : Queue) (req : AddRequest) : Option Bytes := do
  let txData ← putAt q.txData q.txIdx (LittleEndian.put 8 req.fee.toNat)
  let txData ← putAt txData (q.txIdx + 8) (LittleEndian.put 4 req.txdata.length)
  copyAt txData (q.txIdx + 12) req.txdata

def append (q : Queue) (id : Nat) (req : AddRequest) : Queue :=
  match q.write req with
  | none => { q with panicked := true }
  | some txData => { q with
      txData := txData
      txCount := q.txCount + 1
      txIdx := q.txIdx + (12 + req.txdata.length)
      calls := q.calls.set id ⟨req, .added⟩
      added := q.added ++ [req.tx] }

def move (q : Queue) (id : Nat) (req : AddRequest) (point : AddPoint) : Queue :=
  { q with calls := q.calls.set id ⟨req, point⟩ }

def cut (q : Queue) (block : Block) : Queue :=
  { q with
    txCount := 0
    txIdx := 0
    cuts := q.cuts ++ [⟨{ block with transactions := some q.pending }, q.highest⟩]
    highest := q.txCountLimit }

/-- One step; `limit` is `txSizeLimit`. -/
def step (limit : Nat) (q : Queue) (input : QueueInput) : Option Queue :=
  if q.panicked then none
  else match input with
    | .call id req =>
      if (q.calls id).isSome then none
      else if req.txdata.length ≥ 2 ^ 32 ∨ req.txdata.length > limit then
        some (q.move id req .tooLarge)
      else some (q.move id req .checking)
    | .check id =>
      match q.calls id with
      | some ⟨req, .checking⟩ =>
        if (q.txCount : Int) = q.txCountLimit then some (q.move id req (.waiting q.signal))
        else some (q.move id req (.appending q.signal))
      | _ => none
    | .append id =>
      match q.calls id with
      | some ⟨req, .appending signal⟩ =>
        if q.txIdx + req.txdata.length + 100 > limit then some (q.move id req (.waiting signal))
        else some (q.append id req)
      | _ => none
    | .wake id =>
      match q.calls id with
      | some ⟨req, .waiting signal⟩ =>
        if signal < q.signal then some (q.move id req .checking) else none
      | _ => none
    | .setLimit rate => some { q with txCountLimit := rate, highest := max q.highest rate }
    | .cut block => some (q.cut block)
    | .finish => some { q with signal := q.signal + 1 }

def steps (limit : Nat) (q : Queue) (inputs : List QueueInput) : Option Queue :=
  inputs.foldlM (fun q input => q.step limit input) q

end Queue

/-- **A run of the queue**: steps of the callers and of `genBlocks` in any order. -/
inductive QueueRun (limit : Nat) (rate : Int) : Queue → Prop
  | start : QueueRun limit rate (.new limit rate)
  | step {q q' : Queue} {input : QueueInput} (hrun : QueueRun limit rate q)
      (h : q.step limit input = some q') : QueueRun limit rate q'

variable {limit id : Nat} {q q' : Queue} {req : AddRequest}

theorem QueueRun.steps {rate : Int}
    (hrun : QueueRun limit rate q) {inputs : List QueueInput}
    (h : q.steps limit inputs = some q') : QueueRun limit rate q' :=
  foldlM_some_inv (QueueRun limit rate) hrun (fun _ _ _ _ hq h => hq.step h) h

/-! ## §2. What a step can do. -/

inductive Queue.Steps (limit : Nat) (q : Queue) : QueueInput → Queue → Prop
  /-- a call that does not append -/
  | move (input : QueueInput) (id : Nat) (req : AddRequest) (point : AddPoint)
      (hpoint : point ≠ .added)
      (hreq : point = .tooLarge ∨ req.Admitted limit ∨
        ∃ point', point' ≠ .tooLarge ∧ q.calls id = some ⟨req, point'⟩)
      (hcheck : ∀ id', input = .check id' → id' = id)
      (htest : ∀ signal, point = .appending signal → (q.txCount : Int) ≠ q.txCountLimit) :
      Steps limit q input (q.move id req point)
  | append (id : Nat) (req : AddRequest) (signal : Nat)
      (hcall : q.calls id = some ⟨req, .appending signal⟩)
      (hfits : q.txIdx + req.txdata.length + 100 ≤ limit) :
      Steps limit q (.append id) (q.append id req)
  | setLimit (rate : Int) : Steps limit q (.setLimit rate)
      { q with txCountLimit := rate, highest := max q.highest rate }
  | cut (block : Block) : Steps limit q (.cut block) (q.cut block)
  | finish : Steps limit q .finish { q with signal := q.signal + 1 }

theorem Queue.step_cases {input : QueueInput}
    (h : q.step limit input = some q') : q.Steps limit input q' := by
  unfold Queue.step at h
  split at h
  · cases h
  cases input with
  | call id req =>
    dsimp only at h
    split at h
    · cases h
    split at h
    · cases h
      exact .move _ id req _ (by simp) (.inl rfl) nofun nofun
    next hsize =>
      cases h
      exact .move _ id req _ (by simp) (.inr (.inl hsize)) nofun nofun
  | check id =>
    dsimp only at h
    split at h
    next req hcall =>
      split at h
      next =>
        cases h
        exact .move _ id req _ (by simp) (.inr (.inr ⟨.checking, by simp, hcall⟩))
          (by rintro _ ⟨⟩; rfl) nofun
      next hne =>
        cases h
        exact .move _ id req _ (by simp) (.inr (.inr ⟨.checking, by simp, hcall⟩))
          (by rintro _ ⟨⟩; rfl) (fun _ _ => hne)
    · cases h
  | append id =>
    dsimp only at h
    split at h
    next req signal hcall =>
      split at h
      · cases h
        exact .move _ id req _ (by simp) (.inr (.inr ⟨.appending signal, by simp, hcall⟩))
          nofun nofun
      next =>
        cases h
        exact .append id req signal hcall (by omega)
    · cases h
  | wake id =>
    dsimp only at h
    split at h
    next req signal hcall =>
      split at h
      · cases h
        exact .move _ id req _ (by simp) (.inr (.inr ⟨.waiting signal, by simp, hcall⟩)) nofun nofun
      · cases h
    · cases h
  | setLimit rate =>
    cases h
    exact .setLimit rate
  | cut block =>
    cases h
    exact .cut block
  | finish =>
    cases h
    exact .finish

theorem AddRequest.length_frame (req : AddRequest) :
    req.tx.frame.length = 12 + req.txdata.length := TxIterator.length_frame req.tx

section
variable (h : q.txIdx + (12 + req.txdata.length) ≤ q.txData.length)
include h

theorem Queue.write_eq : q.write req = some (blit q.txData q.txIdx req.tx.frame) := by
  have hfee : (LittleEndian.put 8 req.fee.toNat).length = 8 := LittleEndian.length_put 8 _
  have hsize : (LittleEndian.put 4 req.txdata.length).length = 4 := LittleEndian.length_put 4 _
  unfold Queue.write putAt copyAt AddRequest.tx TransactionData.frame
  generalize LittleEndian.put 8 req.fee.toNat = fee at *
  generalize LittleEndian.put 4 req.txdata.length = size at *
  have hboth : (fee ++ size).length = 12 := by
    rw [length_append, hfee, hsize]
  -- after the fee, after the size
  have hlen : (blit q.txData q.txIdx fee).length = q.txData.length := length_blit (by omega)
  have hlen' : (blit q.txData q.txIdx (fee ++ size)).length = q.txData.length :=
    length_blit (by omega)
  have hjoin : blit (blit q.txData q.txIdx fee) (q.txIdx + 8) size =
      blit q.txData q.txIdx (fee ++ size) := by
    rw [← hfee]
    exact blit_blit (by omega) size
  have hjoin' : blit (blit q.txData q.txIdx (fee ++ size)) (q.txIdx + 12) req.txdata =
      blit q.txData q.txIdx (fee ++ (size ++ req.txdata)) := by
    rw [← hboth, ← append_assoc]
    exact blit_blit (by omega) req.txdata
  rw [if_pos (by omega), Option.bind_eq_bind, Option.bind_some, if_pos (by omega), hjoin,
    Option.bind_some, if_pos (by omega), take_of_length_le (by omega), hjoin']

/-- **The critical section of `AddTransaction`** puts the frame behind what the buffer holds. -/
theorem Queue.append_eq :
    q.append id req = { q with
      txData := blit q.txData q.txIdx req.tx.frame
      txCount := q.txCount + 1
      txIdx := q.txIdx + (12 + req.txdata.length)
      calls := q.calls.set id ⟨req, .added⟩
      added := q.added ++ [req.tx] } := by
  unfold Queue.append
  rw [Queue.write_eq h]

theorem Queue.pending_append :
    (q.append id req).pending = ⟨q.txCount + 1, q.pending.data ++ req.tx.frame⟩ := by
  rw [Queue.append_eq h]
  unfold Queue.pending
  rw [← req.length_frame] at h ⊢
  rw [take_blit h]

end

/-! ## §3. The transactions in blocks. -/

def Block.contents (b : Block) (spare : Bytes) : Except DeliverFault (List TransactionData) := do
  let it ← b.iter spare
  let (txs, _) ← it.loop it.total
  .ok txs

def Transactions.Holds (ts : Transactions) (txs : List TransactionData) : Prop :=
  (∀ tx ∈ txs, tx.Fits) ∧ txs.length = ts.count ∧ ts.data = TxIterator.framed txs

theorem Transactions.Holds.contents {ts : Transactions} {txs : List TransactionData}
    (h : ts.Holds txs) (b : Block) (spare : Bytes) :
    ({ b with transactions := some ts } : Block).contents spare = .ok txs := by
  obtain ⟨hfits, hcount, hdata⟩ := h
  obtain ⟨t, hloop, _⟩ := loop_start.mpr ⟨hfits, hcount, spare, by rw [hdata]⟩
  show ((ts.start spare).loop ts.count >>= fun r => _) = _
  rw [hloop]
  rfl

/-- What holds in every run. -/
structure Queue.Sound (limit : Nat) (q : Queue) : Prop where
  live : q.panicked = false
  length : q.txData.length = limit
  idx : q.txIdx ≤ limit
  admitted : ∀ id req point, q.calls id = some ⟨req, point⟩ → point = .tooLarge ∨ req.Admitted limit
  /-- a transaction that was added had 100 bytes to spare -/
  spare : ∀ id req, q.calls id = some ⟨req, .added⟩ → req.txdata.length + 100 ≤ limit
  /-- the blocks and the buffer have the transactions that were added -/
  carried : ∃ (parts : List (List TransactionData)) (last : List TransactionData),
    (∀ mem, q.cuts.map (fun cut => cut.block.contents mem) = parts.map .ok) ∧
      q.cuts.map (fun cut => cut.block.transactions.map Transactions.count) =
        parts.map (fun part => some part.length) ∧
      q.pending.Holds last ∧ q.added = parts.flatten ++ last

section Sound
variable {input : QueueInput}

theorem Queue.Sound.new (limit : Nat) (rate : Int) : (Queue.new limit rate).Sound limit where
  live := rfl
  length := length_replicate
  idx := Nat.zero_le limit
  admitted := fun _ _ _ h => nomatch h
  spare := fun _ _ h => nomatch h
  carried := ⟨[], [], by simp [Queue.new], rfl, ⟨by simp, rfl, rfl⟩, rfl⟩

/-- A call that appends: the buffer has room for its frame, with 88 bytes to spare. -/
theorem Queue.Sound.append (h : q.Sound limit) {id : Nat} {req : AddRequest} {signal : Nat}
    (hcall : q.calls id = some ⟨req, .appending signal⟩)
    (hfits : q.txIdx + req.txdata.length + 100 ≤ limit) : (q.append id req).Sound limit := by
  have hroom : q.txIdx + (12 + req.txdata.length) ≤ q.txData.length := by
    have hlength := h.length
    omega
  have hadmitted : req.Admitted limit := by
    rcases h.admitted id req _ hcall with heq | hadm
    · cases heq
    · exact hadm
  have hpending : (q.append id req).pending = _ := Queue.pending_append hroom
  rw [Queue.append_eq hroom] at hpending ⊢
  constructor
  case live => exact h.live
  case length =>
    rw [length_blit (by rw [req.length_frame]; exact hroom)]
    exact h.length
  case idx =>
    show q.txIdx + (12 + req.txdata.length) ≤ limit
    omega
  case admitted =>
    intro id' req' point hget
    rcases PMap.of_set hget with heq | hget
    · cases heq.2
      exact .inr hadmitted
    · exact h.admitted id' req' point hget.2
  case spare =>
    intro id' req' hget
    rcases PMap.of_set hget with heq | hget
    · cases heq.2
      omega
    · exact h.spare id' req' hget.2
  case carried =>
    obtain ⟨parts, last, hparts, hcounts, ⟨hall, hcount, hdata⟩, hadded⟩ := h.carried
    refine ⟨parts, last ++ [req.tx], hparts, hcounts, ?_, ?_⟩
    · rw [hpending]
      refine ⟨?_, ?_, ?_⟩
      · intro tx htx
        rcases mem_append.mp htx with htx | htx
        · exact hall tx htx
        rw [mem_singleton.mp htx]
        have hsize : ¬ (req.txdata.length ≥ 2 ^ 32 ∨ _) := hadmitted
        exact ⟨req.fee.toNat_lt, by show req.txdata.length < 2 ^ 32; omega⟩
      · rw [length_append, hcount]
        rfl
      show q.pending.data ++ req.tx.frame = _
      unfold TxIterator.framed
      rw [flatMap_append, flatMap_singleton, hdata]
      rfl
    · show q.added ++ [req.tx] = _
      rw [hadded, append_assoc]

theorem Queue.Sound.cut (h : q.Sound limit) (block : Block) : (q.cut block).Sound limit := by
  refine ⟨h.live, h.length, Nat.zero_le limit, h.admitted, h.spare, ?_⟩
  obtain ⟨parts, last, hparts, hcounts, hholds, hadded⟩ := h.carried
  refine ⟨parts ++ [last], [], ?_, ?_, ⟨by simp, rfl, rfl⟩, ?_⟩
  · intro mem
    show (q.cuts ++ [_]).map _ = _
    rw [map_append, map_append, hparts mem]
    exact congrArg (parts.map Except.ok ++ [·]) (hholds.contents block mem)
  · show (q.cuts ++ [_]).map _ = _
    rw [map_append, map_append, hcounts]
    exact congrArg (_ ++ [some ·]) hholds.2.1.symm
  show q.added = _
  rw [hadded]
  simp

theorem Queue.Sound.step (h : q.Sound limit) (hstep : q.step limit input = some q') :
    q'.Sound limit := by
  cases Queue.step_cases hstep with
  | move _ id req point hpoint hreq =>
    refine ⟨h.live, h.length, h.idx, ?_, ?_, h.carried⟩
    · intro id' req' point' hget
      rcases PMap.of_set hget with heq | hget
      · cases heq.2
        rcases hreq with hreq | hreq | ⟨before, hbefore, hcall⟩
        · exact .inl hreq
        · exact .inr hreq
        · exact (h.admitted id req before hcall).imp_left (fun heq => absurd heq hbefore)
      · exact h.admitted id' req' point' hget.2
    intro id' req' hget
    rcases PMap.of_set hget with heq | hget
    · cases heq.2
      exact absurd rfl hpoint
    · exact h.spare id' req' hget.2
  | append id req signal hcall hfits => exact h.append hcall hfits
  | setLimit | finish => exact ⟨h.live, h.length, h.idx, h.admitted, h.spare, h.carried⟩
  | cut block => exact h.cut block

theorem QueueRun.sound {rate : Int} (hrun : QueueRun limit rate q) : q.Sound limit := by
  induction hrun with
  | start => exact .new limit rate
  | step _ hstep ih => exact ih.step hstep

/-- **Every queued transaction is carried by exactly one block, intact.** In any interleaving of
calls and cuts, no write is out of range, and iterating over the blocks cut and then over the buffer
returns the transactions added, in the order of their critical sections; each block counts its
transactions. -/
theorem queued_transactions_carried {rate : Int} (hrun : QueueRun limit rate q) :
    q.panicked = false ∧ q.txData.length = limit ∧
      ∃ (parts : List (List TransactionData)) (last : List TransactionData),
        (∀ mem, q.cuts.map (fun cut => cut.block.contents mem) = parts.map .ok) ∧
        q.cuts.map (fun cut => cut.block.transactions.map Transactions.count) =
          parts.map (fun part => some part.length) ∧
        (∀ (b : Block) mem,
          ({ b with transactions := some q.pending } : Block).contents mem = .ok last) ∧
        q.pending.count = last.length ∧ q.added = parts.flatten ++ last := by
  obtain ⟨parts, last, hparts, hcounts, hholds, hadded⟩ := hrun.sound.carried
  exact ⟨hrun.sound.live, hrun.sound.length, parts, last, hparts, hcounts, hholds.contents,
    hholds.2.1.symm, hadded⟩

end Sound

/-- Two calls whose critical sections are in the other order, a cut, and a third call. -/
theorem queued_transactions_carried_three : ∃ q, (Queue.new 200 5).steps 200
      [.call 0 ⟨[7], 3⟩, .call 1 ⟨[8, 9], 4⟩, .check 0, .check 1, .append 1, .append 0,
        .cut ⟨1, none, [], 1, none⟩, .call 2 ⟨[], 5⟩, .check 2, .append 2] = some q ∧
    q.added.map TransactionData.fee = [4, 3, 5] ∧ q.pending.count = 1 ∧ q.panicked = false := by
  refine exists_of_any (P := fun q =>
    q.added.map TransactionData.fee = [4, 3, 5] ∧ q.pending.count = 1) (by decide +kernel) ?_
  rintro q hq ⟨hadded, hcount⟩
  exact ⟨hadded, hcount, (queued_transactions_carried (QueueRun.start.steps hq)).1⟩

/-! ## §4. Calls that never return. -/

def Queue.AddsNext (limit : Nat) (q : Queue) (id : Nat) (req : AddRequest) : Prop :=
  ∃ q', q.steps limit [.check id, .append id] = some q' ∧ q'.calls id = some ⟨req, .added⟩

/-- **A call returns from an empty queue exactly when its transaction leaves 100 bytes of it.** A
larger admitted transaction is never added: its caller waits for ever. -/
theorem addTransaction_returns_iff (limit : Nat) (req : AddRequest) (hreq : req.Admitted limit) :
    ((∀ rate q id, QueueRun limit rate q → q.calls id = some ⟨req, .checking⟩ →
        q.txIdx = 0 → (q.txCount : Int) ≠ q.txCountLimit → q.AddsNext limit id req) ↔
      req.txdata.length + 100 ≤ limit) ∧
    (limit < req.txdata.length + 100 →
      ∀ rate q id, QueueRun limit rate q → q.calls id ≠ some ⟨req, .added⟩) := by
  have hnever : limit < req.txdata.length + 100 →
      ∀ rate q id, QueueRun limit rate q → q.calls id ≠ some ⟨req, .added⟩ := by
    intro hlarge rate q id hrun hcall
    have hspare := hrun.sound.spare id req hcall
    omega
  refine ⟨⟨?_, ?_⟩, hnever⟩
  · intro h
    -- the first call of a new queue
    have hcall : (Queue.new limit 1).step limit (.call 0 req) =
        some ((Queue.new limit 1).move 0 req .checking) := by
      show (if req.txdata.length ≥ 2 ^ 32 ∨ _ then _ else _) = _
      rw [if_neg hreq]
    have hrun : QueueRun limit 1 ((Queue.new limit 1).move 0 req .checking) :=
      QueueRun.start.step hcall
    obtain ⟨q', hq', hadded⟩ := h 1 _ 0 hrun rfl rfl (by show ((0 : Nat) : Int) ≠ 1; decide)
    by_contra hlarge
    exact hnever (by omega) 1 q' 0 (hrun.steps hq') hadded
  intro hsize rate q id hrun hcall hidx hcount
  have hlive := hrun.sound.live
  have hroom : q.txIdx + (12 + req.txdata.length) ≤ q.txData.length := by
    rw [hrun.sound.length]
    omega
  have hcheck : q.step limit (.check id) = some (q.move id req (.appending q.signal)) := by
    unfold Queue.step
    rw [if_neg (by simp [hlive])]
    simp only [hcall, if_neg hcount]
  have happend : (q.move id req (.appending q.signal)).step limit (.append id) =
      some ((q.move id req (.appending q.signal)).append id req) := by
    have hget : (q.move id req (.appending q.signal)).calls id =
      some ⟨req, .appending q.signal⟩ := PMap.set_self _ _ _
    unfold Queue.step
    rw [if_neg (by simp [Queue.move, hlive])]
    simp only [hget]
    exact if_neg (by show ¬ q.txIdx + _ + _ > _; omega)
  refine ⟨(q.move id req (.appending q.signal)).append id req, ?_, ?_⟩
  · show (q.step limit (.check id)).bind (fun q => (q.step limit (.append id)).bind some) = _
    rw [hcheck, Option.bind_some, happend, Option.bind_some]
  have hadd : (q.move id req (.appending q.signal)).append id req = _ := Queue.append_eq hroom
  rw [hadd]
  exact PMap.set_self _ _ _

/-- A buffer of 100 bytes admits a transaction of one byte, and its call waits. -/
theorem admitted_transaction_waits : AddRequest.Admitted 100 ⟨[7], 3⟩ ∧
    ((Queue.new 100 5).steps 100 [.call 0 ⟨[7], 3⟩, .check 0, .append 0]).bind
        (fun q => (q.calls 0).map AddCall.point) = some (.waiting 0) ∧
      ∀ rate q id, QueueRun 100 rate q → q.calls id ≠ some ⟨⟨[7], 3⟩, .added⟩ := by
  refine ⟨by decide, by rfl, ?_⟩
  intro rate q id hrun hcall
  exact absurd (hrun.sound.spare id _ hcall) (by decide)

theorem addTransaction_returns_iff_one : AddRequest.Admitted 101 ⟨[7], 3⟩ ∧
    ∀ rate q id, QueueRun 101 rate q → q.calls id = some ⟨⟨[7], 3⟩, .checking⟩ →
      q.txIdx = 0 → (q.txCount : Int) ≠ q.txCountLimit → q.AddsNext 101 id ⟨[7], 3⟩ :=
  ⟨by decide, (addTransaction_returns_iff 101 ⟨[7], 3⟩ (by decide)).1.mpr (by decide)⟩

/-! ## §5. The limit. -/

/-- The calls that have made their test since the last append and the last change of the limit. -/
def testedAfter (tested : List Nat) : QueueInput → List Nat
  | .check id => id :: tested
  | .append _ | .setLimit _ => []
  | _ => tested

/-- A call appends with no other append and no change of the limit since its own test, and the limit
is not set below the number of queued transactions. -/
def Orderly (tested : List Nat) (q : Queue) : QueueInput → Prop
  | .append id => id ∈ tested
  | .setLimit rate => (q.txCount : Int) ≤ rate
  | _ => True

instance {tested : List Nat} : (input : QueueInput) → Decidable (Orderly tested q input)
  | .append id => inferInstanceAs (Decidable (id ∈ tested))
  | .setLimit rate => inferInstanceAs (Decidable ((q.txCount : Int) ≤ rate))
  | .call .. | .check _ | .wake _ | .cut _ | .finish => inferInstanceAs (Decidable True)

/-- **A run with an orderly schedule.** -/
inductive OrderlyRun (limit : Nat) (rate : Int) : List Nat → Queue → Prop
  | start : OrderlyRun limit rate [] (.new limit rate)
  | step {tested : List Nat} {q q' : Queue} {input : QueueInput}
      (hrun : OrderlyRun limit rate tested q) (hok : Orderly tested q input)
      (h : q.step limit input = some q') : OrderlyRun limit rate (testedAfter tested input) q'

/-- What holds in every orderly run; the test of a call in `tested` still stands. -/
structure Queue.Limited (tested : List Nat) (q : Queue) : Prop where
  count : (q.txCount : Int) ≤ q.txCountLimit
  passed : ∀ id ∈ tested, ∀ req signal, q.calls id = some ⟨req, .appending signal⟩ →
    (q.txCount : Int) ≠ q.txCountLimit
  highest : q.txCountLimit ≤ q.highest
  cuts : ∀ cut ∈ q.cuts, ∀ ts, cut.block.transactions = some ts → (ts.count : Int) ≤ cut.highest

theorem Queue.Limited.move {tested : List Nat} (h : q.Limited tested) {input : QueueInput}
    {point : AddPoint} (hcheck : ∀ id', input = .check id' → id' = id)
    (htest : ∀ signal, point = .appending signal → (q.txCount : Int) ≠ q.txCountLimit) :
    (q.move id req point).Limited (testedAfter tested input) := by
  refine ⟨h.count, ?_, h.highest, h.cuts⟩
  intro id' hid' req' signal hget
  rcases PMap.of_set hget with ⟨_, heq⟩ | ⟨hne, hget⟩
  · -- the call that moves has just made its test
    cases heq
    exact htest signal rfl
  have hold : id' ∈ tested := by
    cases input with
    | check id'' => exact (mem_cons.mp hid').resolve_left fun heq => hne (heq.trans (hcheck _ rfl))
    | append | setLimit => exact nomatch hid'
    | _ => exact hid'
  exact h.passed id' hold req' signal hget

theorem Queue.Limited.step {tested : List Nat} {input : QueueInput} (h : q.Limited tested)
    (hsound : q.Sound limit) (hok : Orderly tested q input) (hstep : q.step limit input = some q') :
    q'.Limited (testedAfter tested input) := by
  have hcount := h.count
  have hhighest := h.highest
  cases Queue.step_cases hstep with
  | move _ id req point _ _ hcheck htest => exact h.move hcheck htest
  | finish => exact ⟨hcount, h.passed, hhighest, h.cuts⟩
  | append id req signal hcall =>
    -- its own test still stands, so there is room for one more
    have hne := h.passed id hok req signal hcall
    rw [Queue.append_eq (by rw [hsound.length]; omega)]
    refine ⟨?_, nofun, hhighest, h.cuts⟩
    show ((q.txCount + 1 : Nat) : Int) ≤ q.txCountLimit
    omega
  | setLimit => exact ⟨hok, nofun, Int.le_max_right _ _, h.cuts⟩
  | cut =>
    refine ⟨?_, ?_, Int.le_refl _, ?_⟩
    · show ((0 : Nat) : Int) ≤ q.txCountLimit
      omega
    · intro id hid req signal hcall
      have hne := h.passed id hid req signal hcall
      show ((0 : Nat) : Int) ≠ q.txCountLimit
      omega
    intro cut hcut ts hts
    rcases mem_append.mp hcut with hcut | hcut
    · exact h.cuts cut hcut ts hts
    rw [mem_singleton.mp hcut] at hts ⊢
    cases hts
    show (q.txCount : Int) ≤ q.highest
    omega

theorem OrderlyRun.queueRun {rate : Int} {tested : List Nat}
    (hrun : OrderlyRun limit rate tested q) : QueueRun limit rate q := by
  induction hrun with
  | start => exact .start
  | step _ _ hstep ih => exact ih.step hstep

/-- **The limit bounds every block**, in every run with an orderly schedule: a block has at most as
many transactions as the largest limit since the cut before. -/
theorem blocks_within_limit {limit : Nat} {rate : Int} (hrate : 0 ≤ rate) {tested : List Nat}
    {q : Queue} (hrun : OrderlyRun limit rate tested q) : ∀ cut ∈ q.cuts, ∀ ts,
      cut.block.transactions = some ts → (ts.count : Int) ≤ cut.highest := by
  have hlimited : q.Limited tested := by
    induction hrun with
    | start => exact ⟨hrate, nofun, Int.le_refl _, by simp [Queue.new]⟩
    | step hrun hok hstep ih => exact ih.step hrun.queueRun.sound hok hstep
  exact hlimited.cuts

/-- Two callers pass the test of a limit of one, and a block has both transactions. -/
theorem block_above_limit : ((Queue.new 112 1).steps 112
      [.call 0 ⟨[], 0⟩, .call 1 ⟨[], 0⟩, .check 0, .check 1, .append 0, .append 1,
        .cut ⟨1, none, [], 1, none⟩]).map (fun q =>
          q.cuts.map fun cut => (cut.block.transactions.map Transactions.count, cut.highest)) =
    some [(some 2, 1)] := by
  rfl

/-- The steps of `inputs`, as long as they are orderly. -/
def Queue.orderlySteps (limit : Nat) : List Nat → Queue → List QueueInput → Option Queue
  | _, q, [] => some q
  | tested, q, input :: inputs =>
    if Orderly tested q input then
      (q.step limit input).bind fun q' =>
        Queue.orderlySteps limit (testedAfter tested input) q' inputs
    else none

theorem OrderlyRun.orderlySteps {rate : Int} {tested : List Nat} {inputs : List QueueInput}
    (hrun : OrderlyRun limit rate tested q) (h : q.orderlySteps limit tested inputs = some q') :
    ∃ tested', OrderlyRun limit rate tested' q' := by
  induction inputs generalizing tested q with
  | nil =>
    cases h
    exact ⟨tested, hrun⟩
  | cons input inputs ih =>
    rw [Queue.orderlySteps] at h
    split at h
    next hok =>
      obtain ⟨q1, h1, h⟩ := Option.bind_eq_some_iff.mp h
      exact ih (hrun.step hok h1) h
    · cases h

/-- Two callers under a limit of two, one after the other, and a third that finds it reached and
waits for the next block, where the limit is three. -/
theorem blocks_within_limit_three : ∃ tested q, OrderlyRun 200 2 tested q ∧
    q.cuts.map (fun cut => (cut.block.transactions.map Transactions.count, cut.highest)) =
        [(some 2, 2), (some 1, 3)] ∧
      ∀ cut ∈ q.cuts, ∀ ts, cut.block.transactions = some ts → (ts.count : Int) ≤ cut.highest := by
  have heval : ((Queue.new 200 2).orderlySteps 200 []
      [.call 0 ⟨[], 0⟩, .call 1 ⟨[7], 3⟩, .check 0, .append 0, .check 1, .append 1,
        .call 2 ⟨[8], 4⟩, .check 2, .cut ⟨1, none, [], 1, none⟩, .finish, .setLimit 3, .wake 2,
        .check 2, .append 2, .cut ⟨1, none, [], 2, none⟩]).any (fun q =>
          q.cuts.map (fun cut => (cut.block.transactions.map Transactions.count, cut.highest)) =
            [(some 2, 2), (some 1, 3)]) = true := by
    decide +kernel
  obtain ⟨q, hq, hcuts⟩ := (Option.any_eq_true _ _).mp heval
  obtain ⟨tested, hrun⟩ := OrderlyRun.start.orderlySteps hq
  exact ⟨tested, q, hrun, of_decide_eq_true hcuts, blocks_within_limit (by decide) hrun⟩

end Chainspace.Broadcast
