/-
  Chainspace.Broadcast.Transactions — iterating over the transactions of a delivered block
  (`broadcast/ext.go`, and the loop of `handleDeliver` in `sbac/sbac.go`).

  The transactions of a block are one byte string and a count, which the author of the block chooses
  and `processBlock` does not check. `AddTransaction` writes each after its fee and its length; the
  iterator reads them back. A Go slice may be extended over the memory behind it, up to its
  capacity: `spare` is that memory.
-/
import Chainspace.Lib.Bytes
import Chainspace.Broadcast.Service

namespace Chainspace.Broadcast

open Chainspace.Lib Chainspace.Blockmania List

/-! ## §1. The iterator. -/

structure TransactionData where
  data : Bytes
  fee : Nat
  deriving DecidableEq, Repr

/-- What ends the process while a block is delivered. -/
inductive DeliverFault
  /-- `log.Fatal` on a block that does not decode -/
  | undecodable
  /-- `b.Transactions` is nil -/
  | nilTransactions
  | sliceOutOfRange
  deriving DecidableEq, Repr

structure TxIterator where
  cur : Nat
  data : Bytes
  /-- the memory behind `data`, up to its capacity -/
  spare : Bytes
  idx : Nat
  total : Nat
  txData : Bytes
  txFee : Nat

namespace TxIterator

def slice (t : TxIterator) (low high : Nat) : Except DeliverFault Bytes :=
  if high ≤ (t.data ++ t.spare).length then .ok (((t.data ++ t.spare).take high).drop low)
  else .error .sliceOutOfRange

def next (t : TxIterator) : Except DeliverFault TxIterator := do
  let fee ← t.slice t.idx (t.idx + 8)
  let t := { t with txFee := LittleEndian.get fee, idx := t.idx + 8 }
  let length ← t.slice t.idx (t.idx + 4)
  let size := LittleEndian.get length
  let t := { t with idx := t.idx + 4 }
  let txData ← t.slice t.idx (t.idx + size)
  .ok { t with txData := txData, idx := t.idx + size, cur := t.cur + 1 }

def valid (t : TxIterator) : Bool := t.cur < t.total

/-- The loop of `handleDeliver`, for at most `fuel` transactions. -/
def loop : Nat → TxIterator → Except DeliverFault (List TransactionData × TxIterator)
  | 0, t => .ok ([], t)
  | fuel + 1, t =>
    if t.valid then do
      let t ← t.next
      let (txs, t') ← loop fuel t
      .ok (⟨t.txData, t.txFee⟩ :: txs, t')
    else .ok ([], t)

end TxIterator

/-- The iterator over the transactions of a block, before the first. -/
def Transactions.start (txs : Transactions) (spare : Bytes) : TxIterator :=
  ⟨0, txs.data, spare, 0, txs.count, [], 0⟩

def Block.iter (b : Block) (spare : Bytes) : Except DeliverFault TxIterator :=
  match b.transactions with
  | none => .error .nilTransactions
  | some txs => .ok (txs.start spare)

/-- The loop of `handleDeliver` over the blocks: the transactions, and the iterator at the end. -/
def deliverBlock (w : Wire) (signed : SignedData) (spare : Bytes) :
    Except DeliverFault (List TransactionData × TxIterator) :=
  match w.unmarshalBlock signed.data with
  | none => .error .undecodable
  | some block => do
      let it ← block.iter spare
      it.loop it.total

/-! ## §2. One step. -/

def TransactionData.frame (tx : TransactionData) : Bytes :=
  LittleEndian.put 8 tx.fee ++ (LittleEndian.put 4 tx.data.length ++ tx.data)

/-- The fee is a `uint64` and the length a `uint32`. -/
structure TransactionData.Fits (tx : TransactionData) : Prop where
  fee : tx.fee < 2 ^ 64
  size : tx.data.length < 2 ^ 32

namespace TxIterator

def rest (t : TxIterator) : Bytes := (t.data ++ t.spare).drop t.idx

def read (t : TxIterator) (tx : TransactionData) : TxIterator :=
  { t with
    txFee := tx.fee
    txData := tx.data
    idx := t.idx + 8 + 4 + tx.data.length
    cur := t.cur + 1 }

variable {t : TxIterator}

theorem slice_eq_ok {idx size : Nat} {bs : Bytes} (hidx : idx ≤ (t.data ++ t.spare).length) :
    t.slice idx (idx + size) = .ok bs ↔
      ∃ more, (t.data ++ t.spare).drop idx = bs ++ more ∧ bs.length = size := by
  have hsplit : ((t.data ++ t.spare).take (idx + size)).drop idx =
      ((t.data ++ t.spare).drop idx).take size := by
    rw [drop_take, Nat.add_sub_cancel_left]
  unfold slice
  rw [hsplit]
  constructor
  · intro h
    split at h
    next =>
      injection h with h
      refine ⟨((t.data ++ t.spare).drop idx).drop size, ?_, ?_⟩
      · rw [← h, take_append_drop]
      · rw [← h, length_take, length_drop]
        omega
    · cases h
  intro h
  obtain ⟨more, hdrop, hlen⟩ := h
  have hlength : (t.data ++ t.spare).length - idx = bs.length + more.length := by
    rw [← length_drop, hdrop, length_append]
  rw [if_pos (by omega), hdrop, ← hlen, take_left]

theorem slice_le {low high : Nat} {bs : Bytes} (h : t.slice low high = .ok bs) :
    high ≤ (t.data ++ t.spare).length := by
  unfold slice at h
  split at h
  next hle => exact hle
  · cases h

/-- **`Next` reads one transaction**, and only if one is there. -/
theorem next_eq_ok {t' : TxIterator} (hidx : t.idx ≤ (t.data ++ t.spare).length) : t.next = .ok t' ↔
      ∃ tx more, tx.Fits ∧ t.rest = TransactionData.frame tx ++ more ∧ t' = t.read tx := by
  -- what follows a slice
  have hafter : ∀ {idx size : Nat} {bs more : Bytes}, (t.data ++ t.spare).drop idx = bs ++ more →
      bs.length = size → (t.data ++ t.spare).drop (idx + size) = more := by
    intro idx size bs more h hlen
    rw [← drop_drop, h, ← hlen, drop_left]
  constructor
  · intro h
    obtain ⟨fee, hfee, h⟩ := bind_eq_ok.mp h
    obtain ⟨more, hmore, hfeelen⟩ := (slice_eq_ok hidx).mp hfee
    have hidx8 := slice_le hfee
    obtain ⟨length, hlength, h⟩ := bind_eq_ok.mp h
    obtain ⟨more', hmore', hlengthlen⟩ := (slice_eq_ok hidx8).mp hlength
    have hidx12 := slice_le hlength
    obtain ⟨txData, htx, h⟩ := bind_eq_ok.mp h
    obtain ⟨more'', hmore'', htxlen⟩ := (slice_eq_ok hidx12).mp htx
    injection h with h
    have hfee64 := LittleEndian.get_lt fee
    have hsize32 := LittleEndian.get_lt length
    rw [hfeelen] at hfee64
    rw [hlengthlen] at hsize32
    refine ⟨⟨txData, LittleEndian.get fee⟩, more'', ⟨?_, ?_⟩, ?_, ?_⟩
    · exact hfee64
    · rw [htxlen]
      exact hsize32
    · -- the three slices lie side by side
      have hput8 : LittleEndian.put 8 (LittleEndian.get fee) = fee := by
        rw [← hfeelen]
        exact LittleEndian.put_get fee
      have hput4 : LittleEndian.put 4 txData.length = length := by
        rw [htxlen, ← hlengthlen]
        exact LittleEndian.put_get length
      show (t.data ++ t.spare).drop t.idx = LittleEndian.put 8 (LittleEndian.get fee) ++
        (LittleEndian.put 4 txData.length ++ txData) ++ more''
      have heq : more = length ++ more' := (hafter hmore hfeelen).symm.trans hmore'
      have heq' : more' = txData ++ more'' := (hafter hmore' hlengthlen).symm.trans hmore''
      rw [hput8, hput4, hmore, heq, heq', append_assoc, append_assoc]
    · rw [← h]
      unfold read
      rw [htxlen]
  intro h
  obtain ⟨tx, more, hfits, hrest, heq⟩ := h
  have hrest : (t.data ++ t.spare).drop t.idx = LittleEndian.put 8 tx.fee ++
      (LittleEndian.put 4 tx.data.length ++ (tx.data ++ more)) := by
    exact hrest
  have hfee := (slice_eq_ok hidx).mpr ⟨_, hrest, LittleEndian.length_put 8 tx.fee⟩
  have hrest := hafter hrest (LittleEndian.length_put 8 tx.fee)
  have hlength := (slice_eq_ok (slice_le hfee)).mpr
    ⟨_, hrest, LittleEndian.length_put 4 tx.data.length⟩
  have hrest := hafter hrest (LittleEndian.length_put 4 tx.data.length)
  have htx := (slice_eq_ok (slice_le hlength)).mpr ⟨_, hrest, rfl⟩
  have hget8 : LittleEndian.get (LittleEndian.put 8 tx.fee) = tx.fee :=
    LittleEndian.get_put_of_lt hfits.fee
  have hget4 : LittleEndian.get (LittleEndian.put 4 tx.data.length) = tx.data.length :=
    LittleEndian.get_put_of_lt hfits.size
  refine bind_eq_ok.mpr ⟨_, hfee, bind_eq_ok.mpr ⟨_, hlength, bind_eq_ok.mpr ⟨tx.data, ?_, ?_⟩⟩⟩
  · rw [hget4]
    exact htx
  · rw [hget4, hget8, heq]
    rfl

theorem length_frame (tx : TransactionData) : tx.frame.length = 8 + 4 + tx.data.length := by
  unfold TransactionData.frame
  rw [length_append, length_append, LittleEndian.length_put, LittleEndian.length_put, Nat.add_assoc]

theorem rest_read (hidx : t.idx ≤ (t.data ++ t.spare).length)
    {tx : TransactionData} {more : Bytes} (h : t.rest = tx.frame ++ more) :
    (t.read tx).rest = more ∧ (t.read tx).idx ≤ ((t.read tx).data ++ (t.read tx).spare).length := by
  have hidx' : (t.read tx).idx = t.idx + tx.frame.length := by
    rw [length_frame]
    show t.idx + 8 + 4 + tx.data.length = _
    omega
  have hdrop : t.rest.length = (t.data ++ t.spare).length - t.idx := length_drop
  have hlen : t.rest.length = tx.frame.length + more.length := by
    rw [h, length_append]
  constructor
  · show (t.data ++ t.spare).drop (t.read tx).idx = more
    rw [hidx', ← drop_drop]
    show t.rest.drop _ = more
    rw [h, drop_left]
  · show (t.read tx).idx ≤ (t.data ++ t.spare).length
    omega

/-! ## §3. The loop. -/

def framed (txs : List TransactionData) : Bytes := txs.flatMap TransactionData.frame

/-- **The loop runs to its end exactly on framed transactions**, and returns them. -/
theorem loop_eq_ok {fuel : Nat} {txs : List TransactionData}
    (hidx : t.idx ≤ (t.data ++ t.spare).length) (hfuel : t.total - t.cur = fuel) :
    (∃ t', t.loop fuel = .ok (txs, t') ∧ t'.valid = false) ↔
      (∀ tx ∈ txs, tx.Fits) ∧ txs.length = fuel ∧ ∃ more, t.rest = framed txs ++ more := by
  induction fuel generalizing t txs with
  | zero =>
    constructor
    · intro h
      obtain ⟨t', h, _⟩ := h
      cases h
      exact ⟨by simp, rfl, t.rest, rfl⟩
    intro h
    rw [eq_nil_of_length_eq_zero h.2.1]
    exact ⟨t, rfl, decide_eq_false (by omega)⟩
  | succ fuel ih =>
    have hvalid : t.valid = true := decide_eq_true (by omega)
    have hloop : t.loop (fuel + 1) = (do
        let t ← t.next
        let (txs, t') ← loop fuel t
        .ok (⟨t.txData, t.txFee⟩ :: txs, t')) := by
      rw [loop, if_pos hvalid]
    rw [hloop]
    constructor
    · intro h
      obtain ⟨t', h, hdone⟩ := h
      obtain ⟨t1, ht1, h⟩ := bind_eq_ok.mp h
      obtain ⟨⟨txs', t2⟩, ht2, h⟩ := bind_eq_ok.mp h
      cases h
      obtain ⟨tx, more, hfits, hrest, heq⟩ := (next_eq_ok hidx).mp ht1
      obtain ⟨hmore, hidx1⟩ := rest_read hidx hrest
      subst heq
      have hfuel1 : (t.read tx).total - (t.read tx).cur = fuel := by
        show t.total - (t.cur + 1) = fuel
        omega
      obtain ⟨hall, hlen, more', hmore'⟩ := (ih hidx1 hfuel1).mp ⟨t', ht2, hdone⟩
      refine ⟨?_, by simp [hlen], more', ?_⟩
      · intro x hx
        rcases mem_cons.mp hx with hx | hx
        · exact hx ▸ hfits
        · exact hall x hx
      · show t.rest = tx.frame ++ framed txs' ++ more'
        rw [hrest, ← hmore, hmore', append_assoc]
    intro h
    obtain ⟨hall, hlen, more, hrest⟩ := h
    cases txs with
    | nil => cases hlen
    | cons tx txs =>
      have hrest : t.rest = tx.frame ++ (framed txs ++ more) := by
        rw [← append_assoc]
        exact hrest
      obtain ⟨hmore, hidx1⟩ := rest_read hidx hrest
      have hfuel1 : (t.read tx).total - (t.read tx).cur = fuel := by
        show t.total - (t.cur + 1) = fuel
        omega
      have hnext := (next_eq_ok hidx).mpr ⟨tx, _, hall tx mem_cons_self, hrest, rfl⟩
      obtain ⟨t', hloop', hdone⟩ := (ih hidx1 hfuel1).mpr
        ⟨fun x hx => hall x (mem_cons_of_mem tx hx), by simpa using hlen, more, hmore⟩
      refine ⟨t', ?_, hdone⟩
      rw [hnext]
      show (loop fuel (t.read tx) >>= _) = _
      rw [hloop']
      rfl

end TxIterator

/-! ## §4. The result. -/

/-- The data of a block starts with as many transactions as the block counts. -/
def Transactions.WellFramed (ts : Transactions) : Prop :=
  ∃ txs : List TransactionData, (∀ tx ∈ txs, tx.Fits) ∧ txs.length = ts.count ∧
    TxIterator.framed txs <+: ts.data

/-- A block has transactions, framed as `AddTransaction` frames them. -/
def WellFramed (w : Wire) (signed : SignedData) : Prop :=
  ∃ block ts, w.unmarshalBlock signed.data = some block ∧ block.transactions = some ts ∧
    ts.WellFramed

/-- Whatever lies behind the data of a block, its delivery reads within range, follows no nil
pointer, and ends after as many transactions as it counts. -/
def IteratesInRange (w : Wire) (signed : SignedData) : Prop :=
  ∀ spare, ∃ txs t, deliverBlock w signed spare = .ok (txs, t) ∧ t.valid = false ∧
    txs.length = t.total

theorem deliverBlock_eq {w : Wire} {signed : SignedData} {block : Block} {ts : Transactions}
    (hblock : w.unmarshalBlock signed.data = some block) (hts : block.transactions = some ts)
    (spare : Bytes) :
    deliverBlock w signed spare = (ts.start spare).loop ts.count := by
  unfold deliverBlock Block.iter
  simp only [hblock, hts]
  rfl

theorem loop_start {ts : Transactions} {spare : Bytes} {txs : List TransactionData} :
    (∃ t, (ts.start spare).loop ts.count = .ok (txs, t) ∧ t.valid = false) ↔
      (∀ tx ∈ txs, tx.Fits) ∧ txs.length = ts.count ∧
        ∃ more, ts.data ++ spare = TxIterator.framed txs ++ more := by
  have hidx : (ts.start spare).idx ≤ ((ts.start spare).data ++ (ts.start spare).spare).length :=
    Nat.zero_le _
  exact TxIterator.loop_eq_ok hidx rfl

theorem TxIterator.loop_total {fuel : Nat} {t t' : TxIterator} {txs : List TransactionData}
    (h : t.loop fuel = .ok (txs, t')) : t'.total = t.total := by
  induction fuel generalizing t txs with
  | zero =>
    cases h
    rfl
  | succ fuel ih =>
    unfold TxIterator.loop at h
    split at h
    · obtain ⟨t1, ht1, h⟩ := bind_eq_ok.mp h
      obtain ⟨⟨txs', t2⟩, ht2, h⟩ := bind_eq_ok.mp h
      cases h
      obtain ⟨_, _, ht1⟩ := bind_eq_ok.mp ht1
      obtain ⟨_, _, ht1⟩ := bind_eq_ok.mp ht1
      obtain ⟨_, _, ht1⟩ := bind_eq_ok.mp ht1
      rw [ih ht2]
      cases ht1
      rfl
    · cases h
      rfl

/-- **A block is delivered without a fault exactly when its transactions are well framed.** -/
theorem iterates_in_range_iff (w : Wire) (signed : SignedData) :
    IteratesInRange w signed ↔ WellFramed w signed := by
  constructor
  · intro h
    -- no memory behind the data: every slice is one of the data
    obtain ⟨txs, t, hdeliver, hdone, _⟩ := h []
    cases hblock : w.unmarshalBlock signed.data with
    | none =>
      unfold deliverBlock at hdeliver
      rw [hblock] at hdeliver
      cases hdeliver
    | some block =>
      cases hts : block.transactions with
      | none =>
        unfold deliverBlock Block.iter at hdeliver
        simp only [hblock, hts] at hdeliver
        exact absurd hdeliver (by simp [bind, Except.bind])
      | some ts =>
        rw [deliverBlock_eq hblock hts] at hdeliver
        obtain ⟨hfits, hcount, more, hmore⟩ := loop_start.mp ⟨t, hdeliver, hdone⟩
        refine ⟨block, ts, hblock, hts, txs, hfits, hcount, more, ?_⟩
        rw [← hmore, append_nil]
  intro h spare
  obtain ⟨block, ts, hblock, hts, txs, hfits, hcount, more, hmore⟩ := h
  have hrest : ts.data ++ spare = TxIterator.framed txs ++ (more ++ spare) := by
    rw [← hmore, append_assoc]
  obtain ⟨t, hloop, hdone⟩ := loop_start.mpr ⟨hfits, hcount, more ++ spare, hrest⟩
  refine ⟨txs, t, ?_, hdone, ?_⟩
  · rw [deliverBlock_eq hblock hts]
    exact hloop
  · rw [hcount, TxIterator.loop_total hloop]
    rfl

/-- Node 1 admits a block without transactions, and one that counts a transaction and has none: the
first ends the process at a nil pointer, the second at a slice. -/
theorem malformed_blocks_admitted :
    (∃ data, checkBlock pairOne (signBlock pairOne ⟨2, none, [], 1, none⟩) = .ok data) ∧
      deliverBlock plainWire (signBlock pairOne ⟨2, none, [], 1, none⟩) [] =
        .error .nilTransactions ∧
      (∃ data, checkBlock pairOne (signBlock pairOne ⟨2, none, [], 1, some ⟨1, []⟩⟩) = .ok data) ∧
      deliverBlock plainWire (signBlock pairOne ⟨2, none, [], 1, some ⟨1, []⟩⟩) [] =
        .error .sliceOutOfRange := by
  have hadmitted : ∀ txs, ∃ data,
      checkBlock pairOne (signBlock pairOne ⟨2, none, [], 1, txs⟩) = .ok data := by
    intro txs
    have hkey : (pairOne.keys.verify 2).isSome = true := by decide
    obtain ⟨key, hkey⟩ := Option.isSome_iff_exists.mp hkey
    obtain ⟨data, hdata, _⟩ := signBlock_admitted hkey txs
    exact ⟨data, hdata⟩
  exact ⟨hadmitted none, by rfl, hadmitted _, by rfl⟩

/-! ## §5. The order of transactions (`ext.go`). -/

namespace TransactionData

/-- The comparison of `Sort`. The shared hasher is reset after each sum; `bytes.Compare` is the
order of `Bytes`. -/
def less (hash : Bytes → Bytes) (a b : TransactionData) : Bool :=
  if a.fee = b.fee then hash b.data < hash a.data else b.fee < a.fee

/-- What `Sort` leaves of a list, given that `sort.Slice` sorts. -/
def Sorts (hash : Bytes → Bytes) (ts ts' : List TransactionData) : Prop :=
  ts'.Perm ts ∧ ts'.Pairwise fun a b => b.less hash a = false

variable {hash : Bytes → Bytes} {a b : TransactionData}

theorem less_iff :
    a.less hash b = true ↔ b.fee < a.fee ∨ a.fee = b.fee ∧ hash b.data < hash a.data := by
  unfold less
  split
  next h => simp [h]
  next h => simp [h]

theorem less_eq_false_iff :
    b.less hash a = false ↔ b.fee < a.fee ∨ a.fee = b.fee ∧ ¬ hash a.data < hash b.data := by
  rw [← Bool.not_eq_true, less_iff, not_or, not_and, Nat.not_lt]
  constructor
  · rintro ⟨hle, hhash⟩
    rcases Nat.lt_or_eq_of_le hle with hlt | heq
    · exact .inl hlt
    · exact .inr ⟨heq.symm, hhash heq⟩
  rintro (hlt | ⟨heq, hhash⟩)
  · exact ⟨by omega, fun heq => by omega⟩
  · exact ⟨by omega, fun _ => hhash⟩

/-- **`Sort` is canonical**: the comparison is a strict order in which only equal transactions are
equivalent, and two orders of the same transactions are sorted into one list, by descending fee and
then by descending hash. -/
theorem sort_canonical (hinj : Function.Injective hash) :
    (∀ a : TransactionData, a.less hash a = false) ∧
    (∀ a b c : TransactionData, a.less hash b → b.less hash c → a.less hash c) ∧
    (∀ a b : TransactionData, a.less hash b = false ∧ b.less hash a = false ↔ a = b) ∧
    (∀ ts us ts' us', ts.Perm us → Sorts hash ts ts' → Sorts hash us us' → ts' = us') ∧
    ∀ ts ts', Sorts hash ts ts' → ts'.Pairwise fun a b =>
      b.fee < a.fee ∨ a.fee = b.fee ∧ ¬ hash a.data < hash b.data := by
  have hirrefl : ∀ a : TransactionData, a.less hash a = false := fun a =>
    less_eq_false_iff.mpr (.inr ⟨rfl, List.lt_irrefl _⟩)
  have heq : ∀ a b : TransactionData, a.less hash b = false ∧ b.less hash a = false → a = b := by
    rintro ⟨data, fee⟩ ⟨data', fee'⟩ ⟨hab, hba⟩
    simp only [less_eq_false_iff] at hab hba
    rcases hab with hab | ⟨rfl, hab⟩
    · omega
    have hle : ¬ hash data < hash data' := by
      rcases hba with hba | hba
      · omega
      · exact hba.2
    rw [hinj (List.le_antisymm hab hle)]
  refine ⟨hirrefl, ?_, ?_, ?_, ?_⟩
  · intro a b c hab hbc
    rw [less_iff] at hab hbc ⊢
    rcases hab with hab | ⟨hfee, hab⟩
    · exact .inl (by omega)
    rcases hbc with hbc | ⟨hfee', hbc⟩
    · exact .inl (by omega)
    · exact .inr ⟨hfee.trans hfee', List.lt_trans hbc hab⟩
  · exact fun a b => ⟨heq a b, fun h => h ▸ ⟨hirrefl a, hirrefl a⟩⟩
  · rintro ts us ts' us' hperm ⟨hts, hsorted⟩ ⟨hus, hsorted'⟩
    exact List.Perm.eq_of_pairwise (fun a b _ _ hba hab => heq a b ⟨hab, hba⟩) hsorted hsorted'
      (hts.trans (hperm.trans hus.symm))
  · exact fun ts ts' h => h.2.imp less_eq_false_iff.mp

theorem sort_canonical_swap : [⟨[2], 7⟩, ⟨[1], 7⟩].Pairwise fun a b : TransactionData =>
    b.fee < a.fee ∨ a.fee = b.fee ∧ ¬ id a.data < id b.data :=
  (sort_canonical Function.injective_id).2.2.2.2 [⟨[1], 7⟩, ⟨[2], 7⟩] _ ⟨.swap .., by decide⟩

end TransactionData

end Chainspace.Broadcast
