/-
  Chainspace.Broadcast.Missing — the rounds that are asked for (`broadcast/store.go`,
  `broadcast/broadcast.go`).

  `getMissing` runs over the keys of a node's blocks and collects the rounds in between. It adds a
  round before it looks whether the limit has been reached, and so returns one too many whenever
  more are missing: a peer with the same limit refuses the request. `uint64` rounds wrap: from the
  last round there is, and after two blocks of that round, the search starts again at round 0.
-/
import Chainspace.Broadcast.Graphs
import Chainspace.Broadcast.Received

namespace Chainspace.Broadcast

open Chainspace.Lib Chainspace.Blockmania List

/-! ## §1. The functions. -/

/-- `decodeBlockRound`; `none` for an error, or a slice out of range. -/
def decodeBlockRound (d : Bytes) : Option Nat :=
  match cut (d.drop 1) with
  | none => none
  | some (_, rest) =>
    match cut rest with
    | none => none
    | some (round, _) => Lexinum.decode round

/-- The loop of `getMissing` over the items; it is left at the limit. -/
def Scan.visitItems (limit : Nat) (s : Scan) : List (Bytes × Bytes) → Option Scan
  | [] => some s
  | item :: items =>
    if s.full then some s
    else
      match decodeBlockRound item.1 with
      | none => none
      | some next => (s.visit limit next).visitItems limit items

/-- `getMissing`; `none` for an error. -/
def Table.getMissing (t : Table) (nodeID since limit : Nat) : Option Scan :=
  Scan.visitItems limit ⟨[], since, 0, false⟩ (t.iterate blockPrefix nodeID ((since + 1) % 2 ^ 64))

def Service.answerGetRounds (c : Config) (n : Service) (rounds : List Nat) :
    Except String (List SignedData) :=
  if rounds.length > c.maxBlocks then
    .error ("broadcast: requested " ++ toString rounds.length ++
      " rounds exceeds max block limit of " ++ toString c.maxBlocks)
  else .ok (n.ownBlocksAt rounds).1

/-! ## §2. The keys. -/

namespace Table

variable {t : Table} {R : BlockID → Bytes → Prop} {nodeID round : Nat}

theorem Holds.setBlock (h : t.Holds blockPrefix R) (id : BlockID) (hid : InRange id) (val : Bytes)
    (hnew : t.entries.any (fun e => e.1 = includedKey id) = false) :
    (t.setBlock id val).Holds blockPrefix
      (fun id' val' => id' = id ∧ val' = val ∨ id' ≠ id ∧ R id' val') := by
  unfold Table.setBlock
  rw [hnew]
  exact ((h.set_other (head_ne (by decide)) [0]).set_other (head_ne (by decide)) []).set hid val

/-- The identifiers of a node's blocks from a round on, as the iterator visits them. -/
def blocksFrom (t : Table) (nodeID round : Nat) : List BlockID :=
  (t.iterate blockPrefix nodeID round).filterMap (fun e => decodeBlockID (e.1.drop 1))

theorem mem_blocksFrom (h : t.Holds blockPrefix R) (hnode : nodeID < 2 ^ 64)
    (hround : round < 2 ^ 64) {id : BlockID} : id ∈ t.blocksFrom nodeID round ↔
      (∃ val, R id val) ∧ id.node = nodeID ∧ round ≤ id.round := by
  unfold blocksFrom
  rw [mem_filterMap]
  constructor
  · rintro ⟨⟨key, val⟩, he, hdecode⟩
    obtain ⟨id', hR, hkey, hrest⟩ := (mem_iterate h hnode hround).mp he
    rw [hkey, drop_succ_cons, drop_zero, decodeBlockID_encode (h.inRange id' val hR)] at hdecode
    exact Option.some.inj hdecode ▸ ⟨⟨val, hR⟩, hrest⟩
  rintro ⟨⟨val, hR⟩, hrest⟩
  refine ⟨(blockKey id, val), (mem_iterate h hnode hround).mpr ⟨id, hR, rfl, hrest⟩, ?_⟩
  exact decodeBlockID_encode (h.inRange id val hR)

theorem blocksFrom_sorted (h : t.Holds blockPrefix R) (hnode : nodeID < 2 ^ 64)
    (hround : round < 2 ^ 64) : (t.blocksFrom nodeID round).Pairwise
      (fun a b => a ≠ b ∧ a.round ≤ b.round) := by
  unfold blocksFrom
  rw [pairwise_filterMap]
  refine iterate_sorted.imp_of_mem ?_
  intro a b ha hb hab ida hida idb hidb
  obtain ⟨a', hRa, hkeya, hnodea, _⟩ := (mem_iterate h hnode hround).mp ha
  obtain ⟨b', hRb, hkeyb, hnodeb, _⟩ := (mem_iterate h hnode hround).mp hb
  have hina := h.inRange a' a.2 hRa
  have hinb := h.inRange b' b.2 hRb
  rw [hkeya, drop_succ_cons, drop_zero, decodeBlockID_encode hina] at hida
  rw [hkeyb, drop_succ_cons, drop_zero, decodeBlockID_encode hinb] at hidb
  rw [← Option.some.inj hida, ← Option.some.inj hidb]
  rw [hkeya, hkeyb, cons_lt_cons_iff] at hab
  have hless := (hab.resolve_left (UInt8.lt_irrefl _)).2
  constructor
  · intro heq
    rw [heq] at hless
    exact List.lt_irrefl _ hless
  rw [encodeBlockID_lt_iff hina hinb, hnodea, hnodeb] at hless
  rcases (hless.resolve_left (Nat.lt_irrefl _)).2 with hlt | ⟨heq, _⟩
  · exact Nat.le_of_lt hlt
  · exact Nat.le_of_eq heq

theorem decodeBlockRound_blockKey {id : BlockID} (h : InRange id) :
    decodeBlockRound (blockKey id) = some id.round := by
  unfold decodeBlockRound blockKey encodeBlockID
  rw [drop_succ_cons, drop_zero, cut_append (Lexinum.zero_not_mem_encode h.node)]
  dsimp only
  rw [cut_append (Lexinum.zero_not_mem_encode h.round)]
  exact Lexinum.decode_encode h.round

/-- **Keys sort as what they encode, and are read back.** The keys of blocks and of graphs are in
the order of the nodes, then of the rounds, then of the hashes. -/
theorem keys_sort :
    (∀ u v, u < v → v < 2 ^ 64 → Lexinum.encode u < Lexinum.encode v ∧
      ∀ x y, Lexinum.encode u ++ 0x00 :: x < Lexinum.encode v ++ 0x00 :: y) ∧
    (∀ a b, InRange a → InRange b → ∀ key ∈ [blockKey, blockGraphKey], key a < key b ↔
      a.node < b.node ∨
        a.node = b.node ∧ (a.round < b.round ∨ a.round = b.round ∧ a.hash < b.hash)) ∧
    ∀ id, InRange id → decodeBlockID (encodeBlockID id) = some id ∧
      decodeBlockRound (blockKey id) = some id.round := by
  refine ⟨?_, ?_, fun id h => ⟨decodeBlockID_encode h, decodeBlockRound_blockKey h⟩⟩
  · intro u v huv hv
    have hlt := Lexinum.encode_lt_encode huv hv
    refine ⟨hlt, fun x y => ?_⟩
    rw [append_sep_lt (fun _ => zero_lt_of_ne) (Lexinum.zero_not_mem_encode (by omega))
      (Lexinum.zero_not_mem_encode hv)]
    exact .inl hlt
  intro a b ha hb key hkey
  -- Both keys are the identifier after one byte.
  have hbyte : ∃ c, ∀ id, key id = c :: encodeBlockID id := by
    rcases mem_pair.mp hkey with rfl | rfl
    · exact ⟨blockPrefix, fun _ => rfl⟩
    · exact ⟨blockGraphPrefix, fun _ => rfl⟩
  obtain ⟨c, hc⟩ := hbyte
  rw [hc, hc, cons_lt_cons_iff, encodeBlockID_lt_iff ha hb]
  simp

theorem visit_full {limit : Nat} {s : Scan} (h : s.full = true) (rounds : List Nat) :
    rounds.foldl (Scan.visit limit) s = s := by
  induction rounds with
  | nil => rfl
  | cons next rounds ih =>
    have hvisit : s.visit limit next = s := by
      unfold Scan.visit
      rw [if_pos h]
    rw [foldl_cons, hvisit, ih]

theorem visitItems_eq {limit : Nat} {s : Scan} {items : List (Bytes × Bytes)}
    (h : ∀ e ∈ items, ∃ id, InRange id ∧ e.1 = blockKey id) :
    s.visitItems limit items = some (((items.filterMap (fun e => decodeBlockID (e.1.drop 1))).map
      BlockID.round).foldl (Scan.visit limit) s) := by
  induction items generalizing s with
  | nil => rfl
  | cons e items ih =>
    obtain ⟨id, hid, hkey⟩ := h e mem_cons_self
    have hdecode : decodeBlockID (e.1.drop 1) = some id := by
      rw [hkey]
      exact decodeBlockID_encode hid
    have hrest : (e :: items).filterMap (fun e => decodeBlockID (e.1.drop 1)) =
        id :: items.filterMap (fun e => decodeBlockID (e.1.drop 1)) :=
      filterMap_cons_some hdecode
    rw [hrest]
    by_cases hfull : s.full = true
    · rw [visit_full hfull]
      unfold Scan.visitItems
      rw [if_pos hfull]
    unfold Scan.visitItems
    rw [if_neg hfull, hkey, decodeBlockRound_blockKey hid]
    exact ih (fun e' he' => h e' (mem_cons_of_mem e he'))

/-- **The search runs over the blocks of the node behind the start**, by rounds. -/
theorem getMissing_eq (h : t.Holds blockPrefix R) (hnode : nodeID < 2 ^ 64) (since limit : Nat) :
    t.getMissing nodeID since limit =
      some (Broadcast.getMissing (t.blocksFrom nodeID ((since + 1) % 2 ^ 64)) since limit) := by
  apply visitItems_eq
  rintro ⟨key, val⟩ he
  obtain ⟨id, hR, hkey, _⟩ := (mem_iterate h hnode (Nat.mod_lt _ (by decide))).mp he
  exact ⟨id, h.inRange id val hR, hkey⟩

end Table

/-! ## §3. The loop. -/

/-- The rounds the loop runs through from `first` on: up to each key, and on behind it. -/
def runs : Nat → List Nat → List Nat
  | _, [] => []
  | first, next :: rounds => List.range' first (next - first) ++ runs ((next + 1) % 2 ^ 64) rounds

section Loop
variable {limit : Nat} {s : Scan}

theorem Scan.fill_rounds (i k : Nat) (hadded : s.added ≤ limit) :
    (s.fill limit i k).rounds = s.rounds ++ (List.range' i k).take (limit + 1 - s.added) := by
  induction k generalizing s i with
  | zero => simp [Scan.fill]
  | succ k ih =>
    have hroom : limit + 1 - s.added = limit - s.added + 1 := by omega
    unfold Scan.fill
    rw [range'_succ, hroom, take_succ_cons]
    split
    next =>
      have hzero : limit - s.added = 0 := by omega
      rw [hzero, take_zero]
    next =>
      have hrest : limit + 1 - (s.added + 1) = limit - s.added := by omega
      rw [ih (i + 1) (show s.added + 1 ≤ limit by omega)]
      rw [hrest, append_assoc, singleton_append]

/-- The inner loop returns if there are more rounds than the limit, else it counts them. -/
theorem Scan.fill_full (i k : Nat) (hfull : s.full = false) (hadded : s.added ≤ limit) :
    ((s.fill limit i k).full = true ∧ limit < s.added + k) ∨
      ((s.fill limit i k).full = false ∧ (s.fill limit i k).added = s.added + k ∧
        s.added + k ≤ limit) := by
  induction k generalizing s i with
  | zero => exact .inr ⟨hfull, rfl, hadded⟩
  | succ k ih =>
    unfold Scan.fill
    split
    next => exact .inl ⟨rfl, by omega⟩
    next =>
      have hih := ih (s := ⟨s.rounds ++ [i], i, s.added + 1, false⟩) (i + 1) rfl
        (show s.added + 1 ≤ limit by omega)
      dsimp only at hih
      rcases hih with ⟨hfull', _⟩ | ⟨hfull', _⟩
      · exact .inl ⟨hfull', by omega⟩
      · exact .inr ⟨hfull', by omega, by omega⟩

/-- **What the loop collects**: one round more than the limit, if there are that many. -/
theorem foldl_visit_rounds {rounds : List Nat} (hfull : s.full = false) (hadded : s.added ≤ limit) :
    (rounds.foldl (Scan.visit limit) s).rounds =
      s.rounds ++ (runs ((s.latest + 1) % 2 ^ 64) rounds).take (limit + 1 - s.added) := by
  induction rounds generalizing s with
  | nil => simp [runs]
  | cons next rounds ih =>
    have hvisit : s.visit limit next = _ := if_neg (by rw [hfull]; simp)
    rw [foldl_cons, hvisit]
    unfold runs
    generalize (s.latest + 1) % 2 ^ 64 = first
    have hrounds := s.fill_rounds first (next - first) hadded
    have hlen : (List.range' first (next - first)).length = next - first := length_range'
    rw [take_append]
    rcases s.fill_full first (next - first) hfull hadded with ⟨hreturn, _⟩ | ⟨hgo, hcount, _⟩
    · rw [if_pos hreturn, Table.visit_full hreturn, hrounds, hlen]
      have hzero : limit + 1 - s.added - (next - first) = 0 := by omega
      rw [hzero, take_zero, append_nil]
    · rw [if_neg (by rw [hgo]; simp), hgo, ih rfl (by dsimp only; omega)]
      rw [hrounds, hcount, hlen, append_assoc, Nat.sub_sub]

theorem getMissing_rounds (keys : List BlockID) (since limit : Nat) :
    (getMissing keys since limit).rounds =
      (runs ((since + 1) % 2 ^ 64) (keys.map BlockID.round)).take (limit + 1) := by
  unfold getMissing
  rw [foldl_visit_rounds rfl (Nat.zero_le limit)]
  rfl

end Loop

/-! ## §4. Gaps. -/

/-- The rounds between the keys, if rounds did not wrap. -/
def gaps : Nat → List Nat → List Nat
  | _, [] => []
  | first, next :: rounds => List.range' first (next - first) ++ gaps (next + 1) rounds

section Gaps
variable {first : Nat} {rounds : List Nat}

section
variable (hsorted : rounds.Pairwise (· ≤ ·)) (hfirst : ∀ v ∈ rounds, first ≤ v + 1)
include hsorted hfirst

theorem mem_gaps {r : Nat} :
    r ∈ gaps first rounds ↔ first ≤ r ∧ r ∉ rounds ∧ ∃ v ∈ rounds, r < v := by
  induction rounds generalizing first with
  | nil => simp [gaps]
  | cons next rounds ih =>
    have hrest : ∀ v ∈ rounds, next ≤ v := fun v hv => rel_of_pairwise_cons hsorted hv
    have hnext := hfirst next mem_cons_self
    unfold gaps
    rw [mem_append, mem_range'_1,
      ih hsorted.of_cons (fun v hv => by have := hrest v hv; omega), mem_cons, not_or]
    constructor
    · rintro (⟨hle, hlt⟩ | ⟨hle, hnot, v, hv, hlt⟩)
      · refine ⟨hle, ⟨by omega, fun hmem => ?_⟩, next, mem_cons_self, by omega⟩
        have := hrest r hmem
        omega
      · exact ⟨by omega, ⟨by omega, hnot⟩, v, mem_cons_of_mem next hv, hlt⟩
    rintro ⟨hle, ⟨_, hnot⟩, v, hv, hlt⟩
    by_cases hbefore : r < next
    · exact .inl ⟨hle, by omega⟩
    rcases mem_cons.mp hv with hv | hv
    · omega
    · exact .inr ⟨by omega, hnot, v, hv, hlt⟩

theorem gaps_sorted : (gaps first rounds).Pairwise (· < ·) := by
  induction rounds generalizing first with
  | nil => exact .nil
  | cons next rounds ih =>
    have hrest : ∀ v ∈ rounds, next + 1 ≤ v + 1 :=
      fun v hv => Nat.succ_le_succ (rel_of_pairwise_cons hsorted hv)
    unfold gaps
    rw [pairwise_append]
    refine ⟨pairwise_lt_range', ih hsorted.of_cons hrest, ?_⟩
    intro a ha b hb
    rw [mem_range'_1] at ha
    have hle := ((mem_gaps hsorted.of_cons hrest).mp hb).1
    omega

/-- **A second block of the last round makes the loop start again at round 0.** -/
theorem runs_cases (hbound : ∀ v ∈ rounds, v < 2 ^ 64) :
    (rounds.count (2 ^ 64 - 1) ≤ 1 ∧ runs first rounds = gaps first rounds) ∨
      (1 < rounds.count (2 ^ 64 - 1) ∧
        (gaps first rounds).length < (runs first rounds).length) := by
  induction rounds generalizing first with
  | nil => exact .inl ⟨by simp, rfl⟩
  | cons next rounds ih =>
    have hrest : ∀ v ∈ rounds, next ≤ v := fun v hv => rel_of_pairwise_cons hsorted hv
    have hnext := hbound next mem_cons_self
    have hbound' : ∀ v ∈ rounds, v < 2 ^ 64 := fun v hv => hbound v (mem_cons_of_mem next hv)
    have hbehind : ∀ v ∈ rounds, next + 1 ≤ v + 1 := fun v hv => Nat.succ_le_succ (hrest v hv)
    unfold runs gaps
    rw [count_cons]
    by_cases hlast : next = 2 ^ 64 - 1
    · -- Whatever follows is of the last round too.
      have hnone : gaps (next + 1) rounds = [] := by
        rw [eq_nil_iff_forall_not_mem]
        intro r hr
        obtain ⟨_, _, v, hv, _⟩ := (mem_gaps hsorted.of_cons hbehind).mp hr
        have := hbound' v hv
        omega
      rw [hnone, append_nil, length_append]
      cases rounds with
      | nil => exact .inl ⟨by simp [hlast], by simp [runs]⟩
      | cons v rounds =>
        have hv : v = 2 ^ 64 - 1 := by
          have := hrest v mem_cons_self
          have := hbound' v mem_cons_self
          omega
        have hwrap : (next + 1) % 2 ^ 64 = 0 := by omega
        have hagain : 0 < (runs 0 (v :: rounds)).length := by
          unfold runs
          rw [length_append, length_range']
          omega
        refine .inr ⟨?_, by rw [hwrap]; omega⟩
        rw [hv, hlast]
        simp
    have hmod : (next + 1) % 2 ^ 64 = next + 1 := Nat.mod_eq_of_lt (by omega)
    have hih := ih hsorted.of_cons hbehind hbound'
    rw [hmod, if_neg (by simpa using hlast), Nat.add_zero, length_append, length_append]
    rcases hih with ⟨hcount, heq⟩ | ⟨hcount, _⟩
    · exact .inl ⟨hcount, by rw [heq]⟩
    · exact .inr ⟨hcount, by omega⟩

end

end Gaps

/-! ## §5. The result. -/

/-- The rounds of a node's stored blocks. -/
def storedRounds (ids : List BlockID) (nodeID : Nat) : List Nat :=
  (ids.filter (fun id => id.node = nodeID)).map BlockID.round

def highest (ids : List BlockID) (nodeID : Nat) : Nat := (storedRounds ids nodeID).foldr max 0

/-- The rounds that are missing behind `since`, in ascending order. -/
def missing (ids : List BlockID) (nodeID since : Nat) : List Nat :=
  (List.range (highest ids nodeID)).filter
    (fun r => decide (since < r) && decide (r ∉ storedRounds ids nodeID))

/-- There is at most one block of the node for the last round there is. -/
def OneLast (ids : List BlockID) (nodeID : Nat) : Prop :=
  ∀ a ∈ ids, ∀ b ∈ ids, a.node = nodeID → b.node = nodeID → a.round = 2 ^ 64 - 1 →
    b.round = 2 ^ 64 - 1 → a = b

section Result
variable {t : Table} {R : BlockID → Bytes → Prop} {ids : List BlockID} {nodeID since limit : Nat}

theorem mem_storedRounds {r : Nat} :
    r ∈ storedRounds ids nodeID ↔ ∃ id ∈ ids, id.node = nodeID ∧ id.round = r := by
  unfold storedRounds
  simp only [mem_map, mem_filter, decide_eq_true_eq, and_assoc]

theorem lt_foldr_max {r : Nat} {l : List Nat} : r < l.foldr max 0 ↔ ∃ v ∈ l, r < v := by
  induction l with
  | nil => simp
  | cons v l ih =>
    rw [foldr_cons, lt_max_iff, ih]
    simp only [mem_cons, exists_eq_or_imp]

structure HoldsBlocks (t : Table) (ids : List BlockID) : Prop where
  inRange : ∀ id ∈ ids, InRange id
  holds : ∃ R, t.Holds blockPrefix R ∧ ∀ id, id ∈ ids ↔ ∃ val, R id val

section
variable (h : HoldsBlocks t ids)
include h

theorem HoldsBlocks.mem_from (hnode : nodeID < 2 ^ 64) {r v : Nat} (hr : r < 2 ^ 64) :
    v ∈ (t.blocksFrom nodeID r).map BlockID.round ↔ v ∈ storedRounds ids nodeID ∧ r ≤ v := by
  obtain ⟨R, hholds, hids⟩ := h.holds
  rw [mem_map, mem_storedRounds]
  constructor
  · rintro ⟨id, hid, rfl⟩
    obtain ⟨hR, hid, hle⟩ := (Table.mem_blocksFrom hholds hnode hr).mp hid
    exact ⟨⟨id, (hids id).mpr hR, hid, rfl⟩, hle⟩
  · rintro ⟨⟨id, hid, hidn, rfl⟩, hle⟩
    exact ⟨id, (Table.mem_blocksFrom hholds hnode hr).mpr ⟨(hids id).mp hid, hidn, hle⟩, rfl⟩

theorem HoldsBlocks.sorted_from (hnode : nodeID < 2 ^ 64) {r : Nat}
    (hr : r < 2 ^ 64) : ((t.blocksFrom nodeID r).map BlockID.round).Pairwise (· ≤ ·) := by
  obtain ⟨R, hholds, _⟩ := h.holds
  rw [pairwise_map]
  exact (Table.blocksFrom_sorted hholds hnode hr).imp (fun hab => hab.2)

theorem HoldsBlocks.storedRounds_lt {v : Nat} (hv : v ∈ storedRounds ids nodeID) : v < 2 ^ 64 := by
  obtain ⟨id, hid, _, rfl⟩ := mem_storedRounds.mp hv
  exact (h.inRange id hid).round

theorem HoldsBlocks.count_last (hnode : nodeID < 2 ^ 64) {r : Nat} (hr : r < 2 ^ 64) :
    ((t.blocksFrom nodeID r).map BlockID.round).count (2 ^ 64 - 1) ≤ 1 ↔ OneLast ids nodeID := by
  obtain ⟨R, hholds, hids⟩ := h.holds
  have hmem : ∀ {id}, id ∈ t.blocksFrom nodeID r ∧ id.round = 2 ^ 64 - 1 ↔
      id ∈ ids ∧ id.node = nodeID ∧ id.round = 2 ^ 64 - 1 := by
    intro id
    rw [Table.mem_blocksFrom hholds hnode hr, ← hids id]
    constructor
    · rintro ⟨⟨hid, hidn, _⟩, hlast⟩
      exact ⟨hid, hidn, hlast⟩
    · rintro ⟨hid, hidn, hlast⟩
      exact ⟨⟨hid, hidn, by omega⟩, hlast⟩
  have hnodup : (t.blocksFrom nodeID r).Nodup :=
    (Table.blocksFrom_sorted hholds hnode hr).imp (fun hab => hab.1)
  have hcount : ((t.blocksFrom nodeID r).map BlockID.round).count (2 ^ 64 - 1) =
      ((t.blocksFrom nodeID r).filter (fun id => id.round = 2 ^ 64 - 1)).length := by
    rw [count_eq_countP, countP_map, countP_eq_length_filter]
    rfl
  rw [hcount, ← toFinset_card_of_nodup (hnodup.filter _), Finset.card_le_one]
  simp only [mem_toFinset, mem_filter, decide_eq_true_eq, hmem]
  constructor
  · intro hone a ha b hb hna hnb hra hrb
    exact hone a ⟨ha, hna, hra⟩ b ⟨hb, hnb, hrb⟩
  · rintro hone a ⟨ha, hna, hra⟩ b ⟨hb, hnb, hrb⟩
    exact hone a ha b hb hna hnb hra hrb

/-- The gaps behind a round that is not the last one are the missing rounds. -/
theorem HoldsBlocks.gaps_eq (hnode : nodeID < 2 ^ 64) (hsince : since + 1 < 2 ^ 64) :
    gaps (since + 1) ((t.blocksFrom nodeID (since + 1)).map BlockID.round) =
      missing ids nodeID since := by
  have hsorted := h.sorted_from hnode hsince
  have hfirst : ∀ v ∈ (t.blocksFrom nodeID (since + 1)).map BlockID.round, since + 1 ≤ v + 1 := by
    intro v hv
    have := ((h.mem_from hnode hsince).mp hv).2
    omega
  apply (gaps_sorted hsorted hfirst).eq_of_mem_iff (pairwise_lt_range.filter _)
  intro r
  rw [mem_gaps hsorted hfirst, mem_filter, mem_range]
  unfold highest
  rw [lt_foldr_max, Bool.and_eq_true, decide_eq_true_iff, decide_eq_true_iff]
  simp only [h.mem_from hnode hsince]
  constructor
  · rintro ⟨hle, hnot, v, ⟨hv, _⟩, hlt⟩
    exact ⟨⟨v, hv, hlt⟩, hle, fun hr => hnot ⟨hr, hle⟩⟩
  · rintro ⟨⟨v, hv, hlt⟩, hle, hnot⟩
    exact ⟨hle, fun hr => hnot hr.1, v, ⟨hv, by omega⟩, hlt⟩

/-- From round 0 on there is no gap if every round up to the highest is stored. -/
theorem HoldsBlocks.gaps_nil_iff (hnode : nodeID < 2 ^ 64) :
    gaps 0 ((t.blocksFrom nodeID 0).map BlockID.round) = [] ↔
      ∀ r < highest ids nodeID, r ∈ storedRounds ids nodeID := by
  have hgaps : ∀ {r}, r ∈ gaps 0 ((t.blocksFrom nodeID 0).map BlockID.round) ↔ _ :=
    mem_gaps (h.sorted_from hnode (show 0 < 2 ^ 64 by decide)) (fun v _ => Nat.zero_le _)
  rw [eq_nil_iff_forall_not_mem]
  unfold highest
  simp only [hgaps, h.mem_from hnode (show 0 < 2 ^ 64 by decide), lt_foldr_max, Nat.zero_le,
    and_true, true_and]
  constructor
  · intro hnone r hr
    by_contra hnot
    exact hnone r ⟨hnot, hr⟩
  · rintro hall r ⟨hnot, hr⟩
    exact hnot (hall r hr)

theorem HoldsBlocks.missing_last (hsince : 2 ^ 64 ≤ since + 1) : missing ids nodeID since = [] := by
  unfold missing
  rw [filter_eq_nil_iff]
  intro r hr hmissing
  rw [mem_range, highest, lt_foldr_max] at hr
  obtain ⟨v, hv, _⟩ := hr
  have hbound := h.storedRounds_lt hv
  rw [Bool.and_eq_true, decide_eq_true_iff] at hmissing
  omega

theorem HoldsBlocks.getMissing_rounds (hnode : nodeID < 2 ^ 64)
    (since limit : Nat) : ∃ s, t.getMissing nodeID since limit = some s ∧
      s.rounds = (runs ((since + 1) % 2 ^ 64)
        ((t.blocksFrom nodeID ((since + 1) % 2 ^ 64)).map BlockID.round)).take (limit + 1) := by
  obtain ⟨R, hholds, _⟩ := h.holds
  exact ⟨_, Table.getMissing_eq hholds hnode since limit, Broadcast.getMissing_rounds _ since limit⟩

theorem HoldsBlocks.returned_iff (hnode : nodeID < 2 ^ 64) (hsince : since < 2 ^ 64) :
    (runs ((since + 1) % 2 ^ 64) ((t.blocksFrom nodeID ((since + 1) % 2 ^ 64)).map
        BlockID.round)).take (limit + 1) = (missing ids nodeID since).take limit ↔
      OneLast ids nodeID ∧
        if since + 1 < 2 ^ 64 then (missing ids nodeID since).length ≤ limit
        else ∀ r < highest ids nodeID, r ∈ storedRounds ids nodeID := by
  have hfirst : (since + 1) % 2 ^ 64 < 2 ^ 64 := Nat.mod_lt _ (by decide)
  have hruns := runs_cases (h.sorted_from hnode hfirst)
    (fun v hv => Nat.le_succ_of_le ((h.mem_from hnode hfirst).mp hv).2)
    (fun v hv => h.storedRounds_lt ((h.mem_from hnode hfirst).mp hv).1)
  rw [← Nat.not_le, h.count_last hnode hfirst] at hruns
  by_cases hlast : since + 1 < 2 ^ 64
  · rw [if_pos hlast]
    rw [Nat.mod_eq_of_lt hlast, h.gaps_eq hnode hlast] at hruns
    rw [Nat.mod_eq_of_lt hlast]
    constructor
    · intro heq
      have hlen := congrArg List.length heq
      rw [length_take, length_take] at hlen
      rcases hruns with ⟨hone, hsame⟩ | _
      · rw [hsame] at hlen
        exact ⟨hone, by omega⟩
      · omega
    rintro ⟨hone, hle⟩
    have hsame := (hruns.resolve_right (fun hmore => hmore.1 hone)).2
    rw [hsame, take_of_length_le (Nat.le_succ_of_le hle), take_of_length_le hle]
  have hzero : (since + 1) % 2 ^ 64 = 0 := by omega
  rw [if_neg hlast, h.missing_last (by omega), take_nil, take_eq_nil_iff]
  rw [hzero] at hruns ⊢
  rw [← h.gaps_nil_iff hnode]
  constructor
  · intro hnil
    have hnil := hnil.resolve_left (Nat.succ_ne_zero limit)
    rw [hnil] at hruns
    rcases hruns with ⟨hone, hsame⟩ | ⟨_, hlong⟩
    · exact ⟨hone, hsame.symm⟩
    · exact absurd hlong (Nat.not_lt_zero _)
  rintro ⟨hone, hnil⟩
  have hsame := (hruns.resolve_right (fun hmore => hmore.1 hone)).2
  exact .inr (hsame.trans hnil)

end

/-- **Exactly when the missing rounds are found, and the request for them is accepted**: there are
no more of them than the limit (for the last round there is, every round up to the highest is
stored), nor two blocks of the last round. -/
theorem getMissing_exact_iff (h : HoldsBlocks t ids) (hnode : nodeID < 2 ^ 64)
    (hsince : since < 2 ^ 64) :
    (∃ s, t.getMissing nodeID since limit = some s ∧
      s.rounds = (missing ids nodeID since).take limit ∧
      ∀ (c : Config) (n : Service), c.maxBlocks = limit →
        ∃ blocks, n.answerGetRounds c s.rounds = .ok blocks) ↔
      OneLast ids nodeID ∧
        if since + 1 < 2 ^ 64 then (missing ids nodeID since).length ≤ limit
        else ∀ r < highest ids nodeID, r ∈ storedRounds ids nodeID := by
  rw [← h.returned_iff hnode hsince]
  obtain ⟨s, hs, hrounds⟩ := h.getMissing_rounds hnode since limit
  rw [← hrounds]
  constructor
  · rintro ⟨s', hs', hexact, _⟩
    rw [hs] at hs'
    rw [Option.some.inj hs']
    exact hexact
  intro hexact
  refine ⟨s, hs, hexact, ?_⟩
  intro c n hc
  have hlen : s.rounds.length ≤ c.maxBlocks := by
    rw [hexact, hc]
    exact length_take_le limit _
  unfold Service.answerGetRounds
  rw [if_neg (Nat.not_lt.mpr hlen)]
  exact ⟨_, rfl⟩

end Result

def gapStore : Table :=
  (Table.setBlock ⟨[], .nil⟩ ⟨[0x07], 2, 1⟩ []).setBlock ⟨[0x08], 2, 4⟩ []

theorem gapStore_holds : HoldsBlocks gapStore [⟨[0x07], 2, 1⟩, ⟨[0x08], 2, 4⟩] := by
  have hempty : Table.Holds ⟨[], .nil⟩ blockPrefix (fun _ _ => False) :=
    ⟨fun _ _ h => h.elim, fun key val _ => by simp⟩
  have hfirst := hempty.setBlock ⟨[0x07], 2, 1⟩ ⟨by decide, by decide⟩ [] rfl
  have hsecond := hfirst.setBlock ⟨[0x08], 2, 4⟩ ⟨by decide, by decide⟩ [] (by decide)
  refine ⟨?_, _, hsecond, ?_⟩
  · intro id hid
    rcases mem_cons.mp hid with rfl | hid
    · exact ⟨by decide, by decide⟩
    · rw [mem_singleton.mp hid]
      exact ⟨by decide, by decide⟩
  intro id
  simp only [mem_cons, not_mem_nil, or_false]
  constructor
  · rintro (rfl | rfl)
    · exact ⟨[], .inr ⟨by decide, .inl ⟨rfl, rfl⟩⟩⟩
    · exact ⟨[], .inl ⟨rfl, rfl⟩⟩
  rintro ⟨_, ⟨rfl, _⟩ | ⟨_, ⟨rfl, _⟩ | ⟨_, hfalse⟩⟩⟩
  · exact .inr rfl
  · exact .inl rfl
  · exact hfalse.elim

theorem getMissing_exact_iff_two : HoldsBlocks gapStore [⟨[0x07], 2, 1⟩, ⟨[0x08], 2, 4⟩] ∧
      ∃ s, gapStore.getMissing 2 1 2 = some s ∧
        s.rounds = (missing [⟨[0x07], 2, 1⟩, ⟨[0x08], 2, 4⟩] 2 1).take 2 ∧
        ∀ (c : Config) (n : Service), c.maxBlocks = 2 →
          ∃ blocks, n.answerGetRounds c s.rounds = .ok blocks := by
  refine ⟨gapStore_holds, (getMissing_exact_iff gapStore_holds (by decide) (by decide)).mpr ?_⟩
  refine ⟨?_, by decide⟩
  intro a ha b hb _ _ hra _
  simp only [mem_cons, not_mem_nil, or_false] at ha
  rcases ha with rfl | rfl
  all_goals exact absurd hra (by decide)

/-- **One round too many**: rounds 2 and 3 are missing and the limit is 1. Both are asked for, and a
peer refuses. -/
theorem getMissing_over_limit : HoldsBlocks gapStore [⟨[0x07], 2, 1⟩, ⟨[0x08], 2, 4⟩] ∧
      (missing [⟨[0x07], 2, 1⟩, ⟨[0x08], 2, 4⟩] 2 1).take 1 = [2] ∧
      (gapStore.getMissing 2 1 1).map Scan.rounds = some [2, 3] ∧
      ∀ (c : Config) (n : Service), c.maxBlocks = 1 → n.answerGetRounds c [2, 3] =
        .error "broadcast: requested 2 rounds exceeds max block limit of 1" := by
  refine ⟨gapStore_holds, by decide, by decide, ?_⟩
  intro c n hc
  unfold Service.answerGetRounds
  rw [hc]
  rfl

end Chainspace.Broadcast
