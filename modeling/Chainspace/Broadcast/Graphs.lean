/-
  Chainspace.Broadcast.Graphs — block graphs in the database (`broadcast/store.go`).

  A graph is stored under the identifier of its block, as its previous block and its dependencies,
  every identifier after its length. The numbers in a key are separated by zero bytes and sort as
  numbers, so a scan from a round on returns exactly the graphs of the node from there on.
-/
import Chainspace.Broadcast.Delivery
import Chainspace.Internal.LexinumOrder
import Chainspace.Lib.Reader

namespace Chainspace.Broadcast

open Chainspace.Lib Chainspace.Blockmania List

/-! ## §1. Keys. -/

/-- The first byte of the keys of graphs. -/
def blockGraphPrefix : UInt8 := 2

/-- `blockGraphKey`: the byte of graphs and the encoded identifier. -/
def blockGraphKey (id : BlockID) : Bytes := blockGraphPrefix :: encodeBlockID id

/-- The bytes before the first zero byte and those after it. -/
def cut : Bytes → Option (Bytes × Bytes)
  | [] => none
  | b :: bs => if b = 0x00 then some ([], bs) else (cut bs).map fun r => (b :: r.1, r.2)

/-- `decodeBlockID`; `none` for an error.  Fields that do not end keep their zero value. -/
def decodeBlockID (d : Bytes) : Option BlockID :=
  match cut d with
  | none => some .zero
  | some (node, rest) => do
      let nodeID ← Lexinum.decode node
      match cut rest with
      | none => some ⟨[], nodeID, 0⟩
      | some (round, hash) => do
          let round ← Lexinum.decode round
          some ⟨hash, nodeID, round⟩

/-- The node and the round of an identifier are `uint64`s. -/
structure InRange (id : BlockID) : Prop where
  node : id.node < 2 ^ 64
  round : id.round < 2 ^ 64

theorem cut_append {a : Bytes} (h : 0x00 ∉ a) (x : Bytes) : cut (a ++ 0x00 :: x) = some (a, x) := by
  induction a with
  | nil => rfl
  | cons b a ih =>
    have hb : b ≠ 0x00 := fun heq => h (heq ▸ mem_cons_self)
    show (if b = 0x00 then _ else (cut (a ++ 0x00 :: x)).map _) = _
    rw [if_neg hb, ih (fun hmem => h (mem_cons_of_mem b hmem))]
    rfl

/-- **An identifier is read back**, whatever its hash. -/
theorem decodeBlockID_encode {id : BlockID} (h : InRange id) :
    decodeBlockID (encodeBlockID id) = some id := by
  unfold decodeBlockID encodeBlockID
  rw [cut_append (Lexinum.zero_not_mem_encode h.node)]
  dsimp only
  rw [Lexinum.decode_encode h.node]
  rw [cut_append (Lexinum.zero_not_mem_encode h.round)]
  dsimp only
  rw [Lexinum.decode_encode h.round]
  rfl

theorem zero_lt_of_ne {c : UInt8} (h : c ≠ 0x00) : 0x00 < c := by
  have hne : c.toNat ≠ 0 := fun heq => h (UInt8.toNat_inj.mp heq)
  exact Nat.pos_of_ne_zero hne

/-- **Keys sort by node, round and hash.** -/
theorem encodeBlockID_lt_iff {a b : BlockID} (ha : InRange a) (hb : InRange b) :
    encodeBlockID a < encodeBlockID b ↔ a.node < b.node ∨
      a.node = b.node ∧ (a.round < b.round ∨ a.round = b.round ∧ a.hash < b.hash) := by
  have heq : ∀ {u v : Nat}, u < 2 ^ 64 → v < 2 ^ 64 →
      (Lexinum.encode u = Lexinum.encode v ↔ u = v) :=
    fun hu hv => ⟨Lexinum.encode_injective hu hv, fun h => h ▸ rfl⟩
  unfold encodeBlockID
  rw [append_sep_lt (fun _ => zero_lt_of_ne) (Lexinum.zero_not_mem_encode ha.node)
      (Lexinum.zero_not_mem_encode hb.node),
    append_sep_lt (fun _ => zero_lt_of_ne) (Lexinum.zero_not_mem_encode ha.round)
      (Lexinum.zero_not_mem_encode hb.round),
    Lexinum.encode_lt_encode_iff ha.node hb.node, Lexinum.encode_lt_encode_iff ha.round hb.round,
    heq ha.node hb.node, heq ha.round hb.round]

/-! ## §2. Values. -/

/-- An identifier after its length, two bytes wide. -/
def sizedID (id : BlockID) : Bytes :=
  LittleEndian.put 2 (encodeBlockID id).length ++ encodeBlockID id

/-- A previous block, which has length zero where there is none. -/
def sizedPrev (prev : BlockID) : Bytes := if prev.valid then sizedID prev else [0x00, 0x00]

/-- A dependency: its block, the previous block of that and its links. -/
def encodeDep (dep : Dep) : Bytes :=
  sizedID dep.block ++ (sizedPrev dep.prev ++
    (LittleEndian.put 4 dep.deps.length ++ dep.deps.flatMap sizedID))

/-- `encodeBlockGraph`: the previous block, and each dependency. -/
def encodeBlockGraph (block : BlockGraph) : Bytes :=
  sizedPrev block.prev ++ (LittleEndian.put 4 block.deps.length ++ block.deps.flatMap encodeDep)

/-- An identifier of the given length. -/
def readID (ksize : Nat) : Reader BlockID := do
  let d ← Reader.bytes ksize
  StateT.lift (decodeBlockID d)

/-- Reads a `sizedID`. -/
def readSizedID : Reader BlockID := do
  let ksize ← Reader.uint 2
  readID ksize

/-- Reads a `sizedPrev`: no block where the length is zero. -/
def readPrev : Reader BlockID := do
  let ksize ← Reader.uint 2
  if ksize > 0 then readID ksize else pure .zero

/-- Reads what `encodeDep` writes. -/
def readDep : Reader Dep := do
  let id ← readSizedID
  let prev ← readPrev
  let lsize ← Reader.uint 4
  let links ← Reader.many readSizedID lsize
  pure ⟨id, links, prev⟩

/-- Reads the value of a graph, whose block is in its key. -/
def readGraph (id : BlockID) : Reader BlockGraph := do
  let prev ← readPrev
  let size ← Reader.uint 4
  let deps ← Reader.many readDep size
  pure ⟨id, deps, prev⟩

/-- What `getBlockGraphs` makes of an item; `none` for an error, or a slice out of range. -/
def decodeBlockGraph (key val : Bytes) : Option BlockGraph := do
  let id ← decodeBlockID (key.drop 1)
  let r ← readGraph id val
  some r.1

/-! ## §3. A graph reads back. -/

/-- The length of an encoded identifier fits the two bytes it has. -/
structure FitID (id : BlockID) : Prop extends InRange id where
  length : (encodeBlockID id).length ≤ 65535

/-- A previous block without a hash is the zero identifier. -/
structure FitPrev (prev : BlockID) : Prop extends FitID prev where
  zero : prev.hash = [] → prev = .zero

/-- A dependency whose identifiers and number of links fit. -/
structure FitDep (dep : Dep) : Prop where
  block : FitID dep.block
  prev : FitPrev dep.prev
  links : ∀ id ∈ dep.deps, FitID id
  count : dep.deps.length < 2 ^ 32

/-- A graph that its encoding has room for. -/
structure FitGraph (graph : BlockGraph) : Prop where
  block : FitID graph.block
  prev : FitPrev graph.prev
  deps : ∀ dep ∈ graph.deps, FitDep dep
  count : graph.deps.length < 2 ^ 32

section ReadBack
open Reader

theorem reads_id {id : BlockID} (h : InRange id) :
    Reads (readID (encodeBlockID id).length) (encodeBlockID id) id := by
  have hlift : Reads (StateT.lift (decodeBlockID (encodeBlockID id))) [] id := by
    rw [decodeBlockID_encode h]
    exact reads_pure id
  have hread := (reads_bytes (encodeBlockID id)).bind
    (f := fun d => StateT.lift (decodeBlockID d)) hlift
  rw [append_nil] at hread
  exact hread

theorem reads_sizedID {id : BlockID} (h : FitID id) : Reads readSizedID (sizedID id) id :=
  (reads_uint (Nat.lt_of_le_of_lt h.length (by decide))).bind (reads_id h.toInRange)

theorem reads_prev {prev : BlockID} (h : FitPrev prev) : Reads readPrev (sizedPrev prev) prev := by
  have hpos : (encodeBlockID prev).length > 0 := by
    unfold encodeBlockID
    simp
  unfold sizedPrev
  split
  · refine (reads_uint (Nat.lt_of_le_of_lt h.length (by decide))).bind ?_
    rw [if_pos hpos]
    exact reads_id h.toInRange
  next hnone =>
    have hzero : prev = .zero := by
      apply h.zero
      simpa [BlockID.valid] using hnone
    rw [hzero]
    exact (reads_uint (w := 2) (n := 0) (by decide)).bind (reads_pure BlockID.zero)

theorem reads_dep {dep : Dep} (h : FitDep dep) : Reads readDep (encodeDep dep) dep := by
  have hlinks := reads_many (fun id hid => reads_sizedID (h.links id hid))
  have hcount : dep.deps.length < 256 ^ 4 := Nat.lt_of_lt_of_le h.count (by decide)
  refine (reads_sizedID h.block).bind ((reads_prev h.prev).bind ((reads_uint hcount).bind ?_))
  exact hlinks.map (fun links => Dep.mk dep.block links dep.prev)

theorem reads_graph {block : BlockGraph} (h : FitGraph block) :
    Reads (readGraph block.block) (encodeBlockGraph block) block := by
  have hdeps := reads_many (fun dep hdep => reads_dep (h.deps dep hdep))
  have hcount : block.deps.length < 256 ^ 4 := Nat.lt_of_lt_of_le h.count (by decide)
  refine (reads_prev h.prev).bind ((reads_uint hcount).bind ?_)
  exact hdeps.map (fun deps => BlockGraph.mk block.block deps block.prev)

/-- **A graph is read back from its key and its value.** -/
theorem decodeBlockGraph_encode {block : BlockGraph} (h : FitGraph block) :
    decodeBlockGraph (blockGraphKey block.block) (encodeBlockGraph block) = some block := by
  have hread := reads_graph h []
  rw [append_nil] at hread
  show (decodeBlockID (encodeBlockID block.block)).bind (fun id =>
    (readGraph id (encodeBlockGraph block)).bind fun r => some r.1) = _
  rw [decodeBlockID_encode h.block.toInRange, Option.bind_some, hread]
  rfl

end ReadBack

/-! ## §4. The database. -/

/-- The first byte of the keys that say whether a block is included. -/
def includedPrefix : UInt8 := 3

/-- The key of the reference to the node's last block. -/
def lastBlockRefPrefix : UInt8 := 5

/-- The key of its hash. -/
def lastHashPrefix : UInt8 := 6

/-- The key of its round. -/
def lastRoundPrefix : UInt8 := 8

/-- The first byte of the keys of blocks that are not included yet. -/
def notIncludedPrefix : UInt8 := 9

/-- The first byte of the keys of the node's own blocks. -/
def ownBlockPrefix : UInt8 := 10

/-- `includedKey`. -/
def includedKey (id : BlockID) : Bytes := includedPrefix :: encodeBlockID id

/-- `notIncludedKey`. -/
def notIncludedKey (id : BlockID) : Bytes := notIncludedPrefix :: encodeBlockID id

/-- `ownBlockKey`: own blocks are kept by round. -/
def ownBlockKey (round : Nat) : Bytes := ownBlockPrefix :: Lexinum.encode round

/-- The database: keys in order, with their values. -/
abbrev Table := SortedTable Bytes Bytes

namespace Table

/-- `setBlock`, which leaves a block alone that is known already. -/
def setBlock (t : Table) (id : BlockID) (val : Bytes) : Table :=
  if t.entries.any (fun e => e.1 = includedKey id) then t
  else ((t.set (includedKey id) [0]).set (notIncludedKey id) []).set (blockKey id) val

/-- `setOwnBlock`, with the block and its reference as they are marshalled. -/
def setOwnBlock (t : Table) (val blockRefVal : Bytes) (graph : BlockGraph) : Table :=
  let t := t.set (blockKey graph.block) val
  let t := t.set [lastBlockRefPrefix] blockRefVal
  let t := t.set (blockGraphKey graph.block) (encodeBlockGraph graph)
  let t := t.set [lastHashPrefix] graph.block.hash
  let t := t.set [lastRoundPrefix] (LittleEndian.put 8 graph.block.round)
  let t := graph.deps.foldl (fun t ref => t.set (includedKey ref.block) [1]) t
  let t := graph.deps.foldl (fun t ref => t.delete (notIncludedKey ref.block)) t
  t.set (ownBlockKey graph.block.round) val

/-- The keys that start with a byte are those of the stored identifiers, with values in `R`. -/
structure Holds (t : Table) (p : UInt8) (R : BlockID → Bytes → Prop) : Prop where
  inRange : ∀ id val, R id val → InRange id
  iff : ∀ key val, key.head? = some p →
    ((key, val) ∈ t.entries ↔ ∃ id, R id val ∧ key = p :: encodeBlockID id)

variable {t : Table} {p : UInt8} {R : BlockID → Bytes → Prop}

theorem Holds.set_other (h : t.Holds p R) {k : Bytes} (hk : k.head? ≠ some p) (v : Bytes) :
    Table.Holds (t.set k v) p R := by
  refine ⟨h.inRange, fun key val hkey => ?_⟩
  have hne : key ≠ k := fun heq => hk (heq ▸ hkey)
  rw [SortedTable.mem_set, ← h.iff key val hkey]
  simp [hne]

theorem Holds.delete_other (h : t.Holds p R) {k : Bytes} (hk : k.head? ≠ some p) :
    Table.Holds (t.delete k) p R := by
  refine ⟨h.inRange, fun key val hkey => ?_⟩
  have hne : key ≠ k := fun heq => hk (heq ▸ hkey)
  rw [SortedTable.mem_delete, ← h.iff key val hkey]
  simp [hne]

theorem Holds.set (h : t.Holds p R) {id : BlockID} (hid : InRange id) (v : Bytes) :
    Table.Holds (SortedTable.set t (p :: encodeBlockID id) v) p
      (fun id' val => id' = id ∧ val = v ∨ id' ≠ id ∧ R id' val) := by
  have hinj : ∀ {id'}, InRange id' →
      (p :: encodeBlockID id' = p :: encodeBlockID id ↔ id' = id) := by
    intro id' hid'
    refine ⟨fun heq => ?_, fun heq => heq ▸ rfl⟩
    have hdecode := decodeBlockID_encode hid'
    rw [(List.cons.inj heq).2, decodeBlockID_encode hid] at hdecode
    exact (Option.some.inj hdecode).symm
  constructor
  · rintro id' val (⟨rfl, _⟩ | ⟨_, hR⟩)
    · exact hid
    · exact h.inRange id' val hR
  intro key val hkey
  rw [SortedTable.mem_set, h.iff key val hkey, Prod.mk.injEq]
  constructor
  · rintro (⟨rfl, rfl⟩ | ⟨⟨id', hR, rfl⟩, hne⟩)
    · exact ⟨id, .inl ⟨rfl, rfl⟩, rfl⟩
    · exact ⟨id', .inr ⟨fun heq => hne (heq ▸ rfl), hR⟩, rfl⟩
  rintro ⟨id', ⟨rfl, rfl⟩ | ⟨hne, hR⟩, rfl⟩
  · exact .inl ⟨rfl, rfl⟩
  · exact .inr ⟨⟨id', hR, rfl⟩, fun heq => hne ((hinj (h.inRange id' val hR)).mp heq)⟩

theorem head_ne {q : UInt8} {bs : Bytes} (h : q ≠ p) : (q :: bs).head? ≠ some p :=
  fun heq => h (Option.some.inj heq)

theorem Holds.foldl_included (h : t.Holds p R) (hp : includedPrefix ≠ p) (deps : List Dep) :
    Table.Holds (deps.foldl (fun t ref => t.set (includedKey ref.block) [1]) t) p R := by
  induction deps generalizing t with
  | nil => exact h
  | cons ref deps ih => exact ih (h.set_other (head_ne hp) [1])

theorem Holds.foldl_notIncluded (h : t.Holds p R) (hp : notIncludedPrefix ≠ p) (deps : List Dep) :
    Table.Holds (deps.foldl (fun t ref => t.delete (notIncludedKey ref.block)) t) p R := by
  induction deps generalizing t with
  | nil => exact h
  | cons ref deps ih => exact ih (h.delete_other (head_ne hp))

/-- The database holds the graphs of a set, each of which fits. -/
structure HoldsGraphs (t : Table) (gs : Set BlockGraph) : Prop where
  fit : ∀ g ∈ gs, FitGraph g
  holds : t.Holds blockGraphPrefix (fun id val => ∃ g ∈ gs, g.block = id ∧ encodeBlockGraph g = val)

variable {gs : Set BlockGraph}

theorem holdsGraphs_empty : HoldsGraphs ⟨[], .nil⟩ ∅ := by
  refine ⟨fun _ h => h.elim, ⟨?_, ?_⟩⟩
  · rintro _ _ ⟨_, h, _⟩
    exact h.elim
  · intro key val _
    simp

theorem Holds.congr {R' : BlockID → Bytes → Prop} (h : t.Holds p R)
    (hR : ∀ id val, R id val ↔ R' id val) : t.Holds p R' := by
  have heq : R = R' := funext fun id => funext fun val => propext (hR id val)
  exact heq ▸ h

/-- **A graph that is stored is held**, in place of one of the same block. -/
theorem HoldsGraphs.setOwnBlock (h : t.HoldsGraphs gs) {g : BlockGraph} (hg : FitGraph g)
    (val blockRefVal : Bytes) :
    (t.setOwnBlock val blockRefVal g).HoldsGraphs (insert g {g' ∈ gs | g'.block ≠ g.block}) := by
  constructor
  · rintro g' (rfl | hg')
    · exact hg
    · exact h.fit g' hg'.1
  have hblock := h.holds.set_other (k := blockKey g.block) (head_ne (by decide)) val
  have href := hblock.set_other (k := [lastBlockRefPrefix]) (by decide) blockRefVal
  have hgraph := href.set hg.block.toInRange (encodeBlockGraph g)
  have hhash := hgraph.set_other (k := [lastHashPrefix]) (by decide) g.block.hash
  have hround := hhash.set_other (k := [lastRoundPrefix]) (by decide)
    (LittleEndian.put 8 g.block.round)
  have hdeps := (hround.foldl_included (by decide) g.deps).foldl_notIncluded (by decide) g.deps
  refine Holds.congr (hdeps.set_other (head_ne (by decide)) val) ?_
  intro id val
  constructor
  · rintro (⟨rfl, rfl⟩ | ⟨hne, g', hg', rfl, rfl⟩)
    · exact ⟨g, .inl rfl, rfl, rfl⟩
    · exact ⟨g', .inr ⟨hg', hne⟩, rfl, rfl⟩
  rintro ⟨g', rfl | ⟨hg', hne⟩, rfl, rfl⟩
  · exact .inl ⟨rfl, rfl⟩
  · exact .inr ⟨hne, g', hg', rfl, rfl⟩

end Table

/-! ## §5. Iterators. -/

/-- What the keys of a node start with. -/
def nodePrefix (p : UInt8) (nodeID : Nat) : Bytes := p :: (Lexinum.encode nodeID ++ [0x00])

namespace Table

/-- The items from the key of a round on, while the iterator is `ValidForPrefix`. -/
def iterate (t : Table) (p : UInt8) (nodeID round : Nat) : List (Bytes × Bytes) :=
  scan (nodePrefix p nodeID ++ Lexinum.encode round)
    (fun key => (nodePrefix p nodeID).isPrefixOf key) t.entries

/-- The loop of `getBlockGraphs` over the items, which stops at the limit. -/
def collect (limit : Nat) (blocks : List BlockGraph) :
    List (Bytes × Bytes) → Option (List BlockGraph)
  | [] => some blocks
  | item :: items => do
      let block ← decodeBlockGraph item.1 item.2
      let blocks := blocks ++ [block]
      if blocks.length = limit then some blocks else collect limit blocks items

/-- `getBlockGraphs`; `none` for an error. -/
def getBlockGraphs (t : Table) (nodeID round limit : Nat) : Option (List BlockGraph) :=
  collect limit [] (t.iterate blockGraphPrefix nodeID round)

variable {t : Table} {p : UInt8} {R : BlockID → Bytes → Prop} {nodeID round : Nat}

theorem iterate_eq_filter : t.iterate p nodeID round = t.entries.filter (fun e =>
    !decide (e.1 < nodePrefix p nodeID ++ Lexinum.encode round) &&
      (nodePrefix p nodeID).isPrefixOf e.1) := by
  apply scan_eq_filter _ t.sorted
  intro a b hstart hab hb
  rw [ isPrefixOf_iff_prefix] at hb ⊢
  exact prefix_of_between (prefix_append _ _) hb hstart hab

theorem nodePrefix_isPrefix_iff {id : BlockID} (hid : InRange id) (hnode : nodeID < 2 ^ 64) :
    nodePrefix p nodeID <+: p :: encodeBlockID id ↔ id.node = nodeID := by
  unfold nodePrefix encodeBlockID
  rw [prefix_cons_inj]
  constructor
  · rintro ⟨rest, hrest⟩
    rw [append_assoc, singleton_append] at hrest
    have hcut := cut_append (Lexinum.zero_not_mem_encode hnode) rest
    rw [hrest, cut_append (Lexinum.zero_not_mem_encode hid.node), Option.some.injEq,
      Prod.mk.injEq] at hcut
    exact Lexinum.encode_injective hid.node hnode hcut.1
  intro heq
  rw [heq]
  exact ⟨Lexinum.encode id.round ++ 0x00 :: id.hash, by simp⟩

theorem key_lt_start_iff {id : BlockID} (hid : InRange id) (hround : round < 2 ^ 64) :
    p :: encodeBlockID id < nodePrefix p id.node ++ Lexinum.encode round ↔ id.round < round := by
  have hsame : ∀ {a x y : Bytes}, a ++ x < a ++ y ↔ x < y := by
    intro a x y
    induction a with
    | nil => rfl
    | cons c a ih =>
      rw [cons_append, cons_append, cons_lt_cons_iff, ih]
      simp
  have hkey : p :: encodeBlockID id =
      nodePrefix p id.node ++ (Lexinum.encode id.round ++ 0x00 :: id.hash) := by
    unfold nodePrefix encodeBlockID
    simp
  rw [hkey, hsame, append_sep_lt_field (fun _ => zero_lt_of_ne)
    (Lexinum.zero_not_mem_encode hid.round) (Lexinum.zero_not_mem_encode hround),
    Lexinum.encode_lt_encode_iff hid.round hround]

/-- **What an iterator visits**: the items of the node from the round on. -/
theorem mem_iterate (h : t.Holds p R) (hnode : nodeID < 2 ^ 64) (hround : round < 2 ^ 64)
    {key val : Bytes} : (key, val) ∈ t.iterate p nodeID round ↔
      ∃ id, R id val ∧ key = p :: encodeBlockID id ∧ id.node = nodeID ∧ round ≤ id.round := by
  rw [iterate_eq_filter, mem_filter]
  simp only [Bool.and_eq_true, Bool.not_eq_true', decide_eq_false_iff_not, isPrefixOf_iff_prefix]
  constructor
  · rintro ⟨hmem, hstart, hpre⟩
    have hhead : key.head? = some p := by
      obtain ⟨rest, rfl⟩ := hpre
      rfl
    obtain ⟨id, hR, rfl⟩ := (h.iff key val hhead).mp hmem
    have hid := h.inRange id val hR
    have heq := (nodePrefix_isPrefix_iff hid hnode).mp hpre
    subst heq
    rw [key_lt_start_iff hid hround] at hstart
    exact ⟨id, hR, rfl, rfl, Nat.le_of_not_lt hstart⟩
  rintro ⟨id, hR, rfl, rfl, _⟩
  have hid := h.inRange id val hR
  refine ⟨(h.iff _ val rfl).mpr ⟨id, hR, rfl⟩, ?_, (nodePrefix_isPrefix_iff hid hnode).mpr rfl⟩
  rw [key_lt_start_iff hid hround]
  omega

theorem iterate_sorted : (t.iterate p nodeID round).Pairwise (fun a b => a.1 < b.1) := by
  rw [iterate_eq_filter]
  exact t.sorted.filter _

theorem collect_eq {limit : Nat} {items : List (Bytes × Bytes)} {blocks : List BlockGraph}
    (hsome : ∀ e ∈ items, (decodeBlockGraph e.1 e.2).isSome = true)
    (hlimit : blocks.length < limit) :
    collect limit blocks items =
      some ((blocks ++ items.filterMap (fun e => decodeBlockGraph e.1 e.2)).take limit) := by
  induction items generalizing blocks with
  | nil =>
    rw [filterMap_nil, append_nil, take_of_length_le (Nat.le_of_lt hlimit)]
    rfl
  | cons e items ih =>
    obtain ⟨g, hg⟩ := Option.isSome_iff_exists.mp (hsome e mem_cons_self)
    have hlen : (blocks ++ [g]).length = blocks.length + 1 := by simp
    unfold collect
    have hrest : (e :: items).filterMap (fun e => decodeBlockGraph e.1 e.2) =
        g :: items.filterMap (fun e => decodeBlockGraph e.1 e.2) := filterMap_cons_some hg
    rw [hg, hrest, append_cons]
    show (if (blocks ++ [g]).length = limit then some (blocks ++ [g])
      else collect limit (blocks ++ [g]) items) = _
    by_cases hfull : (blocks ++ [g]).length = limit
    · rw [if_pos hfull, take_left' hfull]
    · rw [if_neg hfull]
      exact ih (fun e' he' => hsome e' (mem_cons_of_mem e he')) (by omega)

/-! ## §6. The result. -/

/-- The graphs of a node from a round on, as the iterator visits them. -/
def graphsFrom (t : Table) (nodeID round : Nat) : List BlockGraph :=
  (t.iterate blockGraphPrefix nodeID round).filterMap (fun e => decodeBlockGraph e.1 e.2)

end Table

/-- Graphs sort by round and then by hash. -/
def Before (a b : BlockGraph) : Prop :=
  a.block.round < b.block.round ∨ a.block.round = b.block.round ∧ a.block.hash < b.block.hash

namespace Table

variable {t : Table} {gs : Set BlockGraph} {nodeID round : Nat}

section
variable (h : t.HoldsGraphs gs) (hnode : nodeID < 2 ^ 64) (hround : round < 2 ^ 64)
include h hnode hround

theorem HoldsGraphs.visited {e : Bytes × Bytes} (he : e ∈ t.iterate blockGraphPrefix nodeID round) :
    ∃ g ∈ gs, e.1 = blockGraphKey g.block ∧ decodeBlockGraph e.1 e.2 = some g ∧
      g.block.node = nodeID ∧ round ≤ g.block.round := by
  obtain ⟨_, ⟨g, hg, rfl, hval⟩, hkey, hrest⟩ := (mem_iterate h.holds hnode hround).mp he
  refine ⟨g, hg, hkey, ?_, hrest⟩
  rw [hkey, ← hval]
  exact decodeBlockGraph_encode (h.fit g hg)

/-- **The graphs a scan visits** are those of the node from the round on. -/
theorem HoldsGraphs.mem_graphsFrom {g : BlockGraph} : g ∈ t.graphsFrom nodeID round ↔
      g ∈ gs ∧ g.block.node = nodeID ∧ round ≤ g.block.round := by
  unfold graphsFrom
  rw [mem_filterMap]
  constructor
  · rintro ⟨e, he, hdecode⟩
    obtain ⟨g', hg', _, hdecode', hrest⟩ := h.visited hnode hround he
    rw [hdecode'] at hdecode
    exact Option.some.inj hdecode ▸ ⟨hg', hrest⟩
  rintro ⟨hg, hrest⟩
  refine ⟨(blockGraphKey g.block, encodeBlockGraph g), ?_, decodeBlockGraph_encode (h.fit g hg)⟩
  exact (mem_iterate h.holds hnode hround).mpr ⟨g.block, ⟨g, hg, rfl, rfl⟩, rfl, hrest⟩

theorem HoldsGraphs.graphsFrom_sorted : (t.graphsFrom nodeID round).Pairwise Before := by
  unfold graphsFrom
  rw [pairwise_filterMap]
  refine iterate_sorted.imp_of_mem ?_
  intro a b ha hb hab ga hga gb hgb
  obtain ⟨ga', hmema, hkeya, hdecodea, hnodea, _⟩ := h.visited hnode hround ha
  obtain ⟨gb', hmemb, hkeyb, hdecodeb, hnodeb, _⟩ := h.visited hnode hround hb
  rw [hdecodea] at hga
  rw [hdecodeb] at hgb
  rw [← Option.some.inj hga, ← Option.some.inj hgb]
  have hless : blockGraphKey ga'.block < blockGraphKey gb'.block := by
    rw [← hkeya, ← hkeyb]
    exact hab
  unfold blockGraphKey at hless
  rw [cons_lt_cons_iff, encodeBlockID_lt_iff (h.fit ga' hmema).block.toInRange
    (h.fit gb' hmemb).block.toInRange, hnodea, hnodeb] at hless
  -- The first byte and the node are the same.
  have hless := (hless.resolve_left (UInt8.lt_irrefl _)).2
  exact (hless.resolve_left (Nat.lt_irrefl _)).2

theorem HoldsGraphs.getBlockGraphs_eq {limit : Nat} (hlimit : 1 ≤ limit) :
    t.getBlockGraphs nodeID round limit = some ((t.graphsFrom nodeID round).take limit) := by
  unfold getBlockGraphs
  rw [collect_eq _ (show ([] : List BlockGraph).length < limit from hlimit)]
  · rfl
  intro e he
  obtain ⟨g, _, _, hdecode, _⟩ := h.visited hnode hround he
  rw [hdecode]
  rfl

end

end Table

/-- **Graphs persist, and scans are exact**: every graph reads back from its key and value, and a
scan returns the first of the node's graphs from the round on, by round and hash. -/
theorem blockGraphs_exact :
    (∀ g, FitGraph g → decodeBlockGraph (blockGraphKey g.block) (encodeBlockGraph g) = some g) ∧
      ∀ (t : Table) (gs : Set BlockGraph) (nodeID round limit : Nat), t.HoldsGraphs gs →
        nodeID < 2 ^ 64 → round < 2 ^ 64 → 1 ≤ limit →
        ∃ all : List BlockGraph,
          (∀ g, g ∈ all ↔ g ∈ gs ∧ g.block.node = nodeID ∧ round ≤ g.block.round) ∧
          all.Pairwise Before ∧ t.getBlockGraphs nodeID round limit = some (all.take limit) := by
  refine ⟨fun g hg => decodeBlockGraph_encode hg, ?_⟩
  intro t gs nodeID round limit h hnode hround hlimit
  exact ⟨t.graphsFrom nodeID round, fun g => h.mem_graphsFrom hnode hround,
    h.graphsFrom_sorted hnode hround, h.getBlockGraphs_eq hnode hround hlimit⟩

/-- A graph with zero bytes in its hashes, and a dependency that has a previous block. -/
def zeroHashGraph : BlockGraph :=
  ⟨⟨[0x00, 0x07], 1, 2⟩, [⟨⟨[0x00], 2, 3⟩, [⟨[0x05, 0x00], 3, 1⟩], ⟨[0x06], 2, 2⟩⟩], .zero⟩

theorem zeroHashGraph_fit : FitGraph zeroHashGraph where
  block := ⟨⟨by decide, by decide⟩, by decide⟩
  prev := ⟨⟨⟨by decide, by decide⟩, by decide⟩, fun _ => rfl⟩
  deps := by
    intro dep hdep
    rw [mem_singleton.mp hdep]
    refine ⟨⟨⟨by decide, by decide⟩, by decide⟩, ⟨⟨⟨by decide, by decide⟩, by decide⟩, by decide⟩,
      ?_, by decide⟩
    intro id hid
    rw [mem_singleton.mp hid]
    exact ⟨⟨by decide, by decide⟩, by decide⟩
  count := by decide

theorem blockGraphs_exact_zeroHash :
    decodeBlockGraph (blockGraphKey zeroHashGraph.block) (encodeBlockGraph zeroHashGraph) =
        some zeroHashGraph ∧
      ∃ all : List BlockGraph,
        (∀ g, g ∈ all ↔ g ∈ (insert zeroHashGraph {g' ∈ (∅ : Set BlockGraph) |
          g'.block ≠ zeroHashGraph.block}) ∧ g.block.node = 1 ∧ 1 ≤ g.block.round) ∧
        all.Pairwise Before ∧
        (Table.setOwnBlock ⟨[], .nil⟩ [] [] zeroHashGraph).getBlockGraphs 1 1 100 =
          some (all.take 100) :=
  ⟨blockGraphs_exact.1 zeroHashGraph zeroHashGraph_fit,
    blockGraphs_exact.2 _ _ 1 1 100 (Table.holdsGraphs_empty.setOwnBlock zeroHashGraph_fit [] [])
      (by decide) (by decide) (by decide)⟩

end Chainspace.Broadcast
