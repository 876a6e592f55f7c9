/-
  Chainspace.Blockmania.Timeouts — when a block's view timeouts lie in its future.

  A block gives each node it refers to a delay of ten times their distance, keeps the other delays
  of its chain, and picks its view timeout from them: the largest, or the `2f+1`-th smallest if
  there are more. All of this is arithmetic modulo `2 ^ 64`.

  The timeout is too large if the round leaves no room for it below `2 ^ 64`, or if it comes from a
  delay given some blocks ago. `timeouts_future_iff` says exactly when neither happens, by counting
  the nodes with a long delay.
-/
import Chainspace.Blockmania.Chain
import Chainspace.Blockmania.Heap
import Chainspace.Broadcast.Admission
import Chainspace.Lib.OrderStat

namespace Chainspace.Blockmania

open Chainspace.Lib List

/-! ## §1. The delays of a block. -/

section Delays
variable (round : Nat) (deps : List BlockID) (inherited : AList (fun _ : Nat => Nat))

/-- The delay of a node: ten times the distance to its last block among the dependencies, or else
the inherited delay. -/
def delayOf (x : Nat) : Option Nat :=
  match (deps.filter (fun dep => dep.node = x)).getLast? with
  | some dep => some (diff round dep.round * 10 % 2 ^ 64)
  | none => inherited.lookup x

/-- The nodes with a delay: those among the dependencies, or with an inherited one. -/
def delayedNodes : List Nat := (deps.map BlockID.node ++ inherited.keys).dedup

def slowNodes (limit : Nat) : List Nat :=
  (delayedNodes deps inherited).filter
    (fun x => limit < (delayOf round deps inherited x).getD 0)

theorem addDelays_lookup (x : Nat) :
    (addDelays round deps inherited).lookup x = delayOf round deps inherited x := by
  unfold addDelays
  induction deps generalizing inherited with
  | nil => rfl
  | cons dep deps ih =>
    rw [foldl_cons, ih]
    unfold delayOf
    by_cases hx : dep.node = x
    · rw [filter_cons_of_pos (by simpa using hx), getLast?_cons]
      cases (deps.filter (fun dep => dep.node = x)).getLast? with
      | none =>
        rw [hx, AList.lookup_insert]
        rfl
      | some => rfl
    rw [filter_cons_of_neg (by simpa using hx)]
    cases (deps.filter (fun dep => dep.node = x)).getLast? with
    | none => exact AList.lookup_insert_ne (Ne.symm hx)
    | some => rfl

theorem addDelays_keys (x : Nat) :
    x ∈ (addDelays round deps inherited).keys ↔ x ∈ delayedNodes deps inherited := by
  unfold addDelays delayedNodes
  rw [mem_dedup]
  induction deps generalizing inherited with
  | nil => simp
  | cons dep deps ih =>
    rw [foldl_cons, ih, map_cons, mem_append, mem_append, mem_cons,
      ← AList.mem_keys, AList.mem_insert, AList.mem_keys]
    tauto

theorem entries_map_snd (m : AList (fun _ : Nat => Nat)) :
    m.entries.map (·.2) = m.keys.map (fun x => (m.lookup x).getD 0) := by
  unfold AList.keys List.keys
  rw [map_map]
  refine map_congr_left ?_
  intro e he
  have hlookup : m.lookup e.1 = some e.2 := AList.mem_lookup_iff.mpr he
  show e.2 = (m.lookup e.1).getD 0
  rw [hlookup]
  rfl

/-- **The delays of a block, node by node.** -/
theorem addDelays_perm : ((addDelays round deps inherited).entries.map (·.2)).Perm
      ((delayedNodes deps inherited).map (fun x => (delayOf round deps inherited x).getD 0)) := by
  have hkeys : (addDelays round deps inherited).keys.Perm (delayedNodes deps inherited) := by
    apply (perm_ext_iff_of_nodup ?_ (nodup_dedup _)).mpr
    · exact addDelays_keys round deps inherited
    · exact (addDelays round deps inherited).nodupKeys
  have hvals := entries_map_snd (addDelays round deps inherited)
  simp only [addDelays_lookup] at hvals
  rw [hvals]
  exact hkeys.map _

theorem addDelays_slow (limit : Nat) :
    (((addDelays round deps inherited).entries.map (·.2)).filter (limit < ·)).length =
        (slowNodes round deps inherited limit).length ∧
      ((addDelays round deps inherited).entries.map (·.2)).length =
        (delayedNodes deps inherited).length := by
  have hperm := addDelays_perm round deps inherited
  constructor
  · rw [(hperm.filter _).length_eq, filter_map, length_map]
    rfl
  · rw [hperm.length_eq, length_map]

end Delays

/-! ## §2. The view timeout. -/

section Timeout
variable {p : Params} (hq : p.quorum2f1 = p.quorum2f + 1) (delay : AList (fun _ : Nat => Nat))
include hq

/-- The view timeout is within a limit of at least 10 exactly when few delays exceed it. -/
theorem timeoutValue_le_iff :
    ∃ tval, timeoutValue p delay = .ok tval ∧ 10 ≤ tval ∧ ∀ L, tval ≤ L ↔ 10 ≤ L ∧
      ((delay.entries.map (·.2)).filter (L < ·)).length ≤
        (delay.entries.map (·.2)).length - p.quorum2f1 := by
  unfold timeoutValue
  by_cases hmany : (delay.entries.map (·.2)).length > p.quorum2f1
  · rw [if_pos hmany]
    have hlt : p.quorum2f < ((delay.entries.map (·.2)).insertionSort (· ≤ ·)).length := by
      rw [length_insertionSort]
      omega
    have hget := getElem?_eq_getElem hlt
    refine ⟨max 10 _, by rw [hget]; rfl, Nat.le_max_left _ _, ?_⟩
    intro L
    rw [Nat.max_le, insertionSort_getElem?_le_iff hget L, hq]
  rw [if_neg hmany]
  refine ⟨_, rfl, ?_, ?_⟩
  · exact (foldl_max_le_iff.mp (Nat.le_refl _)).1
  intro L
  rw [foldl_max_le_iff]
  omega

end Timeout

/-! ## §3. Blocks. -/

def farthest (round : Nat) (recorded : List Nat) : Nat := (recorded.map (diff round)).foldl max 0

/-- **The view timeouts of a block lie in its future.** With `recorded` the rounds of the
dependencies on record, the view timeout is at least 10 and at most ten times the largest distance
to them, or 10; its sum with the round does not wrap; and the timeouts for view 0 are stored under a
later key. -/
def Future (g : Graph) (e : Entry) (recorded : List Nat) : Prop :=
  ∃ h s, openBlock g e = .ok (h, s) ∧ 10 ≤ s.timeout ∧
    s.timeout ≤ max 10 (10 * farthest e.block.round recorded) ∧
    e.block.round + s.timeout < 2 ^ 64 ∧
    ∃ key, e.block.round < key ∧ ∀ k, h.read k (s.timeouts k) =
      g.heap.read k ((findOrCreateState g e).timeouts k) ++
        if k = key then g.params.nodes.map (fun x => (⟨x, e.block.round, 0⟩ : Timeout)) else []

def delayLimit (e : Entry) (recorded : List Nat) : Nat :=
  min (max 10 (10 * farthest e.block.round recorded)) (2 ^ 64 - 1 - e.block.round)

/-- There is room for the least timeout, and all but the nodes left out by the percentile have a
delay within the limit. -/
structure FewSlow (g : Graph) (e : Entry) (recorded : List Nat) : Prop where
  early : e.block.round + 10 < 2 ^ 64
  few : (slowNodes e.block.round e.deps (findOrCreateState g e).delay
      (delayLimit e recorded)).length ≤
    (delayedNodes e.deps (findOrCreateState g e).delay).length - g.params.quorum2f1

/-- A block with a view timeout opens, and one timeout for each node is stored under the sum of
timeout and round. -/
theorem openBlock_timeout {g : Graph} {e : Entry} {tval : Nat} (htval : timeoutValue g.params
      (addDelays e.block.round e.deps (findOrCreateState g e).delay) = .ok tval) :
    ∃ h s, openBlock g e = .ok (h, s) ∧ s.timeout = tval ∧ ∀ k, h.read k (s.timeouts k) =
      g.heap.read k ((findOrCreateState g e).timeouts k) ++
        if k = (e.block.round + tval) % 2 ^ 64 then
          g.params.nodes.map (fun x => (⟨x, e.block.round, 0⟩ : Timeout)) else [] := by
  let hs := schedule g.params e.block.round ((e.block.round + tval) % 2 ^ 64) g.heap
    (delayed g e tval)
  have hopen : openBlock g e = .ok (hs.1, hs.2) := by
    unfold openBlock
    dsimp only
    rw [htval]
    rfl
  have htimeout : hs.2.timeout = tval :=
    foldl_inv (fun hs : Heap × State => hs.2.timeout = tval) rfl (fun _ _ _ h => h)
  refine ⟨hs.1, hs.2, hopen, htimeout, ?_⟩
  intro k
  exact read_schedule g.params e.block.round _ k g.heap (delayed g e tval)

/-- **Exactly when the view timeouts lie in the future.** -/
theorem timeouts_future_iff (g : Graph) (hq : g.params.quorum2f1 = g.params.quorum2f + 1)
    (e : Entry) (hround : e.block.round < 2 ^ 64) (recorded : List Nat) :
    Future g e recorded ↔ FewSlow g e recorded := by
  obtain ⟨tval, htval, hmin, hle⟩ := timeoutValue_le_iff hq
    (addDelays e.block.round e.deps (findOrCreateState g e).delay)
  obtain ⟨h, s, hopen, hs, hread⟩ := openBlock_timeout htval
  obtain ⟨hslow, hlen⟩ := addDelays_slow e.block.round e.deps (findOrCreateState g e).delay
    (delayLimit e recorded)
  have hlimit := hle (delayLimit e recorded)
  rw [hslow, hlen] at hlimit
  have hsplit : tval ≤ delayLimit e recorded ↔
      tval ≤ max 10 (10 * farthest e.block.round recorded) ∧ e.block.round + tval < 2 ^ 64 := by
    unfold delayLimit
    omega
  constructor
  · intro hf
    obtain ⟨_, s', hopen', _, hmax, hwrap, _⟩ := hf
    rw [hopen] at hopen'
    injection hopen' with hopen'
    injection hopen' with _ hs'
    rw [← hs', hs] at hmax hwrap
    exact ⟨by omega, (hlimit.mp (hsplit.mpr ⟨hmax, hwrap⟩)).2⟩
  intro hfew
  have hten : 10 ≤ delayLimit e recorded := by
    have := hfew.early
    unfold delayLimit
    omega
  obtain ⟨hmax, hwrap⟩ := hsplit.mp (hlimit.mpr ⟨hten, hfew.few⟩)
  refine ⟨h, s, hopen, ?_, ?_, ?_, e.block.round + tval, by omega, ?_⟩
  · rw [hs]
    exact hmin
  · rw [hs]
    exact hmax
  · rw [hs]
    exact hwrap
  · intro k
    rw [hread, Nat.mod_eq_of_lt hwrap]

/-- A block of round 5 that refers to a block of round 3: its view timeout is 20. -/
theorem timeouts_future_round5 :
    Future (new [1, 2, 3, 4] 0 (2 * ·)) (depEntry ⟨⟨[7], 1, 5⟩, [⟨[8], 2, 3⟩], ⟨[], 1, 4⟩⟩)
      [3, 4] :=
  (timeouts_future_iff (new [1, 2, 3, 4] 0 (2 * ·)) rfl
      (depEntry ⟨⟨[7], 1, 5⟩, [⟨[8], 2, 3⟩], ⟨[], 1, 4⟩⟩) (by decide) [3, 4]).mpr
    ⟨by decide, by decide +kernel⟩

/-- **A block near the last round is admitted, and its view timeouts are stored under a past
round.** Node 2 signs a reference with no hash to an own block of round `2 ^ 64 - 6`, and puts it
before a block of round `2 ^ 64 - 5`. -/
theorem timeouts_wrapped :
    ∃ data, Broadcast.checkBlock Broadcast.pairOne (Broadcast.signBlock Broadcast.pairOne
        ⟨2, some (Broadcast.signRef Broadcast.pairOne ⟨[], 2, 2 ^ 64 - 6⟩), [], 2 ^ 64 - 5, none⟩) =
          .ok data ∧
      ∀ recorded, ¬ Future (new [1, 2] 0 (2 * ·)) (depEntry ⟨data.id, data.deps, data.prev⟩)
        recorded := by
  have hkey : (Broadcast.pairOne.keys.verify 2).isSome = true := by decide
  obtain ⟨key, hkey⟩ := Option.isSome_iff_exists.mp hkey
  obtain ⟨data, hdata, _, hround, _⟩ :=
    Broadcast.signBlock_admitted_after ⟨[], 2, 2 ^ 64 - 6⟩ hkey (2 ^ 64 - 5) (by decide) (by decide)
  refine ⟨data, hdata, ?_⟩
  intro recorded hf
  obtain ⟨h, s, _⟩ := hf
  have hlast : (depEntry ⟨data.id, data.deps, data.prev⟩).block.round = 2 ^ 64 - 5 := hround
  omega

end Chainspace.Blockmania
