/-
  Chainspace.Broadcast.Replay — own block graphs are fed again (`broadcast/broadcast.go`,
  `broadcast/replay.go`).

  `replayGraphChanges` and `Replay` read the graphs of the node batch by batch, and move a cursor on
  by the size of the batch. A scan includes the cursor's round, and the first round is 1, so a
  cursor that starts at 0 is one round behind after the first full batch, whose last graph is fed
  again.
-/
import Chainspace.Broadcast.Graphs
import Chainspace.Lib.Halting

namespace Chainspace.Broadcast

open Chainspace.Lib Chainspace.Blockmania List

/-! ## §1. The loop. -/

/-- The variables of the loop: `from`, the graphs passed to `graph.Add`, and whether it was left. -/
structure Replaying where
  cursor : Nat
  fed : List BlockGraph
  done : Bool

/-- A pass through the loop; an error leaves it. -/
def Replaying.advance (t : Table) (nodeID batch : Nat) (r : Replaying) : Option Replaying :=
  if r.done then none
  else
    match t.getBlockGraphs nodeID r.cursor batch with
    | none => some { r with done := true }
    | some blocks =>
      if blocks.length < batch then some ⟨r.cursor, r.fed ++ blocks, true⟩
      else some ⟨(r.cursor + batch) % 2 ^ 64, r.fed ++ blocks, false⟩

namespace Table

def replayFrom (t : Table) (nodeID batch cursor : Nat) : Part (List BlockGraph) :=
  (StateTransition.eval (Replaying.advance t nodeID batch) ⟨cursor, [], false⟩).map Replaying.fed

def replayGraphChanges (t : Table) (nodeID round : Nat) : Part (List BlockGraph) :=
  t.replayFrom nodeID 100 round

/-- `Replay`: the variable `from` starts at 0, whatever the start point. -/
def replay (t : Table) (nodeID _start batch : Nat) : Part (List BlockGraph) :=
  t.replayFrom nodeID batch 0

end Table

/-! ## §2. Scans of own graphs. -/

/-- The database has one graph of the node for each round from 1 on, `own`. -/
structure OwnGraphs (t : Table) (nodeID : Nat) (own : List BlockGraph) : Prop where
  node : nodeID < 2 ^ 64
  holds : ∃ gs : Set BlockGraph, t.HoldsGraphs gs ∧ ∀ g, g ∈ own ↔ g ∈ gs ∧ g.block.node = nodeID
  rounds : own.map (·.block.round) = List.range' 1 own.length

instance : Std.Asymm Before where
  asymm a b hab hba := by
    unfold Before at hab hba
    rcases hab with hab | ⟨hab, hhash⟩
    · omega
    · exact List.lt_asymm hhash (hba.resolve_left (by omega)).2

section Own
variable {t : Table} {nodeID : Nat} {own l : List BlockGraph} {r r' : Replaying}

theorem filter_eq_drop {s : Nat} (c : Nat) (h : l.map (·.block.round) = List.range' s l.length) :
    l.filter (fun g => c ≤ g.block.round) = l.drop (c - s) := by
  induction l generalizing s with
  | nil => simp
  | cons g l ih =>
    rw [map_cons, length_cons, range'_succ, List.cons.injEq] at h
    have hrest := ih h.2
    by_cases hc : c ≤ g.block.round
    · have hzero : c - s = 0 := by omega
      have hzero' : c - (s + 1) = 0 := by omega
      rw [filter_cons_of_pos (by simpa using hc), hrest, hzero, hzero', drop_zero, drop_zero]
    · have hsucc : c - s = c - (s + 1) + 1 := by omega
      rw [filter_cons_of_neg (by simpa using hc), hrest, hsucc, drop_succ_cons]

section
variable (h : OwnGraphs t nodeID own)
include h

theorem OwnGraphs.sorted : own.Pairwise Before := by
  have hrounds : (own.map (·.block.round)).Pairwise (· < ·) := by
    rw [h.rounds]
    exact pairwise_lt_range'
  exact (pairwise_map.mp hrounds).imp (fun hlt => .inl hlt)

theorem OwnGraphs.nodup : own.Nodup := h.sorted.nodup

theorem OwnGraphs.length_lt : own.length < 2 ^ 64 := by
  by_cases hne : own.length = 0
  · omega
  have hlast : own.length ∈ own.map (·.block.round) := by
    rw [h.rounds, mem_range'_1]
    omega
  obtain ⟨g, hg, _⟩ := mem_map.mp hlast
  obtain ⟨gs, hholds, hmem⟩ := h.holds
  have hfit := (hholds.fit g ((hmem g).mp hg).1).block.round
  omega

theorem OwnGraphs.getBlockGraphs_eq {cursor batch : Nat}
    (hcursor : cursor < 2 ^ 64) (hbatch : 1 ≤ batch) :
    t.getBlockGraphs nodeID cursor batch = some ((own.drop (cursor - 1)).take batch) := by
  obtain ⟨gs, hholds, hmem⟩ := h.holds
  have hall : t.graphsFrom nodeID cursor = own.filter (fun g => cursor ≤ g.block.round) := by
    apply (hholds.graphsFrom_sorted h.node hcursor).eq_of_mem_iff (h.sorted.filter _)
    intro g
    rw [hholds.mem_graphsFrom h.node hcursor, mem_filter, hmem g, decide_eq_true_iff, and_assoc]
  rw [hholds.getBlockGraphs_eq h.node hcursor hbatch, hall, filter_eq_drop cursor h.rounds]

end

/-! ## §3. One step. -/

variable {batch cursor : Nat} {fed : List BlockGraph}

theorem OwnGraphs.advance_last (h : OwnGraphs t nodeID own) (hcursor : cursor < 2 ^ 64)
    (hbatch : 1 ≤ batch) (hlast : own.length < cursor - 1 + batch) :
    Replaying.advance t nodeID batch ⟨cursor, fed, false⟩ =
      some ⟨cursor, fed ++ own.drop (cursor - 1), true⟩ := by
  have hlen : (own.drop (cursor - 1)).length < batch := by
    rw [length_drop]
    omega
  unfold Replaying.advance
  rw [if_neg (by simp), h.getBlockGraphs_eq hcursor hbatch, take_of_length_le (by omega)]
  dsimp only
  rw [if_pos hlen]

theorem OwnGraphs.advance_full (h : OwnGraphs t nodeID own) (fed : List BlockGraph)
    (hcursor : cursor < 2 ^ 64) (hbatch : 1 ≤ batch) (hfull : cursor - 1 + batch ≤ own.length) :
    Replaying.advance t nodeID batch ⟨cursor, fed, false⟩ =
      some ⟨(cursor + batch) % 2 ^ 64, fed ++ (own.drop (cursor - 1)).take batch, false⟩ := by
  have hlen : ((own.drop (cursor - 1)).take batch).length = batch := by
    rw [length_take, length_drop]
    omega
  unfold Replaying.advance
  rw [if_neg (by simp), h.getBlockGraphs_eq hcursor hbatch]
  dsimp only
  rw [if_neg (by omega)]

theorem advance_fed (h : r.advance t nodeID batch = some r') : r.fed <+: r'.fed := by
  unfold Replaying.advance at h
  split at h
  · cases h
  split at h
  · rw [← Option.some.inj h]
  next =>
    split at h
    all_goals
      rw [← Option.some.inj h]
      exact prefix_append _ _

/-! ## §4. Whole runs. -/

open StateTransition (eval Reaches)

theorem fed_of_reaches (h : Reaches (Replaying.advance t nodeID batch) r r') :
    r.fed <+: r'.fed := by
  induction h with
  | refl => exact prefix_rfl
  | tail _ hnext ih => exact ih.trans (advance_fed hnext)

theorem prefix_of_reaches
    (hl : (eval (Replaying.advance t nodeID batch) r).map Replaying.fed = Part.some l)
    (h : Reaches (Replaying.advance t nodeID batch) r r') : r'.fed <+: l := by
  have hmem : l ∈ (eval (Replaying.advance t nodeID batch) r).map Replaying.fed := by
    rw [hl]
    exact Part.mem_some l
  obtain ⟨s, hs, rfl⟩ := (Part.mem_map_iff _).mp hmem
  rw [StateTransition.reaches_eval h] at hs
  exact fed_of_reaches (StateTransition.mem_eval.mp hs).1

theorem OwnGraphs.eval_last (h : OwnGraphs t nodeID own) (hcursor : cursor < 2 ^ 64)
    (hbatch : 1 ≤ batch) (hlast : own.length < cursor - 1 + batch) :
    (eval (Replaying.advance t nodeID batch) ⟨cursor, fed, false⟩).map Replaying.fed =
      Part.some (fed ++ own.drop (cursor - 1)) := by
  have hstep : Reaches (Replaying.advance t nodeID batch) ⟨cursor, fed, false⟩
      ⟨cursor, fed ++ own.drop (cursor - 1), true⟩ :=
    .single (h.advance_last hcursor hbatch hlast)
  have hend : eval (Replaying.advance t nodeID batch) ⟨cursor, fed ++ own.drop (cursor - 1), true⟩ =
      Part.some ⟨cursor, fed ++ own.drop (cursor - 1), true⟩ :=
    Part.eq_some_iff.mpr (StateTransition.mem_eval.mpr ⟨.refl, rfl⟩)
  rw [StateTransition.reaches_eval hstep, hend, Part.map_some]

theorem drop_eq_take_append (hpos : 1 ≤ cursor) : own.drop (cursor - 1) =
      (own.drop (cursor - 1)).take batch ++ own.drop (cursor + batch - 1) := by
  have hsucc : cursor + batch - 1 = cursor - 1 + batch := by omega
  rw [hsucc, ← drop_drop, take_append_drop]

section
variable (h : OwnGraphs t nodeID own)
include h

/-- **From round 1 on the loop is exact**, unless its cursor comes to wrap around. -/
theorem OwnGraphs.eval_exact (hbatch : 1 ≤ batch) (hcursor : cursor < 2 ^ 64) (hpos : 1 ≤ cursor)
    (hwrap : ¬ (own.length = 2 ^ 64 - 1 ∧ batch ∣ 2 ^ 64 - cursor)) :
    (eval (Replaying.advance t nodeID batch) ⟨cursor, fed, false⟩).map Replaying.fed =
      Part.some (fed ++ own.drop (cursor - 1)) := by
  induction hn : 2 ^ 64 - cursor using Nat.strong_induction_on generalizing cursor fed with
  | _ n ih =>
    by_cases hlast : own.length < cursor - 1 + batch
    · exact h.eval_last hcursor hbatch hlast
    have hlen := h.length_lt
    have hnext : cursor + batch < 2 ^ 64 := by
      by_contra hge
      have hend : 2 ^ 64 - cursor = batch := by omega
      exact hwrap ⟨by omega, hend ▸ Nat.dvd_refl _⟩
    have hstep := h.advance_full fed hcursor hbatch (by omega)
    rw [Nat.mod_eq_of_lt hnext] at hstep
    have hwrap' : ¬ (own.length = 2 ^ 64 - 1 ∧ batch ∣ 2 ^ 64 - (cursor + batch)) := by
      rintro ⟨heq, hdvd⟩
      have hsum : 2 ^ 64 - cursor = 2 ^ 64 - (cursor + batch) + batch := by omega
      exact hwrap ⟨heq, hsum ▸ hdvd.add (Nat.dvd_refl batch)⟩
    rw [StateTransition.reaches_eval (.single hstep),
      ih (2 ^ 64 - (cursor + batch)) (by omega) hnext (by omega) hwrap' rfl, append_assoc,
      ← drop_eq_take_append hpos]

/-- The cursor wraps when the last graph ends a batch and has the last round there is. -/
theorem OwnGraphs.reaches_wrap (fed : List BlockGraph)
    (hbatch : 1 ≤ batch) (hcursor : cursor < 2 ^ 64) (hpos : 1 ≤ cursor)
    (hlen : own.length = 2 ^ 64 - 1) (hdvd : batch ∣ 2 ^ 64 - cursor) :
    Reaches (Replaying.advance t nodeID batch) ⟨cursor, fed, false⟩
      ⟨0, fed ++ own.drop (cursor - 1), false⟩ := by
  induction hn : 2 ^ 64 - cursor using Nat.strong_induction_on generalizing cursor fed with
  | _ n ih =>
    have hle : batch ≤ 2 ^ 64 - cursor := Nat.le_of_dvd (by omega) hdvd
    have hstep := h.advance_full fed hcursor hbatch (by omega)
    by_cases hend : cursor + batch = 2 ^ 64
    · rw [hend, Nat.mod_self, take_of_length_le (by rw [length_drop]; omega)] at hstep
      exact .single hstep
    have hnext : cursor + batch < 2 ^ 64 := by omega
    rw [Nat.mod_eq_of_lt hnext] at hstep
    have hdvd' : batch ∣ 2 ^ 64 - (cursor + batch) := by
      rw [← Nat.sub_sub]
      exact Nat.dvd_sub hdvd (Nat.dvd_refl batch)
    have hrest := ih (2 ^ 64 - (cursor + batch)) (by omega)
      (fed ++ (own.drop (cursor - 1)).take batch) hnext (by omega) hdvd' rfl
    rw [append_assoc, ← drop_eq_take_append hpos] at hrest
    exact .head hstep hrest

theorem OwnGraphs.not_exact_wrap (hbatch : 1 ≤ batch)
    (hcursor : cursor < 2 ^ 64) (hpos : 1 ≤ cursor) (hlen : own.length = 2 ^ 64 - 1)
    (hdvd : batch ∣ 2 ^ 64 - cursor) :
    t.replayFrom nodeID batch cursor ≠ Part.some (own.drop (cursor - 1)) := by
  intro hexact
  have hwrap := h.reaches_wrap [] hbatch hcursor hpos hlen hdvd
  have hle : batch ≤ 2 ^ 64 - cursor := Nat.le_of_dvd (by omega) hdvd
  have hagain : Replaying.advance t nodeID batch ⟨0, [] ++ own.drop (cursor - 1), false⟩ = _ :=
    h.advance_full _ (by omega) hbatch (by omega)
  have hlong := (prefix_of_reaches hexact (hwrap.tail hagain)).length_le
  simp only [length_append, length_take, length_drop, length_nil] at hlong
  omega

/-- **From 0 on the last graph of a full batch is fed twice.** -/
theorem OwnGraphs.not_nodup_of_full (hbatch : 1 ≤ batch) (hfull : batch ≤ own.length)
    (hl : t.replayFrom nodeID batch 0 = Part.some l) : ¬ l.Nodup := by
  intro hnodup
  have hlen := h.length_lt
  have hfirst : Replaying.advance t nodeID batch ⟨0, [], false⟩ = _ :=
    h.advance_full [] (by omega) hbatch (by omega)
  rw [Nat.zero_add, Nat.mod_eq_of_lt (by omega)] at hfirst
  obtain ⟨g, hg⟩ : ∃ g, own[batch - 1]? = some g := ⟨own[batch - 1], getElem?_eq_getElem (by omega)⟩
  have hone : g ∈ [] ++ (own.drop (0 - 1)).take batch := by
    rw [nil_append, mem_iff_getElem?]
    exact ⟨batch - 1, by rw [getElem?_take_of_lt (by omega)]; exact hg⟩
  -- The next scan starts at the round of the graph that ended the batch.
  obtain ⟨r, hr, hmem⟩ : ∃ r, Replaying.advance t nodeID batch
      ⟨batch, [] ++ (own.drop (0 - 1)).take batch, false⟩ = some r ∧
      ∃ more, r.fed = ([] ++ (own.drop (0 - 1)).take batch) ++ g :: more := by
    have hdrop : own.drop (batch - 1) = g :: own.drop batch := by
      obtain ⟨hlt, hget⟩ := List.getElem?_eq_some_iff.mp hg
      rw [drop_eq_getElem_cons hlt, hget, Nat.sub_add_cancel hbatch]
    by_cases hlast : own.length < batch - 1 + batch
    · exact ⟨_, h.advance_last (by omega) hbatch hlast, own.drop batch, by rw [hdrop]⟩
    refine ⟨_, h.advance_full _ (by omega) hbatch (by omega),
      (own.drop batch).take (batch - 1), ?_⟩
    rw [hdrop, ← Nat.sub_add_cancel hbatch, take_succ_cons, Nat.add_sub_cancel]
  obtain ⟨more, hmore⟩ := hmem
  have hpre := prefix_of_reaches hl (.tail (.single hfirst) hr)
  have htwice := hnodup.sublist hpre.sublist
  rw [hmore] at htwice
  exact disjoint_of_nodup_append htwice hone mem_cons_self

end

/-! ## §5. The result. -/

theorem OwnGraphs.replayFrom_zero (h : OwnGraphs t nodeID own) (hbatch : 1 ≤ batch)
    (hless : own.length < batch) : t.replayFrom nodeID batch 0 = Part.some own :=
  h.eval_last (by omega) hbatch (by omega)

/-- **Exactly when a replay is exact.** For `replayGraphChanges` from 0 on there is less than a
batch, otherwise the cursor does not wrap around. For `Replay` there is less than a batch, and
nothing before the start point. -/
theorem replay_exact_iff (h : OwnGraphs t nodeID own) :
    (∀ round < 2 ^ 64, t.replayGraphChanges nodeID round =
        Part.some (own.filter (fun g => round ≤ g.block.round)) ↔
      if round = 0 then own.length < 100
      else ¬ (own.length = 2 ^ 64 - 1 ∧ 100 ∣ 2 ^ 64 - round)) ∧
    (∀ start < 2 ^ 64, ∀ batch, 1 ≤ batch → batch < 2 ^ 63 →
      (t.replay nodeID start batch = Part.some (own.filter (fun g => start ≤ g.block.round)) ↔
        own.length < batch ∧ (start ≤ 1 ∨ own.length = 0))) := by
  constructor
  · intro round hround
    by_cases hzero : round = 0
    · rw [hzero, filter_eq_drop 0 h.rounds]
      constructor
      · intro hexact
        by_contra hfull
        exact h.not_nodup_of_full (by decide) (Nat.le_of_not_lt hfull) hexact h.nodup
      · exact h.replayFrom_zero (by decide)
    rw [if_neg hzero, filter_eq_drop round h.rounds]
    constructor
    · rintro hexact ⟨hlen, hdvd⟩
      exact h.not_exact_wrap (by decide) hround (by omega) hlen hdvd hexact
    · exact h.eval_exact (by decide) hround (by omega)
  intro start _ batch hbatch _
  unfold Table.replay
  constructor
  · intro hexact
    have hless : own.length < batch := by
      by_contra hfull
      exact h.not_nodup_of_full hbatch (Nat.le_of_not_lt hfull) hexact (h.nodup.filter _)
    rw [h.replayFrom_zero hbatch hless, filter_eq_drop start h.rounds] at hexact
    have hlen := congrArg List.length (Part.some_inj.mp hexact)
    rw [length_drop] at hlen
    exact ⟨hless, by omega⟩
  rintro ⟨hless, hstart⟩
  rw [h.replayFrom_zero hbatch hless, filter_eq_drop start h.rounds]
  congr 1
  rcases hstart with hstart | hnil
  · rw [Nat.sub_eq_zero_of_le hstart, drop_zero]
  · rw [length_eq_zero_iff.mp hnil, drop_nil]

end Own

def ownGraph (round : Nat) : BlockGraph :=
  ⟨⟨[0x01], 1, round⟩, [], if round = 1 then .zero else ⟨[0x01], 1, round - 1⟩⟩

def ownStore : Nat → Table
  | 0 => ⟨[], .nil⟩
  | n + 1 => (ownStore n).setOwnBlock [] [] (ownGraph (n + 1))

theorem ownGraph_fit {round : Nat} (h : round < Lexinum.maxSmall) : FitGraph (ownGraph round) := by
  have hid : ∀ r < Lexinum.maxSmall, FitID ⟨[0x01], 1, r⟩ := by
    intro r hr
    have hr' : r < 8258175 := hr
    refine ⟨⟨by show 1 < _; omega, by show r < _; omega⟩, ?_⟩
    unfold encodeBlockID
    rw [Lexinum.encode_small hr, Lexinum.encodeSmall_eq]
    show (Lexinum.encode 1 ++ 0x00 :: ([_, _, _] ++ [0x00, 0x01])).length ≤ 65535
    exact (by decide : (Lexinum.encode 1).length + 6 ≤ 65535)
  refine ⟨hid round h, ?_, fun dep hdep => absurd hdep not_mem_nil, by show 0 < _; omega⟩
  show FitPrev (if round = 1 then _ else _)
  split
  · exact ⟨⟨⟨by decide, by decide⟩, by decide⟩, fun _ => rfl⟩
  · exact ⟨hid _ (by omega), fun hnil => absurd hnil (by simp)⟩

theorem ownStore_holds {n : Nat} (h : n < Lexinum.maxSmall) :
    (ownStore n).HoldsGraphs {g | ∃ r, 1 ≤ r ∧ r ≤ n ∧ g = ownGraph r} := by
  induction n with
  | zero =>
    have hnone : {g | ∃ r, 1 ≤ r ∧ r ≤ 0 ∧ g = ownGraph r} = (∅ : Set BlockGraph) := by
      apply Set.eq_empty_of_forall_notMem
      rintro g ⟨r, _⟩
      omega
    rw [hnone]
    exact Table.holdsGraphs_empty
  | succ n ih =>
    have hnext := (ih (by omega)).setOwnBlock (ownGraph_fit h) [] []
    have hset : insert (ownGraph (n + 1)) {g' ∈ {g | ∃ r, 1 ≤ r ∧ r ≤ n ∧ g = ownGraph r} |
        g'.block ≠ (ownGraph (n + 1)).block} =
        {g | ∃ r, 1 ≤ r ∧ r ≤ n + 1 ∧ g = ownGraph r} := by
      apply Set.ext
      intro g
      constructor
      · rintro (rfl | ⟨⟨r, hr, _, rfl⟩, _⟩)
        · exact ⟨n + 1, by omega, Nat.le_refl _, rfl⟩
        · exact ⟨r, hr, by omega, rfl⟩
      rintro ⟨r, hr, _, rfl⟩
      by_cases heq : r = n + 1
      · exact .inl (heq ▸ rfl)
      · exact .inr ⟨⟨r, hr, by omega, rfl⟩, fun hblock => heq (congrArg BlockID.round hblock)⟩
    rw [hset] at hnext
    exact hnext

theorem ownStore_own {n : Nat} (h : n < Lexinum.maxSmall) :
    OwnGraphs (ownStore n) 1 ((List.range' 1 n).map ownGraph) := by
  refine ⟨by decide, ⟨_, ownStore_holds h, ?_⟩, ?_⟩
  · intro g
    rw [mem_map]
    constructor
    · rintro ⟨r, hr, rfl⟩
      rw [mem_range'_1] at hr
      exact ⟨⟨r, hr.1, by omega, rfl⟩, rfl⟩
    · rintro ⟨⟨r, hr, _, rfl⟩, _⟩
      exact ⟨r, mem_range'_1.mpr ⟨hr, by omega⟩, rfl⟩
  · rw [map_map, length_map, length_range']
    exact map_id _

theorem replay_exact_iff_three : OwnGraphs (ownStore 3) 1 ((List.range' 1 3).map ownGraph) ∧
      (ownStore 3).replayGraphChanges 1 2 =
        Part.some (((List.range' 1 3).map ownGraph).filter (fun g => 2 ≤ g.block.round)) :=
  ⟨ownStore_own (by decide), ((replay_exact_iff (ownStore_own (by decide))).1 2 (by decide)).mpr
    (by simp)⟩

/-- **A block is fed twice**: with 100 rounds, round 100 ends the first batch and begins the second;
`Replay` feeds what is before its start point. -/
theorem replay_feeds_twice : (ownStore 100).replayGraphChanges 1 0 =
        Part.some ((List.range' 1 100).map ownGraph ++ [ownGraph 100]) ∧
      (ownStore 1).replay 1 2 10 = Part.some [ownGraph 1] ∧
      ((List.range' 1 1).map ownGraph).filter (fun g => 2 ≤ g.block.round) = [] := by
  have hown := ownStore_own (show 100 < Lexinum.maxSmall by decide)
  refine ⟨?_, (ownStore_own (by decide)).replayFrom_zero (by decide) (by decide), by decide⟩
  have hfirst : Replaying.advance (ownStore 100) 1 100 ⟨0, [], false⟩ = _ :=
    hown.advance_full [] (by decide) (by decide) (by simp)
  unfold Table.replayGraphChanges Table.replayFrom
  rw [StateTransition.reaches_eval (.single hfirst)]
  refine (hown.eval_last (by decide) (by decide) (by simp)).trans ?_
  apply congrArg Part.some
  rfl

end Chainspace.Broadcast
