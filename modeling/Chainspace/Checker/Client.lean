/-
  Chainspace.Checker.Client — evidence for a transaction (`checker/client/client.go`).

  `Check` asks every node of the shards of a transaction, waits until all have answered, and fails
  unless all have sent a signature. A node answers if its checkers come to a verdict; an error
  closes the connection, and the client waits forever. Whatever the order of the answers, evidence
  is returned exactly if all nodes accept, and then it passes the first consensus at each of them.
-/
import Chainspace.Checker.Evidence
import Chainspace.Sbac.Routing

namespace Chainspace.Checker

open Chainspace.Lib Chainspace.Sbac List

/-! ## §1. The client. -/

/-- The callback of `check`: the answer of a node, if its payload decodes. -/
def addEvidence (evidences : AList (fun _ : Nat => Bytes)) (answer : Nat × Option CheckResponse) :
    AList (fun _ : Nat => Bytes) :=
  match answer.2 with
  | none => evidences
  | some res => if res.ok then evidences.insert answer.1 res.signature else evidences

/-- `Client.check`, with the answers as they come in. -/
def collectEvidences (answers : List (Nat × Option CheckResponse)) : AList (fun _ : Nat => Bytes) :=
  answers.foldl addEvidence ∅

/-- `Client.Check`: `none` while it waits for an answer, `some none` is an error. -/
def checkNodes (nodes : List Nat) (answers : List (Nat × Option CheckResponse)) :
    Option (Option Evidences) :=
  if answers.length < nodes.length then none
  else
    let evidences := collectEvidences answers
    some (if evidences.entries.length ≠ nodes.length then none else some evidences.lookup)

/-! ## §2. What is collected. -/

/-- The signature an answer brings. -/
def evidenceOf (answer : Nat × Option CheckResponse) : Option Bytes :=
  answer.2.bind fun res => if res.ok then some res.signature else none

theorem addEvidence_eq (evidences : AList (fun _ : Nat => Bytes))
    (answer : Nat × Option CheckResponse) : addEvidence evidences answer =
      (evidenceOf answer).elim evidences (evidences.insert answer.1) := by
  unfold addEvidence evidenceOf
  split
  next h => rw [h]; rfl
  next res h =>
    rw [h]
    dsimp only [Option.bind]
    split
    all_goals rfl

/-- Answers of different nodes, whatever their order: each signature is counted and found. -/
theorem collect_evidences {answers : List (Nat × Option CheckResponse)}
    (hnodup : (answers.map Prod.fst).Nodup) (evidences : AList (fun _ : Nat => Bytes))
    (hnew : ∀ n ∈ answers.map Prod.fst, n ∉ evidences) :
    (answers.foldl addEvidence evidences).entries.length =
        evidences.entries.length + answers.countP (fun a => (evidenceOf a).isSome) ∧
      (∀ n, n ∉ answers.map Prod.fst →
        (answers.foldl addEvidence evidences).lookup n = evidences.lookup n) ∧
      ∀ a ∈ answers, (answers.foldl addEvidence evidences).lookup a.1 = evidenceOf a := by
  induction answers generalizing evidences with
  | nil => simp
  | cons a answers ih =>
    obtain ⟨hfresh, hrest⟩ := nodup_cons.mp hnodup
    obtain ⟨hfirst, hothers⟩ := forall_mem_cons.mp hnew
    have hlookup : (addEvidence evidences a).lookup a.1 = evidenceOf a := by
      rw [addEvidence_eq]
      cases evidenceOf a with
      | none => exact AList.lookup_eq_none.mpr hfirst
      | some sig => exact AList.lookup_insert _
    have hkept : ∀ n ≠ a.1, (addEvidence evidences a).lookup n = evidences.lookup n := by
      intro n hn
      rw [addEvidence_eq]
      cases evidenceOf a with
      | none => rfl
      | some sig => exact AList.lookup_insert_ne hn
    have hlength : (addEvidence evidences a).entries.length =
        evidences.entries.length + (if (evidenceOf a).isSome then 1 else 0) := by
      rw [addEvidence_eq]
      cases evidenceOf a with
      | none => rfl
      | some sig =>
        show (evidences.insert a.1 sig).entries.length = _
        rw [AList.insert_of_notMem hfirst]
        rfl
    have hnew' : ∀ n ∈ answers.map Prod.fst, n ∉ addEvidence evidences a := by
      intro n hn
      have hne : n ≠ a.1 := fun heq => hfresh (heq ▸ hn)
      rw [← AList.lookup_eq_none, hkept n hne]
      exact AList.lookup_eq_none.mpr (hothers n hn)
    obtain ⟨hcount, hout, hin⟩ := ih hrest _ hnew'
    refine ⟨?_, ?_, ?_⟩
    · rw [foldl_cons, hcount, hlength, countP_cons]
      omega
    · intro n hn
      rw [map_cons, mem_cons, not_or] at hn
      rw [foldl_cons, hout n hn.2, hkept n hn.1]
    · apply forall_mem_cons.mpr ⟨_, hin⟩
      rw [hout a.1 hfresh, hlookup]

/-- **Once all nodes have answered, `Check` succeeds exactly if every answer brings a signature**,
and returns these. -/
theorem checkNodes_iff {nodes : List Nat} (hnodes : nodes.Nodup)
    {answers : List (Nat × Option CheckResponse)} (hperm : (answers.map Prod.fst).Perm nodes) :
    (checkNodes nodes answers = some none ↔ ∃ a ∈ answers, evidenceOf a = none) ∧
      ∀ ev, checkNodes nodes answers = some (some ev) → ∀ a ∈ answers,
        ev a.1 = evidenceOf a ∧ (evidenceOf a).isSome := by
  obtain ⟨hcount, _, hin⟩ := collect_evidences (hperm.nodup_iff.mpr hnodes) ∅ (by simp)
  have hlength : nodes.length = answers.length := by
    rw [← hperm.length_eq, length_map]
  have hcount : (collectEvidences answers).entries.length =
      answers.countP (fun a => (evidenceOf a).isSome) := by
    show (answers.foldl addEvidence ∅).entries.length = _
    rw [hcount]
    exact Nat.zero_add _
  unfold checkNodes
  rw [hlength, if_neg (Nat.lt_irrefl _)]
  dsimp only
  rw [hcount]
  by_cases hall : answers.countP (fun a => (evidenceOf a).isSome) = answers.length
  · rw [if_neg (not_not_intro hall)]
    have hall := countP_eq_length.mp hall
    refine ⟨⟨fun h => (nomatch h), fun h => ?_⟩, fun ev hev a ha => ?_⟩
    · obtain ⟨a, ha, hnone⟩ := h
      exact absurd (hall a ha) (by simp [hnone])
    · cases hev
      exact ⟨hin a ha, hall a ha⟩
  · rw [if_pos hall]
    refine ⟨⟨fun _ => ?_, fun _ => rfl⟩, fun ev hev => (nomatch hev)⟩
    -- fewer signatures than answers: one of the answers brings none
    by_contra hnone
    apply hall (countP_eq_length.mpr _)
    intro a ha
    exact Option.isSome_iff_ne_none.mpr fun h => hnone ⟨a, ha, h⟩

/-! ## §3. The nodes asked. -/

section Asked
variable {s : Service} {tx : Transaction}

theorem addShards_nodup {shards : List Nat} (h : shards.Nodup) (vids : List Bytes) :
    (s.addShards shards vids).Nodup := by
  induction vids generalizing shards with
  | nil => exact h
  | cons vid vids ih => exact ih h.insert

/-- No node is asked twice: shards are listed once, and share no node. -/
theorem nodes_nodup {shards : List Nat} (h : shards.Nodup) {nodess : List (List Nat)}
    (hall : shards.mapM s.top.nodesInShard = some nodess) : nodess.flatten.Nodup := by
  induction shards generalizing nodess with
  | nil =>
    cases hall
    exact nodup_nil
  | cons shard shards ih =>
    rw [mapM_cons] at hall
    obtain ⟨nodes, hnodes, hall⟩ := Option.bind_eq_some_iff.mp hall
    obtain ⟨rest, hrest, hall⟩ := Option.bind_eq_some_iff.mp hall
    cases hall
    obtain ⟨hpos, hle⟩ := s.top.nodesInShard_valid hnodes
    rw [flatten_cons]
    apply (s.top.nodesInShard_nodup hpos hle hnodes).append (ih h.of_cons hrest)
    intro n hn hn'
    obtain ⟨shard', hshard', nodes', hnodes', hn'⟩ := ((mem_flatten_of_mapM hrest).2 n).mp hn'
    obtain ⟨hpos', hle'⟩ := s.top.nodesInShard_valid hnodes'
    have heq : shard = shard' := (s.top.shardForNode_of_mem hpos hle hnodes hn).symm.trans
      (s.top.shardForNode_of_mem hpos' hle' hnodes' hn')
    exact (nodup_cons.mp h).1 (heq ▸ hshard')

/-- **The nodes asked are those of the shards involved**, each once. -/
theorem nodesForTx_spec {nodes : List Nat} (h : s.nodesForTx tx = some nodes) :
    nodes.Nodup ∧ ∀ n, n ∈ nodes ↔ ∃ shard ∈ s.shardsInvolved tx, n ∈ s.top.nodesOf shard := by
  obtain ⟨nodess, hall, heq⟩ := Option.bind_eq_some_iff.mp h
  cases heq
  constructor
  · apply nodes_nodup _ hall
    refine foldl_inv List.Nodup nodup_nil ?_
    intro t _ shards hshards
    exact addShards_nodup (addShards_nodup hshards _) _
  · intro n
    rw [(mem_flatten_of_mapM hall).2 n]
    refine exists_congr fun shard => ?_
    rw [Service.mem_shardsAsked, Service.mem_shardsInvolved]
    unfold Network.Topology.nodesOf
    cases s.top.nodesInShard shard with
    | none => simp
    | some ns => simp

end Asked

/-! ## §4. The result. -/

/-- The nodes of the network: each verifies its own signatures. -/
structure OwnKeys (net : Nat → Service) : Prop where
  nodeID : ∀ n, (net n).nodeID = n
  verify : ∀ n data, (net n).verify n data ((net n).sign data) = some true

theorem OwnKeys.accepts {net : Nat → Service} (h : OwnKeys net) {n : Nat}
    {data : ConsensusTransaction}
    (hsig : data.evidences n = some ((net n).sign ((net n).marshal data.tx))) :
    (net n).onConsensusEvent data = some .accepted := by
  unfold Service.onConsensusEvent Service.verifyEvidenceSignature
  rw [h.nodeID, hsig]
  dsimp only
  rw [h.verify]
  split
  · rfl
  · rfl

/-- What a node answers to a `CHECK` request: nothing, if the check ends with an error. -/
def answer (net : Nat → Service) (checkers : Nat → CheckersMap) (tx : Transaction) (n : Nat) :
    Option (Nat × Option CheckResponse) :=
  (checkAndSign (checkers n) (net n).marshal (net n).sign tx).toOption.map fun res => (n, some res)

section Answers
variable {net : Nat → Service} {checkers : Nat → CheckersMap} {tx : Transaction} {nodes : List Nat}
  {answers : List (Nat × Option CheckResponse)}

theorem answer_eq (n : Nat) : answer net checkers tx n =
    (check (checkers n) tx).toOption.map
      fun ok => (n, some ⟨ok, (net n).sign ((net n).marshal tx)⟩) := by
  unfold answer checkAndSign
  cases check (checkers n) tx with
  | error e => rfl
  | ok ok => rfl

/-- `Check` waits until every node has answered, and each has a verdict then. -/
theorem all_answered (hsub : answers <+~ nodes.filterMap (answer net checkers tx))
    (hlen : nodes.length ≤ answers.length) :
    (∀ n ∈ nodes, ∃ ok, check (checkers n) tx = .ok ok) ∧
      answers.Perm (nodes.filterMap (answer net checkers tx)) := by
  have hle := length_filterMap_le (answer net checkers tx) nodes
  have hperm := hsub.perm_of_length_le (hle.trans hlen)
  refine ⟨?_, hperm⟩
  have hcount : nodes.countP (fun n => (answer net checkers tx n).isSome) = nodes.length := by
    rw [← length_filterMap_eq_countP]
    have := hperm.length_eq
    omega
  intro n hn
  have hsome := countP_eq_length.mp hcount n hn
  rw [answer_eq] at hsome
  cases hcheck : check (checkers n) tx with
  | error e => simp [hcheck, Except.toOption] at hsome
  | ok ok => exact ⟨ok, rfl⟩

theorem answers_nodes (net : Nat → Service)
    (hok : ∀ n ∈ nodes, ∃ ok, check (checkers n) tx = .ok ok) :
    (nodes.filterMap (answer net checkers tx)).map Prod.fst = nodes := by
  rw [map_filterMap]
  apply (filterMap_congr _).trans (filterMap_some)
  intro n hn
  obtain ⟨ok, hok⟩ := hok n hn
  rw [answer_eq, hok]
  rfl

end Answers

/-- **Evidence is complete**: whatever answers have come in, in whatever order, `Check` returns
evidence only if the checkers of every node of every shard involved accept the transaction, and then
every such node accepts it in the first consensus; it fails only if one of them refuses it. When no
more answers come, it waits exactly if the checkers of one of them end with an error. -/
theorem evidence_complete {s : Service} {net : Nat → Service} (hkeys : OwnKeys net)
    {checkers : Nat → CheckersMap} {tx : Transaction} {nodes : List Nat}
    (hnodes : s.nodesForTx tx = some nodes) {answers : List (Nat × Option CheckResponse)}
    (hanswers : answers <+~ nodes.filterMap (answer net checkers tx)) :
    (∀ ev, checkNodes nodes answers = some (some ev) → ∀ shard ∈ s.shardsInvolved tx,
      ∀ n ∈ s.top.nodesOf shard, check (checkers n) tx = .ok true ∧
        ∀ data : ConsensusTransaction, data.tx = tx → data.evidences = ev →
          (net n).onConsensusEvent data = some .accepted) ∧
    (checkNodes nodes answers = some none → ∃ shard ∈ s.shardsInvolved tx,
      ∃ n ∈ s.top.nodesOf shard, check (checkers n) tx = .ok false) ∧
    (answers.Perm (nodes.filterMap (answer net checkers tx)) →
      (checkNodes nodes answers = none ↔ ∃ shard ∈ s.shardsInvolved tx,
        ∃ n ∈ s.top.nodesOf shard, ∃ e, check (checkers n) tx = .error e)) := by
  obtain ⟨hnodup, hmem⟩ := nodesForTx_spec hnodes
  by_cases hlen : answers.length < nodes.length
  · -- it waits; when no answers are left, one of the nodes has none
    have hwaits : checkNodes nodes answers = none := if_pos hlen
    rw [hwaits]
    refine ⟨fun ev hev => (nomatch hev), fun h => (nomatch h), fun hperm => ?_⟩
    refine ⟨fun _ => ?_, fun _ => rfl⟩
    by_contra hnone
    have hok : ∀ n ∈ nodes, ∃ ok, check (checkers n) tx = .ok ok := by
      intro n hn
      obtain ⟨shard, hshard, hn⟩ := (hmem n).mp hn
      cases hcheck : check (checkers n) tx with
      | error e => exact absurd ⟨shard, hshard, n, hn, e, hcheck⟩ hnone
      | ok ok => exact ⟨ok, rfl⟩
    have heq := congrArg length (answers_nodes net hok)
    rw [length_map, ← hperm.length_eq] at heq
    omega
  · obtain ⟨hok, hperm⟩ := all_answered hanswers (Nat.not_lt.mp hlen)
    have hfst : (answers.map Prod.fst).Perm nodes :=
      (hperm.map Prod.fst).trans (.of_eq (answers_nodes net hok))
    obtain ⟨hfails, hfound⟩ := checkNodes_iff hnodup hfst
    refine ⟨?_, ?_, fun _ => ?_⟩
    · intro ev hev shard hshard n hn
      have hn : n ∈ nodes := (hmem n).mpr ⟨shard, hshard, hn⟩
      obtain ⟨ok, hcheck⟩ := hok n hn
      have hanswer : answer net checkers tx n =
          some (n, some ⟨ok, (net n).sign ((net n).marshal tx)⟩) := by
        rw [answer_eq, hcheck]
        rfl
      obtain ⟨hev, hsome⟩ :=
        hfound ev hev _ (hperm.mem_iff.mpr (mem_filterMap.mpr ⟨n, hn, hanswer⟩))
      cases ok with
      | false => cases hsome
      | true =>
        refine ⟨hcheck, fun data htx hdata => hkeys.accepts ?_⟩
        rw [hdata, htx]
        exact hev
    · intro h
      obtain ⟨a, ha, hnone⟩ := hfails.mp h
      obtain ⟨n, hn, hanswer⟩ := mem_filterMap.mp (hperm.mem_iff.mp ha)
      obtain ⟨shard, hshard, hshard'⟩ := (hmem n).mp hn
      obtain ⟨ok, hcheck⟩ := hok n hn
      refine ⟨shard, hshard, n, hshard', ?_⟩
      rw [answer_eq, hcheck] at hanswer
      cases hanswer
      cases ok with
      | false => exact hcheck
      | true => cases hnone
    · constructor
      · intro h
        rw [checkNodes, if_neg hlen] at h
        cases h
      · intro h
        obtain ⟨shard, hshard, n, hn, e, he⟩ := h
        obtain ⟨ok, hcheck⟩ := hok n ((hmem n).mpr ⟨shard, hshard, hn⟩)
        rw [he] at hcheck
        cases hcheck

/-- Two shards of one node: node 2 accepts the evidence that both have given. -/
theorem evidence_complete_pair :
    let net (n : Nat) : Service := { pairService true with nodeID := n }
    let tx : Transaction := ⟨[.mk [7] [8] [[1], [2]] [] [] [] [] [] [] []]⟩
    let answers := [(1, some ⟨true, [1]⟩), (2, some ⟨true, [1]⟩)]
    (pairService true).nodesForTx tx = some [2, 1] ∧
      answers <+~ [2, 1].filterMap (answer net (fun _ => verdict true) tx) ∧
      ∃ ev, checkNodes [2, 1] answers = some (some ev) ∧
        (net 2).onConsensusEvent ⟨[], tx, ev, .consensus1, 1⟩ = some .accepted := by
  intro net tx answers
  have hkeys : OwnKeys net := ⟨fun _ => rfl, fun n _ => by simp [net, pairService]⟩
  have hnodes : (pairService true).nodesForTx tx = some [2, 1] := by decide
  have hanswers : answers <+~ [2, 1].filterMap (answer net (fun _ => verdict true) tx) :=
    (Perm.swap _ _ _).subperm
  obtain ⟨hev, _, _⟩ := evidence_complete hkeys hnodes hanswers
  refine ⟨hnodes, hanswers, _, rfl, ?_⟩
  exact (hev _ rfl 2 (by decide) 2 (by decide)).2 _ rfl rfl

end Chainspace.Checker
