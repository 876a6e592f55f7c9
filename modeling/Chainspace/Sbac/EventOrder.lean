/-
  Chainspace.Sbac.EventOrder — the order of a transaction's events
  (`onSBACEvent` of `sbac/sbac_sm.go`, `onConsensusEvent` of `sbac/consensus_sm.go`).

  The poll of a phase can only turn from waiting to an answer. So the answer of a phase is that of
  all its messages together, and with it the way of the main machine.

  One thing the order does decide: when a phase is accepted, the signatures of the votes on file are
  looked at, to log the invalid ones, and a vote in the name of a node without a key ends the
  process. The same vote after the decision is not looked at.
-/
import Chainspace.Sbac.Consume
import Chainspace.Sbac.Node

namespace Chainspace.Sbac

open Chainspace.Lib Chainspace.Network List

/-! ## §1. The poll. -/

def Decisions.Sub (ds ds' : Decisions) : Prop :=
  ∀ p v, ds.lookup p = some v → ds'.lookup p = some v

section Poll
variable {s : Service} {ds ds' : Decisions}

theorem Decisions.Sub.count_le (h : ds.Sub ds') (nodes : List Nat) (decision : SBACDecision) :
    ds.count nodes decision ≤ ds'.count nodes decision := by
  refine countP_mono_left ?_
  intro n _ hn
  obtain ⟨v, hv, hdecision⟩ := (Option.any_eq_true _ _).mp hn
  exact (Option.any_eq_true _ _).mpr ⟨v, h n v hv, hdecision⟩

theorem Decisions.Sub.no_reject (h : ds.Sub ds') {nodes : List Nat}
    (hall : nodes.length ≤ ds.count nodes .accept) : ds'.count nodes .reject = 0 := by
  refine countP_eq_zero.mpr ?_
  intro n hn hreject
  obtain ⟨v, hv, haccept⟩ := Decisions.all_accept hall hn
  obtain ⟨v', hv', hdecision⟩ := (Option.any_eq_true _ _).mp hreject
  rw [h n v hv] at hv'
  injection hv' with hv'
  rw [← hv', haccept] at hdecision
  cases hdecision

variable {shards : List Nat}

/-- **Acceptance stays**, whatever is added. -/
theorem Service.pollShards_accepted (h : ds.Sub ds') {somePending : Bool}
    (hpoll : s.pollShards ds shards somePending = some .accepted) :
    s.pollShards ds' shards somePending = some .accepted := by
  induction shards generalizing somePending with
  | nil => exact hpoll
  | cons shard shards ih =>
    unfold Service.pollShards at hpoll ⊢
    obtain ⟨nodes, hnodes, hpoll⟩ := Option.bind_eq_some_iff.mp hpoll
    rw [hnodes, Option.bind_eq_bind, Option.bind_some]
    split at hpoll
    · cases hpoll
    split at hpoll
    next haccept =>
      have hvalid := Topology.nodesInShard_valid hnodes
      have hlength := s.top.nodesInShard_length hvalid.1 hvalid.2 hnodes
      have hreject : ds'.count nodes .reject = 0 := h.no_reject (hlength ▸ haccept)
      have hmore := h.count_le nodes .accept
      rw [if_neg (by rw [hreject]; unfold quorumt1; omega), if_pos (by omega)]
      exact ih hpoll
    · exact absurd ((Service.pollShards_cases hpoll).1 rfl).1 (by simp)

/-- **Rejection stays**, whatever is added. -/
theorem Service.pollShards_rejected (h : ds.Sub ds') {somePending somePending' : Bool}
    (hpoll : s.pollShards ds shards somePending = some .rejected) :
    s.pollShards ds' shards somePending' = some .rejected := by
  induction shards generalizing somePending somePending' with
  | nil =>
    cases somePending with
    | true | false => exact absurd hpoll (by simp [Service.pollShards])
  | cons shard shards ih =>
    unfold Service.pollShards at hpoll ⊢
    obtain ⟨nodes, hnodes, hpoll⟩ := Option.bind_eq_some_iff.mp hpoll
    rw [hnodes, Option.bind_eq_bind, Option.bind_some]
    have hmore := h.count_le nodes .reject
    split
    · rfl
    next =>
      rw [if_neg (by omega)] at hpoll
      split at hpoll
      all_goals
        split
        · exact ih hpoll
        · exact ih hpoll

theorem Service.pollShards_congr (h : ∀ p, ds.lookup p = ds'.lookup p) (shards : List Nat)
    (somePending : Bool) :
    s.pollShards ds shards somePending = s.pollShards ds' shards somePending := by
  have hcount : ∀ nodes decision, ds.count nodes decision = ds'.count nodes decision := by
    intro nodes decision
    unfold Decisions.count
    simp only [h]
  induction shards generalizing somePending with
  | nil => rfl
  | cons shard shards ih =>
    unfold Service.pollShards
    simp only [hcount, ih]

theorem Service.pollShards_isSome (tx : Transaction) (ds ds' : Decisions)
    (h : (s.pollShards ds (s.shardsInvolvedWithoutSelf tx) false).isSome = true) :
    (s.pollShards ds' (s.shardsInvolvedWithoutSelf tx) false).isSome = true := by
  have hshards : ∀ shard ∈ s.shardsInvolvedWithoutSelf tx, ∃ vid,
      s.shardForVersionID vid = shard := fun _ => Service.exists_version
  generalize s.shardsInvolvedWithoutSelf tx = shards at h hshards
  by_cases hcount : s.top.shardCount = 0
  · -- Without shards the first one asked for ends the poll.
    cases shards with
    | nil => rfl
    | cons shard =>
      obtain ⟨vid, hvid⟩ := hshards shard mem_cons_self
      have hinvalid : s.top.nodesInShard shard = none := by
        unfold Topology.nodesInShard
        rw [if_pos (.inr (by rw [hcount, ← hvid]; exact Nat.succ_pos _))]
      unfold Service.pollShards at h
      rw [hinvalid] at h
      cases h
  exact Service.pollShards_of_versions (Nat.pos_of_ne_zero hcount) ds' hshards false

end Poll

/-! ## §2. The votes of a list of events. -/

/-- What an event answers: a consensus, or a peer's question in a phase. -/
def Event.key : Event → ConsensusOp ⊕ (Nat × SBACOp)
  | .consensus data => .inl data.op
  | .sbac msg => .inr (msg.peerID, msg.op)

/-- **A set of events for a transaction**: at most one for a consensus, and one of a peer in a
phase. -/
structure EventSet (d : DetailTx) (es : List Event) : Prop where
  own : ∀ e ∈ es, e.txID = d.id
  once : (es.map Event.key).Nodup

def SBACMessage.vote (msg : SBACMessage) : SignedDecision := ⟨msg.decision, msg.signature⟩

def Event.ballot (op : SBACOp) (ds : Decisions) : Event → Decisions
  | .consensus _ => ds
  | .sbac msg => if msg.op = op then ds.insert msg.peerID msg.vote else ds

def ballots (op : SBACOp) (es : List Event) : Decisions := es.foldl (Event.ballot op) ∅

section Ballots
variable {d : DetailTx} {es es' done rest : List Event} {e : Event} {op : SBACOp}

theorem EventSet.perm (h : EventSet d es) (hperm : es'.Perm es) : EventSet d es' where
  own := fun e he => h.own e (hperm.mem_iff.mp he)
  once := (hperm.map Event.key).nodup_iff.mpr h.once

theorem EventSet.left (h : EventSet d (es ++ es')) : EventSet d es where
  own := fun e he => h.own e (List.mem_append_left es' he)
  once := by
    have honce := h.once
    rw [map_append] at honce
    exact honce.of_append_left

theorem EventSet.fresh (h : EventSet d (done ++ [e])) {e' : Event} (he' : e' ∈ done) :
    e'.key ≠ e.key := by
  intro hkey
  have honce := h.once
  rw [map_append] at honce
  exact (nodup_append.mp honce).2.2 _ (mem_map_of_mem he') _ (mem_singleton.mpr rfl) hkey

theorem ballots_append (op : SBACOp) (es : List Event) (e : Event) :
    ballots op (es ++ [e]) = e.ballot op (ballots op es) := by
  unfold ballots
  rw [foldl_append]
  rfl

theorem message_of_ballots {p : Nat} {v : SignedDecision} (h : (ballots op es).lookup p = some v) :
    ∃ msg, .sbac msg ∈ es ∧ msg.op = op ∧ msg.peerID = p ∧ msg.vote = v := by
  induction es using List.reverseRecOn with
  | nil => exact absurd h (by simp [ballots])
  | append_singleton es e ih =>
    have hold : (ballots op es).lookup p = some v →
        ∃ msg, .sbac msg ∈ es ++ [e] ∧ msg.op = op ∧ msg.peerID = p ∧ msg.vote = v := by
      intro hlookup
      obtain ⟨msg, hmsg, hrest⟩ := ih hlookup
      exact ⟨msg, mem_append_left _ hmsg, hrest⟩
    rw [ballots_append] at h
    unfold Event.ballot at h
    split at h
    · exact hold h
    next msg =>
      split at h
      next hop =>
        by_cases hp : p = msg.peerID
        · subst hp
          rw [AList.lookup_insert] at h
          injection h with h
          exact ⟨msg, mem_append_right _ (mem_singleton.mpr rfl), hop, rfl, h⟩
        · rw [AList.lookup_insert_ne hp] at h
          exact hold h
      · exact hold h

theorem lookup_ballots (hset : EventSet d es) {msg : SBACMessage} (hmsg : .sbac msg ∈ es) :
    (ballots msg.op es).lookup msg.peerID = some msg.vote := by
  induction es using List.reverseRecOn with
  | nil => cases hmsg
  | append_singleton es e ih =>
    rw [ballots_append]
    rcases mem_append.mp hmsg with hmsg | hmsg
    · have ih := ih hset.left hmsg
      have hfresh := hset.fresh hmsg
      unfold Event.ballot
      split
      · exact ih
      next msg' =>
        split
        next hop =>
          have hp : msg.peerID ≠ msg'.peerID := by
            intro hp
            apply hfresh
            show Sum.inr (msg.peerID, msg.op) = Sum.inr (msg'.peerID, msg'.op)
            rw [hp, hop]
          rw [AList.lookup_insert_ne hp]
          exact ih
        · exact ih
    · have heq := mem_singleton.mp hmsg
      subst heq
      show (if msg.op = msg.op then _ else _ : Decisions).lookup msg.peerID = _
      rw [if_pos rfl, AList.lookup_insert]

theorem lookup_ballots_iff (hset : EventSet d es) {p : Nat} {v : SignedDecision} :
    (ballots op es).lookup p = some v ↔
      ∃ msg, .sbac msg ∈ es ∧ msg.op = op ∧ msg.peerID = p ∧ msg.vote = v := by
  constructor
  · exact message_of_ballots
  rintro ⟨msg, hmsg, hop, hp, hv⟩
  rw [← hop, ← hp, ← hv]
  exact lookup_ballots hset hmsg

theorem ballots_sub (hset : EventSet d (done ++ rest)) :
    (ballots op done).Sub (ballots op (done ++ rest)) := by
  intro p v hv
  obtain ⟨msg, hmsg, hrest⟩ := message_of_ballots hv
  exact (lookup_ballots_iff hset).mpr ⟨msg, mem_append_left rest hmsg, hrest⟩

theorem ballots_perm (hset : EventSet d es) (hperm : es'.Perm es) (op : SBACOp) (p : Nat) :
    (ballots op es').lookup p = (ballots op es).lookup p := by
  refine Option.ext ?_
  intro v
  rw [lookup_ballots_iff hset, lookup_ballots_iff (hset.perm hperm)]
  simp only [hperm.mem_iff]

end Ballots

/-! ## §3. What the small machines know. -/

/-- **The events can be processed**: a consensus event has its signature checked with a key there
is, and when the votes of a phase accept, each is of a node with a key. -/
structure Processable (s : Service) (d : DetailTx) (es : List Event) : Prop where
  consensus : ∀ data, .consensus data ∈ es → (s.onConsensusEvent data).isSome = true
  sbac : ∀ msg, .sbac msg ∈ es → ∃ state,
    s.pollShards (ballots msg.op es) (s.shardsInvolvedWithoutSelf d.tx) false = some state ∧
      (state = .accepted →
        (s.verifyTransactionSignature d.tx msg.signature msg.peerID).isSome = true)

/-- **What the small machines know** after the events of a list. -/
structure Heard (s : Service) (d : DetailTx) (done : List Event) (m : Machine) : Prop where
  detail : m.detail = d
  consensus : ∀ data, .consensus data ∈ done →
    s.onConsensusEvent data = some (m.consensus data.op)
  unasked : ∀ op, (∀ data, .consensus data ∈ done → data.op ≠ op) → m.consensus op = .waiting
  polled : ∀ msg, .sbac msg ∈ done →
    s.pollShards (ballots msg.op done) (s.shardsInvolvedWithoutSelf d.tx) false =
      some (m.sbac msg.op).state
  silent : ∀ op, (∀ msg, .sbac msg ∈ done → msg.op ≠ op) → (m.sbac op).state = .waiting
  /-- a machine that waits has all votes on file -/
  file : ∀ op, (m.sbac op).state = .waiting → (m.sbac op).decisions = ballots op done
  /-- the votes on file at an acceptance are of nodes with a key -/
  checked : ∀ op, (m.sbac op).state = .accepted → ∀ p v,
    (m.sbac op).decisions.lookup p = some v →
      (s.verifyTransactionSignature d.tx v.signature p).isSome = true
  /-- the first vote is on file -/
  first : ∀ msg rest, done = .sbac msg :: rest →
    (m.sbac msg.op).decisions.lookup msg.peerID = some msg.vote

section Heard
variable {s : Service} {d : DetailTx} {done rest : List Event} {m m' : Machine} {e : Event}

theorem heard_new (s : Service) (d : DetailTx) (initial : State) :
    Heard s d [] (.new d initial) where
  detail := rfl
  consensus := fun _ h => absurd h not_mem_nil
  unasked := fun _ _ => rfl
  polled := fun _ h => absurd h not_mem_nil
  silent := fun _ _ => rfl
  file := fun _ _ => rfl
  checked := fun _ h => absurd h (by simp [Machine.new, SBACStateMachine.new])
  first := fun _ _ h => absurd h (by simp)

theorem Heard.congr (h : Heard s d done m) (hdetail : m'.detail = m.detail)
    (hconsensus : m'.consensus = m.consensus) (hsbac : m'.sbac = m.sbac) : Heard s d done m' where
  detail := hdetail.trans h.detail
  consensus := by
    rw [hconsensus]
    exact h.consensus
  unasked := by
    rw [hconsensus]
    exact h.unasked
  polled := by
    rw [hsbac]
    exact h.polled
  silent := by
    rw [hsbac]
    exact h.silent
  file := by
    rw [hsbac]
    exact h.file
  checked := by
    rw [hsbac]
    exact h.checked
  first := by
    rw [hsbac]
    exact h.first

theorem Heard.waiting_consensus (h : Heard s d done m) {data : ConsensusTransaction}
    (hset : EventSet d (done ++ [.consensus data])) : m.consensus data.op = .waiting := by
  refine h.unasked data.op ?_
  intro data' hdata' hop
  apply hset.fresh hdata'
  show Sum.inl data'.op = Sum.inl data.op
  rw [hop]

theorem Heard.hearConsensus (h : Heard s d done m) {data : ConsensusTransaction}
    (hset : EventSet d (done ++ [.consensus data])) {c : StateConsensus}
    (hc : s.onConsensusEvent data = some c) :
    Heard s d (done ++ [.consensus data])
      { m with consensus := fun op => if op = data.op then c else m.consensus op } := by
  have hballots : ∀ op, ballots op (done ++ [.consensus data]) = ballots op done := fun op =>
    ballots_append op done _
  have hsbac : ∀ msg, .sbac msg ∈ done ++ [.consensus data] → .sbac msg ∈ done := by
    intro msg hmsg
    rcases mem_append.mp hmsg with hmsg | hmsg
    · exact hmsg
    · exact absurd (mem_singleton.mp hmsg) (by simp)
  refine ⟨h.detail, ?_, ?_, ?_, ?_, ?_, h.checked, ?_⟩
  · intro data' hdata'
    show s.onConsensusEvent data' = some (if data'.op = data.op then c else m.consensus data'.op)
    rcases mem_append.mp hdata' with hdata' | hdata'
    · have hop : data'.op ≠ data.op := by
        intro hop
        apply hset.fresh hdata'
        show Sum.inl data'.op = Sum.inl data.op
        rw [hop]
      rw [if_neg hop]
      exact h.consensus data' hdata'
    injection mem_singleton.mp hdata' with heq
    rw [heq, if_pos rfl]
    exact hc
  · intro op hop
    have hne : data.op ≠ op := hop data (mem_append_right _ (mem_singleton.mpr rfl))
    show (if op = data.op then c else m.consensus op) = .waiting
    rw [if_neg hne.symm]
    exact h.unasked op fun data' hdata' => hop data' (mem_append_left _ hdata')
  · intro msg hmsg
    rw [hballots]
    exact h.polled msg (hsbac msg hmsg)
  · intro op hop
    exact h.silent op fun msg hmsg => hop msg (mem_append_left _ hmsg)
  · intro op hop
    rw [hballots]
    exact h.file op hop
  intro msg rest heq
  cases done with
  | nil => cases heq
  | cons e' done =>
    injection heq with he' _
    subst he'
    exact h.first msg done rfl

/-- What becomes of a phase when a message comes after the events of a list. -/
structure Counted (s : Service) (d : DetailTx) (done : List Event) (msg : SBACMessage)
    (old new : SBACStateMachine) : Prop where
  polled : s.pollShards (ballots msg.op (done ++ [.sbac msg])) (s.shardsInvolvedWithoutSelf d.tx)
    false = some new.state
  file : new.state = .waiting → new.decisions = ballots msg.op (done ++ [.sbac msg])
  checked : new.state = .accepted → ∀ p v, new.decisions.lookup p = some v →
    (s.verifyTransactionSignature d.tx v.signature p).isSome = true
  kept : ∀ p, p ≠ msg.peerID → new.decisions.lookup p = old.decisions.lookup p
  first : done = [] → new.decisions.lookup msg.peerID = some msg.vote

variable {msg : SBACMessage}

theorem Heard.ballots_sbac (h : Heard s d done m) (hwaiting : (m.sbac msg.op).state = .waiting) :
    (m.sbac msg.op).decisions.insert msg.peerID msg.vote =
      ballots msg.op (done ++ [.sbac msg]) := by
  rw [ballots_append, h.file msg.op hwaiting]
  show _ = if msg.op = msg.op then _ else _
  rw [if_pos rfl]

theorem Service.onSBACEvent_checked {tx : Transaction} {ds : Decisions}
    (h : s.onSBACEvent tx ds = some .accepted) {p : Nat} {v : SignedDecision}
    (hv : ds.lookup p = some v) :
    (s.verifyTransactionSignature tx v.signature p).isSome = true := by
  obtain ⟨state, _, h⟩ := Option.bind_eq_some_iff.mp h
  split at h
  · split at h
    next hall => exact all_eq_true.mp hall ⟨p, v⟩ (AList.mem_lookup_iff.mp hv)
    · cases h
  next hne =>
    injection h with h
    exact absurd h hne

section
variable (h : Heard s d done m) (hset : EventSet d (done ++ [.sbac msg])) {c : SBACStateMachine}
  (hc : (m.sbac msg.op).processEvent s d.tx msg = some c)
include h hset hc

theorem Heard.counted : Counted s d done msg (m.sbac msg.op) c := by
  unfold SBACStateMachine.processEvent at hc
  split at hc
  next hdecided =>
    cases hc
    -- There was a message before: without one the machine would wait.
    obtain ⟨msg', hmsg', hop⟩ : ∃ msg', .sbac msg' ∈ done ∧ msg'.op = msg.op := by
      by_contra hnone
      exact hdecided (h.silent msg.op fun msg' hmsg' hop => hnone ⟨msg', hmsg', hop⟩)
    have hpolled := h.polled msg' hmsg'
    rw [hop] at hpolled
    refine ⟨?_, fun hwaiting => absurd hwaiting hdecided, h.checked msg.op, fun _ _ => rfl, ?_⟩
    · generalize (m.sbac msg.op).state = state at hpolled hdecided ⊢
      cases state with
      | waiting => exact absurd rfl hdecided
      | accepted => exact Service.pollShards_accepted (ballots_sub hset) hpolled
      | rejected => exact Service.pollShards_rejected (ballots_sub hset) hpolled
    intro hnil
    rw [hnil] at hmsg'
    cases hmsg'
  next hwaiting =>
    have hwaiting := not_not.mp hwaiting
    obtain ⟨state, hstate, hc⟩ := Option.bind_eq_some_iff.mp hc
    injection hc with hc
    have hballots : (m.sbac msg.op).decisions.insert msg.peerID ⟨msg.decision, msg.signature⟩ =
        ballots msg.op (done ++ [.sbac msg]) := h.ballots_sbac hwaiting
    subst hc
    refine ⟨?_, fun _ => hballots, ?_, fun p hp => AList.lookup_insert_ne hp,
      fun _ => AList.lookup_insert _⟩
    · rw [← hballots]
      exact Service.onSBACEvent_cases hstate
    intro haccepted p v hv
    subst haccepted
    exact Service.onSBACEvent_checked hstate hv

theorem Heard.hearSbac :
    Heard s d (done ++ [.sbac msg])
      { m with sbac := fun op => if op = msg.op then c else m.sbac op } := by
  have hcounted := h.counted hset hc
  have hballots : ∀ op, op ≠ msg.op → ballots op (done ++ [.sbac msg]) = ballots op done := by
    intro op hop
    rw [ballots_append]
    show (if msg.op = op then _ else _) = _
    rw [if_neg hop.symm]
  have hconsensus : ∀ data, .consensus data ∈ done ++ [.sbac msg] → .consensus data ∈ done := by
    intro data hdata
    rcases mem_append.mp hdata with hdata | hdata
    · exact hdata
    · exact absurd (mem_singleton.mp hdata) (by simp)
  refine ⟨h.detail, fun data hdata => h.consensus data (hconsensus data hdata), ?_, ?_, ?_, ?_,
    ?_, ?_⟩
  · intro op hop
    exact h.unasked op fun data hdata => hop data (mem_append_left _ hdata)
  · intro msg' hmsg'
    show _ = some (if msg'.op = msg.op then c else m.sbac msg'.op).state
    by_cases hop : msg'.op = msg.op
    · rw [if_pos hop, hop]
      exact hcounted.polled
    rw [if_neg hop, hballots _ hop]
    rcases mem_append.mp hmsg' with hmsg' | hmsg'
    · exact h.polled msg' hmsg'
    · injection mem_singleton.mp hmsg' with heq
      exact absurd (congrArg SBACMessage.op heq) hop
  · intro op hop
    have hne : msg.op ≠ op := hop msg (mem_append_right _ (mem_singleton.mpr rfl))
    show (if op = msg.op then c else m.sbac op).state = .waiting
    rw [if_neg hne.symm]
    exact h.silent op fun msg' hmsg' => hop msg' (mem_append_left _ hmsg')
  · intro op
    show (if op = msg.op then c else m.sbac op).state = .waiting →
      (if op = msg.op then c else m.sbac op).decisions = _
    by_cases hop : op = msg.op
    · rw [if_pos hop, hop]
      exact hcounted.file
    · rw [if_neg hop, hballots op hop]
      exact h.file op
  · intro op
    show (if op = msg.op then c else m.sbac op).state = .accepted → ∀ p v,
      (if op = msg.op then c else m.sbac op).decisions.lookup p = some v → _
    by_cases hop : op = msg.op
    · rw [if_pos hop]
      exact hcounted.checked
    · rw [if_neg hop]
      exact h.checked op
  intro msg' rest heq
  show (if msg'.op = msg.op then c else m.sbac msg'.op).decisions.lookup msg'.peerID = _
  cases done with
  | nil =>
    injection heq with heq _
    injection heq with heq
    rw [← heq, if_pos rfl]
    exact hcounted.first rfl
  | cons e' done =>
    injection heq with he' _
    subst he'
    have hfirst := h.first msg' done rfl
    by_cases hop : msg'.op = msg.op
    · have hp : msg'.peerID ≠ msg.peerID := by
        intro hp
        apply hset.fresh mem_cons_self
        show Sum.inr (msg'.peerID, msg'.op) = Sum.inr (msg.peerID, msg.op)
        rw [hp, hop]
      rw [if_pos hop, hcounted.kept _ hp, ← hop]
      exact hfirst
    · rw [if_neg hop]
      exact hfirst

end

theorem Heard.hear (h : Heard s d done m) (hset : EventSet d (done ++ [e]))
    (hm' : m.processEvent s e = some m') : Heard s d (done ++ [e]) m' := by
  have hown : e.txID = m.detail.id := by
    rw [h.detail]
    exact hset.own e (mem_append_right _ (mem_singleton.mpr rfl))
  unfold Machine.processEvent at hm'
  rw [if_neg (not_not.mpr hown)] at hm'
  cases e with
  | consensus =>
    obtain ⟨c, hc, hm'⟩ := Option.bind_eq_some_iff.mp hm'
    cases hm'
    unfold StateConsensus.processEvent at hc
    rw [if_neg (not_not.mpr (h.waiting_consensus hset))] at hc
    exact h.hearConsensus hset hc
  | sbac =>
    obtain ⟨c, hc, hm'⟩ := Option.bind_eq_some_iff.mp hm'
    cases hm'
    rw [h.detail] at hc
    exact h.hearSbac hset hc

theorem Service.exists_onSBACEvent {tx : Transaction} {ds : Decisions} {state : StateSBAC}
    (hpoll : s.pollShards ds (s.shardsInvolvedWithoutSelf tx) false = some state)
    (hkeys : state = .accepted → ∀ p v, ds.lookup p = some v →
      (s.verifyTransactionSignature tx v.signature p).isSome = true) :
    ∃ state, s.onSBACEvent tx ds = some state := by
  unfold Service.onSBACEvent
  rw [hpoll, Option.bind_eq_bind, Option.bind_some]
  by_cases haccepted : state = .accepted
  · rw [if_pos haccepted, if_pos]
    · exact ⟨_, rfl⟩
    refine all_eq_true.mpr ?_
    intro entry hentry
    exact hkeys haccepted entry.1 entry.2 (AList.mem_lookup_iff.mpr hentry)
  · rw [if_neg haccepted]
    exact ⟨state, rfl⟩

theorem Heard.counts (h : Heard s d done m) (hset : EventSet d ((done ++ [.sbac msg]) ++ rest))
    (hproc : Processable s d ((done ++ [.sbac msg]) ++ rest)) :
    ∃ c, (m.sbac msg.op).processEvent s d.tx msg = some c := by
  unfold SBACStateMachine.processEvent
  by_cases hwaiting : (m.sbac msg.op).state = .waiting
  · rw [if_neg (not_not.mpr hwaiting)]
    have hballots : (m.sbac msg.op).decisions.insert msg.peerID ⟨msg.decision, msg.signature⟩ =
        ballots msg.op (done ++ [.sbac msg]) := h.ballots_sbac hwaiting
    have hmem : .sbac msg ∈ done ++ [.sbac msg] := mem_append_right _ (mem_singleton.mpr rfl)
    obtain ⟨full, hfull, _⟩ := hproc.sbac msg (mem_append_left rest hmem)
    obtain ⟨state, hstate⟩ := Option.isSome_iff_exists.mp
      (s.pollShards_isSome d.tx _ (ballots msg.op (done ++ [.sbac msg]))
        (Option.isSome_iff_exists.mpr ⟨full, hfull⟩))
    obtain ⟨result, hresult⟩ := Service.exists_onSBACEvent hstate <| by
      intro haccepted p v hv
      -- The votes so far accept, so all votes together do.
      subst haccepted
      have hall := Service.pollShards_accepted (ballots_sub hset) hstate
      obtain ⟨msg', hmsg', hop, hp, hvote⟩ := message_of_ballots hv
      obtain ⟨full', hfull', hkey⟩ := hproc.sbac msg' (mem_append_left rest hmsg')
      rw [hop, hall] at hfull'
      injection hfull' with hfull'
      rw [← hp, ← hvote]
      exact hkey hfull'.symm
    dsimp only
    rw [hballots, hresult]
    exact ⟨_, rfl⟩
  · rw [if_pos hwaiting]
    exact ⟨_, rfl⟩

/-- **Processable events are processed**, in whatever order they come. -/
theorem Heard.processes (h : Heard s d done m) (hset : EventSet d ((done ++ [e]) ++ rest))
    (hproc : Processable s d ((done ++ [e]) ++ rest)) : ∃ m', m.processEvent s e = some m' := by
  have he : e ∈ (done ++ [e]) ++ rest := by simp
  unfold Machine.processEvent
  split
  · exact ⟨m, rfl⟩
  cases e with
  | consensus data =>
    obtain ⟨c, hc⟩ := Option.isSome_iff_exists.mp (hproc.consensus data he)
    have hcons : (m.consensus data.op).processEvent s data = some c := by
      unfold StateConsensus.processEvent
      rw [if_neg (not_not.mpr (h.waiting_consensus hset.left))]
      exact hc
    dsimp only
    rw [hcons]
    exact ⟨_, rfl⟩
  | sbac =>
    obtain ⟨c, hc⟩ := h.counts hset hproc
    dsimp only
    rw [h.detail, hc]
    exact ⟨_, rfl⟩

end Heard

/-! ## §4. The order. -/

/-- A machine that has consumed the events of a list and waits for the next one. -/
structure Consumed (s : Service) (d : DetailTx) (store : Store) (done : List Event)
    (w : Store × Machine) : Prop where
  underway : Machine.Underway s (store, (Machine.new d .waitingForConsensus1).awake) w
  idle : w.2.pc = .idle
  heard : Heard s d done w.2

section Consumed
variable {s : Service} {d : DetailTx} {store : Store} {done es : List Event} {e : Event}
  {w w' w₁ w₂ : Store × Machine} {k : Nat}

theorem consumed_new (s : Service) (d : DetailTx) (store : Store) :
    Consumed s d store [] (store, .new d .waitingForConsensus1) where
  underway := Machine.underway_new store d
  idle := rfl
  heard := heard_new s d _

theorem Consumed.step (h : Consumed s d store done w) (hset : EventSet d (done ++ [e]))
    (hk : Machine.moveBound d ≤ k) (hc : Machine.consumeEvent s k w e = some w') :
    Consumed s d store (done ++ [e]) w' := by
  obtain ⟨st, m⟩ := w
  have hdetail : m.detail = d := h.heard.detail
  obtain ⟨hunderway, hidle, m₁, hm₁, hdetail₁, hconsensus₁, hsbac₁⟩ :=
    h.underway.consume h.idle (hdetail ▸ hk) hc
  have hheard : Heard s d done { m with events := [] } := h.heard.congr rfl rfl rfl
  exact ⟨hunderway, hidle, (hheard.hear hset hm₁).congr hdetail₁ hconsensus₁ hsbac₁⟩

theorem Consumed.run (h : Consumed s d store done w) (hset : EventSet d (done ++ es))
    (hk : Machine.moveBound d ≤ k) (hc : Machine.consumeEvents s k w es = some w') :
    Consumed s d store (done ++ es) w' := by
  unfold Machine.consumeEvents at hc
  induction es generalizing done w with
  | nil =>
    injection hc with hc
    rw [append_nil, ← hc]
    exact h
  | cons e es ih =>
    obtain ⟨w₁, hw₁, hc⟩ := Option.bind_eq_some_iff.mp hc
    have hsplit : done ++ e :: es = (done ++ [e]) ++ es := by simp
    rw [hsplit] at hset ⊢
    exact ih (h.step hset.left hk hw₁) hset hc

theorem Consumed.consumes (h : Consumed s d store done w) (hset : EventSet d (done ++ es))
    (hproc : Processable s d (done ++ es)) (hk : Machine.moveBound d ≤ k) :
    ∃ w', Machine.consumeEvents s k w es = some w' := by
  unfold Machine.consumeEvents
  induction es generalizing done w with
  | nil => exact ⟨w, rfl⟩
  | cons e es ih =>
    have hsplit : done ++ e :: es = (done ++ [e]) ++ es := by simp
    rw [hsplit] at hset hproc
    obtain ⟨w₁, hw₁⟩ : ∃ w₁, Machine.consumeEvent s k w e = some w₁ := by
      obtain ⟨st, m⟩ := w
      have hheard : Heard s d done { m with events := [] } := h.heard.congr rfl rfl rfl
      obtain ⟨m₁, hm₁⟩ := hheard.processes hset hproc
      rw [Machine.consumeEvent_eq k e h.idle, hm₁]
      exact ⟨_, rfl⟩
    rw [foldlM_cons, hw₁]
    exact ih (h.step hset.left hk hw₁) hset hproc

/-- **The answers are those of all events together.** -/
theorem Heard.answers_eq {es es' : List Event} {m m' : Machine} (h : Heard s d es m)
    (h' : Heard s d es' m') (hset : EventSet d es) (hperm : es'.Perm es) :
    m'.answers = m.answers := by
  have hconsensus : ∀ op, m'.consensus op = m.consensus op := by
    intro op
    by_cases hasked : ∃ data, .consensus data ∈ es ∧ data.op = op
    · obtain ⟨data, hdata, hop⟩ := hasked
      have heq := h.consensus data hdata
      rw [h'.consensus data (hperm.mem_iff.mpr hdata), hop] at heq
      injection heq
    have hnone : ∀ data, .consensus data ∈ es → data.op ≠ op := fun data hdata hop =>
      hasked ⟨data, hdata, hop⟩
    rw [h.unasked op hnone, h'.unasked op fun data hdata => hnone data (hperm.mem_iff.mp hdata)]
  have hphases : ∀ op, (m'.sbac op).state = (m.sbac op).state := by
    intro op
    by_cases hasked : ∃ msg, .sbac msg ∈ es ∧ msg.op = op
    · obtain ⟨msg, hmsg, hop⟩ := hasked
      have heq := h'.polled msg (hperm.mem_iff.mpr hmsg)
      rw [Service.pollShards_congr (ballots_perm hset hperm msg.op), h.polled msg hmsg, hop] at heq
      injection heq with heq
      exact heq.symm
    have hnone : ∀ msg, .sbac msg ∈ es → msg.op ≠ op := fun msg hmsg hop =>
      hasked ⟨msg, hmsg, hop⟩
    rw [h.silent op hnone, h'.silent op fun msg hmsg => hnone msg (hperm.mem_iff.mp hmsg)]
  exact Answers.ext (funext hconsensus) (funext hphases)

theorem Processable.perm {es es' : List Event} (h : Processable s d es) (hset : EventSet d es)
    (hperm : es'.Perm es) : Processable s d es' where
  consensus := fun data hdata => h.consensus data (hperm.mem_iff.mp hdata)
  sbac := by
    intro msg hmsg
    obtain ⟨state, hstate, hkey⟩ := h.sbac msg (hperm.mem_iff.mp hmsg)
    refine ⟨state, ?_, hkey⟩
    rw [Service.pollShards_congr (ballots_perm hset hperm msg.op)]
    exact hstate

end Consumed

/-- **The order of the events does not matter**: any two orders are consumed, and leave the same
main state and objects. -/
def OrderFree (s : Service) (d : DetailTx) (store : Store) (es : List Event) : Prop :=
  ∀ es₁ es₂, es₁.Perm es → es₂.Perm es → ∀ k, Machine.moveBound d ≤ k → ∃ w₁ w₂,
    Machine.consumeEvents s k (store, .new d .waitingForConsensus1) es₁ = some w₁ ∧
    Machine.consumeEvents s k (store, .new d .waitingForConsensus1) es₂ = some w₂ ∧
    w₁.2.pc = .idle ∧ w₂.2.pc = .idle ∧
    w₁.2.state = w₂.2.state ∧ w₁.1.statuses = w₂.1.statuses

/-- **The order of a transaction's events does not matter exactly when they can all be
processed.** -/
theorem order_free_iff (s : Service) (d : DetailTx) (store : Store) {es : List Event}
    (hset : EventSet d es) : OrderFree s d store es ↔ Processable s d es := by
  constructor
  · intro h
    have hconsumed : ∀ es', es'.Perm es → ∃ w, Consumed s d store es' w := by
      intro es' hperm
      obtain ⟨w, _, hw, _⟩ := h es' es' hperm hperm _ (Nat.le_refl _)
      exact ⟨w, (consumed_new s d store).run (hset.perm hperm) (Nat.le_refl _) hw⟩
    obtain ⟨w, hw⟩ := hconsumed es (.refl es)
    constructor
    · intro data hdata
      rw [hw.heard.consensus data hdata]
      rfl
    intro msg hmsg
    refine ⟨_, hw.heard.polled msg hmsg, ?_⟩
    intro haccepted
    -- In the order that begins with this message, it is on file when the phase is accepted.
    obtain ⟨pre, post, hes⟩ := append_of_mem hmsg
    have hperm : (.sbac msg :: (pre ++ post)).Perm es := by
      rw [hes]
      exact perm_middle.symm
    obtain ⟨w', hw'⟩ := hconsumed _ hperm
    have hanswers := hw.heard.answers_eq hw'.heard hset hperm
    have hstate : (w'.2.sbac msg.op).state = .accepted :=
      (congrFun (congrArg Answers.phases hanswers) msg.op).trans haccepted
    exact hw'.heard.checked msg.op hstate msg.peerID msg.vote (hw'.heard.first msg _ rfl)
  intro hproc es₁ es₂ hperm₁ hperm₂ k hk
  have hrun : ∀ es', es'.Perm es → ∃ w,
      Machine.consumeEvents s k (store, .new d .waitingForConsensus1) es' = some w ∧
        Consumed s d store es' w := by
    intro es' hperm
    have hset' := hset.perm hperm
    obtain ⟨w, hw⟩ := (consumed_new s d store).consumes hset' (hproc.perm hset hperm) hk
    exact ⟨w, hw, (consumed_new s d store).run hset' hk hw⟩
  obtain ⟨w₁, hw₁, hconsumed₁⟩ := hrun es₁ hperm₁
  obtain ⟨w₂, hw₂, hconsumed₂⟩ := hrun es₂ hperm₂
  have hanswers : w₁.2.answers = w₂.2.answers :=
    hconsumed₂.heard.answers_eq hconsumed₁.heard (hset.perm hperm₂) (hperm₁.trans hperm₂.symm)
  obtain ⟨hstore, hstate⟩ := hconsumed₁.underway.unique hconsumed₂.underway hconsumed₁.idle
    hconsumed₂.idle hanswers
  exact ⟨w₁, w₂, hw₁, hw₂, hconsumed₁.idle, hconsumed₂.idle, hstate, by rw [hstore]⟩

/-- The service of node 1 of two, where only the two nodes have a key. -/
def twoKeys : Service :=
  { pairService true with verify := fun node _ _ => if node ≤ 2 then some true else none }

def pairDetail : DetailTx := ⟨[7], pairTx, PMap.empty.set 1 [1], 0⟩

def ownStore : Store :=
  { Store.empty with
    values := PMap.empty.set [1] []
    statuses := PMap.empty.set [1] .active }

def firstConsensus : Event := .consensus ⟨[7], pairTx, PMap.empty.set 1 [1], .consensus1, 1⟩

def phase1Vote (peer : Nat) : Event := .sbac ⟨.phase1, .accept, [7], pairTx, PMap.empty, [], peer⟩

/-- The consensus of the own shard and the vote of the other one, in any order. -/
theorem order_free_pair : EventSet pairDetail [firstConsensus, phase1Vote 2] ∧
      OrderFree twoKeys pairDetail ownStore [firstConsensus, phase1Vote 2] := by
  have hset : EventSet pairDetail [firstConsensus, phase1Vote 2] := by
    refine ⟨?_, by decide⟩
    intro e he
    simp only [mem_cons, not_mem_nil, or_false] at he
    rcases he with he | he
    all_goals
      rw [he]
      rfl
  refine ⟨hset, (order_free_iff twoKeys pairDetail ownStore hset).mpr ⟨?_, ?_⟩⟩
  · intro data hdata
    simp only [mem_cons, not_mem_nil, or_false] at hdata
    rcases hdata with hdata | hdata
    · injection hdata with hdata
      rw [hdata]
      rfl
    · exact absurd hdata (by simp [phase1Vote])
  intro msg hmsg
  simp only [mem_cons, not_mem_nil, or_false] at hmsg
  rcases hmsg with hmsg | hmsg
  · exact absurd hmsg (by simp [firstConsensus])
  injection hmsg with hmsg
  rw [hmsg]
  exact ⟨.accepted, by rfl, fun _ => rfl⟩

/-- **A vote of an unknown node ends the process, or not**: after the vote of node 2 the first phase
is accepted and the other vote ignored; before it, the other vote is on file when the phase is
accepted, and its key is not there. -/
theorem unknown_vote_in_two_orders :
    EventSet pairDetail [firstConsensus, phase1Vote 2, phase1Vote 9] ∧
      (Machine.consumeEvents twoKeys (Machine.moveBound pairDetail)
        (ownStore, .new pairDetail .waitingForConsensus1)
        [firstConsensus, phase1Vote 2, phase1Vote 9]).map (fun w => w.2.state) =
          some .waitingForConsensus2 ∧
      (Machine.consumeEvents twoKeys (Machine.moveBound pairDetail)
        (ownStore, .new pairDetail .waitingForConsensus1)
        [firstConsensus, phase1Vote 9, phase1Vote 2]).isNone = true ∧
      ¬ OrderFree twoKeys pairDetail ownStore [firstConsensus, phase1Vote 2, phase1Vote 9] := by
  have hset : EventSet pairDetail [firstConsensus, phase1Vote 2, phase1Vote 9] := by
    refine ⟨?_, by decide⟩
    intro e he
    simp only [mem_cons, not_mem_nil, or_false] at he
    rcases he with he | he | he
    all_goals
      rw [he]
      rfl
  have hnone : (Machine.consumeEvents twoKeys (Machine.moveBound pairDetail)
      (ownStore, .new pairDetail .waitingForConsensus1)
      [firstConsensus, phase1Vote 9, phase1Vote 2]).isNone = true := by decide +kernel
  refine ⟨hset, by decide +kernel, hnone, ?_⟩
  intro h
  have hperm : [firstConsensus, phase1Vote 9, phase1Vote 2].Perm
      [firstConsensus, phase1Vote 2, phase1Vote 9] := (List.Perm.swap _ _ _).cons _
  obtain ⟨w, _, hw, _⟩ := h _ _ hperm hperm _ (Nat.le_refl _)
  rw [hw] at hnone
  cases hnone

end Chainspace.Sbac
