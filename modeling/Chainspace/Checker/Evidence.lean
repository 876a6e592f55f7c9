/-
  Chainspace.Checker.Evidence — do only checked transactions pass the first consensus?

  The evidence a node asks for is its own signature over the transaction. It signs for a client
  whose transaction its checkers accept or refuse, and whenever it votes, also against a
  transaction. Every such signature passes as evidence. If no checker refuses a transaction, the
  node votes only on transactions whose first consensus it has accepted, and an identifier stands
  for one transaction, then every transaction that passes the first consensus was accepted by the
  checkers of the node.
-/
import Chainspace.Checker.Check
import Chainspace.Sbac.Node

namespace Chainspace.Sbac

open Chainspace.Lib Chainspace.Checker List

/-! ## §1. One key, two services. -/

/-- A node with its checker service. -/
structure KeyedNode where
  node : Node
  /-- the transactions a client has had checked, with the answers, newest first -/
  answered : List (Transaction × CheckResponse)

/-- What can happen to the two services. -/
inductive Request
  /-- a `CHECK` request, or a call of `CheckAndSign` -/
  | check (tx : Transaction)
  | sbac (input : Input)

/-- What a request does.  A check that ends with an error is not answered. -/
def KeyedNode.step (s : Service) (checkers : CheckersMap) (k : KeyedNode) :
    Request → Option KeyedNode
  | .check tx =>
    match checkAndSign checkers s.marshal s.sign tx with
    | .error _ => some k
    | .ok response => some { k with answered := (tx, response) :: k.answered }
  | .sbac input => (k.node.step s input).map fun n => { k with node := n }

inductive KeyedRun (s : Service) (checkers : CheckersMap) (ok : KeyedNode → Request → Prop)
    (store : Store) : KeyedNode → Prop
  | start : KeyedRun s checkers ok store ⟨.new store, []⟩
  | step {k k' : KeyedNode} {request : Request} (hrun : KeyedRun s checkers ok store k)
      (hok : ok k request) (h : k.step s checkers request = some k') :
      KeyedRun s checkers ok store k'

def Record.signs (r : Record) : Option Transaction :=
  match r.act with
  | .send _ _ => some r.detail.tx
  | _ => none

def KeyedNode.signed (k : KeyedNode) : List Transaction :=
  k.answered.map Prod.fst ++ k.node.history.filterMap Record.signs

/-- Signatures cannot be forged: evidence that verifies is a signature the node has made. -/
def Unforged (s : Service) (k : KeyedNode) (request : Request) : Prop :=
  ∀ data, request = .sbac (.deliver data) →
    s.verifyEvidenceSignature (s.marshal data.tx) data.evidences = some true →
    data.tx ∈ k.signed

/-- **The checkers of the node have accepted a transaction.** -/
structure Evaluated (checkers : CheckersMap) (k : KeyedNode) (tx : Transaction) : Prop where
  asked : ∃ response, (tx, response) ∈ k.answered
  typed : ∃ ids, typeCheck .empty tx.traces = .ok ids
  accepted : ∀ t : Trace, t.Within tx.traces → ∃ c, checkers.find t = some c ∧ c.passes t = true

/-- The requests under which signatures are evidence: no checker refuses a transaction, the node
votes on what it has agreed on, and an identifier stands for one transaction. -/
structure Vetted (s : Service) (checkers : CheckersMap) (txOf : Bytes → Transaction)
    (k : KeyedNode) (request : Request) : Prop where
  checks : ∀ tx, request = .check tx → check checkers tx ≠ .ok false
  votes : ∀ i f m target t, request = .sbac (.step i f) → k.node.machines i = some m →
    m.pc = .applying target → transitionTable m.state target = some t → t.sends.isSome = true →
    m.consensus .consensus1 = .accepted
  named : ∀ input detail initial, request = .sbac input →
    input.creates s = some (detail, initial) → detail.tx = txOf detail.id

/-! ## §2. Signatures are evidence. -/

section Signing
variable {s : Service} {f : Faults} {store store' : Store} {m m' : Machine} {act : Option Act}

theorem Machine.Steps.sends (h : m.Steps s f store store' m' act) {msg : SBACMessage}
    {shards : List Nat} (hact : act = some (.send msg shards)) :
    ∃ target t, m.pc = .applying target ∧ transitionTable m.state target = some t ∧
      t.sends.isSome = true := by
  have hcalled : ∀ {t r}, Called s f m.detail store t r → r.act = some (.send msg shards) →
      t.sends.isSome = true := by
    intro t r hcall hact
    cases hcall with
    | sent t op decision shards next _ ht =>
      rw [ht]
      rfl
    | triggered t next act ha =>
      obtain ⟨data, hdata⟩ := ha _ hact
      cases hdata
    | _ => cases hact
  cases h with
  | unlock =>
    rcases unlockInputs_cases s f m.detail store with ⟨st, _, heq⟩ | heq
    all_goals
      rw [heq] at hact
      cases hact
  | failed target t hpc ht | applied target next t hpc ht =>
    exact ⟨target, t, hpc, ht, hcalled (callTransition_called s f m.detail store t) hact⟩
  | _ => cases hact

theorem Node.Steps.signs {n n' : Node} {input : Input} (h : n.Steps s input n')
    {tx : Transaction} (htx : tx ∈ n'.history.filterMap Record.signs) :
    tx ∈ n.history.filterMap Record.signs ∨
      ∃ i f m target t, input = .step i f ∧ n.machines i = some m ∧ m.pc = .applying target ∧
        transitionTable m.state target = some t ∧ t.sends.isSome = true ∧ tx = m.detail.tx := by
  obtain ⟨r, hr, hsigns⟩ := mem_filterMap.mp htx
  have hold : r ∈ n.history → tx ∈ n.history.filterMap Record.signs :=
    fun hr => mem_filterMap.mpr ⟨r, hr, hsigns⟩
  cases h with
  | arrive input n1 proposals h1 hproposals =>
    refine .inl (hold ?_)
    rcases mem_append.mp hr with hr | hr
    · obtain ⟨data, hdata⟩ := hproposals r hr
      exact absurd hsigns (by simp [Record.signs, hdata])
    rcases h1 with h1 | ⟨detail, initial, _, h1, _⟩
    · exact h1 ▸ hr
    rw [h1] at hr
    rcases mem_cons.mp hr with heq | hr
    · exact absurd hsigns (by simp [Record.signs, heq])
    · exact hr
  | machine i f m m' store act hm h =>
    rcases mem_append.mp hr with hr | hr
    · obtain ⟨a, ha, heq⟩ := mem_map.mp hr
      have ha : act = some a := Option.mem_toList.mp ha
      subst heq
      unfold Record.signs at hsigns
      cases a with
      | send =>
        injection hsigns with hsigns
        obtain ⟨target, t, hpc, ht, hsends⟩ := h.sends ha
        exact .inr ⟨i, f, m, target, t, rfl, hm, hpc, ht, hsends, hsigns.symm⟩
      | _ => cases hsigns
    · exact .inl (hold hr)
  | _ => exact .inl (hold hr)

theorem StateConsensus.processEvent_accepted {c : StateConsensus} {data : ConsensusTransaction}
    (h : c.processEvent s data = some .accepted) (hop : data.op = .consensus1) :
    c = .accepted ∨ s.verifyEvidenceSignature (s.marshal data.tx) data.evidences = some true := by
  unfold StateConsensus.processEvent at h
  split at h
  · injection h with h
    exact .inl h
  unfold Service.onConsensusEvent at h
  rw [if_pos (by rw [hop]; decide)] at h
  obtain ⟨valid, hvalid, h⟩ := Option.bind_eq_some_iff.mp h
  cases valid with
  | true => exact .inr hvalid
  | false => cases h

end Signing

/-- An event of the first consensus names its transaction rightly, with signed evidence. -/
def BackedEvent (s : Service) (txOf : Bytes → Transaction) (k : KeyedNode) (e : Event) : Prop :=
  ∀ data, e = .consensus data → data.op = .consensus1 → data.tx = txOf data.txID ∧
    (s.verifyEvidenceSignature (s.marshal data.tx) data.evidences = some true →
      data.tx ∈ k.signed)

/-- What holds of the two services in every run of vetted requests. -/
structure Backed (s : Service) (checkers : CheckersMap) (txOf : Bytes → Transaction)
    (k : KeyedNode) : Prop where
  signed : ∀ tx ∈ k.signed, Evaluated checkers k tx
  pending : ∀ e ∈ k.node.pending, BackedEvent s txOf k e
  events : ∀ i m, k.node.machines i = some m → ∀ e ∈ m.events, BackedEvent s txOf k e
  named : ∀ i m, k.node.machines i = some m → m.detail.tx = txOf m.detail.id
  accepted : ∀ i m, k.node.machines i = some m → m.consensus .consensus1 = .accepted →
    Evaluated checkers k m.detail.tx

section Backed
variable {s : Service} {checkers : CheckersMap} {txOf : Bytes → Transaction} {k k' : KeyedNode}

theorem Evaluated.mono {tx : Transaction} (h : Evaluated checkers k tx)
    (hsub : ∀ x ∈ k.answered, x ∈ k'.answered) : Evaluated checkers k' tx := by
  obtain ⟨response, hresponse⟩ := h.asked
  exact ⟨⟨response, hsub _ hresponse⟩, h.typed, h.accepted⟩

theorem BackedEvent.mono {e : Event} (h : BackedEvent s txOf k e)
    (hsub : ∀ tx ∈ k.signed, tx ∈ k'.signed) : BackedEvent s txOf k' e := by
  intro data he hop
  obtain ⟨hname, hvalid⟩ := h data he hop
  exact ⟨hname, fun hv => hsub _ (hvalid hv)⟩

theorem Backed.check {tx : Transaction} (hk : Backed s checkers txOf k)
    (hchecks : Checker.check checkers tx ≠ .ok false)
    (h : k.step s checkers (.check tx) = some k') : Backed s checkers txOf k' := by
  have h : (match checkAndSign checkers s.marshal s.sign tx with
      | .error _ => some k
      | .ok response => some { k with answered := (tx, response) :: k.answered }) = some k' := h
  split at h
  · cases h
    exact hk
  next response hresponse =>
    cases h
    obtain ⟨ok, hok, _⟩ := bind_eq_ok.mp hresponse
    have htrue : ok = true := by
      cases ok with
      | true => rfl
      | false => exact absurd hok hchecks
    subst htrue
    have hsub : ∀ x ∈ k.answered, x ∈ (tx, response) :: k.answered :=
      fun x hx => mem_cons_of_mem _ hx
    have hsigned : ∀ x ∈ k.signed,
        x ∈ ({ k with answered := (tx, response) :: k.answered } : KeyedNode).signed :=
      fun x hx => mem_cons_of_mem _ hx
    obtain ⟨htyped, haccepted⟩ := check_true hok
    refine ⟨?_, fun e he => (hk.pending e he).mono hsigned,
      fun i m hm e he => (hk.events i m hm e he).mono hsigned, hk.named,
      fun i m hm hacc => (hk.accepted i m hm hacc).mono hsub⟩
    intro x hx
    rcases mem_cons.mp hx with heq | hx
    · rw [heq]
      exact ⟨⟨response, mem_cons_self⟩, htyped, haccepted⟩
    · exact (hk.signed x hx).mono hsub

theorem Backed.sbac {input : Input} (hk : Backed s checkers txOf k)
    (hunforged : Unforged s k (.sbac input)) (hvetted : Vetted s checkers txOf k (.sbac input))
    {n : Node} (h : k.node.Steps s input n) : Backed s checkers txOf { k with node := n } := by
  have hsigned : ∀ x ∈ k.signed, x ∈ ({ k with node := n } : KeyedNode).signed := by
    intro x hx
    rcases mem_append.mp hx with hx | hx
    · exact mem_append_left _ hx
    · obtain ⟨r, hr, hrx⟩ := mem_filterMap.mp hx
      exact mem_append_right _ (mem_filterMap.mpr ⟨r, h.mem_history hr, hrx⟩)
  have hevent : ∀ e, input.event = some e → BackedEvent s txOf k e := by
    intro e he data hdata hop
    subst hdata
    cases input with
    | deliver data' =>
      injection he with he
      injection he with he
      subst he
      have hcreates : (Input.deliver data').creates s =
          some (Node.detailOf data'.txID data'.tx data'.evidences, .waitingForConsensus1) := by
        simp [Input.creates, hop]
      exact ⟨hvetted.named _ _ _ rfl hcreates, fun hv => hunforged data' rfl hv⟩
    | message =>
      injection he with he
      cases he
    | _ => exact absurd he (by simp [Input.event])
  refine ⟨?_, ?_, ?_, ?_, ?_⟩
  · intro tx htx
    have hmono : ∀ x, Evaluated checkers k x → Evaluated checkers { k with node := n } x :=
      fun x hx => hx.mono fun _ hy => hy
    rcases mem_append.mp htx with htx | htx
    · exact hmono tx (hk.signed tx (mem_append_left _ htx))
    rcases h.signs htx with htx | ⟨i, f, m, target, t, hinput, hm, hpc, ht, hsends, heq⟩
    · exact hmono tx (hk.signed tx (mem_append_right _ htx))
    subst hinput
    have hacc := hvetted.votes i f m target t rfl hm hpc ht hsends
    exact heq ▸ hmono _ (hk.accepted i m hm hacc)
  · intro e he
    rcases h.pending he with he | he
    · exact (hk.pending e he).mono hsigned
    · exact (hevent e he).mono hsigned
  · intro i m' hm' e he
    rcases h.machines hm' with hm | ⟨detail, initial, _, _, heq⟩ | ⟨m, e', hm, he', heq⟩ |
      ⟨m, f, act, _, hm, hs⟩
    · exact (hk.events i m' hm e he).mono hsigned
    · subst heq
      exact absurd he (by simp [Machine.new])
    · subst heq
      rcases mem_append.mp he with he | he
      · exact (hk.events i m hm e he).mono hsigned
      · rw [mem_singleton.mp he]
        exact (hk.pending e' he').mono hsigned
    · exact (hk.events i m hm e (hs.events e he)).mono hsigned
  · intro i m' hm'
    rcases h.machines hm' with hm | ⟨detail, initial, hc, _, heq⟩ | ⟨m, e', hm, _, heq⟩ |
      ⟨m, f, act, _, hm, hs⟩
    · exact hk.named i m' hm
    · subst heq
      exact hvetted.named input detail initial rfl hc
    · subst heq
      exact hk.named i m hm
    · rw [hs.detail]
      exact hk.named i m hm
  intro i m' hm' hacc
  refine Evaluated.mono (k := k) ?_ fun _ hy => hy
  rcases h.machines hm' with hm | ⟨detail, initial, hc, _, heq⟩ | ⟨m, e', hm, _, heq⟩ |
    ⟨m, f, act, _, hm, hs⟩
  · exact hk.accepted i m' hm hacc
  · subst heq
    exact absurd hacc (by simp [Machine.new])
  · subst heq
    exact hk.accepted i m hm hacc
  rw [hs.detail]
  rcases hs.consensus with heq | ⟨data, c, hdata, hid, hc, heq⟩
  · exact hk.accepted i m hm (by rw [← heq]; exact hacc)
  rw [heq] at hacc
  have hacc : (if ConsensusOp.consensus1 = data.op then c else m.consensus .consensus1) =
      .accepted := hacc
  by_cases hop : data.op = .consensus1
  · -- The event is that of the first consensus: it was accepted before, or on evidence.
    rw [if_pos hop.symm] at hacc
    rw [hacc] at hc
    rcases StateConsensus.processEvent_accepted hc hop with hold | hvalid
    · exact hk.accepted i m hm (by rw [← hop]; exact hold)
    obtain ⟨hname, hback⟩ := hk.events i m hm _ hdata data rfl hop
    have htx : data.tx = m.detail.tx := by rw [hname, hid, ← hk.named i m hm]
    exact htx ▸ hk.signed _ (hback hvalid)
  · rw [if_neg (Ne.symm hop)] at hacc
    exact hk.accepted i m hm hacc

end Backed

/-- **Only checked transactions pass the first consensus**, in every run whose requests are vetted.
-/
theorem only_checked_accepted {s : Service} {checkers : CheckersMap} {txOf : Bytes → Transaction}
    {store : Store} {k : KeyedNode}
    (hrun : KeyedRun s checkers
      (fun k request => Unforged s k request ∧ Vetted s checkers txOf k request) store k) :
    ∀ i m, k.node.machines i = some m → m.consensus .consensus1 = .accepted →
      Evaluated checkers k m.detail.tx := by
  have hbacked : Backed s checkers txOf k := by
    induction hrun with
    | start =>
      exact ⟨by simp [KeyedNode.signed, Node.new], by simp [Node.new],
        fun i m hm => absurd hm (by simp [Node.new]),
        fun i m hm => absurd hm (by simp [Node.new]),
        fun i m hm => absurd hm (by simp [Node.new])⟩
    | @step k k' request _ hok h ih =>
      cases request with
      | check tx => exact ih.check (hok.2.checks tx rfl) h
      | sbac =>
        obtain ⟨n, hn, heq⟩ := Option.map_eq_some_iff.mp h
        exact heq ▸ ih.sbac hok.1 hok.2 (Node.step_cases hn)
  exact hbacked.accepted

/-! ## §3. One contract. -/

/-- A contract with one procedure, whose checker always gives the same answer. -/
def verdict (answer : Bool) : CheckersMap :=
  newCheckers [⟨[7], [8], fun _ _ _ _ _ _ => answer⟩]

def callTx : Transaction := ⟨[.mk [7] [8] [[1]] [] [] [] [] [] [] []]⟩

/-- The shard agrees on the transaction, with the node's signature as evidence. -/
def callDelivered : ConsensusTransaction :=
  ⟨txIDOf (fun data => data) callTx, callTx, PMap.empty.set 1 [1], .consensus1, 1⟩

/-- A client has the transaction checked, the shard agrees on it with that signature as evidence,
and its machine takes the event. -/
theorem call_run (answer : Bool) (ok : KeyedNode → Request → Prop)
    (hcheck : ∀ k, ok k (.check callTx))
    (hdeliver : ∀ k, callTx ∈ k.signed → ok k (.sbac (.deliver callDelivered)))
    (hdispatch : ∀ k, ok k (.sbac (.dispatch false)))
    (hstep : ∀ k, (∀ m, k.node.machines 0 = some m → m.pc = .idle) →
      ok k (.sbac (.step 0 ⟨false, false⟩))) :
    ∃ k m, KeyedRun (pairService true) (verdict answer) ok .empty k ∧
      k.node.machines 0 = some m ∧ m.detail.tx = callTx ∧ m.consensus .consensus1 = .accepted := by
  let k1 : KeyedNode := ⟨.new .empty, [(callTx, ⟨answer && true, [1]⟩)]⟩
  let n2 : Node := k1.node.deliver callDelivered
  let m3 : Machine :=
    { Machine.new (Node.detailOf callDelivered.txID callTx callDelivered.evidences)
        .waitingForConsensus1 with
      events := [.consensus callDelivered] }
  let n3 : Node := { n2 with pending := [], machines := n2.machines.set 0 m3 }
  have h1 : KeyedNode.step (pairService true) (verdict answer) ⟨.new .empty, []⟩ (.check callTx) =
      some k1 := rfl
  have h2 : k1.step (pairService true) (verdict answer) (.sbac (.deliver callDelivered)) =
      some ⟨n2, k1.answered⟩ := rfl
  have h3 : KeyedNode.step (pairService true) (verdict answer) ⟨n2, k1.answered⟩
      (.sbac (.dispatch false)) = some ⟨n3, k1.answered⟩ := rfl
  have h4 : KeyedNode.step (pairService true) (verdict answer) ⟨n3, k1.answered⟩
      (.sbac (.step 0 ⟨false, false⟩)) = some _ := rfl
  have hidle : ∀ m, n3.machines 0 = some m → m.pc = .idle := by
    intro m hm
    have hm : n2.machines.set 0 m3 0 = some m := hm
    injection hm with hm
    rw [← hm]
    rfl
  have hrun1 : KeyedRun (pairService true) (verdict answer) ok .empty k1 :=
    .step .start (hcheck _) h1
  have hrun3 := (hrun1.step (hdeliver k1 mem_cons_self) h2).step (hdispatch _) h3
  exact ⟨_, _, hrun3.step (hstep _ hidle) h4, rfl, rfl, rfl⟩

/-- The checker accepts the call, and its first consensus is accepted. -/
theorem only_checked_accepted_call :
    ∃ k m, k.node.machines 0 = some m ∧ m.consensus .consensus1 = .accepted ∧
      Evaluated (verdict true) k m.detail.tx := by
  have hok : check (verdict true) callTx = .ok true := rfl
  have hquiet : ∀ input : Input, input.creates (pairService true) = none →
      ∀ k, (∀ i f, input = .step i f → ∀ m, k.node.machines i = some m → m.pc = .idle) →
      (∀ data, input ≠ .deliver data) → Unforged (pairService true) k (.sbac input) ∧
        Vetted (pairService true) (verdict true) (fun _ => callTx) k (.sbac input) := by
    intro input hnone k hidle hdeliver
    refine ⟨?_, fun tx h => absurd h (by simp), ?_, ?_⟩
    · intro data h
      injection h with h
      exact absurd h (hdeliver data)
    · intro i f m target t h hm hpc
      injection h with h
      rw [hidle i f h m hm] at hpc
      cases hpc
    intro input' detail initial h hc
    injection h with h
    rw [← h, hnone] at hc
    cases hc
  obtain ⟨k, m, hrun, hm, _, hacc⟩ := call_run true
    (fun k request => Unforged (pairService true) k request ∧
      Vetted (pairService true) (verdict true) (fun _ => callTx) k request)
    (by
      intro k
      refine ⟨fun data h => absurd h (by simp), ?_, fun _ _ _ _ _ h => absurd h (by simp),
        fun _ _ _ h => absurd h (by simp)⟩
      intro tx h
      injection h with h
      rw [← h, hok]
      exact fun h => nomatch h)
    (by
      intro k hk
      refine ⟨?_, fun tx h => absurd h (by simp), fun _ _ _ _ _ h => absurd h (by simp), ?_⟩
      · intro data h _
        injection h with h
        cases h
        exact hk
      intro input detail initial h hc
      cases h
      injection hc with hc
      injection hc with hc _
      rw [← hc]
      rfl)
    (fun k => hquiet _ rfl k (by simp) (by simp))
    (by
      intro k hk
      refine hquiet _ rfl k ?_ (by simp)
      intro i f h m hm
      injection h with hi _
      exact hk m (hi ▸ hm))
  exact ⟨k, m, hm, hacc, only_checked_accepted hrun 0 m hm hacc⟩

/-- **A refused transaction passes**: the checker refuses the call, and the signature of its answer
is valid evidence for the first consensus. -/
theorem refused_transaction_accepted : check (verdict false) callTx = .ok false ∧
      ∃ k m, KeyedRun (pairService true) (verdict false) (Unforged (pairService true)) .empty k ∧
        k.node.machines 0 = some m ∧ m.detail.tx = callTx ∧
        m.consensus .consensus1 = .accepted ∧ ¬ Evaluated (verdict false) k m.detail.tx := by
  refine ⟨rfl, ?_⟩
  obtain ⟨k, m, hrun, hm, htx, hacc⟩ := call_run false (Unforged (pairService true))
    (fun k data h => nomatch h)
    (by
      intro k hk data h _
      injection h with h
      cases h
      exact hk)
    (fun k data h => absurd h (by simp)) (fun k _ data h => absurd h (by simp))
  refine ⟨k, m, hrun, hm, htx, hacc, ?_⟩
  rw [htx]
  intro h
  obtain ⟨c, hc, hpasses⟩ := h.accepted _ (.here mem_cons_self)
  injection hc with hc
  rw [← hc] at hpasses
  exact absurd hpasses (by decide)

end Chainspace.Sbac
