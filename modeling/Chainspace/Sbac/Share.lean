/-
  Chainspace.Sbac.Share — the share of a node in a commit over several shards.

  What the history of a node says at each stage of the protocol. It holds where the transaction has
  one machine, for which nothing fails, its second consensus carries the evidence of the node, and
  no abort unlocks what another machine has locked.
-/
import Chainspace.Sbac.Commit
import Chainspace.Sbac.Locks
import Chainspace.Sbac.Participant
import Chainspace.Sbac.Votes

namespace Chainspace.Sbac

open Chainspace.Lib

/-! ## §1. What a node has said, done and heard. -/

namespace Node

def Sent (n : Node) (id : Bytes) (op : SBACOp) (decision : SBACDecision) : Prop :=
  n.Did id (fun a => a.vote = some (op, decision))

/-- A machine of the transaction has deactivated inputs or created outputs. -/
def Commits (n : Node) (id : Bytes) : Prop := n.Did id (fun a => a.commits = true)

def Started (n : Node) (id : Bytes) : Prop := n.Did id (fun _ => True)

def Heard (n : Node) (id : Bytes) (op : SBACOp) (decision : SBACDecision) (v : Nat) : Prop :=
  ∃ msg ∈ n.received, msg.op = op ∧ msg.txID = id ∧ msg.peerID = v ∧ msg.decision = decision

def HeardAll (s : Service) (id : Bytes) (tx : Transaction) (n : Node) (op : SBACOp) : Prop :=
  ∀ shard ∈ s.shardsInvolvedWithoutSelf tx, ∀ nodes, s.top.nodesInShard shard = some nodes →
    ∀ v ∈ nodes, n.Heard id op .accept v

def HeardReject (s : Service) (id : Bytes) (tx : Transaction) (n : Node) (op : SBACOp) : Prop :=
  ∃ shard ∈ s.shardsInvolvedWithoutSelf tx, ∃ nodes, s.top.nodesInShard shard = some nodes ∧
    ∃ v ∈ nodes, n.Heard id op .reject v

end Node

section Heard
variable {s : Service} {id : Bytes} {tx : Transaction} {n n' : Node} {op : SBACOp}

theorem Node.HeardAll.mono (h : n.HeardAll s id tx op)
    (hsub : ∀ msg ∈ n.received, msg ∈ n'.received) :
    n'.HeardAll s id tx op := by
  intro shard hshard nodes hnodes v hv
  obtain ⟨msg, hmsg, hrest⟩ := h shard hshard nodes hnodes v hv
  exact ⟨msg, hsub msg hmsg, hrest⟩

theorem Node.HeardReject.mono (h : n.HeardReject s id tx op)
    (hsub : ∀ msg ∈ n.received, msg ∈ n'.received) : n'.HeardReject s id tx op := by
  obtain ⟨shard, hshard, nodes, hnodes, v, hv, msg, hmsg, hrest⟩ := h
  exact ⟨shard, hshard, nodes, hnodes, v, hv, msg, hsub msg hmsg, hrest⟩

theorem FiledVotes.informed {m : Machine} (h : FiledVotes s n.received m) (hid : m.detail.id = id)
    (htx : m.detail.tx = tx) (hc : m.consensus .consensus2 ≠ .rejected) :
    Informed (n.HeardAll s id tx .phase1) (n.HeardAll s id tx .phase2)
      (n.HeardReject s id tx .phase1) (n.HeardReject s id tx .phase2) m := by
  have haccepted : ∀ op, (m.sbac op).state = .accepted → n.HeardAll s id tx op := by
    intro op hstate shard hshard nodes hnodes v hv
    obtain ⟨d, hd, hdec⟩ := h.accepted hstate (htx ▸ hshard) hnodes hv
    obtain ⟨msg, hmsg, hop, htxid, hpeer, hmdec, _⟩ := h.votes op v d hd
    exact ⟨msg, hmsg, hop, htxid.trans hid, hpeer, hmdec.trans hdec⟩
  have hrejected : ∀ op, (m.sbac op).state = .rejected → n.HeardReject s id tx op := by
    intro op hstate
    obtain ⟨shard, hshard, nodes, hnodes, R, hR, hcard⟩ := h.rejected hstate
    have hpos : 0 < R.card := Nat.lt_of_lt_of_le (Nat.succ_pos _) hcard
    obtain ⟨v, hv⟩ := Finset.card_pos.mp hpos
    obtain ⟨hmem, d, hd, hdec⟩ := hR v hv
    obtain ⟨msg, hmsg, hop, htxid, hpeer, hmdec, _⟩ := h.votes op v d hd
    exact ⟨shard, htx ▸ hshard, nodes, hnodes, v, hmem, msg, hmsg, hop, htxid.trans hid, hpeer,
      hmdec.trans hdec⟩
  exact ⟨haccepted .phase1, hrejected .phase1, haccepted .phase2, hrejected .phase2, hc⟩

end Heard

/-! ## §2. The history at a stage. -/

/-- What the history of a node says when the transaction has come to a stage. -/
structure Stage (s : Service) (id : Bytes) (tx : Transaction) (n : Node) (p : Progress) : Prop where
  refused : n.Sent id .phase1 .reject → p = .refused
  prepared : n.Sent id .phase1 .accept ↔ p = .prepared ∨ p = .agreed ∨ p = .committed
  agreed : n.Sent id .phase2 .accept → p = .agreed ∨ p = .committed
  notVetoed : ¬ n.Sent id .phase2 .reject
  heardPrepared : p = .agreed ∨ p = .committed → n.HeardAll s id tx .phase1
  committed : n.Commits id → p = .committed
  heardAgreed : p = .committed → n.HeardAll s id tx .phase2
  done : p = .committed → n.Deactivated id ∧
    ∀ o ∈ (s.inputObjectsForShard tx).1, n.store.statuses o = some .inactive

section Stage
variable {s : Service} {id : Bytes} {tx : Transaction} {n n' : Node} {p p' : Progress}

theorem Stage.congr (h : Stage s id tx n p)
    (hdid : ∀ P : Act → Prop, (∀ a, P a → a.vote ≠ none ∨ a.commits = true) →
      (n'.Did id P ↔ n.Did id P))
    (hreceived : ∀ msg ∈ n.received, msg ∈ n'.received)
    (hinactive : ∀ o, n.store.statuses o = some .inactive → n'.store.statuses o = some .inactive) :
    Stage s id tx n' p := by
  have hsent : ∀ op decision, n'.Sent id op decision ↔ n.Sent id op decision :=
    fun op decision => hdid _ (fun a ha => .inl (by rw [ha]; simp))
  have hcommits : n'.Commits id ↔ n.Commits id := hdid _ (fun a ha => .inr ha)
  have hdeact : n'.Deactivated id ↔ n.Deactivated id := hdid _ (fun a ha => .inr (by rw [ha]; rfl))
  constructor
  · rw [hsent]
    exact h.refused
  · rw [hsent]
    exact h.prepared
  · rw [hsent]
    exact h.agreed
  · rw [hsent]
    exact h.notVetoed
  · exact fun hp => (h.heardPrepared hp).mono hreceived
  · rw [hcommits]
    exact h.committed
  · exact fun hp => (h.heardAgreed hp).mono hreceived
  · intro hp
    obtain ⟨hd, hin⟩ := h.done hp
    exact ⟨hdeact.mpr hd, fun o ho => hinactive o (hin o ho)⟩

theorem Stage.advance (h : Stage s id tx n p) {i : Nat} {d : DetailTx} {act : Option Act}
    (hid : d.id = id)
    (hadv : Advances (n.HeardAll s id tx .phase1) (n.HeardAll s id tx .phase2) p act p')
    (hhistory : n'.history = (act.toList.map fun a => ⟨i, d, a⟩) ++ n.history)
    (hreceived : ∀ msg ∈ n.received, msg ∈ n'.received)
    (hinactive : ∀ o, n.store.statuses o = some .inactive → n'.store.statuses o = some .inactive)
    (hdeact : act = some (.deactivate true) →
      ∀ o ∈ (s.inputObjectsForShard tx).1, n'.store.statuses o = some .inactive) :
    Stage s id tx n' p' := by
  have hsent : ∀ op decision, n'.Sent id op decision ↔
      (∃ a, act = some a ∧ a.vote = some (op, decision)) ∨ n.Sent id op decision := by
    intro op decision
    refine (Node.did_iff hhistory).trans ?_
    rw [and_iff_right hid]
    rfl
  have hcommits : n'.Commits id ↔ (∃ a, act = some a ∧ a.commits = true) ∨ n.Commits id := by
    refine (Node.did_iff hhistory).trans ?_
    rw [and_iff_right hid]
    rfl
  -- A decision that is sent is no commit.
  have hsend : ∀ {a : Act} {v}, a.vote = some v → a.commits = false := by
    intro a v ha
    cases a with
    | send => rfl
    | _ => exact absurd ha (by simp [Act.vote])
  -- At the first stage nothing has been sent.
  have hnone : p = .started → ¬ n.Sent id .phase1 .reject ∧ ¬ n.Sent id .phase1 .accept ∧
      ¬ n.Sent id .phase2 .accept ∧ ¬ n.Commits id := by
    intro hp
    refine ⟨fun hs => ?_, fun hs => ?_, fun hs => ?_, fun hs => ?_⟩
    · exact absurd (hp.symm.trans (h.refused hs)) (by simp)
    · have hcase := h.prepared.mp hs
      rw [hp] at hcase
      simp at hcase
    · have hcase := h.agreed hs
      rw [hp] at hcase
      simp at hcase
    · exact absurd (hp.symm.trans (h.committed hs)) (by simp)
  cases hadv with
  | quiet _ _ hact =>
    refine h.congr ?_ hreceived hinactive
    intro P hP
    refine (Node.did_iff hhistory).trans ⟨fun hcase => ?_, .inr⟩
    refine hcase.resolve_left ?_
    intro hnew
    obtain ⟨_, a, ha, hPa⟩ := hnew
    obtain ⟨hvote, hc⟩ := hact a ha
    rcases hP a hPa with hv | hv
    · exact hv hvote
    · exact absurd (hc.symm.trans hv) (by simp)
  | refuse a ha =>
    obtain ⟨_, h1, h2, hc⟩ := hnone rfl
    constructor
    · exact fun _ => rfl
    · simp [hsent, ha, h1]
    · simp [hsent, ha, h2]
    · simp [hsent, ha, h.notVetoed]
    · simp
    · simp [hcommits, hsend ha, hc]
    · simp
    · simp
  | prepare a ha =>
    obtain ⟨h0, _, h2, hc⟩ := hnone rfl
    constructor
    · simp [hsent, ha, h0]
    · simp [hsent, ha]
    · simp [hsent, ha, h2]
    · simp [hsent, ha, h.notVetoed]
    · simp
    · simp [hcommits, hsend ha, hc]
    · simp
    · simp
  | agree a hprepared ha =>
    have h0 : ¬ n.Sent id .phase1 .reject := fun hs => absurd (h.refused hs) (by simp)
    have hc : ¬ n.Commits id := fun hs => absurd (h.committed hs) (by simp)
    have h1 := h.prepared.mpr (.inl rfl)
    constructor
    · simp [hsent, ha, h0]
    · simp [hsent, ha, h1]
    · simp
    · simp [hsent, ha, h.notVetoed]
    · exact fun _ => hprepared.mono hreceived
    · simp [hcommits, hsend ha, hc]
    · simp
    · simp
  | commit hagreed =>
    have h0 : ¬ n.Sent id .phase1 .reject := fun hs => absurd (h.refused hs) (by simp)
    have h1 := h.prepared.mpr (.inr (.inl rfl))
    constructor
    · simp [hsent, Act.vote, h0]
    · simp [hsent, Act.vote, h1]
    · simp
    · simp [hsent, Act.vote, h.notVetoed]
    · exact fun _ => (h.heardPrepared (.inl rfl)).mono hreceived
    · exact fun _ => rfl
    · exact fun _ => hagreed.mono hreceived
    · exact fun _ => ⟨(Node.did_iff hhistory).mpr (.inl ⟨hid, _, rfl, rfl⟩), hdeact rfl⟩
  | finish a ha =>
    have h0 : ¬ n.Sent id .phase1 .reject := fun hs => absurd (h.refused hs) (by simp)
    have h1 := h.prepared.mpr (.inr (.inr rfl))
    obtain ⟨hd, hin⟩ := h.done rfl
    have hvote : ∀ op decision, op ≠ .commit → a.vote ≠ some (op, decision) := by
      intro op decision hop hv
      rcases ha with ha | ha
      · exact absurd (ha.symm.trans hv) (by simp)
      · cases Option.some.inj (ha.symm.trans hv)
        exact hop rfl
    constructor
    · simp [hsent, hvote, h0]
    · simp [hsent, h1]
    · simp
    · simp [hsent, hvote, h.notVetoed]
    · exact fun _ => (h.heardPrepared (.inr rfl)).mono hreceived
    · exact fun _ => rfl
    · exact fun _ => (h.heardAgreed rfl).mono hreceived
    · exact fun _ => ⟨(Node.did_iff hhistory).mpr (.inr hd), fun o ho => hinactive o (hin o ho)⟩

end Stage

/-! ## §3. Every run of the node. -/

/-- The second consensus of the transaction carries the evidence of the node. -/
def GoodEvidence (s : Service) (id : Bytes) : Event → Prop
  | .consensus data => data.op = .consensus2 → data.txID = id →
      s.verifyEvidenceSignature (s.marshal data.tx) data.evidences = some true
  | .sbac _ => True

structure Undisturbed (s : Service) (id : Bytes) (tx : Transaction) (n : Node) (input : Input) :
    Prop where
  /-- a machine of the transaction is the first one, starts with it, and waits for no commit of
  others -/
  starts : ∀ d initial, n.creates s input = some (d, initial) → d.id = id →
    d.tx = tx ∧ initial = .waitingForConsensus1 ∧ ¬ n.Started id
  evidence : ∀ e, input.event = some e → GoodEvidence s id e
  /-- nothing fails for its machine -/
  faults : ∀ i f m, input = .step i f → n.machines i = some m → m.detail.id = id →
    f = ⟨false, false⟩
  /-- no abort unlocks what another machine has locked -/
  aborts : SafeAbort s n input

/-- Where the machine of the transaction stands, as far as the node has heard. -/
abbrev Node.StandsAt (s : Service) (id : Bytes) (tx : Transaction) (n : Node) (p : Progress)
    (m : Machine) : Prop :=
  At (n.HeardAll s id tx .phase1) (n.HeardAll s id tx .phase2) (n.HeardReject s id tx .phase1)
    (n.HeardReject s id tx .phase2) p m.state m.pc

structure ShareMachine (s : Service) (id : Bytes) (tx : Transaction) (m : Machine) : Prop where
  tx : m.detail.tx = tx
  events : ∀ e ∈ m.events, GoodEvidence s id e
  consensus2 : m.consensus .consensus2 ≠ .rejected

/-- **The share of a node in the commit**: its history fits the stage of the transaction, and its
machine stands where it should. -/
structure Share (s : Service) (id : Bytes) (tx : Transaction) (n : Node) : Prop where
  numbered : n.Numbered
  filing : Filing s n
  locks : LockInv s n
  pending : ∀ e ∈ n.pending, GoodEvidence s id e
  machine : ∀ i m, n.machines i = some m → m.detail.id = id →
    n.Started id ∧ ShareMachine s id tx m
  single : ∀ i j m m', n.machines i = some m → n.machines j = some m' → m.detail.id = id →
    m'.detail.id = id → i = j
  stage : ∃ p, Stage s id tx n p ∧ (¬ n.Started id → p = .started) ∧
    ∀ i m, n.machines i = some m → m.detail.id = id → n.StandsAt s id tx p m

section Share
variable {s : Service} {id : Bytes} {tx : Transaction} {n n' : Node} {input : Input}
  {m m' : Machine} {store : Store} {i : Nat}

theorem Node.StandsAt.mono {p : Progress} (h : n.StandsAt s id tx p m)
    (hsub : ∀ msg ∈ n.received, msg ∈ n'.received) : n'.StandsAt s id tx p m :=
  At.mono h (·.mono hsub) (·.mono hsub) (·.mono hsub) (·.mono hsub)

theorem ShareMachine.step {f : Faults} {store' : Store} {act : Option Act}
    (h : ShareMachine s id tx m) (hid : m.detail.id = id)
    (hstep : m.Steps s f store store' m' act) : ShareMachine s id tx m' := by
  refine ⟨hstep.detail ▸ h.tx, fun e he => h.events e (hstep.events e he), ?_⟩
  rcases hstep.consensus with heq | ⟨data, c, hmem, htxid, hc, heq⟩
  · rw [heq]
    exact h.consensus2
  rw [heq]
  by_cases hop : data.op = .consensus2
  · -- The event of the second consensus: it is over, or accepted with the evidence.
    have hgood : s.verifyEvidenceSignature (s.marshal data.tx) data.evidences = some true :=
      h.events _ hmem hop (htxid.trans hid)
    simp only [hop, if_true]
    unfold StateConsensus.processEvent at hc
    split at hc
    · injection hc with hc
      rw [← hc, hop]
      exact h.consensus2
    unfold Service.onConsensusEvent at hc
    rw [if_pos (by rw [hop]; simp), hgood] at hc
    injection hc with hc
    rw [← hc]
    simp
  · show (if ConsensusOp.consensus2 = data.op then c else _) ≠ _
    rw [if_neg (Ne.symm hop)]
    exact h.consensus2

/-- The machines after a step: one that was there, or a new one, which is the first. -/
theorem Undisturbed.machines (hok : Undisturbed s id tx n input) (h : n.Steps s input n')
    (hm' : n'.machines i = some m') (hid : m'.detail.id = id) :
    (∃ m, n.machines i = some m ∧ m.detail.id = id) ∨
      (¬ n.Started id ∧ n'.Started id ∧ i = n.next ∧ ∃ d, d.id = id ∧ d.tx = tx ∧
        m' = .new d .waitingForConsensus1) := by
  rcases h.around_or_machine with ha | ⟨j, f, m, m1, store, act, _, hm, hstep, heq⟩
  · rcases ha.machines i m' hm' with ⟨m, events, hm, heq⟩ | ⟨d, initial, hc, hi, heq, hr⟩
    · subst heq
      exact .inl ⟨m, hm, hid⟩
    subst heq
    obtain ⟨hdtx, hinitial, hnot⟩ := hok.starts d initial hc hid
    exact .inr ⟨hnot, ⟨_, hr, hid, trivial⟩, hi, d, hid, hdtx, by rw [hinitial]⟩
  subst heq
  rcases PMap.of_set hm' with ⟨hij, hm'⟩ | ⟨_, hm'⟩
  · exact .inl ⟨m, hij ▸ hm, by rw [← hstep.detail, hm']; exact hid⟩
  · exact .inl ⟨m', hm', hid⟩

theorem Node.Steps.started (h : n.Steps s input n') (hst : n.Started id) : n'.Started id := by
  obtain ⟨r, hr, hid, _⟩ := hst
  exact ⟨r, h.mem_history hr, hid, trivial⟩

theorem Share.machine_step (hn : Share s id tx n) (hok : Undisturbed s id tx n input)
    (h : n.Steps s input n') (hm' : n'.machines i = some m')
    (hid : m'.detail.id = id) : n'.Started id ∧ ShareMachine s id tx m' := by
  rcases hok.machines h hm' hid with ⟨m, hm, hidm⟩ | ⟨_, hst, _, d, _, hdtx, heq⟩
  · obtain ⟨hst, _⟩ := hn.machine i m hm hidm
    refine ⟨h.started hst, ?_⟩
    rcases h.machines hm' with hsame | ⟨d, initial, _, _, heq⟩ | ⟨m1, e, hm1, he, heq⟩ |
      ⟨m1, f, act, _, hm1, hstep⟩
    · exact (hn.machine i m' hsame hid).2
    · -- A number that is taken is not given again.
      exact absurd (hn.numbered i m hm) (by omega)
    · subst heq
      have hshare1 := (hn.machine i m1 hm1 hid).2
      refine ⟨hshare1.tx, ?_, hshare1.consensus2⟩
      exact List.forall_mem_append.mpr ⟨hshare1.events,
        List.forall_mem_singleton.mpr (hn.pending e he)⟩
    · rw [hstep.detail] at hid
      exact (hn.machine i m1 hm1 hid).2.step hid hstep
  · subst heq
    exact ⟨hst, hdtx, fun e he => absurd he (by simp [Machine.new]), by simp [Machine.new]⟩

theorem Share.single_step (hn : Share s id tx n) (hok : Undisturbed s id tx n input)
    (h : n.Steps s input n') (i j : Nat) (m m' : Machine) (hm : n'.machines i = some m)
    (hm' : n'.machines j = some m') (hid : m.detail.id = id) (hid' : m'.detail.id = id) :
    i = j := by
  rcases hok.machines h hm hid with ⟨mi, hmi, hidi⟩ | ⟨hnot, _, hi, _⟩
  · rcases hok.machines h hm' hid' with ⟨mj, hmj, hidj⟩ | ⟨hnot, _⟩
    · exact hn.single i j mi mj hmi hmj hidi hidj
    · exact absurd (hn.machine i mi hmi hidi).1 hnot
  rcases hok.machines h hm' hid' with ⟨mj, hmj, hidj⟩ | ⟨_, _, hj, _⟩
  · exact absurd (hn.machine j mj hmj hidj).1 hnot
  · exact hi.trans hj.symm

theorem LockInv.deactivates (hn : LockInv s n) (hm : n.machines i = some m)
    (hs : m.state = .waitingForPhase2) (hpc : m.pc = .applying .objectsDeactivated) :
    ∃ st, n.store.deactivateObjects (s.inputObjectsForShard m.detail.tx).1 = .ok st := by
  have hholding : m.holding = true := by
    unfold Machine.holding
    rw [hpc, hs]
    rfl
  have hheld := hn.owner i m hm hholding
  exact Store.deactivateObjects_of_locked (hn.distinct i m.detail hheld)
    (hn.locked i m.detail hheld)

theorem Share.own (hn : Share s id tx n) (hcross : (s.inputObjectsForShard tx).2 = false)
    {f : Faults} {act : Option Act}
    (hm : n.machines i = some m) (hid : m.detail.id = id)
    (hok : Undisturbed s id tx n (.step i f)) (h : m.Steps s f n.store store m' act)
    {p : Progress} (hstage : Stage s id tx n p) (hat : n.StandsAt s id tx p m) :
    ∃ p', Stage s id tx (n.after i m store m' act) p' ∧ n.StandsAt s id tx p' m' := by
  obtain ⟨_, hshare⟩ := hn.machine i m hm hid
  have hinfo := (hn.filing.filed i m hm).informed hid hshare.tx hshare.consensus2
  obtain ⟨p', hadv, hat'⟩ := hat.step hinfo h (hok.faults i f m rfl hm hid)
    (by rw [hshare.tx]; exact hcross) (fun hs hpc => hn.locks.deactivates hm hs hpc)
  refine ⟨p', hstage.advance hid hadv rfl (fun _ hmsg => hmsg)
    (fun o ho => h.effect.inactive ho) ?_, hat'⟩
  intro hact o ho
  exact ((hact ▸ h.effect).deactivated (hshare.tx ▸ ho)).2

theorem Share.step (hn : Share s id tx n) (hcross : (s.inputObjectsForShard tx).2 = false)
    (hok : Undisturbed s id tx n input) (hstep : n.step s input = some n') : Share s id tx n' := by
  have h := Node.step_cases hstep
  refine ⟨h.numbered hn.numbered, hn.filing.step h, hn.locks.step hok.aborts hstep, ?_,
    fun i m hm hid => hn.machine_step hok h hm hid, hn.single_step hok h, ?_⟩
  · intro e he
    rcases h.pending he with he | he
    · exact hn.pending e he
    · exact hok.evidence e he
  obtain ⟨p, hstage, hfresh, hat⟩ := hn.stage
  have hsub : ∀ msg ∈ n.received, msg ∈ n'.received := fun _ hmsg => h.mem_received hmsg
  -- Nothing but its own machine moves the transaction on.
  have hothers : (∀ P : Act → Prop, (∀ a, P a → a.vote ≠ none ∨ a.commits = true) →
        (n'.Did id P ↔ n.Did id P)) →
      (∀ i m', n'.machines i = some m' → m'.detail.id = id →
        (∃ m, n.machines i = some m ∧ m.detail.id = id ∧ m'.state = m.state ∧ m'.pc = m.pc) ∨
          (¬ n.Started id ∧ m'.state = .waitingForConsensus1 ∧ m'.pc = .idle)) →
      ∃ p, Stage s id tx n' p ∧ (¬ n'.Started id → p = .started) ∧
        ∀ i m, n'.machines i = some m → m.detail.id = id → n'.StandsAt s id tx p m := by
    intro hdid hpos
    refine ⟨p, hstage.congr hdid hsub (fun o ho => h.inactive ho),
      fun hnot => hfresh (fun hst => hnot (h.started hst)), ?_⟩
    intro i m' hm' hid
    rcases hpos i m' hm' hid with ⟨m, hm, hidm, hs, hpc⟩ | ⟨hnot, hs, hpc⟩
    · have hstands := (hat i m hm hidm).mono hsub
      unfold Node.StandsAt at hstands ⊢
      rw [hs, hpc]
      exact hstands
    unfold Node.StandsAt
    rw [hs, hpc, hfresh hnot]
    exact .idle .consensus1
  rcases h.around_or_machine with ha | ⟨j, f, m, m1, store, act, hinput, hm, hmstep, heq⟩
  · refine hothers ?_ ?_
    · intro P hP
      have hnot : ∀ a : Act, a.vote = none → a.commits = false → ¬ P a := by
        intro a hv hc hPa
        exact (hP a hPa).elim (fun h => h hv) (fun h => absurd (hc.symm.trans h) (by simp))
      exact ha.did_iff (fun _ => hnot _ rfl rfl) (fun _ => hnot _ rfl rfl)
    intro i m' hm' hid
    rcases ha.machines i m' hm' with ⟨m, events, hm, heq⟩ | ⟨d, initial, hc, _, heq, _⟩
    · subst heq
      exact .inl ⟨m, hm, hid, rfl, rfl⟩
    subst heq
    obtain ⟨_, hinitial, hnot⟩ := hok.starts d initial hc hid
    exact .inr ⟨hnot, hinitial, rfl⟩
  subst hinput heq
  by_cases hid : m.detail.id = id
  · obtain ⟨p', hstage', hat'⟩ := hn.own hcross hm hid hok hmstep hstage (hat j m hm hid)
    have hstarted := (hn.machine j m hm hid).1
    refine ⟨p', hstage', fun hnot => absurd ((Node.did_iff rfl).mpr (.inr hstarted)) hnot, ?_⟩
    intro i m' hm' hid'
    rcases PMap.of_set hm' with ⟨hij, hm'⟩ | ⟨hij, hm'⟩
    · exact hm' ▸ hat'
    · exact absurd (hn.single i j m' m hm' hm hid' hid) hij
  refine hothers ?_ ?_
  · intro P hP
    refine (Node.did_iff rfl).trans ⟨fun hcase => ?_, .inr⟩
    exact hcase.resolve_left (fun hnew => hid hnew.1)
  intro i m' hm' hid'
  rcases PMap.of_set hm' with ⟨_, hm'⟩ | ⟨_, hm'⟩
  · rw [← hm', hmstep.detail] at hid'
    exact absurd hid' hid
  · exact .inl ⟨m', hm', hid', rfl, rfl⟩

theorem share_new (store : Store) : Share s id tx (.new store) := by
  have hnone : ∀ i m, (Node.new store).machines i ≠ some m := by simp [Node.new]
  have hdid : ∀ P, ¬ (Node.new store).Did id P := by
    intro P h
    obtain ⟨r, hr, _⟩ := h
    exact absurd hr (by simp [Node.new])
  refine ⟨fun i m hm => absurd hm (hnone i m), filing_new store, lockInv_new store,
    fun e he => absurd he (by simp [Node.new]),
    fun i m hm => absurd hm (hnone i m), fun i j m m' hm => absurd hm (hnone i m), .started, ?_,
    fun _ => rfl, fun i m hm => absurd hm (hnone i m)⟩
  exact ⟨fun h => absurd h (hdid _), ⟨fun h => absurd h (hdid _), by simp⟩,
    fun h => absurd h (hdid _), hdid _, by simp, fun h => absurd h (hdid _), by simp, by simp⟩

theorem Share.run (hcross : (s.inputObjectsForShard tx).2 = false)
    (hrun : NodeRun s (Undisturbed s id tx) store n) : Share s id tx n := by
  induction hrun with
  | start => exact share_new store
  | step _ hok h ih => exact ih.step hcross hok h

end Share

end Chainspace.Sbac
