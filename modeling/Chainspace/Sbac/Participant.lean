/-
  Chainspace.Sbac.Participant — a node as a participant of a commit over several shards.

  §1 is the protocol in the abstract: a participant starts, refuses or prepares, agrees once all the
  others have prepared, and commits once all the others have agreed. §2 says where a machine stands
  at each stage, and §3 that its steps, none of which fails, are steps of the protocol. `Prepared`
  and `Agreed` stand for what the node has heard of the others, `Refused` and `Vetoed` for a
  rejection in phase 1 or 2.
-/
import Chainspace.Sbac.Machine

namespace Chainspace.Sbac

open Chainspace.Lib

/-! ## §1. The protocol of a participant. -/

/-- The stages of a participant. -/
inductive Progress
  /-- has sent nothing -/
  | started
  /-- has rejected phase 1 -/
  | refused
  /-- has accepted phase 1 -/
  | prepared
  /-- has accepted phase 2 -/
  | agreed
  /-- has deactivated its inputs -/
  | committed
  deriving DecidableEq, Repr

def Act.vote : Act → Option (SBACOp × SBACDecision)
  | .send msg _ => some (msg.op, msg.decision)
  | _ => none

def Act.commits : Act → Bool
  | .deactivate true | .create true => true
  | _ => false

/-- **The steps of a participant.** -/
inductive Advances (Prepared Agreed : Prop) : Progress → Option Act → Progress → Prop
  | quiet (p : Progress) (act : Option Act)
      (h : ∀ a ∈ act, a.vote = none ∧ a.commits = false) : Advances Prepared Agreed p act p
  | refuse (a : Act) (h : a.vote = some (.phase1, .reject)) :
      Advances Prepared Agreed .started (some a) .refused
  | prepare (a : Act) (h : a.vote = some (.phase1, .accept)) :
      Advances Prepared Agreed .started (some a) .prepared
  | agree (a : Act) (hprepared : Prepared) (h : a.vote = some (.phase2, .accept)) :
      Advances Prepared Agreed .prepared (some a) .agreed
  | commit (hagreed : Agreed) :
      Advances Prepared Agreed .agreed (some (.deactivate true)) .committed
  | finish (a : Act) (h : a.vote = none ∨ a.vote = some (.commit, .accept)) :
      Advances Prepared Agreed .committed (some a) .committed

/-! ## §2. Where a machine stands. -/

section Positions
variable (Prepared Agreed Refused Vetoed : Prop)

inductive Aborting : Progress → State → Prop
  | unlocked : Aborting .started .objectLocked
  | refused : Aborting .refused .rejectPhase1Broadcasted
  | phase1 (h : Refused) : Aborting .prepared .waitingForPhase1
  | phase2 (h : Vetoed) : Aborting .agreed .waitingForPhase2

inductive Rests : Progress → State → Prop
  | consensus1 : Rests .started .waitingForConsensus1
  | phase1 : Rests .prepared .waitingForPhase1
  | consensus2 (h : Prepared) : Rests .prepared .waitingForConsensus2
  | phase2 : Rests .agreed .waitingForPhase2
  | deactivated : Rests .committed .objectsDeactivated
  | succeeded : Rests .committed .succeeded
  | aborted {p : Progress} {st : State} (h : Aborting Refused Vetoed p st) : Rests p .aborted

inductive Applies : Progress → State → State → Prop
  | lock : Applies .started .waitingForConsensus1 .objectLocked
  | refuse : Applies .started .waitingForConsensus1 .rejectPhase1Broadcasted
  | prepare : Applies .started .objectLocked .acceptPhase1Broadcasted
  | abort {p : Progress} {st : State} (h : Aborting Refused Vetoed p st) : Applies p st .aborted
  | waitPhase1 : Applies .prepared .acceptPhase1Broadcasted .waitingForPhase1
  | trigger (h : Prepared) : Applies .prepared .waitingForPhase1 .consensus2Triggered
  | waitConsensus2 (h : Prepared) : Applies .prepared .consensus2Triggered .waitingForConsensus2
  | agree (h : Prepared) : Applies .prepared .waitingForConsensus2 .acceptPhase2Broadcasted
  | waitPhase2 : Applies .agreed .acceptPhase2Broadcasted .waitingForPhase2
  | deactivate (h : Agreed) : Applies .agreed .waitingForPhase2 .objectsDeactivated
  | create : Applies .committed .objectsDeactivated .objectsCreated
  | announce : Applies .committed .objectsCreated .commitObjectsBroadcasted
  | finish : Applies .committed .objectsCreated .succeeded
  | finishAnnounced : Applies .committed .commitObjectsBroadcasted .succeeded
  /-- the last transition leads to the state in which the machine already is -/
  | stay {p : Progress} {st : State} (h : Rests Prepared Refused Vetoed p st)
      (hst : transitionTable st st = none) : Applies p st st

/-- Where a machine stands at a stage. -/
inductive At : Progress → State → Pc → Prop
  | idle {p : Progress} {st : State} (h : Rests Prepared Refused Vetoed p st) : At p st .idle
  | moving {p : Progress} {st : State} (h : Rests Prepared Refused Vetoed p st) : At p st .moving
  | checking (rest : List Trace) : At .started .waitingForConsensus1 (.checking rest)
  | applying {p : Progress} {st target : State}
      (h : Applies Prepared Agreed Refused Vetoed p st target) : At p st (.applying target)
  | unlocked {p : Progress} {st : State} (h : Aborting Refused Vetoed p st) : At p st .unlocked

end Positions

section Mono
variable {Prepared Agreed Refused Vetoed Prepared' Agreed' Refused' Vetoed' : Prop} {p : Progress}
  {a b : State} {pc : Pc}

theorem Aborting.mono (h : Aborting Refused Vetoed p a) (hr : Refused → Refused')
    (hv : Vetoed → Vetoed') : Aborting Refused' Vetoed' p a := by
  cases h with
  | unlocked => exact .unlocked
  | refused => exact .refused
  | phase1 h => exact .phase1 (hr h)
  | phase2 h => exact .phase2 (hv h)

theorem Rests.mono (h : Rests Prepared Refused Vetoed p a) (hp : Prepared → Prepared')
    (hr : Refused → Refused') (hv : Vetoed → Vetoed') : Rests Prepared' Refused' Vetoed' p a := by
  cases h with
  | consensus1 => exact .consensus1
  | phase1 => exact .phase1
  | consensus2 h => exact .consensus2 (hp h)
  | phase2 => exact .phase2
  | deactivated => exact .deactivated
  | succeeded => exact .succeeded
  | aborted h => exact .aborted (h.mono hr hv)

theorem Applies.mono (h : Applies Prepared Agreed Refused Vetoed p a b) (hp : Prepared → Prepared')
    (ha : Agreed → Agreed') (hr : Refused → Refused') (hv : Vetoed → Vetoed') :
    Applies Prepared' Agreed' Refused' Vetoed' p a b := by
  cases h with
  | lock => exact .lock
  | refuse => exact .refuse
  | prepare => exact .prepare
  | abort h => exact .abort (h.mono hr hv)
  | waitPhase1 => exact .waitPhase1
  | trigger h => exact .trigger (hp h)
  | waitConsensus2 h => exact .waitConsensus2 (hp h)
  | agree h => exact .agree (hp h)
  | waitPhase2 => exact .waitPhase2
  | deactivate h => exact .deactivate (ha h)
  | create => exact .create
  | announce => exact .announce
  | finish => exact .finish
  | finishAnnounced => exact .finishAnnounced
  | stay h hst => exact .stay (h.mono hp hr hv) hst

theorem At.mono (h : At Prepared Agreed Refused Vetoed p a pc) (hp : Prepared → Prepared')
    (ha : Agreed → Agreed') (hr : Refused → Refused') (hv : Vetoed → Vetoed') :
    At Prepared' Agreed' Refused' Vetoed' p a pc := by
  cases h with
  | idle h => exact .idle (h.mono hp hr hv)
  | moving h => exact .moving (h.mono hp hr hv)
  | checking rest => exact .checking rest
  | applying h => exact .applying (h.mono hp ha hr hv)
  | unlocked h => exact .unlocked (h.mono hr hv)

end Mono

/-! ## §3. The machine takes steps of the protocol. -/

section Steps
variable {Prepared Agreed Refused Vetoed : Prop} {p : Progress} {s : Service} {f : Faults}
  {store store' : Store} {m m' : Machine} {act : Option Act}

/-- What the small machines of a machine stand for. -/
structure Informed (Prepared Agreed Refused Vetoed : Prop) (m : Machine) : Prop where
  prepared : (m.sbac .phase1).state = .accepted → Prepared
  refused : (m.sbac .phase1).state = .rejected → Refused
  agreed : (m.sbac .phase2).state = .accepted → Agreed
  vetoed : (m.sbac .phase2).state = .rejected → Vetoed
  consensus2 : m.consensus .consensus2 ≠ .rejected

theorem At.moveTo {a b : State} (hs : m.state = a)
    (h : Applies Prepared Agreed Refused Vetoed p a b)
    (ht : (transitionTable a b).isSome = true) (hne : b ≠ a) :
    At Prepared Agreed Refused Vetoed p (m.moveTo b).state (m.moveTo b).pc := by
  subst hs
  rw [Machine.moveTo_eq (.inr ht), if_neg hne]
  exact .applying h

theorem At.moveTo_self {a : State} (hs : m.state = a) (h : Rests Prepared Refused Vetoed p a) :
    At Prepared Agreed Refused Vetoed p (m.moveTo a).state (m.moveTo a).pc := by
  subst hs
  rw [Machine.moveTo_eq (.inl rfl), if_pos rfl]
  exact .idle h

theorem Rests.move (h : Rests Prepared Refused Vetoed p m.state)
    (hinfo : Informed Prepared Agreed Refused Vetoed m) :
    At Prepared Agreed Refused Vetoed p m.move.state m.move.pc := by
  have hidle : m.move = { m with pc := .idle } →
      At Prepared Agreed Refused Vetoed p m.move.state m.move.pc := by
    intro heq
    rw [heq]
    exact .idle h
  generalize hs : m.state = st at h
  cases h with
  | consensus1 =>
    cases hc : m.consensus .consensus1 with
    | waiting =>
      have heq : m.move = m.moveTo .waitingForConsensus1 := by simp [Machine.move, hs, hc]
      rw [heq]
      exact At.moveTo_self hs .consensus1
    | rejected =>
      have heq : m.move = m.moveTo .rejectPhase1Broadcasted := by simp [Machine.move, hs, hc]
      rw [heq]
      exact At.moveTo hs .refuse rfl (by simp)
    | accepted =>
      have heq : m.move = { m with pc := .checking m.detail.tx.traces } := by
        simp [Machine.move, hs, hc]
      rw [heq]
      rw [hs]
      exact .checking _
  | phase1 =>
    have heq : m.move = m.moveTo (onWaitingForPhase (m.sbac .phase1).state .waitingForPhase1
        .consensus2Triggered) := by simp [Machine.move, hs]
    rw [heq]
    cases hc : (m.sbac .phase1).state with
    | waiting => exact At.moveTo_self hs .phase1
    | accepted => exact At.moveTo hs (.trigger (hinfo.prepared hc)) rfl (by decide)
    | rejected => exact At.moveTo hs (.abort (.phase1 (hinfo.refused hc))) rfl (by decide)
  | consensus2 hprepared =>
    have heq : m.move = m.moveTo (onWaitingForConsensus (m.consensus .consensus2)
        .waitingForConsensus2 .rejectPhase2Broadcasted .acceptPhase2Broadcasted) := by
      simp [Machine.move, hs]
    rw [heq]
    cases hc : m.consensus .consensus2 with
    | waiting => exact At.moveTo_self hs (.consensus2 hprepared)
    | accepted => exact At.moveTo hs (.agree hprepared) rfl (by decide)
    | rejected => exact absurd hc hinfo.consensus2
  | phase2 =>
    have heq : m.move = m.moveTo (onWaitingForPhase (m.sbac .phase2).state .waitingForPhase2
        .objectsDeactivated) := by simp [Machine.move, hs]
    rw [heq]
    cases hc : (m.sbac .phase2).state with
    | waiting => exact At.moveTo_self hs .phase2
    | accepted => exact At.moveTo hs (.deactivate (hinfo.agreed hc)) rfl (by decide)
    | rejected => exact At.moveTo hs (.abort (.phase2 (hinfo.vetoed hc))) rfl (by decide)
  | deactivated | succeeded | aborted => exact hidle (by simp [Machine.move, hs])

/-- What a step of the machine leaves. -/
def Follows (Prepared Agreed Refused Vetoed : Prop) (p : Progress) (act : Option Act)
    (m' : Machine) : Prop :=
  ∃ p', Advances Prepared Agreed p act p' ∧
    At Prepared Agreed Refused Vetoed p' m'.state m'.pc

theorem Follows.quiet (hact : ∀ a ∈ act, a.vote = none ∧ a.commits = false)
    (h : At Prepared Agreed Refused Vetoed p m'.state m'.pc) :
    Follows Prepared Agreed Refused Vetoed p act m' :=
  ⟨p, .quiet p act hact, h⟩

/-- The functions of the table, when nothing fails. -/
theorem Applies.step {a b : State} (h : Applies Prepared Agreed Refused Vetoed p a b)
    (hs : m.state = a) (hpc : m.pc = .applying b) (hstep : m.Steps s f store store' m' act)
    (hf : f = ⟨false, false⟩) (hcross : (s.inputObjectsForShard m.detail.tx).2 = false)
    (hdeact : a = .waitingForPhase2 → b = .objectsDeactivated →
      ∃ st, store.deactivateObjects (s.inputObjectsForShard m.detail.tx).1 = .ok st) :
    Follows Prepared Agreed Refused Vetoed p act m' := by
  have hmarshal : f.marshal = false := by rw [hf]
  have hcall : ∀ t st next out p', transitionTable a b = some t → t ≠ .toAborted →
      callTransition s f m.detail store t = ⟨st, some next, out⟩ →
      Advances Prepared Agreed p out p' → Applies Prepared Agreed Refused Vetoed p' b next →
      Follows Prepared Agreed Refused Vetoed p act m' := by
    intro t st next out p' ht hne heq hadv hnext
    obtain ⟨_, hact, hcase⟩ := hstep.of_calls hpc (hs ▸ ht) hne
    rw [heq] at hact hcase
    rcases hcase with ⟨hnone, _⟩ | ⟨next', hnext', hm'⟩
    · cases hnone
    injection hnext' with hnext'
    subst hnext' hm' hact
    exact ⟨p', hadv, .applying hnext⟩
  -- The functions that send a decision, start a consensus or go on to wait.
  have hsend : ∀ t op decision next p', transitionTable a b = some t → t ≠ .toAborted →
      t.sends = some (op, decision, next) →
      (∀ x : Act, x.vote = some (op, decision) → Advances Prepared Agreed p (some x) p') →
      Applies Prepared Agreed Refused Vetoed p' b next →
      Follows Prepared Agreed Refused Vetoed p act m' := by
    intro t op decision next p' ht hne hsends hadv hnext
    obtain ⟨shards, heq⟩ := callTransition_sends s m.detail store hmarshal hsends
    exact hcall t store next _ p' ht hne heq (hadv _ rfl) hnext
  have hquiet : ∀ out : Option Act, (∀ x ∈ out, ∃ data, x = .propose data) →
      Advances Prepared Agreed p out p := by
    intro out hout
    refine .quiet p out ?_
    intro x hx
    obtain ⟨data, hdata⟩ := hout x hx
    rw [hdata]
    exact ⟨rfl, rfl⟩
  cases h with
  | lock =>
    rcases toObjectLocked_cases s f m.detail store with ⟨st, _, heq⟩ | heq
    · rw [hcross] at heq
      exact hcall .toObjectLocked st _ _ .started rfl (by simp) heq
        (.quiet _ _ (by simp [Act.vote, Act.commits])) .prepare
    · exact hcall .toObjectLocked store _ _ .started rfl (by simp) heq
        (.quiet _ _ (by simp [Act.vote, Act.commits])) (.abort .unlocked)
  | refuse =>
    exact hsend .toRejectPhase1Broadcasted _ _ _ .refused rfl (by simp) rfl .refuse
      (.abort .refused)
  | prepare =>
    exact hsend .toAcceptPhase1Broadcasted _ _ _ .prepared rfl (by simp) rfl .prepare .waitPhase1
  | abort habort =>
    have ht : transitionTable a .aborted = some .toAborted := by cases habort <;> rfl
    obtain ⟨hm', hact⟩ := hstep.of_aborts hpc (hs ▸ ht)
    subst hm'
    refine Follows.quiet ?_ (hs ▸ .unlocked habort)
    intro x hx
    rw [hact] at hx
    rcases unlockInputs_cases s f m.detail store with ⟨st, _, heq⟩ | heq
    all_goals
      rw [heq] at hx
      cases hx
      exact ⟨rfl, rfl⟩
  | waitPhase1 =>
    exact hcall .toWaitingForPhase1 store _ none .prepared rfl (by simp) rfl
      (hquiet none (by simp)) (.stay .phase1 rfl)
  | trigger hprepared =>
    obtain ⟨out, hout, heq⟩ := callTransition_triggers s m.detail store hmarshal
      (t := .toConsensus2Triggered) rfl
    exact hcall .toConsensus2Triggered store _ out .prepared rfl (by simp) heq (hquiet out hout)
      (.waitConsensus2 hprepared)
  | waitConsensus2 hprepared =>
    exact hcall .toWaitingForConsensus2 store _ none .prepared rfl (by simp) rfl
      (hquiet none (by simp)) (.stay (.consensus2 hprepared) rfl)
  | agree hprepared =>
    exact hsend .toAcceptPhase2Broadcasted _ _ _ .agreed rfl (by simp) rfl
      (fun x hx => .agree x hprepared hx) .waitPhase2
  | waitPhase2 =>
    exact hcall .toWaitingForPhase2 store _ none .agreed rfl (by simp) rfl
      (hquiet none (by simp)) (.stay .phase2 rfl)
  | deactivate hagreed =>
    obtain ⟨st, hst⟩ := hdeact rfl rfl
    rcases toObjectDeactivated_cases s f m.detail store with ⟨st', _, heq⟩ | ⟨e, he, _⟩
    · exact hcall .toObjectDeactivated st' _ _ .committed rfl (by simp) heq (.commit hagreed)
        .create
    · rw [hst] at he
      exact absurd (he (by rw [hf])) (by simp)
  | create =>
    rcases toObjectsCreated_cases s f m.detail store with ⟨st, _, heq⟩ | ⟨e, _, heq⟩
    · refine hcall .toObjectsCreated st _ _ .committed rfl (by simp) heq (.finish _ (.inl rfl)) ?_
      split
      · exact .finish
      · exact .announce
    obtain ⟨_, hact, hcase⟩ := hstep.of_calls hpc (t := .toObjectsCreated) (by rw [hs]; rfl)
      (by simp)
    have heq : callTransition s f m.detail store .toObjectsCreated = _ := heq
    rw [heq] at hact hcase
    rcases hcase with ⟨_, hm'⟩ | ⟨next, hnext, _⟩
    · subst hm' hact
      exact ⟨.committed, .finish _ (.inl rfl), hs ▸ .moving .deactivated⟩
    · cases hnext
  | announce =>
    exact hsend .toCommitObjectsBroadcasted _ _ _ .committed rfl (by simp) rfl
      (fun x hx => .finish x (.inr hx)) .finishAnnounced
  | finish | finishAnnounced =>
    exact hcall .toSucceeded _ _ _ .committed rfl (by simp) rfl (.finish _ (.inl rfl))
      (.stay .succeeded rfl)
  | stay hrest ht =>
    obtain ⟨hm', hact⟩ := hstep.of_stays hpc (hs ▸ ht)
    subst hm' hact
    exact Follows.quiet (by simp) (hs ▸ .moving hrest)

/-- **Every step of the machine is a step of the protocol**, when nothing fails and its locked
inputs can be deactivated. -/
theorem At.step (h : At Prepared Agreed Refused Vetoed p m.state m.pc)
    (hinfo : Informed Prepared Agreed Refused Vetoed m)
    (hstep : m.Steps s f store store' m' act) (hf : f = ⟨false, false⟩)
    (hcross : (s.inputObjectsForShard m.detail.tx).2 = false)
    (hdeact : m.state = .waitingForPhase2 → m.pc = .applying .objectsDeactivated →
      ∃ st, store.deactivateObjects (s.inputObjectsForShard m.detail.tx).1 = .ok st) :
    Follows Prepared Agreed Refused Vetoed p act m' := by
  generalize hs : m.state = st at h hdeact
  generalize hp : m.pc = pc at h hdeact
  cases h with
  | applying happly =>
    exact happly.step hs hp hstep hf hcross (fun ha hb => hdeact ha (by rw [hb]))
  | idle hrest =>
    cases hstep with
    | consume e rest m1 _ _ he =>
      have hstate : m1.state = st := by
        rcases Machine.processEvent_cases he with h | ⟨_, _, _, _, _, h⟩ | ⟨_, _, _, _, _, h⟩
        all_goals
          rw [h]
          exact hs
      refine Follows.quiet (by simp) ?_
      rw [hstate]
      split
      · exact .idle hrest
      · exact .moving hrest
    | _ => simp_all
  | moving hrest =>
    cases hstep with
    | move =>
      subst hs
      exact Follows.quiet (by simp) (hrest.move hinfo)
    | _ => simp_all
  | checking =>
    cases hstep with
    | checked => exact Follows.quiet (by simp) (At.moveTo hs .lock rfl (by simp))
    | check t rest' =>
      exact Follows.quiet (by simp) (hs ▸ .checking rest')
    | unusable =>
      exact Follows.quiet (by simp) (At.moveTo hs .refuse rfl (by simp))
    | _ => simp_all
  | unlocked habort =>
    cases hstep with
    | finished =>
      refine Follows.quiet (by simp [Act.vote, Act.commits]) ?_
      exact .applying (.stay (.aborted habort) rfl)
    | _ => simp_all

end Steps

end Chainspace.Sbac
