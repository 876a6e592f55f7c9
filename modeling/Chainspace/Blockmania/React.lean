/-
  Chainspace.Blockmania.React — what one call of `processMessage` can do.

  `Reacts` lists the fourteen outcomes of the switch of `processMessage`, each with its guards and
  the state it leaves, and `react_cases` says that the list is complete. Every later argument about
  a call is a case analysis on `Reacts`.
-/
import Chainspace.Blockmania.Graph
import Chainspace.Lib.Loop

namespace Chainspace.Blockmania

open Chainspace.Lib

/-! ## §1. Computations that can end the process. -/

theorem index_eq_ok {α : Type} {x : Option α} {a : α} : index x = .ok a ↔ x = some a := by
  cases x <;> simp [index]

@[simp] theorem nodeRound_prePrepare (m : PrePrepare) :
    (Message.prePrepare m).nodeRound = ⟨m.node, m.round⟩ := rfl

/-! ## §2. The states a call can leave. -/

/-- A proposal is recorded, with the votes of its sender and its receiver. -/
def State.acceptPrePrepare (s : State) (m : PrePrepare) (b : Bitset) : State :=
  { s.putBitset m b with
    data := { s.data with prePrepared := s.data.prePrepared.set ⟨m.node, m.round, m.view⟩ m } }

def State.decide (s : State) (m : Commit) (b : Bitset) : State :=
  { s.putBitset m.pre b with final := s.final.set ⟨m.node, m.round⟩ m.hash }

def enterView (p : Params) (h : Heap) (s : State) (origin : BlockID) (m : NewView) :
    Heap × State :=
  let hs := addTimeout p.grow ((origin.round + s.timeout + 5) % 2 ^ 64)
    (h, s.putView ⟨m.node, m.round⟩ m.view) ⟨m.node, m.round, m.view⟩
  (hs.1, { hs.2 with
    data := { hs.2.data with hnv := hs.2.data.hnv.set ⟨m.node, m.round, m.view⟩ true } })

/-- A view-change vote is filed under the current view: the heap, the state, and the map with it. -/
def fileVote (h : Heap) (s : State) (v : Nat) (m : ViewChange) : Heap × State × VcMap :=
  let o := vcObject h s ⟨m.node, m.round, v⟩
  let vcs := (o.1.vcs ⟨m.node, m.round, v⟩ o.2.2).insert m.sender m.hash
  (o.1.setVcs ⟨m.node, m.round, v⟩ o.2.2 vcs, o.2.1, vcs)

section Fields
variable (s : State) (h : Heap) (k : NodeRound) (v : Nat) (p : Params) (origin : BlockID)
  (m : PrePrepare) (c : Commit) (w : NewView) (b : Bitset) (key : NodeRoundView) (hash : Hash)

@[simp] theorem acceptPrePrepare_bitsets :
    (s.acceptPrePrepare m b).bitsets = s.bitsets.set m b := rfl
@[simp] theorem acceptPrePrepare_dataFinal :
    (s.acceptPrePrepare m b).data.final = s.data.final := rfl
@[simp] theorem acceptPrePrepare_hnv : (s.acceptPrePrepare m b).data.hnv = s.data.hnv := rfl
@[simp] theorem acceptPrePrepare_prepared :
    (s.acceptPrePrepare m b).data.prepared = s.data.prepared := rfl
@[simp] theorem acceptPrePrepare_prePrepared : (s.acceptPrePrepare m b).data.prePrepared =
      s.data.prePrepared.set ⟨m.node, m.round, m.view⟩ m := rfl
@[simp] theorem acceptPrePrepare_viewOf : (s.acceptPrePrepare m b).viewOf k = s.viewOf k := rfl
@[simp] theorem acceptPrePrepare_viewChanged :
    (s.acceptPrePrepare m b).data.viewChanged = s.data.viewChanged := rfl
@[simp] theorem acceptPrePrepare_final : (s.acceptPrePrepare m b).final = s.final := rfl
@[simp] theorem acceptPrePrepare_timeouts : (s.acceptPrePrepare m b).timeouts = s.timeouts := rfl

@[simp] theorem decide_bitsets : (s.decide c b).bitsets = s.bitsets.set c.pre b := rfl
@[simp] theorem decide_data : (s.decide c b).data = s.data := rfl
@[simp] theorem decide_viewOf : (s.decide c b).viewOf k = s.viewOf k := rfl
@[simp] theorem decide_final : (s.decide c b).final = s.final.set ⟨c.node, c.round⟩ c.hash := rfl
@[simp] theorem decide_timeouts : (s.decide c b).timeouts = s.timeouts := rfl

@[simp] theorem enterView_bitsets : (enterView p h s origin w).2.bitsets = s.bitsets := rfl
@[simp] theorem enterView_dataFinal : (enterView p h s origin w).2.data.final = s.data.final := rfl
@[simp] theorem enterView_hnv :
    (enterView p h s origin w).2.data.hnv = s.data.hnv.set ⟨w.node, w.round, w.view⟩ true := rfl
@[simp] theorem enterView_prepared :
    (enterView p h s origin w).2.data.prepared = s.data.prepared := rfl
@[simp] theorem enterView_prePrepared :
    (enterView p h s origin w).2.data.prePrepared = s.data.prePrepared := rfl
@[simp] theorem enterView_viewChanged :
    (enterView p h s origin w).2.data.viewChanged = s.data.viewChanged := rfl
@[simp] theorem enterView_final : (enterView p h s origin w).2.final = s.final := rfl
theorem enterView_viewOf : (enterView p h s origin w).2.viewOf k =
      if k = ⟨w.node, w.round⟩ then w.view else s.viewOf k :=
  State.viewOf_putView s ⟨w.node, w.round⟩ k w.view

@[simp] theorem vcObject_bitsets : (vcObject h s key).2.1.bitsets = s.bitsets := by
  unfold vcObject; split <;> rfl
@[simp] theorem vcObject_dataFinal : (vcObject h s key).2.1.data.final = s.data.final := by
  unfold vcObject; split <;> rfl
@[simp] theorem vcObject_hnv : (vcObject h s key).2.1.data.hnv = s.data.hnv := by
  unfold vcObject; split <;> rfl
@[simp] theorem vcObject_prepared : (vcObject h s key).2.1.data.prepared = s.data.prepared := by
  unfold vcObject; split <;> rfl
@[simp] theorem vcObject_prePrepared :
    (vcObject h s key).2.1.data.prePrepared = s.data.prePrepared := by
  unfold vcObject; split <;> rfl
@[simp] theorem vcObject_viewOf : (vcObject h s key).2.1.viewOf k = s.viewOf k := by
  unfold vcObject; split <;> rfl
@[simp] theorem vcObject_final : (vcObject h s key).2.1.final = s.final := by
  unfold vcObject; split <;> rfl

@[simp] theorem fileVote_state (m : ViewChange) :
    (fileVote h s v m).2.1 = (vcObject h s ⟨m.node, m.round, v⟩).2.1 := rfl

@[simp] theorem notePrepared_bitsets : (s.notePrepared key hash).bitsets = s.bitsets := by
  unfold State.notePrepared; split <;> rfl
@[simp] theorem notePrepared_dataFinal : (s.notePrepared key hash).data.final = s.data.final := by
  unfold State.notePrepared; split <;> rfl
@[simp] theorem notePrepared_hnv : (s.notePrepared key hash).data.hnv = s.data.hnv := by
  unfold State.notePrepared; split <;> rfl
@[simp] theorem notePrepared_prePrepared :
    (s.notePrepared key hash).data.prePrepared = s.data.prePrepared := by
  unfold State.notePrepared; split <;> rfl
@[simp] theorem notePrepared_viewOf : (s.notePrepared key hash).viewOf k = s.viewOf k := by
  unfold State.notePrepared; split <;> rfl
@[simp] theorem notePrepared_viewChanged :
    (s.notePrepared key hash).data.viewChanged = s.data.viewChanged := by
  unfold State.notePrepared; split <;> rfl
@[simp] theorem notePrepared_final : (s.notePrepared key hash).final = s.final := by
  unfold State.notePrepared; split <;> rfl

theorem notePrepared_prepared (key' : NodeRoundView) :
    (s.notePrepared key hash).data.prepared key' =
      if key' = key then some ((s.data.prepared key).getD hash) else s.data.prepared key' := by
  unfold State.notePrepared
  split
  next hsome =>
    obtain ⟨old, hold⟩ := Option.isSome_iff_exists.mp hsome
    by_cases hk : key' = key
    · rw [if_pos hk, hk, hold]
      rfl
    · rw [if_neg hk]
  next hnone =>
    have hnone : s.data.prepared key = none := by simpa using hnone
    rw [hnone]
    rfl

end Fields

/-! ## §3. The outcomes. -/

/-- The outcomes of `react`.  In each, `s.touch` is the state after `getView`. -/
inductive Reacts (p : Params) (h : Heap) (s : State) (sender receiver : Nat) (origin : BlockID) :
    Message → Reaction → Prop
  | closed (msg : Message) (hf : (s.data.final msg.nodeRound).isSome) :
      Reacts p h s sender receiver origin msg (.quiet h s)
  | prePrepareStale (m : PrePrepare)
      (hs : s.viewOf ⟨m.node, m.round⟩ ≠ m.view ∨
        (s.data.prePrepared ⟨m.node, m.round, m.view⟩).isSome) :
      Reacts p h s sender receiver origin (.prePrepare m) (.quiet h (s.touch ⟨m.node, m.round⟩))
  | prePrepareAccepted (m : PrePrepare) (b b' : Bitset)
      (hv : s.viewOf ⟨m.node, m.round⟩ = m.view)
      (hp : s.data.prePrepared ⟨m.node, m.round, m.view⟩ = none)
      (hb : (s.getBitset p.nodeCount m).setPrepare sender = some b)
      (hb' : b.setPrepare receiver = some b') :
      Reacts p h s sender receiver origin (.prePrepare m)
        ⟨h, (s.touch ⟨m.node, m.round⟩).acceptPrePrepare m b',
          some (.prepare ⟨m.hash, m.node, m.round, receiver, m.view⟩), none⟩
  | prepareOld (m : Prepare) (hv : m.view < s.viewOf ⟨m.node, m.round⟩) :
      Reacts p h s sender receiver origin (.prepare m) (.quiet h (s.touch ⟨m.node, m.round⟩))
  | prepareCounted (m : Prepare) (b : Bitset) (hv : s.viewOf ⟨m.node, m.round⟩ ≤ m.view)
      (hb : (s.getBitset p.nodeCount m.pre).setPrepare m.sender = some b)
      (hq : s.viewOf ⟨m.node, m.round⟩ < m.view ∨ b.prepareCount ≠ p.quorum2f1 ∨
        b.hasCommit receiver = some true) :
      Reacts p h s sender receiver origin (.prepare m)
        (.quiet h ((s.touch ⟨m.node, m.round⟩).putBitset m.pre b))
  | prepareQuorum (m : Prepare) (b b' : Bitset) (hv : s.viewOf ⟨m.node, m.round⟩ = m.view)
      (hb : (s.getBitset p.nodeCount m.pre).setPrepare m.sender = some b)
      (hq : b.prepareCount = p.quorum2f1) (hc : b.hasCommit receiver = some false)
      (hb' : b.setCommit receiver = some b') :
      Reacts p h s sender receiver origin (.prepare m)
        ⟨h, (((s.touch ⟨m.node, m.round⟩).putBitset m.pre b).putBitset m.pre b').notePrepared
            ⟨m.node, m.round, m.view⟩ m.hash,
          some (.commit ⟨m.hash, m.node, m.round, receiver, m.view⟩), none⟩
  | commitEarly (m : Commit) (hv : s.viewOf ⟨m.node, m.round⟩ < m.view) :
      Reacts p h s sender receiver origin (.commit m) (.quiet h (s.touch ⟨m.node, m.round⟩))
  | commitCounted (m : Commit) (b : Bitset) (hv : m.view ≤ s.viewOf ⟨m.node, m.round⟩)
      (hb : (s.getBitset p.nodeCount m.pre).setCommit m.sender = some b)
      (hq : b.commitCount ≠ p.quorum2f1 ∨ (s.final ⟨m.node, m.round⟩).isSome) :
      Reacts p h s sender receiver origin (.commit m)
        (.quiet h ((s.touch ⟨m.node, m.round⟩).putBitset m.pre b))
  | commitDecides (m : Commit) (b : Bitset) (hv : m.view ≤ s.viewOf ⟨m.node, m.round⟩)
      (hb : (s.getBitset p.nodeCount m.pre).setCommit m.sender = some b)
      (hq : b.commitCount = p.quorum2f1) (hf : s.final ⟨m.node, m.round⟩ = none) :
      Reacts p h s sender receiver origin (.commit m)
        ⟨h, (s.touch ⟨m.node, m.round⟩).decide m b, none, some m.hash⟩
  | viewChangeOld (m : ViewChange) (hv : m.view < s.viewOf ⟨m.node, m.round⟩) :
      Reacts p h s sender receiver origin (.viewChange m) (.quiet h (s.touch ⟨m.node, m.round⟩))
  | viewChangeFiled (m : ViewChange) (hv : s.viewOf ⟨m.node, m.round⟩ ≤ m.view)
      (hq : (fileVote h (s.touch ⟨m.node, m.round⟩) (s.viewOf ⟨m.node, m.round⟩)
        m).2.2.entries.length ≠ p.quorum2f1) :
      Reacts p h s sender receiver origin (.viewChange m)
        (.quiet (fileVote h (s.touch ⟨m.node, m.round⟩) (s.viewOf ⟨m.node, m.round⟩) m).1
          (fileVote h (s.touch ⟨m.node, m.round⟩) (s.viewOf ⟨m.node, m.round⟩) m).2.1)
  | viewChangeQuorum (m : ViewChange) (hash : Hash) (hv : s.viewOf ⟨m.node, m.round⟩ ≤ m.view)
      (hq : (fileVote h (s.touch ⟨m.node, m.round⟩) (s.viewOf ⟨m.node, m.round⟩)
        m).2.2.entries.length = p.quorum2f1)
      (hh : newViewHash m.node m.round []
        ((fileVote h (s.touch ⟨m.node, m.round⟩) (s.viewOf ⟨m.node, m.round⟩) m).2.2.entries.map
          (·.2)) = .ok hash) :
      Reacts p h s sender receiver origin (.viewChange m)
        ⟨(fileVote h (s.touch ⟨m.node, m.round⟩) (s.viewOf ⟨m.node, m.round⟩) m).1,
          (fileVote h (s.touch ⟨m.node, m.round⟩) (s.viewOf ⟨m.node, m.round⟩) m).2.1.putView
            ⟨m.node, m.round⟩ m.view,
          some (.newView ⟨hash, m.node, m.round, receiver, m.view⟩), none⟩
  | newViewStale (m : NewView)
      (hs : m.view < s.viewOf ⟨m.node, m.round⟩ ∨
        (s.data.hnv ⟨m.node, m.round, m.view⟩).isSome) :
      Reacts p h s sender receiver origin (.newView m) (.quiet h (s.touch ⟨m.node, m.round⟩))
  | newViewAccepted (m : NewView) (hv : s.viewOf ⟨m.node, m.round⟩ ≤ m.view)
      (hn : s.data.hnv ⟨m.node, m.round, m.view⟩ = none) :
      Reacts p h s sender receiver origin (.newView m)
        ⟨(enterView p h (s.touch ⟨m.node, m.round⟩) origin m).1,
          (enterView p h (s.touch ⟨m.node, m.round⟩) origin m).2,
          some (.prePrepare ⟨m.hash, m.node, m.round, m.view⟩), none⟩

variable {acc : Hash} {l : List Hash} {node round : Nat}

theorem newViewHash_error {x : Halt}
    (h : newViewHash node round acc l = .error x) : x = .multipleHashes node round := by
  induction l generalizing acc with
  | nil => exact absurd h (by simp [newViewHash])
  | cons y l ih =>
    unfold newViewHash at h
    split at h
    · split at h
      · injection h with h
        exact h.symm
      · exact ih h
    · exact ih h

theorem newViewHash_mem {hash : Hash}
    (h : newViewHash node round acc l = .ok hash) : hash = acc ∨ hash ∈ l := by
  induction l generalizing acc with
  | nil =>
    injection h with h
    exact .inl h.symm
  | cons y l ih =>
    unfold newViewHash at h
    split at h
    · split at h
      · cases h
      rcases ih h with heq | hmem
      · exact .inr (heq ▸ List.mem_cons_self)
      · exact .inr (List.mem_cons_of_mem y hmem)
    · exact (ih h).imp_right (List.mem_cons_of_mem y)

theorem newViewHash_unique {hash : Hash} (h : newViewHash node round acc l = .ok hash) :
    (acc ≠ [] → acc = hash) ∧ ∀ y ∈ l, y ≠ [] → y = hash := by
  induction l generalizing acc with
  | nil =>
    injection h with h
    exact ⟨fun _ => h, fun y hy => absurd hy (by simp)⟩
  | cons y l ih =>
    unfold newViewHash at h
    split at h
    next hy =>
      split at h
      · cases h
      next hsame =>
        obtain ⟨hhash, hrest⟩ := ih h
        have hyhash := hhash hy
        constructor
        · intro hacc
          rw [← hyhash]
          by_contra hne
          exact hsame ⟨hacc, Ne.symm hne⟩
        intro x hx hxne
        rcases List.mem_cons.mp hx with hx | hx
        · rw [hx]
          exact hyhash
        · exact hrest x hx hxne
    next hy =>
      obtain ⟨hhash, hrest⟩ := ih h
      refine ⟨hhash, ?_⟩
      intro x hx hxne
      rcases List.mem_cons.mp hx with hx | hx
      · rw [hx] at hxne
        exact absurd hxne hy
      · exact hrest x hx hxne

section Cases
variable {p : Params} {h : Heap} {s : State} {sender receiver : Nat} {origin : BlockID}
  {r : Reaction}

theorem onPrePrepare_cases {m : PrePrepare}
    (hr : onPrePrepare p h (s.touch ⟨m.node, m.round⟩) (s.viewOf ⟨m.node, m.round⟩) sender
      receiver m = .ok r) :
    Reacts p h s sender receiver origin (.prePrepare m) r := by
  unfold onPrePrepare at hr
  dsimp only at hr
  split at hr
  next hv =>
    cases hr
    exact .prePrepareStale m (.inl hv)
  next hv =>
    split at hr
    next hp =>
      cases hr
      exact .prePrepareStale m (.inr (by simpa using hp))
    next hp =>
      obtain ⟨b, hb, hr⟩ := bind_eq_ok.mp hr
      obtain ⟨b', hb', hr⟩ := bind_eq_ok.mp hr
      injection hr with hr
      refine hr ▸ .prePrepareAccepted m b b' (not_not.mp hv) (by simpa using hp) ?_
        (index_eq_ok.mp hb')
      simpa [State.getBitset] using index_eq_ok.mp hb

theorem onPrepare_cases {m : Prepare}
    (hr : onPrepare p h (s.touch ⟨m.node, m.round⟩) (s.viewOf ⟨m.node, m.round⟩) receiver m
      = .ok r) :
    Reacts p h s sender receiver origin (.prepare m) r := by
  unfold onPrepare at hr
  split at hr
  next hv =>
    cases hr
    exact .prepareOld m hv
  next hv =>
    obtain ⟨b, hb, hr⟩ := bind_eq_ok.mp hr
    have hb : (s.getBitset p.nodeCount m.pre).setPrepare m.sender = some b := by
      simpa [State.getBitset] using index_eq_ok.mp hb
    have hle : s.viewOf ⟨m.node, m.round⟩ ≤ m.view := Nat.le_of_not_lt hv
    split at hr
    next hlt =>
      cases hr
      exact .prepareCounted m b hle hb (.inl hlt)
    next =>
      split at hr
      next hq =>
        cases hr
        exact .prepareCounted m b hle hb (.inr (.inl hq))
      next hq =>
        obtain ⟨has, hhas, hr⟩ := bind_eq_ok.mp hr
        have hhas := index_eq_ok.mp hhas
        cases has with
        | true =>
          cases hr
          exact .prepareCounted m b hle hb (.inr (.inr hhas))
        | false =>
          obtain ⟨b', hb', hr⟩ := bind_eq_ok.mp hr
          injection hr with hr
          exact hr ▸ .prepareQuorum m b b' (by omega) hb (not_not.mp hq) hhas (index_eq_ok.mp hb')

theorem onCommit_cases {m : Commit}
    (hr : onCommit p h (s.touch ⟨m.node, m.round⟩) (s.viewOf ⟨m.node, m.round⟩) m = .ok r) :
    Reacts p h s sender receiver origin (.commit m) r := by
  unfold onCommit at hr
  dsimp only at hr
  split at hr
  next hv =>
    cases hr
    exact .commitEarly m hv
  next hv =>
    obtain ⟨b, hb, hr⟩ := bind_eq_ok.mp hr
    have hb : (s.getBitset p.nodeCount m.pre).setCommit m.sender = some b := by
      simpa [State.getBitset] using index_eq_ok.mp hb
    have hle : m.view ≤ s.viewOf ⟨m.node, m.round⟩ := Nat.le_of_not_lt hv
    split at hr
    next hq =>
      cases hr
      exact .commitCounted m b hle hb (.inl hq)
    next hq =>
      split at hr
      next hf =>
        cases hr
        exact .commitCounted m b hle hb (.inr (by simpa using hf))
      next hf =>
        cases hr
        exact .commitDecides m b hle hb (not_not.mp hq) (by simpa using hf)

theorem onViewChange_cases {m : ViewChange}
    (hr : onViewChange p h (s.touch ⟨m.node, m.round⟩) (s.viewOf ⟨m.node, m.round⟩) receiver m
      = .ok r) :
    Reacts p h s sender receiver origin (.viewChange m) r := by
  unfold onViewChange at hr
  dsimp only at hr
  split at hr
  next hv =>
    cases hr
    exact .viewChangeOld m hv
  next hv =>
    have hle : s.viewOf ⟨m.node, m.round⟩ ≤ m.view := Nat.le_of_not_lt hv
    split at hr
    next hq =>
      cases hr
      exact .viewChangeFiled m hle hq
    next hq =>
      obtain ⟨hash, hh, hr⟩ := bind_eq_ok.mp hr
      cases hr
      exact .viewChangeQuorum m hash hle (not_not.mp hq) hh

theorem onNewView_cases {m : NewView}
    (hr : onNewView p h (s.touch ⟨m.node, m.round⟩) (s.viewOf ⟨m.node, m.round⟩) origin m = .ok r) :
    Reacts p h s sender receiver origin (.newView m) r := by
  unfold onNewView at hr
  dsimp only at hr
  split at hr
  next hv =>
    cases hr
    exact .newViewStale m (.inl hv)
  next hv =>
    split at hr
    next hn =>
      cases hr
      exact .newViewStale m (.inr (by simpa using hn))
    next hn =>
      cases hr
      exact .newViewAccepted m (Nat.le_of_not_lt hv) (by simpa using hn)

variable {msg : Message}

/-- **The outcomes are complete.**  A call that does not end the process is one of them. -/
theorem react_cases (hr : react p h s sender receiver origin msg = .ok r) :
    Reacts p h s sender receiver origin msg r := by
  unfold react at hr
  split at hr
  next hf =>
    cases hr
    exact .closed msg hf
  rw [State.getView_eq] at hr
  cases msg with
  | prePrepare => exact onPrePrepare_cases hr
  | prepare => exact onPrepare_cases hr
  | commit => exact onCommit_cases hr
  | viewChange => exact onViewChange_cases hr
  | newView => exact onNewView_cases hr

/-- A call ends the process on an index out of range, or on different hashes for a new view. -/
theorem react_outcome (msg : Message) : Outcome (fun r => Reacts p h s sender receiver origin msg r)
      (fun x => x = .indexOutOfRange ∨ ∃ m : ViewChange, msg = .viewChange m ∧
        (fileVote h (s.touch ⟨m.node, m.round⟩) (s.viewOf ⟨m.node, m.round⟩) m).2.2.entries.length
          = p.quorum2f1 ∧
        newViewHash m.node m.round []
          ((fileVote h (s.touch ⟨m.node, m.round⟩) (s.viewOf ⟨m.node, m.round⟩) m).2.2.entries.map
            (·.2)) = .error x)
      (react p h s sender receiver origin msg) := by
  have hindex : ∀ {α : Type} (x : Option α),
      Outcome (fun _ => True) (fun y => y = Halt.indexOutOfRange) (index x) := by
    intro α x
    cases x <;> trivial
  refine Outcome.intro (fun r hr => react_cases hr) ?_
  intro x hx
  unfold react at hx
  split at hx
  · cases hx
  rw [State.getView_eq] at hx
  cases msg with
  | prePrepare =>
    refine .inl (Outcome.of_error (P := fun _ => True)
      (E := fun y => y = Halt.indexOutOfRange) ?_ hx)
    unfold onPrePrepare
    dsimp only
    split
    · trivial
    split
    · trivial
    refine Outcome.bind (hindex _) ?_
    intro _ _ _
    refine Outcome.bind (hindex _) ?_
    intro _ _ _
    trivial
  | prepare =>
    refine .inl (Outcome.of_error (P := fun _ => True)
      (E := fun y => y = Halt.indexOutOfRange) ?_ hx)
    unfold onPrepare
    dsimp only
    split
    · trivial
    refine Outcome.bind (hindex _) ?_
    intro b _ _
    split
    · trivial
    split
    · trivial
    refine Outcome.bind (hindex _) ?_
    intro has _ _
    cases has with
    | true => trivial
    | false =>
      refine Outcome.bind (hindex _) ?_
      intro _ _ _
      trivial
  | commit =>
    refine .inl (Outcome.of_error (P := fun _ => True)
      (E := fun y => y = Halt.indexOutOfRange) ?_ hx)
    unfold onCommit
    dsimp only
    split
    · trivial
    refine Outcome.bind (hindex _) ?_
    intro b _ _
    split
    · trivial
    · split <;> trivial
  | viewChange m =>
    unfold onViewChange at hx
    dsimp only at hx
    split at hx
    · cases hx
    split at hx
    · cases hx
    next hq =>
      refine .inr ⟨m, rfl, not_not.mp hq, ?_⟩
      refine Outcome.of_error (P := fun _ => True)
        (E := fun x => newViewHash m.node m.round [] _ = .error x) ?_ hx
      refine Outcome.bind (Q := fun _ => True) ?_ ?_
      · exact Outcome.intro (fun _ _ => trivial) (fun e he => he)
      · intro _ _ _
        trivial
  | newView =>
    unfold onNewView at hx
    dsimp only at hx
    split at hx
    · cases hx
    · split at hx
      all_goals cases hx

theorem Reacts.delay (hr : Reacts p h s sender receiver origin msg r) :
    r.state.delay = s.delay ∧ r.state.timeout = s.timeout := by
  have hvc : ∀ (s : State) key, (vcObject h s key).2.1.delay = s.delay ∧
      (vcObject h s key).2.1.timeout = s.timeout := by
    intro s key
    unfold vcObject
    split <;> exact ⟨rfl, rfl⟩
  have hnote : ∀ (s : State) key hash, (s.notePrepared key hash).delay = s.delay ∧
      (s.notePrepared key hash).timeout = s.timeout := by
    intro s key hash
    unfold State.notePrepared
    split <;> exact ⟨rfl, rfl⟩
  cases hr with
  | closed => exact ⟨rfl, rfl⟩
  | prepareQuorum =>
    simp only [(hnote _ _ _).1, (hnote _ _ _).2, State.putBitset_delay,
      State.putBitset_timeout, State.touch_delay, State.touch_timeout, and_self]
  | viewChangeFiled =>
    simp only [Reaction.quiet, fileVote_state, (hvc _ _).1, (hvc _ _).2, State.touch_delay,
      State.touch_timeout, and_self]
  | viewChangeQuorum =>
    simp only [State.putView_delay, State.putView_timeout, fileVote_state, (hvc _ _).1,
      (hvc _ _).2, State.touch_delay, State.touch_timeout, and_self]
  | _ => exact ⟨State.touch_delay s _, State.touch_timeout s _⟩

theorem Reacts.resp_nodeRound (hr : Reacts p h s sender receiver origin msg r) {m : Message}
    (hm : r.resp = some m) : m.nodeRound = msg.nodeRound := by
  cases hr with
  | prePrepareAccepted | prepareQuorum | viewChangeQuorum | newViewAccepted =>
    injection hm with hm
    rw [← hm]
    rfl
  | _ => exact absurd hm (by simp [Reaction.quiet])

end Cases

end Chainspace.Blockmania
