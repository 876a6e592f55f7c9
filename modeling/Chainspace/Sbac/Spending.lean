/-
  Chainspace.Sbac.Spending — an object is spent once.

  Locks do not guarantee it, since the abort of one transaction can unlock the objects of another.
  What does is that an `INACTIVE` object stays `INACTIVE`, that `DeactivateObjects` refuses it, and
  that a machine which starts in `StateWaitingForConsensus1` comes to `CreateObjects` only through a
  successful `DeactivateObjects`.
-/
import Chainspace.Sbac.Commit
import Chainspace.Sbac.Locks

namespace Chainspace.Sbac

open Chainspace.Lib List

/-! ## §1. The calls on record. -/

def Record.Creates (r : Record) : Prop := ∃ ok, r.act = .create ok

/-- The record of a successful `DeactivateObjects` on the local inputs of the transaction. -/
def Record.Spends (r : Record) : Prop := r.act = .deactivate true

/-- The transactions of two records have a common input in the own shard. -/
def Record.Overlaps (s : Service) (r r' : Record) : Prop :=
  ∃ o, o ∈ (s.inputObjectsForShard r.detail.tx).1 ∧ o ∈ (s.inputObjectsForShard r'.detail.tx).1

/-- `CreateObjects` comes after a successful `DeactivateObjects` of the machine. Histories are
newest first. -/
def SpentBefore : List Record → Prop
  | [] => True
  | r :: earlier => (r.Creates → ∃ r' ∈ earlier, r'.machine = r.machine ∧ r'.detail = r.detail ∧
      r'.Spends) ∧ SpentBefore earlier

theorem SpentBefore.split {later earlier : List Record} {r : Record}
    (h : SpentBefore (later ++ r :: earlier)) (hr : r.Creates) :
    ∃ r' ∈ earlier, r'.machine = r.machine ∧ r'.detail = r.detail ∧ r'.Spends := by
  induction later with
  | nil => exact h.1 hr
  | cons x later ih => exact ih h.2

theorem SpentBefore.append {rs earlier : List Record} (h : SpentBefore earlier)
    (hrs : ∀ r ∈ rs, ¬ r.Creates) : SpentBefore (rs ++ earlier) := by
  induction rs with
  | nil => exact h
  | cons r rs ih =>
    exact ⟨fun hc => absurd hc (hrs r mem_cons_self), ih (fun x hx => hrs x (mem_cons_of_mem r hx))⟩

/-! ## §2. The invariant. -/

/-- A machine that is created starts with the first consensus. -/
def FromConsensus1 (s : Service) (n : Node) (input : Input) : Prop :=
  ∀ detail initial, n.creates s input = some (detail, initial) → initial = .waitingForConsensus1

structure SpendInv (s : Service) (n : Node) : Prop where
  path : ∀ i m, n.machines i = some m → m.OnPath
  /-- what is spent is `INACTIVE` -/
  spent : ∀ r ∈ n.history, r.Spends → ∀ o ∈ (s.inputObjectsForShard r.detail.tx).1,
    n.store.statuses o = some .inactive
  /-- nothing is spent twice -/
  apart : n.history.Pairwise (fun r r' => r.Spends → r'.Spends → ¬ r.Overlaps s r')
  /-- a machine that is about to create its outputs has spent its inputs -/
  committing : ∀ i m, n.machines i = some m → m.Committing →
    ∃ r ∈ n.history, r.machine = i ∧ r.detail = m.detail ∧ r.Spends
  before : SpentBefore n.history

section Spending
variable {s : Service} {store : Store} {n n' : Node} {input : Input}

theorem SpendInv.quiet (hn : SpendInv s n) (rs : List Record) (hhist : n'.history = rs ++ n.history)
    (hrs : ∀ r ∈ rs, ¬ r.Spends ∧ ¬ r.Creates)
    (hinactive : ∀ o, n.store.statuses o = some .inactive → n'.store.statuses o = some .inactive)
    (hpath : ∀ i m, n'.machines i = some m → m.OnPath)
    (hcommitting : ∀ i m, n'.machines i = some m → m.Committing →
      ∃ r ∈ n.history, r.machine = i ∧ r.detail = m.detail ∧ r.Spends) : SpendInv s n' := by
  refine ⟨hpath, ?_, ?_, ?_, ?_⟩
  · intro r hr hspends o ho
    rw [hhist] at hr
    rcases mem_append.mp hr with hr | hr
    · exact absurd hspends (hrs r hr).1
    · exact hinactive o (hn.spent r hr hspends o ho)
  · rw [hhist]
    refine pairwise_append.mpr ⟨?_, hn.apart, ?_⟩
    · exact pairwise_of_forall_mem_list (fun r hr _ _ hspends => absurd hspends (hrs r hr).1)
    · intro r hr r' _ hspends
      exact absurd hspends (hrs r hr).1
  · intro i m hm hc
    obtain ⟨r, hr, hrest⟩ := hcommitting i m hm hc
    exact ⟨r, by rw [hhist]; exact mem_append_right _ hr, hrest⟩
  · rw [hhist]
    exact hn.before.append (fun r hr => (hrs r hr).2)

theorem SpendInv.machine (hn : SpendInv s n) {i : Nat} {f : Faults} {m m' : Machine}
    {store : Store} {act : Option Act} (hm : n.machines i = some m)
    (h : m.Steps s f n.store store m' act) :
    SpendInv s (n.after i m store m' act) := by
  obtain ⟨hpath', hdeact⟩ := h.onPath (hn.path i m hm)
  have hpath : ∀ j x, n.machines.set i m' j = some x → x.OnPath := by
    intro j x hx
    rcases PMap.of_set hx with ⟨_, hx⟩ | ⟨_, hx⟩
    · exact hx ▸ hpath'
    · exact hn.path j x hx
  have hold : ∀ j x, j ≠ i → n.machines.set i m' j = some x → x.Committing →
      ∃ r ∈ n.history, r.machine = j ∧ r.detail = x.detail ∧ r.Spends := by
    intro j x hj hx hc
    rw [PMap.set_ne _ _ hj] at hx
    exact hn.committing j x hx hc
  have hinactive : ∀ o, n.store.statuses o = some .inactive → store.statuses o = some .inactive :=
    fun o ho => h.effect.inactive ho
  by_cases hspend : act = some (.deactivate true)
  · -- The inputs were not `INACTIVE` before, so no earlier call has covered one of them.
    subst hspend
    have hnew : ∀ o ∈ (s.inputObjectsForShard m.detail.tx).1,
        n.store.statuses o ≠ some .inactive ∧ store.statuses o = some .inactive :=
      fun o ho => h.effect.deactivated ho
    refine ⟨hpath, ?_, ?_, ?_, ?_⟩
    · intro r hr hspends o ho
      rcases mem_cons.mp hr with heq | hr
      · rw [heq] at ho
        exact (hnew o ho).2
      · exact hinactive o (hn.spent r hr hspends o ho)
    · refine pairwise_cons.mpr ⟨?_, hn.apart⟩
      rintro r' hr' _ hspends ⟨o, ho, ho'⟩
      exact (hnew o ho).1 (hn.spent r' hr' hspends o ho')
    · intro j x hx hc
      by_cases hj : j = i
      · subst hj
        have hx : n.machines.set j m' j = some x := hx
        rw [PMap.set_self] at hx
        injection hx with hx
        exact ⟨_, mem_cons_self, rfl, by rw [← hx, h.detail], rfl⟩
      · obtain ⟨r, hr, hrest⟩ := hold j x hj hx hc
        exact ⟨r, mem_cons_of_mem _ hr, hrest⟩
    · refine ⟨?_, hn.before⟩
      rintro ⟨ok, hok⟩
      cases hok
  -- No other step makes a machine ready to create its outputs.
  have hcommitting : ∀ j x, n.machines.set i m' j = some x → x.Committing →
      ∃ r ∈ n.history, r.machine = j ∧ r.detail = x.detail ∧ r.Spends := by
    intro j x hx hc
    by_cases hj : j = i
    · subst hj
      rw [PMap.set_self] at hx
      injection hx with hx
      exact absurd (hdeact (hx ▸ hc)) hspend
    · exact hold j x hj hx hc
  by_cases hcreate : ∃ ok, act = some (.create ok)
  · obtain ⟨ok, hcreate⟩ := hcreate
    obtain ⟨target, hpc, ht⟩ := h.transition hcreate rfl
    have htarget : target = .objectsCreated := (transitionTable_iff.mp ht).2
    have hready := hn.committing i m hm (by rw [htarget] at hpc; exact hpc)
    subst hcreate
    refine ⟨hpath, ?_, ?_, ?_, ⟨fun _ => hready, hn.before⟩⟩
    · intro r hr hspends o ho
      rcases mem_cons.mp hr with heq | hr
      · rw [heq] at hspends
        exact absurd hspends (by simp [Record.Spends])
      · exact hinactive o (hn.spent r hr hspends o ho)
    · refine pairwise_cons.mpr ⟨?_, hn.apart⟩
      intro r' _ hspends
      exact absurd hspends (by simp [Record.Spends])
    intro j x hx hc
    obtain ⟨r, hr, hrest⟩ := hcommitting j x hx hc
    exact ⟨r, mem_cons_of_mem _ hr, hrest⟩
  refine hn.quiet _ rfl ?_ hinactive hpath hcommitting
  intro r hr
  obtain ⟨a, ha, heq⟩ := mem_map.mp hr
  have ha : act = some a := Option.mem_toList.mp ha
  subst heq
  constructor
  · intro hs
    exact hspend (hs ▸ ha)
  · rintro ⟨ok, hok⟩
    exact hcreate ⟨ok, hok ▸ ha⟩

theorem SpendInv.step (hn : SpendInv s n) (hok : FromConsensus1 s n input)
    (h : n.Steps s input n') : SpendInv s n' := by
  rcases h.around_or_machine with ha | ⟨i, f, m, m', store, act, _, hm, hstep, heq⟩
  · obtain ⟨rs, hhist, hrs⟩ := ha.history
    refine hn.quiet rs hhist ?_ (fun o ho => ha.statuses o _ ho) ?_ ?_
    · intro r hr
      rcases hrs r hr with ⟨data, hact⟩ | ⟨initial, hact⟩
      all_goals exact ⟨by simp [Record.Spends, hact], by simp [Record.Creates, hact]⟩
    · intro i m' hm'
      rcases ha.machines i m' hm' with ⟨m, events, hm, heq⟩ | ⟨d, initial, hc, _, heq, _⟩
      · have hpath := hn.path i m hm
        exact heq ▸ ⟨hpath.state, hpath.committing⟩
      · rw [heq, hok d initial hc]
        exact ⟨rfl, by simp [Machine.Committing, Machine.new]⟩
    intro i m' hm' hcm
    rcases ha.machines i m' hm' with ⟨m, events, hm, heq⟩ | ⟨d, initial, _, _, heq, _⟩
    · subst heq
      exact hn.committing i m hm hcm
    · rw [heq] at hcm
      exact absurd hcm (by simp [Machine.Committing, Machine.new])
  · subst heq
    exact hn.machine hm hstep

theorem NodeRun.spendInv (hrun : NodeRun s (FromConsensus1 s) store n) : SpendInv s n := by
  induction hrun with
  | start =>
    exact ⟨fun i m hm => absurd hm (by simp [Node.new]), by simp [Node.new], .nil,
      fun i m hm => absurd hm (by simp [Node.new]), trivial⟩
  | step _ hok h ih => exact ih.step hok (Node.step_cases h)

/-! ## §3. No double spend. -/

theorem SpendInv.unique (hn : SpendInv s n) {r r' : Record} (hr : r ∈ n.history)
    (hr' : r' ∈ n.history) (hspends : r.Spends) (hspends' : r'.Spends) (hover : r.Overlaps s r') :
    r = r' := by
  by_contra hne
  have hsymm : Std.Symm (fun a b : Record => a.Spends → b.Spends → ¬ a.Overlaps s b) := by
    refine ⟨?_⟩
    rintro a b hab hb ha ⟨o, ho, ho'⟩
    exact hab ha hb ⟨o, ho', ho⟩
  exact hn.apart.forall hr hr' hne hspends hspends' hover

/-- **No double spend inside a shard**: of the transactions with a common input in the shard at most
one calls `CreateObjects`, on one machine, and after its `DeactivateObjects` has succeeded. -/
theorem no_double_spend {s : Service} {store : Store} {n : Node}
    (hrun : NodeRun s (FromConsensus1 s) store n) :
    (∀ r ∈ n.history, ∀ r' ∈ n.history, r.Creates → r'.Creates → r.Overlaps s r' →
        r.machine = r'.machine ∧ r.detail.tx = r'.detail.tx) ∧
      ∀ later r earlier, n.history = later ++ r :: earlier → r.Creates →
        ∃ r' ∈ earlier, r'.machine = r.machine ∧ r'.detail = r.detail ∧ r'.Spends := by
  have hinv := hrun.spendInv
  constructor
  · rintro r hr r' hr' hc hc' ⟨o, ho, ho'⟩
    have hspent : ∀ x ∈ n.history, x.Creates → ∃ y ∈ n.history, y.machine = x.machine ∧
        y.detail = x.detail ∧ y.Spends := by
      intro x hx hcx
      obtain ⟨later, earlier, hsplit⟩ := append_of_mem hx
      have hbefore := hinv.before
      rw [hsplit] at hbefore
      obtain ⟨y, hy, hrest⟩ := hbefore.split hcx
      refine ⟨y, ?_, hrest⟩
      rw [hsplit]
      exact mem_append_right _ (mem_cons_of_mem x hy)
    obtain ⟨y, hy, hmach, hdet, hspends⟩ := hspent r hr hc
    obtain ⟨y', hy', hmach', hdet', hspends'⟩ := hspent r' hr' hc'
    have heq := hinv.unique hy hy' hspends hspends' ⟨o, by rw [hdet]; exact ho, by
      rw [hdet']; exact ho'⟩
    subst heq
    exact ⟨hmach ▸ hmach', by rw [← hdet, hdet']⟩
  · intro later r earlier hsplit hc
    have hbefore := hinv.before
    rw [hsplit] at hbefore
    exact hbefore.split hc

theorem fromConsensus1_of (n : Node) (h : input.msg = none) : FromConsensus1 s n input := by
  intro detail initial hc
  rcases Input.creates_cases (Node.creates_iff.mp hc).1 with
    ⟨_, _, _, _, _, hi⟩ | ⟨_, _, _, _, hi⟩ | ⟨msg, hinput, _⟩
  · exact hi
  · exact hi
  · rw [hinput] at h
    exact absurd h (by simp [Input.msg])

end Spending

/-- Two transactions on object `[1]`: `commitTx` creates its output, `rivalTx` comes too late. -/
def spendInputs : List Input := commitInputs 8 ++ agreedInputs 1 rivalTx 8

/-- The machines that have called `CreateObjects`, and the state of that of `rivalTx`. -/
def Node.spendView (n : Node) : List Nat × Option State :=
  (n.history.filterMap fun r =>
      match r.act with
      | .create _ => some r.machine
      | _ => none,
    (n.machines 1).map Machine.state)

theorem no_double_spend_rival :
    ∃ n, NodeRun (pairService true) (FromConsensus1 (pairService true)) .empty n ∧
      n.spendView = ([0], some .aborted) ∧
      ∀ r ∈ n.history, ∀ r' ∈ n.history, r.Creates → r'.Creates → r.Overlaps (pairService true) r' →
        r.machine = r'.machine ∧ r.detail.tx = r'.detail.tx := by
  have hview : ((Node.new .empty).stepAll (pairService true) spendInputs).map Node.spendView =
      some ([0], some .aborted) := by decide +kernel
  obtain ⟨n, hn, hview⟩ := Option.map_eq_some_iff.mp hview
  have hrun : NodeRun (pairService true) (FromConsensus1 (pairService true)) .empty n := by
    have hall : spendInputs.all (fun input => input.msg.isNone) = true := by decide
    refine NodeRun.stepAll .start ?_ hn
    intro n input hmem
    exact fromConsensus1_of n (Option.isNone_iff_eq_none.mp (all_eq_true.mp hall input hmem))
  exact ⟨n, hrun, hview, (no_double_spend hrun).1⟩

end Chainspace.Sbac
