/-
  Chainspace.Sbac.Objects — what every sequence of store calls keeps (`sbac/store.go`).

  `StoreCall` is a call of one of the writing methods of `BadgerStore`; each is one badger
  transaction, which leaves the database as it was when its function returns an error. A key listed
  twice meets the write of its first occurrence: `StoreCall.Ready` says that at the turn of each
  key, the store with the writes made so far has the key in the status the call requires.
-/
import Chainspace.Sbac.Store

namespace Chainspace.Sbac

open Chainspace.Lib

/-! ## §1. Calls. -/

inductive StoreCall
  | lockObjects (objkeys : List Bytes)
  | unlockObjects (objkeys : List Bytes)
  | deactivateObjects (keys : List Bytes)
  | deleteObjects (objkeys : List Bytes)
  | createObjects (objs : List Object)
  | createObject (vid value : Bytes)
  | addTransaction (txkey value : Bytes)
  | commitTransaction (txnkey : Bytes) (inobjkeys : List Bytes) (objs : List Object)
  | finishTransaction (txnkey : Bytes)

namespace Store

def deleteObjects (s : Store) (objkeys : List Bytes) : Except StoreError Store :=
  s.setObjectsInactive objkeys

/-- The write of one turn of a status loop. -/
def mark (target : ObjectStatus) (s : Store) (key : Bytes) : Store :=
  { s with statuses := s.statuses.set key target }

def put (s : Store) (obj : Object) : Store :=
  { s with
    values := s.values.set obj.versionID obj.value
    statuses := s.statuses.set obj.versionID .active }

end Store

namespace StoreCall

def run (s : Store) : StoreCall → Except StoreError Store
  | lockObjects objkeys => s.lockObjects objkeys
  | unlockObjects objkeys => s.unlockObjects objkeys
  | deactivateObjects keys => s.deactivateObjects keys
  | deleteObjects objkeys => s.deleteObjects objkeys
  | createObjects objs => s.createObjects objs
  | createObject vid value => s.createObject vid value
  | addTransaction txkey value => s.addTransaction txkey value
  | commitTransaction txnkey inobjkeys objs => s.commitTransaction txnkey inobjkeys objs
  | finishTransaction txnkey => .ok (s.finishTransaction txnkey)

def commits (txnkey : Bytes) : StoreCall → Bool
  | commitTransaction key _ _ => key = txnkey
  | _ => false

/-- `P` holds of every element at its turn, given those before it. -/
def AtTurn {α : Type} (l : List α) (P : List α → α → Prop) : Prop :=
  ∀ pre a post, l = pre ++ a :: post → P pre a

/-- An object can be taken out of use: it is `ACTIVE` or `LOCKED`. -/
def Usable (status : Option ObjectStatus) : Prop := status = some .active ∨ status = some .locked

def Absent (s : Store) (vid : Bytes) : Prop := s.values vid = none ∧ s.statuses vid = none

/-- Every listed key is, at its turn, in the status the call requires. -/
def Ready (s : Store) : StoreCall → Prop
  | lockObjects objkeys =>
    AtTurn objkeys fun pre k => (pre.foldl (Store.mark .locked) s).statuses k = some .active
  | unlockObjects objkeys =>
    AtTurn objkeys fun pre k => Usable ((pre.foldl (Store.mark .active) s).statuses k)
  | deactivateObjects keys =>
    AtTurn keys fun pre k => Usable ((pre.foldl (Store.mark .inactive) s).statuses k)
  | deleteObjects objkeys =>
    AtTurn objkeys fun pre k => Usable ((pre.foldl (Store.mark .inactive) s).statuses k)
  | createObjects objs => AtTurn objs fun pre obj => Absent (pre.foldl Store.put s) obj.versionID
  | createObject vid _ => Absent s vid
  | addTransaction txkey _ => s.seen txkey = none ∧ s.committed txkey = none
  | commitTransaction txnkey inobjkeys objs =>
    AtTurn inobjkeys (fun pre k =>
        Usable ((pre.foldl (Store.mark .inactive) s).statuses k)) ∧
      AtTurn objs (fun pre obj => Absent
        (pre.foldl Store.put (inobjkeys.foldl (Store.mark .inactive) s)) obj.versionID) ∧
      s.committed txnkey = some false
  | finishTransaction _ => True

end StoreCall

/-! ## §2. When a call succeeds. -/

namespace Store

variable {s s' : Store}

theorem setStatus_eq_ok {allowed : ObjectStatus → Bool} {err : StoreError} {target : ObjectStatus}
    (s : Store) (key : Bytes) (s' : Store) :
    s.setStatus allowed err target key = .ok s' ↔
      (∃ status, s.statuses key = some status ∧ allowed status = true) ∧
        s' = s.mark target key := by
  constructor
  · exact setStatus_ok
  intro h
  obtain ⟨⟨status, hstatus, hallowed⟩, heq⟩ := h
  rw [heq]
  simp [setStatus, hstatus, hallowed, mark]

theorem createObject1_eq_ok (s : Store) (obj : Object) (s' : Store) :
    s.createObject1 obj = .ok s' ↔ StoreCall.Absent s obj.versionID ∧ s' = s.put obj := by
  constructor
  · intro h
    obtain ⟨hvalue, hstatus, heq⟩ := createObject1_ok h
    exact ⟨⟨hvalue, hstatus⟩, heq⟩
  intro h
  obtain ⟨⟨hvalue, hstatus⟩, heq⟩ := h
  rw [heq]
  simp [createObject1, hvalue, hstatus, put]

theorem markCommitted_eq_ok (s : Store) (txnkey : Bytes) (s' : Store) :
    s.markCommitted txnkey = .ok s' ↔ s.committed txnkey = some false ∧
        s' = { s with committed := s.committed.set txnkey true } := by
  constructor
  · intro h
    unfold markCommitted at h
    split at h
    · cases h
    · cases h
    next hfalse =>
      injection h with h
      exact ⟨hfalse, h.symm⟩
  intro h
  rw [h.2]
  simp [markCommitted, h.1]

theorem usable_iff {status : Option ObjectStatus} :
    (∃ st, status = some st ∧ decide (st ≠ .inactive) = true) ↔ StoreCall.Usable status := by
  constructor
  · intro h
    obtain ⟨st, hst, hne⟩ := h
    subst hst
    cases st with
    | active => exact .inl rfl
    | locked => exact .inr rfl
    | inactive => exact absurd hne (by decide)
  intro h
  rcases h with h | h
  · exact ⟨.active, h, by decide⟩
  · exact ⟨.locked, h, by decide⟩

variable {keys : List Bytes}

theorem setObjectsInactive_eq_ok : s.setObjectsInactive keys = .ok s' ↔
      (StoreCall.AtTurn keys fun pre k =>
        StoreCall.Usable ((pre.foldl (mark .inactive) s).statuses k))
        ∧ s' = keys.foldl (mark .inactive) s := by
  unfold setObjectsInactive
  rw [foldlM_eq_ok setStatus_eq_ok]
  simp only [usable_iff]
  rfl

theorem lockObjects_eq_ok : s.lockObjects keys = .ok s' ↔
      (StoreCall.AtTurn keys fun pre k => (pre.foldl (mark .locked) s).statuses k = some .active) ∧
        s' = keys.foldl (mark .locked) s := by
  unfold lockObjects
  rw [foldlM_eq_ok setStatus_eq_ok]
  simp only [decide_eq_true_eq, exists_eq_right]
  rfl

theorem unlockObjects_eq_ok : s.unlockObjects keys = .ok s' ↔
      (StoreCall.AtTurn keys fun pre k =>
        StoreCall.Usable ((pre.foldl (mark .active) s).statuses k))
        ∧ s' = keys.foldl (mark .active) s := by
  have husable : ∀ status : Option ObjectStatus,
      (∃ st, status = some st ∧ decide (st = .locked ∨ st = .active) = true) ↔
        StoreCall.Usable status := by
    intro status
    rw [← usable_iff]
    apply exists_congr
    intro st
    cases st <;> simp
  unfold unlockObjects
  rw [foldlM_eq_ok setStatus_eq_ok]
  simp only [husable]
  rfl

theorem createObjects_eq_ok {objs : List Object} : s.createObjects objs = .ok s' ↔
      (StoreCall.AtTurn objs fun pre obj => StoreCall.Absent (pre.foldl put s) obj.versionID) ∧
        s' = objs.foldl put s := by
  unfold createObjects
  rw [foldlM_eq_ok createObject1_eq_ok]
  rfl

theorem committed_put (objs : List Object) (s : Store) :
    (objs.foldl put s).committed = s.committed := by
  apply foldl_inv (fun st : Store => st.committed = s.committed) rfl
  intro obj _ st h
  exact h

theorem committed_mark (target : ObjectStatus) (keys : List Bytes) (s : Store) :
    (keys.foldl (mark target) s).committed = s.committed := by
  apply foldl_inv (fun st : Store => st.committed = s.committed) rfl
  intro key _ st h
  exact h

end Store

/-- **A call succeeds exactly when** every listed key is in the required status at its turn. -/
theorem StoreCall.run_isOk_iff (call : StoreCall) (s : Store) :
    (∃ s', call.run s = .ok s') ↔ call.Ready s := by
  have hinactive : ∀ keys, (∃ s', s.setObjectsInactive keys = .ok s') ↔
      AtTurn keys fun pre k => Usable ((pre.foldl (Store.mark .inactive) s).statuses k) := by
    intro keys
    simp only [Store.setObjectsInactive_eq_ok, exists_and_left, exists_eq, and_true]
  cases call with
  | lockObjects objkeys =>
    show (∃ s', s.lockObjects objkeys = .ok s') ↔ _
    simp only [Store.lockObjects_eq_ok, exists_and_left, exists_eq, and_true]
    rfl
  | unlockObjects objkeys =>
    show (∃ s', s.unlockObjects objkeys = .ok s') ↔ _
    simp only [Store.unlockObjects_eq_ok, exists_and_left, exists_eq, and_true]
    rfl
  | deactivateObjects keys => exact hinactive keys
  | deleteObjects objkeys => exact hinactive objkeys
  | createObjects objs =>
    show (∃ s', s.createObjects objs = .ok s') ↔ _
    simp only [Store.createObjects_eq_ok, exists_and_left, exists_eq, and_true]
    rfl
  | createObject vid value =>
    show (∃ s', s.createObject1 ⟨vid, value, .active, []⟩ = .ok s') ↔ _
    simp only [Store.createObject1_eq_ok, exists_and_left, exists_eq, and_true]
    rfl
  | addTransaction txkey value =>
    show (∃ s', s.addTransaction txkey value = .ok s') ↔
      s.seen txkey = none ∧ s.committed txkey = none
    unfold Store.addTransaction
    split
    next hseen => simp [hseen]
    next hseen =>
      split
      next hcommitted => simp [hcommitted]
      next hcommitted => simp [hseen, hcommitted]
  | commitTransaction txnkey inobjkeys objs =>
    show (∃ s', s.commitTransaction txnkey inobjkeys objs = .ok s') ↔ _
    unfold Store.commitTransaction
    simp only [bind_eq_ok, Store.setObjectsInactive_eq_ok, Store.createObjects_eq_ok,
      Store.markCommitted_eq_ok]
    constructor
    · intro h
      obtain ⟨s', s1, ⟨hins, h1⟩, s2, ⟨hobjs, h2⟩, hfalse, _⟩ := h
      subst h1
      rw [h2, Store.committed_put, Store.committed_mark] at hfalse
      exact ⟨hins, hobjs, hfalse⟩
    intro h
    obtain ⟨hins, hobjs, hfalse⟩ := h
    refine ⟨_, _, ⟨hins, rfl⟩, _, ⟨hobjs, rfl⟩, ?_, rfl⟩
    rw [Store.committed_put, Store.committed_mark]
    exact hfalse
  | finishTransaction => exact ⟨fun _ => trivial, fun _ => ⟨_, rfl⟩⟩

/-! ## §3. What a call changes. -/

/-- The moves of an object: created `ACTIVE`, locked and unlocked, and taken out of use for good. -/
inductive StatusMove : Option ObjectStatus → Option ObjectStatus → Prop
  | same (status : Option ObjectStatus) : StatusMove status status
  | create : StatusMove none (some .active)
  | lock : StatusMove (some .active) (some .locked)
  | unlock : StatusMove (some .locked) (some .active)
  | deactivate {status : Option ObjectStatus} (h : StoreCall.Usable status) :
      StatusMove status (some .inactive)

/-- What one call may do to the objects and transactions. -/
structure Store.Moves (s s' : Store) : Prop where
  paired : (∀ k, (s.values k).isSome = (s.statuses k).isSome) →
    ∀ k, (s'.values k).isSome = (s'.statuses k).isSome
  values : ∀ k v, s.values k = some v → s'.values k = some v
  statuses : ∀ k, StatusMove (s.statuses k) (s'.statuses k)

namespace Store

variable {s s' : Store} {keys : List Bytes} {objs : List Object}

theorem Moves.of_statuses {target : ObjectStatus} (hold : ∀ k ∈ keys, (s.statuses k).isSome = true)
    (hmove : ∀ k ∈ keys, StatusMove (s.statuses k) (some target)) :
    Moves s { s with statuses := fun k => if k ∈ keys then some target else s.statuses k } := by
  constructor
  · intro hpaired k
    show (s.values k).isSome = (if k ∈ keys then some target else s.statuses k).isSome
    rw [hpaired k]
    by_cases hk : k ∈ keys
    · rw [if_pos hk]
      exact hold k hk
    · rw [if_neg hk]
  · intro k v h
    exact h
  intro k
  show StatusMove _ (if k ∈ keys then some target else s.statuses k)
  by_cases hk : k ∈ keys
  · rw [if_pos hk]
    exact hmove k hk
  · rw [if_neg hk]
    exact .same _

theorem Moves.of_inactive (h : s.setObjectsInactive keys = .ok s') : Moves s s' := by
  obtain ⟨hallowed, heq⟩ := foldlM_setStatus h
  rw [heq]
  apply Moves.of_statuses
  · intro k hk
    obtain ⟨status, hstatus, _⟩ := hallowed k hk
    rw [hstatus]
    rfl
  · intro k hk
    exact .deactivate (usable_iff.mp (hallowed k hk))

theorem Created.paired (h : Created s objs s')
    (hpaired : ∀ k, (s.values k).isSome = (s.statuses k).isSome) (k : Bytes) :
    (s'.values k).isSome = (s'.statuses k).isSome := by
  by_cases hk : ∀ obj ∈ objs, obj.versionID ≠ k
  · rw [h.values k hk, h.statuses k hk]
    exact hpaired k
  push Not at hk
  obtain ⟨obj, hobj, heq⟩ := hk
  obtain ⟨hvalue, hstatus⟩ := h.exists_ obj hobj
  rw [← heq, hvalue, hstatus]
  rfl

theorem Created.move (h : Created s objs s') {k : Bytes}
    (hk : s.statuses k = none) : StatusMove none (s'.statuses k) := by
  by_cases hnew : ∀ obj ∈ objs, obj.versionID ≠ k
  · rw [h.statuses k hnew, hk]
    exact .same _
  push Not at hnew
  obtain ⟨obj, hobj, heq⟩ := hnew
  rw [← heq, (h.exists_ obj hobj).2]
  exact .create

theorem Moves.of_created (h : Created s objs s') : Moves s s' where
  paired := h.paired
  values := fun _ _ hk => h.value hk
  statuses := by
    intro k
    cases hk : s.statuses k with
    | none => exact h.move hk
    | some =>
      rw [h.status hk]
      exact .same _

/-- Deactivating and creating: an existing object is not created, a missing one not deactivated. -/
theorem Moves.created {s1 : Store} (h : Moves s s1)
    (hnone : ∀ k, s.statuses k = none → s1.statuses k = none) (hc : Created s1 objs s') :
    Moves s s' where
  paired := fun hpaired => hc.paired (h.paired hpaired)
  values := fun k v hk => hc.value (h.values k v hk)
  statuses := by
    intro k
    cases hk : s.statuses k with
    | none => exact hc.move (hnone k hk)
    | some =>
      have hmove := h.statuses k
      rw [hk] at hmove
      cases hs1 : s1.statuses k with
      | none =>
        rw [hs1] at hmove
        cases hmove
      | some =>
        rw [hc.status hs1]
        rw [hs1] at hmove
        exact hmove

theorem inactive_none (h : s.setObjectsInactive keys = .ok s') {k : Bytes}
    (hk : s.statuses k = none) : s'.statuses k = none := by
  obtain ⟨hallowed, heq⟩ := foldlM_setStatus h
  have hnot : k ∉ keys := by
    intro hmem
    obtain ⟨status, hstatus, _⟩ := hallowed k hmem
    rw [hk] at hstatus
    cases hstatus
  rw [heq]
  show (if k ∈ keys then _ else s.statuses k) = none
  rw [if_neg hnot]
  exact hk

end Store

/-- **Every call moves objects as `StatusMove` allows**, and keeps values and statuses together. -/
theorem StoreCall.run_moves {call : StoreCall} {s s' : Store} (h : call.run s = .ok s') :
    s.Moves s' := by
  cases call with
  | lockObjects =>
    obtain ⟨_, hactive, heq⟩ := Store.lockObjects_ok h
    rw [heq]
    apply Store.Moves.of_statuses
    · intro k hk
      rw [hactive k hk]
      rfl
    intro k hk
    rw [hactive k hk]
    exact .lock
  | unlockObjects =>
    obtain ⟨hheld, heq⟩ := Store.unlockObjects_ok h
    rw [heq]
    apply Store.Moves.of_statuses
    · intro k hk
      rcases hheld k hk with hk | hk
      all_goals
        rw [hk]
        rfl
    intro k hk
    rcases hheld k hk with hk | hk
    · rw [hk]
      exact .unlock
    · rw [hk]
      exact .same _
  | deactivateObjects | deleteObjects => exact .of_inactive h
  | createObjects => exact .of_created (Store.createObjects_ok h)
  | createObject => exact .of_created (Store.createObject_created h)
  | addTransaction txkey value =>
    have h : s.addTransaction txkey value = .ok s' := h
    unfold Store.addTransaction at h
    split at h
    · cases h
    split at h
    · cases h
    · cases h
      exact ⟨fun h => h, fun _ _ h => h, fun _ => .same _⟩
  | commitTransaction txnkey =>
    obtain ⟨s1, h1, h⟩ := bind_eq_ok.mp h
    obtain ⟨s2, h2, h⟩ := bind_eq_ok.mp h
    have hmoves : s.Moves s2 :=
      (Store.Moves.of_inactive h1).created (fun _ => Store.inactive_none h1)
        (Store.createObjects_ok h2)
    rw [((Store.markCommitted_eq_ok s2 txnkey s').mp h).2]
    exact ⟨hmoves.paired, hmoves.values, hmoves.statuses⟩
  | finishTransaction =>
    cases h
    exact ⟨fun h => h, fun _ _ h => h, fun _ => .same _⟩

/-- A transaction is marked by its own commit, which finds it unmarked; the mark stays. -/
theorem StoreCall.run_committed {call : StoreCall} {s s' : Store} (h : call.run s = .ok s')
    (txnkey : Bytes) :
    (call.commits txnkey = true → s.committed txnkey = some false) ∧
      (s'.committed txnkey = some true ↔
        call.commits txnkey = true ∨ s.committed txnkey = some true) := by
  -- a call that leaves the transactions alone
  have hsame : call.commits txnkey = false → s'.committed = s.committed →
      (call.commits txnkey = true → s.committed txnkey = some false) ∧
        (s'.committed txnkey = some true ↔
          call.commits txnkey = true ∨ s.committed txnkey = some true) := by
    intro hno heq
    rw [hno, heq]
    simp
  cases call with
  | lockObjects =>
    apply hsame rfl
    rw [(Store.lockObjects_ok h).2.2]
  | unlockObjects =>
    apply hsame rfl
    rw [(Store.unlockObjects_ok h).2]
  | deactivateObjects | deleteObjects =>
    apply hsame rfl
    rw [(Store.deactivateObjects_ok h).2]
  | createObjects =>
    apply hsame rfl
    rw [(Store.createObjects_eq_ok.mp h).2, Store.committed_put]
  | createObject =>
    apply hsame rfl
    rw [((Store.createObject1_eq_ok s _ s').mp h).2]
    rfl
  | addTransaction txkey value =>
    have h : s.addTransaction txkey value = .ok s' := h
    unfold Store.addTransaction at h
    split at h
    · cases h
    split at h
    · cases h
    next hnone =>
      cases h
      refine ⟨fun hc => absurd hc (by simp [commits]), ?_⟩
      show s.committed.set txkey false txnkey = some true ↔ false = true ∨ _
      by_cases hkey : txnkey = txkey
      · subst hkey
        simp [hnone]
      · simp [PMap.set_ne _ _ hkey]
  | commitTransaction key =>
    obtain ⟨s1, h1, h⟩ := bind_eq_ok.mp h
    obtain ⟨s2, h2, h⟩ := bind_eq_ok.mp h
    obtain ⟨hfalse, heq⟩ := (Store.markCommitted_eq_ok s2 key s').mp h
    have hcommitted : s2.committed = s.committed := by
      rw [(Store.createObjects_eq_ok.mp h2).2, Store.committed_put,
        (Store.setObjectsInactive_eq_ok.mp h1).2, Store.committed_mark]
    rw [hcommitted] at hfalse
    rw [heq]
    show (decide (key = txnkey) = true → _) ∧
      (s2.committed.set key true txnkey = some true ↔ decide (key = txnkey) = true ∨ _)
    rw [hcommitted]
    by_cases hkey : txnkey = key
    · subst hkey
      simp [hfalse]
    · simp [PMap.set_ne _ _ hkey, Ne.symm hkey]
  | finishTransaction =>
    cases h
    exact hsame rfl rfl

/-! ## §4. Every sequence of calls. -/

/-- A call with its outcome; successful calls are kept, newest first. The flag is a failure of
badger. -/
def Store.call (x : Store × List StoreCall) (c : StoreCall × Bool) : Store × List StoreCall :=
  match x.1.update c.2 c.1.run with
  | (s, none) => (s, c.1 :: x.2)
  | (s, some _) => (s, x.2)

def Store.calls (cs : List (StoreCall × Bool)) : Store × List StoreCall :=
  cs.foldl Store.call (.empty, [])

/-- Values and statuses go together, and a transaction was committed once if marked, else never. -/
structure Store.Consistent (x : Store × List StoreCall) : Prop where
  paired : ∀ k, (x.1.values k).isSome = (x.1.statuses k).isSome
  commits : ∀ txnkey, x.2.countP (·.commits txnkey) =
    if x.1.committed txnkey = some true then 1 else 0

theorem Store.Consistent.call {x : Store × List StoreCall} (h : Consistent x)
    (c : StoreCall × Bool) : Consistent (Store.call x c) := by
  obtain ⟨s, done⟩ := x
  rcases s.update_cases c.2 c.1.run with ⟨s', _, hrun, heq⟩ | ⟨e, heq, _⟩
  · have hcall : Store.call (s, done) c = (s', c.1 :: done) := by
      unfold Store.call
      rw [heq]
    rw [hcall]
    constructor
    · exact (StoreCall.run_moves hrun).paired h.paired
    intro txnkey
    obtain ⟨hfalse, htrue⟩ := StoreCall.run_committed hrun txnkey
    have hcount := h.commits txnkey
    rw [List.countP_cons, hcount]
    by_cases hc : c.1.commits txnkey = true
    · -- it was not committed before: its mark was unset
      have hbefore : ¬ s.committed txnkey = some true := by
        rw [hfalse hc]
        simp
      rw [if_pos (htrue.mpr (.inl hc)), if_pos hc]
      rw [if_neg hbefore]
    have hsame : s'.committed txnkey = some true ↔ s.committed txnkey = some true := by
      rw [htrue]
      simp [hc]
    simp only [hsame, if_neg hc, Nat.add_zero]
  have hcall : Store.call (s, done) c = (s, done) := by
    unfold Store.call
    rw [heq]
  rw [hcall]
  exact h

theorem Store.consistent_calls (cs : List (StoreCall × Bool)) : Consistent (Store.calls cs) := by
  apply foldl_inv Consistent
  · exact ⟨fun _ => rfl, fun _ => rfl⟩
  · intro c _ x h
    exact h.call c

/-- **The object store.** After any calls on a new database an object has a value exactly when it
has a status, and no transaction was committed twice. Whatever call comes next, values stay,
statuses move only between `ACTIVE` and `LOCKED` and from there to `INACTIVE`, and, unless badger
fails, the call succeeds exactly when every key is at its turn in the status it requires; one that
fails changes nothing. -/
theorem object_store (cs : List (StoreCall × Bool)) :
    let s := (Store.calls cs).1
    let done := (Store.calls cs).2
    (∀ k, (s.values k).isSome = true ↔ (s.statuses k).isSome = true) ∧
      (∀ txnkey, done.countP (·.commits txnkey) ≤ 1) ∧
      ∀ (c : StoreCall) (fail : Bool),
        (∀ k v, s.values k = some v → (s.update fail c.run).1.values k = some v) ∧
        (∀ k, StatusMove (s.statuses k) ((s.update fail c.run).1.statuses k)) ∧
        ((s.update fail c.run).2 = none ↔ fail = false ∧ c.Ready s) ∧
        ((s.update fail c.run).2 ≠ none → (s.update fail c.run).1 = s) := by
  intro s done
  have hinv := Store.consistent_calls cs
  refine ⟨?_, ?_, ?_⟩
  · intro k
    rw [hinv.paired k]
  · intro txnkey
    rw [hinv.commits txnkey]
    split
    · exact Nat.le_refl 1
    · exact Nat.zero_le 1
  intro c fail
  rcases s.update_cases fail c.run with ⟨s', hfail, hrun, heq⟩ | ⟨e, heq, herror⟩
  · have hmoves := StoreCall.run_moves hrun
    rw [heq]
    refine ⟨hmoves.values, hmoves.statuses, ?_, fun hne => absurd rfl hne⟩
    have hready := (StoreCall.run_isOk_iff c s).mp ⟨s', hrun⟩
    exact ⟨fun _ => ⟨hfail, hready⟩, fun _ => rfl⟩
  rw [heq]
  refine ⟨fun _ _ h => h, fun _ => .same _, ?_, fun _ => rfl⟩
  constructor
  · intro hnone
    cases hnone
  intro h
  obtain ⟨s', hrun⟩ := (StoreCall.run_isOk_iff c s).mpr h.2
  rw [herror h.1] at hrun
  cases hrun

/-- A key listed twice can be unlocked, but not locked or deactivated. -/
example : let s : Store := { Store.empty with statuses := fun _ => some .active }
    (s.update false (StoreCall.run · (.unlockObjects [[1], [1]]))).2 = none ∧
      (s.update false (StoreCall.run · (.lockObjects [[1], [1]]))).2 = some .objectCannotBeLocked ∧
      (s.update false (StoreCall.run · (.deleteObjects [[1], [1]]))).2 =
        some .objectAlreadyInactive := by decide

end Chainspace.Sbac
