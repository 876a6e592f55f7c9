/-
  Chainspace.Sbac.Store — the object store of a node (`sbac/store.go`).

  Badger keys carry a type byte, so the database is one map for each key type. Every exported method
  is a single badger transaction, which leaves the database as it was when its function returns an
  error: a fold over the keys that stops at the first error, with the old store kept by the caller.
-/
import Chainspace.Lib.Loop
import Chainspace.Sbac.Types

namespace Chainspace.Sbac

open Chainspace.Lib List

/-! ## §1. Operations. -/

inductive StoreError
  | keyNotFound
  | transactionAlreadyExists
  | transactionAlreadyCommitted
  | objectAlreadyExists
  | objectAlreadyInactive
  | objectCannotBeLocked
  | objectCannotBeUnlocked
  /-- the status of an object that has a value but no status is read through a nil item -/
  | nilItem
  /-- badger itself failed -/
  | badger
  deriving DecidableEq, Repr

structure Store where
  /-- `keyTypeObjectValue` -/
  values : PMap Bytes Bytes
  /-- `keyTypeObjectStatus` -/
  statuses : PMap Bytes ObjectStatus
  /-- `keyTypeCommittedTxn` -/
  committed : PMap Bytes Bool
  /-- `keyTypeSeenTxn` -/
  seen : PMap Bytes Bytes
  /-- `keyFinishedTxn` -/
  finished : PMap Bytes Unit

namespace Store

/-- The database a node starts with. -/
def empty : Store := ⟨PMap.empty, PMap.empty, PMap.empty, PMap.empty, PMap.empty⟩

/-- One iteration of the loops of `LockObjects`, `UnlockObjects` and `setObjectsInactive`: a status
in `allowed` becomes `target`. -/
def setStatus (allowed : ObjectStatus → Bool) (err : StoreError) (target : ObjectStatus)
    (s : Store) (key : Bytes) : Except StoreError Store :=
  match s.statuses key with
  | none => .error .keyNotFound
  | some status =>
    if allowed status then .ok { s with statuses := s.statuses.set key target } else .error err

def setObjectsInactive (s : Store) (objkeys : List Bytes) : Except StoreError Store :=
  objkeys.foldlM (setStatus (fun status => status ≠ .inactive) .objectAlreadyInactive .inactive) s

def createObject1 (s : Store) (obj : Object) : Except StoreError Store :=
  match s.values obj.versionID with
  | some _ => .error .objectAlreadyExists
  | none =>
    match s.statuses obj.versionID with
    | some _ => .error .objectAlreadyExists
    | none =>
      .ok { s with
        values := s.values.set obj.versionID obj.value
        statuses := s.statuses.set obj.versionID .active }

/-- `createObjects`, the helper of `CommitTransaction` and `CreateObjects`. -/
def createObjects (s : Store) (objs : List Object) : Except StoreError Store :=
  objs.foldlM createObject1 s

def markCommitted (s : Store) (txnkey : Bytes) : Except StoreError Store :=
  match s.committed txnkey with
  | none => .error .keyNotFound
  | some true => .error .transactionAlreadyCommitted
  | some false => .ok { s with committed := s.committed.set txnkey true }

def commitTransaction (s : Store) (txnkey : Bytes) (inobjkeys : List Bytes) (objs : List Object) :
    Except StoreError Store := do
  let s ← s.setObjectsInactive inobjkeys
  let s ← s.createObjects objs
  s.markCommitted txnkey

def lockObjects (s : Store) (objkeys : List Bytes) : Except StoreError Store :=
  objkeys.foldlM (setStatus (fun status => status = .active) .objectCannotBeLocked .locked) s

def unlockObjects (s : Store) (objkeys : List Bytes) : Except StoreError Store :=
  objkeys.foldlM
    (setStatus (fun status => status = .locked ∨ status = .active) .objectCannotBeUnlocked .active)
    s

def addTransaction (s : Store) (txkey value : Bytes) : Except StoreError Store :=
  match s.seen txkey with
  | some _ => .error .transactionAlreadyExists
  | none =>
    match s.committed txkey with
    | some _ => .error .transactionAlreadyExists
    | none =>
      .ok { s with
        seen := s.seen.set txkey value
        committed := s.committed.set txkey false }

def getObject (s : Store) (vid : Bytes) : Except StoreError Object :=
  match s.values vid with
  | none => .error .keyNotFound
  | some value =>
    match s.statuses vid with
    | none => .error .nilItem
    | some status => .ok ⟨vid, value, status, []⟩

def getObjects (s : Store) (vids : List Bytes) : Except StoreError (List Object) :=
  vids.mapM s.getObject

def deactivateObjects (s : Store) (keys : List Bytes) : Except StoreError Store :=
  s.setObjectsInactive keys

def createObject (s : Store) (vid value : Bytes) : Except StoreError Store :=
  s.createObject1 ⟨vid, value, .active, []⟩

def finishTransaction (s : Store) (txnkey : Bytes) : Store :=
  { s with finished := s.finished.set txnkey () }

/-- `db.Update`: the transaction of a store call, which badger may `fail`. On an error the database
stays as it was. -/
def update (s : Store) (fail : Bool) (f : Store → Except StoreError Store) :
    Store × Option StoreError :=
  if fail then (s, some .badger)
  else
    match f s with
    | .ok s' => (s', none)
    | .error e => (s, some e)

/-! ## §2. Status loops. -/

section StatusLoop
variable {allowed : ObjectStatus → Bool} {err : StoreError} {target : ObjectStatus} {s s' : Store}
  {keys : List Bytes}

theorem setStatus_ok {key : Bytes} (h : s.setStatus allowed err target key = .ok s') :
    (∃ status, s.statuses key = some status ∧ allowed status = true) ∧
      s' = { s with statuses := s.statuses.set key target } := by
  unfold setStatus at h
  split at h
  · cases h
  next status hs =>
    split at h
    next ha =>
      injection h with h
      exact ⟨⟨status, hs, ha⟩, h.symm⟩
    · cases h

/-- **A status loop** that ends well found every key in an allowed status, leaves it in the target
status, and changes nothing else. -/
theorem foldlM_setStatus (h : keys.foldlM (setStatus allowed err target) s = .ok s') :
    (∀ k ∈ keys, ∃ status, s.statuses k = some status ∧ allowed status = true) ∧
      s' = { s with statuses := fun k => if k ∈ keys then some target else s.statuses k } := by
  induction keys generalizing s with
  | nil =>
    cases h
    exact ⟨by simp, by simp⟩
  | cons key keys ih =>
    obtain ⟨s1, h1, h⟩ := bind_eq_ok.mp h
    obtain ⟨⟨status, hstatus, hallowed⟩, rfl⟩ := setStatus_ok h1
    obtain ⟨hrest, rfl⟩ := ih h
    constructor
    · intro k hk
      by_cases hkey : k = key
      · subst hkey
        exact ⟨status, hstatus, hallowed⟩
      obtain ⟨st, hst, ha⟩ := hrest k (mem_of_ne_of_mem hkey hk)
      simp only [PMap.set_ne _ _ hkey] at hst
      exact ⟨st, hst, ha⟩
    congr 1
    funext k
    by_cases hkey : k = key
    · subst hkey
      simp
    · simp [hkey]

/-- A loop whose target status is not allowed refuses a key listed twice. -/
theorem foldlM_setStatus_nodup (hto : allowed target = false)
    (h : keys.foldlM (setStatus allowed err target) s = .ok s') : keys.Nodup := by
  induction keys generalizing s with
  | nil => exact nodup_nil
  | cons key keys ih =>
    obtain ⟨s1, h1, h⟩ := bind_eq_ok.mp h
    obtain ⟨-, rfl⟩ := setStatus_ok h1
    refine nodup_cons.mpr ⟨?_, ih h⟩
    intro hkey
    -- a second occurrence would find the status the first one wrote
    obtain ⟨status, hstatus, hallowed⟩ := (foldlM_setStatus h).1 key hkey
    simp only [PMap.set_self] at hstatus
    injection hstatus with hstatus
    rw [← hstatus, hto] at hallowed
    cases hallowed

/-- A loop over distinct keys, all in an allowed status, ends well. -/
theorem foldlM_setStatus_of_allowed (hnodup : keys.Nodup)
    (h : ∀ k ∈ keys, ∃ status, s.statuses k = some status ∧ allowed status = true) :
    ∃ s', keys.foldlM (setStatus allowed err target) s = .ok s' := by
  induction keys generalizing s with
  | nil => exact ⟨s, rfl⟩
  | cons key keys ih =>
    have hnodup := nodup_cons.mp hnodup
    obtain ⟨status, hstatus, hallowed⟩ := h key mem_cons_self
    have h1 : s.setStatus allowed err target key =
        .ok { s with statuses := s.statuses.set key target } := by
      simp [setStatus, hstatus, hallowed]
    rw [foldlM_cons, h1]
    refine ih hnodup.2 ?_
    intro k hk
    have hne : k ≠ key := fun heq => hnodup.1 (heq ▸ hk)
    show ∃ status, s.statuses.set key target k = some status ∧ _
    rw [PMap.set_ne _ _ hne]
    exact h k (mem_cons_of_mem key hk)

end StatusLoop

variable {keys : List Bytes} {s s' : Store}

theorem lockObjects_ok (h : s.lockObjects keys = .ok s') :
    keys.Nodup ∧ (∀ k ∈ keys, s.statuses k = some .active) ∧
      s' = { s with statuses := fun k => if k ∈ keys then some .locked else s.statuses k } := by
  refine ⟨foldlM_setStatus_nodup (by simp) h, ?_, (foldlM_setStatus h).2⟩
  intro k hk
  obtain ⟨status, hstatus, ha⟩ := (foldlM_setStatus h).1 k hk
  rw [hstatus, of_decide_eq_true ha]

theorem unlockObjects_ok (h : s.unlockObjects keys = .ok s') :
    (∀ k ∈ keys, s.statuses k = some .locked ∨ s.statuses k = some .active) ∧
      s' = { s with statuses := fun k => if k ∈ keys then some .active else s.statuses k } := by
  refine ⟨?_, (foldlM_setStatus h).2⟩
  intro k hk
  obtain ⟨status, hstatus, ha⟩ := (foldlM_setStatus h).1 k hk
  rw [hstatus]
  rcases of_decide_eq_true ha with ha | ha
  · exact Or.inl (congrArg some ha)
  · exact Or.inr (congrArg some ha)

/-- `DeactivateObjects` succeeds only on distinct objects none of which is `INACTIVE`. -/
theorem deactivateObjects_ok (h : s.deactivateObjects keys = .ok s') :
    (∀ k ∈ keys, s.statuses k ≠ some .inactive) ∧
      s' = { s with statuses := fun k => if k ∈ keys then some .inactive else s.statuses k } := by
  refine ⟨?_, (foldlM_setStatus h).2⟩
  intro k hk
  obtain ⟨status, hstatus, ha⟩ := (foldlM_setStatus h).1 k hk
  rw [hstatus]
  intro heq
  exact of_decide_eq_true ha (Option.some.inj heq)

theorem deactivateObjects_of_locked (hnodup : keys.Nodup)
    (h : ∀ k ∈ keys, s.statuses k = some .locked) : ∃ s', s.deactivateObjects keys = .ok s' := by
  refine foldlM_setStatus_of_allowed hnodup ?_
  intro k hk
  exact ⟨.locked, h k hk, by simp⟩

/-! ## §3. Creating objects. -/

theorem createObject1_ok {obj : Object} (h : s.createObject1 obj = .ok s') :
    s.values obj.versionID = none ∧ s.statuses obj.versionID = none ∧ s' = { s with
        values := s.values.set obj.versionID obj.value
        statuses := s.statuses.set obj.versionID .active } := by
  unfold createObject1 at h
  split at h
  · cases h
  next hv =>
    split at h
    · cases h
    next hs =>
      injection h with h
      exact ⟨hv, hs, h.symm⟩

/-- What creating objects leaves of the old store: every value and status stays, and the listed
objects exist. -/
structure Created (s : Store) (objs : List Object) (s' : Store) : Prop where
  values : ∀ k, (∀ obj ∈ objs, obj.versionID ≠ k) → s'.values k = s.values k
  statuses : ∀ k, (∀ obj ∈ objs, obj.versionID ≠ k) → s'.statuses k = s.statuses k
  absent : ∀ obj ∈ objs, s.values obj.versionID = none ∧ s.statuses obj.versionID = none
  exists_ : ∀ obj ∈ objs, s'.values obj.versionID = some obj.value ∧
    s'.statuses obj.versionID = some .active
  finished : s'.finished = s.finished

/-- **`CreateObjects`** succeeds only when no listed object exists; afterwards they all do. -/
theorem createObjects_ok {objs : List Object} (h : s.createObjects objs = .ok s') :
    Created s objs s' := by
  unfold createObjects at h
  induction objs generalizing s with
  | nil =>
    cases h
    exact ⟨fun _ _ => rfl, fun _ _ => rfl, by simp, by simp, rfl⟩
  | cons obj objs ih =>
    obtain ⟨s1, h1, h⟩ := bind_eq_ok.mp h
    obtain ⟨hv, hs, rfl⟩ := createObject1_ok h1
    have hrest := ih h
    -- a later object has another key: its key is absent, the one just written is not
    have hne : ∀ o ∈ objs, o.versionID ≠ obj.versionID := by
      intro o ho heq
      have habsent := (hrest.absent o ho).1
      simp [heq] at habsent
    constructor
    · intro k hk
      rw [hrest.values k (fun o ho => hk o (mem_cons_of_mem obj ho))]
      exact PMap.set_ne _ _ (hk obj mem_cons_self).symm
    · intro k hk
      rw [hrest.statuses k (fun o ho => hk o (mem_cons_of_mem obj ho))]
      exact PMap.set_ne _ _ (hk obj mem_cons_self).symm
    · intro o ho
      rcases mem_cons.mp ho with rfl | ho
      · exact ⟨hv, hs⟩
      have habsent := hrest.absent o ho
      simp only [PMap.set_ne _ _ (hne o ho)] at habsent
      exact habsent
    · intro o ho
      rcases mem_cons.mp ho with rfl | ho
      · rw [hrest.values _ hne, hrest.statuses _ hne]
        exact ⟨PMap.set_self _ _ _, PMap.set_self _ _ _⟩
      · exact hrest.exists_ o ho
    · exact hrest.finished

section Created
variable {s s' : Store} {objs : List Object} {k : Bytes}

theorem Created.ne_of_status (h : Created s objs s') {status : ObjectStatus}
    (hk : s.statuses k = some status) : ∀ obj ∈ objs, obj.versionID ≠ k := by
  intro obj hobj heq
  have habsent := (h.absent obj hobj).2
  rw [heq, hk] at habsent
  cases habsent

theorem Created.status (h : Created s objs s') {status : ObjectStatus}
    (hk : s.statuses k = some status) : s'.statuses k = some status := by
  rw [h.statuses k (h.ne_of_status hk)]
  exact hk

theorem Created.value (h : Created s objs s') {value : Bytes} (hk : s.values k = some value) :
    s'.values k = some value := by
  rw [h.values k]
  · exact hk
  intro obj hobj heq
  have habsent := (h.absent obj hobj).1
  rw [heq, hk] at habsent
  cases habsent

end Created

theorem createObject_created {vid value : Bytes}
    (h : s.createObject vid value = .ok s') : Created s [⟨vid, value, .active, []⟩] s' := by
  apply createObjects_ok
  unfold createObjects
  rw [foldlM_cons]
  have h : s.createObject1 ⟨vid, value, .active, []⟩ = .ok s' := h
  rw [h]
  rfl

theorem createObjects_nodup {objs : List Object} (h : s.createObjects objs = .ok s') :
    (objs.map Object.versionID).Nodup := by
  induction objs generalizing s with
  | nil => exact nodup_nil
  | cons obj objs ih =>
    obtain ⟨s1, h1, h⟩ := bind_eq_ok.mp h
    refine nodup_cons.mpr ⟨?_, ih h⟩
    intro hmem
    obtain ⟨obj', hobj', heq⟩ := mem_map.mp hmem
    obtain ⟨_, _, rfl⟩ := createObject1_ok h1
    -- The second object of that version would not be absent.
    have habsent := ((createObjects_ok h).absent obj' hobj').1
    rw [heq] at habsent
    simp at habsent

theorem createObjects_of_absent {objs : List Object} (hnodup : (objs.map Object.versionID).Nodup)
    (h : ∀ obj ∈ objs, s.values obj.versionID = none ∧ s.statuses obj.versionID = none) :
    ∃ s', s.createObjects objs = .ok s' := by
  unfold createObjects
  induction objs generalizing s with
  | nil => exact ⟨s, rfl⟩
  | cons obj objs ih =>
    have hnodup := nodup_cons.mp hnodup
    obtain ⟨hv, hs⟩ := h obj mem_cons_self
    have h1 : s.createObject1 obj = .ok { s with
        values := s.values.set obj.versionID obj.value
        statuses := s.statuses.set obj.versionID .active } := by
      simp [createObject1, hv, hs]
    rw [foldlM_cons, h1]
    refine ih hnodup.2 ?_
    intro o ho
    have hne : o.versionID ≠ obj.versionID := by
      intro heq
      exact hnodup.1 (heq ▸ mem_map_of_mem ho)
    show s.values.set _ _ _ = none ∧ s.statuses.set _ _ _ = none
    rw [PMap.set_ne _ _ hne, PMap.set_ne _ _ hne]
    exact h o (mem_cons_of_mem obj ho)

theorem getObjects_values {vids : List Bytes} {objects : List Object}
    (h : s.getObjects vids = .ok objects) {vid : Bytes} (hvid : vid ∈ vids) :
    (s.values vid).isSome = true := by
  unfold getObjects at h
  induction vids generalizing objects with
  | nil => cases hvid
  | cons v vids ih =>
    rw [mapM_cons] at h
    obtain ⟨object, hobject, h⟩ := bind_eq_ok.mp h
    obtain ⟨rest, hrest, _⟩ := bind_eq_ok.mp h
    rcases mem_cons.mp hvid with heq | hvid
    · subst heq
      unfold getObject at hobject
      split at hobject
      · cases hobject
      next hvalue =>
        rw [hvalue]
        rfl
    · exact ih hrest hvid

/-! ## §4. One database transaction. -/

/-- A store call without an error ran its function; with one it changed nothing. -/
theorem update_cases (s : Store) (fail : Bool) (f : Store → Except StoreError Store) :
    (∃ s', fail = false ∧ f s = .ok s' ∧ s.update fail f = (s', none)) ∨
      (∃ e, s.update fail f = (s, some e) ∧ (fail = false → f s = .error e)) := by
  unfold update
  cases fail with
  | true => exact Or.inr ⟨.badger, rfl, by simp⟩
  | false =>
    cases hf : f s with
    | ok s' => exact Or.inl ⟨s', rfl, rfl, by simp⟩
    | error e => exact Or.inr ⟨e, by simp, by simp⟩

theorem update_createObject (s : Store) (fail : Bool) (vid value : Bytes) :
    (s.update fail (·.createObject vid value)).1 = s ∨
      Created s [⟨vid, value, .active, []⟩] (s.update fail (·.createObject vid value)).1 := by
  rcases s.update_cases fail (·.createObject vid value) with ⟨st, _, hst, heq⟩ | ⟨e, heq, _⟩
  · rw [heq]
    exact .inr (createObject_created hst)
  · rw [heq]
    exact .inl rfl

/-! ## §5. `handleCreateObjects`. -/

inductive CreateError
  /-- "sbac: new_object unmarshaling error" -/
  | unmarshal
  /-- "sbac: nil object" -/
  | nilObject
  | store (e : StoreError)
  deriving DecidableEq

section CreateEach
variable (hash : Bytes → Bytes)

/-- The loop of `handleCreateObjects`, one database transaction for each object, which badger may
fail; `out` are the version IDs so far. -/
def createEach (s : Store) (out : List Bytes) :
    List (Bytes × Bool) → Store × Except CreateError (List Bytes)
  | [] => (s, .ok out)
  | (object, fail) :: rest =>
    match s.update fail (·.createObject (hash object) object) with
    | (s, none) => createEach s (out ++ [hash object]) rest
    | (s, some e) => (s, .error (.store e))

/-- `handleCreateObjects`; `none` is a payload that does not decode. -/
def handleCreateObjects (s : Store) :
    Option (List (Bytes × Bool)) → Store × Except CreateError (List Bytes)
  | none => (s, .error .unmarshal)
  | some [] => (s, .error .nilObject)
  | some (o :: rest) => createEach hash s [] (o :: rest)

def requested (o : Bytes × Bool) : Object := ⟨hash o.1, o.1, .active, []⟩

variable {hash} {objects : List (Bytes × Bool)} {out ids : List Bytes}

theorem createEach_ok_iff : createEach hash s out objects = (s', .ok ids) ↔
    (∀ o ∈ objects, o.2 = false) ∧ s.createObjects (objects.map (requested hash)) = .ok s' ∧
      ids = out ++ objects.map (hash ·.1) := by
  induction objects generalizing s out with
  | nil =>
    simp only [map_nil, append_nil]
    constructor
    · intro h
      cases h
      exact ⟨nofun, rfl, rfl⟩
    rintro ⟨_, h, rfl⟩
    cases h
    rfl
  | cons o objects ih =>
    obtain ⟨object, fail⟩ := o
    have hone : s.createObjects (((object, fail) :: objects).map (requested hash)) =
        s.createObject (hash object) object >>= (·.createObjects (objects.map (requested hash))) :=
      rfl
    rw [createEach, hone, forall_mem_cons]
    rcases s.update_cases fail (·.createObject (hash object) object) with
      ⟨s1, hfail, hs1, heq⟩ | ⟨e, heq, he⟩
    · simp only [heq, hs1]
      rw [ih, append_assoc]
      exact ⟨fun h => ⟨⟨hfail, h.1⟩, h.2⟩, fun h => ⟨h.1.2, h.2⟩⟩
    simp only [heq]
    constructor
    · exact nofun
    rintro ⟨⟨hfail, _⟩, h, _⟩
    rw [he hfail] at h
    exact nomatch h

/-- The loop never takes an object away. -/
theorem createEach_values {r : Except CreateError (List Bytes)} {k value : Bytes}
    (h : createEach hash s out objects = (s', r)) (hk : s.values k = some value) :
    s'.values k = some value := by
  induction objects generalizing s out with
  | nil =>
    cases h
    exact hk
  | cons o objects ih =>
    rw [createEach] at h
    rcases s.update_cases o.2 (·.createObject (hash o.1) o.1) with ⟨s1, _, hs1, heq⟩ | ⟨e, heq, _⟩
    · rw [heq] at h
      exact ih h ((createObject_created hs1).value hk)
    · rw [heq] at h
      cases h
      exact hk

/-- A request is answered all or nothing: with an error no object of the list is new, without one
all of them are there and the IDs are their hashes in order. -/
def AllOrNothing (hash : Bytes → Bytes) (s : Store) (req : Option (List (Bytes × Bool))) : Prop :=
  match handleCreateObjects hash s req with
  | (s', .error _) => ∀ objects, req = some objects → ∀ o ∈ objects,
      s.values (hash o.1) = none → s.statuses (hash o.1) = none →
        s'.values (hash o.1) = none ∧ s'.statuses (hash o.1) = none
  | (s', .ok ids) => ∃ objects, req = some objects ∧ ids = objects.map (hash ·.1) ∧
      ∀ o ∈ objects, s'.values (hash o.1) = some o.1 ∧ s'.statuses (hash o.1) = some .active

/-- The transaction of the first object fails, or the objects are distinct and new and badger does
not fail. -/
def Atomic (hash : Bytes → Bytes) (s : Store) (req : Option (List (Bytes × Bool))) : Prop :=
  ∀ o rest, req = some (o :: rest) →
    (∃ e, (s.update o.2 (·.createObject (hash o.1) o.1)).2 = some e) ∨
      ((o :: rest).map (hash ·.1)).Nodup ∧ ∀ o' ∈ o :: rest, o'.2 = false ∧
        s.values (hash o'.1) = none ∧ s.statuses (hash o'.1) = none

theorem allOrNothing_ok {o : Bytes × Bool}
    (h : createEach hash s [] (o :: objects) = (s', .ok ids)) :
    AllOrNothing hash s (some (o :: objects)) ∧ Atomic hash s (some (o :: objects)) := by
  obtain ⟨hfail, hcreate, hids⟩ := createEach_ok_iff.mp h
  have hmade := createObjects_ok hcreate
  constructor
  · rw [AllOrNothing, handleCreateObjects, h]
    exact ⟨_, rfl, hids, fun o ho => hmade.exists_ (requested hash o) (mem_map_of_mem ho)⟩
  rintro _ _ ⟨⟩
  have hnodup := createObjects_nodup hcreate
  rw [map_map] at hnodup
  exact .inr ⟨hnodup, fun o ho =>
    ⟨hfail o ho, hmade.absent (requested hash o) (mem_map_of_mem ho)⟩⟩

/-- **`handleCreateObjects` creates all of the list or nothing exactly where the transaction of the
first object fails, or the objects are distinct and new and badger does not fail.** -/
theorem handleCreateObjects_all_or_nothing (hash : Bytes → Bytes) (s : Store)
    (req : Option (List (Bytes × Bool))) : AllOrNothing hash s req ↔ Atomic hash s req := by
  rcases req with _ | _ | ⟨o, rest⟩
  · exact ⟨fun _ _ _ h => (nomatch h), fun _ _ h => (nomatch h)⟩
  · refine ⟨fun _ _ _ h => (nomatch h), fun _ objects h o ho => ?_⟩
    cases h
    exact nomatch ho
  rcases hrun : createEach hash s [] (o :: rest) with ⟨s', _ | ids⟩
  case ok => exact ⟨fun _ => (allOrNothing_ok hrun).2, fun _ => (allOrNothing_ok hrun).1⟩
  rw [AllOrNothing, handleCreateObjects, hrun]
  rcases s.update_cases o.2 (·.createObject (hash o.1) o.1) with ⟨s1, _, hs1, hone⟩ | ⟨e, hone, _⟩
  · -- The first object is there after its transaction, and stays there.
    have hmade := createObject_created hs1
    have habsent := hmade.absent _ mem_cons_self
    have hstays : s'.values (hash o.1) = some o.1 := by
      simp only [createEach, hone] at hrun
      exact createEach_values hrun (hmade.exists_ _ mem_cons_self).1
    constructor
    · intro h
      have hgone := h _ rfl o mem_cons_self habsent.1 habsent.2
      rw [hstays] at hgone
      exact nomatch hgone.1
    intro h
    rcases h o rest rfl with ⟨e, he⟩ | ⟨hnodup, hnew⟩
    · rw [hone] at he
      exact nomatch he
    -- Under the second alternative there is no error at all.
    obtain ⟨s2, hs2⟩ : ∃ s2, s.createObjects ((o :: rest).map (requested hash)) = .ok s2 := by
      refine createObjects_of_absent (by rw [map_map]; exact hnodup) ?_
      exact forall_mem_map.mpr fun o ho => (hnew o ho).2
    have hok : createEach hash s [] (o :: rest) = (s2, .ok ((o :: rest).map (hash ·.1))) :=
      createEach_ok_iff.mpr ⟨fun o ho => (hnew o ho).1, hs2, rfl⟩
    exact nomatch hok.symm.trans hrun
  · -- Nothing happens when the first transaction fails.
    simp only [createEach, hone] at hrun
    cases hrun
    constructor
    · rintro _ _ _ ⟨⟩
      exact .inl ⟨e, by rw [hone]⟩
    · exact fun _ _ _ _ _ hv hs => ⟨hv, hs⟩

/-- The second of two equal objects is refused, and the first one stays. -/
theorem handleCreateObjects_leaves_first :
    ∃ s', handleCreateObjects id empty (some [([1], false), ([1], false)]) =
        (s', .error (.store .objectAlreadyExists)) ∧
      empty.values [1] = none ∧ s'.values [1] = some [1] :=
  ⟨_, rfl, rfl, rfl⟩

end CreateEach

end Store

end Chainspace.Sbac
