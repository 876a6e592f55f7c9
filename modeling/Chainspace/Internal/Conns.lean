/-
  Chainspace.Internal.Conns — requests are retried until they are answered
  (`internal/conns/cache.go`).

  `WriteRequest` sends a request under a new ID and then makes it pending under that ID. A response
  takes it out, and so does a pass of `retryRequests` when it is old, to send it again. A step is
  what a goroutine does between two points where others can interfere. The counter of IDs does not
  wrap.
-/
import Mathlib.Data.List.AList

namespace Chainspace.Conns

open List

/-- A request: a call of `WriteRequest` by a client. -/
structure Request where
  nodeID : Nat
  call : Nat
  deriving DecidableEq, Repr

structure AckID where
  nodeID : Nat
  requestID : Nat
  deriving DecidableEq, Repr

/-- `cache`.  The last three lists are kept for the proofs. -/
structure Cache where
  pendingAcks : AList fun _ : AckID => Request
  redolist : List Request
  /-- the requests inside `WriteRequest`, with their ID once they are written -/
  running : List (Request × Option Nat)
  /-- the requests that IDs were taken for, in order: `atomicid` is the length -/
  sent : List Request
  issued : List Request
  /-- the requests whose callback was called -/
  called : List Request

namespace Cache

def new : Cache := ⟨∅, [], [], [], [], []⟩

def addPendingAck (c : Cache) (r : Request) (id : Nat) : Cache :=
  { c with pendingAcks := c.pendingAcks.insert ⟨r.nodeID, id⟩ r }

/-- `processAckMessage`; a response with an unknown ID is ignored. -/
def processAckMessage (c : Cache) (key : AckID) : Cache :=
  match c.pendingAcks.lookup key with
  | some r => { c with called := r :: c.called, pendingAcks := c.pendingAcks.erase key }
  | none => c

def collect (c : Cache) (old : AckID → Bool) : Cache :=
  { c with
    redolist := c.redolist ++ (c.pendingAcks.entries.filter fun e => old e.1).map (·.2)
    pendingAcks := ⟨c.pendingAcks.entries.filter fun e => !old e.1,
      c.pendingAcks.nodupKeys.sublist filter_sublist⟩ }

inductive Run : Cache → Prop
  | start : Run new
  | call {c : Cache} (hrun : Run c) {r : Request} (hnew : r ∉ c.issued) :
      Run { c with issued := r :: c.issued, running := (r, none) :: c.running }
  -- `Conn.WriteRequest` takes the next ID, and succeeds or not.
  | write {c : Cache} (hrun : Run c) {r : Request} {pre post : List (Request × Option Nat)}
      (h : c.running = pre ++ (r, none) :: post) (ok : Bool) :
      Run { c with
        sent := c.sent ++ [r]
        running := pre ++ (r, if ok then some (c.sent.length + 1) else none) :: post }
  | add {c : Cache} (hrun : Run c) {r : Request} {id : Nat} {pre post : List (Request × Option Nat)}
      (h : c.running = pre ++ (r, some id) :: post) :
      Run { c.addPendingAck r id with running := pre ++ post }
  | response {c : Cache} (hrun : Run c) (key : AckID) : Run (c.processAckMessage key)
  | collect {c : Cache} (hrun : Run c) (old : AckID → Bool) : Run (c.collect old)
  | redo {c : Cache} (hrun : Run c) {r : Request} {rest : List Request}
      (h : c.redolist = r :: rest) :
      Run { c with redolist := rest, running := (r, none) :: c.running }

/-- The latest ID of a request. -/
def Latest (sent : List Request) (r : Request) (id : Nat) : Prop :=
  ∃ before after, sent = before ++ r :: after ∧ id = before.length + 1 ∧ r ∉ after

section Latest
variable {sent : List Request} {r r' : Request} {id : Nat}

theorem Latest.snoc (h : Latest sent r id) (hne : r ≠ r') : Latest (sent ++ [r']) r id := by
  obtain ⟨before, after, rfl, rfl, hafter⟩ := h
  exact ⟨before, after ++ [r'], by simp, rfl, by simp [hafter, hne]⟩

theorem Latest.unique (h : Latest sent r id) (h' : Latest sent r' id) : r = r' := by
  obtain ⟨before, after, rfl, rfl, _⟩ := h
  obtain ⟨before', after', heq, hlen, _⟩ := h'
  exact (cons.inj (append_inj heq (by omega)).2).1

end Latest

/-- The invariant: a request is in one place, and under its latest ID. -/
structure Sound (c : Cache) : Prop where
  place : ∀ r, c.called.count r + (c.pendingAcks.entries.map (·.2)).count r +
    c.redolist.count r + (c.running.map (·.1)).count r = c.issued.count r
  nodup : c.issued.Nodup
  pending : ∀ e ∈ c.pendingAcks.entries,
    e.1.nodeID = e.2.nodeID ∧ Latest c.sent e.2 e.1.requestID
  running : ∀ r id, (r, some id) ∈ c.running → Latest c.sent r id

variable {c : Cache} {r : Request} {pre post : List (Request × Option Nat)} {x : Option Nat}

theorem Sound.alone (h : Sound c) (hrun : c.running = pre ++ (r, x) :: post) :
    (∀ e ∈ c.pendingAcks.entries, e.2 ≠ r) ∧ ∀ t ∈ pre ++ post, t.1 ≠ r := by
  have hplace := h.place r
  have honce := nodup_iff_count_le_one.mp h.nodup r
  rw [hrun, map_append, map_cons, count_append, count_cons_self] at hplace
  constructor
  · intro e he heq
    have hpos : 0 < (c.pendingAcks.entries.map (·.2)).count r :=
      count_pos_iff.mpr (mem_map.mpr ⟨e, he, heq⟩)
    omega
  intro t ht heq
  have hpos : 0 < ((pre ++ post).map (·.1)).count r :=
    count_pos_iff.mpr (mem_map.mpr ⟨t, ht, heq⟩)
  rw [map_append, count_append] at hpos
  omega

theorem Sound.write (h : Sound c) (hrun : c.running = pre ++ (r, none) :: post) (ok : Bool) :
    Sound { c with
      sent := c.sent ++ [r]
      running := pre ++ (r, if ok then some (c.sent.length + 1) else none) :: post } := by
  obtain ⟨hpending, hothers⟩ := h.alone hrun
  refine ⟨fun r' => ?_, h.nodup, fun e he => ?_, fun r' id hid => ?_⟩
  · have hplace := h.place r'
    rw [hrun] at hplace
    simpa using hplace
  · obtain ⟨hnode, hid⟩ := h.pending e he
    exact ⟨hnode, hid.snoc (hpending e he)⟩
  have hid : (r', some id) ∈ (r, if ok then some (c.sent.length + 1) else none) :: (pre ++ post) :=
    perm_middle.mem_iff.mp hid
  rcases mem_cons.mp hid with heq | hid
  · injection heq with hr hid
    split at hid
    · cases hid
      exact ⟨c.sent, [], by rw [hr], rfl, nofun⟩
    · cases hid
  have hold : (r', some id) ∈ c.running := by
    rw [hrun, perm_middle.mem_iff]
    exact mem_cons_of_mem _ hid
  exact (h.running r' id hold).snoc (hothers _ hid)

theorem Sound.add (h : Sound c) {id : Nat} (hrun : c.running = pre ++ (r, some id) :: post) :
    Sound { c.addPendingAck r id with running := pre ++ post } := by
  have hid := h.running r id (by rw [hrun]; simp)
  -- No other request is pending under the ID.
  have hfresh : (⟨r.nodeID, id⟩ : AckID) ∉ c.pendingAcks := by
    intro hmem
    obtain ⟨e, he, hkey⟩ := mem_map.mp hmem
    have hlatest := (h.pending e he).2
    rw [hkey] at hlatest
    exact (h.alone hrun).1 e he (hlatest.unique hid)
  have hentries : (c.pendingAcks.insert ⟨r.nodeID, id⟩ r).entries =
      ⟨⟨r.nodeID, id⟩, r⟩ :: c.pendingAcks.entries := AList.entries_insert_of_notMem hfresh
  refine ⟨fun r' => ?_, h.nodup, fun e he => ?_, fun r' id' hid' => h.running r' id' ?_⟩
  · have hplace := h.place r'
    rw [hrun] at hplace
    simp only [addPendingAck, hentries, map_append, map_cons, count_append, count_cons] at hplace ⊢
    omega
  · simp only [addPendingAck, hentries] at he
    rcases mem_cons.mp he with rfl | he
    · exact ⟨rfl, hid⟩
    · exact h.pending e he
  · rw [hrun, perm_middle.mem_iff]
    exact mem_cons_of_mem _ hid'

theorem Sound.processAckMessage (h : Sound c) (key : AckID) : Sound (c.processAckMessage key) := by
  unfold Cache.processAckMessage
  split
  next r hlookup =>
    have hmem : key ∈ c.pendingAcks.keys := AList.lookup_isSome.mp (by rw [hlookup]; rfl)
    obtain ⟨r', l1, l2, _, hl, herase⟩ := exists_of_kerase hmem
    have hr : r' = r := by
      have hr' : c.pendingAcks.lookup key = some r' :=
        AList.mem_lookup_iff.mpr (by rw [hl]; simp)
      exact Option.some.inj (hr'.symm.trans hlookup)
    have herase : (c.pendingAcks.erase key).entries = l1 ++ l2 := herase
    refine ⟨fun x => ?_, h.nodup, fun e he => h.pending e ?_, h.running⟩
    · have hplace := h.place x
      simp only [hl, hr, herase, map_append, map_cons, count_append, count_cons] at hplace ⊢
      omega
    simp only [herase] at he
    rw [hl, perm_middle.mem_iff]
    exact mem_cons_of_mem _ he
  next => exact h

/-- **A request's callback is called at most once, and until then the request is pending under its
latest ID, on the way to be sent again, or inside `WriteRequest`.** -/
theorem Run.answered (hrun : Run c) : c.called.Nodup ∧ ∀ r ∈ c.issued, r ∉ c.called →
    (∃ id, Latest c.sent r id ∧ c.pendingAcks.lookup ⟨r.nodeID, id⟩ = some r) ∨
      r ∈ c.redolist ∨ ∃ x, (r, x) ∈ c.running := by
  have h : Sound c := by
    induction hrun with
    | start => exact ⟨fun _ => rfl, nodup_nil, nofun, nofun⟩
    | @call c _ r hnew ih =>
      refine ⟨fun r' => ?_, nodup_cons.mpr ⟨hnew, ih.nodup⟩, ih.pending, fun r' id hid => ?_⟩
      · have hplace := ih.place r'
        simp only [map_cons, count_cons]
        omega
      · exact ih.running r' id ((mem_cons.mp hid).resolve_left nofun)
    | write _ h ok ih => exact ih.write h ok
    | add _ h ih => exact ih.add h
    | response _ key ih => exact ih.processAckMessage key
    | @collect c _ old ih =>
      refine ⟨fun r => ?_, ih.nodup, fun e he => ih.pending e (mem_of_mem_filter he), ih.running⟩
      have hsplit :=
        ((filter_append_perm (fun e => old e.1) c.pendingAcks.entries).map (·.2)).count_eq r
      have hplace := ih.place r
      rw [map_append, count_append] at hsplit
      simp only [Cache.collect, count_append]
      omega
    | @redo c _ r rest h ih =>
      refine ⟨fun r' => ?_, ih.nodup, ih.pending, fun r' id hid => ?_⟩
      · have hplace := ih.place r'
        rw [h] at hplace
        simp only [map_cons, count_cons] at hplace ⊢
        omega
      · exact ih.running r' id ((mem_cons.mp hid).resolve_left nofun)
  have honce := nodup_iff_count_le_one.mp h.nodup
  refine ⟨nodup_iff_count_le_one.mpr fun r => ?_, fun r hr hcalled => ?_⟩
  · have hplace := h.place r
    have hle := honce r
    omega
  have hplace := h.place r
  rw [count_eq_zero_of_not_mem hcalled] at hplace
  have hpos := count_pos_iff.mpr hr
  by_cases hredo : r ∈ c.redolist
  · exact .inr (.inl hredo)
  by_cases hrunning : r ∈ c.running.map (·.1)
  · obtain ⟨t, ht, rfl⟩ := mem_map.mp hrunning
    exact .inr (.inr ⟨t.2, ht⟩)
  rw [count_eq_zero_of_not_mem hredo, count_eq_zero_of_not_mem hrunning] at hplace
  have hpending : 0 < (c.pendingAcks.entries.map (·.2)).count r := by omega
  obtain ⟨e, he, rfl⟩ := mem_map.mp (count_pos_iff.mp hpending)
  obtain ⟨hnode, hid⟩ := h.pending e he
  exact .inl ⟨e.1.requestID, hid, AList.mem_lookup_iff.mpr (hnode ▸ he)⟩

/-- Two requests. The first is written again after a timeout, for which one write fails; a late
response to its first ID is ignored, and the one to its last is not. The second is pending. -/
theorem answered_after_retry : ∃ c, Run c ∧ c.issued = [⟨2, 1⟩, ⟨1, 0⟩] ∧ c.called = [⟨1, 0⟩] ∧
    c.called.Nodup ∧ ((∃ id, Latest c.sent ⟨2, 1⟩ id ∧
      c.pendingAcks.lookup ⟨2, id⟩ = some ⟨2, 1⟩) ∨ ⟨2, 1⟩ ∈ c.redolist ∨
        ∃ x, (⟨2, 1⟩, x) ∈ c.running) := by
  have hwrite := (Run.start.call (r := ⟨1, 0⟩) nofun).write
    (show _ = [] ++ (_, none) :: [] from rfl) true
  have hfirst := hwrite.add (show _ = [] ++ (_, some 1) :: [] from rfl)
  have hwrite := (hfirst.call (r := ⟨2, 1⟩) (by decide)).write
    (show _ = [] ++ (_, none) :: [] from rfl) true
  have hsecond := hwrite.add (show _ = [] ++ (_, some 2) :: [] from rfl)
  have hredo := (hsecond.collect fun key => key.requestID = 1).redo (show _ = _ :: [] from rfl)
  have hwrite := (hredo.write (show _ = [] ++ (_, none) :: [] from rfl) false).write
    (show _ = [] ++ (_, none) :: [] from rfl) true
  have hretried := hwrite.add (show _ = [] ++ (_, some 4) :: [] from rfl)
  have hanswer := (hretried.response ⟨1, 1⟩).response ⟨1, 4⟩
  exact ⟨_, hanswer, rfl, rfl, hanswer.answered.1,
    hanswer.answered.2 ⟨2, 1⟩ mem_cons_self (by decide)⟩

end Cache

end Chainspace.Conns
