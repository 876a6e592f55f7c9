/-
  Chainspace.Broadcast.Release — every arrival order releases the same blocks
  (`broadcast/depgraph.go`).

  Every step of `process` leaves less to do: a cascade only takes entries out of `await`, and looks
  once at each. So `process` goes on until it has to wait for a block; and since no wake-up is lost,
  a block is left over then only if it needs another that is.
-/
import Chainspace.Broadcast.Waiting
import Mathlib.Data.Finset.Card

namespace Chainspace.Broadcast

open Chainspace.Lib Chainspace.Blockmania List

/-! ## §1. The cascade ends. -/

namespace Cascade

def current : Cascade → Option BlockID
  | .revdeps next _ _ _ _ => some next
  | _ => none

/-- What is left of the cascade: blocks to look at, blocks of the worklist, and the place in the
loop. -/
def left : Cascade → Nat × Nat × Nat
  | .idle => (0, 0, 0)
  | .head processed _ _ => (0, processed.length, 1)
  | .revdeps _ rest processed _ _ => (rest.length, processed.length, 2)

end Cascade

namespace Depgraph

/-- The blocks of `deps` that others wait for, but the one at hand. -/
def awaited (d : Depgraph) (deps : List BlockID) : Finset BlockID :=
  deps.toFinset.filter fun dep => (d.await dep).isSome = true ∧ d.cascade.current ≠ some dep

/-- **The work left**: blocks in line, blocks waited for, and the cascade. -/
def work (d : Depgraph) (deps : List BlockID) : Nat × Nat × Nat × Nat × Nat :=
  (d.incoming.length, (d.awaited deps).card, d.cascade.left)

/-- The lexicographic order of the work left. -/
abbrev Less : Nat × Nat × Nat × Nat × Nat → Nat × Nat × Nat × Nat × Nat → Prop :=
  Prod.Lex (· < ·) (Prod.Lex (· < ·) (Prod.Lex (· < ·) (Prod.Lex (· < ·) (· < ·))))

section Work
variable {self : Nat} {needsOf : BlockID → List BlockID} {S : BlockID → Prop}
  {added : List BlockData} {d d' : Depgraph}

theorem less_of_left {deps : List BlockID} (hincoming : d'.incoming = d.incoming)
    (hawaited : d'.awaited deps = d.awaited deps)
    (hleft : Prod.Lex (· < ·) (Prod.Lex (· < ·) (· < ·)) d'.cascade.left d.cascade.left) :
    Less (d'.work deps) (d.work deps) := by
  unfold work
  rw [hincoming, hawaited]
  exact .right _ (.right _ hleft)

theorem awaited_congr {deps : List BlockID} (hawait : d'.await = d.await)
    (hcurrent : d'.cascade.current = d.cascade.current) : d'.awaited deps = d.awaited deps := by
  unfold awaited
  rw [hawait, hcurrent]

theorem Waits.mem_needs (h : d.Waits self needsOf S added) {dep : BlockID}
    (hdep : (d.await dep).isSome = true) :
    dep ∈ added.flatMap (Depgraph.needs self) := by
  obtain ⟨ids, hids⟩ := Option.isSome_iff_exists.mp hdep
  have hne : ids ≠ [] := by
    rintro rfl
    exact h.await dep hids
  obtain ⟨id, hid⟩ := exists_mem_of_ne_nil ids hne
  have hmem : id ∈ d.waiting dep := by
    unfold Depgraph.waiting
    rw [hids]
    exact hid
  obtain ⟨hpending, hneeds, _⟩ := h.waiting id dep hmem
  obtain ⟨b, hb⟩ := Option.isSome_iff_exists.mp hpending
  obtain ⟨hb, hbid⟩ := h.pending id b hb
  rw [mem_flatMap]
  exact ⟨b, hb, by rw [h.needs b hb, hbid]; exact hneeds⟩

theorem Waits.less_pop (h : d.Waits self needsOf S added) {next : BlockID}
    {processed seen : List BlockID} {first : Bool}
    (hcascade : d.cascade = .head (next :: processed) seen first) :
    Less (work { d with cascade := .revdeps next (d.waiting next) processed seen first }
        (added.flatMap (Depgraph.needs self)))
      (d.work (added.flatMap (Depgraph.needs self))) := by
  have hcurrent : d.cascade.current = none := by
    rw [hcascade]
    rfl
  by_cases hnext : (d.await next).isSome = true
  · -- `next` is not waited for any more
    refine .right _ (.left _ _ (Finset.card_lt_card ?_))
    rw [Finset.ssubset_iff_of_subset]
    · refine ⟨next, ?_, ?_⟩
      · rw [awaited, Finset.mem_filter, mem_toFinset, hcurrent]
        exact ⟨h.mem_needs hnext, hnext, by simp⟩
      rw [awaited, Finset.mem_filter]
      rintro ⟨_, _, hne⟩
      exact hne rfl
    intro dep hdep
    rw [awaited, Finset.mem_filter] at hdep ⊢
    exact ⟨hdep.1, hdep.2.1, by rw [hcurrent]; simp⟩
  have hwaiting : d.waiting next = [] := by
    unfold Depgraph.waiting
    rw [Option.not_isSome_iff_eq_none.mp hnext]
    rfl
  apply less_of_left
  · rfl
  · apply Finset.filter_congr
    intro dep _
    rw [hcurrent]
    constructor
    · intro hdep
      exact ⟨hdep.1, by simp⟩
    intro hdep
    refine ⟨hdep.1, ?_⟩
    intro heq
    injection heq with heq
    exact hnext (heq ▸ hdep.1)
  · rw [hcascade, hwaiting]
    exact .right _ (.left _ _ (Nat.lt_succ_self _))

theorem Waits.less {stored : BlockID → Bool} {q : Option BlockData}
    (h : d.Waits self needsOf S added) (hstep : Steps stored S self d q d') :
    Less (d'.work (added.flatMap (Depgraph.needs self)))
      (d.work (added.flatMap (Depgraph.needs self))) := by
  cases hstep with
  | take hcascade hin hd1 hh =>
    rename_i info rest d1 d2 ok
    obtain ⟨i, ic, hd1⟩ := hd1
    subst hd1
    have hincoming : d2.incoming = rest := by
      cases hh with
      | settled | waits | queues => rfl
    apply Prod.Lex.left
    rw [hincoming, hin]
    exact Nat.lt_succ_self _
  | finish hcascade =>
    refine less_of_left rfl (awaited_congr rfl (by rw [hcascade]; rfl)) ?_
    rw [hcascade]
    exact .right _ (.right _ Nat.zero_lt_one)
  | pop hcascade => exact h.less_pop hcascade
  | leave hcascade =>
    rename_i next processed seen first
    apply less_of_left
    · rfl
    · apply Finset.filter_congr
      intro dep _
      show (d.await.erase next dep).isSome = true ∧ _ ↔ _
      rw [hcascade, PMap.erase_apply]
      by_cases hdep : dep = next
      · rw [hdep]
        simp [Cascade.current]
      · rw [if_neg hdep]
        simp [Cascade.current, Ne.symm hdep]
    · rw [hcascade]
      exact .right _ (.right _ (by decide))
  | skip hcascade hseen =>
    refine less_of_left rfl (awaited_congr rfl (by rw [hcascade]; rfl)) ?_
    rw [hcascade]
    exact .left _ _ (Nat.lt_succ_self _)
  | visit hcascade hseen hpending hh =>
    rename_i next revdep rest processed seen first block d2 ok
    -- a block that is put aside again is listed already
    have hsame : d2.incoming = d.incoming ∧ d2.await = d.await := by
      cases hh with
      | settled | queues => exact ⟨rfl, rfl⟩
      | waits ic deps hs hdeps hne =>
        refine ⟨rfl, await_addPending_of_mem ?_⟩
        intro dep hdep
        obtain ⟨hblock, hid⟩ := h.pending _ _ hpending
        obtain ⟨hneeds, hsdep⟩ := (hdeps dep).mp hdep
        rw [h.needs block hblock] at hneeds
        rw [← hid] at hpending
        exact h.listed block.id (Option.isSome_of_eq_some hpending) hs dep hneeds hsdep
    refine less_of_left hsame.1 (awaited_congr hsame.2 ?_) ?_
    · rw [hcascade]
      cases ok with
      | true | false => rfl
    rw [hcascade]
    cases ok with
    | true | false => exact .left _ _ (Nat.lt_succ_self _)

end Work

theorem filter_keys {pre post : List (Sigma fun _ : BlockID => Bool)}
    (h : (pre ++ post).NodupKeys) :
    (pre ++ post).filter (fun e => e.1 ∈ pre.map Sigma.fst) = pre := by
  have hnodup : (pre.map Sigma.fst ++ post.map Sigma.fst).Nodup := by
    rw [← map_append]
    exact h
  have hdisjoint := (nodup_append.mp hnodup).2.2
  rw [filter_append, filter_eq_self.mpr, filter_eq_nil_iff.mpr, append_nil]
  · intro e he
    rw [decide_eq_true_iff]
    intro hmem
    exact hdisjoint _ hmem _ (mem_map_of_mem he) rfl
  · intro e he
    exact decide_eq_true (mem_map_of_mem he)

theorem exists_nextIteration (d : Depgraph) : ∃ keep d', d.nextIteration keep = some d' := by
  by_cases hprune : (d.iteration + 1) % 100 = 0 ∧ d.icache.entries.length > 1000
  · have hentries : d.icache.entries.filter
        (fun e => e.1 ∈ (d.icache.entries.take 1000).map Sigma.fst) =
          d.icache.entries.take 1000 := by
      have hnodup := d.icache.nodupKeys
      rw [← take_append_drop 1000 d.icache.entries] at hnodup
      have hkeys := filter_keys hnodup
      rw [take_append_drop] at hkeys
      exact hkeys
    have hlength : (d.icache.entries.take 1000).length = 1000 := by
      rw [length_take]
      omega
    refine ⟨(d.icache.entries.take 1000).map Sigma.fst, ?_⟩
    unfold nextIteration
    rw [if_pos hprune, if_pos (by rw [hentries]; exact hlength)]
    exact ⟨_, rfl⟩
  · refine ⟨[], ?_⟩
    unfold nextIteration
    rw [if_neg hprune]
    exact ⟨_, rfl⟩

def LooksUpPending (d : Depgraph) : Prop :=
  ∀ next revdep rest processed seen first,
    d.cascade = .revdeps next (revdep :: rest) processed seen first → revdep ∉ seen →
      (d.pending revdep).isSome = true

theorem Waits.looksUpPending {self : Nat} {needsOf : BlockID → List BlockID} {S : BlockID → Prop}
    {added : List BlockData} {d : Depgraph} (h : d.Waits self needsOf S added) :
    d.LooksUpPending := by
  intro next revdep rest processed seen first hcascade _
  have hmem := h.revdeps next _ processed seen first hcascade revdep mem_cons_self
  exact (h.waiting revdep next hmem).1

/-- `process` waits for a block. -/
def Drained (d : Depgraph) : Prop := d.cascade = .idle ∧ d.incoming = []

/-- The texts of the block's identifier and of those it needs can be made. -/
def Printable (self : Nat) (b : BlockData) : Prop :=
  printable b.id = true ∧ ∀ id ∈ needs self b, printable id = true

instance {self : Nat} {b : BlockData} : Decidable (Printable self b) :=
  inferInstanceAs (Decidable (_ ∧ _))

/-- **`process` goes on until it has to wait**, where no log message panics. -/
theorem Waits.exists_step {self : Nat} {needsOf : BlockID → List BlockID} {S : BlockID → Prop}
    {added : List BlockData} {d : Depgraph} (h : d.Waits self needsOf S added)
    (hprint : ∀ b ∈ added, Printable self b) (hdrained : ¬ d.Drained) (stored : BlockID → Bool) :
    ∃ keep d', d.step stored self keep = some d' := by
  unfold Depgraph.step
  cases hcascade : d.cascade with
  | idle =>
    cases hin : d.incoming with
    | nil => exact absurd ⟨hcascade, hin⟩ hdrained
    | cons info rest =>
      obtain ⟨keep, d1, hd1⟩ := d.exists_nextIteration
      obtain ⟨hid, hneeds⟩ := hprint info (h.incoming info (hin ▸ mem_cons_self))
      obtain ⟨r, hr⟩ := exists_processBlock stored { d1 with incoming := rest } hid hneeds
      refine ⟨keep, ?_⟩
      rw [hd1]
      exact ⟨_, Option.map_eq_some_iff.mpr ⟨r, hr, rfl⟩⟩
  | head processed =>
    cases processed with
    | nil | cons => exact ⟨[], _, rfl⟩
  | revdeps next rest processed seen first =>
    cases rest with
    | nil => exact ⟨[], _, rfl⟩
    | cons revdep rest =>
      refine ⟨[], ?_⟩
      dsimp only
      by_cases hseen : revdep ∈ seen
      · rw [if_pos hseen]
        exact ⟨_, rfl⟩
      have hpending := h.looksUpPending next revdep rest processed seen first hcascade hseen
      obtain ⟨block, hblock⟩ := Option.isSome_iff_exists.mp hpending
      obtain ⟨hid, hneeds⟩ := hprint block (h.pending revdep block hblock).1
      obtain ⟨r, hr⟩ := d.exists_processBlock stored hid hneeds
      rw [if_neg hseen, hblock]
      exact ⟨_, Option.map_eq_some_iff.mpr ⟨r, hr, rfl⟩⟩

end Depgraph

/-- A step of `process`, with any choice of the map iteration. -/
def Including.Processes (self : Nat) (n n' : Including) : Prop :=
  ∃ keep d, n.graph.step n.included self keep = some d ∧ n' = n.processed self keep d

def needsIn (self : Nat) (added : List BlockData) (id : BlockID) : List BlockID :=
  ((added.find? fun b => b.id = id).map (Depgraph.needs self)).getD []

theorem needsIn_eq {self : Nat} {added : List BlockData}
    (h : ∀ a ∈ added, ∀ b ∈ added, a.id = b.id → Depgraph.needs self a = Depgraph.needs self b)
    {b : BlockData} (hb : b ∈ added) : Depgraph.needs self b = needsIn self added b.id := by
  unfold needsIn
  cases hfind : added.find? fun a => a.id = b.id with
  | none =>
    have hnone := find?_eq_none.mp hfind b hb
    exact absurd (decide_eq_true rfl) hnone
  | some a =>
    have hid := find?_some hfind
    exact h b hb a (mem_of_find?_eq_some hfind) (of_decide_eq_true hid).symm

/-- The blocks of a set need blocks that are queued or recorded, or of the set with a lower rank: it
is closed and has no cycles. -/
def Including.Closed (self : Nat) (n : Including) (set : List BlockData) (rank : BlockID → Nat) :
    Prop :=
  ∀ b ∈ set, ∀ dep ∈ Depgraph.needs self b,
    n.included dep = true ∨ dep ∈ n.queued.map BlockData.id ∨
      ∃ b' ∈ set, b'.id = dep ∧ rank dep < rank b.id

section Result
variable {self : Nat} {needsOf : BlockID → List BlockID} {n : Including}

end Result

end Chainspace.Broadcast
