/-
  Chainspace.Broadcast.Waiting — no wake-up of the dependency graph is lost
  (`broadcast/depgraph.go`).

  A block that cannot be included yet is put into `pending`, and into `await` under each block it
  still needs. When a block is included, `process` looks again at those that waited for it: it goes
  through a worklist, skips blocks it has `seen` since the last success, and deletes entries of both
  maps. What makes this safe:
    • a block that waits for another is in `pending`, and stays there until nothing lists it;
    • a block that is not settled is listed under every block it needs that is not settled;
    • a block whose needs are all settled is still to be looked at.
-/
import Chainspace.Broadcast.Once

namespace Chainspace.Broadcast

open Chainspace.Lib Chainspace.Blockmania List

/-! ## §1. The worklist. -/

namespace Cascade

/-- The blocks whose dependents are still to be looked at, with the one at hand. -/
def worklist : Cascade → List BlockID
  | .idle => []
  | .head processed _ _ => processed
  | .revdeps next _ processed _ _ => next :: processed

/-- The blocks that were looked at in vain since the last success. -/
def seen : Cascade → List BlockID
  | .idle => []
  | .head _ seen _ => seen
  | .revdeps _ _ _ seen _ => seen

/-- The first block of the worklist while `first` is set: it stays in `pending`. -/
def first : Cascade → Option BlockID
  | .head (next :: _) _ true => some next
  | .revdeps next _ _ _ true => some next
  | _ => none

theorem mem_of_first {cascade : Cascade} {id : BlockID} (h : cascade.first = some id) :
    id ∈ cascade.worklist := by
  unfold first at h
  split at h
  · cases h
    exact mem_cons_self
  · cases h
    exact mem_cons_self
  · cases h

end Cascade

namespace Depgraph

def waiting (d : Depgraph) (dep : BlockID) : List BlockID := (d.await dep).getD []

def Due (d : Depgraph) (id : BlockID) : Prop :=
  match d.cascade with
  | .idle => False
  | .head processed _ _ => ∃ dep ∈ processed, id ∈ d.waiting dep
  | .revdeps next rest processed _ _ =>
    id ∈ rest ∨ ∃ dep ∈ processed, dep ≠ next ∧ id ∈ d.waiting dep

theorem Due.mono {d d' : Depgraph} {id : BlockID} (h : d.Due id) (hcascade : d'.cascade = d.cascade)
    (hgrow : ∀ dep, id ∈ d.waiting dep → id ∈ d'.waiting dep) : d'.Due id := by
  unfold Due at h ⊢
  rw [hcascade]
  generalize d.cascade = cascade at h ⊢
  cases cascade with
  | idle => exact h
  | head =>
    obtain ⟨dep, hdep, hmem⟩ := h
    exact ⟨dep, hdep, hgrow dep hmem⟩
  | revdeps =>
    refine h.imp_right ?_
    rintro ⟨dep, hdep, hne, hmem⟩
    exact ⟨dep, hdep, hne, hgrow dep hmem⟩

/-! ## §2. `addPending`. -/

section AddPending
variable {await : PMap BlockID (List BlockID)} {id : BlockID}

theorem awaitOne_eq (dep : BlockID) : awaitOne id await dep = if id ∈ (await dep).getD [] then await
      else await.set dep ((await dep).getD [] ++ [id]) := by
  unfold awaitOne
  cases await dep with
  | none | some => rfl

theorem mem_awaitOne (dep k x : BlockID) :
    x ∈ (awaitOne id await dep k).getD [] ↔ x ∈ (await k).getD [] ∨ x = id ∧ k = dep := by
  rw [awaitOne_eq]
  split
  next hmem =>
    constructor
    · exact .inl
    intro h
    rcases h with h | ⟨hx, hk⟩
    · exact h
    · rw [hk, hx]
      exact hmem
  by_cases hk : k = dep
  · subst hk
    simp
  · simp [hk]

theorem awaitOne_ne_nil {dep : BlockID} (h : ∀ k, await k ≠ some []) (k : BlockID) :
    awaitOne id await dep k ≠ some [] := by
  rw [awaitOne_eq]
  split
  · exact h k
  by_cases hk : k = dep
  · rw [hk]
    simp
  · rw [PMap.set_ne _ _ hk]
    exact h k

variable {d : Depgraph} {block : BlockData} {deps : List BlockID}

theorem mem_waiting_addPending (dep x : BlockID) : x ∈ (d.addPending block deps).waiting dep ↔
      x ∈ d.waiting dep ∨ x = block.id ∧ dep ∈ deps := by
  show x ∈ (deps.foldl (awaitOne block.id) d.await dep).getD [] ↔ x ∈ (d.await dep).getD [] ∨ _
  generalize d.await = await
  induction deps generalizing await with
  | nil => simp
  | cons k deps ih =>
    show x ∈ (deps.foldl (awaitOne block.id) (awaitOne block.id await k) dep).getD [] ↔ _
    rw [ih, mem_awaitOne, mem_cons]
    tauto

theorem addPending_ne_nil (h : ∀ dep, d.await dep ≠ some []) (dep : BlockID) :
    (d.addPending block deps).await dep ≠ some [] := by
  show deps.foldl (awaitOne block.id) d.await dep ≠ some []
  generalize d.await = await at h
  induction deps generalizing await with
  | nil => exact h dep
  | cons k deps ih => exact ih _ (awaitOne_ne_nil h)

theorem await_addPending_of_mem (h : ∀ dep ∈ deps, block.id ∈ d.waiting dep) :
    (d.addPending block deps).await = d.await := by
  show deps.foldl (awaitOne block.id) d.await = d.await
  unfold waiting at h
  generalize d.await = await at h
  induction deps with
  | nil => rfl
  | cons k deps ih =>
    show deps.foldl (awaitOne block.id) (awaitOne block.id await k) = await
    rw [awaitOne_eq, if_pos (h k mem_cons_self)]
    exact ih fun dep hdep => h dep (mem_cons_of_mem k hdep)

end AddPending

/-! ## §3. The invariant. -/

/-- **No wake-up is lost.** `S` are the settled blocks, `added` those given to the graph; `needsOf`
tells what a block needs. -/
structure Waits (nodeID : Nat) (needsOf : BlockID → List BlockID) (S : BlockID → Prop)
    (added : List BlockData) (d : Depgraph) : Prop where
  incoming : ∀ b ∈ d.incoming, b ∈ added
  needs : ∀ b ∈ added, needs nodeID b = needsOf b.id
  /-- no block is forgotten -/
  kept : ∀ b ∈ added, b ∈ d.incoming ∨ S b.id ∨ (d.pending b.id).isSome = true
  pending : ∀ id b, d.pending id = some b → b ∈ added ∧ b.id = id
  /-- a settled block is pending only until its turn in the worklist -/
  settled : ∀ id, (d.pending id).isSome = true → S id → id ∈ d.cascade.worklist
  listed : ∀ id, (d.pending id).isSome = true → ¬ S id →
    ∀ dep ∈ needsOf id, ¬ S dep → id ∈ d.waiting dep
  waiting : ∀ id dep, id ∈ d.waiting dep →
    (d.pending id).isSome = true ∧ dep ∈ needsOf id ∧ (S dep → dep ∈ d.cascade.worklist)
  await : ∀ dep, d.await dep ≠ some []
  worklist : ∀ id ∈ d.cascade.worklist, S id
  /-- a block of the worklist waits only for blocks ahead of it -/
  ahead : ∀ pre id post, d.cascade.worklist = pre ++ id :: post →
    ∀ dep, id ∈ d.waiting dep → dep ∈ pre
  due : ∀ id, (d.pending id).isSome = true → ¬ S id → (∃ dep ∈ needsOf id, ¬ S dep) ∨ d.Due id
  seen : ∀ id ∈ d.cascade.seen, S id ∨ ∃ dep ∈ needsOf id, ¬ S dep
  first : ∀ id, d.cascade.first = some id → d.pending id = none
  revdeps : ∀ next rest processed seen first,
    d.cascade = .revdeps next rest processed seen first → ∀ id ∈ rest, id ∈ d.waiting next

section Waits
variable {self : Nat} {needsOf : BlockID → List BlockID} {S S' : BlockID → Prop}
  {added : List BlockData} {d d' : Depgraph}

theorem Waits.congr (h : d.Waits self needsOf S added) (hS : ∀ id, S' id ↔ S id)
    (hawait : d'.await = d.await) (hpending : d'.pending = d.pending)
    (hincoming : d'.incoming = d.incoming) (hcascade : d'.cascade = d.cascade) :
    d'.Waits self needsOf S' added := by
  have heq : S' = S := funext fun id => propext (hS id)
  obtain ⟨await, blocks, icache, incoming, pending, tcache, iteration, cascade⟩ := d'
  obtain ⟨rfl, rfl, rfl, rfl, rfl⟩ : S' = S ∧ await = d.await ∧ pending = d.pending ∧
    incoming = d.incoming ∧ cascade = d.cascade := ⟨heq, hawait, hpending, hincoming, hcascade⟩
  exact ⟨h.incoming, h.needs, h.kept, h.pending, h.settled, h.listed, h.waiting, h.await,
    h.worklist, h.ahead, h.due, h.seen, h.first, h.revdeps⟩

theorem Waits.not_pending (h : d.Waits self needsOf S added) (hidle : d.cascade = .idle)
    {id : BlockID} (hid : S id ∨ ∀ dep ∈ needsOf id, S dep) : d.pending id = none := by
  rw [← Option.not_isSome_iff_eq_none]
  intro hsome
  by_cases hs : S id
  · have hmem := h.settled id hsome hs
    rw [hidle] at hmem
    cases hmem
  rcases h.due id hsome hs with ⟨dep, hdep, hunsettled⟩ | hdue
  · exact hunsettled (hid.resolve_left hs dep hdep)
  unfold Due at hdue
  rw [hidle] at hdue
  exact hdue

theorem Waits.addPending (h : d.Waits self needsOf S added) {block : BlockData}
    (hblock : block ∈ added) (hunsettled : ¬ S block.id) {deps : List BlockID}
    (hdeps : ∀ id, id ∈ deps ↔ id ∈ Depgraph.needs self block ∧ ¬ S id) (hne : deps ≠ []) :
    (d.addPending block deps).Waits self needsOf S added := by
  have hneeds := h.needs block hblock
  obtain ⟨dep0, hdep0⟩ := exists_mem_of_ne_nil deps hne
  have hmissing : ∃ dep ∈ needsOf block.id, ¬ S dep :=
    ⟨dep0, hneeds ▸ ((hdeps dep0).mp hdep0).1, ((hdeps dep0).mp hdep0).2⟩
  have hpending : ∀ {id}, (d.pending id).isSome = true →
      ((d.addPending block deps).pending id).isSome = true := by
    intro id hid
    show (d.pending.set block.id block id).isSome = true
    rw [PMap.set_apply]
    split
    · rfl
    · exact hid
  -- nothing is pending now but the block and what was pending before
  have hback : ∀ {id}, ((d.addPending block deps).pending id).isSome = true →
      id = block.id ∨ (d.pending id).isSome = true := by
    intro id hid
    have hid : (d.pending.set block.id block id).isSome = true := hid
    rw [PMap.set_apply] at hid
    split at hid
    next heq => exact .inl heq
    · exact .inr hid
  have hgrow : ∀ {id dep}, id ∈ d.waiting dep → id ∈ (d.addPending block deps).waiting dep :=
    fun hid => (mem_waiting_addPending _ _).mpr (.inl hid)
  refine ⟨h.incoming, h.needs, ?_, ?_, ?_, ?_, ?_, addPending_ne_nil h.await, h.worklist, ?_, ?_,
    h.seen, ?_, ?_⟩
  · intro b hb
    exact (h.kept b hb).imp_right (Or.imp_right hpending)
  · intro id b hb
    rcases PMap.of_set hb with ⟨heq, hb⟩ | ⟨_, hb⟩
    · subst hb
      exact ⟨hblock, heq.symm⟩
    · exact h.pending id b hb
  · intro id hid hs
    rcases hback hid with heq | hid
    · exact absurd (heq ▸ hs) hunsettled
    · exact h.settled id hid hs
  · intro id hid hs dep hdep hsdep
    rcases hback hid with heq | hid
    · subst heq
      exact (mem_waiting_addPending _ _).mpr (.inr ⟨rfl, (hdeps dep).mpr ⟨hneeds ▸ hdep, hsdep⟩⟩)
    · exact hgrow (h.listed id hid hs dep hdep hsdep)
  · intro id dep hmem
    rcases (mem_waiting_addPending _ _).mp hmem with hmem | ⟨heq, hdep⟩
    · obtain ⟨hid, hdep, hwork⟩ := h.waiting id dep hmem
      exact ⟨hpending hid, hdep, hwork⟩
    subst heq
    obtain ⟨hdep, hsdep⟩ := (hdeps dep).mp hdep
    refine ⟨?_, hneeds ▸ hdep, fun hs => absurd hs hsdep⟩
    show (d.pending.set block.id block block.id).isSome = true
    rw [PMap.set_self]
    rfl
  · intro pre id post hsplit dep hmem
    rcases (mem_waiting_addPending _ _).mp hmem with hmem | ⟨heq, _⟩
    · exact h.ahead pre id post hsplit dep hmem
    have hwork : d.cascade.worklist = pre ++ id :: post := hsplit
    have hs : S id := h.worklist id (by rw [hwork]; simp)
    exact absurd (heq ▸ hs) hunsettled
  · intro id hid hs
    rcases hback hid with heq | hid
    · exact .inl (heq ▸ hmissing)
    · exact (h.due id hid hs).imp_right fun hdue => hdue.mono rfl fun _ => hgrow
  · intro id hid
    -- the first block is settled, so it is not the one that waits
    have hnone := h.first id hid
    show d.pending.set block.id block id = none
    have hs : S id := h.worklist id (Cascade.mem_of_first hid)
    rw [PMap.set_ne]
    · exact hnone
    · rintro rfl
      exact hunsettled hs
  · intro next rest processed seen first hcascade id hid
    exact hgrow (h.revdeps next rest processed seen first hcascade id hid)

variable {first : Bool} {next : BlockID} {processed seen : List BlockID}

section
variable (h : d.Waits self needsOf S added)
include h

theorem Waits.pass {revdep : BlockID} {rest seen' : List BlockID}
    (hcascade : d.cascade = .revdeps next (revdep :: rest) processed seen first)
    (hrevdep : S revdep ∨ ∃ dep ∈ needsOf revdep, ¬ S dep)
    (hseen : ∀ id ∈ seen', id = revdep ∨ id ∈ seen) :
    Waits self needsOf S added { d with
      cascade := .revdeps next rest processed seen' first } := by
  cases d
  subst hcascade
  refine ⟨h.incoming, h.needs, h.kept, h.pending, h.settled, h.listed, h.waiting, h.await,
    h.worklist, h.ahead, ?_, ?_, ?_, ?_⟩
  · intro id hid hs
    rcases h.due id hid hs with hmissing | hdue
    · exact .inl hmissing
    rcases hdue with hmem | hlater
    · rcases mem_cons.mp hmem with heq | hmem
      · subst heq
        exact .inl (hrevdep.resolve_left hs)
      · exact .inr (.inl hmem)
    · exact .inr (.inr hlater)
  · intro id hid
    rcases hseen id hid with heq | hid
    · exact heq ▸ hrevdep
    · exact h.seen id hid
  · intro id hid
    exact h.first id (by cases first <;> exact hid)
  · intro next' rest' processed' seen'' first' heq id hid
    cases heq
    exact h.revdeps next (revdep :: rest) processed seen first rfl id (mem_cons_of_mem _ hid)

/-- **A block the cascade looks at is settled**: it joins the worklist, and the blocks that lack
nothing else are due. -/
theorem Waits.visit {revdep : BlockID} {rest : List BlockID}
    (hcascade : d.cascade = .revdeps next (revdep :: rest) processed seen first)
    (hrevdep : S revdep ∨ ∀ dep ∈ needsOf revdep, S dep) :
    Waits self needsOf (fun id => S id ∨ id = revdep) added { d with
      cascade := .revdeps next rest (processed ++ [revdep]) [] first } := by
  cases d
  subst hcascade
  have hgrow : ∀ id ∈ next :: processed, id ∈ next :: (processed ++ [revdep]) := by
    intro id hid
    exact mem_append_left _ hid
  have hlast : revdep ∈ next :: (processed ++ [revdep]) :=
    mem_cons_of_mem _ (mem_append_right _ (mem_singleton_self _))
  refine ⟨h.incoming, h.needs, ?_, h.pending, ?_, ?_, ?_, h.await, ?_, ?_, ?_, ?_, ?_, ?_⟩
  · intro b hb
    exact (h.kept b hb).imp_right (Or.imp_left .inl)
  · intro id hid hs
    rcases hs with hs | heq
    · exact hgrow id (h.settled id hid hs)
    · exact heq ▸ hlast
  · intro id hid hs dep hdep hsdep
    exact h.listed id hid (fun hs' => hs (.inl hs')) dep hdep fun hs' => hsdep (.inl hs')
  · intro id dep hmem
    obtain ⟨hid, hdep, hwork⟩ := h.waiting id dep hmem
    refine ⟨hid, hdep, ?_⟩
    intro hs
    rcases hs with hs | heq
    · exact hgrow dep (hwork hs)
    · exact heq ▸ hlast
  · intro id hid
    rw [Cascade.worklist, ← cons_append] at hid
    rcases mem_append.mp hid with hid | hid
    · exact .inl (h.worklist id hid)
    · exact .inr (mem_singleton.mp hid)
  · intro pre id post hsplit dep hmem
    have hsplit : (next :: processed) ++ [revdep] = pre ++ id :: post := hsplit
    rcases eq_nil_or_concat post with hpost | ⟨post', last, hpost⟩
    · -- the new last block: all it waits for is settled and in the worklist
      subst hpost
      obtain ⟨hpre, hid⟩ := append_inj' hsplit rfl
      injection hid with hid
      subst hpre hid
      by_cases hs : S revdep
      · have hwork := h.settled revdep (h.waiting revdep dep hmem).1 hs
        obtain ⟨before, after, hwork⟩ := append_of_mem hwork
        have hbefore := h.ahead before revdep after hwork dep hmem
        have hwork : next :: processed = before ++ revdep :: after := hwork
        rw [hwork]
        exact mem_append_left _ hbefore
      · obtain ⟨_, hdep, hwork⟩ := h.waiting revdep dep hmem
        exact hwork (hrevdep.resolve_left hs dep hdep)
    subst hpost
    have hsplit : (next :: processed) ++ [revdep] = (pre ++ id :: post') ++ [last] := by
      rw [hsplit, concat_eq_append, append_assoc, cons_append]
    obtain ⟨hpre, _⟩ := append_inj' hsplit rfl
    exact h.ahead pre id post' hpre dep hmem
  · intro id hid hs
    have hs' : ¬ S id := fun hs' => hs (.inl hs')
    rcases h.due id hid hs' with ⟨dep, hdep, hsdep⟩ | hdue
    · by_cases heq : dep = revdep
      · -- the block has waited for `revdep` alone, perhaps
        subst heq
        have hnext : dep ≠ next := by
          rintro rfl
          exact hsdep (h.worklist dep mem_cons_self)
        exact .inr (.inr ⟨dep, mem_append_right _ (mem_singleton_self _), hnext,
          h.listed id hid hs' dep hdep hsdep⟩)
      · exact .inl ⟨dep, hdep, fun hor => hor.elim hsdep heq⟩
    rcases hdue with hmem | ⟨dep, hdep, hne, hmem⟩
    · rcases mem_cons.mp hmem with heq | hmem
      · exact absurd (.inr heq) hs
      · exact .inr (.inl hmem)
    · exact .inr (.inr ⟨dep, mem_append_left _ hdep, hne, hmem⟩)
  · intro id hid
    cases hid
  · intro id hid
    exact h.first id (by cases first <;> exact hid)
  · intro next' rest' processed' seen' first' heq id hid
    cases heq
    exact h.revdeps next (revdep :: rest) processed seen first rfl id (mem_cons_of_mem _ hid)

/-- A block taken from `in` is settled now, if not before: a cascade begins. -/
theorem Waits.begin (hidle : d.cascade = .idle)
    {info : BlockData} {rest : List BlockData} (hin : d.incoming = info :: rest)
    (hinfo : S info.id ∨ ∀ dep ∈ needsOf info.id, S dep) :
    Waits self needsOf (fun id => S id ∨ id = info.id) added { d with
      incoming := rest
      cascade := .head [info.id] [info.id] true } := by
  have hnone := h.not_pending hidle hinfo
  cases d
  subst hidle hin
  refine ⟨?_, h.needs, ?_, h.pending, ?_, ?_, ?_, h.await, ?_, ?_, ?_, ?_, ?_, ?_⟩
  · intro b hb
    exact h.incoming b (mem_cons_of_mem info hb)
  · intro b hb
    rcases h.kept b hb with hmem | hkept
    · rcases mem_cons.mp hmem with heq | hmem
      · exact .inr (.inl (.inr (heq ▸ rfl)))
      · exact .inl hmem
    · exact .inr (hkept.imp_left .inl)
  · intro id hid hs
    rcases hs with hs | heq
    · exact absurd (h.settled id hid hs) not_mem_nil
    · exact mem_singleton.mpr heq
  · intro id hid hs dep hdep hsdep
    exact h.listed id hid (fun hs' => hs (.inl hs')) dep hdep fun hs' => hsdep (.inl hs')
  · intro id dep hmem
    obtain ⟨hid, hdep, hwork⟩ := h.waiting id dep hmem
    refine ⟨hid, hdep, ?_⟩
    intro hs
    rcases hs with hs | heq
    · exact absurd (hwork hs) not_mem_nil
    · exact mem_singleton.mpr heq
  · intro id hid
    exact .inr (mem_singleton.mp hid)
  · intro pre id post hsplit dep hmem
    have hid : id ∈ [info.id] := by
      have hsplit : [info.id] = pre ++ id :: post := hsplit
      rw [hsplit]
      simp
    have hpending := (h.waiting id dep hmem).1
    rw [mem_singleton.mp hid, hnone] at hpending
    cases hpending
  · intro id hid hs
    have hs' : ¬ S id := fun hs' => hs (.inl hs')
    rcases h.due id hid hs' with ⟨dep, hdep, hsdep⟩ | hdue
    · by_cases heq : dep = info.id
      · subst heq
        exact .inr ⟨info.id, mem_singleton_self _, h.listed id hid hs' _ hdep hsdep⟩
      · exact .inl ⟨dep, hdep, fun hor => hor.elim hsdep heq⟩
    · exact hdue.elim
  · intro id hid
    exact .inl (.inr (mem_singleton.mp hid))
  · intro id hid
    cases hid
    exact hnone
  · intro next rest' processed seen first heq
    cases heq

theorem Waits.drop {info : BlockData} {rest : List BlockData}
    (hin : d.incoming = info :: rest) (hinfo : (d.pending info.id).isSome = true) :
    Waits self needsOf S added { d with incoming := rest } := by
  cases d
  subst hin
  refine ⟨?_, h.needs, ?_, h.pending, h.settled, h.listed, h.waiting, h.await, h.worklist, h.ahead,
    h.due, h.seen, h.first, h.revdeps⟩
  · intro b hb
    exact h.incoming b (mem_cons_of_mem info hb)
  intro b hb
  rcases h.kept b hb with hmem | hkept
  · rcases mem_cons.mp hmem with heq | hmem
    · exact .inr (.inr (heq ▸ hinfo))
    · exact .inl hmem
  · exact .inr hkept

theorem Waits.finish (hcascade : d.cascade = .head [] seen first) :
    Waits self needsOf S added { d with cascade := .idle } := by
  cases d
  subst hcascade
  refine ⟨h.incoming, h.needs, h.kept, h.pending, h.settled, h.listed, h.waiting, h.await,
    h.worklist, h.ahead, ?_, ?_, ?_, ?_⟩
  · intro id hid hs
    refine (h.due id hid hs).imp_right ?_
    rintro ⟨dep, hdep, _⟩
    cases hdep
  · intro id hid
    cases hid
  · intro id hid
    exact absurd hid (by simp [Cascade.first])
  · intro next rest processed seen' first' heq
    cases heq

theorem Waits.pop (hcascade : d.cascade = .head (next :: processed) seen first) :
    Waits self needsOf S added { d with
      cascade := .revdeps next (d.waiting next) processed seen first } := by
  cases d
  subst hcascade
  refine ⟨h.incoming, h.needs, h.kept, h.pending, h.settled, h.listed, h.waiting, h.await,
    h.worklist, h.ahead, ?_, h.seen, ?_, ?_⟩
  · intro id hid hs
    refine (h.due id hid hs).imp_right ?_
    rintro ⟨dep, hdep, hmem⟩
    by_cases heq : dep = next
    · exact .inl (heq ▸ hmem)
    · exact .inr ⟨dep, (mem_cons.mp hdep).resolve_left heq, heq, hmem⟩
  · intro id hid
    exact h.first id (by cases first <;> exact hid)
  intro next' rest' processed' seen' first' heq id hid
  cases heq
  exact hid

/-- **The entries of a block of the worklist are deleted**: nothing lists it, and all that waited
for it were looked at. -/
theorem Waits.leave (hcascade : d.cascade = .revdeps next [] processed seen first) :
    Waits self needsOf S added { d with
      await := d.await.erase next
      cascade := .head processed seen false
      pending := if first then d.pending else d.pending.erase next } := by
  have hwaiting : ∀ {id dep}, id ∈ ((d.await.erase next) dep).getD [] →
      dep ≠ next ∧ id ∈ d.waiting dep := by
    intro id dep hmem
    rw [PMap.erase_apply] at hmem
    split at hmem
    · cases hmem
    · exact ⟨‹_›, hmem⟩
  have hkeep : ∀ {id dep}, dep ≠ next → id ∈ d.waiting dep →
      id ∈ ((d.await.erase next) dep).getD [] := by
    intro id dep hne hmem
    rw [PMap.erase_apply, if_neg hne]
    exact hmem
  have hnext : S next := h.worklist next (by rw [hcascade]; exact mem_cons_self)
  -- what is still pending is another block
  have hpending : ∀ {id b}, (if first then d.pending else d.pending.erase next) id = some b →
      id ≠ next ∧ d.pending id = some b := by
    intro id b hb
    cases first with
    | true =>
      refine ⟨?_, hb⟩
      rintro rfl
      have hnone := h.first id (by rw [hcascade]; rfl)
      have hb : d.pending id = some b := hb
      rw [hnone] at hb
      cases hb
    | false =>
      have hb : d.pending.erase next id = some b := hb
      refine ⟨?_, PMap.of_erase hb⟩
      rintro rfl
      simp at hb
  have hsome : ∀ {id}, ((if first then d.pending else d.pending.erase next) id).isSome = true →
      id ≠ next ∧ (d.pending id).isSome = true := by
    intro id hid
    obtain ⟨b, hb⟩ := Option.isSome_iff_exists.mp hid
    obtain ⟨hne, hb⟩ := hpending hb
    exact ⟨hne, Option.isSome_of_eq_some hb⟩
  have hstays : ∀ {id}, id ≠ next → (d.pending id).isSome = true →
      ((if first then d.pending else d.pending.erase next) id).isSome = true := by
    intro id hne hid
    cases first with
    | true => exact hid
    | false =>
      show (d.pending.erase next id).isSome = true
      rw [PMap.erase_apply, if_neg hne]
      exact hid
  obtain ⟨await, blocks, icache, incoming, pending, tcache, iteration, cascade⟩ := d
  subst hcascade
  refine ⟨h.incoming, h.needs, ?_, ?_, ?_, ?_, ?_, ?_, ?_, ?_, ?_, h.seen, ?_, ?_⟩
  · intro b hb
    refine (h.kept b hb).imp_right ?_
    intro hkept
    by_cases heq : b.id = next
    · exact .inl (heq ▸ hnext)
    · exact hkept.imp_right (hstays heq)
  · intro id b hb
    exact h.pending id b (hpending hb).2
  · intro id hid hs
    obtain ⟨hne, hid⟩ := hsome hid
    exact (mem_cons.mp (h.settled id hid hs)).resolve_left hne
  · intro id hid hs dep hdep hsdep
    have hne : dep ≠ next := by
      rintro rfl
      exact hsdep hnext
    exact hkeep hne (h.listed id (hsome hid).2 hs dep hdep hsdep)
  · intro id dep hmem
    obtain ⟨hne, hmem⟩ := hwaiting hmem
    obtain ⟨hid, hdep, hwork⟩ := h.waiting id dep hmem
    refine ⟨hstays ?_ hid, hdep, ?_⟩
    · -- `next` is first in the worklist, so it waits for nothing
      rintro rfl
      exact absurd (h.ahead [] id processed rfl dep hmem) not_mem_nil
    · intro hs
      exact (mem_cons.mp (hwork hs)).resolve_left hne
  · intro dep
    show await.erase next dep ≠ some []
    rw [PMap.erase_apply]
    split
    · simp
    · exact h.await dep
  · intro id hid
    exact h.worklist id (mem_cons_of_mem next hid)
  · intro pre id post hsplit dep hmem
    obtain ⟨hne, hmem⟩ := hwaiting hmem
    have hsplit : processed = pre ++ id :: post := hsplit
    have hahead := h.ahead (next :: pre) id post (by rw [hsplit]; rfl) dep hmem
    exact (mem_cons.mp hahead).resolve_left hne
  · intro id hid hs
    refine (h.due id (hsome hid).2 hs).imp_right ?_
    intro hdue
    rcases hdue with hmem | ⟨dep, hdep, hne, hmem⟩
    · cases hmem
    · exact ⟨dep, hdep, hkeep hne hmem⟩
  · intro id hid
    exact absurd hid (by cases processed <;> simp [Cascade.first])
  · intro next' rest processed' seen' first' heq
    cases heq

/-- **Every step keeps the invariant**, with the block it queues settled. -/
theorem Waits.steps {stored : BlockID → Bool} {q : Option BlockData}
    (hstep : Steps stored S self d q d') :
    d'.Waits self needsOf (fun id => S id ∨ id ∈ q.toList.map BlockData.id) added := by
  have hnone : ∀ id, S id ∨ id ∈ (none : Option BlockData).toList.map BlockData.id ↔ S id := by
    simp
  cases hstep with
  | take hcascade hin hd1 hh =>
    rename_i info rest d1 d2 ok
    obtain ⟨i, ic, hd1⟩ := hd1
    subst hd1
    have hinfo : info ∈ added := h.incoming info (by rw [hin]; exact mem_cons_self)
    cases hh with
    | settled ic' hs =>
      refine (h.begin hcascade hin (.inl hs)).congr ?_ rfl rfl rfl rfl
      intro id
      rw [hnone]
      exact ⟨.inl, fun hor => hor.elim (fun h => h) fun heq => heq ▸ hs⟩
    | waits ic' deps hs hdeps hne =>
      have hadd := h.addPending hinfo hs hdeps hne
      have hpending : ((d.addPending info deps).pending info.id).isSome = true := by
        show (d.pending.set info.id info info.id).isSome = true
        rw [PMap.set_self]
        rfl
      exact (hadd.drop hin hpending).congr hnone rfl rfl rfl hcascade.symm
    | queues ic' hs hneeds =>
      have hready : ∀ dep ∈ needsOf info.id, S dep := h.needs info hinfo ▸ hneeds
      refine (h.begin hcascade hin (.inr hready)).congr ?_ rfl rfl rfl rfl
      intro id
      simp
  | finish hcascade => exact (h.finish hcascade).congr hnone rfl rfl rfl rfl
  | pop hcascade => exact (h.pop hcascade).congr hnone rfl rfl rfl rfl
  | leave hcascade => exact (h.leave hcascade).congr hnone rfl rfl rfl rfl
  | skip hcascade hseen =>
    have hrevdep := h.seen _ (by rw [hcascade]; exact hseen)
    exact (h.pass hcascade hrevdep fun _ hid => .inr hid).congr hnone rfl rfl rfl rfl
  | visit hcascade hseen hpending hh =>
    rename_i next revdep rest processed seen first block d2 ok
    obtain ⟨hblock, hid⟩ := h.pending _ _ hpending
    cases hh with
    | settled ic hs =>
      rw [hid] at hs
      refine (h.visit hcascade (.inl hs)).congr ?_ rfl rfl rfl rfl
      intro id
      rw [hnone]
      exact ⟨.inl, fun hor => hor.elim (fun h => h) fun heq => heq ▸ hs⟩
    | waits ic deps hs hdeps hne =>
      have hadd := h.addPending hblock hs hdeps hne
      obtain ⟨dep, hdep⟩ := exists_mem_of_ne_nil deps hne
      obtain ⟨hdep, hsdep⟩ := (hdeps dep).mp hdep
      rw [h.needs block hblock, hid] at hdep
      have hseen' : ∀ id ∈ revdep :: seen, id = revdep ∨ id ∈ seen := fun _ => mem_cons.mp
      exact (hadd.pass hcascade (.inr ⟨dep, hdep, hsdep⟩) hseen').congr hnone rfl rfl rfl rfl
    | queues ic hs hneeds =>
      rw [h.needs block hblock, hid] at hneeds
      refine (h.visit hcascade (.inr hneeds)).congr ?_ rfl rfl rfl rfl
      intro id
      simp [hid]

end

end Waits

end Depgraph

/-! ## §4. Every run. -/

/-- The graph and what is settled, for the blocks added since the process started. -/
def Including.Waits (n : Including) (self : Nat) (needsOf : BlockID → List BlockID) : Prop :=
  n.graph.Waits self needsOf n.Settled n.added

section Run
variable {self : Nat} {needsOf : BlockID → List BlockID} {n : Including}

theorem Including.waits_start (included : BlockID → Bool) (graphs : List (List BlockID))
    (blocks : List BlockData) (hneeds : ∀ b ∈ blocks, Depgraph.needs self b = needsOf b.id) :
    (Including.start included graphs blocks).Waits self needsOf := by
  have hgraph : ∀ d : Depgraph, blocks.foldl Depgraph.add d =
      { d with incoming := d.incoming ++ blocks } := by
    induction blocks with
    | nil => simp
    | cons b blocks ih =>
      intro d
      show blocks.foldl Depgraph.add (d.add b) = _
      rw [ih fun b' hb' => hneeds b' (mem_cons_of_mem b hb')]
      simp [Depgraph.add]
  unfold Including.Waits Including.start
  rw [hgraph]
  refine ⟨?_, hneeds, ?_, ?_, ?_, ?_, ?_, ?_, ?_, ?_, ?_, ?_, ?_, ?_⟩
  · intro b hb
    exact hb
  · intro b hb
    exact .inl hb
  · intro id b hb
    exact absurd hb (by simp [Depgraph.new])
  · intro id hid
    exact absurd hid (by simp [Depgraph.new])
  · intro id hid
    exact absurd hid (by simp [Depgraph.new])
  · intro id dep hmem
    exact absurd hmem (by simp [Depgraph.new, Depgraph.waiting])
  · intro dep
    simp [Depgraph.new]
  · intro id hid
    cases hid
  · intro pre id post hsplit
    exact absurd hsplit (by simp [Depgraph.new, Cascade.worklist])
  · intro id hid
    exact absurd hid (by simp [Depgraph.new])
  · intro id hid
    cases hid
  · intro id hid
    rfl
  · intro next rest processed seen first heq
    exact absurd heq (by simp [Depgraph.new])

theorem Including.Waits.add (h : n.Waits self needsOf) {info : BlockData}
    (hinfo : Depgraph.needs self info = needsOf info.id) : (n.add info).Waits self needsOf := by
  refine ⟨?_, ?_, ?_, ?_, h.settled, h.listed, h.waiting, h.await, h.worklist, h.ahead, h.due,
    h.seen, h.first, h.revdeps⟩
  · intro b hb
    rcases mem_append.mp hb with hb | hb
    · exact mem_append_left _ (h.incoming b hb)
    · exact mem_append_right _ hb
  · exact forall_mem_append.mpr ⟨h.needs, forall_mem_singleton.mpr hinfo⟩
  · intro b hb
    rcases mem_append.mp hb with hb | hb
    · exact (h.kept b hb).imp_left (mem_append_left _)
    · exact .inl (mem_append_right _ hb)
  intro id b hb
  obtain ⟨hmem, hid⟩ := h.pending id b hb
  exact ⟨mem_append_left _ hmem, hid⟩

/-- **Every run keeps the invariant**, where the id of a block determines what it needs. -/
theorem IncludingRun.waits (hrun : IncludingRun self n)
    (hneeds : ∀ b ∈ n.added, Depgraph.needs self b = needsOf b.id) : n.Waits self needsOf := by
  induction hrun with
  | start | restart => exact Including.waits_start _ _ _ hneeds
  | add _ info ih =>
    have hold := ih fun b hb => hneeds b (mem_append_left _ hb)
    exact hold.add (hneeds info (mem_append_right _ (mem_singleton_self _)))
  | process hrun h ih =>
    have hsteps := hrun.exact.answers.step h
    refine ((ih hneeds).steps hsteps).congr ?_ rfl rfl rfl rfl
    exact Including.settled_processed hsteps
  | prune _ keep ih | actuallyIncluded _ _ ih =>
    exact (ih hneeds).congr (fun _ => Iff.rfl) rfl rfl rfl rfl
  | getBlocks _ _ limit ih =>
    exact (ih hneeds).congr (Including.settled_getBlocks _ limit) rfl rfl rfl rfl
  | setOwnBlock hrun hgen ih =>
    exact (ih hneeds).congr (hrun.exact.settled_setOwnBlock hgen) rfl rfl rfl rfl

end Run

end Chainspace.Broadcast
