/-
  Chainspace.Blockmania.Consumption — what `deliverRound` deletes is not needed any more.

  `run` computes for every block the highest round its state can mention, from the values of the
  blocks it refers to; a deleted value counts as the current round. `deliverRound` deletes the
  states of own blocks and their dependencies once their value is delivered. `Bounded` relates
  values and states; `bound` remembers deleted values.

  For the timeouts this needs chains that do not fork: two blocks with one predecessor append to the
  same array.
-/
import Chainspace.Blockmania.About
import Chainspace.Blockmania.Apart
import Mathlib.Data.List.Chain
import Mathlib.Data.List.TakeWhile

namespace Chainspace.Blockmania

open Chainspace.Lib List

/-! ## §1. Feeds. -/

/-- The entries of own block graphs, in the order they are processed. -/
def entries (datas : List BlockGraph) : List Entry := datas.flatMap entriesOf

def Entry.links (e : Entry) : List BlockID := e.prev :: e.deps

/-- **Own block graphs of consecutive rounds, whose dependencies are added before them.** References
to blocks never added are allowed: after a restart there are some. -/
structure Fed (datas : List BlockGraph) : Prop where
  own : datas.IsChain (fun a b => b.block.round = a.block.round + 1 ∧ b.prev = a.block)
  earlier : (entries datas).Pairwise (fun e e' => e'.block ∉ e.links)
  self : ∀ e ∈ entries datas, e.block ∉ e.links

/-- No block is added twice, no two blocks follow the same block, rounds start at 1 and a block of
round 1 follows none. -/
structure Unforked (datas : List BlockGraph) : Prop where
  once : (added datas).Nodup
  prev : (((entries datas).filter (fun e => e.prev.valid)).map Entry.prev).Nodup
  positive : ∀ data ∈ datas, 1 ≤ data.block.round
  start : ∀ e ∈ entries datas, e.block.round = 1 → e.prev ∉ added datas

theorem entries_append (datas datas' : List BlockGraph) :
    entries (datas ++ datas') = entries datas ++ entries datas' := flatMap_append

theorem entries_snoc (datas : List BlockGraph) (data : BlockGraph) :
    entries (datas ++ [data]) = entries datas ++ entriesOf data := by
  rw [entries_append]
  show _ ++ [data].flatMap entriesOf = _
  rw [flatMap_singleton]

theorem map_block_entriesOf (data : BlockGraph) :
    (entriesOf data).map Entry.block = data.deps.map Dep.block ++ [data.block] := by
  unfold entriesOf
  rw [map_append, map_map]
  rfl

theorem map_block_entries (datas : List BlockGraph) :
    (entries datas).map Entry.block = added datas := by
  unfold entries added
  rw [map_flatMap]
  refine flatMap_congr ?_
  intro data _
  exact map_block_entriesOf data

/-- What is used of a feed in the order its entries come. -/
structure Ordered (es : List Entry) : Prop where
  once : (es.map Entry.block).Nodup
  start : ∀ e ∈ es, e.block.round = 1 → e.prev ∉ es.map Entry.block
  earlier : es.Pairwise (fun e e' => e'.block ∉ e.links)
  self : ∀ e ∈ es, e.block ∉ e.links

variable {datas : List BlockGraph}

theorem Fed.ordered (h : Fed datas) (hu : Unforked datas) : Ordered (entries datas) where
  once := by rw [map_block_entries]; exact hu.once
  start := by rw [map_block_entries]; exact hu.start
  earlier := h.earlier
  self := h.self

theorem Ordered.left {es es' : List Entry} (h : Ordered (es ++ es')) : Ordered es where
  once := by
    have honce := h.once
    rw [map_append] at honce
    exact (nodup_append.mp honce).1
  start := by
    intro e he hr hmem
    refine h.start e (mem_append_left es' he) hr ?_
    rw [map_append]
    exact mem_append_left _ hmem
  earlier := (pairwise_append.mp h.earlier).1
  self := fun e he => h.self e (mem_append_left es' he)

theorem Ordered.last {es : List Entry} {e : Entry} (h : Ordered (es ++ [e])) :
    e.block ∉ es.map Entry.block ∧ (∀ e' ∈ es, e.block ∉ e'.links) ∧ e.block ∉ e.links ∧
      (e.block.round = 1 → e.prev ∉ es.map Entry.block) := by
  have hmem : e ∈ es ++ [e] := mem_append_right es mem_cons_self
  refine ⟨?_, ?_, h.self e hmem, ?_⟩
  · have honce := h.once
    rw [map_append] at honce
    intro hin
    exact (nodup_append.mp honce).2.2 _ hin _ mem_cons_self rfl
  · intro e' he'
    exact (pairwise_append.mp h.earlier).2.2 e' he' e mem_cons_self
  intro hr hin
  refine h.start e hmem hr ?_
  rw [map_append]
  exact mem_append_left _ hin

/-! ## §2. The values of `graph.max`. -/

/-- `bound` remembers the values of `known`; deleted ones are below the current round. -/
structure Remembers (round : Nat) (known bound : PMap BlockID Nat) : Prop where
  kept : ∀ b m, known b = some m → bound b = some m
  lost : ∀ b m, bound b = some m → known b = none → m < round

/-- The values of the entries filed so far: at least their rounds and the values of the blocks they
refer to. -/
structure Filed (round : Nat) (known bound : PMap BlockID Nat) (es : List Entry) : Prop where
  remembers : Remembers round known bound
  domain : ∀ b m, bound b = some m → b ∈ es.map Entry.block
  links : ∀ e ∈ es, ∃ m, bound e.block = some m ∧ e.block.round ≤ m ∧
    ∀ l ∈ e.links, ∀ ml, bound l = some ml → ml ≤ m

section Filed
variable {round : Nat} {known bound : PMap BlockID Nat} {es : List Entry}

theorem le_foldl_raiseMax (known : PMap BlockID Nat) (links : List BlockID) (acc : Nat × Bool) :
    acc.1 ≤ (links.foldl (raiseMax known) acc).1 := by
  refine foldl_inv (fun x : Nat × Bool => acc.1 ≤ x.1) (Nat.le_refl acc.1) ?_
  intro l _ x hx
  unfold raiseMax
  split
  · exact hx
  · exact Nat.le_trans hx (Nat.le_max_left x.1 _)

theorem le_foldl_raiseMax_of_mem {links : List BlockID} {l : BlockID}
    {m : Nat} (hl : l ∈ links) (hm : known l = some m) (acc : Nat × Bool) :
    m ≤ (links.foldl (raiseMax known) acc).1 := by
  induction links generalizing acc with
  | nil => cases hl
  | cons l' links ih =>
    rcases mem_cons.mp hl with heq | hl
    · subst heq
      refine Nat.le_trans ?_ (le_foldl_raiseMax known links _)
      unfold raiseMax
      rw [hm]
      exact Nat.le_max_right acc.1 m
    · exact ih hl _

theorem le_settleMax (round : Nat) (acc : Nat × Bool) : acc.1 ≤ settleMax round acc := by
  unfold settleMax
  split
  · exact Nat.le_max_left acc.1 round
  · exact Nat.le_refl acc.1

theorem foldl_raiseMax_flag {links : List BlockID} {l : BlockID} (hl : l ∈ links)
    (hnone : known l = none) (acc : Nat × Bool) : (links.foldl (raiseMax known) acc).2 = true := by
  have hkeep : ∀ (ls : List BlockID) (acc : Nat × Bool), acc.2 = true →
      (ls.foldl (raiseMax known) acc).2 = true := by
    intro ls acc hacc
    refine foldl_inv (fun x : Nat × Bool => x.2 = true) hacc ?_
    intro l' _ x hx
    unfold raiseMax
    split
    · rfl
    · exact hx
  induction links generalizing acc with
  | nil => cases hl
  | cons l' links ih =>
    by_cases heq : l' = l
    · refine hkeep links _ ?_
      unfold raiseMax
      rw [heq, hnone]
    · exact ih ((mem_cons.mp hl).resolve_left (Ne.symm heq)) _

theorem Remembers.le_settleMax (h : Remembers round known bound) {links : List BlockID}
    {l : BlockID} (hl : l ∈ links) {ml : Nat} (hml : bound l = some ml) (acc : Nat × Bool) :
    ml ≤ settleMax round (links.foldl (raiseMax known) acc) := by
  cases hk : known l with
  | some m =>
    have heq := h.kept l m hk
    rw [hml] at heq
    cases heq
    exact Nat.le_trans (le_foldl_raiseMax_of_mem hl hk acc) (Blockmania.le_settleMax round _)
  | none =>
    have hlt := h.lost l ml hml hk
    unfold settleMax
    rw [if_pos (foldl_raiseMax_flag hl hk acc)]
    omega

theorem Remembers.set (h : Remembers round known bound) (b : BlockID) (m : Nat) :
    Remembers round (known.set b m) (bound.set b m) where
  kept := by
    intro a v hv
    by_cases hab : a = b
    · rw [hab, PMap.set_self] at hv ⊢
      exact hv
    · rw [PMap.set_ne _ _ hab] at hv ⊢
      exact h.kept a v hv
  lost := by
    intro a v hv hnone
    by_cases hab : a = b
    · rw [hab] at hnone
      simp at hnone
    · rw [PMap.set_ne _ _ hab] at hv hnone
      exact h.lost a v hv hnone

theorem Filed.snoc (h : Filed round known bound es) {e : Entry} (hord : Ordered (es ++ [e]))
    {m : Nat} (hround : e.block.round ≤ m)
    (hlinks : ∀ l ∈ e.links, ∀ ml, bound l = some ml → ml ≤ m) :
    Filed round (known.set e.block m) (bound.set e.block m) (es ++ [e]) := by
  obtain ⟨hnew, hlater, hself, _⟩ := hord.last
  refine ⟨h.remembers.set e.block m, ?_, ?_⟩
  · intro b v hv
    rw [map_append]
    by_cases hb : b = e.block
    · exact mem_append_right _ (hb ▸ mem_cons_self)
    · rw [PMap.set_ne _ _ hb] at hv
      exact mem_append_left _ (h.domain b v hv)
  intro e' he'
  rcases mem_append.mp he' with he' | he'
  · -- The entry does not refer to the new block, and is not the new block.
    obtain ⟨m', hm', hround', hlinks'⟩ := h.links e' he'
    have hne : e'.block ≠ e.block := fun heq => hnew (heq ▸ mem_map_of_mem he')
    refine ⟨m', by rw [PMap.set_ne _ _ hne]; exact hm', hround', ?_⟩
    intro l hl ml hml
    have hne : l ≠ e.block := fun heq => hlater e' he' (heq ▸ hl)
    rw [PMap.set_ne _ _ hne] at hml
    exact hlinks' l hl ml hml
  rw [mem_singleton.mp he']
  refine ⟨m, PMap.set_self bound e.block m, hround, ?_⟩
  intro l hl ml hml
  have hne : l ≠ e.block := fun heq => hself (heq ▸ hl)
  rw [PMap.set_ne _ _ hne] at hml
  exact hlinks l hl ml hml

theorem Filed.dep (h : Filed round known bound es) {dep : Dep}
    (hord : Ordered (es ++ [depEntry dep])) :
    Filed round (known.set dep.block (depMax known round dep))
      (bound.set dep.block (depMax known round dep)) (es ++ [depEntry dep]) := by
  obtain ⟨_, _, _, hstart⟩ := hord.last
  refine h.snoc hord ?_ ?_
  · exact Nat.le_trans (le_foldl_raiseMax known _ (dep.block.round, false)) (le_settleMax round _)
  intro l hl ml hml
  refine h.remembers.le_settleMax ?_ hml _
  rcases mem_cons.mp hl with heq | hl
  · -- A block of round 1 has no predecessor on file; any other refers to its own.
    by_cases h1 : dep.block.round = 1
    · exact absurd (h.domain l ml hml) (heq ▸ hstart h1)
    show l ∈ (if dep.block.round ≠ 1 then dep.prev :: dep.deps else dep.deps)
    rw [if_pos h1]
    exact heq ▸ mem_cons_self
  · exact hl

/-- The loop of `register`: the running maximum is at least the values of the dependencies. -/
theorem Filed.deps {deps : List Dep} (acc : PMap BlockID Nat × Nat)
    (h : Filed round acc.1 bound es) (hord : Ordered (es ++ deps.map depEntry)) :
    let res := deps.foldl (fun (acc : PMap BlockID Nat × Nat) dep =>
        (acc.1.set dep.block (depMax acc.1 round dep), Nat.max acc.2 (depMax acc.1 round dep))) acc
    ∃ bound', Filed round res.1 bound' (es ++ deps.map depEntry) ∧ acc.2 ≤ res.2 ∧
      (∀ dep ∈ deps, ∀ m, bound' dep.block = some m → m ≤ res.2) ∧
      ∀ b ∈ es.map Entry.block, bound' b = bound b := by
  intro res
  induction deps generalizing acc bound es with
  | nil =>
    refine ⟨bound, ?_, Nat.le_refl acc.2, by simp, fun _ _ => rfl⟩
    rw [map_nil, append_nil]
    exact h
  | cons dep deps ih =>
    have hsplit : es ++ (dep :: deps).map depEntry =
        (es ++ [depEntry dep]) ++ deps.map depEntry := by simp
    rw [hsplit] at hord ⊢
    obtain ⟨hnew, _⟩ := hord.left.last
    obtain ⟨bound', hf, hle, hall, hold⟩ := ih (acc.1.set dep.block (depMax acc.1 round dep),
        Nat.max acc.2 (depMax acc.1 round dep)) (h.dep hord.left) hord
    refine ⟨bound', hf, Nat.le_trans (Nat.le_max_left _ _) hle, ?_, ?_⟩
    · intro d hd m hm
      rcases mem_cons.mp hd with heq | hd
      · have hmem : dep.block ∈ (es ++ [depEntry dep]).map Entry.block := by
          rw [map_append]
          exact mem_append_right _ mem_cons_self
        rw [heq, hold _ hmem, PMap.set_self] at hm
        injection hm with hm
        rw [← hm]
        exact Nat.le_trans (Nat.le_max_right _ _) hle
      · exact hall d hd m hm
    intro b hb
    have hne : b ≠ dep.block := by
      intro heq
      rw [heq] at hb
      exact hnew hb
    rw [hold b (by rw [map_append]; exact mem_append_left _ hb), PMap.set_ne _ _ hne]

end Filed

/-! ## §3. What the graph keeps. -/

def upTo (m : Nat) : Nat → Nat → Hash → Prop := fun _ round _ => round ≤ m

/-- Every round a state mentions, in keys, messages and the targets of timeouts, is at most `m`. -/
structure MentionsUpTo (m : Nat) (h : Heap) (s : State) : Prop where
  bitsets : ∀ pp, (s.bitsets pp).isSome → pp.round ≤ m
  dataFinal : ∀ k, (s.data.final k).isSome → k.round ≤ m
  hnv : ∀ k, (s.data.hnv k).isSome → k.round ≤ m
  prepared : ∀ k, (s.data.prepared k).isSome → k.round ≤ m
  prePrepared : ∀ k, (s.data.prePrepared k).isSome → k.round ≤ m
  view : ∀ k, (s.data.view k).isSome → k.round ≤ m
  viewChanged : ∀ k, (s.data.viewChanged k).isSome → k.round ≤ m
  final : ∀ k, (s.final k).isSome → k.round ≤ m
  out : ∀ msg ∈ s.out, msg.round ≤ m
  timeouts : ∀ k, ∀ t ∈ h.read k (s.timeouts k), t.round ≤ m

theorem MentionsUpTo.mono {m m' : Nat} {h : Heap} {s : State} (hs : MentionsUpTo m h s)
    (hle : m ≤ m') : MentionsUpTo m' h s where
  bitsets := fun pp hb => Nat.le_trans (hs.bitsets pp hb) hle
  dataFinal := fun k hk => Nat.le_trans (hs.dataFinal k hk) hle
  hnv := fun k hk => Nat.le_trans (hs.hnv k hk) hle
  prepared := fun k hk => Nat.le_trans (hs.prepared k hk) hle
  prePrepared := fun k hk => Nat.le_trans (hs.prePrepared k hk) hle
  view := fun k hk => Nat.le_trans (hs.view k hk) hle
  viewChanged := fun k hk => Nat.le_trans (hs.viewChanged k hk) hle
  final := fun k hk => Nat.le_trans (hs.final k hk) hle
  out := fun msg hm => Nat.le_trans (hs.out msg hm) hle
  timeouts := fun k t ht => Nat.le_trans (hs.timeouts k t ht) hle

theorem About.mentionsUpTo {m words : Nat} {h : Heap} {s : State} (hs : About (upTo m) words h s)
    (hout : ∀ msg ∈ s.out, msg.round ≤ m) : MentionsUpTo m h s where
  bitsets := by
    intro pp hb
    obtain ⟨b, hb⟩ := Option.isSome_iff_exists.mp hb
    exact (hs.bitsets pp b hb).1
  dataFinal := hs.dataFinal
  hnv := hs.hnv
  prepared := by
    intro k hk
    obtain ⟨hash, hk⟩ := Option.isSome_iff_exists.mp hk
    exact hs.prepared k hash hk
  prePrepared := by
    intro k hk
    obtain ⟨pp, hk⟩ := Option.isSome_iff_exists.mp hk
    obtain ⟨hkey, hr⟩ := hs.prePrepared k pp hk
    rw [hkey]
    exact hr
  view := hs.view
  viewChanged := by
    intro k hk
    obtain ⟨i, hk⟩ := Option.isSome_iff_exists.mp hk
    exact (hs.viewChanged k i hk).1
  final := by
    intro k hk
    obtain ⟨hash, hk⟩ := Option.isSome_iff_exists.mp hk
    exact hs.final k hash hk
  out := hout
  timeouts := hs.timeouts

/-- **States mention no round above the values of their blocks**, an unconsumed own block has the
highest value among its dependencies, and a decision on file is about a round that some own block
can mention. -/
structure Bounded (bound : PMap BlockID Nat) (datas : List BlockGraph) (g : Graph) : Prop where
  filed : Filed g.round g.max bound (entries datas)
  stored : ∀ b st, g.statess b = some st → ∃ m, bound b = some m ∧
    About (upTo m) ((g.params.nodeCount + 63) >>> 6) g.heap st ∧ ∀ msg ∈ st.out, msg.round ≤ m
  covers : ∀ info ∈ g.blocks, bound info.data.block = some info.max ∧
    ∀ b ∈ info.covered, ∃ m, bound b = some m ∧ m ≤ info.max
  resolved : ∀ r, g.round ≤ r → (g.resolved.lookup r).isSome → ∃ info ∈ g.blocks, r ≤ info.max
  own : ∃ gone, datas = gone ++ g.blocks.map BlockInfo.data

/-- The own block being processed is not consumed before its value is delivered. -/
def Pending (data : BlockGraph) (top : Nat) (g : Graph) : Prop :=
  g.round ≤ top → ⟨data, top⟩ ∈ g.blocks

section Register
variable {bound : PMap BlockID Nat} {datas : List BlockGraph} {g : Graph}

theorem Bounded.register (h : Bounded bound datas g) {data : BlockGraph}
    (hord : Ordered (entries (datas ++ [data]))) :
    ∃ bound' top, Bounded bound' (datas ++ [data]) (register g data) ∧
      Pending data top (register g data) ∧
      ∀ e ∈ entriesOf data, ∃ m, bound' e.block = some m ∧ m ≤ top := by
  have hsplit : entries (datas ++ [data]) =
      (entries datas ++ data.deps.map depEntry) ++ [selfEntry data] := by
    rw [entries_snoc, entriesOf, append_assoc]
  rw [hsplit] at hord
  obtain ⟨bound1, hf1, hle, hall, hold⟩ := Filed.deps (g.max, data.block.round) h.filed hord.left
  obtain ⟨hnew, _, _, hstart⟩ := hord.last
  unfold Blockmania.register
  dsimp only
  generalize hres : data.deps.foldl _ _ = res at hf1 hle hall ⊢
  generalize htop : (if data.block.round ≠ 1 then
    settleMax g.round (raiseMax res.1 (res.2, false) data.prev) else res.2) = top
  have hraise : res.2 ≤ top := by
    rw [← htop]
    split
    · exact Nat.le_trans (le_foldl_raiseMax res.1 [data.prev] (res.2, false))
        (le_settleMax g.round _)
    · exact Nat.le_refl res.2
  -- The own block: its dependencies are bounded by the running maximum, its predecessor by the
  -- last step of the loop.
  have hlinks : ∀ l ∈ (selfEntry data).links, ∀ ml, bound1 l = some ml → ml ≤ top := by
    intro l hl ml hml
    have hl : l ∈ data.prev :: data.prev :: data.deps.map Dep.block := hl
    have hl : l = data.prev ∨ l ∈ data.deps.map Dep.block := by simpa using hl
    rcases hl with heq | hdep
    · by_cases h1 : data.block.round = 1
      · exact absurd (hf1.domain l ml hml) (heq ▸ hstart h1)
      rw [← htop, if_pos h1]
      have hmem : l ∈ [data.prev] := heq ▸ mem_cons_self
      exact hf1.remembers.le_settleMax hmem hml (res.2, false)
    · obtain ⟨dep, hdep, heq⟩ := mem_map.mp hdep
      exact Nat.le_trans (hall dep hdep ml (heq ▸ hml)) hraise
  have hfiled := hf1.snoc hord (e := selfEntry data) (Nat.le_trans hle hraise) hlinks
  have hkeep : ∀ b ∈ (entries datas).map Entry.block, bound1.set data.block top b = bound b := by
    intro b hb
    have hne : b ≠ data.block := by
      intro heq
      refine hnew (show data.block ∈ _ from ?_)
      rw [map_append]
      exact mem_append_left _ (heq ▸ hb)
    rw [PMap.set_ne _ _ hne, hold b hb]
  have hdeps : ∀ b ∈ data.block :: data.deps.map Dep.block,
      ∃ m, bound1.set data.block top b = some m ∧ m ≤ top := by
    intro b hb
    by_cases heq : b = data.block
    · exact ⟨top, by rw [heq, PMap.set_self], Nat.le_refl top⟩
    obtain ⟨dep, hdep, heq'⟩ := mem_map.mp ((mem_cons.mp hb).resolve_left heq)
    have hmem : depEntry dep ∈ entries datas ++ data.deps.map depEntry :=
      mem_append_right _ (mem_map_of_mem hdep)
    obtain ⟨m, hm, _⟩ := hf1.links (depEntry dep) hmem
    rw [PMap.set_ne _ _ heq, ← heq']
    exact ⟨m, hm, Nat.le_trans (hall dep hdep m hm) hraise⟩
  refine ⟨bound1.set data.block top, top, ⟨?_, ?_, ?_, ?_, ?_⟩, ?_, ?_⟩
  · rw [hsplit]
    exact hfiled
  · intro b st hst
    obtain ⟨m, hm, hrest⟩ := h.stored b st hst
    exact ⟨m, by rw [hkeep b (h.filed.domain b m hm)]; exact hm, hrest⟩
  · intro info hinfo
    rcases mem_append.mp hinfo with hinfo | hinfo
    · obtain ⟨hown, hcov⟩ := h.covers info hinfo
      refine ⟨by rw [hkeep _ (h.filed.domain _ _ hown)]; exact hown, ?_⟩
      intro b hb
      obtain ⟨m, hm, hlem⟩ := hcov b hb
      exact ⟨m, by rw [hkeep b (h.filed.domain b m hm)]; exact hm, hlem⟩
    · rw [mem_singleton.mp hinfo]
      exact ⟨PMap.set_self _ _ _, hdeps⟩
  · intro r hr hsome
    obtain ⟨info, hinfo, hmax⟩ := h.resolved r hr hsome
    exact ⟨info, mem_append_left _ hinfo, hmax⟩
  · obtain ⟨gone, hgone⟩ := h.own
    refine ⟨gone, ?_⟩
    rw [map_append, ← append_assoc, ← hgone]
    rfl
  · intro _
    exact mem_append_right _ mem_cons_self
  intro e he
  refine hdeps e.block ?_
  have hmem : e.block ∈ data.deps.map Dep.block ++ [data.block] :=
    map_block_entriesOf data ▸ mem_map_of_mem he
  simpa [or_comm] using hmem

end Register

/-! ## §4. Delivery. -/

section Deliver
variable {bound : PMap BlockID Nat} {datas : List BlockGraph} {data : BlockGraph} {top : Nat}
  {g g' : Graph} {round : Nat} {hashes : AList (fun _ : Nat => Hash)}

theorem consumed_append_drop (blocks : List BlockInfo) (round : Nat) :
    consumedBlocks blocks round ++ blocks.drop (consumedBlocks blocks round).length = blocks := by
  have hsplit := takeWhile_append_dropWhile
    (p := fun info : BlockInfo => decide (info.max ≤ round)) (l := blocks)
  have hdrop := @drop_left _ (consumedBlocks blocks round)
    (blocks.dropWhile (fun info => decide (info.max ≤ round)))
  have hsplit : consumedBlocks blocks round ++
      blocks.dropWhile (fun info => decide (info.max ≤ round)) = blocks := hsplit
  rw [hsplit] at hdrop
  rw [hdrop]
  exact hsplit

theorem mem_drop_consumed {blocks : List BlockInfo} {info : BlockInfo} (hinfo : info ∈ blocks)
    (hlt : round < info.max) : info ∈ blocks.drop (consumedBlocks blocks round).length := by
  rw [← consumed_append_drop blocks round] at hinfo
  rcases mem_append.mp hinfo with hmem | hmem
  · have hle : info.max ≤ round := by simpa using mem_takeWhile_imp hmem
    omega
  · exact hmem

theorem Bounded.gone (h : Bounded bound datas g) {b : BlockID}
    (hb : b ∈ goneBlocks g.blocks round) : ∃ m, bound b = some m ∧ m ≤ round := by
  obtain ⟨info, hinfo, hb⟩ := mem_flatMap.mp hb
  obtain ⟨m, hm, hle⟩ := (h.covers info ((takeWhile_subset _) hinfo)).2 b hb
  have hmax : info.max ≤ round := by simpa using mem_takeWhile_imp hinfo
  exact ⟨m, hm, Nat.le_trans hle hmax⟩

theorem Bounded.finishRound (h : Bounded bound datas g) (hround : round = g.round)
    (rep : Interpreted) : Bounded bound datas (g.finishRound round rep) := by
  refine ⟨⟨⟨?_, ?_⟩, h.filed.domain, h.filed.links⟩, ?_, ?_, ?_, ?_⟩
  · intro b m hm
    have hm : g.max.restrict (fun b => b ∉ goneBlocks g.blocks round) b = some m := hm
    exact h.filed.remembers.kept b m (PMap.of_restrict hm)
  · intro b m hm hnone
    show m < g.round + 1
    by_cases hgone : b ∈ goneBlocks g.blocks round
    · obtain ⟨m', hm', _⟩ := h.gone hgone
      rw [hm] at hm'
      injection hm' with hm'
      omega
    have hnone : g.max.restrict (fun b => b ∉ goneBlocks g.blocks round) b = none := hnone
    rw [PMap.restrict_apply, if_pos (by simpa using hgone)] at hnone
    exact Nat.lt_succ_of_lt (h.filed.remembers.lost b m hm hnone)
  · intro b st hst
    have hst : g.statess.restrict (fun b => b ∉ goneBlocks g.blocks round) b = some st := hst
    exact h.stored b st (PMap.of_restrict hst)
  · intro info hinfo
    exact h.covers info (mem_of_mem_drop hinfo)
  · intro r hr hsome
    have hr : g.round + 1 ≤ r := hr
    rw [finishRound_resolved, AList.lookup_erase_ne (by omega)] at hsome
    obtain ⟨info, hinfo, hmax⟩ := h.resolved r (by omega) hsome
    exact ⟨info, mem_drop_consumed hinfo (by omega), hmax⟩
  · obtain ⟨gone, hgone⟩ := h.own
    refine ⟨gone ++ (g.blocks.take (consumedBlocks g.blocks round).length).map BlockInfo.data, ?_⟩
    show datas = _ ++ (g.blocks.drop (consumedBlocks g.blocks round).length).map _
    rw [append_assoc, ← map_append, take_append_drop, ← hgone]

theorem Pending.finishRound (h : Pending data top g) (hround : round = g.round)
    (rep : Interpreted) : Pending data top (g.finishRound round rep) := by
  intro hle
  rw [finishRound_round] at hle
  have hmem := h (by omega)
  exact mem_drop_consumed hmem (by rw [hround]; exact hle)

/-- The calls of `deliverRound` that one leads to: itself, and one for each later complete round. -/
inductive Enters (g0 : Graph) (round0 : Nat) (hashes0 : AList (fun _ : Nat => Hash)) :
    Graph → Nat → AList (fun _ : Nat => Hash) → Prop
  | here : Enters g0 round0 hashes0 g0 round0 hashes0
  | next {g : Graph} {round : Nat} {hashes hashes' : AList (fun _ : Nat => Hash)}
      {info : BlockInfo} {rest : List BlockInfo} (h : Enters g0 round0 hashes0 g round hashes)
      (hblocks : g.blocks = info :: rest)
      (hlook : (g.finishRound round (g.report info round hashes)).resolved.lookup (round + 1) =
        some hashes')
      (hfull : hashes'.entries.length = g.params.nodeCount) :
      Enters g0 round0 hashes0 (g.finishRound round (g.report info round hashes)) (round + 1)
        hashes'

/-- What holds whenever `deliverRound` is entered. -/
structure Entered (bound : PMap BlockID Nat) (datas : List BlockGraph) (data : BlockGraph)
    (top : Nat) (g : Graph) (round : Nat) (hashes : AList (fun _ : Nat => Hash)) : Prop where
  bounded : Bounded bound datas g
  pending : Pending data top g
  current : round = g.round
  look : g.resolved.lookup round = some hashes

theorem Entered.enters (h : Entered bound datas data top g round hashes) {round' : Nat}
    {hashes' : AList (fun _ : Nat => Hash)} (he : Enters g round hashes g' round' hashes') :
    Entered bound datas data top g' round' hashes' := by
  induction he with
  | here => exact h
  | next _ _ hlook _ ih =>
    exact ⟨ih.bounded.finishRound ih.current _, ih.pending.finishRound ih.current _,
      by rw [finishRound_round, ih.current], hlook⟩

/-- The end of a call of `deliverRound` is that of the last round it reports. -/
theorem Entered.deliverRound {fuel : Nat} (h : Entered bound datas data top g round hashes)
    (hd : deliverRound fuel g round hashes = .ok g') :
    Bounded bound datas g' ∧ Pending data top g' := by
  induction fuel generalizing g round hashes with
  | zero =>
    cases hd
    exact ⟨h.bounded, h.pending⟩
  | succ fuel ih =>
    unfold Blockmania.deliverRound at hd
    split at hd
    · cases hd
    next info _ _ =>
      dsimp only at hd
      have hb := h.bounded.finishRound h.current (g.report info round hashes)
      have hp := h.pending.finishRound h.current (g.report info round hashes)
      split at hd
      · cases hd
        exact ⟨hb, hp⟩
      next hlook =>
        split at hd
        · exact ih ⟨hb, hp, by rw [finishRound_round, h.current], hlook⟩ hd
        · cases hd
          exact ⟨hb, hp⟩

/-- A decision about a round the block being processed can mention is filed. -/
theorem Bounded.file (h : Bounded bound datas g) (hp : Pending data top g) (hle : round ≤ top)
    (hlive : g.round ≤ round) (hashes : AList (fun _ : Nat => Hash)) :
    Bounded bound datas { g with resolved := g.resolved.insert round hashes } := by
  refine ⟨h.filed, h.stored, h.covers, ?_, h.own⟩
  intro r hr hsome
  by_cases heq : r = round
  · exact ⟨⟨data, top⟩, hp (by omega), by rw [heq]; exact hle⟩
  · rw [AList.lookup_insert_ne heq] at hsome
    exact h.resolved r hr hsome

theorem Bounded.deliver {node : Nat} {hash : Hash} (h : Bounded bound datas g)
    (hp : Pending data top g) (hle : round ≤ top) (hd : deliver g node round hash = .ok g') :
    Bounded bound datas g' ∧ Pending data top g' := by
  rcases deliver_cases hd with ⟨_, hg⟩ | ⟨hlive, _, hashes, _, ⟨hg, _⟩ | ⟨hround, _, hd⟩⟩
  · exact hg ▸ ⟨h, hp⟩
  · exact hg ▸ ⟨h.file hp hle hlive hashes, hp⟩
  have hentered : Entered bound datas data top
      { g with resolved := g.resolved.insert round hashes } round hashes :=
    ⟨h.file hp hle hlive hashes, hp, hround, AList.lookup_insert _⟩
  exact hentered.deliverRound hd

end Deliver

/-! ## §5. A block. -/

section Block
variable {bound : PMap BlockID Nat} {datas : List BlockGraph} {data : BlockGraph} {top m : Nat}
  {spent : List BlockID} {g g' : Graph} {s s' : State} {e : Entry}

/-- Between two calls for a block of value `m`. -/
structure Mid (bound : PMap BlockID Nat) (datas : List BlockGraph) (data : BlockGraph)
    (top m : Nat) (spent : List BlockID) (g : Graph) (s : State) : Prop where
  bounded : Bounded bound datas g
  working : Working g spent s
  state : About (upTo m) ((g.params.nodeCount + 63) >>> 6) g.heap s
  pending : Pending data top g
  le : m ≤ top

theorem Bounded.unseen {h' : Heap} (h : Bounded bound datas g) (hle : g.heap.next ≤ h'.next)
    (hu : Unseen g { g with heap := h' }) : Bounded bound datas { g with heap := h' } := by
  refine ⟨h.filed, ?_, h.covers, h.resolved, h.own⟩
  intro b st hst
  obtain ⟨m, hm, habout, hout⟩ := h.stored b st hst
  exact ⟨m, hm, habout.frame (fun _ _ _ _ hr => hr) hle (hu.read b st hst), hout⟩

variable {msg : Message} {origin : BlockID} {receiver : Nat}

section
variable (h : Mid bound datas data top m spent g s)
include h

theorem Mid.reacts {sender : Nat} {r : Reaction} (hm : msg.round ≤ m)
    (hr : Reacts g.params g.heap s sender receiver origin msg r) :
    Mid bound datas data top m spent { g with heap := r.heap } r.state ∧
      ∀ m', r.resp = some m' → m'.round ≤ m := by
  have hmsg : MessageAbout (upTo m) (fun _ => True) msg := ⟨hm, fun _ _ => trivial⟩
  have habout := hr.about (fun _ _ _ h => h) rfl trivial h.state hmsg
  obtain ⟨hw, hu⟩ := h.working.reacts hr
  exact ⟨⟨h.bounded.unseen hr.next_le hu, hw, habout.state, h.pending, h.le⟩,
    fun m' hm' => (habout.resp m' hm').about⟩

theorem Mid.processMessage {sender : Nat} {resp : Option Message} (hm : msg.round ≤ m)
    (hcall : processMessage g s sender receiver origin msg = .ok (g', s', resp)) :
    Mid bound datas data top m spent g' s' ∧ ∀ m', resp = some m' → m'.round ≤ m := by
  obtain ⟨r, hr, hs', hresp, hdec⟩ := processMessage_cases hcall
  obtain ⟨hmid, hout⟩ := h.reacts hm hr
  subst hs' hresp
  refine ⟨?_, hout⟩
  rcases hdec with ⟨_, hg⟩ | ⟨_, _, hg⟩
  · exact hg ▸ hmid
  have hkept := deliver_kept hg
  have hheap := deliver_heap hg
  obtain ⟨hb, hp⟩ := hmid.bounded.deliver hmid.pending (Nat.le_trans hm h.le) hg
  refine ⟨hb, hmid.working.mono hheap hkept.statess, ?_, hp, h.le⟩
  rw [hkept.params, hheap]
  exact hmid.state

/-- The calls of a block whose messages are about rounds up to its value. -/
theorem Mid.log {src : Nat → Message → Prop} {cs : List Call}
    (hsrc : ∀ x msg, src x msg → msg.round ≤ m)
    (hl : Log receiver origin src g s cs g' s') :
    Mid bound datas data top m spent g' s' ∧ ∀ msg ∈ responses cs, msg.round ≤ m := by
  refine hl.inv (I := fun _ => Mid bound datas data top m spent) h hsrc (fun _ _ hm => hm) ?_
  intro _ c g1 s1 hmid hm hcall
  exact hmid.processMessage hm hcall

end

/-- Between two entries of the own block graph `data`. -/
structure Resting (bound : PMap BlockID Nat) (datas : List BlockGraph) (data : BlockGraph)
    (top : Nat) (spent : List BlockID) (g : Graph) : Prop where
  bounded : Bounded bound datas g
  unshared : Unshared g spent
  pending : Pending data top g

/-- An entry of `data` that is next to be processed. -/
structure Next (bound : PMap BlockID Nat) (datas : List BlockGraph) (top : Nat)
    (spent : List BlockID) (e : Entry) (m : Nat) : Prop where
  mem : e ∈ entries datas
  value : bound e.block = some m
  le : m ≤ top
  prev : e.prev.valid → e.prev ∉ spent

theorem Next.link (hb : Bounded bound datas g) (hn : Next bound datas top spent e m) {l : BlockID}
    (hl : l ∈ e.links) {ml : Nat} (hml : bound l = some ml) : ml ≤ m := by
  obtain ⟨m', hm', _, hlinks⟩ := hb.filed.links e hn.mem
  rw [hn.value] at hm'
  cases hm'
  exact hlinks l hl ml hml

theorem Next.round (hb : Bounded bound datas g) (hn : Next bound datas top spent e m) :
    e.block.round ≤ m := by
  obtain ⟨m', hm', hround, _⟩ := hb.filed.links e hn.mem
  rw [hn.value] at hm'
  cases hm'
  exact hround

theorem Next.output (hb : Bounded bound datas g) (hn : Next bound datas top spent e m)
    {dep : BlockID} (hdep : dep ∈ e.deps)
    (hmsg : msg ∈ getOutput (g.statess dep)) : msg.round ≤ m := by
  obtain ⟨st, hst, hmsg⟩ := mem_getOutput hmsg
  obtain ⟨ml, hml, _, hout⟩ := hb.stored dep st hst
  exact Nat.le_trans (hout msg hmsg) (hn.link hb (mem_cons_of_mem _ hdep) hml)

section
variable (h : Resting bound datas data top spent g)
include h

theorem Resting.beginBlock {first : List Message}
    (hn : Next bound datas top spent e m) (hbegin : beginBlock g e = .ok (g', s', first)) :
    Mid bound datas data top m (e.prev :: spent) g' s' ∧ ∀ msg ∈ first, msg.round ≤ m := by
  have hstart : About (upTo m) ((g.params.nodeCount + 63) >>> 6) g.heap
      (findOrCreateState g e) := by
    unfold findOrCreateState
    split
    · cases hst : g.statess e.prev with
      | none => exact about_empty g.heap
      | some st =>
        obtain ⟨ml, hml, habout, _⟩ := h.bounded.stored e.prev st hst
        have hle := hn.link h.bounded mem_cons_self hml
        exact (habout.imp (fun _ _ _ hr => Nat.le_trans hr hle)).clone _
    · exact about_empty g.heap
  have hround := hn.round h.bounded
  have hblock : BlockAbout (upTo m) (fun _ => True) g.params.nodes e.block :=
    ⟨hround, trivial, fun _ _ => hround⟩
  obtain ⟨⟨hs', hfirst⟩, _⟩ := hstart.beginBlock hblock hbegin
  obtain ⟨hw, hu⟩ := h.unshared.beginBlock hn.prev hbegin
  have hg' := beginBlock_graph hbegin
  have hnext : g.heap.next ≤ g'.heap.next := by
    obtain ⟨_, sp, ho, hgp, _⟩ := beginBlock_cases hbegin
    obtain ⟨tval, _, ho⟩ := openBlock_cases ho
    have hle := schedule_next_le g.params e.block.round ((e.block.round + tval) % 2 ^ 64) g.heap
      (delayed g e tval)
    rw [ho] at hle
    rw [hgp]
    exact hle
  rw [hg'] at hu hs' hw ⊢
  exact ⟨⟨h.bounded.unseen hnext hu, hw, hs', h.pending, hn.le⟩,
    fun msg hmsg => (hfirst msg hmsg).about⟩

theorem Resting.calls {g1 : Graph} {s1 : State} {first : List Message} {cs : List Call}
    (hn : Next bound datas top spent e m)
    (hbegin : Blockmania.beginBlock g e = .ok (g1, s1, first))
    (hlog : Log e.block.node e.block (Source g e first) g1 s1 cs g' s') :
    Mid bound datas data top m (e.prev :: spent) g' s' ∧
      ∀ msg ∈ first ++ responses cs, msg.round ≤ m := by
  obtain ⟨hmid, hfirst⟩ := h.beginBlock hn hbegin
  have hsrc : ∀ x msg, Source g e first x msg → msg.round ≤ m := by
    rintro x msg (⟨_, hmsg⟩ | ⟨dep, hdep, _, hmsg⟩)
    · exact hfirst msg hmsg
    · exact hn.output h.bounded hdep hmsg
  obtain ⟨hend, hresp⟩ := hmid.log hsrc hlog
  refine ⟨hend, ?_⟩
  intro msg hmsg
  rcases mem_append.mp hmsg with hmsg | hmsg
  · exact hfirst msg hmsg
  · exact hresp msg hmsg

/-- **A block keeps the values above what the states mention.** -/
theorem Resting.process (hn : Next bound datas top spent e m) (hp : process g e = .ok g') :
    Resting bound datas data top (e.prev :: spent) g' := by
  obtain ⟨g2, s2, calls, hi, hg'⟩ := process_cases hp
  obtain ⟨g1, s1, first, s3, hbegin, hlog, hs2⟩ := interpret_log hi
  obtain ⟨hmid, hout⟩ := h.calls hn hbegin hlog
  refine ⟨?_, h.unshared.process hn.prev hp, ?_⟩
  · subst hg' hs2
    refine ⟨hmid.bounded.filed, ?_, hmid.bounded.covers, hmid.bounded.resolved, hmid.bounded.own⟩
    intro b st hst
    rcases PMap.of_set hst with ⟨heq, hst⟩ | ⟨heq, hst⟩
    · refine ⟨m, heq ▸ hn.value, ?_, ?_⟩
      · rw [← hst]
        exact hmid.state.congr rfl rfl rfl rfl
      · rw [← hst]
        exact hout
    · exact hmid.bounded.stored b st hst
  · subst hg'
    exact hmid.pending

end

end Block

/-! ## §6. A run. -/

section Run
variable {nodes : List Nat} {lastInterpreted : Nat} {grow : Nat → Nat}
  {datas : List BlockGraph} {data : BlockGraph} {g g' : Graph}

/-- What is used of a feed that does not fork. -/
def Continued (es : List Entry) : Prop :=
  ((es.filter (fun e => e.prev.valid)).map Entry.prev).Nodup

theorem Continued.left {es es' : List Entry} (h : Continued (es ++ es')) : Continued es := by
  unfold Continued at h
  rw [filter_append, map_append] at h
  exact (nodup_append.mp h).1

theorem Continued.prev {es post : List Entry} {e : Entry} (h : Continued (es ++ e :: post))
    (hv : e.prev.valid) : e.prev ∉ (es.map Entry.prev).reverse := by
  intro hmem
  obtain ⟨e', he', heq⟩ := mem_map.mp (mem_reverse.mp hmem)
  unfold Continued at h
  rw [filter_append, map_append] at h
  have hleft : e.prev ∈ (es.filter (fun e => e.prev.valid)).map Entry.prev :=
    mem_map.mpr ⟨e', mem_filter.mpr ⟨he', by rw [heq]; exact hv⟩, heq⟩
  have hright : e.prev ∈ ((e :: post).filter (fun e => e.prev.valid)).map Entry.prev :=
    mem_map.mpr ⟨e, mem_filter.mpr ⟨mem_cons_self, hv⟩, rfl⟩
  exact (nodup_append.mp h).2.2 _ hleft _ hright rfl

theorem Bounded.processed {bound : PMap BlockID Nat} {pre : List Entry} (hb : Bounded bound datas g)
    (hu : Unshared g ((entries datas).map Entry.prev).reverse)
    (hord : Ordered (entries (datas ++ [data]))) (hcont : Continued (entries (datas ++ [data])))
    (hpre : ∃ post, entriesOf data = pre ++ post)
    (h : pre.foldlM Blockmania.process (Blockmania.register g data) = .ok g') :
    ∃ bound' top, Resting bound' (datas ++ [data]) data top
        (((entries datas ++ pre).map Entry.prev).reverse) g' ∧
      ∀ e ∈ entriesOf data, ∃ m, bound' e.block = some m ∧ m ≤ top := by
  obtain ⟨bound', top, hreg, hpend, hvalues⟩ := hb.register hord
  refine ⟨bound', top, ?_, hvalues⟩
  obtain ⟨post, hpost⟩ := hpre
  have hall := entries_snoc datas data
  refine foldlM_inv_split (fun done x => Resting bound' (datas ++ [data]) data top
    (((entries datas ++ done).map Entry.prev).reverse) x) ?_ ?_ h
  · rw [append_nil]
    exact ⟨hreg, hu.mono rfl (fun _ _ hst => hst), hpend⟩
  intro done e rest hsplit x y hx hstep
  have hmem : e ∈ entriesOf data := by
    rw [hpost, hsplit]
    simp
  obtain ⟨m, hm, hle⟩ := hvalues e hmem
  have hnext : Next bound' (datas ++ [data]) top
      (((entries datas ++ done).map Entry.prev).reverse) e m := by
    refine ⟨hall ▸ mem_append_right _ hmem, hm, hle, ?_⟩
    have hsplit' : entries (datas ++ [data]) =
        (entries datas ++ done) ++ e :: (rest ++ post) := by
      rw [hall, hpost, hsplit]
      simp
    rw [hsplit'] at hcont
    exact hcont.prev
  have hres := hx.process hnext hstep
  have hspent : ((entries datas ++ (done ++ [e])).map Entry.prev).reverse =
      e.prev :: ((entries datas ++ done).map Entry.prev).reverse := by
    rw [← append_assoc, map_append, reverse_append]
    rfl
  rw [hspent]
  exact hres

theorem bounded_new (nodes : List Nat) (lastInterpreted : Nat) (grow : Nat → Nat) :
    Bounded .empty [] (new nodes lastInterpreted grow) where
  filed := ⟨⟨fun _ _ h => absurd h (by simp [new]), fun _ _ h => absurd h (by simp)⟩,
    fun _ _ h => absurd h (by simp), fun _ he => absurd he (by simp [entries])⟩
  stored := fun _ _ h => absurd h (by simp [new])
  covers := fun _ h => absurd h (by simp [new])
  resolved := fun _ _ h => absurd h (by simp [new])
  own := ⟨[], rfl⟩

theorem unshared_new (nodes : List Nat) (lastInterpreted : Nat) (grow : Nat → Nat)
    (spent : List BlockID) : Unshared (new nodes lastInterpreted grow) spent where
  allocated := fun _ _ h => absurd h (by simp [new])
  behind := fun _ _ _ _ h => absurd h (by simp [new])
  apart := fun _ _ _ _ h => absurd h (by simp [new])

theorem bounded_run (hord : Ordered (entries datas)) (hcont : Continued (entries datas))
    (h : datas.foldlM addBlock (new nodes lastInterpreted grow) = .ok g) :
    ∃ bound, Bounded bound datas g ∧ Unshared g ((entries datas).map Entry.prev).reverse := by
  refine foldlM_inv_split (fun done x => ∃ bound, Bounded bound done x ∧
    Unshared x ((entries done).map Entry.prev).reverse) ?_ ?_ h
  · exact ⟨.empty, bounded_new nodes lastInterpreted grow,
      unshared_new nodes lastInterpreted grow _⟩
  rintro done data rest hsplit x y ⟨bound, hb, hu⟩ hstep
  have hall : entries datas = entries (done ++ [data]) ++ entries rest := by
    rw [hsplit, ← entries_append, append_assoc]
    rfl
  rw [hall] at hord hcont
  obtain ⟨bound', top, hres, _⟩ := hb.processed hu hord.left hcont.left ⟨[], by simp⟩ hstep
  refine ⟨bound', hres.bounded, ?_⟩
  rw [entries_snoc]
  exact hres.unshared

theorem Calling.mid {before : Graph} {e : Entry} {first : List Message} {cs : List Call}
    {s : State} (h : Calling nodes lastInterpreted grow datas data before e first cs g s)
    (hord : Ordered (entries (datas ++ [data]))) (hcont : Continued (entries (datas ++ [data]))) :
    ∃ bound top m spent, Mid bound (datas ++ [data]) data top m spent g s ∧
      (∀ msg ∈ first ++ responses cs, msg.round ≤ m) ∧
      ∀ x msg, Source before e first x msg → msg.round ≤ m := by
  obtain ⟨g0, pre, post, hrun, hentries, hpre⟩ := h.reached
  obtain ⟨g1, s1, hbegin, hlog⟩ := h.log
  have hall := entries_snoc datas data
  have hord' := hord
  have hcont' := hcont
  rw [hall] at hord' hcont'
  obtain ⟨bound, hb, hu⟩ := bounded_run hord'.left hcont'.left hrun
  obtain ⟨bound', top, hres, hvalues⟩ := hb.processed hu hord hcont ⟨e :: post, hentries⟩ hpre
  have hmem : e ∈ entriesOf data := by
    rw [hentries]
    simp
  obtain ⟨m, hm, hle⟩ := hvalues e hmem
  have hnext : Next bound' (datas ++ [data]) top
      (((entries datas ++ pre).map Entry.prev).reverse) e m := by
    refine ⟨hall ▸ mem_append_right _ hmem, hm, hle, ?_⟩
    rw [hentries, ← append_assoc] at hcont'
    exact hcont'.prev
  obtain ⟨hmid, hout⟩ := hres.calls hnext hbegin hlog
  refine ⟨bound', top, m, _, hmid, hout, ?_⟩
  rintro x msg (⟨_, hmsg⟩ | ⟨dep, hdep, _, hmsg⟩)
  · exact hout msg (mem_append_left _ hmsg)
  · exact hnext.output hres.bounded hdep hmsg

/-- **At every moment the values bound what the states mention.** -/
theorem Reaches.bounded {current : Option State}
    (h : Reaches nodes lastInterpreted grow datas g current)
    (hord : Ordered (entries datas)) (hcont : Continued (entries datas)) :
    ∃ bound, Bounded bound datas g := by
  cases h with
  | rest h =>
    obtain ⟨bound, hb, _⟩ := bounded_run hord hcont h
    exact ⟨bound, hb⟩
  | calls h =>
    obtain ⟨bound, _, _, _, hmid, _⟩ := h.mid hord hcont
    exact ⟨bound, hmid.bounded⟩

end Run

/-! ## §7. The calls of `deliverRound`. -/

/-- **A call of `deliverRound`**: the next call for a block decides about the current round, which
is then complete, or that call has delivered the round before this one. -/
def Delivering (nodes : List Nat) (lastInterpreted : Nat) (grow : Nat → Nat)
    (datas : List BlockGraph) (data : BlockGraph) (g : Graph) (round : Nat)
    (hashes : AList (fun _ : Nat => Hash)) : Prop :=
  ∃ before e first cs g0 s0 sender msg r hash hashes0,
    Calling nodes lastInterpreted grow datas data before e first cs g0 s0 ∧
    (Source before e first sender msg ∨ ∃ c ∈ cs, c.sender = sender ∧ c.resp = some msg) ∧
    react g0.params g0.heap s0 sender e.block.node e.block msg = .ok r ∧
    r.decided = some hash ∧
    msg.round = g0.round ∧
    hashes0 = noteHash ((g0.resolved.lookup msg.round).getD ∅) msg.node hash ∧
    hashes0.entries.length = g0.params.nodeCount ∧
    Enters { g0 with heap := r.heap, resolved := g0.resolved.insert msg.round hashes0 } msg.round
      hashes0 g round hashes

section Delivering
variable {nodes : List Nat} {lastInterpreted : Nat} {grow : Nat → Nat}
  {datas : List BlockGraph} {data : BlockGraph} {bound : PMap BlockID Nat} {g : Graph} {round : Nat}
  {hashes : AList (fun _ : Nat => Hash)}

theorem Delivering.entered (h : Delivering nodes lastInterpreted grow datas data g round hashes)
    (hord : Ordered (entries (datas ++ [data]))) (hcont : Continued (entries (datas ++ [data]))) :
    ∃ bound top, Entered bound (datas ++ [data]) data top g round hashes := by
  obtain ⟨before, e, first, cs, g0, s0, sender, msg, r, _, hashes0, hcall, hsrc, hreact, _,
    hround, _, _, henters⟩ := h
  obtain ⟨bound, top, m, spent, hmid, hout, hsource⟩ := hcall.mid hord hcont
  have hm : msg.round ≤ m := by
    rcases hsrc with hsrc | ⟨c, hc, _, hresp⟩
    · exact hsource sender msg hsrc
    · exact hout msg (mem_append_right _ (mem_responses.mpr ⟨c, hc, hresp⟩))
  obtain ⟨hafter, _⟩ := hmid.reacts hm (react_cases hreact)
  have hfile := hafter.bounded.file hafter.pending (Nat.le_trans hm hmid.le)
    (Nat.le_of_eq hround.symm) hashes0
  have hentered : Entered bound (datas ++ [data]) data top
      { g0 with heap := r.heap, resolved := g0.resolved.insert msg.round hashes0 } msg.round
      hashes0 := ⟨hfile, hafter.pending, hround, AList.lookup_insert _⟩
  exact ⟨bound, top, hentered.enters henters⟩

/-- Own blocks of consecutive rounds: each is that of the first plus its position. -/
theorem round_of_isChain {blocks : List BlockInfo} {first : BlockInfo} {rest : List BlockInfo}
    (hblocks : blocks = first :: rest)
    (hc : blocks.IsChain (fun a b => b.data.block.round = a.data.block.round + 1)) {i : Nat}
    {info : BlockInfo} (hi : blocks[i]? = some info) :
    info.data.block.round = first.data.block.round + i := by
  induction i generalizing info with
  | zero =>
    rw [hblocks] at hi
    injection hi with hi
    rw [hi, Nat.add_zero]
  | succ i ih =>
    obtain ⟨hlt, heq⟩ := List.getElem?_eq_some_iff.mp hi
    have hstep := isChain_iff_getElem.mp hc i hlt
    have hbefore := ih (getElem?_eq_getElem (by omega))
    rw [heq] at hstep
    omega

/-- In a list whose values do not decrease, those up to a round come first. -/
theorem mem_consumedBlocks {blocks : List BlockInfo} {info : BlockInfo}
    (hsorted : blocks.Pairwise (fun a b => a.max ≤ b.max)) (hinfo : info ∈ blocks) :
    info ∈ consumedBlocks blocks round ↔ info.max ≤ round := by
  constructor
  · intro hmem
    simpa using mem_takeWhile_imp hmem
  intro hle
  unfold consumedBlocks
  induction blocks with
  | nil => cases hinfo
  | cons a rest ih =>
    obtain ⟨hfirst, hrest⟩ := pairwise_cons.mp hsorted
    have ha : a.max ≤ round := by
      rcases mem_cons.mp hinfo with heq | hinfo
      · exact heq ▸ hle
      · exact Nat.le_trans (hfirst info hinfo) hle
    rw [takeWhile_cons_of_pos (by simpa using ha)]
    rcases mem_cons.mp hinfo with heq | hinfo
    · exact heq ▸ mem_cons_self
    · exact mem_cons_of_mem a (ih hrest hinfo)

/-- The own blocks of a graph have consecutive rounds, and their values do not decrease. -/
theorem Bounded.chain (h : Bounded bound datas g) (hfed : Fed datas) :
    g.blocks.IsChain (fun a b => b.data.block.round = a.data.block.round + 1) ∧
      g.blocks.Pairwise (fun a b => a.max ≤ b.max) := by
  obtain ⟨gone, hgone⟩ := h.own
  have hown : (g.blocks.map BlockInfo.data).IsChain
      (fun a b => b.block.round = a.block.round + 1 ∧ b.prev = a.block) := by
    have hown := hfed.own
    rw [hgone] at hown
    exact hown.right_of_append
  have hstep := isChain_map BlockInfo.data |>.mp hown
  have hmax : g.blocks.IsChain (fun a b => a.max ≤ b.max) := by
    refine List.IsChain.imp_of_mem_imp ?_ hstep
    rintro a b ha hb ⟨_, hprev⟩
    have hdata : b.data ∈ datas := hgone ▸ mem_append_right _ (mem_map_of_mem hb)
    have hself : selfEntry b.data ∈ entries datas := mem_flatMap.mpr
      ⟨b.data, hdata, mem_append_right _ mem_cons_self⟩
    obtain ⟨m, hm, _, hlinks⟩ := h.filed.links _ hself
    have hb' := (h.covers b hb).1
    have hm : bound b.data.block = some m := hm
    rw [hm] at hb'
    injection hb' with hb'
    have hle := hlinks b.data.prev mem_cons_self a.max (hprev ▸ (h.covers a ha).1)
    omega
  exact ⟨hstep.imp (fun _ _ hab => hab.1), isChain_iff_pairwise.mp hmax⟩

end Delivering

/-- What the values of a graph say: no state mentions a round above the value of its block, which is
at least that of every block it refers to. -/
structure Covered (datas : List BlockGraph) (g : Graph) : Prop where
  mentions : ∀ b m st, g.max b = some m → g.statess b = some st → MentionsUpTo m g.heap st
  links : ∀ e ∈ entries datas, ∀ l ∈ e.links, ∀ m ml, g.max e.block = some m →
    g.max l = some ml → ml ≤ m

/-- What a call of `deliverRound` finds: there is an own block, the states it deletes mention no
later round, and `Consumed` is the round of the last own block with a value up to `round`, or the
one before the first it keeps. -/
structure Consumes (g : Graph) (round : Nat) (hashes : AList (fun _ : Nat => Hash)) : Prop where
  blocks : g.blocks ≠ []
  gone : ∀ b ∈ goneBlocks g.blocks round, ∀ st, g.statess b = some st →
    MentionsUpTo round g.heap st
  upTo : ∀ info ∈ g.blocks, info ∈ consumedBlocks g.blocks round ↔ info.max ≤ round
  last : ∀ first ∈ g.blocks.head?, ∀ info ∈ (consumedBlocks g.blocks round).getLast?,
    (g.report first round hashes).consumed = info.data.block.round
  kept : ∀ first ∈ g.blocks.head?,
    ∀ info ∈ (g.blocks.drop (consumedBlocks g.blocks round).length).head?,
      (g.report first round hashes).consumed + 1 = info.data.block.round

theorem Bounded.covered {bound : PMap BlockID Nat} {g : Graph}
    (h : Bounded bound datas g) : Covered datas g where
  mentions := by
    intro b m st hm hst
    obtain ⟨m', hm', habout, hout⟩ := h.stored b st hst
    rw [h.filed.remembers.kept b m hm] at hm'
    cases hm'
    exact habout.mentionsUpTo hout
  links := by
    intro e he l hl m ml hm hml
    obtain ⟨m', hm', _, hlinks⟩ := h.filed.links e he
    rw [h.filed.remembers.kept e.block m hm] at hm'
    cases hm'
    exact hlinks l hl ml (h.filed.remembers.kept l ml hml)

theorem Entered.consumes {bound : PMap BlockID Nat} {data : BlockGraph}
    {top : Nat} {g : Graph} {round : Nat} {hashes : AList (fun _ : Nat => Hash)}
    (h : Entered bound datas data top g round hashes) (hfed : Fed datas)
    (hpos : ∀ data ∈ datas, 1 ≤ data.block.round) : Consumes g round hashes := by
  obtain ⟨hchain, hsorted⟩ := h.bounded.chain hfed
  have hfirst : ∀ first ∈ g.blocks.head?, 1 ≤ first.data.block.round := by
    intro first hmem
    obtain ⟨gone, hgone⟩ := h.bounded.own
    refine hpos first.data (hgone ▸ mem_append_right _ (mem_map_of_mem ?_))
    exact mem_of_mem_head? hmem
  have hround : ∀ first ∈ g.blocks.head?, ∀ (i : Nat) (info : BlockInfo),
      g.blocks[i]? = some info → info.data.block.round = first.data.block.round + i := by
    intro first hmem i info hi
    obtain ⟨rest, hblocks⟩ := head?_eq_some_iff.mp hmem
    exact round_of_isChain hblocks hchain hi
  have hsplit := consumed_append_drop g.blocks round
  refine ⟨?_, ?_, fun info hinfo => mem_consumedBlocks hsorted hinfo, ?_, ?_⟩
  · obtain ⟨info, hinfo, _⟩ := h.bounded.resolved round (Nat.le_of_eq h.current.symm)
      (by rw [h.look]; rfl)
    exact ne_nil_of_mem hinfo
  · intro b hb st hst
    obtain ⟨m, hm, hle⟩ := h.bounded.gone hb
    obtain ⟨m', hm', habout, hout⟩ := h.bounded.stored b st hst
    rw [hm] at hm'
    cases hm'
    exact (habout.mentionsUpTo hout).mono hle
  · intro first hmem info hinfo
    have h1 := hfirst first hmem
    rw [getLast?_eq_getElem?] at hinfo
    have hlen : (consumedBlocks g.blocks round).length - 1 <
        (consumedBlocks g.blocks round).length := (List.getElem?_eq_some_iff.mp hinfo).1
    have hi : g.blocks[(consumedBlocks g.blocks round).length - 1]? = some info := by
      have happ : (consumedBlocks g.blocks round ++
          g.blocks.drop (consumedBlocks g.blocks round).length)[
            (consumedBlocks g.blocks round).length - 1]? = _ := getElem?_append_left hlen
      rw [hsplit] at happ
      rw [happ, hinfo]
    have hr := hround first hmem _ info hi
    show first.data.block.round - 1 + (consumedBlocks g.blocks round).length = _
    omega
  intro first hmem info hinfo
  have h1 := hfirst first hmem
  rw [head?_drop] at hinfo
  have hr := hround first hmem _ info hinfo
  show first.data.block.round - 1 + (consumedBlocks g.blocks round).length + 1 = _
  omega

/-- **What `deliverRound` deletes is not needed any more**, if chains do not fork: the values always
bound what states mention, and every call of `deliverRound` finds an own block, deletes states that
mention no later round and reports the right restart point. -/
theorem deleted_states_never_needed (nodes : List Nat) (lastInterpreted : Nat) (grow : Nat → Nat)
    (datas : List BlockGraph) (hfed : Fed datas) (hu : Unforked datas) :
    (∀ g current, Reaches nodes lastInterpreted grow datas g current → Covered datas g) ∧
      ∀ before data g round hashes, datas = before ++ [data] →
        Delivering nodes lastInterpreted grow before data g round hashes →
        Consumes g round hashes := by
  have hord := hfed.ordered hu
  constructor
  · intro g current hreach
    obtain ⟨bound, hb⟩ := hreach.bounded hord hu.prev
    exact hb.covered
  intro before data g round hashes heq hdel
  subst heq
  obtain ⟨bound, top, hentered⟩ := hdel.entered hord hu.prev
  exact hentered.consumes hfed hu.positive

/-- A graph of two nodes that delivers a round. -/
theorem deleted_states_never_needed_two_nodes :
    let datas := [ownAt 1 1 [], ownAt 1 2 [depAt 2 1 [], depAt 2 2 []],
      ownAt 1 3 [depAt 2 3 [blockAt 1 2]], ownAt 1 4 [depAt 2 4 [blockAt 1 3]]]
    ∃ g, Reaches [1, 2] 0 (2 * ·) datas g none ∧ g.cb ≠ [] ∧ Covered datas g := by
  intro datas
  have hfed : Fed datas := ⟨by decide, by decide, by decide⟩
  have hu : Unforked datas := ⟨by decide, by decide, by decide, by decide⟩
  have hrun : endsIn (datas.foldlM addBlock (new [1, 2] 0 (2 * ·))) (fun g => g.cb ≠ []) = true := by
    decide +kernel
  obtain ⟨g, hg, hcb⟩ := exists_of_endsIn hrun fun _ _ h => h
  have hreach : Reaches [1, 2] 0 (2 * ·) datas g none := .rest hg
  have hcov := (deleted_states_never_needed [1, 2] 0 (2 * ·) datas hfed hu).1 g none hreach
  exact ⟨g, hreach, hcb, hcov⟩

def otherAt (round : Nat) : BlockID := ⟨[UInt8.ofNat round], 2, round⟩

def otherDep (round : Nat) (deps : List BlockID) : Dep :=
  ⟨otherAt round, deps, if round = 21 then blockAt 2 20 else otherAt (round - 1)⟩

/-- Node 2 continues its block of round 20 twice. References raise its delay, so that timeouts for
several rounds fall on round 41: both branches append to one array. -/
def forkDeps : List Dep :=
  idleDeps 4 1 5 ++ [depAt 3 1 [blockAt 4 5]] ++ idleDeps 3 2 30 ++
    [depAt 2 1 [blockAt 3 5]] ++ idleDeps 2 2 10 ++ [depAt 2 11 [blockAt 3 8]] ++
    idleDeps 2 12 20 ++ [depAt 2 21 [blockAt 3 19]] ++
    (List.range 10).map (fun i => otherDep (i + 21) []) ++ [otherDep 31 [blockAt 3 30]]

def mentionsLater (g : Graph) : Bool :=
  decide (g.max (blockAt 2 21) = some 21) &&
    (g.statess (blockAt 2 21)).any (fun st =>
      (g.heap.read 41 (st.timeouts 41)).any (fun t => t.round.beq 31))

/-- **A fork puts a later round into a state**: `graph.max` of the block of round 21 is 21, and a
timeout of it, overwritten by the second branch, is for round 31. -/
theorem forked_timeouts_exceed_max : let datas := [ownAt 1 1 forkDeps]
    Fed datas ∧ (∀ e ∈ entries datas, ∀ l ∈ e.links, l = BlockID.zero ∨ l ∈ added datas) ∧
      ∃ g b st, Reaches [1, 2, 3, 4, 5] 0 (2 * ·) datas g none ∧ g.max b = some 21 ∧
        g.statess b = some st ∧ ¬ MentionsUpTo 21 g.heap st := by
  intro datas
  have hfed : Fed datas := ⟨by decide, by decide +kernel, by decide +kernel⟩
  refine ⟨hfed, by decide +kernel, ?_⟩
  have hrun : endsIn (datas.foldlM addBlock (new [1, 2, 3, 4, 5] 0 (2 * ·)))
      (fun g => mentionsLater g = true) = true := by decide +kernel
  obtain ⟨g, hg, hlater⟩ := exists_of_endsIn hrun fun _ _ h => h
  obtain ⟨hmax, hany⟩ := Bool.and_eq_true_iff.mp hlater
  obtain ⟨st, hst, hany⟩ := (Option.any_eq_true _ _).mp hany
  obtain ⟨t, ht, heq⟩ := any_eq_true.mp hany
  refine ⟨g, blockAt 2 21, st, .rest hg, of_decide_eq_true hmax, hst, ?_⟩
  intro hm
  have hle := hm.timeouts 41 t ht
  have heq : t.round = 31 := Nat.eq_of_beq_eq_true heq
  omega

end Chainspace.Blockmania
