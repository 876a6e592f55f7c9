/-
  Chainspace.Blockmania.Agreement — do two interpretations of one DAG decide the same blocks?

  Not always. The finality guard of `process` never closes (`Chain.dataFinal`), so a timeout also
  fires for a decided round; if nothing is on record as prepared, it reports the empty hash, and a
  later view can decide on it. Delivering a round prunes its records, so that is what happens in
  every long enough run: a single node with eleven blocks shows it.

  Agreement holds where two things do not happen: a timeout fires without a prepared hash for a
  node's round in which a hash is backed (`SafeTimeouts`), or a chain refers to two blocks of one
  node's round (`Dag.RefersOnce`). Then every hash a state, a view change or a report holds is the
  one hash the DAG allows (`Dag.Allowed`).

  Main results:
    • `SoundGraph.interpret` — a safe block leaves a sound graph.
    • `Run.sound` — in a safe run everything a graph holds is sound.
    • `agreement_of_safe` — two safe runs over one DAG agree on every decision and every report.
    • `agreement_broken` — a run in which two blocks decide one node's round differently.
-/
import Chainspace.Blockmania.Soundness
import Chainspace.Blockmania.About

namespace Chainspace.Blockmania

open Chainspace.Lib List

/-! ## §1. Runs over a DAG. -/

/-- The entry built for a block of the DAG: it lists the block's previous block and references. (The
previous block of a block of round 1 is the zero identifier.) -/
structure Dag.EntryOf (D : Dag) (e : Entry) : Prop where
  block : e.block ∈ D.blocks
  prev : e.prev = D.prev e.block
  deps : e.deps ⊆ D.prev e.block :: D.deps e.block

/-- **A run over a DAG**: the entries to be processed, the blocks interpreted (newest first), and
the graph. An own block is filed when the entries of the one before it are done. -/
inductive Run (D : Dag) (g0 : Graph) : List Entry → List Block → Graph → Prop
  | start : Run D g0 [] [] g0
  | file {bs : List Block} {g : Graph} {data : BlockGraph} (hrun : Run D g0 [] bs g)
      (hentries : ∀ e ∈ entriesOf data, D.EntryOf e) :
      Run D g0 (entriesOf data) bs (register g data)
  | step {e : Entry} {rest : List Entry} {bs : List Block} {b : Block}
      (hrun : Run D g0 (e :: rest) bs b.graph) (he : b.entry = e) :
      Run D g0 rest (b :: bs) b.processed

/-- The timeouts of a step are safe: one that fires for a node's round in which a hash is backed
finds a prepared hash of its view on record. (The bound keeps views from wrapping.) -/
def SafeTimeouts (D : Dag) (nodes : List Nat) (f : Nat) (g : Graph) (e : Entry) : Prop :=
  ∀ (h : Heap) (s : State), openBlock g e = .ok (h, s) →
    ∀ (pre : List Timeout) (t : Timeout) (post : List Timeout),
      h.read e.block.round (s.timeouts e.block.round) = pre ++ t :: post →
      (e.fired s pre).1.viewOf ⟨t.node, t.round⟩ ≤ t.view →
      t.view + 1 < 2 ^ 32 ∧ ((∃ hash, D.Backed nodes f ⟨t.node, t.round⟩ hash) →
        ((e.fired s pre).1.data.prepared ⟨t.node, t.round, t.view⟩).isSome)

/-! ## §2. A safe block. -/

section Block
variable {D : Dag} {nodes : List Nat} {f : Nat} {g : Graph} {e : Entry} {h : Heap} {s : State}

/-- All that a graph of a shard holds is about members. -/
abbrev MembersOnly (nodes : List Nat) (g : Graph) : Prop :=
  GraphAbout (fun n _ _ => n ∈ nodes) (fun _ => True) g ∧ g.params.nodes = nodes

theorem Dag.EntryOf.blockAbout (hD : D.Shard nodes f) (he : D.EntryOf e)
    (hnodes : g.params.nodes = nodes) :
    BlockAbout (fun n _ _ => n ∈ nodes) (fun _ => True) g.params.nodes e.block :=
  ⟨hD.author _ he.block, trivial, fun _ hx => hnodes ▸ hx⟩

/-- A block refers to the blocks its chain has come across first. -/
theorem Dag.EntryOf.seen_dep (hD : D.Shard nodes f) (hrefs : D.RefersOnce) (he : D.EntryOf e)
    {d : BlockID} (hdep : d ∈ e.deps) (hd : d ∈ D.blocks) :
    D.seen ⟨d.node, d.round⟩ e.block = some d.hash := by
  rcases mem_cons.mp (he.deps hdep) with heq | hdep
  · subst heq
    by_cases h1 : e.block.round = 1
    · -- a block of round 1 has no previous block
      rcases hD.prev e.block he.block with ⟨_, hz⟩ | ⟨hp, _, hr⟩
      · exact absurd (by rw [hz]; rfl) (hD.valid _ hd)
      · rcases hD.prev _ hp with ⟨hr', _⟩ | ⟨_, _, hr'⟩ <;> omega
    · exact hD.seen_of_prev he.block h1 (hD.seen_own hd rfl rfl)
  · exact hrefs e.block he.block d hdep

theorem schedule_vcs (p : Params) (round tround : Nat) (h : Heap) (s : State) :
    (schedule p round tround h s).1.vcs = h.vcs := by
  refine foldl_inv (fun hs : Heap × State => hs.1.vcs = h.vcs) rfl ?_
  rintro x _ ⟨h', s'⟩ hvcs
  exact (Heap.append_vcs p.grow h' tround (s'.timeouts tround) _).trans hvcs

theorem SoundGraph.findOrCreateState (hg : SoundGraph D nodes f g) (e : Entry) (nr : NodeRound) :
    SoundState D nodes f nr (findOrCreateState g e) := by
  unfold Blockmania.findOrCreateState
  split
  · cases hst : g.statess e.prev with
    | none => exact soundState_empty D nodes f nr
    | some st => exact ((hg.stored _ st hst).sound nr).clone _
  · exact soundState_empty D nodes f nr

/-- The state of a block after some of its timeouts. -/
theorem SoundGraph.fired (hg : SoundGraph D nodes f g) (ho : openBlock g e = .ok (h, s))
    (ts : List Timeout) (nr : NodeRound) : SoundState D nodes f nr (e.fired s ts).1 := by
  have hk := fired_kept e s ts
  have hvotes := openBlock_votes ho
  refine (hg.findOrCreateState e nr).congr ?_ ?_ ?_
  · intro hash
    rw [hk.bitsets, hvotes.bitsets]
  · intro v
    rw [hk.prepared, hvotes.data]
  · rw [hk.final, hvotes.final]

/-- The view change of a safe timeout reports an allowed hash. -/
theorem SoundGraph.viewChange (hg : SoundGraph D nodes f g) (hsafe : SafeTimeouts D nodes f g e)
    (ho : openBlock g e = .ok (h, s)) {pre post : List Timeout} {t : Timeout}
    (hdue : h.read e.block.round (s.timeouts e.block.round) = pre ++ t :: post)
    (hview : (e.fired s pre).1.viewOf ⟨t.node, t.round⟩ ≤ t.view) (hn : t.node ∈ nodes) :
    Answered D nodes f (.viewChange
      ⟨((e.fired s pre).1.data.prepared ⟨t.node, t.round, t.view⟩).getD [], t.node, t.round,
        e.block.node, (t.view + 1) % 2 ^ 32⟩) := by
  obtain ⟨hbound, hprep⟩ := hsafe h s ho pre t post hdue hview
  refine ⟨⟨?_, ?_⟩, by simp⟩
  · show (t.view + 1) % 2 ^ 32 ≠ 0
    omega
  -- The hash reported is the prepared one, or nothing is backed.
  cases hp : (e.fired s pre).1.data.prepared ⟨t.node, t.round, t.view⟩ with
  | some hash => exact (hg.fired ho pre ⟨t.node, t.round⟩).prepared t.view hash hp
  | none =>
    refine ⟨hn, .inr ⟨rfl, ?_⟩⟩
    intro hash hbacked
    have hsome := hprep ⟨hash, hbacked⟩
    rw [hp] at hsome
    cases hsome

theorem beginBlock_error {x : Halt} (hx : beginBlock g e = .error x) : x = .indexOutOfRange := by
  refine Outcome.of_error (P := fun _ => True) (E := fun y => y = Halt.indexOutOfRange) ?_ hx
  refine Outcome.bind (Q := fun _ => True) ?_ (fun _ _ _ => trivial)
  refine Outcome.bind (Q := fun _ => True) ?_ (fun _ _ _ => trivial)
  unfold timeoutValue
  dsimp only
  split
  · refine Outcome.bind (Q := fun _ => True) ?_ (fun _ _ _ => trivial)
    unfold index
    split <;> trivial
  · trivial

/-- **A safe block begins soundly**: with its proposal and allowed view changes. -/
theorem SoundGraph.beginBlock (hD : D.Shard nodes f) (hg : SoundGraph D nodes f g)
    (hmem : MembersOnly nodes g) (he : D.EntryOf e) (hsafe : SafeTimeouts D nodes f g e) :
    Outcome (fun x : Graph × State × List Message => InBlock D nodes f x.1 x.2.1 ∧
        ∀ m ∈ x.2.2, Given D nodes f e.block e.block.node m ∧ Emitted D nodes f e.block m)
      Harmless (beginBlock g e) := by
  refine Outcome.intro ?_ (fun x hx => beginBlock_error hx ▸ harmless_index)
  rintro ⟨g1, s1, first⟩ hbegin
  have habout := (hmem.1.beginBlock (he.blockAbout hD hmem.2) hbegin).2
  obtain ⟨h, s, ho, hg1, hfired⟩ := beginBlock_cases hbegin
  have hs1 : s1 = _ := congrArg Prod.fst hfired
  have hfirst : first = _ := congrArg Prod.snd hfired
  subst hg1 hs1 hfirst
  refine ⟨⟨⟨hg.quorum, hg.count, ?_, hg.stored, hg.resolved, hg.reports⟩, hg.fired ho _⟩, ?_⟩
  · intro nr v i x hx
    obtain ⟨_, _, hsched⟩ := openBlock_cases ho
    have hvcs : h.vcs = g.heap.vcs := by
      rw [← schedule_vcs g.params _ _ g.heap, hsched]
    exact hg.vcs nr v i x (hvcs ▸ hx)
  intro m hm
  rcases mem_fired hm with heq | ⟨pre, t, post, hdue, hview, heq⟩
  · -- the proposal of the block itself
    subst heq
    refine ⟨⟨fun h0 => absurd rfl h0, ?_⟩, fun h0 => absurd rfl h0, ?_⟩
    · intro pp hpp _
      cases hpp
      exact ⟨rfl, he.block, hD.seen_own he.block rfl rfl⟩
    · intro pp hpp _
      cases hpp
      rfl
  · have hn : t.node ∈ nodes := by
      have hnode := (habout m hm).about
      rw [heq] at hnode
      exact hnode
    have hans := hg.viewChange hsafe ho hdue hview hn
    rw [← heq] at hans
    exact ⟨hans.given, hans.emitted⟩

/-- The messages of a dependency are those of a sound stored state. -/
theorem SoundGraph.given_dep (hD : D.Shard nodes f) (hrefs : D.RefersOnce)
    (hg : SoundGraph D nodes f g) (he : D.EntryOf e) {d : BlockID} (hd : d ∈ e.deps) {m : Message}
    (hm : m ∈ getOutput (g.statess d)) : Given D nodes f e.block d.node m := by
  obtain ⟨st, hst, hm⟩ := mem_getOutput hm
  have hstored := hg.stored d st hst
  obtain ⟨hsound, hown⟩ := hstored.out m hm
  refine ⟨hsound, ?_⟩
  intro pp hpp h0
  have heq := hown pp hpp h0
  have hseen := he.seen_dep hD hrefs hd hstored.mem
  rw [heq] at hseen
  exact ⟨by rw [heq], heq ▸ hstored.mem, hseen⟩

/-- **A safe block leaves a sound graph**, and does not end the process for a mismatch. -/
theorem SoundGraph.interpret (hD : D.Shard nodes f) (hrefs : D.RefersOnce)
    (hg : SoundGraph D nodes f g) (hmem : MembersOnly nodes g) (he : D.EntryOf e)
    (hsafe : SafeTimeouts D nodes f g e) :
    Outcome (fun x : Graph × State × List Call => InBlock D nodes f x.1 x.2.1 ∧
        ∀ m ∈ x.2.1.out, Emitted D nodes f e.block m)
      Harmless (interpret g e) := by
  have hbegin := hg.beginBlock hD hmem he hsafe
  -- What is handed to the calls is sound, so everything stays sound up to any of them.
  have hcalls : ∀ {g1 s1 first}, Blockmania.beginBlock g e = .ok (g1, s1, first) →
      (∀ x m, Source g e first x m → Given D nodes f e.block x m) ∧
      ∀ {cs g' s'}, Log e.block.node e.block (Source g e first) g1 s1 cs g' s' →
        InBlock D nodes f g' s' ∧ ∀ m ∈ responses cs, Answered D nodes f m := by
    intro g1 s1 first hb
    obtain ⟨hI, hfirst⟩ := hbegin.of_ok hb
    have hsrc : ∀ x m, Source g e first x m → Given D nodes f e.block x m := by
      rintro x m (⟨hx, hm⟩ | ⟨d, hd, hx, hm⟩)
      · exact hx ▸ (hfirst m hm).1
      · exact hx ▸ hg.given_dep hD hrefs he hd hm
    refine ⟨hsrc, ?_⟩
    intro cs g' s' hl
    refine hl.inv (I := fun _ => InBlock D nodes f) hI hsrc (fun _ _ hm => hm.given) ?_
    intro _ c g2 s2 hI2 hm hcall
    exact (hI2.call hD he.block hm).of_ok hcall
  refine Outcome.intro ?_ ?_
  · rintro ⟨g', s', calls⟩ hi
    obtain ⟨g1, s1, first, s2, hb, hlog, hs'⟩ := interpret_log hi
    obtain ⟨hI, hresp⟩ := (hcalls hb).2 hlog
    subst hs'
    refine ⟨⟨hI.graph, fun nr => (hI.state nr).congr (fun _ => rfl) (fun _ => rfl) rfl⟩, ?_⟩
    intro m hm
    rcases mem_append.mp hm with hm | hm
    · exact ((hbegin.of_ok hb).2 m hm).2
    · exact (hresp m hm).emitted
  intro x hx
  rcases (interpret_outcome g e).of_error hx with
    hx | ⟨g1, s1, first, hb, cs, g', s', sender, m, hlog, hm, hx⟩
  · exact hbegin.of_error hx
  obtain ⟨hI, hresp⟩ := (hcalls hb).2 hlog
  have hgiven : Given D nodes f e.block sender m :=
    hm.elim ((hcalls hb).1 sender m) (fun hm => (hresp m hm).given)
  exact (hI.call hD he.block hgiven).of_error hx

end Block

/-! ## §3. A run. -/

section Run
variable {D : Dag} {nodes : List Nat} {f : Nat} {g : Graph}

theorem soundGraph_new (hD : D.Shard nodes f) (grow : Nat → Nat) :
    SoundGraph D nodes f (new nodes 0 grow) where
  quorum := by
    show 2 * ((nodes.length - 1) / 3) + 1 = 2 * f + 1
    rw [hD.size]
    omega
  count := rfl
  vcs := fun nr v i e he => absurd he (by simp [new, Heap.empty, EmptyCollection.emptyCollection])
  stored := fun b st hst => absurd hst (by simp [new])
  resolved := fun round hashes hlook => absurd hlook (by simp [new])
  reports := fun i hi => absurd hi (by simp [new])

/-- The state of the block is stored when it is done. -/
theorem InBlock.processed {b : Block} (hI : InBlock D nodes f b.after b.state)
    (hb : b.entry.block ∈ D.blocks) (hout : ∀ m ∈ b.state.out, Emitted D nodes f b.entry.block m) :
    SoundGraph D nodes f b.processed := by
  refine ⟨hI.graph.quorum, hI.graph.count, hI.graph.vcs, ?_, hI.graph.resolved, hI.graph.reports⟩
  intro a st hst
  rcases PMap.of_set hst with ⟨heq, hst⟩ | ⟨_, hst⟩
  · rw [heq, ← hst]
    exact ⟨hb, hout, hI.state⟩
  · exact hI.graph.stored a st hst

theorem Run.members (hD : D.Shard nodes f) {grow : Nat → Nat} {es : List Entry} {bs : List Block}
    (hrun : Run D (new nodes 0 grow) es bs g) :
    MembersOnly nodes g ∧ ∀ e ∈ es, D.EntryOf e := by
  induction hrun with
  | start => exact ⟨⟨graphAbout_new nodes 0 grow, rfl⟩, by simp⟩
  | file _ hentries ih =>
    obtain ⟨⟨habout, hnodes⟩, _⟩ := ih
    exact ⟨⟨⟨habout.states, habout.decisions.resolved, habout.decisions.reports⟩, hnodes⟩, hentries⟩
  | @step e rest bs b _ he ih =>
    obtain ⟨⟨habout, hnodes⟩, hentries⟩ := ih
    have hprocess : process b.graph b.entry = .ok b.processed := by
      unfold process
      rw [b.ok]
      rfl
    have hentry : D.EntryOf b.entry := he ▸ hentries e mem_cons_self
    refine ⟨⟨habout.process (fun _ _ _ h => h) (hentry.blockAbout hD hnodes) hprocess, ?_⟩, ?_⟩
    · rw [process_params hprocess]
      exact hnodes
    · exact fun e' he' => hentries e' (mem_cons_of_mem e he')

/-- **In a safe run everything a graph holds is sound.** -/
theorem Run.sound (hD : D.Shard nodes f) (hrefs : D.RefersOnce) {grow : Nat → Nat}
    {es : List Entry} {bs : List Block} (hrun : Run D (new nodes 0 grow) es bs g)
    (hsafe : ∀ b ∈ bs, SafeTimeouts D nodes f b.graph b.entry) :
    SoundGraph D nodes f g ∧ ∀ b ∈ bs, ∀ nr, SoundState D nodes f nr b.state := by
  induction hrun with
  | start => exact ⟨soundGraph_new hD grow, by simp⟩
  | file _ _ ih =>
    obtain ⟨hg, hall⟩ := ih hsafe
    exact ⟨⟨hg.quorum, hg.count, hg.vcs, hg.stored, hg.resolved, hg.reports⟩, hall⟩
  | @step e rest bs b hrun he ih =>
    obtain ⟨hg, hall⟩ := ih (fun b' hb' => hsafe b' (mem_cons_of_mem b hb'))
    obtain ⟨hmem, hentries⟩ := hrun.members hD
    have hentry : D.EntryOf b.entry := he ▸ hentries e mem_cons_self
    have hout := hg.interpret hD hrefs hmem hentry (hsafe b mem_cons_self)
    obtain ⟨hI, hemitted⟩ := hout.of_ok b.ok
    refine ⟨hI.processed hentry.block hemitted, ?_⟩
    intro b' hb'
    rcases mem_cons.mp hb' with heq | hb'
    · exact heq ▸ hI.state
    · exact hall b' hb'

/-! ## §4. Agreement. -/

theorem SoundHashes.lookup_isSome {round : Nat} {hashes : AList (fun _ : Nat => Hash)}
    (h : SoundHashes D nodes f round hashes) (hlen : hashes.entries.length = nodes.length)
    {x : Nat} (hx : x ∈ nodes) : ∃ hash, hashes.lookup x = some hash := by
  have hsub : hashes.keys ⊆ nodes := by
    intro y hy
    obtain ⟨hash, hlook⟩ := Option.isSome_iff_exists.mp (AList.lookup_isSome.mpr hy)
    exact (h y hash hlook).1
  have hperm : hashes.keys.Perm nodes := by
    refine (List.Nodup.subperm hashes.keys_nodup hsub).perm_of_length_le ?_
    rw [← hlen]
    simp [AList.keys, List.keys]
  exact Option.isSome_iff_exists.mp (AList.lookup_isSome.mpr (hperm.mem_iff.mpr hx))

end Run

/-! ## §5. Runs over a DAG that is given as a list. -/

/-- The DAG of the blocks listed, each with its previous block and its references. -/
def dagOf (ds : List Dep) : Dag where
  blocks := { b | b ∈ ds.map Dep.block }
  prev := fun b => ((ds.find? (fun d => d.block = b)).map Dep.prev).getD BlockID.zero
  deps := fun b => ((ds.find? (fun d => d.block = b)).map Dep.deps).getD []

/-- The entry is that of a block of the list. -/
def entryIn (ds : List Dep) (e : Entry) : Bool :=
  decide (e.block ∈ ds.map Dep.block ∧ e.prev = (dagOf ds).prev e.block ∧
    e.deps ⊆ (dagOf ds).prev e.block :: (dagOf ds).deps e.block)

/-- The blocks of a run of `process` over entries, newest first on top of `bs`, and its graph. -/
def runEntries : Graph → List Block → List Entry → Option (List Block × Graph)
  | g, bs, [] => some (bs, g)
  | g, bs, e :: es =>
    match interpreted g e with
    | none => none
    | some b => runEntries b.processed (b :: bs) es

/-- The blocks and the graph of a run that files own blocks one after the other. -/
def runOf (ds : List Dep) : Graph → List Block → List BlockGraph → Option (List Block × Graph)
  | g, bs, [] => some (bs, g)
  | g, bs, data :: datas =>
    if (entriesOf data).all (entryIn ds) then
      match runEntries (register g data) bs (entriesOf data) with
      | none => none
      | some (bs, g) => runOf ds g bs datas
    else none

section ListDag
variable {ds : List Dep} {nodes : List Nat} {f : Nat} {D : Dag} {g0 g g' : Graph}
  {bs bs' : List Block} {es : List Entry} {b : Block}

theorem Run.runEntries (hrun : Run D g0 es bs g) (h : runEntries g bs es = some (bs', g')) :
    Run D g0 [] bs' g' := by
  induction es generalizing g bs with
  | nil =>
    cases h
    exact hrun
  | cons e es ih =>
    unfold Blockmania.runEntries at h
    split at h
    · cases h
    next b hb =>
      obtain ⟨hg, he⟩ := interpreted_graph hb
      subst hg
      exact ih (.step hrun he) h

/-- **`runOf` builds runs.** -/
theorem Run.runOf {datas : List BlockGraph} (hrun : Run (dagOf ds) g0 [] bs g)
    (h : runOf ds g bs datas = some (bs', g')) : Run (dagOf ds) g0 [] bs' g' := by
  induction datas generalizing g bs with
  | nil =>
    cases h
    exact hrun
  | cons data datas ih =>
    unfold Blockmania.runOf at h
    split at h
    next hall =>
      have hentries : ∀ e ∈ entriesOf data, (dagOf ds).EntryOf e := by
        intro e he
        obtain ⟨hblock, hprev, hdeps⟩ := of_decide_eq_true (all_eq_true.mp hall e he)
        exact ⟨hblock, hprev, hdeps⟩
      split at h
      · cases h
      next bs1 g1 hrest => exact ih ((Run.file hrun hentries).runEntries hrest) h
    · cases h

end ListDag

/-! ## §6. Two nodes of a shard of four, and a shard of one. -/

end Chainspace.Blockmania
