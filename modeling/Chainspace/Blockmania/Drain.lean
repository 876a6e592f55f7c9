/-
  Chainspace.Blockmania.Drain — the second loop of `processMessages` reaches the end of its list.

  The loop appends to the list it traverses. A response leads to fewer further responses than its
  message (`Message.weight`), so the weight of what is still to be traversed goes down in each
  round: the fuel of the model is enough.
-/
import Chainspace.Blockmania.Calls

namespace Chainspace.Blockmania

open Chainspace.Lib List

/-! ## §1. Weights. -/

theorem Reacts.weight {p : Params} {h : Heap} {s : State} {sender receiver : Nat}
    {origin : BlockID} {msg m : Message} {r : Reaction}
    (hr : Reacts p h s sender receiver origin msg r) (hm : r.resp = some m) :
    m.weight < msg.weight := by
  cases hr with
  | prePrepareAccepted | prepareQuorum | viewChangeQuorum | newViewAccepted =>
    injection hm with hm
    rw [← hm]
    simp [Message.weight]
  | _ => exact absurd hm (by simp [Reaction.quiet])

theorem Message.weight_pos (m : Message) : 0 < m.weight := by
  cases m <;> simp [Message.weight]

/-- How many responses some messages can still lead to, themselves included. -/
def weights (ms : List Message) : Nat := (ms.map Message.weight).sum

theorem weights_append (ms ms' : List Message) :
    weights (ms ++ ms') = weights ms + weights ms' := by
  unfold weights
  rw [map_append, sum_append]

section Loops
variable {sender receiver : Nat} {origin : BlockID} {a a' : Acc} {msg : Message}

/-- One round of either loop: the message is processed, and what it appends weighs less. -/
theorem handle_weight (h : handle sender receiver origin a msg = .ok a') :
    msg ∈ a'.processed ∧ a.processed ⊆ a'.processed ∧
      ∃ new, a'.out = a.out ++ new ∧ weights new < msg.weight := by
  unfold handle at h
  split at h
  next hmem =>
    cases h
    exact ⟨hmem, fun _ hm => hm, [], by rw [append_nil], msg.weight_pos⟩
  obtain ⟨⟨g, s, resp⟩, hcall, h⟩ := bind_eq_ok.mp h
  cases h
  refine ⟨mem_cons_self, fun _ hm => mem_cons_of_mem msg hm, resp.toList, rfl, ?_⟩
  obtain ⟨r, hr, _, hresp, _⟩ := processMessage_reacts hcall
  cases resp with
  | none => exact msg.weight_pos
  | some =>
    have hlt := hr.weight hresp.symm
    simpa [weights] using hlt

/-! ## §2. The loop ends. -/

/-- The second loop as the code has it: nothing bounds its rounds. -/
inductive Drains (sender receiver : Nat) (origin : BlockID) : Nat → Acc → Except Halt Acc → Prop
  | done {i : Nat} {a : Acc} (hend : a.out[i]? = none) : Drains sender receiver origin i a (.ok a)
  | halt {i : Nat} {a : Acc} {msg : Message} {x : Halt} (hmsg : a.out[i]? = some msg)
      (h : handle sender receiver origin a msg = .error x) :
      Drains sender receiver origin i a (.error x)
  | round {i : Nat} {a a' : Acc} {msg : Message} {r : Except Halt Acc}
      (hmsg : a.out[i]? = some msg) (h : handle sender receiver origin a msg = .ok a')
      (hrest : Drains sender receiver origin (i + 1) a' r) : Drains sender receiver origin i a r

variable {i : Nat} {r : Except Halt Acc}

/-- In a round of the second loop one message is traversed, and what is left weighs less. -/
theorem handle_left (hmsg : a.out[i]? = some msg)
    (h : handle sender receiver origin a msg = .ok a') :
    a'.out.take (i + 1) = a.out.take i ++ [msg] ∧
      weights (a'.out.drop (i + 1)) < weights (a.out.drop i) := by
  obtain ⟨_, _, new, hnew, hlt⟩ := handle_weight h
  obtain ⟨hi, hget⟩ := List.getElem?_eq_some_iff.mp hmsg
  have hle : i + 1 ≤ a.out.length := hi
  constructor
  · rw [hnew, take_append_of_le_length hle, take_add_one, hmsg]
    rfl
  have hsum : weights (msg :: a.out.drop (i + 1)) = msg.weight + weights (a.out.drop (i + 1)) :=
    rfl
  rw [hnew, drop_append_of_le_length hle, weights_append, drop_eq_getElem_cons hi, hget, hsum]
  omega

/-- With fuel for what is left the loop of the model is that of the code. -/
theorem drain_drains {fuel : Nat} (hfuel : weights (a.out.drop i) ≤ fuel) :
    Drains sender receiver origin i a (drain sender receiver origin fuel i a) := by
  induction fuel generalizing i a with
  | zero =>
    -- Nothing is left: every message weighs something.
    refine .done (getElem?_eq_none_iff.mpr ?_)
    by_contra hi
    rw [drop_eq_getElem_cons (by omega)] at hfuel
    have hpos := (a.out[i]).weight_pos
    simp only [weights, map_cons, sum_cons] at hfuel
    omega
  | succ fuel ih =>
    unfold drain
    cases hmsg : a.out[i]? with
    | none => exact .done hmsg
    | some msg =>
      cases h : handle sender receiver origin a msg with
      | error =>
        simp only [h]
        exact .halt hmsg h
      | ok a1 =>
        have hlt := (handle_left hmsg h).2
        have hrest : weights (a1.out.drop (i + 1)) ≤ fuel := by omega
        simp only [h]
        exact .round hmsg h (ih hrest)

theorem Drains.inv (P : Acc → Prop) (hd : Drains sender receiver origin i a r) (hstart : P a)
    (hstep : ∀ x y m, P x → handle sender receiver origin x m = .ok y → P y) :
    ∀ a', r = .ok a' → P a' := by
  induction hd with
  | done => rintro _ ⟨⟩; exact hstart
  | halt => rintro _ ⟨⟩
  | round _ h _ ih => exact ih (hstep _ _ _ hstart h)

theorem Drains.processed (hd : Drains sender receiver origin i a r)
    (hseen : ∀ m ∈ a.out.take i, m ∈ a.processed) :
    ∀ a', r = .ok a' → ∀ m ∈ a'.out, m ∈ a'.processed := by
  induction hd with
  | done hend =>
    rintro _ ⟨⟩ m hm
    rw [← take_of_length_le (getElem?_eq_none_iff.mp hend)] at hm
    exact hseen m hm
  | halt => rintro _ ⟨⟩
  | round hmsg h _ ih =>
    obtain ⟨hdone, hsub, _⟩ := handle_weight h
    refine ih fun x hx => ?_
    rw [(handle_left hmsg h).1] at hx
    rcases mem_append.mp hx with hx | hx
    · exact hsub (hseen x hx)
    · rw [mem_singleton.mp hx]
      exact hdone

theorem Drains.length_le (hd : Drains sender receiver origin i a r) :
    ∀ a', r = .ok a' → a'.out.length ≤ i + weights (a.out.drop i) := by
  induction hd with
  | done hend =>
    rintro _ ⟨⟩
    exact Nat.le_add_right_of_le (getElem?_eq_none_iff.mp hend)
  | halt => rintro _ ⟨⟩
  | round hmsg h _ ih =>
    intro a' ha'
    have hle := ih a' ha'
    have hlt := (handle_left hmsg h).2
    omega

/-! ## §3. `processMessages`. -/

variable {msgs : List Message}

def Processes (sender receiver : Nat) (origin : BlockID) (a : Acc) (msgs : List Message)
    (r : Except Halt Acc) : Prop :=
  match msgs.foldlM (handle sender receiver origin) { a with out := [] } with
  | .error x => r = .error x
  | .ok a1 => Drains sender receiver origin 0 a1 r

theorem processMessages_processes (sender receiver : Nat) (origin : BlockID) (a : Acc)
    (msgs : List Message) : Processes sender receiver origin a msgs
      (processMessages sender receiver origin a msgs) := by
  unfold Processes processMessages
  cases msgs.foldlM (handle sender receiver origin) { a with out := [] } with
  | error x => rfl
  | ok a1 => exact drain_drains (Nat.le_refl (weights a1.out))

theorem processMessages_drains (h : processMessages sender receiver origin a msgs = .ok a') :
    ∃ a1, msgs.foldlM (handle sender receiver origin) { a with out := [] } = .ok a1 ∧
      Drains sender receiver origin 0 a1 (.ok a') := by
  obtain ⟨a1, ha1, h⟩ := bind_eq_ok.mp h
  exact ⟨a1, ha1, h ▸ drain_drains (Nat.le_refl (weights a1.out))⟩

/-- **`processMessages` processes every response it returns.** -/
theorem processMessages_done (h : processMessages sender receiver origin a msgs = .ok a') :
    ∀ m ∈ a'.out, m ∈ a'.processed := by
  obtain ⟨a1, _, hd⟩ := processMessages_drains h
  exact hd.processed nofun a' rfl

theorem processMessages_inv (P : Acc → Prop) (hstart : P { a with out := [] })
    (hstep : ∀ x y m, P x → handle sender receiver origin x m = .ok y → P y)
    (h : processMessages sender receiver origin a msgs = .ok a') : P a' := by
  obtain ⟨a1, ha1, hd⟩ := processMessages_drains h
  exact hd.inv P (foldlM_inv P hstart (fun m _ x y hx hy => hstep x y m hx hy) ha1) hstep a' rfl

theorem foldlM_weights (h : msgs.foldlM (handle sender receiver origin) a = .ok a') :
    weights a'.out ≤ weights a.out + 4 * msgs.length := by
  induction msgs generalizing a with
  | nil =>
    cases h
    exact Nat.le_refl _
  | cons msg msgs ih =>
    obtain ⟨a1, ha1, h⟩ := bind_eq_ok.mp h
    obtain ⟨_, _, new, hnew, hlt⟩ := handle_weight ha1
    have hle := ih h
    have hmax : msg.weight ≤ 5 := by cases msg <;> simp [Message.weight]
    rw [hnew, weights_append] at hle
    rw [length_cons]
    omega

def HandledOnce (a : Acc) : Prop :=
  a.processed = (a.calls.map Call.msg).reverse ∧ (a.calls.map Call.msg).Nodup

theorem HandledOnce.handle (ha : HandledOnce a)
    (h : handle sender receiver origin a msg = .ok a') : HandledOnce a' := by
  unfold Blockmania.handle at h
  split at h
  next =>
    cases h
    exact ha
  next hnew =>
    obtain ⟨⟨g, s, resp⟩, _, h⟩ := bind_eq_ok.mp h
    cases h
    rw [ha.1, mem_reverse] at hnew
    rw [HandledOnce, map_append, reverse_append, ha.1]
    exact ⟨rfl, nodup_append_comm.mp (nodup_cons.mpr ⟨hnew, ha.2⟩)⟩

theorem HandledOnce.processDeps {e : Entry} {deps : List BlockID} {out out' : List Message}
    (ha : HandledOnce a) (h : processDeps e deps (a, out) = .ok (a', out')) : HandledOnce a' := by
  induction deps generalizing a out with
  | nil =>
    cases h
    exact ha
  | cons dep deps ih =>
    obtain ⟨a1, ha1, h⟩ := bind_eq_ok.mp h
    exact ih (processMessages_inv HandledOnce ha (fun _ _ _ hx hy => hx.handle hy) ha1) h

/-- **`processMessages` ends: its second loop gets to the end of the list, there are at most four
responses to each message, and while a block is processed no message is handled twice.** -/
theorem processMessages_ends :
    (∀ sender receiver origin a msgs,
      Processes sender receiver origin a msgs (processMessages sender receiver origin a msgs) ∧
      ∀ a', processMessages sender receiver origin a msgs = .ok a' →
        a'.out.length ≤ 4 * msgs.length) ∧
    ∀ g e g' s' calls, interpret g e = .ok (g', s', calls) → (calls.map Call.msg).Nodup := by
  refine ⟨fun sender receiver origin a msgs => ⟨processMessages_processes .., fun a' h => ?_⟩,
    fun g e g' s' calls h => ?_⟩
  · obtain ⟨a1, ha1, hd⟩ := processMessages_drains h
    have hweights : weights a1.out ≤ 0 + 4 * msgs.length := foldlM_weights ha1
    have hlength : a'.out.length ≤ 0 + weights a1.out := hd.length_le a' rfl
    omega
  obtain ⟨⟨g1, s1, first⟩, _, h⟩ := bind_eq_ok.mp h
  obtain ⟨a1, ha1, h⟩ := bind_eq_ok.mp h
  obtain ⟨⟨a2, out⟩, ha2, h⟩ := bind_eq_ok.mp h
  cases h
  have hstart : HandledOnce ⟨g1, s1, [], [], []⟩ := ⟨rfl, nodup_nil⟩
  have hown := processMessages_inv HandledOnce hstart (fun _ _ _ hx hy => hx.handle hy) ha1
  exact (hown.processDeps ha2).2

end Loops

end Chainspace.Blockmania
