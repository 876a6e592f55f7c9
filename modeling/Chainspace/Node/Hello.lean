/-
  Chainspace.Node.Hello — who a new connection belongs to (`node/node.go`).

  A connection starts with a hello: the client's number, a nonce and a timestamp, signed.
  `verifyPeerID` checks the signature, compares the timestamp with its clock, and looks the nonce up
  among those already used, to which nothing adds one; a ticker drops those too old to matter.
  `time.Time.Sub` returns the largest or smallest duration when the difference has none, and the
  negation of the smallest is itself. A hello without a payload is let in as client 0.
-/
import Chainspace.Lib.PartialMap
import Mathlib.Data.List.Basic

namespace Chainspace.Handshake

open Chainspace.Lib

/-! ## §1. Clocks. -/

def maxDuration : Int := 9223372036854775807

def minDuration : Int := -9223372036854775808

def timeSub (t u : Int) : Int :=
  if t - u < minDuration then minDuration
  else if t - u > maxDuration then maxDuration
  else t - u

/-- The negation of a duration, an `int64`. -/
def negDuration (d : Int) : Int := if d = minDuration then minDuration else -d

def clockDiff (now ts : Int) : Int :=
  let diff := timeSub now ts
  if diff < 0 then negDuration diff else diff

/-! ## §2. The server. -/

structure HelloInfo where
  client : Nat
  nonce : List UInt8
  server : Nat
  timestamp : Int
  deriving DecidableEq, Repr

/-- `Hello`: the fields `verifyPeerID` reads. -/
structure Hello where
  payload : List UInt8
  signature : List UInt8
  deriving DecidableEq, Repr

structure UsedNonce where
  nonce : List UInt8
  ts : Int
  deriving DecidableEq, Repr

/-- The fields of `Server` that do not change.  A ticker needs a positive period. -/
structure Server where
  id : Nat
  /-- `Verify` of the keys, by node -/
  keys : PMap Nat (List UInt8 → List UInt8 → Bool)
  /-- `proto.Unmarshal` of a payload -/
  unmarshal : List UInt8 → Option HelloInfo
  nonceExpiration : Int
  expiration_pos : 0 < nonceExpiration
  expiration_le : nonceExpiration ≤ maxDuration

abbrev NonceMap := PMap Nat (List UsedNonce)

inductive HelloError
  /-- an error of the decoder, with a text of its own -/
  | decoding
  | mismatchedServer (expected got : Nat)
  | noKey (client : Nat)
  | invalidSignature (client : Nat)
  | clockSkew (diff : Int)
  | duplicateNonce (client : Nat)
  deriving DecidableEq, Repr

def HelloError.text : HelloError → String
  | decoding => ""
  | mismatchedServer expected got =>
    s!"node: mismatched server field in hello payload: expected {expected}, got {got}"
  | noKey client => s!"node: could not find public signing key for node {client}"
  | invalidSignature client =>
    s!"node: could not validate signature claiming to be from node {client}"
  | clockSkew diff =>
    s!"node: timestamp in client hello is outside of the max clock skew range: {diff}"
  | duplicateNonce client => s!"node: received duplicate nonce from {client}"

namespace Server

variable (s : Server)

def verifyPeerID (nonceMap : NonceMap) (now : Int) (hello : Hello) : Except HelloError Nat :=
  if hello.payload = [] then .ok 0
  else
    match s.unmarshal hello.payload with
    | none => .error .decoding
    | some info =>
      if info.server ≠ s.id then .error (.mismatchedServer s.id info.server)
      else
        match s.keys info.client with
        | none => .error (.noKey info.client)
        | some key =>
          if key hello.payload hello.signature = false then
            .error (.invalidSignature info.client)
          else if clockDiff now info.timestamp > s.nonceExpiration then
            .error (.clockSkew (clockDiff now info.timestamp))
          else if ((nonceMap info.client).getD []).any (fun used => used.nonce = info.nonce) then
            .error (.duplicateNonce info.client)
          else .ok info.client

/-- A tick of `pruneNonceMap`. -/
def pruneNonceMap (nonceMap : NonceMap) (now : Int) : NonceMap := fun nodeID =>
  match nonceMap nodeID with
  | none => none
  | some nonces =>
    let xs := nonces.filter fun used => clockDiff now used.ts < s.nonceExpiration
    if xs = [] then none else some xs

/-! ## §3. Events. -/

end Server

/-- What can happen to a server, with the time its clock shows. -/
inductive Event
  | hello (now : Int) (hello : Hello)
  | tick (now : Int)

/-- A hello and how it was answered. -/
structure Receipt where
  now : Int
  hello : Hello
  answer : Except HelloError Nat

def Receipt.accepted (r : Receipt) : Bool :=
  match r.answer with
  | .ok _ => true
  | .error _ => false

def hellos : List Event → List (Int × Hello)
  | [] => []
  | .hello now hello :: events => (now, hello) :: hellos events
  | .tick _ :: events => hellos events

namespace Server

variable (s : Server)

/-- The answers to a sequence of events, starting with a map of nonces. -/
def receipts (nonceMap : NonceMap) : List Event → List Receipt
  | [] => []
  | .hello now hello :: events =>
    ⟨now, hello, s.verifyPeerID nonceMap now hello⟩ :: receipts nonceMap events
  | .tick now :: events => receipts (s.pruneNonceMap nonceMap now) events

def log (events : List Event) : List Receipt := s.receipts .empty events

def info (hello : Hello) : Option HelloInfo :=
  if hello.payload = [] then none else s.unmarshal hello.payload

def Within (now ts : Int) : Prop :=
  now - ts ≤ s.nonceExpiration ∧ ts - now ≤ s.nonceExpiration

/-- No two accepted hellos have the same client and nonce within the window of the first. -/
def AcceptsOnce (log : List Receipt) : Prop :=
  log.Pairwise fun r r' => r.accepted = true → r'.accepted = true →
    ∀ i i', s.info r.hello = some i → s.info r'.hello = some i' →
      i.client = i'.client → i.nonce = i'.nonce → ¬ s.Within r'.now i.timestamp

def RefusesSkewed (log : List Receipt) : Prop :=
  ∀ r ∈ log, ∀ i, s.info r.hello = some i → ¬ s.Within r.now i.timestamp → r.accepted = false

/-- A hello to this server, under the signature of a client it has a key of. -/
structure Genuine (hello : Hello) (i : HelloInfo) : Prop where
  info : s.info hello = some i
  server : i.server = s.id
  signature : ∃ key, s.keys i.client = some key ∧ key hello.payload hello.signature = true

/-- A genuine hello is not presented again while its timestamp is in the window. -/
def NotReplayed (presented : List (Int × Hello)) : Prop :=
  presented.Pairwise fun p p' => ∀ i i', s.Genuine p.2 i → s.Genuine p'.2 i' →
    s.Within p.1 i.timestamp → s.Within p'.1 i'.timestamp →
      i.client = i'.client → i.nonce = i'.nonce → ¬ s.Within p'.1 i.timestamp

/-- The difference of clock and timestamp is a duration other than the smallest; one that is too
large counts only for the largest window. -/
def Measurable (now ts : Int) : Prop :=
  minDuration < now - ts ∧ (now - ts ≤ maxDuration ∨ s.nonceExpiration < maxDuration)

/-! ## §4. The clock test. -/

variable {s}

/-- **What the clock test lets through**: the window, and differences it cannot measure. -/
theorem clockDiff_le_iff (now ts : Int) :
    clockDiff now ts ≤ s.nonceExpiration ↔ s.Within now ts ∨ ¬ s.Measurable now ts := by
  have hpos := s.expiration_pos
  unfold clockDiff timeSub negDuration Within Measurable
  simp only [maxDuration, minDuration]
  split_ifs <;> omega

/-- **Which hellos are accepted** while no nonce is known. -/
theorem accepted_iff {now : Int} {hello : Hello} {i : HelloInfo} (hinfo : s.info hello = some i) :
    (Receipt.mk now hello (s.verifyPeerID .empty now hello)).accepted = true ↔
      s.Genuine hello i ∧ clockDiff now i.timestamp ≤ s.nonceExpiration := by
  have hpayload : hello.payload ≠ [] := by
    intro hnil
    unfold info at hinfo
    rw [if_pos hnil] at hinfo
    cases hinfo
  have hdecoded : s.unmarshal hello.payload = some i := by
    unfold info at hinfo
    rw [if_neg hpayload] at hinfo
    exact hinfo
  unfold Receipt.accepted verifyPeerID
  simp only [if_neg hpayload, hdecoded]
  constructor
  · intro h
    split at h
    next hok =>
      split at hok
      · cases hok
      next hserver =>
        split at hok
        · cases hok
        next key hkey =>
          split at hok
          · cases hok
          next hsig =>
            split at hok
            · cases hok
            next =>
              exact ⟨⟨hinfo, not_not.mp hserver, key, hkey, by simpa using hsig⟩, by omega⟩
    · cases h
  · intro h
    obtain ⟨⟨_, hserver, key, hkey, hsig⟩, hclock⟩ := h
    have hclock : ¬ (clockDiff now i.timestamp > s.nonceExpiration) := by omega
    simp [hserver, hkey, hsig, hclock]

/-! ## §5. The result. -/

/-- **The map of nonces stays empty**, so every answer is the one of a server that starts. -/
theorem receipts_eq (events : List Event) : s.log events =
      (hellos events).map fun p => ⟨p.1, p.2, s.verifyPeerID .empty p.1 p.2⟩ := by
  have hempty : ∀ now, s.pruneNonceMap .empty now = .empty := fun _ => rfl
  unfold log
  induction events with
  | nil => rfl
  | cons event events ih =>
    cases event with
    | hello =>
      show _ :: s.receipts .empty events = _ :: _
      rw [ih]
    | tick now =>
      show s.receipts (s.pruneNonceMap .empty now) events = _
      rw [hempty, ih]
      rfl

end Server

/-- **Hellos are accepted once, and in their window, exactly when** no genuine hello is presented
again while it could be accepted, and every genuine one has a timestamp the clock test can measure.
-/
theorem accepted_once_iff (s : Server) (events : List Event) :
    (s.AcceptsOnce (s.log events) ∧ s.RefusesSkewed (s.log events)) ↔
      s.NotReplayed (hellos events) ∧
        ∀ p ∈ hellos events, ∀ i, s.Genuine p.2 i → s.Measurable p.1 i.timestamp := by
  rw [Server.receipts_eq]
  unfold Server.AcceptsOnce Server.RefusesSkewed Server.NotReplayed
  rw [List.pairwise_map]
  simp only [List.mem_map, forall_exists_index, and_imp, forall_apply_eq_imp_iff₂]
  constructor
  · intro h
    obtain ⟨honce, hskewed⟩ := h
    refine ⟨honce.imp ?_, ?_⟩
    · intro p p' h i i' hi hi' hin hin'
      exact h ((Server.accepted_iff hi.info).mpr ⟨hi, (Server.clockDiff_le_iff _ _).mpr (.inl hin)⟩)
        ((Server.accepted_iff hi'.info).mpr ⟨hi', (Server.clockDiff_le_iff _ _).mpr (.inl hin')⟩)
        i i' hi.info hi'.info
    intro p hp i hi
    by_contra hnot
    -- the clock test passes, but a difference this large is outside every window
    have haccepted := (Server.accepted_iff hi.info).mpr
      ⟨hi, (Server.clockDiff_le_iff _ _).mpr (.inr hnot)⟩
    have hout : ¬ s.Within p.1 i.timestamp := by
      intro hin
      have hle := s.expiration_le
      unfold Server.Within at hin
      unfold Server.Measurable at hnot
      simp only [maxDuration, minDuration] at hnot hle
      omega
    rw [hskewed p hp i hi.info hout] at haccepted
    cases haccepted
  intro h
  obtain ⟨hreplayed, hmeasured⟩ := h
  have hwithin : ∀ p ∈ hellos events, ∀ i, s.info p.2 = some i →
      (Receipt.mk p.1 p.2 (s.verifyPeerID .empty p.1 p.2)).accepted = true →
      s.Genuine p.2 i ∧ s.Within p.1 i.timestamp := by
    intro p hp i hinfo haccepted
    obtain ⟨hi, hclock⟩ := (Server.accepted_iff hinfo).mp haccepted
    rcases (Server.clockDiff_le_iff _ _).mp hclock with hin | hnot
    · exact ⟨hi, hin⟩
    · exact absurd (hmeasured p hp i hi) hnot
  constructor
  · refine List.Pairwise.imp_of_mem ?_ hreplayed
    intro p p' hp hp' h ha ha' i i' hinfo hinfo'
    obtain ⟨hi, hin⟩ := hwithin p hp i hinfo ha
    obtain ⟨hi', hin'⟩ := hwithin p' hp' i' hinfo' ha'
    exact h i i' hi hi' hin hin'
  intro p hp i hinfo hout
  by_contra haccepted
  exact hout (hwithin p hp i hinfo (by simpa using haccepted)).2

/-- October 31, 2018, in nanoseconds. -/
def present : Int := 1541000000000000000

/-- Node 2, with a window of 30 seconds and one client. A payload is a nonce and a flag, which dates
the hello three hundred years ahead. -/
def nodeTwo : Server where
  id := 2
  keys := PMap.empty.set 1 fun payload signature => decide (signature = payload)
  unmarshal := fun payload =>
    match payload with
    | [nonce, late] =>
      some ⟨1, [nonce], 2, if late = 0 then present else present + 10000000000000000000⟩
    | _ => none
  nonceExpiration := 30000000000
  expiration_pos := by decide
  expiration_le := by decide

/-- An observer repeats a hello after ten seconds and a tick, and gets in; so does a hello of the
far future. -/
theorem replayed_hello_accepted :
    ¬ nodeTwo.AcceptsOnce (nodeTwo.log [.hello present ⟨[7, 0], [7, 0]⟩,
        .tick (present + 5000000000), .hello (present + 10000000000) ⟨[7, 0], [7, 0]⟩]) ∧
      ¬ nodeTwo.RefusesSkewed (nodeTwo.log [.hello present ⟨[7, 1], [7, 1]⟩]) := by
  constructor
  · intro h
    have hpair := (List.pairwise_cons.mp h).1 _ List.mem_cons_self rfl rfl
    exact hpair ⟨1, [7], 2, present⟩ _ rfl rfl rfl rfl ⟨by decide, by decide⟩
  intro h
  have hrefused := h _ List.mem_cons_self ⟨1, [7], 2, present + 10000000000000000000⟩ rfl
  have hout : ¬ nodeTwo.Within present (present + 10000000000000000000) := by
    intro hin
    exact absurd hin.2 (by decide)
  exact absurd (hrefused hout) (by decide)

end Chainspace.Handshake
