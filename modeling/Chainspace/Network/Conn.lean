/-
  Chainspace.Network.Conn — payloads over a byte stream (`network/conn.go`).

  A payload goes over the wire after a header of four bytes with its size. Both ends write and read
  in loops, since a `Write` or a `Read` may move fewer bytes than asked, and both reuse one buffer.
  A step is one call of the underlying connection; `Call` says where in `WritePayload` or
  `readPayload` an end stands. Deadlines, and the errors of the underlying connection, are left out.
-/
import Chainspace.Lib.Bytes
import Chainspace.Lib.Loop

namespace Chainspace.Network

open Chainspace.Lib List

/-! ## §1. One end. -/

inductive ConnError
  | overflow
  | tooLarge (size : Nat)
  deriving DecidableEq, Repr

def ConnError.text : ConnError → String
  | overflow => "network: payload size overflows an int32"
  | tooLarge size => s!"network: payload size {size} exceeds max payload size"

/-- Where an end of a connection stands. -/
inductive Call
  | idle
  /-- `WritePayload`, in its first loop: `buf` is `c.buf[done:4]` -/
  | writeHeader (done : Nat) (payload : List UInt8)
  /-- `WritePayload`, in its second loop -/
  | write (payload : List UInt8)
  /-- `readPayload`, in its first loop -/
  | readHeader (need : Nat)
  /-- `readPayload`, in its second loop -/
  | read (size need : Nat)
  /-- after an error -/
  | closed (e : ConnError)
  /-- a slice was out of range -/
  | panicked
  deriving DecidableEq, Repr

structure Conn where
  buf : List UInt8
  call : Call
  deriving DecidableEq, Repr

namespace Conn

def new : Conn := ⟨List.replicate 1024 0, .idle⟩

/-- `WritePayload` up to its first loop; `payload` is the encoded message. No buffer is shorter than
the header. -/
def writePayload (limit : Nat) (c : Conn) (payload : List UInt8) : Conn :=
  if payload.length > limit then { c with call := .closed (.tooLarge payload.length) }
  else ⟨blit c.buf 0 (LittleEndian.put 4 payload.length), .writeHeader 0 payload⟩

/-- The head of the second loop of `WritePayload`; `size` is what is left. -/
def writeRest (payload : List UInt8) : Call := if payload = [] then .idle else .write payload

def outgoing (c : Conn) : List UInt8 :=
  match c.call with
  | .writeHeader done _ => (c.buf.take 4).drop done
  | .write payload => payload
  | _ => []

def wrote (c : Conn) (n : Nat) : Conn :=
  match c.call with
  | .writeHeader done payload =>
    { c with call := if done + n < 4 then .writeHeader (done + n) payload else writeRest payload }
  | .write payload => { c with call := writeRest (payload.drop n) }
  | _ => c

def readPayload (c : Conn) : Conn := { c with call := .readHeader 4 }

def wanted (c : Conn) : Nat :=
  match c.call with
  | .readHeader need => need
  | .read _ need => need
  | _ => 0

def announced (buf : List UInt8) : Int :=
  let n := LittleEndian.get (buf.take 4)
  if n < 2 ^ 31 then (n : Int) else (n : Int) - (2 ^ 32 : Nat)

/-- The head of the second loop of `readPayload`, on `buf[:size]`: it returns once nothing is
needed. -/
def readRest (buf : List UInt8) (size need : Nat) : Conn × Option (List UInt8) :=
  if buf.length < size then (⟨buf, .panicked⟩, none)
  else if need > 0 then (⟨buf, .read size need⟩, none) else (⟨buf, .idle⟩, some (buf.take size))

/-- `readPayload` between its loops: it checks the size, and may make a larger buffer. -/
def readSize (limit : Nat) (buf : List UInt8) : Conn × Option (List UInt8) :=
  let size := announced buf
  if size < 0 then (⟨buf, .closed .overflow⟩, none)
  else if size > limit then (⟨buf, .closed (.tooLarge size.toNat)⟩, none)
  else
    let buf := if buf.length < size.toNat then List.replicate size.toNat 0 else buf
    readRest buf size.toNat size.toNat

/-- A `Read` has returned `data`; with what `readPayload` returns, once it does. -/
def took (limit : Nat) (c : Conn) (data : List UInt8) : Conn × Option (List UInt8) :=
  match c.call with
  | .readHeader need =>
    let buf := blit c.buf (4 - need) data
    if c.buf.length < 4 then ({ c with call := .panicked }, none)
    else if need - data.length > 0 then (⟨buf, .readHeader (need - data.length)⟩, none)
    else readSize limit buf
  | .read size need => readRest (blit c.buf (size - need) data) size (need - data.length)
  | _ => (c, none)

end Conn

/-! ## §2. The two ends. -/

inductive Side
  | dialer
  | listener
  deriving DecidableEq, Repr

def Side.other : Side → Side
  | dialer => listener
  | listener => dialer

@[simp] theorem Side.other_other (s : Side) : s.other.other = s := by
  cases s with
  | dialer | listener => rfl

theorem Side.other_ne (s : Side) : s.other ≠ s := by
  cases s with
  | dialer | listener => decide

/-- One direction. The payloads written and read are kept for the proofs only. -/
structure Pipe where
  /-- the bytes written and not yet read -/
  flight : List UInt8
  /-- the payloads given to `WritePayload` -/
  sent : List (List UInt8)
  /-- the payloads returned by `readPayload` -/
  received : List (List UInt8)
  deriving DecidableEq, Repr

/-- A connection: its ends, and for each end the direction it writes to. -/
structure Link where
  conn : Side → Conn
  pipe : Side → Pipe

def Link.new : Link := ⟨fun _ => .new, fun _ => ⟨[], [], []⟩⟩

/-- What an end can do. -/
inductive Action
  /-- call `WritePayload` -/
  | writePayload (payload : List UInt8)
  /-- a `Write` that takes `n` bytes -/
  | write (n : Nat)
  /-- call `readPayload` -/
  | readPayload
  /-- a `Read` that returns `n` bytes -/
  | read (n : Nat)
  deriving DecidableEq, Repr

def Action.fits (limit : Nat) : Action → Bool
  | writePayload payload => payload.length ≤ limit
  | _ => true

namespace Link

/-- What an action of an end does; `none` if it cannot happen. -/
def step (limit : Nat) (l : Link) (s : Side) : Action → Option Link
  | .writePayload payload =>
    if (l.conn s).call = .idle then
      some {
        conn := Function.update l.conn s ((l.conn s).writePayload limit payload)
        pipe := Function.update l.pipe s
          { l.pipe s with sent := (l.pipe s).sent ++ [payload] } }
    else none
  | .write n =>
    let out := (l.conn s).outgoing
    if 1 ≤ n ∧ n ≤ out.length then
      some {
        conn := Function.update l.conn s ((l.conn s).wrote n)
        pipe := Function.update l.pipe s
          { l.pipe s with flight := (l.pipe s).flight ++ out.take n } }
    else none
  | .readPayload =>
    if (l.conn s).call = .idle then
      some { l with conn := Function.update l.conn s (l.conn s).readPayload }
    else none
  | .read n =>
    let p := l.pipe s.other
    if 1 ≤ n ∧ n ≤ (l.conn s).wanted ∧ n ≤ p.flight.length then
      let r := (l.conn s).took limit (p.flight.take n)
      some {
        conn := Function.update l.conn s r.1
        pipe := Function.update l.pipe s.other { p with
          flight := p.flight.drop n
          received := p.received ++ r.2.toList } }
    else none

end Link

/-- **A run of a connection** that writes only payloads within the limit. -/
inductive LinkRun (limit : Nat) : Link → Prop
  | start : LinkRun limit .new
  | step {l l' : Link} {s : Side} {a : Action} (hrun : LinkRun limit l)
      (hfits : a.fits limit = true) (h : l.step limit s a = some l') : LinkRun limit l'

def Link.stepAll (limit : Nat) (l : Link) (actions : List (Side × Action)) : Option Link :=
  actions.foldlM (fun l x => l.step limit x.1 x.2) l

variable {l : Link} {limit : Nat}

theorem LinkRun.stepAll {l' : Link} (hrun : LinkRun limit l)
    {actions : List (Side × Action)} (hfits : ∀ x ∈ actions, x.2.fits limit = true)
    (h : l.stepAll limit actions = some l') : LinkRun limit l' :=
  foldlM_some_inv (LinkRun limit) hrun (fun x hx _ _ hl h => hl.step (hfits x hx) h) h

/-! ## §3. What a read does. -/

def frame (payload : List UInt8) : List UInt8 := LittleEndian.put 4 payload.length ++ payload

def frames (payloads : List (List UInt8)) : List UInt8 := payloads.flatMap frame

theorem frames_append (ps qs : List (List UInt8)) : frames (ps ++ qs) = frames ps ++ frames qs :=
  flatMap_append

theorem length_frame (p : List UInt8) : (frame p).length = 4 + p.length := by
  unfold frame
  rw [length_append, LittleEndian.length_put]

theorem frames_header {ps : List (List UInt8)} {header tail : List UInt8}
    (hlen : header.length = 4) (h : frames ps = header ++ tail) :
    ∃ p rest, ps = p :: rest ∧ header = LittleEndian.put 4 p.length ∧ p ++ frames rest = tail := by
  cases ps with
  | nil =>
    have hnil : 0 = (header ++ tail).length := congrArg List.length h
    rw [length_append] at hnil
    omega
  | cons p rest =>
    have hframe : LittleEndian.put 4 p.length ++ (p ++ frames rest) = header ++ tail := h
    obtain ⟨hheader, htail⟩ := append_inj hframe (by rw [LittleEndian.length_put, hlen])
    exact ⟨p, rest, rfl, hheader.symm, htail⟩

theorem frames_size (hlimit : limit < 2 ^ 31) {ps : List (List UInt8)} {size : Nat}
    {tail : List UInt8} (hfits : ∀ p ∈ ps, p.length ≤ limit) (hsize : size ≤ limit)
    (h : frames ps = LittleEndian.put 4 size ++ tail) :
    ∃ p rest, ps = p :: rest ∧ p.length = size ∧ p ++ frames rest = tail := by
  obtain ⟨p, rest, hps, hheader, htail⟩ := frames_header (LittleEndian.length_put _ _) h
  have hp : p.length ≤ limit := hfits p (hps ▸ mem_cons_self)
  have hget := congrArg LittleEndian.get hheader
  rw [LittleEndian.get_put_of_lt (by omega), LittleEndian.get_put_of_lt (by omega)] at hget
  exact ⟨p, rest, hps, hget.symm, htail⟩

namespace Conn

def unwritten (c : Conn) : List UInt8 :=
  match c.call with
  | .writeHeader done payload => (c.buf.take 4).drop done ++ payload
  | .write payload => payload
  | _ => []

def taken (c : Conn) : List UInt8 :=
  match c.call with
  | .readHeader need => c.buf.take (4 - need)
  | .read size need => LittleEndian.put 4 size ++ c.buf.take (size - need)
  | _ => []

def InRange (limit : Nat) : Call → Prop
  | .idle => True
  | .writeHeader done _ => done < 4
  | .write payload => payload ≠ []
  | .readHeader need => 1 ≤ need ∧ need ≤ 4
  | .read size need => 1 ≤ need ∧ need ≤ size ∧ size ≤ limit
  | .closed _ | .panicked => False

/-- The buffer has room for a header, and for the payload a read is at. -/
structure Sound (limit : Nat) (c : Conn) : Prop where
  inRange : InRange limit c.call
  header : 4 ≤ c.buf.length
  payload : ∀ size need, c.call = .read size need → size ≤ c.buf.length

variable {limit : Nat} {c : Conn}

theorem sound_new : new.Sound limit := by
  refine ⟨trivial, ?_, fun _ _ h => nomatch h⟩
  show 4 ≤ (List.replicate 1024 (0 : UInt8)).length
  rw [length_replicate]
  omega

variable {buf tail : List UInt8} {ps : List (List UInt8)}

theorem announced_put (hlimit : limit < 2 ^ 31) {size : Nat}
    (hsize : size ≤ limit) (h : buf.take 4 = LittleEndian.put 4 size) :
    announced buf = size := by
  have hget : LittleEndian.get (buf.take 4) = size := by
    rw [h]
    exact LittleEndian.get_put_of_lt (by omega)
  unfold announced
  rw [hget]
  exact if_pos (by omega)

/-- The head of the second loop, on a payload of which a part has been read. -/
theorem readRest_spec {size need : Nat} {p : List UInt8}
    (hneed : need ≤ size) (hlimit : size ≤ limit)
    (hheader : 4 ≤ buf.length) (hbuf : size ≤ buf.length) (hp : p.length = size)
    (h : p ++ frames ps = buf.take (size - need) ++ tail) :
    (readRest buf size need).1.Sound limit ∧ ∃ rest,
      p :: ps = (readRest buf size need).2.toList ++ rest ∧
        frames rest = (readRest buf size need).1.taken ++ tail := by
  unfold readRest
  rw [if_neg (by omega)]
  by_cases hpos : need > 0
  · rw [if_pos hpos]
    refine ⟨⟨⟨hpos, hneed, hlimit⟩, hheader, ?_⟩, p :: ps, rfl, ?_⟩
    · intro size' need' heq
      cases heq
      exact hbuf
    · show LittleEndian.put 4 p.length ++ p ++ frames ps = LittleEndian.put 4 size ++ _ ++ tail
      rw [append_assoc, h, hp, append_assoc]
  -- nothing is needed: the buffer starts with the payload
  rw [if_neg hpos]
  have hzero : size - need = size := by omega
  rw [hzero] at h
  have hlen : p.length = (buf.take size).length := by
    rw [length_take]
    omega
  obtain ⟨hpayload, htail⟩ := append_inj h hlen
  refine ⟨⟨trivial, hheader, fun _ _ h => nomatch h⟩, ps, ?_, htail⟩
  rw [hpayload]
  rfl

theorem readSize_spec (hlimit : limit < 2 ^ 31)
    (hfits : ∀ p ∈ ps, p.length ≤ limit) (hheader : 4 ≤ buf.length)
    (h : frames ps = buf.take 4 ++ tail) :
    (readSize limit buf).1.Sound limit ∧ ∃ rest, ps = (readSize limit buf).2.toList ++ rest ∧
        frames rest = (readSize limit buf).1.taken ++ tail := by
  have hlen : (buf.take 4).length = 4 := by
    rw [length_take]
    omega
  obtain ⟨p, rest, rfl, hbytes, htail⟩ := frames_header hlen h
  have hp : p.length ≤ limit := hfits p mem_cons_self
  have hsize : announced buf = p.length := announced_put hlimit hp hbytes
  have hpos : ¬ ((p.length : Int) < 0) := by omega
  have hle : ¬ ((p.length : Int) > limit) := by omega
  unfold readSize
  simp only [hsize, if_neg hpos, if_neg hle, Int.toNat_natCast]
  apply readRest_spec (Nat.le_refl _) hp
  · split
    · rw [length_replicate]
      omega
    · exact hheader
  · split
    · exact Nat.le_of_eq length_replicate.symm
    · omega
  · rfl
  · rw [Nat.sub_self, take_zero, nil_append]
    exact htail

/-- **A read** takes its bytes off the wire, and returns a payload when it is complete. -/
theorem took_spec (hlimit : limit < 2 ^ 31) (hc : c.Sound limit) {data : List UInt8}
    (hfits : ∀ p ∈ ps, p.length ≤ limit) (hdata : data.length ≤ c.wanted)
    (hsome : 1 ≤ data.length) (h : frames ps = c.taken ++ (data ++ tail)) :
    (c.took limit data).1.Sound limit ∧ ∃ rest, ps = (c.took limit data).2.toList ++ rest ∧
        frames rest = (c.took limit data).1.taken ++ tail := by
  obtain ⟨buf, call⟩ := c
  have hheader : 4 ≤ buf.length := hc.header
  cases call with
  | readHeader need =>
    have hneed : 1 ≤ need ∧ need ≤ 4 := hc.inRange
    have hdata : data.length ≤ need := hdata
    have hroom : 4 - need + data.length ≤ buf.length := by omega
    have htake := take_blit hroom
    have hframes : frames ps =
        (blit buf (4 - need) data).take (4 - need + data.length) ++ tail := by
      rw [htake, append_assoc]
      exact h
    unfold took
    dsimp only
    rw [if_neg (by omega)]
    by_cases hmore : need - data.length > 0
    · rw [if_pos hmore]
      have hoff : 4 - (need - data.length) = 4 - need + data.length := by omega
      refine ⟨⟨⟨hmore, by omega⟩, ?_, fun _ _ h => nomatch h⟩, ps, rfl, ?_⟩
      · show 4 ≤ (blit buf (4 - need) data).length
        rw [length_blit hroom]
        exact hheader
      show frames ps = (blit buf (4 - need) data).take (4 - (need - data.length)) ++ tail
      rw [hoff]
      exact hframes
    rw [if_neg hmore]
    have hoff : 4 - need + data.length = 4 := by omega
    rw [hoff] at hframes
    apply readSize_spec hlimit hfits _ hframes
    rw [length_blit hroom]
    exact hheader
  | read size need =>
    obtain ⟨_, _, hsize⟩ : 1 ≤ need ∧ need ≤ size ∧ size ≤ limit := hc.inRange
    have hbuf : size ≤ buf.length := hc.payload size need rfl
    have hdata : data.length ≤ need := hdata
    have hroom : size - need + data.length ≤ buf.length := by omega
    have hoff : size - (need - data.length) = size - need + data.length := by omega
    have htaken : frames ps = LittleEndian.put 4 size ++
        ((blit buf (size - need) data).take (size - (need - data.length)) ++ tail) := by
      rw [hoff, take_blit hroom, append_assoc, ← append_assoc]
      exact h
    obtain ⟨p, rest, rfl, hp, htail⟩ := frames_size hlimit hfits hsize htaken
    apply readRest_spec (by omega) hsize _ _ hp htail
    · rw [length_blit hroom]
      exact hheader
    · rw [length_blit hroom]
      exact hbuf
  | idle | writeHeader | write | closed | panicked =>
    exact absurd (Nat.le_trans hsome hdata) (Nat.not_succ_le_zero 0)

/-- A read that has returned, or is not yet in its call, has nothing of a write. -/
theorem took_unwritten (limit : Nat) (hwanted : 1 ≤ c.wanted) (data : List UInt8) :
    c.unwritten = [] ∧ (c.took limit data).1.unwritten = [] := by
  have hrest : ∀ buf size need, (readRest buf size need).1.unwritten = [] := by
    intro buf size need
    unfold readRest
    split
    · rfl
    split
    all_goals rfl
  obtain ⟨buf, call⟩ := c
  cases call with
  | readHeader =>
    refine ⟨rfl, ?_⟩
    unfold took
    dsimp only
    split
    · rfl
    split
    · rfl
    unfold readSize
    dsimp only
    split
    · rfl
    split
    · rfl
    · exact hrest _ _ _
  | read => exact ⟨rfl, hrest _ _ _⟩
  | idle | writeHeader | write | closed | panicked =>
    exact absurd hwanted (Nat.not_succ_le_zero 0)

theorem taken_short (hlimit : limit < 2 ^ 31) (hc : c.Sound limit)
    (hfits : ∀ p ∈ ps, p.length ≤ limit) (h : frames ps = c.taken) : ps = [] := by
  cases ps with
  | nil => rfl
  | cons p ps =>
    exfalso
    have hlen : (frame p ++ frames ps).length = c.taken.length := congrArg List.length h
    rw [length_append, length_frame] at hlen
    obtain ⟨buf, call⟩ := c
    cases call with
    | readHeader need =>
      have hneed : 1 ≤ need ∧ need ≤ 4 := hc.inRange
      have hlen : 4 + p.length + (frames ps).length = (buf.take (4 - need)).length := hlen
      rw [length_take] at hlen
      omega
    | read size need =>
      obtain ⟨_, _, hsize⟩ : 1 ≤ need ∧ need ≤ size ∧ size ≤ limit := hc.inRange
      obtain ⟨q, rest, _, hq, hrest⟩ := frames_size hlimit hfits hsize h
      have hlen := congrArg List.length hrest
      rw [length_append, length_take] at hlen
      omega
    | idle | writeHeader | write | closed | panicked =>
      exact absurd hlen (by simp [taken])

/-! ## §4. What a write does. -/

theorem sound_writeRest {payload : List UInt8} (hheader : 4 ≤ buf.length) :
    (⟨buf, writeRest payload⟩ : Conn).Sound limit := by
  unfold writeRest
  split
  · exact ⟨trivial, hheader, fun _ _ h => nomatch h⟩
  next hne => exact ⟨hne, hheader, fun _ _ h => nomatch h⟩

theorem unwritten_writeRest (buf payload : List UInt8) :
    (⟨buf, writeRest payload⟩ : Conn).unwritten = payload ∧
      (⟨buf, writeRest payload⟩ : Conn).taken = [] := by
  unfold writeRest
  split
  next h => exact ⟨h.symm, rfl⟩
  · exact ⟨rfl, rfl⟩

theorem writePayload_spec (hc : c.Sound limit) {payload : List UInt8}
    (hsize : payload.length ≤ limit) :
    (c.writePayload limit payload).Sound limit ∧
      (c.writePayload limit payload).unwritten = frame payload ∧
      (c.writePayload limit payload).taken = [] := by
  have hroom : 0 + (LittleEndian.put 4 payload.length).length ≤ c.buf.length := hc.header
  have htake := take_blit hroom
  rw [LittleEndian.length_put] at htake
  unfold writePayload
  rw [if_neg (by omega)]
  refine ⟨⟨by show 0 < 4; omega, ?_, fun _ _ h => nomatch h⟩, ?_, rfl⟩
  · show 4 ≤ (blit c.buf 0 _).length
    rw [length_blit hroom]
    exact hc.header
  · show ((blit c.buf 0 _).take 4).drop 0 ++ payload = frame payload
    rfl

/-- **A write** moves the head of what is unwritten. -/
theorem wrote_spec (hc : c.Sound limit) {n : Nat} (hpos : 1 ≤ n) (hn : n ≤ c.outgoing.length) :
    (c.wrote n).Sound limit ∧ c.unwritten = c.outgoing.take n ++ (c.wrote n).unwritten ∧
      c.taken = [] ∧ (c.wrote n).taken = [] := by
  obtain ⟨buf, call⟩ := c
  have hheader : 4 ≤ buf.length := hc.header
  cases call with
  | writeHeader done payload =>
    have hlen : ((buf.take 4).drop done).length = 4 - done := by
      rw [length_drop, length_take]
      omega
    have hwrote : wrote ⟨buf, .writeHeader done payload⟩ n = ⟨buf, if done + n < 4 then
      .writeHeader (done + n) payload else writeRest payload⟩ := rfl
    rw [hwrote]
    by_cases hmore : done + n < 4
    · rw [if_pos hmore]
      refine ⟨⟨hmore, hheader, fun _ _ h => nomatch h⟩, ?_, rfl, rfl⟩
      show (buf.take 4).drop done ++ payload =
        ((buf.take 4).drop done).take n ++ ((buf.take 4).drop (done + n) ++ payload)
      rw [← drop_drop, ← append_assoc, take_append_drop]
    -- the header is out: the whole of it was left
    rw [if_neg hmore]
    obtain ⟨hrest, htaken⟩ := unwritten_writeRest buf payload
    refine ⟨sound_writeRest hheader, ?_, rfl, htaken⟩
    have hall : ((buf.take 4).drop done).length ≤ n := by omega
    rw [hrest, outgoing, take_of_length_le hall]
    rfl
  | write payload =>
    obtain ⟨hrest, htaken⟩ := unwritten_writeRest buf (payload.drop n)
    refine ⟨sound_writeRest hheader, ?_, rfl, htaken⟩
    show payload = payload.take n ++ (Conn.mk buf (writeRest (payload.drop n))).unwritten
    rw [hrest, take_append_drop]
  | idle | readHeader | read | closed | panicked =>
    exact absurd (Nat.le_trans hpos hn) (Nat.not_succ_le_zero 0)

theorem unwritten_of_outgoing (hc : c.Sound limit) (h : c.outgoing = []) : c.unwritten = [] := by
  obtain ⟨buf, call⟩ := c
  cases call with
  | writeHeader done =>
    have hdone : done < 4 := hc.inRange
    have hheader : 4 ≤ buf.length := hc.header
    have hlen : ((buf.take 4).drop done).length = 0 := congrArg List.length h
    rw [length_drop, length_take] at hlen
    omega
  | write => exact h
  | idle | readHeader | read | closed | panicked => rfl

end Conn

/-! ## §5. Runs. -/

/-- One direction: the payloads written are those read, followed by those on their way. -/
structure Carries (limit : Nat) (w r : Conn) (p : Pipe) : Prop where
  fits : ∀ payload ∈ p.sent, payload.length ≤ limit
  stream : ∃ rest, p.sent = p.received ++ rest ∧
    frames rest = r.taken ++ (p.flight ++ w.unwritten)

theorem Carries.of_eq {w w' r r' : Conn} {p : Pipe} (h : Carries limit w r p)
    (hw : w'.unwritten = w.unwritten) (hr : r'.taken = r.taken) : Carries limit w' r' p := by
  refine ⟨h.fits, ?_⟩
  rw [hw, hr]
  exact h.stream

namespace Link

/-- The bytes of a direction that are not read yet; unwritten ones count twice. -/
def backlog (l : Link) (s : Side) : Nat :=
  2 * (l.conn s).unwritten.length + (l.pipe s).flight.length

/-- The reader waits in `readPayload`, and no `Write` or `Read` can happen. -/
structure Settled (limit : Nat) (l : Link) (s : Side) : Prop where
  reading : 1 ≤ (l.conn s.other).wanted
  noWrite : ∀ n, l.step limit s (.write n) = none
  noRead : ∀ n, l.step limit s.other (.read n) = none

structure Sound (limit : Nat) (l : Link) : Prop where
  conns : ∀ s, (l.conn s).Sound limit
  pipes : ∀ s, Carries limit (l.conn s) (l.conn s.other) (l.pipe s)

variable {limit : Nat} {l l' : Link} {s : Side}

/-- An end acts: what it writes and what it reads must both be accounted for. -/
theorem Sound.act (h : l.Sound limit) {c : Conn} {pipe : Side → Pipe} (hc : c.Sound limit)
    (hwrites : Carries limit c (l.conn s.other) (pipe s))
    (hreads : Carries limit (l.conn s.other) c (pipe s.other)) :
    Sound limit ⟨Function.update l.conn s c, pipe⟩ := by
  have hself : Function.update l.conn s c s = c := Function.update_self _ _ _
  have hother : Function.update l.conn s c s.other = l.conn s.other :=
    Function.update_of_ne s.other_ne _ _
  have hsides : ∀ t, t = s ∨ t = s.other := by
    intro t
    cases t <;> cases s <;> decide
  constructor
  · intro t
    show (Function.update l.conn s c t).Sound limit
    rcases hsides t with rfl | rfl
    · rw [hself]
      exact hc
    · rw [hother]
      exact h.conns _
  intro t
  show Carries limit (Function.update l.conn s c t) (Function.update l.conn s c t.other) (pipe t)
  rcases hsides t with rfl | rfl
  · rw [hself, hother]
    exact hwrites
  · rw [Side.other_other, hself, hother]
    exact hreads

/-- The direction an end reads. -/
theorem Sound.reads (h : l.Sound limit) (s : Side) :
    Carries limit (l.conn s.other) (l.conn s) (l.pipe s.other) := by
  have hreads := h.pipes s.other
  rw [Side.other_other] at hreads
  exact hreads

theorem sound_new : Link.new.Sound limit where
  conns := fun _ => Conn.sound_new
  pipes := fun _ => ⟨fun _ h => absurd h not_mem_nil, [], rfl, rfl⟩

theorem idle_unwritten {c : Conn} (h : c.call = .idle) : c.unwritten = [] ∧ c.taken = [] := by
  unfold Conn.unwritten Conn.taken
  rw [h]
  exact ⟨rfl, rfl⟩

theorem Sound.writePayload (h : l.Sound limit) {payload : List UInt8}
    (hsize : payload.length ≤ limit)
    (hstep : l.step limit s (.writePayload payload) = some l') : l'.Sound limit := by
  dsimp only [Link.step] at hstep
  split at hstep
  next hidle =>
    cases hstep
    obtain ⟨hc, hunwritten, htaken⟩ := Conn.writePayload_spec (h.conns s) hsize
    obtain ⟨hempty, hnone⟩ := idle_unwritten hidle
    apply h.act hc
    · rw [Function.update_self]
      obtain ⟨rest, hsent, hframes⟩ := (h.pipes s).stream
      constructor
      · exact forall_mem_append.mpr ⟨(h.pipes s).fits, forall_mem_singleton.mpr hsize⟩
      refine ⟨rest ++ [payload], ?_, ?_⟩
      · show (l.pipe s).sent ++ [payload] = _
        rw [hsent, append_assoc]
      · rw [frames_append, hframes, hempty, hunwritten]
        simp [frames]
    · rw [Function.update_of_ne s.other_ne]
      exact (h.reads s).of_eq rfl (htaken.trans hnone.symm)
  · cases hstep

theorem Sound.write (h : l.Sound limit) {n : Nat} (hstep : l.step limit s (.write n) = some l') :
    l'.Sound limit ∧ l'.backlog s < l.backlog s := by
  dsimp only [Link.step] at hstep
  split at hstep
  next hn =>
    cases hstep
    obtain ⟨hc, hunwritten, hnone, htaken⟩ := Conn.wrote_spec (h.conns s) hn.1 hn.2
    constructor
    · apply h.act hc
      · rw [Function.update_self]
        obtain ⟨rest, hsent, hframes⟩ := (h.pipes s).stream
        refine ⟨(h.pipes s).fits, rest, hsent, ?_⟩
        rw [hframes, hunwritten, append_assoc (l.pipe s).flight]
      · rw [Function.update_of_ne s.other_ne]
        exact (h.reads s).of_eq rfl (htaken.trans hnone.symm)
    have hlen := congrArg List.length hunwritten
    rw [length_append, length_take] at hlen
    unfold Link.backlog
    simp only [Function.update_self, length_append, length_take]
    omega
  · cases hstep

theorem Sound.readPayload (h : l.Sound limit)
    (hstep : l.step limit s .readPayload = some l') : l'.Sound limit := by
  dsimp only [Link.step] at hstep
  split at hstep
  next hidle =>
    cases hstep
    obtain ⟨hempty, hnone⟩ := idle_unwritten hidle
    apply h.act
    · exact ⟨⟨by omega, by omega⟩, (h.conns s).header, fun _ _ h => nomatch h⟩
    · exact (h.pipes s).of_eq hempty.symm rfl
    · exact (h.reads s).of_eq rfl hnone.symm
  · cases hstep

theorem Sound.read (hlimit : limit < 2 ^ 31) (h : l.Sound limit) {n : Nat}
    (hstep : l.step limit s (.read n) = some l') :
    l'.Sound limit ∧ l'.backlog s.other < l.backlog s.other := by
  dsimp only [Link.step] at hstep
  split at hstep
  next hn =>
    cases hstep
    obtain ⟨hpos, hwanted, _⟩ := hn
    obtain ⟨hempty, hnone⟩ :=
      Conn.took_unwritten limit (Nat.le_trans hpos hwanted) ((l.pipe s.other).flight.take n)
    have hreads := h.reads s
    obtain ⟨rest, hsent, hframes⟩ := hreads.stream
    have hlen : ((l.pipe s.other).flight.take n).length = n := by
      rw [length_take]
      omega
    have hstream : frames rest = (l.conn s).taken ++ ((l.pipe s.other).flight.take n ++
        ((l.pipe s.other).flight.drop n ++ (l.conn s.other).unwritten)) := by
      rw [hframes, ← append_assoc ((l.pipe s.other).flight.take n), take_append_drop]
    have hfits : ∀ p ∈ rest, p.length ≤ limit := by
      intro p hp
      apply hreads.fits
      rw [hsent]
      exact mem_append_right _ hp
    obtain ⟨hc, rest', hrest, hframes'⟩ := Conn.took_spec hlimit (h.conns s) hfits
      (by omega) (by omega) hstream
    constructor
    · apply h.act hc
      · rw [Function.update_of_ne s.other_ne.symm]
        exact (h.pipes s).of_eq (hnone.trans hempty.symm) rfl
      rw [Function.update_self]
      refine ⟨hreads.fits, rest', ?_, hframes'⟩
      rw [hsent, append_assoc, ← hrest]
    unfold Link.backlog
    simp only [Function.update_self, Function.update_of_ne s.other_ne, length_drop]
    omega
  · cases hstep

theorem Sound.step (hlimit : limit < 2 ^ 31) (h : l.Sound limit) {a : Action}
    (hfits : a.fits limit = true) (hstep : l.step limit s a = some l') : l'.Sound limit := by
  cases a with
  | writePayload => exact h.writePayload (of_decide_eq_true hfits) hstep
  | write => exact (h.write hstep).1
  | readPayload => exact h.readPayload hstep
  | read => exact (h.read hlimit hstep).1

end Link

theorem LinkRun.sound (hlimit : limit < 2 ^ 31) (hrun : LinkRun limit l) : l.Sound limit := by
  induction hrun with
  | start => exact Link.sound_new
  | step _ hfits hstep ih => exact ih.step hlimit hfits hstep

theorem Link.Sound.settled (hlimit : limit < 2 ^ 31) {s : Side}
    (h : l.Sound limit) (hs : l.Settled limit s) : (l.pipe s).received = (l.pipe s).sent := by
  have hout : (l.conn s).outgoing = [] := by
    by_contra hne
    have hpos := length_pos_of_ne_nil hne
    have hnone := hs.noWrite 1
    dsimp only [Link.step] at hnone
    rw [if_pos ⟨by omega, by omega⟩] at hnone
    cases hnone
  have hflight : (l.pipe s).flight = [] := by
    by_contra hne
    have hpos := length_pos_of_ne_nil hne
    have hnone := hs.noRead 1
    have hreading := hs.reading
    dsimp only [Link.step] at hnone
    rw [Side.other_other, if_pos ⟨by omega, by omega, by omega⟩] at hnone
    cases hnone
  obtain ⟨rest, hsent, hframes⟩ := (h.pipes s).stream
  rw [hflight, Conn.unwritten_of_outgoing (h.conns s) hout, append_nil, append_nil]
    at hframes
  have hfits : ∀ p ∈ rest, p.length ≤ limit := by
    intro p hp
    apply (h.pipes s).fits
    rw [hsent]
    exact mem_append_right _ hp
  have hnil : rest = [] := Conn.taken_short hlimit (h.conns s.other) hfits hframes
  rw [hsent, hnil, append_nil]

/-! ## §6. Wrong sizes. -/

def Conn.takes (limit : Nat) (c : Conn) (chunks : List (List UInt8)) : Conn :=
  chunks.foldl (fun c data => (c.took limit data).1) c

/-- **However a header is split**, its size is checked once it is complete. -/
theorem Conn.takes_header {buf : List UInt8} {need : Nat}
    {chunks : List (List UInt8)} (hpos : 1 ≤ need) (hneed : need ≤ 4) (hbuf : 4 ≤ buf.length)
    (hchunks : ∀ data ∈ chunks, data ≠ []) (hlen : chunks.flatten.length = need) :
    Conn.takes limit ⟨buf, .readHeader need⟩ chunks =
      (readSize limit (blit buf (4 - need) chunks.flatten)).1 := by
  induction chunks generalizing buf need with
  | nil =>
    have hlen : 0 = need := hlen
    omega
  | cons data chunks ih =>
    have hchunks' : ∀ d ∈ chunks, d ≠ [] := fun d hd => hchunks d (mem_cons_of_mem data hd)
    rw [flatten_cons, length_append] at hlen
    have hroom : 4 - need + data.length ≤ buf.length := by omega
    show Conn.takes limit (Conn.took limit ⟨buf, .readHeader need⟩ data).1 chunks = _
    unfold Conn.took
    dsimp only
    rw [if_neg (by omega)]
    by_cases hmore : need - data.length > 0
    · rw [if_pos hmore]
      have hoff : 4 - (need - data.length) = 4 - need + data.length := by omega
      rw [ih hmore (by omega) (by rw [length_blit hroom]; exact hbuf) hchunks' (by omega), hoff,
        blit_blit hroom, flatten_cons]
    rw [if_neg hmore]
    -- nothing is left, and no chunk is empty
    have hnil : chunks = [] := by
      cases chunks with
      | nil => rfl
      | cons d =>
        have hd := length_pos_of_ne_nil (hchunks' d mem_cons_self)
        rw [flatten_cons, length_append] at hlen
        omega
    rw [hnil, flatten_cons, flatten_nil, append_nil]
    rfl

/-! ## §7. The result. -/

/-- **Payloads arrive whole and in order.** In every run that writes payloads within the limit, and
for both directions: the payloads `readPayload` has returned are the first of those given to
`WritePayload`, no end fails or slices out of range, every `Write` and `Read` brings the backlog
down, and when none can happen a waiting reader has got everything. A header that announces a size
out of range closes the connection. -/
theorem payloads_arrive (limit : Nat) (hlimit : limit < 2 ^ 31) : (∀ l, LinkRun limit l → ∀ s,
      (l.pipe s).received <+: (l.pipe s).sent ∧
      ((∀ e, (l.conn s).call ≠ .closed e) ∧ (l.conn s).call ≠ .panicked) ∧
      (∀ n l', l.step limit s (.write n) = some l' → l'.backlog s < l.backlog s) ∧
      (∀ n l', l.step limit s.other (.read n) = some l' → l'.backlog s < l.backlog s) ∧
      (l.Settled limit s → (l.pipe s).received = (l.pipe s).sent)) ∧
    ∀ c : Conn, 4 ≤ c.buf.length → ∀ chunks : List (List UInt8), (∀ data ∈ chunks, data ≠ []) →
      chunks.flatten.length = 4 →
      (Conn.announced chunks.flatten < 0 →
        (c.readPayload.takes limit chunks).call = .closed .overflow) ∧
      (Conn.announced chunks.flatten > limit → (c.readPayload.takes limit chunks).call =
          .closed (.tooLarge (Conn.announced chunks.flatten).toNat)) := by
  constructor
  · intro l hrun s
    have hsound := hrun.sound hlimit
    refine ⟨?_, ?_, ?_, ?_, hsound.settled hlimit⟩
    · obtain ⟨rest, hsent, _⟩ := (hsound.pipes s).stream
      exact ⟨rest, hsent.symm⟩
    · have hin := (hsound.conns s).inRange
      constructor
      · intro e he
        rw [he] at hin
        exact hin
      intro he
      rw [he] at hin
      exact hin
    · intro n l' hstep
      exact (hsound.write hstep).2
    intro n l' hstep
    have hless := (hsound.read hlimit hstep).2
    rw [Side.other_other] at hless
    exact hless
  intro c hbuf chunks hchunks hlen
  have hroom : 0 + chunks.flatten.length ≤ c.buf.length := by omega
  have htake : (blit c.buf 0 chunks.flatten).take 4 = chunks.flatten.take 4 := by
    have htake := take_blit hroom
    rw [hlen] at htake
    rw [htake, take_zero, nil_append, take_of_length_le (by omega)]
  have hannounced : Conn.announced (blit c.buf 0 chunks.flatten) =
      Conn.announced chunks.flatten := by
    unfold Conn.announced
    rw [htake]
  have htakes : c.readPayload.takes limit chunks =
      (Conn.readSize limit (blit c.buf 0 chunks.flatten)).1 :=
    Conn.takes_header (by omega) (by omega) hbuf hchunks hlen
  rw [htakes]
  unfold Conn.readSize
  rw [hannounced]
  constructor
  · intro hneg
    rw [if_pos hneg]
  · intro hlarge
    rw [if_neg (by omega), if_pos hlarge]

/-- Two payloads, the second empty, with both headers and the payload in parts. -/
def twoPayloads : List (Side × Action) :=
  [(.dialer, .writePayload [7, 8]), (.dialer, .write 3), (.listener, .readPayload),
    (.listener, .read 1), (.dialer, .write 1), (.dialer, .write 1), (.listener, .read 2),
    (.listener, .read 1), (.dialer, .write 1), (.listener, .read 1), (.listener, .read 1),
    (.dialer, .writePayload []), (.listener, .readPayload), (.dialer, .write 4),
    (.listener, .read 3), (.listener, .read 1)]

theorem payloads_arrive_two : ∃ l, LinkRun 100 l ∧ (l.pipe .dialer).received = [[7, 8], []] ∧
    (l.pipe .dialer).received <+: (l.pipe .dialer).sent := by
  have hreceived : (Link.new.stepAll 100 twoPayloads).map (fun l => (l.pipe .dialer).received) =
      some [[7, 8], []] := by decide +kernel
  obtain ⟨l, hl, hpipe⟩ := Option.map_eq_some_iff.mp hreceived
  have hrun : LinkRun 100 l := LinkRun.start.stepAll (by decide) hl
  exact ⟨l, hrun, hpipe, ((payloads_arrive 100 (by decide)).1 l hrun .dialer).1⟩

end Chainspace.Network
