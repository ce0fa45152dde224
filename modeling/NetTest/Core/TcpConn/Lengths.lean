import NetTest.Core.TcpConn.Receive

/-!
# The lengths of the receive path

What `OnRead` asks `recv` for is a matter of three lengths: the expected length,
which the header function takes from the peer's bytes, and the capacity and the
fill of the buffer.  They are followed here on their own, wherever the bytes go.
The expected length is set before the buffer is replaced, and nothing compares it
with what has arrived already.
-/

namespace NetTest.TcpConn

open Memory Runs
open Pool (wordSize uintSize)

/-- The fields `cap` and `len` of the receive buffer. -/
structure BufLengths where
  cap : Nat
  len : Nat

structure Lengths where
  headLen : Nat
  expectedLen : Nat
  rcvBuf : Option BufLengths

/-- What one call finds: whether the first buffer can be allocated, how many
bytes `recv` returns, zero standing for a failure too, the result of the header
function, and whether the enlarged buffer can be allocated. -/
structure LengthEnv where
  block : Bool
  count : Nat
  head : Nat
  grown : Bool

namespace Lengths

def create (nHeadLen : Nat) : Lengths :=
  { headLen := nHeadLen, expectedLen := nHeadLen, rcvBuf := none }

def newBuf (cap : Nat) : BufLengths :=
  { cap := (Buf.createSize cap + wordSize - Buf.sizeofBuf) % wordSize, len := 0 }

/-- `(unsigned int)(_expected_len - _rcv_buf->len)`. -/
def request (expectedLen len : Nat) : Nat := (expectedLen + wordSize - len) % wordSize % uintSize

def deliver (c : Lengths) (buf : BufLengths) : Lengths :=
  if buf.len = c.expectedLen ∧ c.headLen ≤ buf.len then
    { c with expectedLen := c.headLen, rcvBuf := some { buf with len := 0 } }
  else { c with rcvBuf := some buf }

/-- Only the bytes are copied to the enlarged buffer, which is empty therefore. -/
def received (c : Lengths) (buf : BufLengths) (env : LengthEnv) : Lengths :=
  let buf := { buf with len := (buf.len + env.count) % wordSize }
  if c.expectedLen = c.headLen then
    let c := { c with expectedLen := env.head }
    if c.headLen < env.head ∧ buf.cap < env.head then
      if env.grown then deliver c (newBuf env.head) else { c with rcvBuf := some buf }
    else deliver c buf
  else deliver c buf

def nextBuf (c : Lengths) : BufLengths := c.rcvBuf.getD (newBuf c.expectedLen)

def onRead (c : Lengths) (env : LengthEnv) : Lengths :=
  if c.rcvBuf.isNone ∧ env.block = false then c
  else if env.count = 0 then { c with rcvBuf := some c.nextBuf }
  else c.received c.nextBuf env

/-- What is asked for fits behind what is there. -/
def Bounded (c : Lengths) : Prop :=
  request c.expectedLen c.nextBuf.len + c.nextBuf.len ≤ c.nextBuf.cap

/-- `recv` returns at most what it is asked for, and the header function any
`size_t`. -/
def Legal (c : Lengths) (env : LengthEnv) : Prop :=
  env.count ≤ request c.expectedLen c.nextBuf.len ∧ env.head < wordSize

instance (c : Lengths) : Decidable (Bounded c) := inferInstanceAs (Decidable (_ ≤ _))

instance (c : Lengths) (env : LengthEnv) : Decidable (Legal c env) :=
  inferInstanceAs (Decidable (_ ∧ _))

/-- The call gets as far as the header function. -/
def AsksHead (c : Lengths) (env : LengthEnv) : Prop :=
  ¬ (c.rcvBuf.isNone ∧ env.block = false) ∧ env.count ≠ 0 ∧ c.expectedLen = c.headLen

/-- The length the header function returns is one the buffer has room for: either
an enlarged buffer is obtained whose capacity does not wrap to zero, or up to a
multiple of `2 ^ 32` the length lies between what has arrived and the capacity. -/
def HeadFits (c : Lengths) (env : LengthEnv) : Prop :=
  AsksHead c env →
    if c.headLen < env.head ∧ c.nextBuf.cap < env.head ∧ env.grown = true then
      env.head + 7 < wordSize
    else ∃ fit, c.nextBuf.len + env.count ≤ fit ∧ fit ≤ c.nextBuf.cap ∧
      fit % uintSize = env.head % uintSize

/-! ## Arithmetic -/

/-- A request is the distance to the next length that agrees with the expected
one in its low 32 bits. -/
theorem request_le_iff {expectedLen len cap : Nat} (hexpected : expectedLen < wordSize)
    (hlen : len ≤ cap) (hcap : cap < wordSize) :
    request expectedLen len + len ≤ cap ↔
      ∃ fit, len ≤ fit ∧ fit ≤ cap ∧ fit % uintSize = expectedLen % uintSize := by
  unfold request wordSize uintSize at *
  constructor
  · intro h
    refine ⟨_, Nat.le_add_left _ _, h, ?_⟩
    omega
  · rintro ⟨fit, hle, hfit, hmod⟩
    omega

/-- Whatever part of a request arrives, the next one asks for the rest. -/
theorem request_add {expectedLen len count : Nat} (hexpected : expectedLen < wordSize)
    (hlen : len + count < wordSize) (hcount : count ≤ request expectedLen len) :
    request expectedLen (len + count) + (len + count) = request expectedLen len + len := by
  unfold request wordSize uintSize at *
  omega

theorem request_of_le {expectedLen len : Nat} (hexpected : expectedLen < uintSize)
    (hlen : len ≤ expectedLen) : request expectedLen len = expectedLen - len := by
  unfold request wordSize uintSize at *
  omega

theorem request_self (len : Nat) : request len len = 0 := by
  rw [request, Nat.add_sub_cancel_left, Nat.mod_self, Nat.zero_mod]

theorem newBuf_cap {cap : Nat} (hcap : cap < wordSize) :
    (newBuf cap).cap < wordSize ∧ (cap + 7 < wordSize → cap ≤ (newBuf cap).cap) ∧
      (¬ cap + 7 < wordSize → (newBuf cap).cap = 0) := by
  unfold newBuf Buf.createSize Pool.ngxAlign Pool.ngxAlignment Buf.sizeofBuf wordSize at *
  simp only
  omega

/-! ## Steps -/

/-- What holds between calls as long as the lengths fit. -/
structure Ready (c : Lengths) : Prop where
  head_lt : c.headLen < uintSize
  expected_lt : c.expectedLen < wordSize
  cap_lt : c.nextBuf.cap < wordSize
  head_le : c.headLen ≤ c.nextBuf.cap
  header : c.expectedLen = c.headLen → c.nextBuf.len ≤ c.headLen
  bounded : Bounded c

variable {c : Lengths} {env : LengthEnv}

theorem ready_create {headLen : Nat} (h : headLen < uintSize) : Ready (create headLen) := by
  have hword : headLen + 7 < wordSize := by
    unfold wordSize uintSize at *
    omega
  have hcap := newBuf_cap (show headLen < wordSize by omega)
  have hnext : (create headLen).nextBuf = newBuf headLen := rfl
  refine ⟨h, ?_, ?_, ?_, fun _ => Nat.zero_le _, ?_⟩
  · simp only [create]
    omega
  · rw [hnext]
    exact hcap.1
  · rw [hnext]
    exact hcap.2.1 hword
  · unfold Bounded
    rw [hnext]
    show request headLen 0 + 0 ≤ _
    rw [request_of_le h (Nat.zero_le _)]
    exact hcap.2.1 hword

theorem Ready.add_le (h : Ready c) (hlegal : Legal c env) :
    c.nextBuf.len + env.count ≤ c.nextBuf.cap := by
  have hbounded := h.bounded
  have hcount := hlegal.1
  unfold Bounded at hbounded
  omega

theorem bounded_buf (c : Lengths) (expectedLen : Nat) (buf : BufLengths) :
    Bounded { c with expectedLen := expectedLen, rcvBuf := some buf } ↔
      request expectedLen buf.len + buf.len ≤ buf.cap := Iff.rfl

theorem ready_buf (h : Ready c) (expectedLen : Nat) (buf : BufLengths)
    (hexpected : expectedLen < wordSize) (hcap : buf.cap < wordSize) (hhead : c.headLen ≤ buf.cap)
    (hheader : expectedLen = c.headLen → buf.len ≤ c.headLen)
    (hbounded : request expectedLen buf.len + buf.len ≤ buf.cap) :
    Ready { c with expectedLen := expectedLen, rcvBuf := some buf } :=
  ⟨h.head_lt, hexpected, hcap, hhead, hheader, hbounded⟩

/-- After a delivery the header is asked for, and the buffer has room for it. -/
theorem ready_deliver (h : Ready c) (expectedLen : Nat) (buf : BufLengths)
    (hexpected : expectedLen < wordSize) (hcap : buf.cap < wordSize) (hhead : c.headLen ≤ buf.cap)
    (hheader : expectedLen = c.headLen → buf.len ≤ c.headLen)
    (hbounded : request expectedLen buf.len + buf.len ≤ buf.cap) :
    Ready (deliver { c with expectedLen := expectedLen } buf) := by
  unfold deliver
  split
  · have hword : c.headLen < wordSize := Nat.lt_trans h.head_lt (by decide)
    apply ready_buf h c.headLen { buf with len := 0 } hword hcap hhead (fun _ => Nat.zero_le _)
    rw [request_of_le h.head_lt (Nat.zero_le _)]
    exact hhead
  · exact ready_buf h expectedLen buf hexpected hcap hhead hheader hbounded

theorem Ready.body (h : Ready c) (hlegal : Legal c env) (hexpected : c.expectedLen ≠ c.headLen) :
    Ready (c.received c.nextBuf env) := by
  have hle := h.add_le hlegal
  have hcap := h.cap_lt
  have hbounded := h.bounded
  have hlen : (c.nextBuf.len + env.count) % wordSize = c.nextBuf.len + env.count :=
    Nat.mod_eq_of_lt (by omega)
  simp only [received, if_neg hexpected, hlen]
  apply ready_deliver h c.expectedLen { c.nextBuf with len := c.nextBuf.len + env.count }
    h.expected_lt hcap h.head_le (fun heq => absurd heq hexpected)
  show request c.expectedLen (c.nextBuf.len + env.count) + (c.nextBuf.len + env.count) ≤ _
  rw [request_add h.expected_lt (by omega) hlegal.1]
  exact hbounded

theorem Ready.enlarged (h : Ready c) (hlegal : Legal c env) (hexpected : c.expectedLen = c.headLen)
    (hgrow : c.headLen < env.head ∧ c.nextBuf.cap < env.head ∧ env.grown = true) :
    (env.head + 7 < wordSize → Ready (c.received c.nextBuf env)) ∧
      (Bounded (c.received c.nextBuf env) → env.head + 7 < wordSize) := by
  have hcap := newBuf_cap hlegal.2
  have hreceived : c.received c.nextBuf env =
      deliver { c with expectedLen := env.head } (newBuf env.head) := by
    simp only [received, if_pos hexpected, if_pos (And.intro hgrow.1 hgrow.2.1), if_pos hgrow.2.2]
  have hempty : (newBuf env.head).len = 0 := rfl
  rw [hreceived]
  constructor
  · intro hfits
    have hle := hcap.2.1 hfits
    apply ready_deliver h env.head (newBuf env.head) hlegal.2 hcap.1 (by omega)
      (fun _ => Nat.zero_le _)
    rw [hempty, request_le_iff hlegal.2 (Nat.zero_le _) hcap.1]
    exact ⟨env.head, Nat.zero_le _, hle, rfl⟩
  · intro hbounded
    by_contra hwrap
    have hzero := hcap.2.2 hwrap
    have hpos : ¬ ((newBuf env.head).len = env.head ∧ c.headLen ≤ (newBuf env.head).len) := by
      rw [hempty]
      omega
    unfold deliver at hbounded
    rw [if_neg hpos] at hbounded
    have hle : request env.head 0 + 0 ≤ (newBuf env.head).cap := hbounded
    rw [hzero] at hle
    have hlt := hlegal.2
    unfold request uintSize wordSize at *
    omega

theorem Ready.kept (h : Ready c) (hlegal : Legal c env) (hexpected : c.expectedLen = c.headLen)
    (hgrow : ¬ (c.headLen < env.head ∧ c.nextBuf.cap < env.head ∧ env.grown = true)) :
    (request env.head (c.nextBuf.len + env.count) + (c.nextBuf.len + env.count) ≤ c.nextBuf.cap →
        Ready (c.received c.nextBuf env)) ∧
      (Bounded (c.received c.nextBuf env) →
        request env.head (c.nextBuf.len + env.count) + (c.nextBuf.len + env.count) ≤
          c.nextBuf.cap) := by
  have hle := h.add_le hlegal
  have hcap := h.cap_lt
  have hlen : (c.nextBuf.len + env.count) % wordSize = c.nextBuf.len + env.count :=
    Nat.mod_eq_of_lt (by omega)
  -- no more than the header was asked for
  have hheader : c.nextBuf.len + env.count ≤ c.headLen := by
    have hold := h.header hexpected
    have hcount := hlegal.1
    rw [hexpected, request_of_le h.head_lt hold] at hcount
    omega
  simp only [received, if_pos hexpected, hlen]
  by_cases hlarge : c.headLen < env.head ∧ c.nextBuf.cap < env.head
  · have hgrown : ¬ env.grown = true := fun htrue => hgrow ⟨hlarge.1, hlarge.2, htrue⟩
    rw [if_pos hlarge, if_neg hgrown]
    exact ⟨ready_buf h env.head { c.nextBuf with len := c.nextBuf.len + env.count } hlegal.2 hcap
        h.head_le (fun _ => hheader),
      (bounded_buf c env.head { c.nextBuf with len := c.nextBuf.len + env.count }).mp⟩
  · rw [if_neg hlarge]
    constructor
    · exact ready_deliver h env.head { c.nextBuf with len := c.nextBuf.len + env.count } hlegal.2
        hcap h.head_le (fun _ => hheader)
    · unfold deliver
      split
      · rename_i hdone
        -- a frame that is complete leaves nothing to ask for
        intro _
        have hdone := hdone.1
        simp only at hdone
        rw [hdone, request_self, Nat.zero_add, ← hdone]
        exact hle
      · exact (bounded_buf c env.head { c.nextBuf with len := c.nextBuf.len + env.count }).mp

/-- A call keeps the lengths in order exactly when the header's length fits. -/
theorem Ready.onRead_iff (h : Ready c) (hlegal : Legal c env) :
    (HeadFits c env → Ready (c.onRead env)) ∧ (Bounded (c.onRead env) → HeadFits c env) := by
  unfold onRead HeadFits
  by_cases hnone : c.rcvBuf.isNone ∧ env.block = false
  · rw [if_pos hnone]
    exact ⟨fun _ => h, fun _ hasks => absurd hnone hasks.1⟩
  rw [if_neg hnone]
  by_cases hzero : env.count = 0
  · rw [if_pos hzero]
    exact ⟨fun _ => ⟨h.head_lt, h.expected_lt, h.cap_lt, h.head_le, h.header, h.bounded⟩,
      fun _ hasks => absurd hzero hasks.2.1⟩
  rw [if_neg hzero]
  by_cases hexpected : c.expectedLen = c.headLen
  · have hasks : AsksHead c env := ⟨hnone, hzero, hexpected⟩
    by_cases hgrow : c.headLen < env.head ∧ c.nextBuf.cap < env.head ∧ env.grown = true
    · rw [if_pos hgrow]
      rcases h.enlarged hlegal hexpected hgrow with ⟨hready, hfits⟩
      exact ⟨fun hhead => hready (hhead hasks), fun hbounded _ => hfits hbounded⟩
    · rw [if_neg hgrow, ← request_le_iff hlegal.2 (h.add_le hlegal) h.cap_lt]
      rcases h.kept hlegal hexpected hgrow with ⟨hready, hfits⟩
      exact ⟨fun hhead => hready (hhead hasks), fun hbounded _ => hfits hbounded⟩
  · exact ⟨fun _ => h.body hlegal hexpected, fun _ hasks => absurd hasks.2.2 hexpected⟩

/-- Along every run, what the next call asks for fits the buffer exactly as long
as every length the header function returns does. -/
theorem onRead_bounded_iff (headLen : Nat) (hhead : headLen < uintSize) (envs : List LengthEnv)
    (hlegal : Guarded onRead Legal (create headLen) envs) :
    Always onRead Bounded (create headLen) envs ↔
      Guarded onRead HeadFits (create headLen) envs := by
  apply always_iff_guarded Ready Legal (fun _ h => h.bounded) ?_ ?_ (ready_create hhead) hlegal
  · intro c env h hop hfits
    exact (h.onRead_iff hop).1 hfits
  · intro c env h hop hbad hbounded
    exact hbad ((h.onRead_iff hop).2 hbounded)

/-- A header of four bytes announces ten, in two reads. -/
theorem onRead_bounded_frame :
    Always onRead Bounded (create 4)
        [⟨true, 2, 4, true⟩, ⟨true, 2, 10, true⟩, ⟨true, 6, 0, true⟩] ↔
      Guarded onRead HeadFits (create 4)
        [⟨true, 2, 4, true⟩, ⟨true, 2, 10, true⟩, ⟨true, 6, 0, true⟩] :=
  onRead_bounded_iff 4 (by decide) _ (by decide)

/-- The header function of the example client returns zero whatever it is given:
after the first byte four gigabytes are asked for. -/
theorem onRead_asks_too_much :
    ¬ ∀ headLen, headLen < uintSize → ∀ envs : List LengthEnv,
      Guarded onRead Legal (create headLen) envs → Always onRead Bounded (create headLen) envs := by
  intro h
  have hbounded := (h 24 (by decide) [⟨true, 1, 0, true⟩] (by decide)).last
  revert hbounded
  decide

end Lengths

/-! ## The lengths in byte memory -/

def lengths (c : Receiver) : Lengths where
  headLen := c.headLen
  expectedLen := c.expectedLen
  rcvBuf := c.rcvBuf.map fun buf => ⟨Buf.cap c.mem buf, Buf.len c.mem buf⟩

/-- `received`, with another place for the bytes. -/
def receivedAt (place : Receiver → Nat → Nat) (headFnc : List UInt8 → Nat) (grown : Option Nat)
    (c : Receiver) (buf : Nat) (bytes : List UInt8) : Receiver :=
  let mem := store c.mem (place c buf) bytes
  let mem := Buf.setLen mem buf ((Buf.len mem buf + bytes.length) % wordSize)
  match parseHead headFnc grown { c with mem := mem } buf with
  | (c, none) => c
  | (c, some buf) => TcpConn.deliver c buf

def onReadAt (place : Receiver → Nat → Nat) (headFnc : List UInt8 → Nat) (c : Receiver)
    (env : ReadEnv) : Receiver :=
  match ensureBuf c env.block with
  | none => c
  | some (c, buf) =>
      match env.recv with
      | .failed errno =>
          if errno ≠ eagain ∨ errno ≠ eintr then
            { c with net := ({ c.net with errno := errno } : NetIo).terminate env.now }
          else c
      | .received [] => { c with net := ({ c.net with errno := -1 } : NetIo).terminate env.now }
      | .received (b :: bytes) => receivedAt place headFnc env.grown c buf (b :: bytes)

theorem onRead_eq (headFnc : List UInt8 → Nat) : onRead headFnc = onReadAt recvAddr headFnc := rfl

theorem header_same {r : Region} {m m' : Memory} {buf : Nat} (hsame : SameOutside r m m')
    (h : Region.Disjoint ⟨buf, Buf.sizeofBuf⟩ r) :
    Buf.cap m' buf = Buf.cap m buf ∧ Buf.len m' buf = Buf.len m buf := by
  unfold Buf.sizeofBuf at h
  simp only [Region.Disjoint, Region.stop] at h
  constructor
  · apply hsame.load64
    simp only [Region.Disjoint, Region.stop]
    omega
  · apply hsame.load64
    simp only [Region.Disjoint, Region.stop]
    omega

theorem header_setLen (m : Memory) (buf n : Nat) :
    Buf.cap (Buf.setLen m buf n) buf = Buf.cap m buf ∧
      Buf.len (Buf.setLen m buf n) buf = n % wordSize := by
  constructor
  · exact load64_store64_of_disjoint m n (by omega)
  · exact load64_store64_self m _ n

theorem lengths_deliver {c : Receiver} {buf : Nat} {l : Lengths} {b : BufLengths}
    (hbuf : c.rcvBuf = some buf) (hhead : l.headLen = c.headLen)
    (hexpected : l.expectedLen = c.expectedLen) (hcap : Buf.cap c.mem buf = b.cap)
    (hlen : Buf.len c.mem buf = b.len) : lengths (deliver c buf) = l.deliver b := by
  have hset := header_setLen c.mem buf 0
  rw [deliver, Lengths.deliver, hhead, hexpected, hlen]
  by_cases hdone : b.len = c.expectedLen ∧ c.headLen ≤ b.len
  · rw [if_pos hdone, if_pos hdone]
    simp only [lengths, hbuf, Option.map_some, hset.1, hset.2, hcap, Nat.zero_mod]
  · rw [if_neg hdone, if_neg hdone]
    simp only [lengths, hbuf, Option.map_some, hcap, hlen]

theorem lengths_ensureBuf {c : Receiver} {block : Option Nat} {r : Receiver × Nat}
    (hbuf : ensureBuf c block = some r) :
    r.1.rcvBuf = some r.2 ∧ lengths r.1 = { lengths c with rcvBuf := some (lengths c).nextBuf } := by
  unfold ensureBuf at hbuf
  cases hrcv : c.rcvBuf with
  | some buf =>
      simp only [hrcv, Option.some.injEq] at hbuf
      rw [← hbuf]
      exact ⟨hrcv, by simp only [lengths, Lengths.nextBuf, hrcv, Option.map_some, Option.getD_some]⟩
  | none =>
      simp only [hrcv, Option.map_eq_some_iff] at hbuf
      rcases hbuf with ⟨created, hcreate, hr⟩
      cases block with
      | none => cases hcreate
      | some addr =>
          have hlen : Buf.len created.1 created.2 = 0 := Buf.len_ngxCreateBuf hcreate
          have hcap : Buf.cap created.1 created.2 =
              (Buf.createSize c.expectedLen + wordSize - Buf.sizeofBuf) % wordSize :=
            Buf.cap_ngxCreateBuf hcreate
          rw [← hr]
          refine ⟨rfl, ?_⟩
          simp only [lengths, Lengths.nextBuf, Lengths.newBuf, hrcv, Option.map_some, Option.map_none,
            Option.getD_none, hlen, hcap]

theorem header_copied {m : Memory} {cap addr : Nat} {r : Memory × Nat}
    (haddr : addr + Buf.sizeofBuf < wordSize) (hcreate : Buf.ngxCreateBuf m cap (some addr) = some r)
    (bytes : List UInt8) :
    Buf.cap (store r.1 (Buf.data r.1 r.2) bytes) r.2 = (Lengths.newBuf cap).cap ∧
      Buf.len (store r.1 (Buf.data r.1 r.2) bytes) r.2 = (Lengths.newBuf cap).len := by
  have hnew : Buf.cap r.1 r.2 = (Lengths.newBuf cap).cap := by
    rw [Lengths.newBuf]
    exact Buf.cap_ngxCreateBuf hcreate
  have hempty : Buf.len r.1 r.2 = 0 := Buf.len_ngxCreateBuf hcreate
  rcases Buf.data_ngxCreateBuf haddr hcreate with ⟨_, hdata, _⟩
  have hbehind : Region.Disjoint ⟨r.2, Buf.sizeofBuf⟩ ⟨Buf.data r.1 r.2, bytes.length⟩ := by
    rw [hdata]
    exact .inl (Nat.le_refl _)
  have hsame := header_same (sameOutside_store r.1 (Buf.data r.1 r.2) bytes) hbehind
  exact ⟨hsame.1.trans hnew, hsame.2.trans hempty⟩

/-- Where the bytes keep off the header of the buffer, and the enlarged buffer
ends below the top of memory, a read does to the lengths what the lengths alone
say. -/
theorem lengths_receivedAt {place : Receiver → Nat → Nat} (headFnc : List UInt8 → Nat)
    {grown : Option Nat} {c : Receiver} {buf : Nat} {bytes : List UInt8}
    (hbuf : c.rcvBuf = some buf)
    (hplace : Region.Disjoint ⟨buf, Buf.sizeofBuf⟩ ⟨place c buf, bytes.length⟩)
    (hgrown : ∀ addr ∈ grown, addr + Buf.sizeofBuf < wordSize) :
    ∃ parsed, lengths (receivedAt place headFnc grown c buf bytes) =
      (lengths c).received ⟨Buf.cap c.mem buf, Buf.len c.mem buf⟩
        ⟨true, bytes.length, headFnc parsed, grown.isSome⟩ := by
  rcases header_same (sameOutside_store c.mem (place c buf) bytes) hplace with ⟨hcap, hlen⟩
  have hset := header_setLen (store c.mem (place c buf) bytes) buf
    ((Buf.len c.mem buf + bytes.length) % wordSize)
  rw [hcap, Nat.mod_mod] at hset
  unfold receivedAt
  simp only [hlen]
  generalize Buf.setLen (store c.mem (place c buf) bytes) buf
    ((Buf.len c.mem buf + bytes.length) % wordSize) = m at hset ⊢
  refine ⟨load m (Buf.data m buf) (Buf.len m buf), ?_⟩
  generalize hhead : headFnc (load m (Buf.data m buf) (Buf.len m buf)) = head
  unfold parseHead Lengths.received
  simp only [hhead, hset.1]
  by_cases hexpected : c.expectedLen = c.headLen
  · have hexpected' : (lengths c).expectedLen = (lengths c).headLen := hexpected
    rw [if_pos hexpected, if_pos hexpected']
    by_cases hlarge : c.headLen < head ∧ Buf.cap c.mem buf < head
    · have hlarge' : (lengths c).headLen < head ∧ Buf.cap c.mem buf < head := hlarge
      rw [if_pos hlarge, if_pos hlarge']
      cases grown with
      | none =>
          simp only [Buf.ngxCreateBuf, Option.map_none, Option.isSome_none, Bool.false_eq_true,
            if_false, lengths, hbuf, Option.map_some, hset.1, hset.2]
      | some addr =>
          cases hcreate : Buf.ngxCreateBuf m head (some addr) with
          | none => cases hcreate
          | some r =>
              rcases header_copied (hgrown addr rfl) hcreate
                (load r.1 (Buf.data r.1 buf) (Buf.len r.1 buf)) with ⟨hnew, hempty⟩
              simp only [Option.isSome_some, if_true]
              apply lengths_deliver
              · rfl
              · rfl
              · rfl
              · rw [hnew]
              · rw [hempty]
    · have hlarge' : ¬ ((lengths c).headLen < head ∧ Buf.cap c.mem buf < head) := hlarge
      rw [if_neg hlarge, if_neg hlarge']
      exact lengths_deliver hbuf rfl rfl hset.1 hset.2
  · have hexpected' : ¬ (lengths c).expectedLen = (lengths c).headLen := hexpected
    rw [if_neg hexpected, if_neg hexpected']
    exact lengths_deliver hbuf rfl rfl hset.1 hset.2

theorem lengths_onReadAt {place : Receiver → Nat → Nat} {headFnc : List UInt8 → Nat}
    {c : Receiver} {env : ReadEnv}
    (hplace : ∀ r, ensureBuf c env.block = some r →
      Region.Disjoint ⟨r.2, Buf.sizeofBuf⟩ ⟨place r.1 r.2, env.bytes.length⟩)
    (hgrown : ∀ addr ∈ env.grown, addr + Buf.sizeofBuf < wordSize) :
    ∃ parsed, lengths (onReadAt place headFnc c env) =
      (lengths c).onRead
        ⟨env.block.isSome, env.bytes.length, headFnc parsed, env.grown.isSome⟩ := by
  have hnone : ensureBuf c env.block = none ↔
      (lengths c).rcvBuf.isNone ∧ env.block.isSome = false := by
    unfold ensureBuf lengths
    cases c.rcvBuf <;> cases env.block <;> simp [Buf.ngxCreateBuf]
  cases hensure : ensureBuf c env.block with
  | none =>
      refine ⟨[], ?_⟩
      rw [Lengths.onRead, if_pos (hnone.mp hensure), onReadAt, hensure]
  | some r =>
      have hsome : ¬ ((lengths c).rcvBuf.isNone ∧ env.block.isSome = false) := by
        rw [← hnone, hensure]
        simp
      rcases lengths_ensureBuf hensure with ⟨hbuf, hlengths⟩
      have hplace := hplace r hensure
      have hcall : ∀ env' : LengthEnv, env'.block = env.block.isSome →
          (lengths c).onRead env' =
            if env'.count = 0 then lengths r.1 else (lengths r.1).received (lengths c).nextBuf env' := by
        intro env' hblock
        unfold Lengths.onRead
        rw [hblock, if_neg hsome, hlengths]
        rfl
      rw [onReadAt, hensure]
      unfold ReadEnv.bytes at hplace ⊢
      cases hrecv : env.recv with
      | failed errno =>
          refine ⟨[], ?_⟩
          rw [hcall _ rfl]
          dsimp only
          rw [List.length_nil, if_pos rfl]
          split <;> rfl
      | received bytes =>
          cases bytes with
          | nil =>
              refine ⟨[], ?_⟩
              rw [hcall _ rfl]
              rfl
          | cons b bytes =>
              rw [hrecv] at hplace
              have hpos : ¬ (b :: bytes).length = 0 := by simp
              have hnext : (lengths c).nextBuf = ⟨Buf.cap r.1.mem r.2, Buf.len r.1.mem r.2⟩ := by
                have hfields := congrArg Lengths.rcvBuf hlengths
                simp only [lengths, hbuf, Option.map_some, Option.some.injEq] at hfields
                exact hfields.symm
              rcases lengths_receivedAt headFnc hbuf hplace hgrown with ⟨parsed, hparsed⟩
              refine ⟨parsed, ?_⟩
              rw [hcall _ rfl, if_neg hpos, hnext]
              exact hparsed

end NetTest.TcpConn
