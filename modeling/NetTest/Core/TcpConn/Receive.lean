import NetTest.Lib.Regions
import NetTest.Lib.Runs
import NetTest.Core.Buf
import NetTest.Core.NetIo

/-!
# Receiving

`tcp_conn::OnRead` over byte memory: the receive buffer is a header and the
bytes behind it, and `recv` writes wherever it is told to.  It is told to write
at the header plus `len`, and not at `data` plus `len`, so what arrives first
lands on the fields `cap`, `len`, `ref` and `data` themselves.
-/

namespace NetTest.TcpConn

open Memory Runs
open Pool (wordSize uintSize)

/-! ## `OnRead` -/

inductive RecvResult where
  | received (bytes : List UInt8)
  | failed (errno : Int)

/-- What one call finds outside: the pool's answers for the first and for the
enlarged buffer, the result of `recv`, and the time. -/
structure ReadEnv where
  block : Option Nat
  recv : RecvResult
  grown : Option Nat
  now : Nat

structure Receiver where
  net : NetIo
  mem : Memory
  headLen : Nat
  expectedLen : Nat
  rcvBuf : Option Nat
  /-- The messages handed to `OnMessage`, in order. -/
  delivered : List (List UInt8)

/-- `tcp_conn::tcp_conn`, for its receive side. -/
def Receiver.create (net : NetIo) (mem : Memory) (nHeadLen : Nat) : Receiver where
  net := net
  mem := mem
  headLen := nHeadLen
  expectedLen := nHeadLen
  rcvBuf := none
  delivered := []

def ensureBuf (c : Receiver) (block : Option Nat) : Option (Receiver × Nat) :=
  match c.rcvBuf with
  | some buf => some (c, buf)
  | none =>
      (Buf.ngxCreateBuf c.mem c.expectedLen block).map fun r =>
        ({ c with mem := r.1, rcvBuf := some r.2 }, r.2)

/-- `(char*)_rcv_buf + _rcv_buf->len`. -/
def recvAddr (c : Receiver) (buf : Nat) : Nat := buf + Buf.len c.mem buf

/-- `(unsigned int)(_expected_len - _rcv_buf->len)`. -/
def recvLen (c : Receiver) (buf : Nat) : Nat :=
  (c.expectedLen + wordSize - Buf.len c.mem buf) % wordSize % uintSize

/-- The header function is asked while the header is expected.  `none` is the
early return of a failed enlargement, after `_expected_len` has been set. -/
def parseHead (headFnc : List UInt8 → Nat) (grown : Option Nat) (c : Receiver) (buf : Nat) :
    Receiver × Option Nat :=
  if c.expectedLen = c.headLen then
    let expected := headFnc (load c.mem (Buf.data c.mem buf) (Buf.len c.mem buf))
    let c := { c with expectedLen := expected }
    if c.headLen < expected ∧ Buf.cap c.mem buf < expected then
      match Buf.ngxCreateBuf c.mem expected grown with
      | none => (c, none)
      | some (m, newBuf) =>
          let bytes := load m (Buf.data m buf) (Buf.len m buf)
          ({ c with mem := store m (Buf.data m newBuf) bytes, rcvBuf := some newBuf }, some newBuf)
    else (c, some buf)
  else (c, some buf)

def deliver (c : Receiver) (buf : Nat) : Receiver :=
  if Buf.len c.mem buf = c.expectedLen ∧ c.headLen ≤ Buf.len c.mem buf then
    { c with
      delivered := c.delivered ++ [load c.mem (Buf.data c.mem buf) (c.expectedLen % uintSize)]
      expectedLen := c.headLen
      mem := Buf.setLen c.mem buf 0 }
  else c

def received (headFnc : List UInt8 → Nat) (grown : Option Nat) (c : Receiver) (buf : Nat)
    (bytes : List UInt8) : Receiver :=
  let mem := store c.mem (recvAddr c buf) bytes
  let mem := Buf.setLen mem buf ((Buf.len mem buf + bytes.length) % wordSize)
  match parseHead headFnc grown { c with mem := mem } buf with
  | (c, none) => c
  | (c, some buf) => deliver c buf

def onRead (headFnc : List UInt8 → Nat) (c : Receiver) (env : ReadEnv) : Receiver :=
  match ensureBuf c env.block with
  | none => c
  | some (c, buf) =>
      match env.recv with
      | .failed errno =>
          -- the source joins the two tests with `||`, so no error code is let through
          if errno ≠ eagain ∨ errno ≠ eintr then
            { c with net := ({ c.net with errno := errno } : NetIo).terminate env.now }
          else c
      | .received [] => { c with net := ({ c.net with errno := -1 } : NetIo).terminate env.now }
      | .received (b :: bytes) => received headFnc env.grown c buf (b :: bytes)

/-! ## Framing -/

/-- A header function: the head length while the header is incomplete, and not
less once it is there. -/
structure HeadFnc (headLen : Nat) (headFnc : List UInt8 → Nat) : Prop where
  short : ∀ bytes, bytes.length < headLen → headFnc bytes = headLen
  total : ∀ bytes, headLen ≤ bytes.length → headLen ≤ headFnc bytes

/-- From its header on, the header function knows the length of the frame. -/
def IsFrame (headLen : Nat) (headFnc : List UInt8 → Nat) (frame : List UInt8) : Prop :=
  headLen ≤ frame.length ∧
    ∀ n, headLen ≤ n → n ≤ frame.length → headFnc (frame.take n) = frame.length

def ReadEnv.bytes (env : ReadEnv) : List UInt8 :=
  match env.recv with
  | .received bytes => bytes
  | .failed _ => []

/-- Allocation succeeds and `recv` returns at least one byte and at most as many
as it was asked for, a count that fits the `int` it is returned in. -/
def Delivers (c : Receiver) (env : ReadEnv) : Prop :=
  env.grown ≠ none ∧ env.bytes ≠ [] ∧ env.bytes.length < 2 ^ 31 ∧
    ∃ r, ensureBuf c env.block = some r ∧ env.bytes.length ≤ recvLen r.1 r.2

/-- `recv` does not write to the header of the buffer. -/
def KeepsFields (c : Receiver) (env : ReadEnv) : Prop :=
  ∀ r, ensureBuf c env.block = some r →
    Region.Disjoint ⟨recvAddr r.1 r.2, env.bytes.length⟩ ⟨r.2, Buf.sizeofBuf⟩

/-- However the socket splits the frames, no read touches the fields of the
buffer, and once everything has arrived the frames have been delivered. -/
def Framed (net : NetIo) (mem : Memory) (headLen : Nat) (headFnc : List UInt8 → Nat)
    (frames : List (List UInt8)) : Prop :=
  ∀ envs : List ReadEnv,
    Guarded (onRead headFnc) Delivers (Receiver.create net mem headLen) envs →
    envs.flatMap ReadEnv.bytes <+: frames.flatten →
      Guarded (onRead headFnc) KeepsFields (Receiver.create net mem headLen) envs ∧
      (envs.flatMap ReadEnv.bytes = frames.flatten →
        (envs.foldl (onRead headFnc) (Receiver.create net mem headLen)).delivered = frames)

theorem not_keepsFields {c : Receiver} {env : ReadEnv} {r : Receiver × Nat}
    (hbuf : ensureBuf c env.block = some r) (hlen : Buf.len r.1.mem r.2 = 0)
    (hbytes : env.bytes ≠ []) : ¬ KeepsFields c env := by
  intro hkeeps
  have hdisjoint := hkeeps r hbuf
  have hpos : 0 < env.bytes.length := List.length_pos_iff.mpr hbytes
  unfold Region.Disjoint Region.stop recvAddr Buf.sizeofBuf at hdisjoint
  simp only [hlen] at hdisjoint
  omega

/-- The first read of a connection finds a new buffer and asks for the header. -/
theorem ensureBuf_create {headLen : Nat} (hhead : headLen < uintSize) (net : NetIo) (mem : Memory)
    (block : Nat) :
    ∃ r, ensureBuf (Receiver.create net mem headLen) (some block) = some r ∧
      Buf.len r.1.mem r.2 = 0 ∧ recvLen r.1 r.2 = headLen := by
  cases hcreate : Buf.ngxCreateBuf mem headLen (some block) with
  | none => cases hcreate
  | some r =>
      have hlen : Buf.len r.1 r.2 = 0 := Buf.len_ngxCreateBuf hcreate
      have hensure : ensureBuf (Receiver.create net mem headLen) (some block) =
          some ({ Receiver.create net mem headLen with mem := r.1, rcvBuf := some r.2 }, r.2) := by
        simp only [ensureBuf, Receiver.create, hcreate, Option.map_some]
      have hword : headLen < wordSize := Nat.lt_trans hhead (by decide)
      have hrecv : recvLen { Receiver.create net mem headLen with
          mem := r.1, rcvBuf := some r.2 } r.2 = headLen := by
        simp only [recvLen, Receiver.create, hlen, Nat.sub_zero, Nat.add_mod_right]
        rw [Nat.mod_eq_of_lt hword, Nat.mod_eq_of_lt hhead]
      exact ⟨_, hensure, hlen, hrecv⟩

def firstByte (b : UInt8) : ReadEnv :=
  { block := some 4096, recv := .received [b], grown := some 8192, now := 0 }

theorem firstByte_delivers {headLen : Nat} (hpos : 1 ≤ headLen) (hhead : headLen < uintSize)
    (net : NetIo) (mem : Memory) (b : UInt8) :
    Delivers (Receiver.create net mem headLen) (firstByte b) := by
  rcases ensureBuf_create hhead net mem 4096 with ⟨r, hensure, _, hrecv⟩
  constructor
  · simp [firstByte]
  · constructor
    · simp [firstByte, ReadEnv.bytes]
    · constructor
      · simp [firstByte, ReadEnv.bytes]
      · exact ⟨r, hensure, by rw [hrecv]; exact hpos⟩

theorem firstByte_not_keepsFields {headLen : Nat} (hhead : headLen < uintSize) (net : NetIo)
    (mem : Memory) (b : UInt8) :
    ¬ KeepsFields (Receiver.create net mem headLen) (firstByte b) := by
  rcases ensureBuf_create hhead net mem 4096 with ⟨r, hensure, hlen, _⟩
  exact not_keepsFields hensure hlen (by simp [firstByte, ReadEnv.bytes])

/-- A stream with a first byte is not framed: reading that byte alone already
writes to the header. -/
theorem not_framed_of_cons {headLen : Nat} (hpos : 1 ≤ headLen) (hhead : headLen < uintSize)
    (net : NetIo) (mem : Memory) (headFnc : List UInt8 → Nat) {frames : List (List UInt8)}
    {b : UInt8} {rest : List UInt8} (hstream : frames.flatten = b :: rest) :
    ¬ Framed net mem headLen headFnc frames := by
  intro hframed
  have hbytes : [firstByte b].flatMap ReadEnv.bytes = [b] := rfl
  have hprefix : [firstByte b].flatMap ReadEnv.bytes <+: frames.flatten := by
    rw [hbytes, hstream]
    exact List.cons_prefix_cons.mpr ⟨rfl, List.nil_prefix⟩
  have hkeeps := hframed [firstByte b]
    ⟨firstByte_delivers hpos hhead net mem b, trivial⟩ hprefix
  exact firstByte_not_keepsFields hhead net mem b hkeeps.1.1

/-- Nothing arrives, nothing is written and nothing is delivered. -/
theorem framed_nil (net : NetIo) (mem : Memory) (headLen : Nat) (headFnc : List UInt8 → Nat) :
    Framed net mem headLen headFnc [] := by
  intro envs henvs hprefix
  cases envs with
  | nil => exact ⟨trivial, fun _ => rfl⟩
  | cons env rest =>
      -- every read brings a byte, and there is none
      have hbytes : env.bytes = [] := by
        have hnil := List.prefix_nil.mp hprefix
        rw [List.flatMap_cons] at hnil
        exact (List.append_eq_nil_iff.mp hnil).1
      exact absurd hbytes henvs.1.2.1

/-- Whatever the header function and the frames, framing holds for the empty
stream only. -/
theorem onRead_framing_iff (net : NetIo) (mem : Memory) (headLen : Nat)
    (headFnc : List UInt8 → Nat) (frames : List (List UInt8)) (hpos : 1 ≤ headLen)
    (hhead : headLen < uintSize) (_hfnc : HeadFnc headLen headFnc)
    (hframes : ∀ frame ∈ frames, IsFrame headLen headFnc frame) :
    Framed net mem headLen headFnc frames ↔ frames.flatten = [] := by
  constructor
  · intro hframed
    cases hstream : frames.flatten with
    | nil => rfl
    | cons b rest =>
        exact absurd hframed (not_framed_of_cons hpos hhead net mem headFnc hstream)
  · intro hempty
    cases frames with
    | nil => exact framed_nil net mem headLen headFnc
    | cons frame frames =>
        -- a frame holds at least its header
        have hlen := (hframes frame (List.mem_cons_self)).1
        rw [List.flatten_cons] at hempty
        rw [(List.append_eq_nil_iff.mp hempty).1, List.length_nil] at hlen
        omega

/-- The header function of the demo server, which runs with a head length of 24. -/
def msgHeadParse (data : List UInt8) : Nat := if data.length < 24 then 24 else data.length

theorem msgHeadParse_headFnc : HeadFnc 24 msgHeadParse where
  short bytes hlen := if_pos hlen
  total bytes hlen := by
    unfold msgHeadParse
    split <;> omega

/-- For the demo's header function a frame is a bare header. -/
theorem msgHeadParse_isFrame {frame : List UInt8} (hlen : frame.length = 24) :
    IsFrame 24 msgHeadParse frame := by
  constructor
  · omega
  · intro n hle hn
    have hn24 : n = 24 := by omega
    rw [hn24, List.take_of_length_le (by omega), msgHeadParse]
    split <;> omega

theorem onRead_framing_demo :
    ¬ Framed (.watched 7) (fun _ => 0) 24 msgHeadParse [List.replicate 24 65] := by
  have hiff := onRead_framing_iff (.watched 7) (fun _ => 0) 24 msgHeadParse [List.replicate 24 65]
    (by decide) (by decide) msgHeadParse_headFnc
    (by
      intro frame hframe
      rw [List.mem_singleton.mp hframe]
      exact msgHeadParse_isFrame (by simp))
  intro hframed
  have hempty := hiff.mp hframed
  simp at hempty

/-- One header of the demo's protocol arrives and its first byte is written to
`cap`. -/
theorem onRead_overwrites_cap :
    ¬ ∀ (net : NetIo) (mem : Memory) (headLen : Nat) (headFnc : List UInt8 → Nat)
      (frames : List (List UInt8)), 1 ≤ headLen → headLen < uintSize → HeadFnc headLen headFnc →
      (∀ frame ∈ frames, IsFrame headLen headFnc frame) →
        Framed net mem headLen headFnc frames := by
  intro h
  have hstream : [List.replicate 24 (65 : UInt8)].flatten = 65 :: List.replicate 23 65 := rfl
  have hframes : ∀ frame ∈ [List.replicate 24 (65 : UInt8)], IsFrame 24 msgHeadParse frame := by
    intro frame hframe
    rw [List.mem_singleton.mp hframe]
    exact msgHeadParse_isFrame (by simp)
  exact not_framed_of_cons (by decide) (by decide) (.watched 7) (fun _ => 0) msgHeadParse hstream
    (h (.watched 7) (fun _ => 0) 24 msgHeadParse [List.replicate 24 65] (by decide) (by decide)
      msgHeadParse_headFnc hframes)

end NetTest.TcpConn
