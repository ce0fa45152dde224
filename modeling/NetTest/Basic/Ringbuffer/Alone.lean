import NetTest.Basic.Ringbuffer.Spsc

/-!
# Calls that nobody interferes with

The steps of a call that runs alone compute the function of `Ringbuffer.Model`,
and a call for many elements does what the calls for one element each would do.
-/

namespace NetTest.Spsc

open Wrapping Runs

variable {α : Type*} {p : Params}

/-! ## The producer -/

def insertEvents (data : α) : List (Event α) :=
  [.put (.insert data), .producer, .producer, .producer, .producer]

theorem insert_alone {s : System α} (hidle : s.producer = .idle) (data : α) :
    (insertEvents data).foldl (step p) s =
      { s with
        ring := (insert p s.ring data).1
        returned := s.returned ++ [([data], if (insert p s.ring data).2 then 1 else 0)] } := by
  rcases s with ⟨ring, producer, consumer, returned, removed⟩
  cases hidle
  by_cases hfull : gap p ring.head ring.tail = p.bufferSize
  · simp [insertEvents, step, runProducer, System.returnPut, insert, hfull, PutCall.buff]
  · simp [insertEvents, step, runProducer, System.returnPut, insert, hfull, PutCall.buff]

theorem copyIn_alone (s : System α) (call : PutCall α) (written : Nat) (copied rest : List α)
    (tmpHead : Nat) (hpc : s.producer = .copy call written copied rest tmpHead) :
    (List.replicate rest.length Event.producer).foldl (step p) s =
      { s with
        ring := { s.ring with dataBuff := (copyIn p s.ring.dataBuff tmpHead rest).1 }
        producer := .copy call written (copied ++ rest) []
          (copyIn p s.ring.dataBuff tmpHead rest).2 } := by
  induction rest generalizing s copied tmpHead with
  | nil =>
      rcases s with ⟨ring, producer, consumer, returned, removed⟩
      cases hpc
      simp [copyIn]
  | cons x rest ih =>
      rw [List.length_cons, List.replicate_succ, List.foldl_cons, step, hpc, runProducer,
        ih _ (copied ++ [x]) (next p tmpHead) rfl]
      simp [copyIn]

theorem writeChunk_alone (s : System α) (buff chunk : List α) (tmpHead : Nat)
    (hpc : s.producer = .copy (.writeBuff buff) 0 [] chunk tmpHead) :
    (List.replicate chunk.length Event.producer ++ [Event.producer]).foldl (step p) s =
      { s with
        ring := { s.ring with
          dataBuff := (copyIn p s.ring.dataBuff tmpHead chunk).1
          head := (copyIn p s.ring.dataBuff tmpHead chunk).2 }
        producer := .idle
        returned := s.returned ++ [(buff, chunk.length)] } := by
  rw [List.foldl_append, copyIn_alone s _ _ _ _ _ hpc]
  simp [step, runProducer, System.returnPut, PutCall.buff]

def writeBuffEvents (p : Params) (r : Ringbuffer α) (buff : List α) : List (Event α) :=
  [.put (.writeBuff buff), .producer, .producer] ++
    (List.replicate (buff.take (clip buff.length (writeAvailable p r))).length .producer ++
      [.producer])

theorem writeBuff_alone {s : System α} (hidle : s.producer = .idle) (buff : List α) :
    (writeBuffEvents p s.ring buff).foldl (step p) s =
      { s with
        ring := (writeBuff p s.ring buff).1
        returned := s.returned ++ [(buff, (writeBuff p s.ring buff).2)] } := by
  rcases s with ⟨ring, producer, consumer, returned, removed⟩
  cases hidle
  have hlength : (buff.take (clip buff.length (writeAvailable p ring))).length =
      clip buff.length (writeAvailable p ring) := by
    rw [List.length_take]
    exact Nat.min_eq_left (clip_le_left _ _)
  have htest : ([.put (.writeBuff buff), .producer, .producer] : List (Event α)).foldl (step p)
      { ring, producer := .idle, consumer, returned, removed } =
      { ring
        producer := .copy (.writeBuff buff) 0 []
          (buff.take (clip buff.length (writeAvailable p ring))) ring.head
        consumer, returned, removed } := by
    simp [step, runProducer, PutCall.toWrite, writeAvailable]
  unfold writeBuffEvents
  rw [List.foldl_append, htest, writeChunk_alone _ buff _ ring.head rfl, hlength]
  simp only [writeBuff]

/-! ## The consumer -/

def removeEvents : List (Event α) :=
  [.get .remove, .consumer, .consumer, .consumer, .consumer]

theorem remove_alone {s : System α} (hidle : s.consumer = .idle) :
    removeEvents.foldl (step p) s =
      { s with
        ring := (remove p s.ring).1
        removed := s.removed ++ (remove p s.ring).2.toList.map some } := by
  rcases s with ⟨ring, producer, consumer, returned, removed⟩
  cases hidle
  by_cases hempty : ring.tail = ring.head
  · simp [removeEvents, step, runConsumer, remove, hempty]
  · simp [removeEvents, step, runConsumer, remove, hempty]

theorem copyOut_alone (s : System α) (call : GetCall) (read toRead : Nat) (got : List α)
    (tmpTail : Nat) (hpc : s.consumer = .copy call read toRead got tmpTail) :
    (List.replicate toRead Event.consumer).foldl (step p) s =
      { s with consumer := .copy call read 0 (got ++ (copyOut p s.ring.dataBuff tmpTail toRead).1)
                (copyOut p s.ring.dataBuff tmpTail toRead).2 } := by
  induction toRead generalizing s got tmpTail with
  | zero =>
      rcases s with ⟨ring, producer, consumer, returned, removed⟩
      cases hpc
      simp [copyOut]
  | succ toRead ih =>
      rw [List.replicate_succ, List.foldl_cons, step, hpc, runConsumer, ih _ _ (next p tmpTail) rfl]
      simp [copyOut]

theorem readChunk_alone (s : System α) (count toRead tmpTail : Nat)
    (hpc : s.consumer = .copy (.readBuff count) 0 toRead [] tmpTail) :
    (List.replicate toRead Event.consumer ++ [Event.consumer]).foldl (step p) s =
      { s with
        ring := { s.ring with tail := (copyOut p s.ring.dataBuff tmpTail toRead).2 }
        removed := s.removed ++ (copyOut p s.ring.dataBuff tmpTail toRead).1.map some
        consumer := .idle } := by
  rw [List.foldl_append, copyOut_alone s _ _ _ _ _ hpc]
  simp [step, runConsumer]

def readBuffEvents (p : Params) (r : Ringbuffer α) (count : Nat) : List (Event α) :=
  [.get (.readBuff count), .consumer, .consumer] ++
    (List.replicate (clip count (readAvailable p r)) .consumer ++ [.consumer])

theorem readBuff_alone {s : System α} (hidle : s.consumer = .idle) (count : Nat) :
    (readBuffEvents p s.ring count).foldl (step p) s =
      { s with
        ring := (readBuff p s.ring count).1
        removed := s.removed ++ (readBuff p s.ring count).2.map some } := by
  rcases s with ⟨ring, producer, consumer, returned, removed⟩
  cases hidle
  have htest : ([.get (.readBuff count), .consumer, .consumer] : List (Event α)).foldl (step p)
      { ring, producer, consumer := .idle, returned, removed } =
      { ring, producer
        consumer := .copy (.readBuff count) 0 (clip count (readAvailable p ring)) [] ring.tail
        returned, removed } := by
    simp [step, runConsumer, GetCall.toRead, readAvailable]
  unfold readBuffEvents
  rw [List.foldl_append, htest, readChunk_alone _ count _ ring.tail rfl]
  simp only [readBuff]

/-! ## Many elements at once -/

/-- One `insert` for each element, up to the first that is refused. -/
def insertAll (p : Params) (r : Ringbuffer α) : List α → Ringbuffer α × Nat
  | [] => (r, 0)
  | x :: rest =>
      match insert p r x with
      | (r', true) => ((insertAll p r' rest).1, (insertAll p r' rest).2 + 1)
      | (r', false) => (r', 0)

def removeAll (p : Params) (r : Ringbuffer α) : Nat → Ringbuffer α × List α
  | 0 => (r, [])
  | count + 1 =>
      match remove p r with
      | (r', some x) => ((removeAll p r' count).1, x :: (removeAll p r' count).2)
      | (r', none) => (r', [])

/-- The indexes count what was put and what was taken, at most a buffer apart. -/
structure Counted (p : Params) (r : Ringbuffer α) (put taken : Nat) : Prop where
  head : r.head = put % p.indexT
  tail : r.tail = taken % p.indexT
  le : taken ≤ put
  bounded : put ≤ taken + p.bufferSize

theorem Inv.counted {s : System α} (h : Inv p s) :
    Counted p s.ring s.reported.length s.removed.length :=
  ⟨h.head, h.tail, h.le, h.bounded⟩

theorem writeBuff_eq (hp : p.Counts) {r : Ringbuffer α} {put taken : Nat}
    (h : Counted p r put taken) (buff : List α) :
    writeBuff p r buff =
      ({ r with
        dataBuff := (copyIn p r.dataBuff r.head
          (buff.take (min buff.length (taken + p.bufferSize - put)))).1
        head := (copyIn p r.dataBuff r.head
          (buff.take (min buff.length (taken + p.bufferSize - put)))).2 },
        min buff.length (taken + p.bufferSize - put)) := by
  have havailable : writeAvailable p r = taken + p.bufferSize - put := by
    rw [writeAvailable, h.head, h.tail, unwritten_eq hp h.le h.bounded]
  simp only [writeBuff, clip_eq_min, havailable]

theorem readBuff_eq (hp : p.Counts) {r : Ringbuffer α} {put taken : Nat}
    (h : Counted p r put taken) (count : Nat) :
    readBuff p r count =
      ({ r with tail := (copyOut p r.dataBuff r.tail (min count (put - taken))).2 },
        (copyOut p r.dataBuff r.tail (min count (put - taken))).1) := by
  have havailable : readAvailable p r = put - taken := by
    rw [readAvailable, h.head, h.tail, unread_eq hp h.le h.bounded]
  simp only [readBuff, clip_eq_min, havailable]

theorem Counted.insert_full (hp : p.Counts) {r : Ringbuffer α} {put taken : Nat}
    (h : Counted p r put taken) (hfull : put = taken + p.bufferSize) (data : α) :
    insert p r data = (r, false) := by
  rw [insert, h.head, h.tail, if_pos]
  rw [gap_eq hp h.le h.bounded]
  omega

theorem Counted.insert_room (hp : p.Counts) {r : Ringbuffer α} {put taken : Nat}
    (h : Counted p r put taken) (hroom : put < taken + p.bufferSize) (data : α) :
    insert p r data =
      ({ r with
        dataBuff := Function.update r.dataBuff (slot p r.head) data
        head := next p r.head }, true) := by
  have hgap : gap p r.head r.tail ≠ p.bufferSize := by
    rw [h.head, h.tail, gap_eq hp h.le h.bounded]
    have := h.le
    omega
  rw [insert, if_neg hgap]

/-- One `writeBuff` is as many calls of `insert` as succeed, with the same count
and the same buffer afterwards. -/
theorem writeBuff_eq_insertAll (hp : p.Counts) {r : Ringbuffer α} {put taken : Nat}
    (h : Counted p r put taken) (buff : List α) :
    writeBuff p r buff = insertAll p r buff := by
  induction buff generalizing r put with
  | nil =>
      rw [writeBuff_eq hp h]
      simp [insertAll, copyIn]
  | cons x rest ih =>
      rw [writeBuff_eq hp h, insertAll, List.length_cons]
      rcases Nat.lt_or_ge put (taken + p.bufferSize) with hroom | hfull
      · have hnext : Counted p { r with
            dataBuff := Function.update r.dataBuff (slot p r.head) x
            head := next p r.head } (put + 1) taken :=
          ⟨by rw [h.head, next_mod], h.tail, Nat.le_succ_of_le h.le, hroom⟩
        have hcount : min (rest.length + 1) (taken + p.bufferSize - put) =
            min rest.length (taken + p.bufferSize - (put + 1)) + 1 := by omega
        simp only [h.insert_room hp hroom, ← ih hnext, writeBuff_eq hp hnext, hcount,
          List.take_succ_cons, copyIn]
      · have heq : put = taken + p.bufferSize := Nat.le_antisymm h.bounded hfull
        simp only [h.insert_full hp heq]
        rw [show taken + p.bufferSize - put = 0 by omega]
        simp [copyIn]

/-- One `readBuff` is as many calls of `remove` as succeed, with the same elements
and the same buffer afterwards. -/
theorem readBuff_eq_removeAll (hp : p.Counts) {r : Ringbuffer α} {put taken : Nat}
    (h : Counted p r put taken) (count : Nat) :
    readBuff p r count = removeAll p r count := by
  induction count generalizing r taken with
  | zero =>
      rw [readBuff_eq hp h]
      simp [removeAll, copyOut]
  | succ count ih =>
      rw [readBuff_eq hp h, removeAll]
      rcases Nat.lt_or_ge taken put with hsome | hnone
      · have hnext : Counted p { r with tail := next p r.tail } put (taken + 1) :=
          ⟨h.head, by rw [h.tail, next_mod], hsome, Nat.le_trans h.bounded (by omega)⟩
        have hne : r.tail ≠ r.head := by
          intro heq
          have hgap := gap_eq hp h.le h.bounded
          rw [← h.head, ← h.tail, heq, gap, if_neg (by have := hp.1; omega),
            Nat.add_sub_cancel_left, Nat.mod_self] at hgap
          omega
        have hcount : min (count + 1) (put - taken) = min count (put - (taken + 1)) + 1 := by omega
        simp only [remove, if_neg hne, ← ih hnext, readBuff_eq hp hnext, hcount, copyOut]
      · have heq : r.tail = r.head := by
          rw [h.head, h.tail, Nat.le_antisymm h.le hnone]
        simp only [remove, if_pos heq]
        rw [show put - taken = 0 by omega]
        simp [copyOut]

/-- In every buffer that calls have led to, the calls for many elements agree with
the calls for one. -/
theorem spsc_bulk_agrees (hp : p.Counts) (dataBuff : Nat → α) (events : List (Event α))
    (buff : List α) (count : Nat) :
    let r := (events.foldl (step p) (System.create dataBuff)).ring
    writeBuff p r buff = insertAll p r buff ∧ readBuff p r count = removeAll p r count := by
  intro r
  have h : Inv p (events.foldl (step p) (System.create dataBuff)) :=
    (always_inv hp dataBuff events).last
  exact ⟨writeBuff_eq_insertAll hp h.counted buff, readBuff_eq_removeAll hp h.counted count⟩

theorem spsc_bulk_agrees_defaults :
    let r := ((insertEvents 1 ++ insertEvents 2 ++ removeEvents).foldl (step .defaults)
      (System.create fun _ => 0)).ring
    writeBuff .defaults r [3, 4] = insertAll .defaults r [3, 4] ∧
      readBuff .defaults r 5 = removeAll .defaults r 5 :=
  spsc_bulk_agrees (by decide) _ _ _ _

end NetTest.Spsc
