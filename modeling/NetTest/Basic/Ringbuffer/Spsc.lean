import NetTest.Basic.Ringbuffer.Concurrent
import NetTest.Lib.Runs
import NetTest.Lib.Stream

/-!
# No interleaving loses, repeats or reorders an element

The indexes are the lengths of two histories modulo the range of `index_t`, and
the slots hold the stream between them.  Each side knows a bound on the other
index that only becomes more generous while it works.
-/

namespace NetTest.Spsc

open Wrapping Runs

variable {α : Type*} {p : Params}

/-! ## Index arithmetic -/

theorem bufferMask_eq (hp : p.Counts) : p.bufferMask = p.bufferSize - 1 := by
  have hlt := hp.2
  exact Nat.mod_eq_of_lt (by omega)

theorem exists_two_pow (hp : p.Counts) : ∃ k, k ≤ p.indexBits ∧ p.bufferSize = 2 ^ k := by
  have hand := p.size_and_mask
  have hmask : (p.bufferSize - 1) % 2 ^ p.indexBits = p.bufferSize - 1 := bufferMask_eq hp
  rw [hmask, Nat.and_sub_one_eq_zero_iff_isPowerOfTwo p.size_ne_zero] at hand
  rcases hand with ⟨k, hk⟩
  refine ⟨k, ?_, hk⟩
  have hlt := hp.2
  rw [hk, Params.indexT, Nat.pow_lt_pow_iff_right (by decide)] at hlt
  exact Nat.le_of_lt hlt

theorem slot_eq (hp : p.Counts) (index : Nat) : slot p index = index % p.bufferSize := by
  rcases exists_two_pow hp with ⟨k, _, hk⟩
  rw [slot, bufferMask_eq hp, hk, Nat.and_two_pow_sub_one_eq_mod]

theorem bufferSize_dvd (hp : p.Counts) : p.bufferSize ∣ p.indexT := by
  rcases exists_two_pow hp with ⟨k, hle, hk⟩
  rw [hk]
  exact Nat.pow_dvd_pow 2 hle

theorem indexT_dvd (p : Params) : p.indexT ∣ sizeT := Nat.pow_dvd_pow 2 p.indexBits_le

theorem indexT_pos (p : Params) : 0 < p.indexT := Nat.two_pow_pos p.indexBits

theorem next_mod (p : Params) (count : Nat) : next p (count % p.indexT) = (count + 1) % p.indexT :=
  Nat.mod_add_mod count p.indexT 1

theorem slot_mod (hp : p.Counts) (count : Nat) :
    slot p (count % p.indexT) = count % p.bufferSize := by
  rw [slot_eq hp, Nat.mod_mod_of_dvd count (bufferSize_dvd hp)]

/-- Counters at most a buffer apart have their distance as their difference. -/
theorem gap_eq (hp : p.Counts) {put taken : Nat} (hle : taken ≤ put)
    (hbound : put ≤ taken + p.bufferSize) :
    gap p (put % p.indexT) (taken % p.indexT) = put - taken := by
  have hlt := hp.2
  have hput : put % p.indexT = (taken % p.indexT + (put - taken)) % p.indexT := by
    rw [Nat.mod_add_mod]
    congr 1
    omega
  rw [gap, if_neg (by have := hp.1; omega), hput]
  exact add_mod_sub_mod (Nat.mod_lt taken (indexT_pos p)) (by omega)

theorem unread_eq (hp : p.Counts) {put taken : Nat} (hle : taken ≤ put)
    (hbound : put ≤ taken + p.bufferSize) :
    unread p (put % p.indexT) (taken % p.indexT) = put - taken := by
  have hlt := hp.2
  rw [unread, gap_eq hp hle hbound, Nat.mod_eq_of_lt (by omega)]

theorem unwritten_eq (hp : p.Counts) {put taken : Nat} (hle : taken ≤ put)
    (hbound : put ≤ taken + p.bufferSize) :
    unwritten p (put % p.indexT) (taken % p.indexT) = taken + p.bufferSize - put := by
  have hlt := hp.2
  rw [unwritten, gap_eq hp hle hbound, diff_eq (by omega) p.bufferSize_lt, Nat.mod_eq_of_lt (by omega)]
  omega

theorem clip_le_left (count available : Nat) : clip count available ≤ count := by
  unfold clip
  split <;> omega

theorem clip_le_right (count available : Nat) : clip count available ≤ available := by
  unfold clip
  split <;> omega

theorem clip_eq_min (count available : Nat) : clip count available = min count available := by
  unfold clip
  split <;> omega

/-! ## The invariant -/

def PutCall.Rounds : PutCall α → Nat → Prop
  | .writeBuffCallback buff _, written => written < buff.length
  | _, written => written = 0

theorem PutCall.Rounds.le {call : PutCall α} {written : Nat} (h : call.Rounds written) :
    written ≤ call.buff.length := by
  cases call with
  | writeBuffCallback buff countToCallback => exact Nat.le_of_lt h
  | insert data => exact Nat.le_trans (Nat.le_of_eq h) (Nat.zero_le _)
  | writeBuff buff => exact Nat.le_trans (Nat.le_of_eq h) (Nat.zero_le _)

/-- What the producer relies on, where `put` elements are published and `taken`
are removed. -/
def ProducerOk (p : Params) (put taken : Nat) : Producer α → Prop
  | .loadTail call written _ tmpHead => tmpHead = put % p.indexT ∧ call.Rounds written
  | .copy call written copied rest tmpHead =>
      tmpHead = (put + copied.length) % p.indexT ∧ written ≤ call.buff.length ∧
        copied ++ rest <+: call.buff.drop written ∧
        put + copied.length + rest.length ≤ taken + p.bufferSize
  | _ => True

def ConsumerOk (p : Params) (reported : List α) (taken : Nat) : Consumer α → Prop
  | .loadHead _ _ _ tmpTail => tmpTail = taken % p.indexT
  | .copy _ _ toRead got tmpTail =>
      tmpTail = (taken + got.length) % p.indexT ∧
        taken + got.length + toRead ≤ reported.length ∧
        got <+: reported.drop taken
  | .drop count newTail =>
      newTail = (taken + count) % p.indexT ∧ taken + count ≤ reported.length
  | _ => True

structure Inv (p : Params) (s : System α) : Prop where
  head : s.ring.head = s.reported.length % p.indexT
  tail : s.ring.tail = s.removed.length % p.indexT
  removed : List.Forall₂ Removes s.removed (s.reported.take s.removed.length)
  bounded : s.reported.length ≤ s.removed.length + p.bufferSize
  stored : Stream.Holds p.bufferSize s.ring.dataBuff (s.reported ++ s.producer.copied)
    s.removed.length
  producer : ProducerOk p s.reported.length s.removed.length s.producer
  consumer : ConsumerOk p s.reported s.removed.length s.consumer

theorem Inv.le {s : System α} (h : Inv p s) : s.removed.length ≤ s.reported.length := by
  have hlength := h.removed.length_eq
  rw [List.length_take] at hlength
  omega

theorem inv_create (p : Params) (dataBuff : Nat → α) : Inv p (System.create dataBuff) where
  head := (Nat.zero_mod _).symm
  tail := (Nat.zero_mod _).symm
  removed := .nil
  bounded := Nat.zero_le _
  stored := Stream.Holds.nil _ _ _
  producer := trivial
  consumer := trivial

/-- A step keeps the invariant and takes nothing back that was reported. -/
def Keeps (p : Params) (s s' : System α) : Prop := Inv p s' ∧ s.reported <+: s'.reported

theorem Keeps.trans {s s' s'' : System α} (h : Keeps p s s') (h' : Keeps p s' s'') :
    Keeps p s s'' :=
  ⟨h'.1, h.2.trans h'.2⟩

/-! ## Steps of the producer -/

theorem removes_take {removed : List (Option α)} {xs ys : List α} (hgrown : xs <+: ys)
    (hle : removed.length ≤ xs.length)
    (h : List.Forall₂ Removes removed (xs.take removed.length)) :
    List.Forall₂ Removes removed (ys.take removed.length) := by
  rcases hgrown with ⟨more, rfl⟩
  rwa [List.take_append_of_le_length hle]

theorem ConsumerOk.mono {xs ys : List α} {taken : Nat} {consumer : Consumer α} (hgrown : xs <+: ys)
    (h : ConsumerOk p xs taken consumer) : ConsumerOk p ys taken consumer := by
  have hlength := hgrown.length_le
  cases consumer with
  | copy call read toRead got tmpTail =>
      rcases h with ⟨htail, hroom, hgot⟩
      exact ⟨htail, Nat.le_trans hroom hlength, hgot.trans (hgrown.drop taken)⟩
  | drop count newTail => exact ⟨h.1, Nat.le_trans h.2 hlength⟩
  | loadHead call read toRead tmpTail => exact h
  | idle => trivial
  | loadTail call => trivial

/-- What the producer must leave true for the consumer. -/
theorem Inv.of_put {s s' : System α} (h : Inv p s) (htail : s'.ring.tail = s.ring.tail)
    (hremoved : s'.removed = s.removed) (hconsumer : s'.consumer = s.consumer)
    (hgrown : s.reported <+: s'.reported)
    (hhead : s'.ring.head = s'.reported.length % p.indexT)
    (hbounded : s'.reported.length ≤ s.removed.length + p.bufferSize)
    (hstored : Stream.Holds p.bufferSize s'.ring.dataBuff (s'.reported ++ s'.producer.copied)
      s.removed.length)
    (hproducer : ProducerOk p s'.reported.length s.removed.length s'.producer) :
    Keeps p s s' := by
  refine ⟨⟨hhead, ?_, ?_, ?_, ?_, ?_, ?_⟩, hgrown⟩
  · rw [htail, hremoved, h.tail]
  · rw [hremoved]
    exact removes_take hgrown h.le h.removed
  · rwa [hremoved]
  · rwa [hremoved]
  · rwa [hremoved]
  · rw [hremoved, hconsumer]
    exact h.consumer.mono hgrown

theorem Inv.setProducer {s : System α} (h : Inv p s) {producer : Producer α}
    (hpublished : producer.published = s.producer.published)
    (hcopied : producer.copied = s.producer.copied)
    (hproducer : ProducerOk p s.reported.length s.removed.length producer) :
    Keeps p s { s with producer := producer } := by
  have hreported : ({ s with producer := producer } : System α).reported = s.reported := by
    rw [System.reported, System.reported, hpublished]
  refine h.of_put rfl rfl rfl ?_ ?_ ?_ ?_ ?_
  · rw [hreported]
  · rw [hreported]
    exact h.head
  · rw [hreported]
    exact h.bounded
  · rw [hreported, hcopied]
    exact h.stored
  · rw [hreported]
    exact hproducer

theorem reported_returnPut (s : System α) (call : PutCall α) (count : Nat) :
    (s.returnPut call count).reported =
      s.returned.flatMap (fun call => call.1.take call.2) ++ call.buff.take count := by
  simp [System.reported, System.returnPut, Producer.published]

theorem Inv.returnPut {s : System α} (h : Inv p s) {call : PutCall α} {count : Nat}
    (hpublished : s.producer.published = call.buff.take count)
    (hcopied : s.producer.copied = []) : Keeps p s (s.returnPut call count) := by
  have hreported : (s.returnPut call count).reported = s.reported := by
    rw [reported_returnPut, System.reported, hpublished]
  refine h.of_put rfl rfl rfl ?_ ?_ ?_ ?_ ?_
  · rw [hreported]
  · rw [hreported]
    exact h.head
  · rw [hreported]
    exact h.bounded
  · have hstored := h.stored
    rw [hcopied] at hstored
    rw [hreported]
    exact hstored
  · trivial

theorem Inv.nextRound {s : System α} (h : Inv p s) {call : PutCall α} {written toWrite tmpHead : Nat}
    (hpublished : s.producer.published = call.buff.take written)
    (hcopied : s.producer.copied = []) (hhead : tmpHead = s.reported.length % p.indexT)
    (hrounds : written < call.buff.length → call.Rounds written) :
    Keeps p s (s.nextRound call written toWrite tmpHead) := by
  unfold System.nextRound
  split
  · rename_i hlt
    exact h.setProducer hpublished.symm hcopied.symm ⟨hhead, hrounds hlt⟩
  · exact h.returnPut hpublished hcopied

theorem Inv.publish {s : System α} (h : Inv p s) {call : PutCall α} {written tmpHead : Nat}
    {copied : List α} (hpc : s.producer = .copy call written copied [] tmpHead) :
    Keeps p s { s with
      ring := { s.ring with head := tmpHead }
      producer := .copy call (written + copied.length) [] [] tmpHead } := by
  have hok := h.producer
  rw [hpc] at hok
  rcases hok with ⟨htmp, hwritten, hgrown, hroom⟩
  rw [List.append_nil] at hgrown
  have hreported : ({ s with
      ring := { s.ring with head := tmpHead }
      producer := .copy call (written + copied.length) [] [] tmpHead } : System α).reported =
      s.reported ++ copied := by
    rw [System.reported, System.reported, hpc, List.append_assoc]
    simp only [Producer.published]
    rw [List.take_add, List.prefix_iff_eq_take.mp hgrown, List.length_take]
    simp
  have hlength := hgrown.length_le
  rw [List.length_drop] at hlength
  refine h.of_put rfl rfl rfl ?_ ?_ ?_ ?_ ?_
  · rw [hreported]
    exact List.prefix_append _ _
  · rw [hreported, List.length_append]
    exact htmp
  · rw [hreported, List.length_append]
    simpa using hroom
  · have hstored := h.stored
    rw [hpc] at hstored
    rw [hreported]
    simpa [Producer.copied] using hstored
  · rw [hreported, List.length_append]
    refine ⟨by simpa using htmp, by omega, List.nil_prefix, by simpa using hroom⟩

/-- The store of an element leaves the slots that the consumer may read alone. -/
theorem Inv.write (hp : p.Counts) {s : System α} (h : Inv p s) {call : PutCall α}
    {written tmpHead : Nat} {copied rest : List α} {x : α}
    (hpc : s.producer = .copy call written copied (x :: rest) tmpHead) :
    Keeps p s { s with
      ring := { s.ring with dataBuff := Function.update s.ring.dataBuff (slot p tmpHead) x }
      producer := .copy call written (copied ++ [x]) rest (next p tmpHead) } := by
  have hok := h.producer
  rw [hpc] at hok
  rcases hok with ⟨htmp, hwritten, hgrown, hroom⟩
  rw [List.length_cons] at hroom
  have hle := h.le
  have hreported : ({ s with
      ring := { s.ring with dataBuff := Function.update s.ring.dataBuff (slot p tmpHead) x }
      producer := .copy call written (copied ++ [x]) rest (next p tmpHead) } : System α).reported =
      s.reported := by
    rw [System.reported, System.reported, hpc]
    rfl
  refine h.of_put rfl rfl rfl ?_ ?_ ?_ ?_ ?_
  · rw [hreported]
  · rw [hreported]
    exact h.head
  · rw [hreported]
    exact h.bounded
  · have hstored := h.stored
    rw [hpc] at hstored
    have hpush := hstored.push (by simp [Producer.copied]; omega)
      (by simp [Producer.copied]; omega) x
    rw [hreported, htmp, slot_mod hp]
    simpa [Producer.copied] using hpush
  · rw [hreported, htmp, next_mod]
    refine ⟨by simp [Nat.add_assoc], hwritten, by simpa using hgrown, ?_⟩
    rw [List.length_append, List.length_singleton]
    omega

theorem Inv.startChunk {s : System α} (h : Inv p s) {call : PutCall α}
    {written toWrite tmpHead : Nat} {chunk : List α}
    (hpc : s.producer = .loadTail call written toWrite tmpHead)
    (hgrown : chunk <+: call.buff.drop written)
    (hroom : s.reported.length + chunk.length ≤ s.removed.length + p.bufferSize) :
    Keeps p s { s with producer := .copy call written [] chunk tmpHead } := by
  have hok := h.producer
  rw [hpc] at hok
  rcases hok with ⟨htmp, hrounds⟩
  refine h.setProducer (by rw [hpc]; rfl) (by rw [hpc]; rfl) ⟨htmp, hrounds.le, hgrown, ?_⟩
  simpa using hroom

theorem Inv.tested (hp : p.Counts) {s : System α} (h : Inv p s) {call : PutCall α}
    {written toWrite tmpHead : Nat} (hpc : s.producer = .loadTail call written toWrite tmpHead) :
    Keeps p s (runProducer p s (.loadTail call written toWrite tmpHead)) := by
  have hok := h.producer
  have hle := h.le
  have hbounded := h.bounded
  rw [hpc] at hok
  rcases hok with ⟨htmp, hrounds⟩
  have hpublished : s.producer.published = call.buff.take written := by rw [hpc]; rfl
  have hcopied : s.producer.copied = [] := by rw [hpc]; rfl
  have hroom : ∀ rest : List α, s.reported.length +
      (rest.take (clip toWrite (unwritten p tmpHead s.ring.tail))).length ≤
        s.removed.length + p.bufferSize := by
    intro rest
    have havailable := unwritten_eq hp hle hbounded
    rw [← htmp, ← h.tail] at havailable
    have hclip := clip_le_right toWrite (unwritten p tmpHead s.ring.tail)
    have htake := List.length_take_le (clip toWrite (unwritten p tmpHead s.ring.tail)) rest
    omega
  cases call with
  | insert data =>
      have hgap := gap_eq hp hle hbounded
      rw [← htmp, ← h.tail] at hgap
      have hwritten : written = 0 := hrounds
      subst hwritten
      rw [runProducer]
      split
      · exact h.returnPut hpublished hcopied
      · rename_i hfree
        rw [hgap] at hfree
        refine h.startChunk hpc (List.prefix_refl _) ?_
        rw [List.length_singleton]
        omega
  | writeBuff buff =>
      have hwritten : written = 0 := hrounds
      subst hwritten
      exact h.startChunk hpc (List.take_prefix _ buff) (hroom buff)
  | writeBuffCallback buff countToCallback =>
      rw [runProducer]
      split
      · exact h.returnPut hpublished hcopied
      · exact h.startChunk hpc (List.take_prefix _ (buff.drop written)) (hroom (buff.drop written))

theorem runProducer_keeps (hp : p.Counts) {s : System α} (h : Inv p s) :
    Keeps p s (runProducer p s s.producer) := by
  cases hpc : s.producer with
  | idle => exact ⟨h, List.prefix_refl _⟩
  | loadHead call =>
      cases call with
      | writeBuffCallback buff countToCallback =>
          simp only [runProducer]
          exact h.nextRound (by rw [hpc]; rfl) (by rw [hpc]; rfl) h.head (fun hlt => hlt)
      | insert data =>
          exact h.setProducer (by rw [hpc]; rfl) (by rw [hpc]; rfl) ⟨h.head, rfl⟩
      | writeBuff buff =>
          exact h.setProducer (by rw [hpc]; rfl) (by rw [hpc]; rfl) ⟨h.head, rfl⟩
  | loadTail call written toWrite tmpHead => exact h.tested hp hpc
  | copy call written copied rest tmpHead =>
      cases rest with
      | cons x rest => exact h.write hp hpc
      | nil =>
          have hpublish := h.publish hpc
          have hhead := hpublish.1.head
          cases call with
          | writeBuffCallback buff countToCallback =>
              exact hpublish.trans (hpublish.1.nextRound rfl rfl hhead (fun hlt => hlt))
          | insert data => exact hpublish.trans (hpublish.1.returnPut rfl rfl)
          | writeBuff buff => exact hpublish.trans (hpublish.1.returnPut rfl rfl)

/-! ## Steps of the consumer -/

theorem ProducerOk.mono {put taken taken' : Nat} {producer : Producer α} (hle : taken ≤ taken')
    (h : ProducerOk p put taken producer) : ProducerOk p put taken' producer := by
  cases producer with
  | copy call written copied rest tmpHead =>
      rcases h with ⟨htmp, hwritten, hgrown, hroom⟩
      exact ⟨htmp, hwritten, hgrown, by omega⟩
  | loadTail call written toWrite tmpHead => exact h
  | idle => trivial
  | loadHead call => trivial

theorem Inv.of_get {s s' : System α} (h : Inv p s) {more : List (Option α)}
    (hhead : s'.ring.head = s.ring.head) (hcells : s'.ring.dataBuff = s.ring.dataBuff)
    (hproducer : s'.producer = s.producer) (hreturned : s'.returned = s.returned)
    (hremoved : s'.removed = s.removed ++ more)
    (hmore : List.Forall₂ Removes more ((s.reported.drop s.removed.length).take more.length))
    (htail : s'.ring.tail = (s.removed.length + more.length) % p.indexT)
    (hconsumer : ConsumerOk p s.reported (s.removed.length + more.length) s'.consumer) :
    Keeps p s s' := by
  have hreported : s'.reported = s.reported := by
    rw [System.reported, System.reported, hproducer, hreturned]
  have hlength : s'.removed.length = s.removed.length + more.length := by
    rw [hremoved, List.length_append]
  refine ⟨⟨?_, ?_, ?_, ?_, ?_, ?_, ?_⟩, by rw [hreported]⟩
  · rw [hhead, hreported, h.head]
  · rw [htail, hlength]
  · rw [hreported, hlength, hremoved, List.take_add]
    exact List.rel_append h.removed hmore
  · have hbounded := h.bounded
    rw [hreported, hlength]
    omega
  · rw [hcells, hreported, hproducer, hlength]
    exact h.stored.mono (Nat.le_add_right _ _)
  · rw [hreported, hproducer, hlength]
    exact h.producer.mono (Nat.le_add_right _ _)
  · rw [hreported, hlength]
    exact hconsumer

theorem Inv.setConsumer {s : System α} (h : Inv p s) {consumer : Consumer α}
    (hconsumer : ConsumerOk p s.reported s.removed.length consumer) :
    Keeps p s { s with consumer := consumer } := by
  have hnothing : s.removed = s.removed ++ [] := (List.append_nil _).symm
  exact h.of_get rfl rfl rfl rfl hnothing .nil h.tail hconsumer

theorem nextFetch_eq (s : System α) (call : GetCall) (read toRead tmpTail : Nat) :
    ∃ consumer, s.nextFetch call read toRead tmpTail = { s with consumer := consumer } ∧
      (consumer = .idle ∨ consumer = .loadHead call read toRead tmpTail) := by
  unfold System.nextFetch
  split
  · split
    · exact ⟨_, rfl, .inr rfl⟩
    · exact ⟨_, rfl, .inl rfl⟩
  · exact ⟨_, rfl, .inl rfl⟩

/-- The store of `tail` gives back the slots whose elements were read. -/
theorem Inv.took {s : System α} (h : Inv p s) {call : GetCall} {read tmpTail : Nat} {got : List α}
    (hpc : s.consumer = .copy call read 0 got tmpTail) {consumer : Consumer α}
    (hconsumer : ∀ taken, tmpTail = taken % p.indexT → ConsumerOk p s.reported taken consumer) :
    Keeps p s { s with
      ring := { s.ring with tail := tmpTail }
      removed := s.removed ++ got.map some
      consumer := consumer } := by
  have hok := h.consumer
  rw [hpc] at hok
  rcases hok with ⟨htmp, hroom, hgot⟩
  refine h.of_get rfl rfl rfl rfl rfl ?_ (by simpa using htmp)
    (hconsumer _ (by simpa using htmp))
  rw [List.length_map, ← List.prefix_iff_eq_take.mp hgot, List.forall₂_map_left_iff,
    List.forall₂_same]
  intro x _
  rfl

theorem removes_none (xs : List α) :
    List.Forall₂ Removes (List.replicate xs.length none) xs := by
  induction xs with
  | nil => exact .nil
  | cons x xs ih => exact .cons trivial ih

theorem prefix_concat {xs ys : List α} {x : α} (hgrown : xs <+: ys)
    (hnext : ys[xs.length]? = some x) : xs ++ [x] <+: ys := by
  rcases hgrown with ⟨more, rfl⟩
  rw [List.getElem?_append_right (Nat.le_refl _), Nat.sub_self] at hnext
  cases more with
  | nil => cases hnext
  | cons y more =>
      cases hnext
      exact ⟨more, by simp⟩

theorem Inv.loadedTail {s : System α} (h : Inv p s) {call : GetCall}
    (hpc : s.consumer = .loadTail call) : Keeps p s (runConsumer p s s.consumer) := by
  rw [hpc]
  simp only [runConsumer]
  split
  · rcases nextFetch_eq s _ 0 _ s.ring.tail with ⟨consumer, heq, hcases⟩
    rw [heq]
    apply h.setConsumer
    rcases hcases with rfl | rfl
    · trivial
    · exact h.tail
  · exact h.setConsumer h.tail

theorem Inv.testedGet (hp : p.Counts) {s : System α} (h : Inv p s) {call : GetCall}
    {read toRead tmpTail : Nat} (hpc : s.consumer = .loadHead call read toRead tmpTail) :
    Keeps p s (runConsumer p s s.consumer) := by
  have hok := h.consumer
  have hle := h.le
  have hunread := unread_eq hp hle h.bounded
  rw [hpc] at hok ⊢
  have htmp : tmpTail = s.removed.length % p.indexT := hok
  rw [← h.head, ← htmp] at hunread
  have hclip : ∀ count, clip count (unread p s.ring.head tmpTail) ≤
      s.reported.length - s.removed.length := by
    intro count
    exact Nat.le_trans (clip_le_right count _) (Nat.le_of_eq hunread)
  have hstart : ∀ toRead, toRead ≤ s.reported.length - s.removed.length →
      Keeps p s { s with consumer := .copy call read toRead [] tmpTail } := by
    intro toRead hle
    apply h.setConsumer
    refine ⟨htmp, ?_, List.nil_prefix⟩
    rw [List.length_nil]
    omega
  have hdrop : ∀ count, count ≤ s.reported.length - s.removed.length →
      Keeps p s { s with consumer := .drop count ((tmpTail + count) % sizeT % p.indexT) } := by
    intro count hcount
    apply h.setConsumer
    refine ⟨?_, by omega⟩
    rw [Nat.mod_mod_of_dvd _ (indexT_dvd p), htmp, Nat.mod_add_mod]
  have hsome : tmpTail ≠ s.ring.head → s.removed.length < s.reported.length := by
    intro hne
    apply Nat.lt_of_le_of_ne hle
    intro heq
    apply hne
    rw [htmp, h.head, heq]
  cases call with
  | remove =>
      rw [runConsumer]
      split
      · exact h.setConsumer trivial
      · rename_i hne
        have hlt := hsome hne
        exact hstart 1 (by omega)
  | readBuff count => exact hstart _ (hclip toRead)
  | readBuffCallback count countToCallback =>
      rw [runConsumer]
      split
      · exact h.setConsumer trivial
      · exact hstart _ (hclip toRead)
  | removeOne =>
      rw [runConsumer]
      split
      · exact h.setConsumer trivial
      · rename_i hne
        apply h.setConsumer
        refine ⟨?_, hsome hne⟩
        rw [htmp, next_mod]
  | removeCount cnt => exact hdrop _ (hclip cnt)
  | consumerClear =>
      apply h.setConsumer
      rw [hunread]
      refine ⟨?_, by omega⟩
      rw [h.head, Nat.add_sub_cancel' hle]

theorem Inv.readOne (hp : p.Counts) {s : System α} (h : Inv p s) {call : GetCall}
    {read toRead tmpTail : Nat} {got : List α}
    (hpc : s.consumer = .copy call read (toRead + 1) got tmpTail) :
    Keeps p s (runConsumer p s s.consumer) := by
  have hok := h.consumer
  rw [hpc] at hok ⊢
  rcases hok with ⟨htmp, hroom, hgot⟩
  have hnext : (s.reported.drop s.removed.length)[got.length]? =
      some (s.ring.dataBuff (slot p tmpTail)) := by
    have hlt : s.removed.length + got.length < s.reported.length := by omega
    rw [List.getElem?_drop, List.getElem?_eq_getElem hlt, htmp, slot_mod hp]
    congr 1
    symm
    apply h.stored _ _ (Nat.le_add_right _ _)
    rw [List.getElem?_append_left hlt]
    exact List.getElem?_eq_getElem hlt
  apply h.setConsumer
  refine ⟨?_, ?_, prefix_concat hgot hnext⟩
  · rw [htmp, next_mod, List.length_append, List.length_singleton, Nat.add_assoc]
  · rw [List.length_append, List.length_singleton]
    omega

theorem Inv.readAll {s : System α} (h : Inv p s) {call : GetCall} {read tmpTail : Nat}
    {got : List α} (hpc : s.consumer = .copy call read 0 got tmpTail) :
    Keeps p s (runConsumer p s s.consumer) := by
  rw [hpc]
  simp only [runConsumer]
  split
  · rcases nextFetch_eq _ _ _ _ _ with ⟨consumer, heq, hcases⟩
    rw [heq]
    apply h.took hpc
    intro taken htaken
    rcases hcases with rfl | rfl
    · trivial
    · exact htaken
  · exact h.took hpc fun _ _ => trivial

theorem Inv.dropped {s : System α} (h : Inv p s) {count newTail : Nat}
    (hpc : s.consumer = .drop count newTail) : Keeps p s (runConsumer p s s.consumer) := by
  have hok := h.consumer
  rw [hpc] at hok ⊢
  rcases hok with ⟨htail, hroom⟩
  have hnew : newTail = (s.removed.length + (List.replicate count (none : Option α)).length) %
      p.indexT := by
    rw [List.length_replicate]
    exact htail
  refine h.of_get rfl rfl rfl rfl rfl ?_ hnew trivial
  rw [List.length_replicate]
  have hlength : ((s.reported.drop s.removed.length).take count).length = count := by
    rw [List.length_take, List.length_drop]
    omega
  have hnone := removes_none ((s.reported.drop s.removed.length).take count)
  rwa [hlength] at hnone

theorem runConsumer_keeps (hp : p.Counts) {s : System α} (h : Inv p s) :
    Keeps p s (runConsumer p s s.consumer) := by
  cases hpc : s.consumer with
  | idle => exact ⟨h, List.prefix_refl _⟩
  | loadTail call => exact hpc ▸ h.loadedTail hpc
  | loadHead call read toRead tmpTail => exact hpc ▸ h.testedGet hp hpc
  | copy call read toRead got tmpTail =>
      cases toRead with
      | zero => exact hpc ▸ h.readAll hpc
      | succ toRead => exact hpc ▸ h.readOne hp hpc
  | drop count newTail => exact hpc ▸ h.dropped hpc

/-! ## Every interleaving -/

theorem step_keeps (hp : p.Counts) {s : System α} (h : Inv p s) (e : Event α) :
    Keeps p s (step p s e) := by
  cases e with
  | put call =>
      simp only [step]
      split
      · rename_i hpc
        exact h.setProducer (by rw [hpc]; rfl) (by rw [hpc]; rfl) trivial
      · exact ⟨h, List.prefix_refl _⟩
  | get call =>
      simp only [step]
      split
      · exact h.setConsumer trivial
      · exact ⟨h, List.prefix_refl _⟩
  | producer => exact runProducer_keeps hp h
  | consumer => exact runConsumer_keeps hp h

theorem Inv.contents (hp : p.Counts) {s : System α} (h : Inv p s) :
    contents p s.ring = s.reported.drop s.removed.length := by
  have hle := h.le
  have hread : readAvailable p s.ring = s.reported.length - s.removed.length := by
    rw [readAvailable, h.head, h.tail, unread_eq hp hle h.bounded]
  have hcell : ∀ i, s.ring.dataBuff (slot p ((s.ring.tail + i) % sizeT)) =
      s.ring.dataBuff ((s.removed.length + i) % p.bufferSize) := by
    intro i
    rw [slot_eq hp, Nat.mod_mod_of_dvd _ (Nat.dvd_trans (bufferSize_dvd hp) (indexT_dvd p)), h.tail,
      Stream.cell_of_wrapped (bufferSize_dvd hp)]
  have hstored : Stream.Holds p.bufferSize s.ring.dataBuff s.reported s.removed.length := by
    intro i x hi hx
    apply h.stored i x hi
    rw [List.getElem?_append_left (List.getElem?_eq_some_iff.mp hx).1]
    exact hx
  rw [Spsc.contents, hread]
  simp only [hcell]
  rw [hstored.map_range (by omega)]
  exact List.take_of_length_le (by simp)

theorem Inv.fifo (hp : p.Counts) {s : System α} (h : Inv p s) : Fifo p s where
  removed := h.removed
  contents := h.contents hp
  bounded := h.bounded

theorem always_inv (hp : p.Counts) (dataBuff : Nat → α) (events : List (Event α)) :
    Always (step p) (Inv p) (System.create dataBuff) events :=
  always_of_step (P := Inv p) (fun _ e h => (step_keeps hp h e).1) (inv_create p dataBuff) events

/-- Whatever the interleaving, the elements that leave the buffer are those that
were put, in order and once each, and the buffer holds the rest. -/
theorem always_fifo (hp : p.Counts) (dataBuff : Nat → α) (events : List (Event α)) :
    Always (step p) (Fifo p) (System.create dataBuff) events :=
  (always_inv hp dataBuff events).mono fun _ h => h.fifo hp

end NetTest.Spsc
