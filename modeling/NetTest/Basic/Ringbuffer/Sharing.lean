import NetTest.Basic.Ringbuffer.Spsc

/-!
# What the two sides may touch

The slot that the producer writes next is never one that the consumer may read,
through a copy under way or through a pointer it was given.  And a side that is
turned away was right to be, at the moment of its test.
-/

namespace NetTest.Spsc

open Wrapping Runs

variable {α : Type*} {p : Params}

/-! ## Slots in use -/

theorem Inv.writes (hp : p.Counts) {s : System α} (h : Inv p s) {slot : Nat}
    (hwrites : s.writes p = some slot) :
    ∃ i, s.reported.length ≤ i ∧ i < s.removed.length + p.bufferSize ∧
      slot = i % p.bufferSize := by
  have hok := h.producer
  unfold System.writes at hwrites
  split at hwrites
  · rename_i call written copied x rest tmpHead hpc
    rw [hpc] at hok
    rcases hok with ⟨htmp, _, _, hroom⟩
    cases hwrites
    rw [List.length_cons] at hroom
    exact ⟨s.reported.length + copied.length, Nat.le_add_right _ _, by omega,
      by rw [htmp, slot_mod hp]⟩
  · cases hwrites

theorem Inv.reads (hp : p.Counts) {s : System α} (h : Inv p s) {slot : Nat}
    (hreads : s.reads p = some slot) :
    ∃ i, s.removed.length ≤ i ∧ i < s.reported.length ∧ slot = i % p.bufferSize := by
  have hok := h.consumer
  unfold System.reads at hreads
  split at hreads
  · rename_i call read toRead got tmpTail hpc
    rw [hpc] at hok
    rcases hok with ⟨htmp, hroom, _⟩
    cases hreads
    exact ⟨s.removed.length + got.length, Nat.le_add_right _ _, by omega,
      by rw [htmp, slot_mod hp]⟩
  · cases hreads

theorem Inv.elementAt (hp : p.Counts) {s : System α} (h : Inv p s) {index slot : Nat}
    (hat : elementAt p s.ring index = some slot) :
    s.removed.length + index < s.reported.length ∧
      slot = (s.removed.length + index) % p.bufferSize := by
  have hgap := gap_eq hp h.le h.bounded
  rw [← h.head, ← h.tail] at hgap
  unfold Spsc.elementAt at hat
  split at hat
  · cases hat
  · rename_i hlt
    rw [hgap] at hlt
    cases hat
    refine ⟨by omega, ?_⟩
    rw [slot_eq hp, Nat.mod_mod_of_dvd _ (Nat.dvd_trans (bufferSize_dvd hp) (indexT_dvd p)), h.tail,
      Stream.cell_of_wrapped (bufferSize_dvd hp)]

/-- The producer writes none of the slots that are the consumer's. -/
theorem Inv.apart (hp : p.Counts) {s : System α} (h : Inv p s) {slot i : Nat}
    (hwrites : s.writes p = some slot) (hi : s.removed.length ≤ i) (hlt : i < s.reported.length) :
    slot ≠ i % p.bufferSize := by
  rcases h.writes hp hwrites with ⟨j, hj, hjn, rfl⟩
  intro hsame
  have := eq_of_mod_eq (by omega) hjn hi (by omega) hsame
  omega

/-- The slot that is written next is not read next, and nothing points to it. -/
def Unshared (p : Params) (s : System α) : Prop :=
  ∀ slot, s.writes p = some slot →
    s.reads p ≠ some slot ∧ ∀ index, Spsc.elementAt p s.ring index ≠ some slot

/-- No interleaving has the producer write a slot that the consumer is about to
read, or that it has a pointer to. -/
theorem spsc_race_free (hp : p.Counts) (dataBuff : Nat → α) (events : List (Event α)) :
    Always (step p) (Unshared p) (System.create dataBuff) events := by
  apply (always_inv hp dataBuff events).mono
  intro s h slot hwrites
  constructor
  · intro hreads
    rcases h.reads hp hreads with ⟨i, hi, hlt, hslot⟩
    exact h.apart hp hwrites hi hlt hslot
  · intro index hat
    rcases h.elementAt hp hat with ⟨hlt, hslot⟩
    exact h.apart hp hwrites (Nat.le_add_right _ _) hlt hslot

theorem spsc_race_free_defaults :
    Always (step .defaults) (Unshared .defaults) (System.create fun _ => 0)
      [.put (.writeBuff [1, 2]), .producer, .producer, .producer, .producer, .producer,
        .put (.insert 3), .get .remove, .producer, .consumer, .producer, .consumer] :=
  spsc_race_free (by decide) _ _

/-! ## Pointers -/

theorem Inv.peek (hp : p.Counts) {s : System α} (h : Inv p s) :
    peek p s.ring = Spsc.elementAt p s.ring 0 := by
  have hgap := gap_eq hp h.le h.bounded
  have hle := h.le
  have hpos := indexT_pos p
  rw [← h.head, ← h.tail] at hgap
  unfold Spsc.peek Spsc.elementAt
  by_cases heq : s.ring.tail = s.ring.head
  · have hzero : gap p s.ring.head s.ring.tail = 0 := by
      rw [heq, gap, if_neg (by have := hp.1; omega), Nat.add_sub_cancel_left, Nat.mod_self]
    rw [if_pos heq, if_pos (by omega)]
  · have hne : s.reported.length ≠ s.removed.length := by
      intro hsame
      apply heq
      rw [h.head, h.tail, hsame]
    have hlt : s.ring.tail < sizeT := by
      rw [h.tail]
      exact Nat.lt_of_lt_of_le (Nat.mod_lt _ hpos)
        (Nat.le_of_dvd (Nat.two_pow_pos 64) (indexT_dvd p))
    rw [if_neg heq, if_neg (by omega), Nat.add_zero, Nat.mod_eq_of_lt hlt]

theorem foldl_keeps (hp : p.Counts) {s : System α} (h : Inv p s) (events : List (Event α)) :
    Keeps p s (events.foldl (step p) s) :=
  foldl_of_step (P := Keeps p s) (fun _ e hk => hk.trans (step_keeps hp hk.1 e))
    ⟨h, List.prefix_refl _⟩ events

/-- A pointer from `peek` or `at` is good for as long as the consumer removes
nothing: the element behind it is the one that many removals later would return,
whatever the producer does meanwhile. -/
theorem spsc_pointer_stable (hp : p.Counts) (dataBuff : Nat → α) (events more : List (Event α))
    (index slot : Nat) :
    let s := events.foldl (step p) (System.create dataBuff)
    let s' := more.foldl (step p) s
    Spsc.elementAt p s.ring index = some slot → s'.removed.length = s.removed.length →
      s'.ring.dataBuff slot = s.ring.dataBuff slot ∧
        (contents p s'.ring)[index]? = some (s.ring.dataBuff slot) := by
  intro s s' hat hkept
  have h : Inv p s := (always_inv hp dataBuff events).last
  rcases foldl_keeps hp h more with ⟨h', hprefix⟩
  rcases h.elementAt hp hat with ⟨hlt, hslot⟩
  have hstored : ∀ t : System α, Inv p t → s.reported <+: t.reported →
      t.removed.length = s.removed.length →
      t.reported[s.removed.length + index]? = s.reported[s.removed.length + index]? ∧
        t.ring.dataBuff slot = s.reported[s.removed.length + index] := by
    intro t ht hgrows hsame
    rcases hgrows with ⟨rest, hrest⟩
    have hget : t.reported[s.removed.length + index]? =
        s.reported[s.removed.length + index]? := by
      rw [← hrest, List.getElem?_append_left hlt]
    refine ⟨hget, ?_⟩
    rw [hslot]
    apply ht.stored _ _ (by omega)
    rw [List.getElem?_append_left (List.getElem?_eq_some_iff.mp
      (hget.trans (List.getElem?_eq_getElem hlt))).1, hget]
    exact List.getElem?_eq_getElem hlt
  rcases hstored s h (List.prefix_refl _) rfl with ⟨_, hold⟩
  rcases hstored s' h' hprefix hkept with ⟨hget, hnew⟩
  refine ⟨by rw [hnew, hold], ?_⟩
  rw [h'.contents hp, List.getElem?_drop, hkept, hget, hold]
  exact List.getElem?_eq_getElem hlt

theorem spsc_pointer_stable_defaults :
    let s := [.put (.insert 7), .producer, .producer, .producer, .producer].foldl
      (step .defaults) (System.create fun _ => 0)
    let s' := [.put (.insert 8), .producer, .producer, .producer, .producer].foldl
      (step .defaults) s
    s'.ring.dataBuff 0 = s.ring.dataBuff 0 ∧
      (contents .defaults s'.ring)[0]? = some (s.ring.dataBuff 0) :=
  spsc_pointer_stable (p := .defaults) (by decide) (fun _ => 0) _ _ 0 0 (by decide +kernel)
    (by decide +kernel)

/-! ## What a test grants -/

def PutCall.asks (call : PutCall α) (written toWrite : Nat) : Nat :=
  match call with
  | .insert _ => 1
  | .writeBuff buff => min toWrite buff.length
  | .writeBuffCallback buff _ => min toWrite (buff.length - written)

def GetCall.asks (p : Params) (toRead : Nat) : GetCall → Nat
  | .remove => 1
  | .readBuff _ => toRead
  | .readBuffCallback _ _ => toRead
  | .removeOne => 1
  | .removeCount cnt => cnt
  | .consumerClear => p.bufferSize

def Producer.granted : Producer α → Nat
  | .copy _ _ copied rest _ => copied.length + rest.length
  | _ => 0

def Consumer.granted : Consumer α → Nat
  | .copy _ _ toRead got _ => got.length + toRead
  | .drop count _ => count
  | _ => 0

/-- A test grants what is asked for, as far as the buffer had room or elements at
that moment.  Nothing granted is a call that returns with nothing done. -/
def Exact (p : Params) (s : System α) : Event α → Prop
  | .producer => ∀ call written toWrite tmpHead,
      s.producer = .loadTail call written toWrite tmpHead →
        (step p s .producer).producer.granted =
          min (call.asks written toWrite) (s.removed.length + p.bufferSize - s.reported.length)
  | .consumer => ∀ call read toRead tmpTail, s.consumer = .loadHead call read toRead tmpTail →
      (step p s .consumer).consumer.granted =
        min (call.asks p toRead) (s.reported.length - s.removed.length)
  | _ => True

theorem Inv.grantsPut (hp : p.Counts) {s : System α} (h : Inv p s) {call : PutCall α}
    {written toWrite tmpHead : Nat} (hpc : s.producer = .loadTail call written toWrite tmpHead) :
    (runProducer p s (.loadTail call written toWrite tmpHead)).producer.granted =
      min (call.asks written toWrite) (s.removed.length + p.bufferSize - s.reported.length) := by
  have hok := h.producer
  have hle := h.le
  rw [hpc] at hok
  rcases hok with ⟨htmp, hrounds⟩
  have havailable := unwritten_eq hp h.le h.bounded
  have hgap := gap_eq hp h.le h.bounded
  rw [← htmp, ← h.tail] at havailable hgap
  have htake : ∀ rest : List α,
      (rest.take (clip toWrite (unwritten p tmpHead s.ring.tail))).length =
        min (min toWrite rest.length) (s.removed.length + p.bufferSize - s.reported.length) := by
    intro rest
    rw [List.length_take, clip_eq_min, havailable]
    omega
  have hpos : 0 < p.bufferSize := Nat.pos_of_ne_zero p.size_ne_zero
  cases call with
  | insert data =>
      rw [runProducer]
      split
      · rename_i hfull
        rw [hgap] at hfull
        have hgranted : (s.returnPut (.insert data) 0).producer.granted = 0 := rfl
        rw [hgranted, PutCall.asks]
        omega
      · rename_i hfree
        rw [hgap] at hfree
        have hbounded := h.bounded
        simp only [Producer.granted, PutCall.asks, List.length_nil, List.length_singleton]
        omega
  | writeBuff buff =>
      rw [runProducer, Producer.granted, htake, List.length_nil, Nat.zero_add]
      rfl
  | writeBuffCallback buff countToCallback =>
      rw [runProducer]
      split
      · rename_i hzero
        rw [havailable] at hzero
        have hgranted :
            (s.returnPut (.writeBuffCallback buff countToCallback) written).producer.granted = 0 :=
          rfl
        rw [hgranted, PutCall.asks]
        omega
      · rw [Producer.granted, htake, List.length_nil, Nat.zero_add, List.length_drop]
        rfl

theorem Inv.grantsGet (hp : p.Counts) {s : System α} (h : Inv p s) {call : GetCall}
    {read toRead tmpTail : Nat} (hpc : s.consumer = .loadHead call read toRead tmpTail) :
    (runConsumer p s (.loadHead call read toRead tmpTail)).consumer.granted =
      min (call.asks p toRead) (s.reported.length - s.removed.length) := by
  have hok := h.consumer
  have hle := h.le
  have hbounded := h.bounded
  rw [hpc] at hok
  have htmp : tmpTail = s.removed.length % p.indexT := hok
  have hunread := unread_eq hp h.le h.bounded
  rw [← h.head, ← htmp] at hunread
  have hempty : tmpTail = s.ring.head ↔ s.reported.length - s.removed.length = 0 := by
    constructor
    · intro heq
      rw [← hunread, heq, unread, gap, if_neg (by have := hp.1; omega), Nat.add_sub_cancel_left,
        Nat.mod_self, Nat.zero_mod]
    · intro hzero
      rw [htmp, h.head, show s.reported.length = s.removed.length by omega]
  cases call with
  | remove =>
      rw [runConsumer]
      split
      · rename_i heq
        rw [hempty] at heq
        simp only [Consumer.granted, GetCall.asks]
        omega
      · rename_i hne
        rw [hempty] at hne
        simp only [Consumer.granted, GetCall.asks, List.length_nil]
        omega
  | removeOne =>
      rw [runConsumer]
      split
      · rename_i heq
        rw [hempty] at heq
        simp only [Consumer.granted, GetCall.asks]
        omega
      · rename_i hne
        rw [hempty] at hne
        simp only [Consumer.granted, GetCall.asks]
        omega
  | readBuff count =>
      rw [runConsumer, Consumer.granted, clip_eq_min, hunread, List.length_nil, Nat.zero_add]
      rfl
  | readBuffCallback count countToCallback =>
      rw [runConsumer]
      split
      · rename_i hzero
        rw [hunread] at hzero
        simp only [Consumer.granted, GetCall.asks]
        omega
      · rw [Consumer.granted, clip_eq_min, hunread, List.length_nil, Nat.zero_add]
        rfl
  | removeCount cnt =>
      rw [runConsumer, Consumer.granted, clip_eq_min, hunread]
      rfl
  | consumerClear =>
      rw [runConsumer, Consumer.granted, hunread, GetCall.asks]
      omega

/-- No test of either side is misled by the moves of the other one. -/
theorem spsc_tests_exact (hp : p.Counts) (dataBuff : Nat → α) (events : List (Event α)) :
    Guarded (step p) (Exact p) (System.create dataBuff) events := by
  have hfree : Guarded (step p) (fun _ _ => True) (System.create dataBuff) events :=
    guarded_of_forall (fun _ _ => trivial) _ _
  refine guarded_of_inv (Inv p) ?_ (inv_create p dataBuff) hfree
  intro s e h _
  refine ⟨(step_keeps hp h e).1, ?_⟩
  cases e with
  | put call => trivial
  | get call => trivial
  | producer =>
      intro call written toWrite tmpHead hpc
      rw [step, hpc]
      exact h.grantsPut hp hpc
  | consumer =>
      intro call read toRead tmpTail hpc
      rw [step, hpc]
      exact h.grantsGet hp hpc

theorem spsc_tests_exact_defaults :
    Guarded (step .defaults) (Exact .defaults) (System.create fun _ => 0)
      [.put (.writeBuff [1, 2]), .producer, .producer, .producer, .producer, .producer,
        .get (.removeCount 3), .consumer, .put (.insert 3), .producer, .consumer] :=
  spsc_tests_exact (by decide) _ _

end NetTest.Spsc
