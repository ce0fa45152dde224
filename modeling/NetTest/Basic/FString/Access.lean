import NetTest.Lib.Memory
import NetTest.Lib.Search
import NetTest.Lib.Wrapping

/-!
# Parts of fixed strings

`substr`, the searches and the friend function `swap`, for arrays with any contents:
`data()` gives the array away, so a NUL need not be among its bytes.

The member `swap` assigns a `char` array to a pointer to `int64_t`, does not compile
where it is used, and is left out.
-/

namespace NetTest.Strings

open Wrapping

variable {maxSize n base idx count off : Nat} {m : Memory}

/-! ## Substrings -/

inductive Thrown where
  | runtimeError (text : String)
  /-- From the constructor of `std::string`. -/
  | lengthError
  deriving DecidableEq

/-- A string and the bytes it was made from. -/
structure Extract where
  reads : Region
  bytes : List UInt8
  deriving DecidableEq

/-- `std::string(const char *, size_t)`; `maxSize` is its `max_size()`. -/
def stdString (maxSize : Nat) (m : Memory) (addr count : Nat) : Except Thrown Extract :=
  if maxSize < count then .error .lengthError else .ok ⟨⟨addr, count⟩, m.load addr count⟩

def substr (maxSize n base : Nat) (m : Memory) (idx count : Nat) : Except Thrown Extract :=
  if n < idx then .error (.runtimeError "fstring::substr, idx invalid(exceed size)")
  else
    stdString maxSize m (base + idx)
      (if diff ((idx + count) % sizeT) 1 ≤ n then count else diff n idx)

/-- The bytes from `idx` on, at most `count`, and nothing outside the array is read. -/
structure Cuts (n base : Nat) (m : Memory) (idx count : Nat) (e : Extract) : Prop where
  inside : e.reads.Within ⟨base, n⟩
  exact : e.bytes = ((m.load base n).take (min (idx + count) n)).drop idx

/-- The sum does not end one behind the array and does not wrap, and neither does the
bound it is compared with. -/
structure Plain (maxSize n idx count : Nat) : Prop where
  not_behind : idx + count ≠ n + 1
  no_wrap : idx + count ≤ sizeT
  not_zero : idx + count = 0 → n = 0 ∨ n + 1 = sizeT
  short : min count (n - idx) ≤ maxSize

theorem slice_eq (hidx : idx ≤ n) (count : Nat) :
    ((m.load base n).take (min (idx + count) n)).drop idx =
      m.load (base + idx) (min count (n - idx)) := by
  have hend : min (idx + count) n - idx = min count (n - idx) := by omega
  rw [m.take_load base (Nat.min_le_right _ _), Memory.drop_load, hend]

theorem cuts_iff (hidx : idx ≤ n) (count len : Nat) :
    Cuts n base m idx count ⟨⟨base + idx, len⟩, m.load (base + idx) len⟩ ↔
      len = min count (n - idx) := by
  constructor
  · intro h
    have hlen := congrArg List.length h.exact
    rw [slice_eq hidx, Memory.length_load, Memory.length_load] at hlen
    exact hlen
  · intro h
    constructor
    · exact Region.within_offset (by omega)
    · rw [slice_eq hidx, ← h]

theorem stdString_cuts_iff (hidx : idx ≤ n) (count len : Nat) :
    (∃ e, stdString maxSize m (base + idx) len = .ok e ∧ Cuts n base m idx count e) ↔
      len = min count (n - idx) ∧ len ≤ maxSize := by
  rw [stdString]
  by_cases hmax : maxSize < len
  · rw [if_pos hmax]
    constructor
    · intro h
      rcases h with ⟨e, he, _⟩
      cases he
    · intro h
      omega
  · rw [if_neg hmax]
    constructor
    · intro h
      rcases h with ⟨e, he, hcuts⟩
      cases he
      exact ⟨(cuts_iff hidx count len).mp hcuts, Nat.le_of_not_lt hmax⟩
    · intro h
      exact ⟨_, rfl, (cuts_iff hidx count len).mpr h.1⟩

theorem diff_zero_one : diff 0 1 = sizeT - 1 := by decide

theorem length_iff (hn : n < sizeT) (hidx : idx ≤ n) (hcount : count < sizeT) :
    (if diff ((idx + count) % sizeT) 1 ≤ n then count else n - idx) = min count (n - idx) ↔
      idx + count ≠ n + 1 ∧ idx + count ≤ sizeT ∧ (idx + count = 0 → n = 0 ∨ n + 1 = sizeT) := by
  have hone : 1 < sizeT := by decide
  rcases Nat.lt_or_ge (idx + count) sizeT with hlt | hge
  · rw [Nat.mod_eq_of_lt hlt]
    rcases Nat.eq_zero_or_pos (idx + count) with hzero | hpos
    · rw [hzero, diff_zero_one]
      split <;> omega
    · rw [diff_eq hpos hlt]
      split <;> omega
  · rw [mod_of_wrapped hge (by omega)]
    rcases Nat.eq_or_lt_of_le hge with heq | hgt
    · rw [← heq, Nat.sub_self, diff_zero_one]
      split <;> omega
    · rw [diff_eq (by omega) (by omega)]
      split <;> omega

/-- A substring is the part of the array that was asked for exactly where the sum is
plain. -/
theorem substr_iff (maxSize base : Nat) (m : Memory) (hn : n < sizeT) (hidx : idx ≤ n)
    (hcount : count < sizeT) :
    (∃ e, substr maxSize n base m idx count = .ok e ∧ Cuts n base m idx count e) ↔
      Plain maxSize n idx count := by
  rw [substr, if_neg (Nat.not_lt.mpr hidx), stdString_cuts_iff hidx, diff_eq hidx hn]
  have hlen := length_iff hn hidx hcount
  constructor
  · intro h
    rcases h with ⟨heq, hmax⟩
    rcases hlen.mp heq with ⟨hbehind, hwrap, hzero⟩
    exact ⟨hbehind, hwrap, hzero, by rw [← heq]; exact hmax⟩
  · intro h
    have heq := hlen.mpr ⟨h.not_behind, h.no_wrap, h.not_zero⟩
    exact ⟨heq, by rw [heq]; exact h.short⟩

/-- `substr(1, npos)` wraps the sum to zero and takes what is left. -/
theorem substr_iff_npos :
    (∃ e, substr 100 4 50 (fun _ => 97) 1 (sizeT - 1) = .ok e ∧
        Cuts 4 50 (fun _ => 97) 1 (sizeT - 1) e) ↔
      Plain 100 4 1 (sizeT - 1) :=
  substr_iff 100 50 _ (by decide) (by decide) (by decide)

/-- `substr(0, 0)` is the whole array, and `substr(1, 4)` of four bytes reads the byte
behind them. -/
theorem substr_over_reads :
    let m := Memory.store (fun _ => 120) 50 [97, 98, 99, 0]
    substr 100 4 50 m 0 0 = .ok ⟨⟨50, 4⟩, [97, 98, 99, 0]⟩ ∧
      substr 100 4 50 m 1 4 = .ok ⟨⟨51, 4⟩, [98, 99, 0, 120]⟩ ∧
      ¬ (∃ e, substr 100 4 50 m 0 0 = .ok e ∧ Cuts 4 50 m 0 0 e) ∧
      ¬ (∃ e, substr 100 4 50 m 1 4 = .ok e ∧ Cuts 4 50 m 1 4 e) := by
  intro m
  refine ⟨by decide, by decide, ?_, ?_⟩
  · rw [substr_iff 100 50 m (by decide) (by decide) (by decide)]
    intro h
    have hzero := h.not_zero rfl
    revert hzero
    decide
  · rw [substr_iff 100 50 m (by decide) (by decide) (by decide)]
    intro h
    exact h.not_behind rfl

/-! ## Searches -/

def npos : Nat := sizeT - 1

/-- A search for a byte that passes `test`, as the two functions write it: the byte
at `off` is looked at in every turn of the loop. -/
def findLoop (test : UInt8 → Bool) (m : Memory) (base off : Nat) : Nat → Nat
  | 0 => npos
  | turns + 1 => if test (m (base + off)) then off else findLoop test m base off turns

/-- `i` runs from `off` to `N`. -/
def find (test : UInt8 → Bool) (n base : Nat) (m : Memory) (off : Nat) : Nat :=
  findLoop test m base off (n - off)

def findFirstOf (n base : Nat) (m : Memory) (ch : UInt8) (off : Nat) : Nat :=
  find (· == ch) n base m off

def findFirstNotOf (n base : Nat) (m : Memory) (ch : UInt8) (off : Nat) : Nat :=
  find (· != ch) n base m off

def hits (test : UInt8 → Bool) (n base : Nat) (m : Memory) (off : Nat) : Set Nat :=
  {i | off ≤ i ∧ i < n ∧ test (m (base + i)) = true}

/-- The first match is found, and `npos` where there is none. -/
structure FindsFirst (test : UInt8 → Bool) (n base : Nat) (m : Memory) (off found : Nat) :
    Prop where
  first : ∀ i, IsLeast (hits test n base m off) i → found = i
  npos_iff : found = npos ↔ hits test n base m off = ∅

def AtOffset (test : UInt8 → Bool) (n base : Nat) (m : Memory) (off : Nat) : Prop :=
  off ∈ hits test n base m off ∨ hits test n base m off = ∅

theorem findLoop_eq (test : UInt8 → Bool) (m : Memory) (base off turns : Nat) :
    findLoop test m base off turns =
      if turns = 0 ∨ test (m (base + off)) = false then npos else off := by
  induction turns with
  | zero => rw [findLoop, if_pos (Or.inl rfl)]
  | succ turns ih =>
      rw [findLoop, ih]
      cases htest : test (m (base + off)) with
      | true => simp
      | false => simp

theorem find_eq (test : UInt8 → Bool) (n base : Nat) (m : Memory) (off : Nat) :
    find test n base m off = off ∧ off ∈ hits test n base m off ∨
      find test n base m off = npos ∧ off ∉ hits test n base m off := by
  rw [find, findLoop_eq]
  by_cases hmem : off ∈ hits test n base m off
  · rcases hmem with ⟨hle, hlt, htest⟩
    have hturn : ¬ (n - off = 0 ∨ test (m (base + off)) = false) := by
      intro h
      rcases h with hzero | hfalse
      · omega
      · rw [htest] at hfalse
        contradiction
    left
    rw [if_neg hturn]
    exact ⟨rfl, hle, hlt, htest⟩
  · right
    refine ⟨if_pos ?_, hmem⟩
    by_cases hlt : off < n
    · right
      apply Bool.eq_false_of_not_eq_true
      intro htest
      exact hmem ⟨Nat.le_refl off, hlt, htest⟩
    · left
      omega

theorem not_findsFirst_of_hit {test : UInt8 → Bool} {found i : Nat} (hfound : found = npos)
    (hi : i ∈ hits test n base m off) : ¬ FindsFirst test n base m off found := by
  intro h
  rw [h.npos_iff.mp hfound] at hi
  exact hi

/-- A search is right exactly where the first byte it looks at matches, or none does. -/
theorem findsFirst_iff (test : UInt8 → Bool) (hn : n < sizeT) (base : Nat) (m : Memory)
    (off : Nat) :
    FindsFirst test n base m off (find test n base m off) ↔ AtOffset test n base m off := by
  rcases find_eq test n base m off with ⟨hfind, hmem⟩ | ⟨hfind, hmem⟩
  · rw [hfind]
    have hne : off ≠ npos := by
      have hlt := hmem.2.1
      unfold npos
      omega
    apply iff_of_true
    · constructor
      · intro i hi
        exact Nat.le_antisymm hi.1.1 (hi.2 hmem)
      · apply iff_of_false hne
        intro hempty
        rw [hempty] at hmem
        exact hmem
    · exact Or.inl hmem
  · rw [hfind]
    constructor
    · intro h
      exact Or.inr (h.npos_iff.mp rfl)
    · intro h
      rcases h with hoff | hempty
      · exact absurd hoff hmem
      · constructor
        · intro i hi
          have hmatch := hi.1
          rw [hempty] at hmatch
          exact absurd hmatch (Set.notMem_empty i)
        · exact iff_of_true rfl hempty

/-- Both searches are right exactly where the byte at the offset matches or none
does. -/
theorem find_first_iff (hn : n < sizeT) (base : Nat) (m : Memory) (ch : UInt8) (off : Nat) :
    (FindsFirst (· == ch) n base m off (findFirstOf n base m ch off) ↔
        AtOffset (· == ch) n base m off) ∧
      (FindsFirst (· != ch) n base m off (findFirstNotOf n base m ch off) ↔
        AtOffset (· != ch) n base m off) :=
  ⟨findsFirst_iff (· == ch) hn base m off, findsFirst_iff (· != ch) hn base m off⟩

theorem find_first_iff_four :
    let m := Memory.store (fun _ => 120) 50 [97, 98, 0, 0]
    (FindsFirst (· == 97) 4 50 m 0 (findFirstOf 4 50 m 97 0) ↔ AtOffset (· == 97) 4 50 m 0) ∧
      (FindsFirst (· != 97) 4 50 m 0 (findFirstNotOf 4 50 m 97 0) ↔
        AtOffset (· != 97) 4 50 m 0) :=
  find_first_iff (by decide) 50 _ 97 0

/-- `"ab"` has its `'b'` at 1, and at 1 the first byte that is not `'a'`. -/
theorem find_first_misses :
    let m := Memory.store (fun _ => 120) 50 [97, 98, 0, 0]
    findFirstOf 4 50 m 98 0 = npos ∧ findFirstNotOf 4 50 m 97 0 = npos ∧
      ¬ FindsFirst (· == 98) 4 50 m 0 (findFirstOf 4 50 m 98 0) ∧
      ¬ FindsFirst (· != 97) 4 50 m 0 (findFirstNotOf 4 50 m 97 0) := by
  intro m
  have hof : findFirstOf 4 50 m 98 0 = npos := by decide
  have hnot : findFirstNotOf 4 50 m 97 0 = npos := by decide
  have hof' : 1 ∈ hits (· == 98) 4 50 m 0 := ⟨by decide, by decide, by decide⟩
  have hnot' : 1 ∈ hits (· != 97) 4 50 m 0 := ⟨by decide, by decide, by decide⟩
  exact ⟨hof, hnot, not_findsFirst_of_hit hof hof', not_findsFirst_of_hit hnot hnot'⟩

/-! ## Swapping -/

/-- The loop of `swap`: each turn exchanges the whole arrays, and `i` is an
`unsigned int`. -/
def swapLoop (n : Nat) : Nat → Nat → Vector UInt8 n × Vector UInt8 n →
    Option (Vector UInt8 n × Vector UInt8 n)
  | 0, _, _ => none
  | turns + 1, i, p => if i < n then swapLoop n turns ((i + 1) % 2 ^ 32) p.swap else some p

def Swaps (a b : Vector UInt8 n) : Prop := ∃ turns, swapLoop n turns 0 (a, b) = some (b, a)

/-- The counter wraps before it comes to the capacity. -/
theorem swapLoop_never (h : 2 ^ 32 ≤ n) (turns : Nat) {i : Nat} (hi : i < 2 ^ 32)
    (p : Vector UInt8 n × Vector UInt8 n) : swapLoop n turns i p = none := by
  induction turns generalizing i p with
  | zero => rfl
  | succ turns ih =>
      rw [swapLoop, if_pos (Nat.lt_of_lt_of_le hi h)]
      exact ih (Nat.mod_lt _ (by decide)) p.swap

theorem swapLoop_eq (h : n < 2 ^ 32) (turns : Nat) {i : Nat} (hi : i ≤ n)
    (p : Vector UInt8 n × Vector UInt8 n) :
    swapLoop n turns i p =
      if turns ≤ n - i then none else some (if (n - i) % 2 = 1 then p.swap else p) := by
  induction turns generalizing i p with
  | zero => rw [swapLoop, if_pos (Nat.zero_le _)]
  | succ turns ih =>
      rw [swapLoop]
      rcases Nat.lt_or_ge i n with hlt | hge
      · have hmod : (i + 1) % 2 ^ 32 = i + 1 := Nat.mod_eq_of_lt (by omega)
        rw [if_pos hlt, hmod, ih hlt, Prod.swap_swap]
        by_cases hturns : turns ≤ n - (i + 1)
        · rw [if_pos hturns, if_pos (by omega)]
        · have hmore : ¬ turns + 1 ≤ n - i := by omega
          rw [if_neg hturns, if_neg hmore]
          by_cases hodd : (n - i) % 2 = 1
          · have heven : ¬ (n - (i + 1)) % 2 = 1 := by omega
            rw [if_pos hodd, if_neg heven]
          · have hodd' : (n - (i + 1)) % 2 = 1 := by omega
            rw [if_neg hodd, if_pos hodd']
      · rw [if_neg (by omega), if_neg (by omega), if_neg (by omega)]

/-- `swap` exchanges the arrays exactly where the counter reaches the capacity and
the number of exchanges is odd or there is nothing to exchange. -/
theorem swaps_iff (a b : Vector UInt8 n) : Swaps a b ↔ n < 2 ^ 32 ∧ (n % 2 = 1 ∨ a = b) := by
  unfold Swaps
  rcases Nat.lt_or_ge n (2 ^ 32) with hlt | hge
  · have hloop := fun turns => swapLoop_eq hlt turns (Nat.zero_le n) (a, b)
    rw [Nat.sub_zero] at hloop
    constructor
    · intro h
      rcases h with ⟨turns, hturns⟩
      refine ⟨hlt, ?_⟩
      rw [hloop] at hturns
      by_cases hodd : n % 2 = 1
      · exact Or.inl hodd
      · right
        rw [if_neg hodd] at hturns
        split at hturns
        · cases hturns
        · cases hturns
          rfl
    · intro h
      refine ⟨n + 1, ?_⟩
      rw [hloop, if_neg (by omega)]
      rcases h.2 with hodd | heq
      · rw [if_pos hodd]
        rfl
      · rw [heq]
        exact congrArg some (ite_self _)
  · constructor
    · intro h
      rcases h with ⟨turns, hturns⟩
      rw [swapLoop_never hge turns (by decide)] at hturns
      cases hturns
    · intro h
      omega

/-- Two exchanges leave two bytes as they were. -/
theorem not_swaps_two :
    swapLoop 2 3 0 (#v[97, 0], #v[98, 0]) = some (#v[97, 0], #v[98, 0]) ∧
      ¬ Swaps (#v[97, 0] : Vector UInt8 2) #v[98, 0] := by
  have hne : (#v[97, 0] : Vector UInt8 2) ≠ #v[98, 0] := by decide
  refine ⟨by decide, ?_⟩
  rw [swaps_iff]
  intro h
  rcases h.2 with hodd | heq
  · cases hodd
  · exact hne heq

end NetTest.Strings
