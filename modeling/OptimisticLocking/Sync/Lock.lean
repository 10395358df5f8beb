import Mathlib.Algebra.Group.Nat.Defs
import Mathlib.Tactic.Common

/-!
# The word of a `HybridLock`

A `HybridLock` is one 64-bit word: the top byte is the lock state (`0` free, `1 … 254` readers,
`255` exclusive), the low 56 bits are the version.  This file embeds `lock.h` and the part of
`lock.cc` that computes on words.

Every operation is given by what it returns and by the word it leaves, for one atomic access to
a cell that holds `cur`.  The two releases and `UnlockShared` make several accesses; here is what
each of them computes, and `Sync/LockProtocol.lean` interleaves the accesses.

The proofs never look at bits again after `lockState_sameVersionNewState` and its three siblings,
which say what the two constructors of words do to the state and to the version.
-/

namespace OptLock

/-- The contents of a `std::atomic<uint64_t>`. -/
abbrev Word := BitVec 64

namespace HybridLock

/-- `VERSION_MASK`: the low 56 bits. -/
def versionMask : Word := ((1 : Word) <<< 56) - 1

/-- `UNLOCKED`. -/
def unlocked : Word := 0

/-- `MAX_SHARED`: the number of readers the state byte can count. -/
def maxShared : Word := 254

/-- `EXCLUSIVE`. -/
def exclusive : Word := 255

def lockState (v : Word) : Word := v >>> 56

def version (v : Word) : Word := v &&& versionMask

def isExclusivelyLocked (v : Word) : Bool := lockState v == exclusive

def isSharedLocked (v : Word) : Bool :=
  let curr := lockState v
  decide (unlocked < curr) && decide (curr < exclusive)

def sameVersionNewState (oldStateAndVersion newState : Word) : Word :=
  ((oldStateAndVersion <<< 8) >>> 8) ||| newState <<< 56

/-- The version is incremented *after* the state byte has been shifted out, so the carry out of
the largest version lands in the state byte that `newState` is or-ed into. -/
def nextVersionNewState (oldStateAndVersion newState : Word) : Word :=
  (((oldStateAndVersion <<< 8) >>> 8) + (1 : Word)) ||| newState <<< 56

/-- The word the constructor stores. -/
def init : Word := sameVersionNewState 0 unlocked

/-! ## The atomic accesses -/

/-- `compare_exchange_strong` on a cell that holds `cur`: the result and the word left. -/
def compareExchangeStrong (cur expected desired : Word) : Bool × Word :=
  if cur = expected then (true, desired) else (false, cur)

/-- `compare_exchange_weak` may fail although the cell holds the expected word. -/
def compareExchangeWeak (spurious : Bool) (cur expected desired : Word) : Bool × Word :=
  if spurious then (false, cur) else compareExchangeStrong cur expected desired

def tryLockExclusive (cur oldStateWVersion : Word) : Bool × Word :=
  if lockState oldStateWVersion > unlocked && lockState oldStateWVersion ≤ exclusive then
    (false, cur)
  else
    compareExchangeStrong cur oldStateWVersion (sameVersionNewState oldStateWVersion exclusive)

def tryLockShared (cur oldStateWVersion : Word) : Bool × Word :=
  let state := lockState oldStateWVersion
  if state < maxShared then
    compareExchangeStrong cur oldStateWVersion (sameVersionNewState oldStateWVersion (state + 1))
  else
    (false, cur)

def upgradeLock (spurious : Bool) (cur oldStateWVersion : Word) : Bool × Word :=
  if lockState oldStateWVersion ≠ 1 then
    (false, cur)
  else
    compareExchangeWeak spurious cur oldStateWVersion
      (sameVersionNewState oldStateWVersion exclusive)

/-- The word `UnlockExclusive` stores after loading `old`. -/
def unlockExclusive (old : Word) : Word := nextVersionNewState old unlocked

/-- The word `DowngradeLock` stores after loading `old`; the `1` is its one reader. -/
def downgradeLock (old : Word) : Word := nextVersionNewState old 1

/-- The compare-exchange of one round of `UnlockShared`, after the round loaded `old`. -/
def unlockShared (spurious : Bool) (cur old : Word) : Bool × Word :=
  compareExchangeWeak spurious cur old (sameVersionNewState old (lockState old - 1))

/-! ## State byte and version, as numbers -/

lemma lockState_toNat (v : Word) : (lockState v).toNat = v.toNat / 2 ^ 56 := by
  simp [lockState, BitVec.toNat_ushiftRight, Nat.shiftRight_eq_div_pow]

lemma version_toNat (v : Word) : (version v).toNat = v.toNat % 2 ^ 56 := by
  have hmask : versionMask.toNat = 2 ^ 56 - 1 := by decide
  rw [version, BitVec.toNat_and, hmask, Nat.and_two_pow_sub_one_eq_mod]

lemma lockState_lt (v : Word) : (lockState v).toNat < 256 := by
  have := v.isLt
  rw [lockState_toNat]
  omega

lemma version_lt (v : Word) : (version v).toNat < 2 ^ 56 := by
  rw [version_toNat]
  omega

/-- Shifting the state byte out and back leaves the version. -/
lemma toNat_shift_out (v : Word) : ((v <<< 8) >>> 8).toNat = (version v).toNat := by
  have := v.isLt
  rw [version_toNat, BitVec.toNat_ushiftRight, BitVec.toNat_shiftLeft,
    Nat.shiftRight_eq_div_pow, Nat.shiftLeft_eq]
  omega

/-- Or-ing a state byte above a number that fits below it is adding it. -/
lemma toNat_or_shift_state {x n : Word} (hx : x.toNat < 2 ^ 56) (hn : n.toNat < 256) :
    (x ||| n <<< 56).toNat = n.toNat * 2 ^ 56 + x.toNat := by
  have hshift : (n <<< 56).toNat = 2 ^ 56 * n.toNat := by
    rw [BitVec.toNat_shiftLeft, Nat.shiftLeft_eq]
    omega
  rw [BitVec.toNat_or, hshift, Nat.or_comm, ← Nat.two_pow_add_eq_or_of_lt hx]
  omega

/-! ## What the two constructors of words do -/

lemma toNat_sameVersionNewState (v : Word) {n : Word} (hn : n.toNat < 256) :
    (sameVersionNewState v n).toNat = n.toNat * 2 ^ 56 + (version v).toNat := by
  have hx : ((v <<< 8) >>> 8).toNat < 2 ^ 56 := by
    rw [toNat_shift_out]
    exact version_lt v
  rw [sameVersionNewState, toNat_or_shift_state hx hn, toNat_shift_out]

lemma lockState_sameVersionNewState (v : Word) {n : Word} (hn : n.toNat < 256) :
    lockState (sameVersionNewState v n) = n := by
  have := version_lt v
  apply BitVec.eq_of_toNat_eq
  rw [lockState_toNat, toNat_sameVersionNewState v hn]
  omega

/-- The version survives every change of state, whatever number is stored as the new state. -/
lemma version_sameVersionNewState (v n : Word) : version (sameVersionNewState v n) = version v := by
  have hlow : (n <<< 56).toNat % 2 ^ 56 = 0 := by
    rw [BitVec.toNat_shiftLeft, Nat.shiftLeft_eq]
    omega
  apply BitVec.eq_of_toNat_eq
  rw [version_toNat, sameVersionNewState, BitVec.toNat_or, Nat.or_mod_two_pow, hlow, Nat.or_zero,
    toNat_shift_out, Nat.mod_eq_of_lt (version_lt v)]

lemma toNat_shift_out_succ (v : Word) :
    (((v <<< 8) >>> 8) + (1 : Word)).toNat = (version v).toNat + 1 := by
  have := version_lt v
  rw [BitVec.toNat_add, toNat_shift_out]
  have : (1 : Word).toNat = 1 := rfl
  omega

/-- Below the largest version nothing is carried. -/
lemma toNat_nextVersionNewState (v : Word) {n : Word} (hn : n.toNat < 256)
    (hv : (version v).toNat + 1 < 2 ^ 56) :
    (nextVersionNewState v n).toNat = n.toNat * 2 ^ 56 + ((version v).toNat + 1) := by
  have hx : (((v <<< 8) >>> 8) + (1 : Word)).toNat < 2 ^ 56 := by
    rw [toNat_shift_out_succ]
    exact hv
  rw [nextVersionNewState, toNat_or_shift_state hx hn, toNat_shift_out_succ]

/-- At the largest version the increment is exactly the word with state `1` and version `0`. -/
lemma nextVersionNewState_of_max {v : Word} (n : Word) (hv : (version v).toNat + 1 = 2 ^ 56) :
    nextVersionNewState v n = (1 : Word) <<< 56 ||| n <<< 56 := by
  have hx : ((v <<< 8) >>> 8) + (1 : Word) = (1 : Word) <<< 56 := by
    apply BitVec.eq_of_toNat_eq
    rw [toNat_shift_out_succ, hv]
    decide
  rw [nextVersionNewState, hx]

/-- Both releases move to the next version, modulo `2 ^ 56`, whatever the version was. -/
lemma version_nextVersionNewState (v : Word) {n : Word} (hn : n = unlocked ∨ n = 1) :
    (version (nextVersionNewState v n)).toNat = ((version v).toNat + 1) % 2 ^ 56 := by
  have hlt := version_lt v
  by_cases hv : (version v).toNat + 1 < 2 ^ 56
  · have hn' : n.toNat < 256 := by rcases hn with rfl | rfl <;> decide
    rw [version_toNat, toNat_nextVersionNewState v hn' hv]
    omega
  · have hmax : (version v).toNat + 1 = 2 ^ 56 := by omega
    rw [nextVersionNewState_of_max n hmax, hmax]
    rcases hn with rfl | rfl <;> decide

/-- `DowngradeLock` leaves one reader: at the largest version the carry is the very bit it
stores. -/
lemma lockState_downgradeLock (v : Word) : lockState (downgradeLock v) = 1 := by
  have hlt := version_lt v
  by_cases hv : (version v).toNat + 1 < 2 ^ 56
  · apply BitVec.eq_of_toNat_eq
    rw [downgradeLock, lockState_toNat, toNat_nextVersionNewState v (by decide) hv]
    have : (1 : Word).toNat = 1 := rfl
    omega
  · have hmax : (version v).toNat + 1 = 2 ^ 56 := by omega
    rw [downgradeLock, nextVersionNewState_of_max 1 hmax]
    decide

/-- `UnlockExclusive` frees the lock, except at the largest version, where the carry is left
behind as a reader that nobody is. -/
lemma lockState_unlockExclusive (v : Word) :
    lockState (unlockExclusive v) = if (version v).toNat + 1 < 2 ^ 56 then unlocked else 1 := by
  have hlt := version_lt v
  split_ifs with hv
  · apply BitVec.eq_of_toNat_eq
    rw [unlockExclusive, lockState_toNat, toNat_nextVersionNewState v (by decide) hv]
    have : unlocked.toNat = 0 := rfl
    omega
  · have hmax : (version v).toNat + 1 = 2 ^ 56 := by omega
    rw [unlockExclusive, nextVersionNewState_of_max unlocked hmax]
    decide

/-- As a number, the word `UnlockExclusive` stores is the next version, carry included. -/
lemma toNat_unlockExclusive (v : Word) : (unlockExclusive v).toNat = (version v).toNat + 1 := by
  have hlt := version_lt v
  by_cases hv : (version v).toNat + 1 < 2 ^ 56
  · rw [unlockExclusive, toNat_nextVersionNewState v (by decide) hv]
    have : unlocked.toNat = 0 := rfl
    omega
  · have hmax : (version v).toNat + 1 = 2 ^ 56 := by omega
    rw [unlockExclusive, nextVersionNewState_of_max unlocked hmax, hmax]
    decide

/-- One reader more. -/
lemma lockState_addReader {v : Word} (hlt : (lockState v).toNat < 255) :
    (lockState (sameVersionNewState v (lockState v + 1))).toNat = (lockState v).toNat + 1 ∧
      version (sameVersionNewState v (lockState v + 1)) = version v := by
  have hsucc : (lockState v + 1).toNat = (lockState v).toNat + 1 := by
    have : (1 : Word).toNat = 1 := rfl
    rw [BitVec.toNat_add]
    omega
  have hbyte : (lockState v + 1).toNat < 256 := by omega
  rw [lockState_sameVersionNewState v hbyte, version_sameVersionNewState]
  exact ⟨hsucc, rfl⟩

/-- One reader less. -/
lemma lockState_dropReader {v : Word} (hpos : 0 < (lockState v).toNat) :
    (lockState (sameVersionNewState v (lockState v - 1))).toNat = (lockState v).toNat - 1 ∧
      version (sameVersionNewState v (lockState v - 1)) = version v := by
  have hlt := lockState_lt v
  have hpred : (lockState v - 1).toNat = (lockState v).toNat - 1 := by
    have : (1 : Word).toNat = 1 := rfl
    rw [BitVec.toNat_sub]
    omega
  have hbyte : (lockState v - 1).toNat < 256 := by omega
  rw [lockState_sameVersionNewState v hbyte, version_sameVersionNewState]
  exact ⟨hpred, rfl⟩

lemma lockState_init : lockState init = unlocked := by decide

lemma version_init : (version init).toNat = 0 := by decide

/-! ## What each access can do

A failed access leaves the word; a successful one found exactly the word the caller named, in the
state the operation asks for.
-/

lemma tryLockExclusive_cases (cur old : Word) :
    tryLockExclusive cur old = (false, cur) ∨
      (lockState cur = unlocked ∧
        tryLockExclusive cur old = (true, sameVersionNewState cur exclusive)) := by
  have hle : lockState old ≤ exclusive := by
    have := lockState_lt old
    have : exclusive.toNat = 255 := rfl
    rw [BitVec.le_def]
    omega
  by_cases hfree : lockState old = unlocked
  · have hgt : ¬ lockState old > unlocked := by rw [hfree]; decide
    by_cases hcur : cur = old
    · right
      subst hcur
      simp [tryLockExclusive, compareExchangeStrong, hfree]
    · left
      simp [tryLockExclusive, compareExchangeStrong, hcur]
  · left
    have hgt : lockState old > unlocked := by
      have hne : (lockState old).toNat ≠ 0 := fun h => hfree (BitVec.eq_of_toNat_eq h)
      have : unlocked.toNat = 0 := rfl
      rw [gt_iff_lt, BitVec.lt_def]
      omega
    simp [tryLockExclusive, hgt, hle]

/-- Alone on the word, `TryLockExclusive` succeeds exactly when the lock is free. -/
lemma tryLockExclusive_self (v : Word) :
    tryLockExclusive v v =
      if lockState v = unlocked then (true, sameVersionNewState v exclusive) else (false, v) := by
  by_cases hfree : lockState v = unlocked
  · simp [tryLockExclusive, compareExchangeStrong, hfree]
  · rcases tryLockExclusive_cases v v with hcas | ⟨hcur, -⟩
    · rw [hcas, if_neg hfree]
    · exact absurd hcur hfree

lemma tryLockShared_cases (cur old : Word) :
    tryLockShared cur old = (false, cur) ∨
      (lockState cur < maxShared ∧
        tryLockShared cur old = (true, sameVersionNewState cur (lockState cur + 1))) := by
  by_cases hroom : lockState old < maxShared
  · by_cases hcur : cur = old
    · right
      subst hcur
      simp [tryLockShared, compareExchangeStrong, hroom]
    · left
      simp [tryLockShared, compareExchangeStrong, hcur]
  · left
    simp [tryLockShared, hroom]

lemma upgradeLock_cases (spurious : Bool) (cur old : Word) :
    upgradeLock spurious cur old = (false, cur) ∨
      (lockState cur = 1 ∧
        upgradeLock spurious cur old = (true, sameVersionNewState cur exclusive)) := by
  by_cases hone : lockState old = 1
  · by_cases hcur : spurious = false ∧ cur = old
    · right
      obtain ⟨rfl, rfl⟩ := hcur
      simp [upgradeLock, compareExchangeWeak, compareExchangeStrong, hone]
    · left
      cases spurious with
      | true => simp [upgradeLock, compareExchangeWeak]
      | false =>
          have hne : cur ≠ old := fun h => hcur ⟨rfl, h⟩
          simp [upgradeLock, compareExchangeWeak, compareExchangeStrong, hne]
  · left
    exact if_pos hone

lemma unlockShared_cases (spurious : Bool) (cur old : Word) :
    unlockShared spurious cur old = (false, cur) ∨
      (cur = old ∧
        unlockShared spurious cur old = (true, sameVersionNewState cur (lockState cur - 1))) := by
  cases spurious with
  | true => left; simp [unlockShared, compareExchangeWeak]
  | false =>
      by_cases hcur : cur = old
      · right
        subst hcur
        simp [unlockShared, compareExchangeWeak, compareExchangeStrong]
      · left
        simp [unlockShared, compareExchangeWeak, compareExchangeStrong, hcur]

/-- Alone on the word, `UnlockShared` succeeds in its first round. -/
lemma unlockShared_self (v : Word) :
    unlockShared false v v = (true, sameVersionNewState v (lockState v - 1)) := by
  simp [unlockShared, compareExchangeWeak, compareExchangeStrong]

lemma isExclusivelyLocked_iff (v : Word) :
    isExclusivelyLocked v = true ↔ lockState v = exclusive := by
  simp [isExclusivelyLocked]

lemma isSharedLocked_iff (v : Word) :
    isSharedLocked v = true ↔ 0 < (lockState v).toNat ∧ (lockState v).toNat < 255 := by
  simp [isSharedLocked, BitVec.lt_def, unlocked, exclusive]

end HybridLock

end OptLock
