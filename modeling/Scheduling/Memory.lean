import Scheduling.Fault

/-!
# Room in memory

Tables and trees whose size is given from outside can only be made if their bytes can be counted by
a signed word of 64 bits. A request for more is a fault, and nothing is made.

* `Memory.reserve_eq_ok_iff`: the requests that are granted.
* `Memory.addIndex_eq_ok_iff`, `Memory.mulIndex_eq_ok_iff`: an operation on indices answers exactly
  when its result is an index, and then with that result.
-/

namespace Scheduling

namespace Memory

/-- The greatest number of bytes that a sequence of entries may take. -/
def greatestSize : Nat := 9223372036854775807

/-- The number of words that index the entries of a sequence. -/
def indices : Nat := 18446744073709551616

/-- Asks for `entries` entries of `bytes` bytes each. -/
def reserve (entries bytes : Nat) : Except Fault Unit :=
  if entries * bytes ≤ greatestSize then .ok () else .error .sequenceTooLong

/-- The sum of two indices, if it is an index. -/
def addIndex (i j : Nat) : Except Fault Nat :=
  if i + j < indices then .ok (i + j) else .error .additionOverflow

/-- The product of two indices, if it is an index. -/
def mulIndex (i j : Nat) : Except Fault Nat :=
  if i * j < indices then .ok (i * j) else .error .multiplicationOverflow

theorem reserve_eq_ok_iff {entries bytes : Nat} :
    reserve entries bytes = .ok () ↔ entries * bytes ≤ greatestSize := by
  unfold reserve; split <;> simp_all

theorem addIndex_eq_ok_iff {i j k : Nat} :
    addIndex i j = .ok k ↔ i + j < indices ∧ k = i + j := by
  unfold addIndex; split
  · simp_all [eq_comm]
  · simp; omega

theorem mulIndex_eq_ok_iff {i j k : Nat} :
    mulIndex i j = .ok k ↔ i * j < indices ∧ k = i * j := by
  unfold mulIndex; split
  · simp_all [eq_comm]
  · simp; omega

end Memory

end Scheduling
