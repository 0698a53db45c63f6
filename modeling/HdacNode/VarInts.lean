import HdacNode.ScriptParser

/-!
# Variable-length integers

`VARINT` of `serialize.h`: seven bits in each byte, the highest first, where every byte but the
last is marked and counts one more, so that no number has two forms.
-/

namespace HdacNode

/-- Why a record is not written or read. -/
inductive RecordStop where
  | endOfData
  | assertion
  deriving DecidableEq, Repr

/-- The size of `tmp` in `WriteVarInt`, for a type of so many bits. -/
def varIntRoom (bits : Nat) : Nat := (bits + 6) / 7

/-- The bytes that `WriteVarInt` puts in `tmp` from the index `len` on, where there is room for so
many. -/
def varIntTmp : Nat → Nat → Nat → Bytes
  | 0, _, _ => []
  | room + 1, len, n =>
    let byte := UInt8.ofNat ((n &&& 0x7F) ||| if len = 0 then 0x00 else 0x80)
    if n ≤ 0x7F then [byte] else byte :: varIntTmp room (len + 1) ((n >>> 7) - 1)

/-- `WriteVarInt` of a number that is not negative. -/
def writeVarInt (bits n : Nat) : Bytes := (varIntTmp (varIntRoom bits) 0 n).reverse

/-- The turns of `GetSizeOfVarInt`, of which there are no more than `WriteVarInt` has. -/
def varIntTurns : Nat → Nat → Nat
  | 0, _ => 0
  | room + 1, n => if n ≤ 0x7F then 1 else 1 + varIntTurns room ((n >>> 7) - 1)

/-- `GetSizeOfVarInt`. -/
def getSizeOfVarInt (bits n : Nat) : Nat := varIntTurns (varIntRoom bits) n

/-- `ReadVarInt` of a type of so many bits, with what was read before. -/
def readVarInt (bits : Nat) : Nat → Bytes → Except RecordStop (Nat × Bytes)
  | _, [] => .error .endOfData
  | n, chData :: s =>
    let n := (n <<< 7) % 2 ^ bits ||| (chData.toNat &&& 0x7F)
    if chData.toNat &&& 0x80 ≠ 0 then readVarInt bits ((n + 1) % 2 ^ bits) s else .ok (n, s)

section Sizes

theorem length_varIntTmp (room len n : Nat) :
    (varIntTmp room len n).length = varIntTurns room n := by
  induction room generalizing len n with
  | zero => rfl
  | succ room ih =>
    rw [varIntTmp, varIntTurns]
    split
    · rfl
    · rw [List.length_cons, ih, Nat.add_comm]

/-- `GetSizeOfVarInt` is the number of bytes that are written. -/
theorem length_writeVarInt (bits n : Nat) : (writeVarInt bits n).length = getSizeOfVarInt bits n := by
  rw [writeVarInt, List.length_reverse, length_varIntTmp, getSizeOfVarInt]

end Sizes

section Bytes

theorem shiftLeft_or_low {n low : Nat} (small : low < 128) : n <<< 7 ||| low = 128 * n + low := by
  rw [← Nat.shiftLeft_add_eq_or_of_lt small, Nat.shiftLeft_eq, Nat.mul_comm]

theorem and_low (n : Nat) : n &&& 0x7F = n % 128 := Nat.and_two_pow_sub_one_eq_mod n 7

variable {bits n low : Nat} {s : Bytes}

/-- A byte without a mark is the last one. -/
theorem readVarInt_last (small : low < 128) (fits : 128 * n + low < 2 ^ bits) :
    readVarInt bits n (UInt8.ofNat low :: s) = .ok (128 * n + low, s) := by
  have byte : (UInt8.ofNat low).toNat = low := by
    rw [UInt8.toNat_ofNat']
    omega
  have noMark : low &&& 0x80 = 0 := by
    have mask : low &&& 0x80 = (low.testBit 7).toNat * 2 ^ 7 := Nat.and_two_pow _ 7
    rw [mask, Nat.testBit_lt_two_pow small]
    rfl
  have shifted : n <<< 7 % 2 ^ bits = n <<< 7 := by
    rw [Nat.shiftLeft_eq]
    exact Nat.mod_eq_of_lt (by omega)
  rw [readVarInt]
  simp only [byte, noMark, ne_eq, not_true_eq_false, if_false]
  rw [shifted, and_low, Nat.mod_eq_of_lt small, shiftLeft_or_low small]

theorem readVarInt_marked (small : low < 128) (fits : 128 * n + low + 1 < 2 ^ bits) :
    readVarInt bits n (UInt8.ofNat (low ||| 0x80) :: s) =
      readVarInt bits (128 * n + low + 1) s := by
  have marked : low ||| 0x80 = 128 + low := by
    rw [Nat.or_comm]
    exact shiftLeft_or_low (n := 1) small
  have byte : (UInt8.ofNat (low ||| 0x80)).toNat = 128 + low := by
    rw [marked, UInt8.toNat_ofNat']
    omega
  have mark : 128 + low &&& 0x80 ≠ 0 := by
    have set : (128 + low).testBit 7 = true := by
      rw [Nat.testBit_eq_decide_div_mod_eq]
      exact decide_eq_true (by omega)
    have mask : 128 + low &&& 0x80 = ((128 + low).testBit 7).toNat * 2 ^ 7 := Nat.and_two_pow _ 7
    rw [mask, set]
    decide
  have shifted : n <<< 7 % 2 ^ bits = n <<< 7 := by
    rw [Nat.shiftLeft_eq]
    exact Nat.mod_eq_of_lt (by omega)
  have rest : (128 + low) % 128 = low := by omega
  rw [readVarInt]
  simp only [byte, mark, ne_eq, not_false_eq_true, if_true]
  rw [shifted, and_low, rest, shiftLeft_or_low small, Nat.mod_eq_of_lt fits]

end Bytes

section RoundTrip

variable {bits : Nat}

/-- What is left of a number of more than seven bits has room in the bytes that are left. -/
theorem varIntRest {room n : Nat} (short : n < 2 ^ (7 * (room + 1))) (notLast : ¬ n ≤ 0x7F) :
    0 < room ∧ (n >>> 7) - 1 < 2 ^ (7 * room) ∧ (n >>> 7) - 1 + 1 = n / 128 := by
  have power : 2 ^ (7 * (room + 1)) = 2 ^ (7 * room) * 128 := by
    rw [Nat.mul_succ, Nat.pow_add]
  have quotient : n / 128 < 2 ^ (7 * room) := by
    rw [Nat.div_lt_iff_lt_mul (by decide), ← power]
    exact short
  have higher : n >>> 7 = n / 128 := Nat.shiftRight_eq_div_pow n 7
  rw [higher]
  refine ⟨?_, by omega, by omega⟩
  by_contra none
  have zero : room = 0 := by omega
  rw [zero] at short
  omega

theorem readVarInt_high {room len n : Nat} (positive : 0 < room) (short : n < 2 ^ (7 * room))
    (fits : n + 1 < 2 ^ bits) (s : Bytes) :
    readVarInt bits 0 ((varIntTmp room (len + 1) n).reverse ++ s) = readVarInt bits (n + 1) s := by
  induction room generalizing len n s with
  | zero => exact absurd positive (Nat.lt_irrefl 0)
  | succ room ih =>
    have lowest : n % 128 < 128 := Nat.mod_lt _ (by decide)
    rw [varIntTmp]
    simp only [Nat.succ_ne_zero, if_false, and_low]
    by_cases last : n ≤ 0x7F
    · have whole : n % 128 = n := Nat.mod_eq_of_lt (by omega)
      rw [if_pos last, List.reverse_singleton, List.singleton_append, whole,
        readVarInt_marked (by omega) (by omega), Nat.mul_zero, Nat.zero_add]
    · obtain ⟨roomLeft, shortRest, split⟩ := varIntRest short last
      rw [if_neg last, List.reverse_cons, List.append_assoc, List.singleton_append,
        ih roomLeft shortRest (by omega), split, readVarInt_marked lowest (by omega),
        Nat.div_add_mod]

/-- A number that was written is read back. -/
theorem readVarInt_write (positive : 0 < bits) {n : Nat} (fits : n < 2 ^ bits) (s : Bytes) :
    readVarInt bits 0 (writeVarInt bits n ++ s) = .ok (n, s) := by
  have lowest : n % 128 < 128 := Nat.mod_lt _ (by decide)
  have short : n < 2 ^ (7 * varIntRoom bits) := by
    refine lt_of_lt_of_le fits (Nat.pow_le_pow_right (by decide) ?_)
    rw [varIntRoom]
    omega
  obtain ⟨room, roomIs⟩ : ∃ room, varIntRoom bits = room + 1 := by
    refine ⟨varIntRoom bits - 1, ?_⟩
    rw [varIntRoom]
    omega
  rw [roomIs] at short
  rw [writeVarInt, roomIs, varIntTmp]
  simp only [if_true, Nat.or_zero, and_low]
  by_cases last : n ≤ 0x7F
  · have whole : n % 128 = n := Nat.mod_eq_of_lt (by omega)
    rw [if_pos last, List.reverse_singleton, List.singleton_append, whole,
      readVarInt_last (by omega) (by omega), Nat.mul_zero, Nat.zero_add]
  · obtain ⟨roomLeft, shortRest, split⟩ := varIntRest short last
    rw [if_neg last, List.reverse_cons, List.append_assoc, List.singleton_append,
      readVarInt_high roomLeft shortRest (by omega), split, readVarInt_last lowest (by omega),
      Nat.div_add_mod]

end RoundTrip

end HdacNode
