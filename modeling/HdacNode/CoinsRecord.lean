import HdacNode.Coins
import HdacNode.CompressedOutputs
import HdacNode.WrappedTotals

/-!
# The record of coins

How `CCoins` are stored: the version, one number with the flags of the first two outputs and the
number of bytes in the mask of the others that are not zero, this mask, the outputs that are not
spent, and the height.
-/

namespace HdacNode

open WrappedTotals

/-- `CTxOut()`. -/
def nullTxOut : CTxOut := ⟨-1, []⟩

/-- `CCoins` as it is in memory: spent outputs may stand anywhere, also at the end. -/
structure StoredCoins where
  fCoinBase : Bool
  vout : List CTxOut
  nHeight : Int32
  nVersion : Int32
  deriving DecidableEq

section Integers

/-- `WriteVarInt` of an `int`: a negative one is below `0x7F`. -/
def writeVarInt32 (n : Int32) : Bytes :=
  if n < 0 then [UInt8.ofNat (n.toInt % 128).toNat] else writeVarInt 32 n.toInt.toNat

/-- `GetSizeOfVarInt` of an `int`. -/
def getSizeOfVarInt32 (n : Int32) : Nat := if n < 0 then 1 else getSizeOfVarInt 32 n.toInt.toNat

/-- `ReadVarInt` of an `int`. -/
def readVarInt32 (s : Bytes) : Except RecordStop (Int32 × Bytes) :=
  (readVarInt 32 0 s).map fun (n, s) => (Int32.ofNat n, s)

theorem length_writeVarInt32 (n : Int32) : (writeVarInt32 n).length = getSizeOfVarInt32 n := by
  rw [writeVarInt32, getSizeOfVarInt32]
  split
  · rfl
  · exact length_writeVarInt _ _

theorem readVarInt32_write {n : Int32} (notNegative : 0 ≤ n) (s : Bytes) :
    readVarInt32 (writeVarInt32 n ++ s) = .ok (n, s) := by
  have nonneg : 0 ≤ n.toInt := Int32.le_iff_toInt_le.mp notNegative
  have below : n.toInt < 2 ^ 31 := n.toInt_lt
  have fits : n.toInt.toNat < 2 ^ 32 := by omega
  have positive : 0 < 32 := by decide
  have same : Int32.ofNat n.toInt.toNat = n := by
    have whole : ((n.toInt.toNat : Nat) : Int) = n.toInt := Int.toNat_of_nonneg nonneg
    rw [← Int32.ofInt_eq_ofNat, whole, Int32.ofInt_toInt]
  rw [writeVarInt32, if_neg (Int32.not_lt.mpr notNegative), readVarInt32,
    readVarInt_write positive fits]
  simp only [Except.map, same]

end Integers

section Masks

/-- `CCoins::IsAvailable`. -/
def isAvailable (vout : List CTxOut) (nPos : Nat) : Bool :=
  match vout[nPos]? with
  | none => false
  | some out => !out.isNull

/-- The byte `chAvail` of eight outputs. -/
def maskByte (available : Nat → Bool) : UInt8 :=
  (List.range 8).foldl (fun chAvail i =>
    if available i then chAvail ||| (1 : UInt8) <<< UInt8.ofNat i else chAvail) 0

/-- The bits of a byte of the mask. -/
def maskBits (chAvail : UInt8) : List Bool :=
  (List.range 8).map fun p => chAvail &&& (1 : UInt8) <<< UInt8.ofNat p ≠ 0

/-- The bits of eight outputs. -/
def availableIn (vout : List CTxOut) (b i : Nat) : Bool := isAvailable vout (2 + b * 8 + i)

/-- A turn of `CalcMaskSize`. -/
def maskTurn (vout : List CTxOut) (sizes : Nat × Nat) (b : Nat) : Nat × Nat :=
  if (List.range 8).any (availableIn vout b) then (b + 1, sizes.2 + 1) else sizes

/-- The turns of the loops over the bytes of the mask, as long as `2 + b * 8` is below the size.
They end if there are at most `2 ^ 32 - 6` outputs, as `b` has 32 bits. -/
def maskTurns (size : Nat) : Nat := (size - 2 + 7) / 8

/-- `CCoins::CalcMaskSize`: the number of bytes, and of those that are not zero. -/
def calcMaskSize (vout : List CTxOut) : Nat × Nat :=
  (List.range (maskTurns vout.length)).foldl (maskTurn vout) (0, 0)

/-- The loop of `Unserialize` over the mask. -/
def readMask : Nat → List Bool → Bytes → Except RecordStop (List Bool × Bytes)
  | 0, vAvail, s => .ok (vAvail, s)
  | _ + 1, _, [] => .error .endOfData
  | nMaskCode + 1, vAvail, chAvail :: s =>
    readMask (if chAvail ≠ 0 then nMaskCode else nMaskCode + 1) (vAvail ++ maskBits chAvail) s

theorem maskBits_maskByte (available : Nat → Bool) :
    maskBits (maskByte available) = (List.range 8).map available := by
  have all : ∀ b0 b1 b2 b3 b4 b5 b6 b7 : Bool,
      maskBits (maskByte fun i => [b0, b1, b2, b3, b4, b5, b6, b7].getD i false) =
        [b0, b1, b2, b3, b4, b5, b6, b7] := by
    decide +kernel
  exact all (available 0) (available 1) (available 2) (available 3) (available 4) (available 5)
    (available 6) (available 7)

theorem maskByte_eq_zero_iff (available : Nat → Bool) :
    maskByte available = 0 ↔ ∀ i < 8, available i = false := by
  constructor
  · intro zero i inside
    have bits := maskBits_maskByte available
    rw [zero] at bits
    have bit := congrArg (·[i]?) bits
    simp only [List.getElem?_map, List.getElem?_range inside, Option.map_some, maskBits] at bit
    simpa using bit.symm
  · intro none
    rw [maskByte]
    apply List.foldlRecOn (motive := fun chAvail => chAvail = 0)
    · rfl
    · rintro _ rfl i member
      rw [none i (List.mem_range.mp member)]
      rfl

/-- The bytes of the mask. -/
def maskBytes (vout : List CTxOut) (count : Nat) : Bytes :=
  (List.range count).map fun b => maskByte (availableIn vout b)

theorem maskBytes_succ (vout : List CTxOut) (count : Nat) :
    maskBytes vout (count + 1) = maskBytes vout count ++ [maskByte (availableIn vout count)] := by
  rw [maskBytes, List.range_succ, List.map_append]
  rfl

/-- The number of bytes that are not zero. -/
def nonzeroBytes (bytes : Bytes) : Nat := bytes.countP (· ≠ 0)

/-- What the turns of `CalcMaskSize` have found. -/
theorem maskTurn_spec (vout : List CTxOut) (turns : Nat) :
    ((List.range turns).foldl (maskTurn vout) (0, 0)).1 ≤ turns ∧
      (∀ b, ((List.range turns).foldl (maskTurn vout) (0, 0)).1 ≤ b → b < turns →
        maskByte (availableIn vout b) = 0) ∧
      (maskBytes vout ((List.range turns).foldl (maskTurn vout) (0, 0)).1).getLast? ≠ some 0 ∧
      ((List.range turns).foldl (maskTurn vout) (0, 0)).2 =
        nonzeroBytes (maskBytes vout ((List.range turns).foldl (maskTurn vout) (0, 0)).1) ∧
      ((List.range turns).foldl (maskTurn vout) (0, 0)).2 =
        nonzeroBytes (maskBytes vout turns) := by
  induction turns with
  | zero => exact ⟨le_rfl, nofun, nofun, rfl, rfl⟩
  | succ turns ih =>
    rw [List.range_succ, List.foldl_append, List.foldl_cons, List.foldl_nil]
    generalize (List.range turns).foldl (maskTurn vout) (0, 0) = sizes at ih ⊢
    obtain ⟨atMost, zero, last, count, whole⟩ := ih
    have counted : nonzeroBytes (maskBytes vout (turns + 1)) =
        nonzeroBytes (maskBytes vout turns) +
          if maskByte (availableIn vout turns) = 0 then 0 else 1 := by
      rw [maskBytes_succ, nonzeroBytes, List.countP_append]
      by_cases none : maskByte (availableIn vout turns) = 0 <;> simp [none, nonzeroBytes]
    rw [maskTurn]
    by_cases any : (List.range 8).any (availableIn vout turns) = true
    · have nonzero : maskByte (availableIn vout turns) ≠ 0 := by
        intro none
        obtain ⟨i, member, available⟩ := List.any_eq_true.mp any
        rw [(maskByte_eq_zero_iff _).mp none i (List.mem_range.mp member)] at available
        cases available
      rw [if_neg nonzero] at counted
      rw [if_pos any]
      refine ⟨le_rfl, fun b above below => absurd below (by omega), ?_, ?_, ?_⟩
      · rw [maskBytes_succ, List.getLast?_append]
        simpa using nonzero
      · rw [counted, whole]
      · rw [counted, whole]
    · have none : maskByte (availableIn vout turns) = 0 := by
        apply (maskByte_eq_zero_iff _).mpr
        intro i inside
        by_contra available
        exact any (List.any_eq_true.mpr ⟨i, List.mem_range.mpr inside, by simpa using available⟩)
      rw [if_pos none] at counted
      rw [if_neg any]
      refine ⟨by omega, fun b above below => ?_, last, count, whole.trans counted.symm⟩
      rcases Nat.lt_succ_iff_lt_or_eq.mp below with before | rfl
      · exact zero b above before
      · exact none

/-- The mask reaches up to its last byte that is not zero. -/
theorem calcMaskSize_spec (vout : List CTxOut) :
    (∀ b, (calcMaskSize vout).1 ≤ b → b < maskTurns vout.length →
        maskByte (availableIn vout b) = 0) ∧
      (maskBytes vout (calcMaskSize vout).1).getLast? ≠ some 0 ∧
      (calcMaskSize vout).2 = nonzeroBytes (maskBytes vout (calcMaskSize vout).1) ∧
      (calcMaskSize vout).2 ≤ maskTurns vout.length := by
  obtain ⟨-, zero, last, count, whole⟩ := maskTurn_spec vout (maskTurns vout.length)
  have bounded : nonzeroBytes (maskBytes vout (maskTurns vout.length)) ≤
      (maskBytes vout (maskTurns vout.length)).length := List.countP_le_length
  rw [maskBytes, List.length_map, List.length_range] at bounded
  exact ⟨zero, last, count, whole.trans_le bounded⟩

theorem readMask_bytes {bytes : Bytes} (last : bytes.getLast? ≠ some 0) (vAvail : List Bool)
    (s : Bytes) :
    readMask (nonzeroBytes bytes) vAvail (bytes ++ s) =
      .ok (vAvail ++ bytes.flatMap maskBits, s) := by
  induction bytes generalizing vAvail with
  | nil => simp [nonzeroBytes, readMask]
  | cons byte bytes ih =>
    have lastRest : bytes.getLast? ≠ some 0 := by
      cases bytes with
      | nil => exact nofun
      | cons next bytes => rwa [List.getLast?_cons_cons] at last
    have rest := ih lastRest (vAvail ++ maskBits byte)
    rw [List.append_assoc] at rest
    by_cases zero : byte = 0
    · subst zero
      have some : 0 < nonzeroBytes bytes := by
        cases bytes with
        | nil => exact absurd rfl last
        | cons next bytes =>
          rw [nonzeroBytes, List.countP_pos_iff]
          have member := List.getLast_mem (List.cons_ne_nil next bytes)
          refine ⟨_, member, ?_⟩
          rw [List.getLast?_eq_getLast_of_ne_nil (List.cons_ne_nil next bytes)] at lastRest
          simpa using lastRest
      obtain ⟨count, isCount⟩ : ∃ count, nonzeroBytes bytes = count + 1 :=
        ⟨nonzeroBytes bytes - 1, by omega⟩
      have counted : nonzeroBytes (0 :: bytes) = nonzeroBytes bytes := by simp [nonzeroBytes]
      rw [counted, isCount, List.cons_append, readMask, List.flatMap_cons]
      rw [isCount] at rest
      simpa using rest
    · have counted : nonzeroBytes (byte :: bytes) = nonzeroBytes bytes + 1 := by
        simp [nonzeroBytes, zero]
      rw [counted, List.cons_append, readMask, List.flatMap_cons, if_pos zero]
      exact rest

theorem flatMap_maskBits (vout : List CTxOut) (count : Nat) :
    [isAvailable vout 0, isAvailable vout 1] ++ (maskBytes vout count).flatMap maskBits =
      (List.range (2 + 8 * count)).map (isAvailable vout) := by
  induction count with
  | zero => rfl
  | succ count ih =>
    have more : List.range (2 + 8 * (count + 1)) =
        List.range (2 + 8 * count) ++ (List.range 8).map (2 + 8 * count + ·) := by
      rw [← List.range_add, Nat.mul_succ, Nat.add_assoc]
    rw [maskBytes_succ, List.flatMap_append, List.flatMap_singleton, ← List.append_assoc, ih,
      maskBits_maskByte, more, List.map_append, List.map_map]
    congr 1
    apply List.map_congr_left
    intro i _
    rw [availableIn, Function.comp_apply, Nat.mul_comm]

end Masks

/-- `nCode`, of 32 bits: the flags, and the number of bytes that are not zero. -/
def headerCode (nMaskCode : Nat) (fCoinBase fFirst fSecond : Bool) : Nat :=
  (8 * (nMaskCode - if fFirst || fSecond then 0 else 1) + (if fCoinBase then 1 else 0) +
    (if fFirst then 2 else 0) + if fSecond then 4 else 0) % 2 ^ 32

section Records

variable (curve : KeyCurve)

/-- `CTxOutCompressor::Serialize`. -/
def serializeOut (out : CTxOut) : Except RecordStop Bytes :=
  (compressAmount (out.nValue % 2 ^ 64).toNat).map fun nVal =>
    writeVarInt 64 nVal ++ serializeScript curve out.scriptPubKey

/-- `CTxOutCompressor::Unserialize` over `CTxOut()`. -/
def unserializeOut (s : Bytes) : Except RecordStop (CTxOut × Bytes) := do
  let (nVal, s) ← readVarInt 64 0 s
  let (script, s) ← unserializeScript curve nullTxOut.scriptPubKey s
  return (⟨toInt64 (decompressAmount nVal), script⟩, s)

/-- The outputs that are not spent. -/
def serializeOuts : List CTxOut → Except RecordStop Bytes
  | [] => .ok []
  | out :: vout =>
    if out.isNull then serializeOuts vout
    else do
      let first ← serializeOut curve out
      let rest ← serializeOuts vout
      return first ++ rest

/-- The sizes of the outputs that are not spent, as a `CSizeComputer` adds them up. -/
def getSerializeSizeOuts : List CTxOut → Except RecordStop Nat
  | [] => .ok 0
  | out :: vout =>
    if out.isNull then getSerializeSizeOuts vout
    else do
      let first ← serializeOut curve out
      let rest ← getSerializeSizeOuts vout
      return first.length + rest

/-- Read an output for each bit that is set. -/
def unserializeOuts : List Bool → Bytes → Except RecordStop (List CTxOut × Bytes)
  | [], s => .ok ([], s)
  | false :: vAvail, s => do
    let (vout, s) ← unserializeOuts vAvail s
    return (nullTxOut :: vout, s)
  | true :: vAvail, s => do
    let (out, s) ← unserializeOut curve s
    let (vout, s) ← unserializeOuts vAvail s
    return (out :: vout, s)

namespace StoredCoins

/-- `CCoins::Cleanup`. -/
def cleanup (coins : StoredCoins) : StoredCoins :=
  { coins with vout := coins.vout.rdropWhile CTxOut.isNull }

/-- The header code of coins. -/
def nCode (coins : StoredCoins) (nMaskCode : Nat) : Nat :=
  headerCode nMaskCode coins.fCoinBase (isAvailable coins.vout 0) (isAvailable coins.vout 1)

/-- The assertion of `Serialize` and `GetSerializeSize`. -/
def hasOutputs (coins : StoredCoins) (nMaskCode : Nat) : Bool :=
  isAvailable coins.vout 0 || isAvailable coins.vout 1 || nMaskCode ≠ 0

/-- `CCoins::Serialize`. -/
def serialize (coins : StoredCoins) : Except RecordStop Bytes :=
  let (nMaskSize, nMaskCode) := calcMaskSize coins.vout
  if !coins.hasOutputs nMaskCode then .error .assertion
  else do
    let outs ← serializeOuts curve coins.vout
    return writeVarInt32 coins.nVersion ++ (writeVarInt 32 (coins.nCode nMaskCode) ++
      (maskBytes coins.vout nMaskSize ++ (outs ++ writeVarInt32 coins.nHeight)))

/-- `CCoins::GetSerializeSize`, of 32 bits. -/
def getSerializeSize (coins : StoredCoins) : Except RecordStop Nat :=
  let (nMaskSize, nMaskCode) := calcMaskSize coins.vout
  if !coins.hasOutputs nMaskCode then .error .assertion
  else do
    let outs ← getSerializeSizeOuts curve coins.vout
    return (getSizeOfVarInt32 coins.nVersion + getSizeOfVarInt 32 (coins.nCode nMaskCode) +
      nMaskSize + outs + getSizeOfVarInt32 coins.nHeight) % 2 ^ 32

/-- `CCoins::Unserialize`. -/
def unserialize (s : Bytes) : Except RecordStop (StoredCoins × Bytes) := do
  let (nVersion, s) ← readVarInt32 s
  let (nCode, s) ← readVarInt 32 0 s
  let fCoinBase : Bool := nCode &&& 1 ≠ 0
  let vAvail : List Bool := [nCode &&& 2 ≠ 0, nCode &&& 4 ≠ 0]
  let nMaskCode := nCode / 8 + if nCode &&& 6 ≠ 0 then 0 else 1
  let (vAvail, s) ← readMask nMaskCode vAvail s
  let (vout, s) ← unserializeOuts curve vAvail s
  let (nHeight, s) ← readVarInt32 s
  return (cleanup ⟨fCoinBase, vout, nHeight, nVersion⟩, s)

end StoredCoins

end Records

section Outputs

variable {curve : KeyCurve}

/-- An amount that outputs may have, or the spent output. -/
def IsSpentOrMoney (out : CTxOut) : Prop :=
  out = nullTxOut ∨ (0 ≤ out.nValue ∧ out.nValue ≤ maxMoney)

theorem isNull_of_money {out : CTxOut} (money : 0 ≤ out.nValue) : out.isNull = false := by
  rw [CTxOut.isNull]
  exact decide_eq_false (by omega)

theorem unserializeOut_serialize (lawful : curve.Lawful) {out : CTxOut}
    (money : 0 ≤ out.nValue ∧ out.nValue ≤ maxMoney)
    (short : out.scriptPubKey.length + nSpecialScripts < 2 ^ 32) :
    ∃ bytes, serializeOut curve out = .ok bytes ∧
      ∀ s, unserializeOut curve (bytes ++ s) = .ok (out, s) := by
  obtain ⟨nonneg, notAbove⟩ := money
  have limit : out.nValue ≤ 1000000000000000000 := notAbove
  have word : (out.nValue % 2 ^ 64).toNat = out.nValue.toNat := by omega
  have atMost : out.nValue.toNat ≤ maxMoney := by omega
  obtain ⟨nVal, compressed, fits, back⟩ := compressAmount_spec atMost
  have positive : 0 < 64 := by decide
  have value : toInt64 ((out.nValue.toNat : Nat) : Int) = out.nValue := by
    rw [toInt64, Int.toNat_of_nonneg nonneg]
    exact Int.bmod_eq_of_le (by omega) (by omega)
  refine ⟨_, by rw [serializeOut, word, compressed]; rfl, fun s => ?_⟩
  rw [List.append_assoc, unserializeOut, readVarInt_write positive fits]
  simp only [bind, Except.bind, unserializeScript_serialize lawful short, back, value]
  rfl

theorem unserializeOuts_serialize (lawful : curve.Lawful) (vout : List CTxOut)
    (money : ∀ out ∈ vout, IsSpentOrMoney out)
    (short : ∀ out ∈ vout, out.scriptPubKey.length + nSpecialScripts < 2 ^ 32) :
    ∃ bytes, serializeOuts curve vout = .ok bytes ∧
      getSerializeSizeOuts curve vout = .ok bytes.length ∧
      ∀ s, unserializeOuts curve (vout.map (!·.isNull)) (bytes ++ s) = .ok (vout, s) := by
  induction vout with
  | nil => exact ⟨[], rfl, rfl, fun s => rfl⟩
  | cons out vout ih =>
    obtain ⟨moneyFirst, moneyRest⟩ := List.forall_mem_cons.mp money
    obtain ⟨shortFirst, shortRest⟩ := List.forall_mem_cons.mp short
    obtain ⟨rest, written, size, read⟩ := ih moneyRest shortRest
    rcases moneyFirst with rfl | moneyFirst
    · have null : nullTxOut.isNull = true := rfl
      refine ⟨rest, ?_, ?_, fun s => ?_⟩
      · rw [serializeOuts, if_pos null, written]
      · rw [getSerializeSizeOuts, if_pos null, size]
      · rw [List.map_cons, null, Bool.not_true, unserializeOuts, read]
        rfl
    · have notNull := isNull_of_money moneyFirst.1
      have isFalse : ¬ (out.isNull = true) := by rw [notNull]; exact Bool.noConfusion
      obtain ⟨first, writtenFirst, readFirst⟩ :=
        unserializeOut_serialize lawful moneyFirst shortFirst
      refine ⟨first ++ rest, ?_, ?_, fun s => ?_⟩
      · rw [serializeOuts, if_neg isFalse, writtenFirst, written]
        rfl
      · rw [getSerializeSizeOuts, if_neg isFalse, writtenFirst, size, List.length_append]
        rfl
      · rw [List.map_cons, notNull, Bool.not_false, unserializeOuts, List.append_assoc, readFirst]
        simp only [bind, Except.bind, read]
        rfl

theorem serializeOuts_append_null (vout : List CTxOut) (count : Nat) :
    serializeOuts curve (vout ++ List.replicate count nullTxOut) = serializeOuts curve vout := by
  induction vout with
  | nil =>
    induction count with
    | zero => rfl
    | succ count ih =>
      rw [List.nil_append] at ih ⊢
      rw [List.replicate_succ, ← ih]
      exact if_pos rfl
  | cons out vout ih => rw [List.cons_append, serializeOuts, ih, serializeOuts]

theorem getSerializeSizeOuts_append_null (vout : List CTxOut) (count : Nat) :
    getSerializeSizeOuts curve (vout ++ List.replicate count nullTxOut) =
      getSerializeSizeOuts curve vout := by
  induction vout with
  | nil =>
    induction count with
    | zero => rfl
    | succ count ih =>
      rw [List.nil_append] at ih ⊢
      rw [List.replicate_succ, ← ih]
      exact if_pos rfl
  | cons out vout ih => rw [List.cons_append, getSerializeSizeOuts, ih, getSerializeSizeOuts]

theorem rdropWhile_append_null (vout : List CTxOut) (count : Nat) :
    (vout ++ List.replicate count nullTxOut).rdropWhile CTxOut.isNull =
      vout.rdropWhile CTxOut.isNull := by
  induction count with
  | zero => rw [List.replicate_zero, List.append_nil]
  | succ count ih =>
    rw [List.replicate_succ', ← List.append_assoc, List.rdropWhile_concat_pos _ _ _ rfl, ih]

end Outputs

section Places

variable {vout : List CTxOut}

theorem isAvailable_eq (nPos : Nat) : isAvailable vout nPos = !(vout.getD nPos nullTxOut).isNull := by
  rw [isAvailable, List.getD_eq_getElem?_getD]
  cases vout[nPos]? <;> rfl

/-- No output behind the mask is available. -/
theorem isAvailable_behind {nPos : Nat} (behind : 2 + 8 * (calcMaskSize vout).1 ≤ nPos) :
    isAvailable vout nPos = false := by
  obtain ⟨zero, -⟩ := calcMaskSize_spec vout
  by_cases inside : nPos < vout.length
  · have byte : (nPos - 2) / 8 < maskTurns vout.length := by
      rw [maskTurns]
      omega
    have from8 : (calcMaskSize vout).1 ≤ (nPos - 2) / 8 := by omega
    have none := (maskByte_eq_zero_iff _).mp (zero _ from8 byte) ((nPos - 2) % 8)
      (Nat.mod_lt _ (by decide))
    have place : 2 + (nPos - 2) / 8 * 8 + (nPos - 2) % 8 = nPos := by omega
    rwa [availableIn, place] at none
  · rw [isAvailable, List.getElem?_eq_none (Nat.not_lt.mp inside)]

/-- The outputs that have a place in the mask. -/
def placesOf (vout : List CTxOut) (count : Nat) : List CTxOut :=
  (List.range count).map fun nPos => vout.getD nPos nullTxOut

theorem placesOf_append_null (spent : ∀ out ∈ vout, out.isNull → out = nullTxOut) :
    placesOf vout (2 + 8 * (calcMaskSize vout).1) ++
        List.replicate (vout.length - (2 + 8 * (calcMaskSize vout).1)) nullTxOut =
      vout ++ List.replicate (2 + 8 * (calcMaskSize vout).1 - vout.length) nullTxOut := by
  have behind := @isAvailable_behind vout
  generalize 2 + 8 * (calcMaskSize vout).1 = count at behind ⊢
  apply List.ext_getElem
  · simp only [placesOf, List.length_append, List.length_map, List.length_range,
      List.length_replicate]
    omega
  · intro nPos inside inside'
    have left : (placesOf vout count ++ List.replicate (vout.length - count) nullTxOut)[nPos] =
        vout.getD nPos nullTxOut := by
      rw [List.getElem_append]
      split
      · simp only [placesOf, List.getElem_map, List.getElem_range]
      · rename_i notBefore
        rw [List.getElem_replicate]
        have here : count ≤ nPos := by simpa [placesOf] using notBefore
        have notAvailable := behind here
        rw [isAvailable_eq, Bool.not_eq_false'] at notAvailable
        rw [List.getD_eq_getElem?_getD] at notAvailable ⊢
        cases out? : vout[nPos]? with
        | none => rfl
        | some out =>
          rw [out?] at notAvailable
          exact (spent out (List.mem_of_getElem? out?) notAvailable).symm
    have right : (vout ++ List.replicate (count - vout.length) nullTxOut)[nPos] =
        vout.getD nPos nullTxOut := by
      rw [List.getElem_append]
      split
      · rename_i before
        rw [List.getD_eq_getElem _ _ before]
      · rename_i notBefore
        rw [List.getElem_replicate, List.getD_eq_default _ _ (Nat.not_lt.mp notBefore)]
    rw [left, right]

theorem map_isAvailable (count : Nat) :
    (List.range count).map (isAvailable vout) = (placesOf vout count).map (!·.isNull) := by
  rw [placesOf, List.map_map]
  exact List.map_congr_left fun nPos _ => isAvailable_eq nPos

theorem mem_placesOf {count : Nat} {out : CTxOut} (member : out ∈ placesOf vout count) :
    out ∈ vout ∨ out = nullTxOut := by
  obtain ⟨nPos, -, rfl⟩ := List.mem_map.mp member
  rw [List.getD_eq_getElem?_getD]
  cases out? : vout[nPos]? with
  | none => exact Or.inr rfl
  | some out => exact Or.inl (List.mem_of_getElem? out?)

end Places

section Headers

theorem packedFlags (number : Nat) (fCoinBase fFirst fSecond : Bool) :
    ∃ flags, flags < 8 ∧ 8 * number + (if fCoinBase then 1 else 0) + (if fFirst then 2 else 0) +
        (if fSecond then 4 else 0) = 8 * number + flags ∧
      decide (flags &&& 1 ≠ 0) = fCoinBase ∧ decide (flags &&& 2 ≠ 0) = fFirst ∧
      decide (flags &&& 4 ≠ 0) = fSecond ∧ (flags &&& 6 ≠ 0 ↔ (fFirst || fSecond) = true) := by
  refine ⟨(if fCoinBase then 1 else 0) + (if fFirst then 2 else 0) + (if fSecond then 4 else 0),
    ?_, by ring, ?_⟩
  · cases fCoinBase <;> cases fFirst <;> cases fSecond <;> decide
  · cases fCoinBase <;> cases fFirst <;> cases fSecond <;> decide

theorem and_flags (number flags : Nat) {mask : Nat} (small : mask < 8) :
    (8 * number + flags) &&& mask = flags % 8 &&& mask := by
  have below : (8 * number + flags) &&& mask < 2 ^ 3 := Nat.and_lt_two_pow _ small
  have power : 2 ^ 3 = 8 := rfl
  calc (8 * number + flags) &&& mask = ((8 * number + flags) &&& mask) % 2 ^ 3 :=
        (Nat.mod_eq_of_lt below).symm
    _ = (8 * number + flags) % 2 ^ 3 &&& mask % 2 ^ 3 := Nat.and_mod_two_pow
    _ = flags % 8 &&& mask := by rw [power, Nat.mod_eq_of_lt small, Nat.mul_add_mod]

theorem headerCode_spec {nMaskCode : Nat} (few : nMaskCode < 2 ^ 29) (fCoinBase fFirst fSecond : Bool)
    (asserted : (fFirst || fSecond || decide (nMaskCode ≠ 0)) = true) :
    headerCode nMaskCode fCoinBase fFirst fSecond < 2 ^ 32 ∧
      decide (headerCode nMaskCode fCoinBase fFirst fSecond &&& 1 ≠ 0) = fCoinBase ∧
      decide (headerCode nMaskCode fCoinBase fFirst fSecond &&& 2 ≠ 0) = fFirst ∧
      decide (headerCode nMaskCode fCoinBase fFirst fSecond &&& 4 ≠ 0) = fSecond ∧
      (headerCode nMaskCode fCoinBase fFirst fSecond / 8 +
        if headerCode nMaskCode fCoinBase fFirst fSecond &&& 6 ≠ 0 then 0 else 1) = nMaskCode := by
  obtain ⟨flags, small, sum, base, first, second, either⟩ := packedFlags
    (nMaskCode - if fFirst || fSecond then 0 else 1) fCoinBase fFirst fSecond
  have notMore : nMaskCode - (if fFirst || fSecond then 0 else 1) ≤ nMaskCode := Nat.sub_le _ _
  have again : nMaskCode - (if fFirst || fSecond then 0 else 1) +
      (if fFirst || fSecond then 0 else 1) = nMaskCode := by
    cases known : fFirst || fSecond with
    | true => rfl
    | false =>
      rw [known] at asserted
      have some : nMaskCode ≠ 0 := of_decide_eq_true asserted
      rw [if_neg Bool.noConfusion]
      omega
  rw [headerCode, sum]
  generalize nMaskCode - (if fFirst || fSecond then 0 else 1) = number at notMore again
  rw [Nat.mod_eq_of_lt (by omega), and_flags number flags (by decide : 1 < 8),
    and_flags number flags (by decide : 2 < 8), and_flags number flags (by decide : 4 < 8),
    and_flags number flags (by decide : 6 < 8), Nat.mod_eq_of_lt small]
  refine ⟨by omega, base, first, second, ?_⟩
  have quotient : (8 * number + flags) / 8 = number := by omega
  rw [quotient]
  simp only [either]
  exact again

end Headers

namespace StoredCoins

variable {curve : KeyCurve} {coins : StoredCoins}

/-- Coins that are not pruned, with spent outputs and amounts of money, of a height and a version
that are not negative. -/
structure Storable (coins : StoredCoins) : Prop where
  notPruned : ∃ out ∈ coins.vout, out.isNull = false
  outputs : ∀ out ∈ coins.vout, IsSpentOrMoney out
  nHeight : 0 ≤ coins.nHeight
  nVersion : 0 ≤ coins.nVersion

/-- The sizes have room in 32 bits. -/
structure Sized (coins : StoredCoins) : Prop where
  outputs : coins.vout.length ≤ 2 ^ 32 - 6
  scripts : ∀ out ∈ coins.vout, out.scriptPubKey.length + nSpecialScripts < 2 ^ 32

/-- Coins that are not pruned pass the assertion. -/
theorem Storable.hasOutputs (storable : coins.Storable) :
    coins.hasOutputs (calcMaskSize coins.vout).2 = true := by
  by_contra none
  simp only [StoredCoins.hasOutputs, Bool.or_eq_true, decide_eq_true_eq, not_or,
    Bool.not_eq_true, not_not] at none
  obtain ⟨⟨first, second⟩, noByte⟩ := none
  obtain ⟨-, last, count, -⟩ := calcMaskSize_spec coins.vout
  have noBytes : (calcMaskSize coins.vout).1 = 0 := by
    generalize (calcMaskSize coins.vout).1 = size at last count
    cases size with
    | zero => rfl
    | succ size =>
      rw [noByte] at count
      have allZero := List.countP_eq_zero.mp count.symm
      rw [maskBytes_succ] at last allZero
      have lastZero := allZero (maskByte (availableIn coins.vout size)) (by simp)
      simp only [decide_eq_true_eq, not_not] at lastZero
      rw [lastZero] at last
      simp at last
  obtain ⟨out, member, notNull⟩ := storable.notPruned
  obtain ⟨nPos, out?⟩ := List.mem_iff_getElem?.mp member
  have available : isAvailable coins.vout nPos = true := by
    rw [isAvailable, out?]
    simp only [notNull, Bool.not_false]
  have behind : nPos < 2 := by
    by_contra above
    rw [isAvailable_behind (by rw [noBytes]; omega)] at available
    cases available
  rcases Nat.lt_succ_iff_lt_or_eq.mp behind with zeroth | rfl
  · rw [Nat.lt_one_iff.mp zeroth, first] at available
    cases available
  · rw [second] at available
    cases available

/-- Coins are written, and come back without the spent outputs at their end; and the size is the
number of bytes that are written, in 32 bits. -/
theorem unserialize_serialize (lawful : curve.Lawful) (storable : coins.Storable)
    (sized : coins.Sized) :
    ∃ bytes, coins.serialize curve = .ok bytes ∧
      (∀ s, unserialize curve (bytes ++ s) = .ok (coins.cleanup, s)) ∧
      coins.getSerializeSize curve = .ok (bytes.length % 2 ^ 32) := by
  have asserted := storable.hasOutputs
  have spent : ∀ out ∈ coins.vout, out.isNull → out = nullTxOut := by
    intro out member null
    rcases storable.outputs out member with rfl | money
    · rfl
    · rw [isNull_of_money money.1] at null
      cases null
  have nullScript : nullTxOut.scriptPubKey.length + nSpecialScripts < 2 ^ 32 := by decide
  have behindMask := placesOf_append_null spent
  obtain ⟨outs, written, size, read⟩ := unserializeOuts_serialize lawful
    (placesOf coins.vout (2 + 8 * (calcMaskSize coins.vout).1))
    (fun out member => (mem_placesOf member).elim (storable.outputs out) Or.inl)
    (fun out member => (mem_placesOf member).elim (sized.scripts out) fun null => null ▸ nullScript)
  rw [← serializeOuts_append_null _ (coins.vout.length - (2 + 8 * (calcMaskSize coins.vout).1)),
    behindMask, serializeOuts_append_null] at written
  rw [← getSerializeSizeOuts_append_null _
    (coins.vout.length - (2 + 8 * (calcMaskSize coins.vout).1)), behindMask,
    getSerializeSizeOuts_append_null] at size
  have cleaned : (placesOf coins.vout (2 + 8 * (calcMaskSize coins.vout).1)).rdropWhile
      CTxOut.isNull = coins.vout.rdropWhile CTxOut.isNull := by
    rw [← rdropWhile_append_null _ (coins.vout.length - (2 + 8 * (calcMaskSize coins.vout).1)),
      behindMask, rdropWhile_append_null]
  obtain ⟨-, last, count, bytes⟩ := calcMaskSize_spec coins.vout
  have few : (calcMaskSize coins.vout).2 < 2 ^ 29 := by
    have outputs := sized.outputs
    rw [maskTurns] at bytes
    omega
  obtain ⟨codeFits, base, first, second, maskCode⟩ := headerCode_spec few coins.fCoinBase
    (isAvailable coins.vout 0) (isAvailable coins.vout 1) asserted
  have positive : 0 < 32 := by decide
  refine ⟨writeVarInt32 coins.nVersion ++ (writeVarInt 32 (coins.nCode (calcMaskSize coins.vout).2) ++
    (maskBytes coins.vout (calcMaskSize coins.vout).1 ++ (outs ++ writeVarInt32 coins.nHeight))),
    ?_, fun s => ?_, ?_⟩
  · rw [serialize]
    simp only [asserted, Bool.not_true, Bool.false_eq_true, if_false, written, bind, Except.bind]
    rfl
  · simp only [List.append_assoc]
    rw [unserialize, readVarInt32_write storable.nVersion]
    simp only [bind, Except.bind]
    rw [nCode, readVarInt_write positive codeFits]
    simp only [base, first, second, maskCode]
    rw [count, readMask_bytes last]
    simp only [flatMap_maskBits, map_isAvailable, read]
    rw [readVarInt32_write storable.nHeight]
    simp only [cleanup, cleaned]
    rfl
  · rw [getSerializeSize]
    simp only [asserted, Bool.not_true, Bool.false_eq_true, if_false, size, bind, Except.bind]
    simp only [List.length_append, length_writeVarInt32, length_writeVarInt, maskBytes,
      List.length_map, List.length_range]
    refine congrArg (fun size => Except.ok (size % 2 ^ 32)) ?_
    omega

theorem serializeScript_long {script : Bytes} (length : script.length = 2 ^ 32 - 6) :
    serializeScript curve script = 0 :: script := by
  have notKey : isToKeyID script = none := by
    rw [isToKeyID, length]
    exact if_neg fun form => absurd form.1 (by decide)
  have notScript : isToScriptID script = none := by
    rw [isToScriptID, length]
    exact if_neg fun form => absurd form.1 (by decide)
  have notPubKey : isToPubKey curve script = none := by
    rw [isToPubKey, length]
    rw [if_neg fun form => absurd form.1 (by decide)]
    exact if_neg fun form => absurd form.1 (by decide)
  have size : writeVarInt 32 ((2 ^ 32 - 6 + nSpecialScripts) % 2 ^ 32) = [0] := by decide
  rw [serializeScript, compressScript, notKey, notScript, notPubKey]
  simp only
  rw [length, size]
  rfl

/-- The record of such a script is read as that of a key hash, and a height is found in the
script. -/
theorem unserialize_long {data rest : Bytes} (length : data.length = 20) :
    ∃ read s, unserialize curve (0 :: 2 :: 0 :: 0 :: (data ++ 0x61 :: rest)) = .ok (read, s) ∧
      read.nHeight = 0x61 := by
  have script : unserializeScript curve [] (0 :: (data ++ 0x61 :: rest)) =
      .ok (opDup :: opHash160 :: 20 :: (data ++ [opEqualVerify, opCheckSig]), 0x61 :: rest) :=
    unserializeScript_special 0 (by decide) length rfl
  have out : unserializeOut curve (0 :: 0 :: (data ++ 0x61 :: rest)) =
      .ok (⟨0, opDup :: opHash160 :: 20 :: (data ++ [opEqualVerify, opCheckSig])⟩,
        0x61 :: rest) := by
    have amount : readVarInt 64 0 (0 :: 0 :: (data ++ 0x61 :: rest)) =
      .ok (0, 0 :: (data ++ 0x61 :: rest)) := rfl
    rw [unserializeOut, amount]
    simp only [bind, Except.bind]
    rw [nullTxOut, script]
    rfl
  have version : readVarInt32 (0 :: 2 :: 0 :: 0 :: (data ++ 0x61 :: rest)) =
    .ok (0, 2 :: 0 :: 0 :: (data ++ 0x61 :: rest)) := rfl
  have code : readVarInt 32 0 (2 :: 0 :: 0 :: (data ++ 0x61 :: rest)) =
    .ok (2, 0 :: 0 :: (data ++ 0x61 :: rest)) := rfl
  have bytes : (2 / 8 + if 2 &&& 6 ≠ 0 then 0 else 1) = 0 := by decide
  have flags : [decide (2 &&& 2 ≠ 0), decide (2 &&& 4 ≠ 0)] = [true, false] := by decide
  have height : readVarInt32 (0x61 :: rest) = .ok (0x61, rest) := rfl
  rw [unserialize, version]
  simp only [bind, Except.bind]
  rw [code]
  simp only [bytes, flags, readMask, unserializeOuts, out, bind, Except.bind, pure, Except.pure,
    height]
  exact ⟨_, _, rfl, rfl⟩

/-- Coins of one output without an amount. -/
def ofScript (script : Bytes) : StoredCoins := ⟨false, [⟨0, script⟩], 0, 0⟩

theorem storable_ofScript (script : Bytes) : (ofScript script).Storable where
  notPruned := ⟨_, List.mem_singleton_self _, rfl⟩
  outputs out member := by
    rw [List.mem_singleton.mp member]
    exact Or.inr ⟨le_rfl, Int.natCast_nonneg _⟩
  nHeight := (by decide : (0 : Int32) ≤ 0)
  nVersion := (by decide : (0 : Int32) ≤ 0)

theorem serialize_ofScript {script : Bytes} (length : script.length = 2 ^ 32 - 6) :
    (ofScript script).serialize curve = .ok (0 :: 2 :: 0 :: 0 :: (script ++ [0])) := by
  have out : serializeOut curve ⟨0, script⟩ = .ok (0 :: 0 :: script) := by
    have amount : compressAmount ((0 : Int) % 2 ^ 64).toNat = .ok 0 := rfl
    rw [serializeOut, amount, Except.map, serializeScript_long length]
    rfl
  have outs : serializeOuts curve [⟨0, script⟩] = .ok (0 :: 0 :: (script ++ [])) := by
    have notNull : ¬ ((⟨0, script⟩ : CTxOut).isNull = true) := by
      rw [isNull_of_money le_rfl]
      exact Bool.noConfusion
    rw [serializeOuts, if_neg notNull, out]
    rfl
  have mask : calcMaskSize (ofScript script).vout = (0, 0) := by
    have turns : maskTurns 1 = 0 := by decide
    rw [calcMaskSize, ofScript, List.length_singleton, turns]
    rfl
  have asserted : (ofScript script).hasOutputs 0 = true := rfl
  have zero : writeVarInt32 0 = [0] := by decide
  have code : writeVarInt 32 (headerCode 0 false true false) = [2] := by decide
  have codeIs : (ofScript script).nCode 0 = headerCode 0 false true false := rfl
  rw [List.append_nil] at outs
  rw [serialize, mask]
  simp only [asserted, Bool.not_true, Bool.false_eq_true, if_false, codeIs, code]
  simp only [ofScript, outs, zero]
  rfl

/-- A script whose size is the first to have no room in 32 bits does not come back. -/
theorem not_unserialize_serialize_longScript :
    ¬ ∀ (curve : KeyCurve) (coins : StoredCoins), curve.Lawful → coins.Storable →
      ∃ bytes, coins.serialize curve = .ok bytes ∧
        unserialize curve bytes = .ok (coins.cleanup, []) ∧
        coins.getSerializeSize curve = .ok bytes.length := by
  intro all
  have keyless : (⟨fun _ => false, fun _ => none⟩ : KeyCurve).Lawful :=
    fun _ _ _ _ valid => Bool.noConfusion valid
  obtain ⟨count, long⟩ : ∃ count, 20 + (count + 1) = 2 ^ 32 - 6 := ⟨2 ^ 32 - 27, by norm_num⟩
  have parts : List.replicate (20 + (count + 1)) (0x61 : UInt8) =
      List.replicate 20 0x61 ++ 0x61 :: List.replicate count 0x61 := by
    rw [← List.replicate_succ, List.replicate_append_replicate]
  have length : (List.replicate (20 + (count + 1)) (0x61 : UInt8)).length = 2 ^ 32 - 6 := by
    rw [List.length_replicate, long]
  obtain ⟨bytes, written, read, -⟩ := all _ _ keyless
    (storable_ofScript (List.replicate (20 + (count + 1)) 0x61))
  rw [serialize_ofScript length, parts, List.append_assoc, List.cons_append] at written
  have data : (List.replicate 20 (0x61 : UInt8)).length = 20 := List.length_replicate
  obtain ⟨other, s, readIs, height⟩ :=
    @unserialize_long ⟨fun _ => false, fun _ => none⟩ _ (List.replicate count 0x61 ++ [0]) data
  cases written
  rw [readIs] at read
  have heights := congrArg (fun result => result.toOption.map fun read => read.1.nHeight) read
  simp only [Except.toOption, Option.map_some, height] at heights
  exact absurd (Option.some.inj heights) (by decide : ¬ (0x61 : Int32) = 0)

/-- Coins whose sizes have room in 32 bits come back from their record, and `GetSerializeSize` is
the number of bytes that are written, in 32 bits. -/
theorem coinsRecord_roundTrip (lawful : curve.Lawful) (storable : coins.Storable)
    (sized : coins.Sized) :
    ∃ bytes, coins.serialize curve = .ok bytes ∧
      (∀ s, unserialize curve (bytes ++ s) = .ok (coins.cleanup, s)) ∧
      coins.getSerializeSize curve = .ok (bytes.length % 2 ^ 32) ∧
      (bytes.length < 2 ^ 32 → coins.getSerializeSize curve = .ok bytes.length) := by
  obtain ⟨bytes, written, read, size⟩ := unserialize_serialize lawful storable sized
  refine ⟨bytes, written, read, size, fun fits => ?_⟩
  rw [size, Nat.mod_eq_of_lt fits]

/-- The coordinates of the generator of the curve. -/
def generatorX : Bytes :=
  [0x79, 0xbe, 0x66, 0x7e, 0xf9, 0xdc, 0xbb, 0xac, 0x55, 0xa0, 0x62, 0x95, 0xce, 0x87, 0x0b, 0x07,
    0x02, 0x9b, 0xfc, 0xdb, 0x2d, 0xce, 0x28, 0xd9, 0x59, 0xf2, 0x81, 0x5b, 0x16, 0xf8, 0x17, 0x98]

def generatorY : Bytes :=
  [0x48, 0x3a, 0xda, 0x77, 0x26, 0xa3, 0xc4, 0x65, 0x5d, 0xa4, 0xfb, 0xfc, 0x0e, 0x11, 0x08, 0xa8,
    0xfd, 0x17, 0xb4, 0x48, 0xa6, 0x85, 0x54, 0x19, 0x9c, 0x47, 0xd0, 0x8f, 0xfb, 0x10, 0xd4, 0xb8]

/-- A curve as far as its generator is asked for. -/
def generatorCurve : KeyCurve where
  isFullyValid key := key = 4 :: (generatorX ++ generatorY)
  decompress key := if key = 2 :: generatorX then some (4 :: (generatorX ++ generatorY)) else none

theorem lawful_generatorCurve : generatorCurve.Lawful := by
  intro x y lengthX lengthY valid
  have same : 4 :: (x ++ y) = 4 :: (generatorX ++ generatorY) := of_decide_eq_true valid
  obtain ⟨rfl, rfl⟩ := List.append_inj (List.cons.inj same).2 lengthX
  decide

/-- Coins with spent outputs in front, between and at the end. -/
theorem coinsRecord_roundTrip_generator :
    ∃ bytes,
      (StoredCoins.mk true
        [nullTxOut, nullTxOut, ⟨5000000000, 65 :: 4 :: (generatorX ++ generatorY ++ [opCheckSig])⟩,
          nullTxOut, ⟨7, [0x51]⟩, nullTxOut] 120891 1).serialize generatorCurve = .ok bytes ∧
      unserialize generatorCurve bytes = .ok
        (⟨true, [nullTxOut, nullTxOut,
            ⟨5000000000, 65 :: 4 :: (generatorX ++ generatorY ++ [opCheckSig])⟩, nullTxOut,
            ⟨7, [0x51]⟩], 120891, 1⟩, []) := by
  obtain ⟨bytes, written, read, -⟩ := @coinsRecord_roundTrip generatorCurve ⟨true,
    [nullTxOut, nullTxOut, ⟨5000000000, 65 :: 4 :: (generatorX ++ generatorY ++ [opCheckSig])⟩,
      nullTxOut, ⟨7, [0x51]⟩, nullTxOut], 120891, 1⟩ lawful_generatorCurve
    ⟨⟨⟨7, [0x51]⟩, by decide, rfl⟩, by unfold IsSpentOrMoney; decide, by decide, by decide⟩
    ⟨by decide, by decide⟩
  refine ⟨bytes, written, ?_⟩
  have back := read []
  rw [List.append_nil] at back
  exact back

end StoredCoins

end HdacNode
