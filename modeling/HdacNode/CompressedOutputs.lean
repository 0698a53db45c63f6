import HdacNode.Transactions
import HdacNode.VarInts

/-!
# Compressed outputs

`compressor.cpp`: an amount is written without its zeros at the end, and a script of one of six
forms as the data in it.  Any other script stands behind its size, counted from six on.
-/

namespace HdacNode

/-- `secp256k1_ec_pubkey_parse` of a public key, and the key behind `CPubKey::Decompress`. -/
structure KeyCurve where
  isFullyValid : Bytes → Bool
  decompress : Bytes → Option Bytes

/-- A point of the curve is found again by its first coordinate and the lowest bit of its second
one. -/
def KeyCurve.Lawful (curve : KeyCurve) : Prop :=
  ∀ x y : Bytes, x.length = 32 → y.length = 32 → curve.isFullyValid (4 :: (x ++ y)) →
    curve.decompress ((2 + (y.getD 31 0 &&& 1)) :: x) = some (4 :: (x ++ y))

section Amounts

/-- The loop of `CompressAmount`: divide by ten, but no more often than so many times. -/
def divideTens : Nat → Nat → Nat → Nat × Nat
  | 0, n, e => (n, e)
  | turns + 1, n, e => if n % 10 = 0 then divideTens turns (n / 10) (e + 1) else (n, e)

/-- `CompressAmount`. -/
def compressAmount (n : Nat) : Except RecordStop Nat :=
  if n = 0 then .ok 0
  else
    let (n, e) := divideTens 9 n 0
    if e < 9 then
      let d := n % 10
      if ¬ (1 ≤ d ∧ d ≤ 9) then .error .assertion
      else .ok ((1 + (n / 10 * 9 + d - 1) * 10 + e) % 2 ^ 64)
    else .ok ((1 + (n - 1) * 10 + 9) % 2 ^ 64)

/-- The loop of `DecompressAmount`. -/
def timesTens : Nat → Nat → Nat
  | 0, n => n
  | e + 1, n => timesTens e (n * 10 % 2 ^ 64)

/-- `DecompressAmount`. -/
def decompressAmount (x : Nat) : Nat :=
  if x = 0 then 0
  else
    let x := x - 1
    let e := x % 10
    let x := x / 10
    if e < 9 then
      let d := x % 9 + 1
      timesTens e ((x / 9 * 10 + d) % 2 ^ 64)
    else timesTens e ((x + 1) % 2 ^ 64)

theorem divideTens_spec (turns n e : Nat) :
    ∃ m k, divideTens turns n e = (m, e + k) ∧ k ≤ turns ∧ m * 10 ^ k = n ∧
      (k < turns → m % 10 ≠ 0) := by
  induction turns generalizing n e with
  | zero => exact ⟨n, 0, rfl, le_rfl, by simp, fun below => absurd below (Nat.lt_irrefl 0)⟩
  | succ turns ih =>
    rw [divideTens]
    by_cases tens : n % 10 = 0
    · obtain ⟨m, k, run, atMost, product, digit⟩ := ih (n / 10) (e + 1)
      refine ⟨m, k + 1, ?_, by omega, ?_, fun below => digit (by omega)⟩
      · rw [if_pos tens, run, Nat.add_assoc, Nat.add_comm 1]
      · rw [Nat.pow_succ, ← Nat.mul_assoc, product]
        omega
    · exact ⟨n, 0, by rw [if_neg tens, Nat.add_zero], by omega, by simp, fun _ => tens⟩

theorem timesTens_eq {e n : Nat} (fits : n * 10 ^ e < 2 ^ 64) : timesTens e n = n * 10 ^ e := by
  induction e generalizing n with
  | zero => simp [timesTens]
  | succ e ih =>
    have step : n * 10 ^ (e + 1) = n * 10 * 10 ^ e := by
      rw [Nat.pow_succ]
      ring
    have small : n * 10 < 2 ^ 64 := by
      rw [step] at fits
      exact (Nat.le_mul_of_pos_right _ (Nat.pow_pos (by decide))).trans_lt fits
    rw [timesTens, Nat.mod_eq_of_lt small, step]
    exact ih (step ▸ fits)

/-- `MAX_MONEY`. -/
def maxMoney : Nat := 1000000000000000000

theorem compressAmount_spec {n : Nat} (money : n ≤ maxMoney) :
    ∃ x, compressAmount n = .ok x ∧ x < 2 ^ 64 ∧ decompressAmount x = n := by
  have limit : n ≤ 1000000000000000000 := money
  by_cases zero : n = 0
  · subst zero
    exact ⟨0, rfl, by decide, rfl⟩
  · obtain ⟨m, k, run, atMost, product, digit⟩ := divideTens_spec 9 n 0
    have positive : 0 < m := by
      apply Nat.pos_of_ne_zero
      rintro rfl
      omega
    have notAbove : m ≤ n := by
      rw [← product]
      exact Nat.le_mul_of_pos_right _ (Nat.pow_pos (by decide))
    rw [compressAmount, if_neg zero, run, Nat.zero_add]
    simp only
    by_cases below : k < 9
    · have notTen := digit below
      have packed : 1 + (m / 10 * 9 + m % 10 - 1) * 10 + k < 2 ^ 64 := by omega
      rw [if_pos below, if_neg (by omega), Nat.mod_eq_of_lt packed]
      refine ⟨_, rfl, packed, ?_⟩
      have exponent : (1 + (m / 10 * 9 + m % 10 - 1) * 10 + k - 1) % 10 = k := by omega
      have rest : (1 + (m / 10 * 9 + m % 10 - 1) * 10 + k - 1) / 10 = m / 10 * 9 + m % 10 - 1 := by
        omega
      have whole : (m / 10 * 9 + m % 10 - 1) / 9 * 10 + ((m / 10 * 9 + m % 10 - 1) % 9 + 1) = m := by
        omega
      rw [decompressAmount, if_neg (by omega)]
      simp only [exponent, rest]
      rw [if_pos below, whole, Nat.mod_eq_of_lt (by omega), timesTens_eq (by omega), product]
    · have nine : k = 9 := by omega
      subst nine
      have packed : 1 + (m - 1) * 10 + 9 < 2 ^ 64 := by omega
      rw [if_neg below, Nat.mod_eq_of_lt packed]
      refine ⟨_, rfl, packed, ?_⟩
      have exponent : (1 + (m - 1) * 10 + 9 - 1) % 10 = 9 := by omega
      have rest : (1 + (m - 1) * 10 + 9 - 1) / 10 = m - 1 := by omega
      have whole : m - 1 + 1 = m := by omega
      rw [decompressAmount, if_neg (by omega)]
      simp only [exponent, rest]
      rw [if_neg below, whole, Nat.mod_eq_of_lt (by omega), timesTens_eq (by omega), product]

end Amounts

section Scripts

/-- `IsToKeyID`. -/
def isToKeyID (script : Bytes) : Option Bytes :=
  if script.length = 25 ∧ script.getD 0 0 = opDup ∧ script.getD 1 0 = opHash160 ∧
      script.getD 2 0 = 20 ∧ script.getD 23 0 = opEqualVerify ∧ script.getD 24 0 = opCheckSig then
    some ((script.drop 3).take 20)
  else none

/-- `IsToScriptID`. -/
def isToScriptID (script : Bytes) : Option Bytes :=
  if script.length = 23 ∧ script.getD 0 0 = opHash160 ∧ script.getD 1 0 = 20 ∧
      script.getD 22 0 = opEqual then
    some ((script.drop 2).take 20)
  else none

variable (curve : KeyCurve)

/-- `IsToPubKey`. -/
def isToPubKey (script : Bytes) : Option Bytes :=
  if script.length = 35 ∧ script.getD 0 0 = 33 ∧ script.getD 34 0 = opCheckSig ∧
      (script.getD 1 0 = 2 ∨ script.getD 1 0 = 3) then
    some ((script.drop 1).take 33)
  else if script.length = 67 ∧ script.getD 0 0 = 65 ∧ script.getD 66 0 = opCheckSig ∧
      script.getD 1 0 = 4 then
    let pubkey := (script.drop 1).take 65
    if curve.isFullyValid pubkey then some pubkey else none
  else none

/-- `CScriptCompressor::Compress`. -/
def compressScript (script : Bytes) : Option Bytes :=
  match isToKeyID script with
  | some keyID => some (0 :: keyID)
  | none =>
    match isToScriptID script with
    | some scriptID => some (1 :: scriptID)
    | none =>
      match isToPubKey curve script with
      | none => none
      | some pubkey =>
        if pubkey.getD 0 0 = 2 ∨ pubkey.getD 0 0 = 3 then
          some (pubkey.getD 0 0 :: (pubkey.drop 1).take 32)
        else if pubkey.getD 0 0 = 4 then
          some ((4 ||| (pubkey.getD 64 0 &&& 1)) :: (pubkey.drop 1).take 32)
        else none

/-- `nSpecialScripts`. -/
def nSpecialScripts : Nat := 6

/-- `GetSpecialSize`. -/
def getSpecialSize (nSize : Nat) : Nat :=
  if nSize = 0 ∨ nSize = 1 then 20
  else if nSize = 2 ∨ nSize = 3 ∨ nSize = 4 ∨ nSize = 5 then 32
  else 0

/-- `CScriptCompressor::Decompress`: none if it returns false. -/
def decompressScript (nSize : Nat) (data : Bytes) : Except RecordStop (Option Bytes) :=
  match nSize with
  | 0 => .ok (some (opDup :: opHash160 :: 20 :: (data ++ [opEqualVerify, opCheckSig])))
  | 1 => .ok (some (opHash160 :: 20 :: (data ++ [opEqual])))
  | 2 | 3 => .ok (some (33 :: UInt8.ofNat nSize :: (data ++ [opCheckSig])))
  | 4 | 5 =>
    match curve.decompress (UInt8.ofNat (nSize - 2) :: data) with
    | none => .ok none
    | some pubkey =>
      if pubkey.length ≠ 65 then .error .assertion
      else .ok (some (65 :: (pubkey ++ [opCheckSig])))
  | _ => .ok none

/-- `CScriptCompressor::Serialize`. -/
def serializeScript (script : Bytes) : Bytes :=
  match compressScript curve script with
  | some compr => compr
  | none => writeVarInt 32 ((script.length + nSpecialScripts) % 2 ^ 32) ++ script

/-- `CScriptCompressor::Unserialize`, over the script that is there. -/
def unserializeScript (script s : Bytes) : Except RecordStop (Bytes × Bytes) :=
  match readVarInt 32 0 s with
  | .error stop => .error stop
  | .ok (nSize, s) =>
    if nSize < nSpecialScripts then
      if s.length < getSpecialSize nSize then .error .endOfData
      else
        let vch := s.take (getSpecialSize nSize)
        let s := s.drop (getSpecialSize nSize)
        match decompressScript curve nSize vch with
        | .error stop => .error stop
        | .ok none => .ok (script, s)
        | .ok (some script) => .ok (script, s)
    else
      let nSize := nSize - nSpecialScripts
      if s.length < nSize then .error .endOfData else .ok (s.take nSize, s.drop nSize)

end Scripts

section Forms

theorem take_eq_getD {bytes : Bytes} {count : Nat} (inside : count ≤ bytes.length) :
    bytes.take count = (List.range count).map fun i => bytes.getD i 0 := by
  apply List.ext_getElem
  · simp [inside]
  · intro i before _
    have within : i < bytes.length := by
      rw [List.length_take] at before
      omega
    rw [List.getElem_take, List.getElem_map, List.getElem_range, List.getD_eq_getElem _ _ within]

theorem drop_eq_getD (bytes : Bytes) (count : Nat) :
    bytes.drop count = (List.range (bytes.length - count)).map fun i => bytes.getD (count + i) 0 := by
  apply List.ext_getElem
  · simp
  · intro i before _
    have within : count + i < bytes.length := by
      rw [List.length_drop] at before
      omega
    rw [List.getElem_drop, List.getElem_map, List.getElem_range, List.getD_eq_getElem _ _ within]

/-- A string in three parts. -/
theorem eq_parts {bytes : Bytes} (front size : Nat) (inside : front ≤ bytes.length) :
    bytes = (List.range front).map (fun i => bytes.getD i 0) ++ ((bytes.drop front).take size ++
      (List.range (bytes.length - (front + size))).map fun i => bytes.getD (front + size + i) 0) := by
  rw [← take_eq_getD inside, ← drop_eq_getD, ← List.drop_drop, List.take_append_drop,
    List.take_append_drop]

variable {script : Bytes}

theorem eq_of_isToKeyID {keyID : Bytes} (is : isToKeyID script = some keyID) :
    keyID.length = 20 ∧
      script = opDup :: opHash160 :: 20 :: (keyID ++ [opEqualVerify, opCheckSig]) := by
  rw [isToKeyID] at is
  split at is
  · rename_i form
    obtain ⟨length, dup, hash160, size, equalVerify, checkSig⟩ := form
    cases is
    have parts := eq_parts 3 20 (by omega : 3 ≤ script.length)
    rw [length] at parts
    simp only [List.range, List.range.loop, List.map_cons, List.map_nil, Nat.reduceAdd, Nat.reduceSub,
      dup, hash160, size, equalVerify, checkSig] at parts
    exact ⟨by simp [length], parts⟩
  · cases is

theorem eq_of_isToScriptID {scriptID : Bytes} (is : isToScriptID script = some scriptID) :
    scriptID.length = 20 ∧ script = opHash160 :: 20 :: (scriptID ++ [opEqual]) := by
  rw [isToScriptID] at is
  split at is
  · rename_i form
    obtain ⟨length, hash160, size, equal⟩ := form
    cases is
    have parts := eq_parts 2 20 (by omega : 2 ≤ script.length)
    rw [length] at parts
    simp only [List.range, List.range.loop, List.map_cons, List.map_nil, Nat.reduceAdd, Nat.reduceSub,
      hash160, size, equal] at parts
    exact ⟨by simp [length], parts⟩
  · cases is

theorem eq_of_isToPubKey {curve : KeyCurve} {pubkey : Bytes}
    (is : isToPubKey curve script = some pubkey) :
    (∃ sign x, (sign = 2 ∨ sign = 3) ∧ x.length = 32 ∧ pubkey = sign :: x ∧
        script = 33 :: sign :: (x ++ [opCheckSig])) ∨
      ∃ x y, x.length = 32 ∧ y.length = 32 ∧ pubkey = 4 :: (x ++ y) ∧
        curve.isFullyValid (4 :: (x ++ y)) ∧ script = 65 :: 4 :: (x ++ y ++ [opCheckSig]) := by
  rw [isToPubKey] at is
  split at is
  · rename_i form
    obtain ⟨length, size, checkSig, sign⟩ := form
    cases is
    have parts := eq_parts 2 32 (by omega : 2 ≤ script.length)
    rw [length] at parts
    simp only [List.range, List.range.loop, List.map_cons, List.map_nil, Nat.reduceAdd, Nat.reduceSub,
      size, checkSig] at parts
    have lengthX : ((script.drop 2).take 32).length = 32 := by simp [length]
    refine Or.inl ⟨script.getD 1 0, (script.drop 2).take 32, sign, lengthX, ?_, parts⟩
    generalize (script.drop 2).take 32 = x at parts lengthX
    generalize script.getD 1 0 = first at parts
    rw [parts, List.drop_one]
    simp [← lengthX]
  · split at is
    · rename_i form
      obtain ⟨length, size, checkSig, sign⟩ := form
      simp only at is
      split at is
      · rename_i valid
        cases is
        have parts := eq_parts 2 64 (by omega : 2 ≤ script.length)
        rw [length] at parts
        simp only [List.range, List.range.loop, List.map_cons, List.map_nil, Nat.reduceAdd,
          Nat.reduceSub, size, checkSig, sign] at parts
        have lengthXY : ((script.drop 2).take 64).length = 64 := by simp [length]
        generalize (script.drop 2).take 64 = xy at parts lengthXY
        have halves : xy.take 32 ++ xy.drop 32 = xy := List.take_append_drop 32 xy
        have pubkey : (script.drop 1).take 65 = 4 :: (xy.take 32 ++ xy.drop 32) := by
          rw [halves, parts, List.drop_one]
          simp [← lengthXY]
        refine Or.inr ⟨xy.take 32, xy.drop 32, by simp [lengthXY], by simp [lengthXY], pubkey, ?_, ?_⟩
        · rw [← pubkey]
          exact valid
        · rw [halves]
          exact parts
      · cases is
    · cases is

end Forms

section RoundTrip

variable {curve : KeyCurve}

/-- The first byte of a compressed script is its number. -/
theorem unserializeScript_special (nSize : Nat) {data script s old : Bytes}
    (special : nSize < nSpecialScripts) (length : data.length = getSpecialSize nSize)
    (form : decompressScript curve nSize data = .ok (some script)) :
    unserializeScript curve old (UInt8.ofNat nSize :: (data ++ s)) = .ok (script, s) := by
  have below : nSize < 6 := special
  have size : readVarInt 32 0 (UInt8.ofNat nSize :: (data ++ s)) = .ok (nSize, data ++ s) := by
    have last := readVarInt_last (s := data ++ s) (by omega : nSize < 128)
      (by omega : 128 * 0 + nSize < 2 ^ 32)
    rwa [Nat.mul_zero, Nat.zero_add] at last
  rw [unserializeScript, size]
  simp only [special, if_true]
  rw [if_neg (by rw [List.length_append, length]; omega), List.take_left' length,
    List.drop_left' length, form]

theorem unserializeScript_compressed (lawful : curve.Lawful) {script compr : Bytes}
    (compressed : compressScript curve script = some compr) (old s : Bytes) :
    unserializeScript curve old (compr ++ s) = .ok (script, s) := by
  rw [compressScript] at compressed
  split at compressed
  · rename_i keyID isKey
    cases compressed
    obtain ⟨length, rfl⟩ := eq_of_isToKeyID isKey
    exact unserializeScript_special 0 (by decide) length rfl
  · split at compressed
    · rename_i scriptID isScript
      cases compressed
      obtain ⟨length, rfl⟩ := eq_of_isToScriptID isScript
      exact unserializeScript_special 1 (by decide) length rfl
    · split at compressed
      · cases compressed
      · rename_i pubkey isPubKey
        rcases eq_of_isToPubKey isPubKey with
          ⟨sign, x, signIs, length, rfl, rfl⟩ | ⟨x, y, lengthX, lengthY, rfl, valid, rfl⟩
        · rw [List.getD_cons_zero, if_pos signIs] at compressed
          cases compressed
          rw [List.drop_one, List.tail_cons, ← length, List.take_length]
          rcases signIs with rfl | rfl
          · exact unserializeScript_special 2 (by decide) length rfl
          · exact unserializeScript_special 3 (by decide) length rfl
        · have parity : (4 :: (x ++ y)).getD 64 0 = y.getD 31 0 := by
            rw [List.getD_cons_succ, List.getD_append_right _ _ _ _ (by omega), lengthX]
          have found := lawful x y lengthX lengthY valid
          rw [List.getD_cons_zero, if_neg (by decide), if_pos rfl, parity] at compressed
          cases compressed
          have first : ((4 :: (x ++ y)).drop 1).take 32 = x := by
            rw [List.drop_one, List.tail_cons, List.take_left' lengthX]
          have whole : (4 :: (x ++ y)).length = 65 := by
            rw [List.length_cons, List.length_append, lengthX, lengthY]
          rw [first]
          have odd : y.getD 31 0 &&& 1 = 0 ∨ y.getD 31 0 &&& 1 = 1 := by
            generalize y.getD 31 0 = last
            have small : (last &&& 1).toNat < 2 := by
              rw [UInt8.toNat_and]
              exact Nat.and_lt_two_pow (n := 1) _ (by decide)
            rcases Nat.lt_succ_iff_lt_or_eq.mp small with zero | one
            · exact Or.inl (UInt8.toNat_inj.mp (by simpa using zero))
            · exact Or.inr (UInt8.toNat_inj.mp one)
          rcases odd with even | odd
          · rw [even] at found ⊢
            refine unserializeScript_special 4 (by decide) lengthX ?_
            have found' : curve.decompress (UInt8.ofNat (4 - 2) :: x) = some (4 :: (x ++ y)) := found
            simp only [decompressScript, found', whole]
            simp
          · rw [odd] at found ⊢
            refine unserializeScript_special 5 (by decide) lengthX ?_
            have found' : curve.decompress (UInt8.ofNat (5 - 2) :: x) = some (4 :: (x ++ y)) := found
            simp only [decompressScript, found', whole]
            simp

theorem unserializeScript_serialize (lawful : curve.Lawful) {script : Bytes}
    (fits : script.length + nSpecialScripts < 2 ^ 32) (old s : Bytes) :
    unserializeScript curve old (serializeScript curve script ++ s) = .ok (script, s) := by
  rw [serializeScript]
  split
  · rename_i compr compressed
    exact unserializeScript_compressed lawful compressed old s
  · have positive : 0 < 32 := by decide
    have notSpecial : ¬ script.length + nSpecialScripts < nSpecialScripts := by omega
    rw [Nat.mod_eq_of_lt fits, List.append_assoc, unserializeScript,
      readVarInt_write positive fits]
    simp only [notSpecial, if_false, Nat.add_sub_cancel]
    rw [if_neg (by rw [List.length_append]; omega), List.take_left, List.drop_left]

end RoundTrip

end HdacNode
