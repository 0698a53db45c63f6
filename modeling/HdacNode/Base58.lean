import HdacNode.PermissionNames
import HdacNode.PositionalDigits

/-!
# Base 58

`base58.cpp` writes bytes as the digits of one number in base 58, with a `1` for every leading
zero byte.  Both directions compute in a buffer whose length is estimated from the number of
digits, and assert that nothing is carried out of it.
-/

namespace HdacNode

open PositionalDigits

/-- `pszBase58`. -/
def pszBase58 : Bytes := literal "123456789ABCDEFGHJKLMNPQRSTUVWXYZabcdefghijkmnopqrstuvwxyz"

/-- The character `1`, the digit zero. -/
def oneChar : UInt8 := 0x31

/-- `isspace`. -/
def isSpace (c : UInt8) : Bool := c = 0x20 ∨ (0x09 ≤ c ∧ c ≤ 0x0d)

/-- An assertion failed. -/
inductive Base58Stop where
  | carryNotZero
  deriving DecidableEq, Repr

/-- The character of a digit. -/
def base58Char (digit : Nat) : UInt8 := pszBase58.getD digit 0

/-- The digit of a character: `strchr` in `pszBase58`. -/
def base58Digit (c : UInt8) : Option Nat := pszBase58.idxOf? c

/-- The loop of `EncodeBase58` over the bytes: "b58 = b58 * 256 + ch". -/
def encodeBytes : List Nat → Bytes → Except Base58Stop (List Nat)
  | b58, [] => .ok b58
  | b58, byte :: bytes =>
    let (b58, carry) := mulAdd 58 256 byte.toNat b58
    if carry ≠ 0 then .error .carryNotZero else encodeBytes b58 bytes

/-- `EncodeBase58`. -/
def encodeBase58 (bytes : Bytes) : Except Base58Stop Bytes :=
  let zeroes := (bytes.takeWhile (· = 0)).length
  let bytes := bytes.dropWhile (· = 0)
  (encodeBytes (List.replicate (bytes.length * 138 / 100 + 1) 0) bytes).map fun b58 =>
    List.replicate zeroes oneChar ++ (b58.dropWhile (· = 0)).map base58Char

/-- The loop of `DecodeBase58` over the characters: "b256 = b256 * 58 + ch".  It ends at a space
and fails at a character that is no digit. -/
def decodeChars : List Nat → Bytes → Except Base58Stop (Option (List Nat × Bytes))
  | b256, [] => .ok (some (b256, []))
  | b256, c :: psz =>
    if isSpace c then .ok (some (b256, c :: psz))
    else
      match base58Digit c with
      | none => .ok none
      | some ch =>
        let (b256, carry) := mulAdd 256 58 ch b256
        if carry ≠ 0 then .error .carryNotZero else decodeChars b256 psz

/-- `DecodeBase58` of the characters in front of the terminating zero. -/
def decodeBase58 (psz : Bytes) : Except Base58Stop (Option Bytes) :=
  let psz := psz.dropWhile isSpace
  let zeroes := (psz.takeWhile (· = oneChar)).length
  let psz := psz.dropWhile (· = oneChar)
  (decodeChars (List.replicate (psz.length * 733 / 1000 + 1) 0) psz).map fun decoded =>
    decoded.bind fun (b256, psz) =>
      if psz.dropWhile isSpace ≠ [] then none
      else some (List.replicate zeroes 0 ++ (b256.dropWhile (· = 0)).map UInt8.ofNat)

/-- `std::string::c_str`, as far as a C function reads it. -/
def cStr (str : Bytes) : Bytes := str.takeWhile (· ≠ 0)

/-- `DecodeBase58` of a `std::string`. -/
def decodeBase58String (str : Bytes) : Except Base58Stop (Option Bytes) := decodeBase58 (cStr str)

section Characters

theorem base58Digit_char {digit : Nat} (small : digit < 58) :
    base58Digit (base58Char digit) = some digit := by
  have all : ∀ place : Fin 58, base58Digit (base58Char place) = some place.val := by decide
  exact all ⟨digit, small⟩

theorem isSpace_char {digit : Nat} (small : digit < 58) : isSpace (base58Char digit) = false := by
  have all : ∀ place : Fin 58, isSpace (base58Char place) = false := by decide
  exact all ⟨digit, small⟩

theorem char_ne_zero {digit : Nat} (small : digit < 58) : base58Char digit ≠ 0 := by
  have all : ∀ place : Fin 58, base58Char place ≠ 0 := by decide
  exact all ⟨digit, small⟩

theorem char_eq_one_iff {digit : Nat} (small : digit < 58) :
    base58Char digit = oneChar ↔ digit = 0 := by
  have all : ∀ place : Fin 58, base58Char place = oneChar ↔ place.val = 0 := by decide
  exact all ⟨digit, small⟩

/-- A character with a digit is the character of this digit. -/
theorem char_of_base58Digit {c : UInt8} {digit : Nat} (read : base58Digit c = some digit) :
    digit < 58 ∧ base58Char digit = c := by
  have length : pszBase58.length = 58 := by decide
  obtain ⟨inside, same, -⟩ := List.idxOf?_eq_some_iff.mp read
  refine ⟨length ▸ inside, ?_⟩
  rw [base58Char, List.getD_eq_getElem _ _ inside]
  exact same

theorem digits_of_chars {first second : List Nat} (smallFirst : ∀ digit ∈ first, digit < 58)
    (smallSecond : ∀ digit ∈ second, digit < 58)
    (same : first.map base58Char = second.map base58Char) : first = second := by
  have read : ∀ digits : List Nat, (∀ digit ∈ digits, digit < 58) →
      (digits.map base58Char).map base58Digit = digits.map some := by
    intro digits small
    rw [List.map_map]
    exact List.map_congr_left fun digit member => base58Digit_char (small digit member)
  have readSame := congrArg (List.map base58Digit) same
  rw [read first smallFirst, read second smallSecond] at readSame
  exact List.map_injective_iff.mpr (Option.some_injective Nat) readSame

theorem dropWhile_isSpace {psz : Bytes} (noSpace : ∀ c ∈ psz, isSpace c = false) :
    psz.dropWhile isSpace = psz := by
  cases psz with
  | nil => rfl
  | cons c psz =>
    have notSpace := noSpace c List.mem_cons_self
    exact List.dropWhile_cons_of_neg (by rw [notSpace]; exact Bool.noConfusion)

theorem isSpace_digits {digits : List Nat} (small : ∀ digit ∈ digits, digit < 58)
    (zeroes : Nat) :
    ∀ c ∈ List.replicate zeroes oneChar ++ digits.map base58Char, isSpace c = false := by
  intro c member
  rcases List.mem_append.mp member with one | char
  · rw [List.eq_of_mem_replicate one]
    decide
  · obtain ⟨digit, inDigits, rfl⟩ := List.mem_map.mp char
    exact isSpace_char (small digit inDigits)

end Characters

section Bytes

/-- The number that bytes stand for. -/
def bytesValue (bytes : Bytes) : Nat := value 256 (bytes.map UInt8.toNat)

theorem bytesValue_cons (byte : UInt8) (bytes : Bytes) :
    bytesValue (byte :: bytes) = byte.toNat * 256 ^ bytes.length + bytesValue bytes := by
  rw [bytesValue, List.map_cons, value_cons, List.length_map, bytesValue]

theorem bytesValue_lt (bytes : Bytes) : bytesValue bytes < 256 ^ bytes.length := by
  have small : ∀ digit ∈ bytes.map UInt8.toNat, digit < 256 := by
    intro digit member
    obtain ⟨byte, -, rfl⟩ := List.mem_map.mp member
    exact byte.toNat_lt
  have below := value_lt (by omega) small
  rwa [List.length_map] at below

theorem toNat_ofNat_digits {digits : List Nat} (small : ∀ digit ∈ digits, digit < 256) :
    (digits.map UInt8.ofNat).map UInt8.toNat = digits := by
  rw [List.map_map]
  calc digits.map (UInt8.toNat ∘ UInt8.ofNat) = digits.map id := by
        apply List.map_congr_left
        intro digit member
        rw [Function.comp_apply, UInt8.toNat_ofNat', Nat.mod_eq_of_lt (small digit member), id]
    _ = digits := List.map_id _

/-- The bytes of a number, without zeros at the front. -/
def numberBytes (number : Nat) : Bytes := (Nat.digits 256 number).reverse.map UInt8.ofNat

/-- The characters of a number, without zeros at the front. -/
def numberChars (number : Nat) : Bytes := (Nat.digits 58 number).reverse.map base58Char

theorem bytesValue_numberBytes (number : Nat) : bytesValue (numberBytes number) = number := by
  rw [bytesValue, numberBytes, toNat_ofNat_digits, value_digits]
  intro digit member
  exact Nat.digits_lt_base (by omega) (List.mem_reverse.mp member)

theorem numberBytes_bytesValue {bytes : Bytes} (noZero : bytes.head? ≠ some 0) :
    numberBytes (bytesValue bytes) = bytes := by
  have small : ∀ digit ∈ bytes.map UInt8.toNat, digit < 256 := by
    intro digit member
    obtain ⟨byte, -, rfl⟩ := List.mem_map.mp member
    exact byte.toNat_lt
  have noZeroDigit : (bytes.map UInt8.toNat).head? ≠ some 0 := by
    rw [List.head?_map]
    intro first
    obtain ⟨byte, front, zero⟩ := Option.map_eq_some_iff.mp first
    have same : byte = 0 := UInt8.toNat_inj.mp zero
    exact noZero (by rw [front, same])
  rw [numberBytes, bytesValue, digits_value (by omega) small noZeroDigit, List.map_map]
  calc bytes.map (UInt8.ofNat ∘ UInt8.toNat) = bytes.map id :=
        List.map_congr_left fun byte _ => UInt8.ofNat_toNat
    _ = bytes := List.map_id _

theorem head?_numberBytes (number : Nat) : (numberBytes number).head? ≠ some 0 := by
  rw [numberBytes, List.head?_map]
  intro first
  obtain ⟨digit, front, zero⟩ := Option.map_eq_some_iff.mp first
  have small := Nat.digits_lt_base (by omega) (List.mem_reverse.mp (List.mem_of_head? front))
  have same : digit = 0 := by
    have value := congrArg UInt8.toNat zero
    rwa [UInt8.toNat_ofNat', Nat.mod_eq_of_lt small] at value
  exact head?_digits_ne_zero 256 number (by rw [front, same])

end Bytes

section Loops

theorem small_replicate_zero {base count : Nat} (positive : 0 < base) :
    ∀ digit ∈ List.replicate count 0, digit < base := by
  intro digit member
  rw [List.eq_of_mem_replicate member]
  exact positive

theorem encodeBytes_spec {b58 : List Nat} {bytes : Bytes} (small : ∀ digit ∈ b58, digit < 58)
    (room : value 58 b58 * 256 ^ bytes.length + bytesValue bytes < 58 ^ b58.length) :
    ∃ encoded, encodeBytes b58 bytes = .ok encoded ∧ (∀ digit ∈ encoded, digit < 58) ∧
      value 58 encoded = value 58 b58 * 256 ^ bytes.length + bytesValue bytes := by
  induction bytes generalizing b58 with
  | nil => exact ⟨b58, rfl, small, by simp [bytesValue]⟩
  | cons byte bytes ih =>
    have split : value 58 b58 * 256 ^ (byte :: bytes).length + bytesValue (byte :: bytes) =
        (256 * value 58 b58 + byte.toNat) * 256 ^ bytes.length + bytesValue bytes := by
      rw [bytesValue_cons, List.length_cons]
      ring
    rw [split] at room ⊢
    have fits : 256 * value 58 b58 + byte.toNat < 58 ^ b58.length := by
      refine lt_of_le_of_lt ?_ room
      exact (Nat.le_mul_of_pos_right _ (Nat.pow_pos (by omega))).trans (Nat.le_add_right _ _)
    obtain ⟨noCarry, result⟩ := mulAdd_of_fits fits
    have roomBehind : value 58 (mulAdd 58 256 byte.toNat b58).1 * 256 ^ bytes.length +
        bytesValue bytes < 58 ^ (mulAdd 58 256 byte.toNat b58).1.length := by
      rw [result, length_mulAdd]
      exact room
    obtain ⟨encoded, run, smallEncoded, encodedValue⟩ := ih (mulAdd_lt (by omega) b58) roomBehind
    refine ⟨encoded, ?_, smallEncoded, by rw [encodedValue, result]⟩
    rw [encodeBytes]
    simp only [noCarry, ne_eq, not_true_eq_false, if_false]
    exact run

/-- What the characters of a decoded string are. -/
theorem decodeChars_ok {b256 decoded : List Nat} {psz rest : Bytes}
    (small : ∀ digit ∈ b256, digit < 256)
    (run : decodeChars b256 psz = .ok (some (decoded, rest))) :
    ∃ digits, psz = digits.map base58Char ++ rest ∧ (∀ digit ∈ digits, digit < 58) ∧
      (∀ c ∈ rest.head?, isSpace c) ∧ (∀ digit ∈ decoded, digit < 256) ∧
      value 256 decoded = value 256 b256 * 58 ^ digits.length + value 58 digits := by
  induction psz generalizing b256 with
  | nil =>
    cases run
    exact ⟨[], rfl, nofun, nofun, small, by simp⟩
  | cons c psz ih =>
    rw [decodeChars] at run
    split at run
    · rename_i space
      cases run
      refine ⟨[], rfl, nofun, ?_, small, by simp⟩
      rintro _ ⟨⟩
      exact space
    · split at run
      · cases run
      · rename_i ch read
        obtain ⟨smallCh, sameChar⟩ := char_of_base58Digit read
        simp only at run
        split at run
        · cases run
        · rename_i noCarry
          have result : value 256 (mulAdd 256 58 ch b256).1 +
              256 ^ b256.length * (mulAdd 256 58 ch b256).2 = 58 * value 256 b256 + ch :=
            value_mulAdd b256
          obtain ⟨digits, rfl, smallDigits, space, smallDecoded, decodedValue⟩ :=
            ih (mulAdd_lt (by omega) b256) run
          refine ⟨ch :: digits, by rw [List.map_cons, sameChar]; rfl, ?_, space, smallDecoded, ?_⟩
          · exact List.forall_mem_cons.mpr ⟨smallCh, smallDigits⟩
          · rw [not_not.mp noCarry, Nat.mul_zero, Nat.add_zero] at result
            rw [decodedValue, result, value_cons, List.length_cons]
            ring

/-- If the characters have room in the buffer, nothing is carried out of it. -/
theorem decodeChars_spec {b256 : List Nat} {psz : Bytes}
    (room : (value 256 b256 + 1) * 58 ^ psz.length ≤ 256 ^ b256.length) :
    ∃ decoded, decodeChars b256 psz = .ok decoded ∧
      ∀ digits : List Nat, (∀ digit ∈ digits, digit < 58) → psz = digits.map base58Char →
        ∃ b256, decoded = some (b256, []) := by
  induction psz generalizing b256 with
  | nil =>
    refine ⟨_, rfl, fun digits _ _ => ⟨_, rfl⟩⟩
  | cons c psz ih =>
    rw [decodeChars]
    by_cases space : isSpace c
    · rw [if_pos space]
      refine ⟨_, rfl, fun digits small chars => ?_⟩
      cases digits with
      | nil => cases chars
      | cons digit digits =>
        obtain ⟨rfl, -⟩ := List.cons.inj chars
        rw [isSpace_char (small digit List.mem_cons_self)] at space
        cases space
    · rw [if_neg space]
      cases read : base58Digit c with
      | none =>
        refine ⟨_, rfl, fun digits small chars => ?_⟩
        cases digits with
        | nil => cases chars
        | cons digit digits =>
          obtain ⟨rfl, -⟩ := List.cons.inj chars
          rw [base58Digit_char (small digit List.mem_cons_self)] at read
          cases read
      | some ch =>
        have smallCh := (char_of_base58Digit read).1
        have roomBehind : (58 * value 256 b256 + ch + 1) * 58 ^ psz.length ≤
            256 ^ b256.length := by
          refine le_trans ?_ room
          rw [List.length_cons, pow_succ']
          calc (58 * value 256 b256 + ch + 1) * 58 ^ psz.length
              ≤ (58 * value 256 b256 + 58) * 58 ^ psz.length :=
                Nat.mul_le_mul_right _ (by omega)
            _ = (value 256 b256 + 1) * (58 * 58 ^ psz.length) := by ring
        have fits : 58 * value 256 b256 + ch < 256 ^ b256.length := by
          refine lt_of_lt_of_le (Nat.lt_succ_self _) (le_trans ?_ roomBehind)
          exact Nat.le_mul_of_pos_right _ (Nat.pow_pos (by omega))
        obtain ⟨noCarry, result⟩ := mulAdd_of_fits fits
        simp only [noCarry, ne_eq, not_true_eq_false, if_false]
        have sameLength : (mulAdd 256 58 ch b256).1.length = b256.length := length_mulAdd b256
        rw [← result, ← sameLength] at roomBehind
        obtain ⟨decoded, run, chars⟩ := ih roomBehind
        refine ⟨decoded, run, fun digits small same => ?_⟩
        cases digits with
        | nil => cases same
        | cons digit digits =>
          exact chars digits (fun other member => small other (List.mem_cons_of_mem _ member))
            (List.cons.inj same).2

end Loops

section Front

variable {Symbol : Type} [DecidableEq Symbol] {front : Symbol} {symbols : List Symbol}

theorem dropWhile_front (absent : symbols.head? ≠ some front) (count : Nat) :
    (List.replicate count front ++ symbols).dropWhile (· = front) = symbols := by
  rw [List.dropWhile_append_of_pos (by
    intro symbol member
    simpa using List.eq_of_mem_replicate member)]
  cases symbols with
  | nil => rfl
  | cons symbol symbols =>
    have other : symbol ≠ front := fun same => absent (by rw [same]; rfl)
    exact List.dropWhile_cons_of_neg (by simpa using other)

theorem length_takeWhile_front (absent : symbols.head? ≠ some front) (count : Nat) :
    ((List.replicate count front ++ symbols).takeWhile (· = front)).length = count := by
  have whole := congrArg List.length
    (List.takeWhile_append_dropWhile (p := (· = front)) (l := List.replicate count front ++ symbols))
  rw [dropWhile_front absent, List.length_append, List.length_append, List.length_replicate] at whole
  omega

/-- A list is the symbols of one kind at its front, and what is behind them. -/
theorem replicate_takeWhile_append (symbols : List Symbol) (front : Symbol) :
    List.replicate (symbols.takeWhile (· = front)).length front ++ symbols.dropWhile (· = front) =
      symbols := by
  have same : symbols.takeWhile (· = front) =
      List.replicate (symbols.takeWhile (· = front)).length front := by
    apply List.eq_replicate_iff.mpr
    refine ⟨rfl, fun symbol member => ?_⟩
    simpa using List.mem_takeWhile_imp member
  rw [← same, List.takeWhile_append_dropWhile]

theorem head?_dropWhile_front (symbols : List Symbol) (front : Symbol) :
    (symbols.dropWhile (· = front)).head? ≠ some front := by
  intro first
  have notFront := List.head?_dropWhile_not (fun symbol => decide (symbol = front)) symbols
  rw [first] at notFront
  simp at notFront

end Front

section RoundTrip

/-- `EncodeBase58` never fails its assertion. -/
theorem encodeBase58_eq (bytes : Bytes) :
    encodeBase58 bytes = .ok
      (List.replicate (bytes.takeWhile (· = 0)).length oneChar ++
        numberChars (bytesValue (bytes.dropWhile (· = 0)))) := by
  unfold encodeBase58
  generalize bytes.dropWhile (· = 0) = rest
  have zero : value 58 (List.replicate (rest.length * 138 / 100 + 1) 0) = 0 :=
    value_replicate_zero _
  have room : value 58 (List.replicate (rest.length * 138 / 100 + 1) 0) * 256 ^ rest.length +
      bytesValue rest < 58 ^ (List.replicate (rest.length * 138 / 100 + 1) 0).length := by
    rw [zero, Nat.zero_mul, Nat.zero_add, List.length_replicate]
    exact (bytesValue_lt rest).trans
      (pow_lt_pow_of_share (by omega) (by omega) (by norm_num) rest.length)
  obtain ⟨encoded, run, small, encodedValue⟩ :=
    encodeBytes_spec (small_replicate_zero (by omega)) room
  rw [zero, Nat.zero_mul, Nat.zero_add] at encodedValue
  simp only [run, Except.map]
  rw [dropWhile_zero_eq_digits (by omega) small, encodedValue, numberChars]

/-- The buffer of `DecodeBase58` has room for its characters. -/
theorem decodeRoom (psz : Bytes) :
    (value 256 (List.replicate (psz.length * 733 / 1000 + 1) 0) + 1) * 58 ^ psz.length ≤
      256 ^ (List.replicate (psz.length * 733 / 1000 + 1) 0).length := by
  rw [value_replicate_zero, Nat.zero_add, Nat.one_mul, List.length_replicate]
  have rate : 58 ^ 1000 ≤ 256 ^ 733 := by decide +kernel
  exact (pow_lt_pow_of_share (by omega) (by omega) rate psz.length).le

/-- `DecodeBase58` never fails its assertion. -/
theorem decodeBase58_total (psz : Bytes) : ∃ decoded, decodeBase58 psz = .ok decoded := by
  obtain ⟨decoded, run, -⟩ :=
    decodeChars_spec (decodeRoom ((psz.dropWhile isSpace).dropWhile (· = oneChar)))
  unfold decodeBase58
  simp only [run, Except.map]
  exact ⟨_, rfl⟩

/-- `DecodeBase58` of characters without spaces: they are digits behind ones. -/
theorem decodeBase58_ok {psz decoded : Bytes} (noSpace : ∀ c ∈ psz, isSpace c = false)
    (run : decodeBase58 psz = .ok (some decoded)) :
    ∃ digits : List Nat, (∀ digit ∈ digits, digit < 58) ∧
      psz.dropWhile (· = oneChar) = digits.map base58Char ∧
      decoded = List.replicate (psz.takeWhile (· = oneChar)).length 0 ++
        numberBytes (value 58 digits) := by
  unfold decodeBase58 at run
  simp only [dropWhile_isSpace noSpace] at run
  have digitsNoSpace : ∀ c ∈ psz.dropWhile (· = oneChar), isSpace c = false := fun c member =>
    noSpace c ((List.dropWhile_sublist _).subset member)
  generalize psz.dropWhile (· = oneChar) = chars at *
  cases loop : decodeChars (List.replicate (chars.length * 733 / 1000 + 1) 0) chars with
  | error stop =>
    rw [loop] at run
    cases run
  | ok result =>
    cases result with
    | none =>
      rw [loop] at run
      cases run
    | some result =>
      obtain ⟨b256, rest⟩ := result
      obtain ⟨digits, rfl, small, space, smallDecoded, decodedValue⟩ :=
        decodeChars_ok (small_replicate_zero (by omega)) loop
      have atEnd : rest = [] := by
        cases rest with
        | nil => rfl
        | cons c rest =>
          have noSpaceHere := digitsNoSpace c (List.mem_append_right _ List.mem_cons_self)
          rw [space c rfl] at noSpaceHere
          cases noSpaceHere
      subst atEnd
      rw [loop] at run
      rw [value_replicate_zero, Nat.zero_mul, Nat.zero_add] at decodedValue
      refine ⟨digits, small, List.append_nil _, ?_⟩
      rw [numberBytes, ← decodedValue, ← dropWhile_zero_eq_digits (by omega) smallDecoded]
      cases run
      rfl

/-- `DecodeBase58` of digits behind ones. -/
theorem decodeBase58_chars {digits : List Nat} (small : ∀ digit ∈ digits, digit < 58)
    (noZero : digits.head? ≠ some 0) (zeroes : Nat) :
    decodeBase58 (List.replicate zeroes oneChar ++ digits.map base58Char) =
      .ok (some (List.replicate zeroes 0 ++ numberBytes (value 58 digits))) := by
  have noOne : (digits.map base58Char).head? ≠ some oneChar := by
    rw [List.head?_map]
    intro first
    obtain ⟨digit, front, one⟩ := Option.map_eq_some_iff.mp first
    have zero := (char_eq_one_iff (small digit (List.mem_of_head? front))).mp one
    exact noZero (by rw [front, zero])
  unfold decodeBase58
  simp only [dropWhile_isSpace (isSpace_digits small zeroes)]
  rw [dropWhile_front noOne, length_takeWhile_front noOne]
  obtain ⟨decoded, run, chars⟩ := decodeChars_spec (decodeRoom (digits.map base58Char))
  obtain ⟨b256, rfl⟩ := chars digits small rfl
  obtain ⟨read, sameChars, smallRead, -, smallDecoded, decodedValue⟩ :=
    decodeChars_ok (small_replicate_zero (by omega)) run
  rw [List.append_nil] at sameChars
  rw [← digits_of_chars small smallRead sameChars, value_replicate_zero, Nat.zero_mul,
    Nat.zero_add] at decodedValue
  simp only [run, Except.map]
  rw [numberBytes, ← decodedValue, ← dropWhile_zero_eq_digits (by omega) smallDecoded]
  rfl

/-- What was encoded is decoded again. -/
theorem decodeBase58_encode (bytes : Bytes) :
    ∃ str, encodeBase58 bytes = .ok str ∧ decodeBase58 str = .ok (some bytes) := by
  refine ⟨_, encodeBase58_eq bytes, ?_⟩
  have small : ∀ digit ∈ (Nat.digits 58 (bytesValue (bytes.dropWhile (· = 0)))).reverse,
      digit < 58 := fun digit member =>
    Nat.digits_lt_base (by omega) (List.mem_reverse.mp member)
  rw [numberChars, decodeBase58_chars small (head?_digits_ne_zero 58 _), value_digits,
    numberBytes_bytesValue (head?_dropWhile_front bytes 0), replicate_takeWhile_append]

theorem encodeBase58_decode {psz bytes : Bytes} (noSpace : ∀ c ∈ psz, isSpace c = false)
    (run : decodeBase58 psz = .ok (some bytes)) : encodeBase58 bytes = .ok psz := by
  obtain ⟨digits, small, chars, rfl⟩ := decodeBase58_ok noSpace run
  have noZero : digits.head? ≠ some 0 := by
    intro first
    have front := head?_dropWhile_front psz oneChar
    rw [chars, List.head?_map, first] at front
    exact front rfl
  have zeroBytes := head?_numberBytes (value 58 digits)
  rw [encodeBase58_eq, dropWhile_front zeroBytes, length_takeWhile_front zeroBytes,
    bytesValue_numberBytes, numberChars, digits_value (by omega) small noZero, ← chars,
    replicate_takeWhile_append]

end RoundTrip

end HdacNode
