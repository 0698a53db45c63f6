import HdacNode.Base58

/-!
# Addresses

An address is version bytes and a hash, written in base 58 with a checksum behind them.  The
version bytes are not in front: each stands before a share of the hash, and the last share takes
what is left over.
-/

namespace HdacNode

/-- `CBase58Data`. -/
structure CBase58Data where
  vchVersion : Bytes
  vchData : Bytes
  deriving DecidableEq, Repr

/-- Why `ToString` does not return. -/
inductive AddressStop where
  | base58 (stop : Base58Stop)
  | divisionByZero
  deriving DecidableEq, Repr

section Check

-- `Hash` of a byte range, and the parameter `addresschecksumvalue` of the network.
variable (hash : Bytes → Hash) (addressChecksumValue : Int)

/-- The four bytes of the checksum: `mc_GetLE` of the first four bytes of the hash, and the
parameter of the network over them. -/
def addressChecksum (vch : Bytes) : Bytes :=
  putLE ((hash vch).setWidth 32 ^^^ BitVec.ofInt 32 addressChecksumValue).toNat 4

/-- `EncodeBase58Check`. -/
def encodeBase58Check (vchIn : Bytes) : Except Base58Stop Bytes :=
  encodeBase58 (vchIn ++ addressChecksum hash addressChecksumValue vchIn)

/-- `DecodeBase58Check`: none if it returns false, with the result cleared. -/
def decodeBase58Check (psz : Bytes) : Except Base58Stop (Option Bytes) :=
  (decodeBase58 psz).map fun decoded =>
    decoded.bind fun vchRet =>
      if vchRet.length < 4 then none
      else
        let vch := vchRet.take (vchRet.length - 4)
        if addressChecksum hash addressChecksumValue vch ≠ vchRet.drop (vchRet.length - 4) then none
        else some vch

/-- The bytes in the order of an address: the `i`-th version byte, and the `i`-th share of the
data.  The arguments are the size of a share, the data, `i` and the version bytes from the `i`-th
on. -/
def interleave (shift : Nat) (vchData : Bytes) : Nat → Bytes → Bytes
  | _, [] => []
  | i, [version] => version :: vchData.drop (i * shift)
  | i, version :: next :: versions =>
    version :: (vchData.drop (i * shift)).take shift ++
      interleave shift vchData (i + 1) (next :: versions)

/-- The version bytes and the data from the `i`-th version byte on, where `left` of these bytes
are left. -/
def separate (shift nVersionBytes : Nat) (vchTemp : Bytes) : Nat → Nat → CBase58Data
  | _, 0 => ⟨[], []⟩
  | i, left + 1 =>
    let version := vchTemp.getD (i * (shift + 1)) 0
    let size := if left = 0 then vchTemp.length - nVersionBytes - i * shift else shift
    let share := (vchTemp.drop (i * (shift + 1) + 1)).take size
    let rest := separate shift nVersionBytes vchTemp (i + 1) left
    ⟨version :: rest.vchVersion, share ++ rest.vchData⟩

namespace CBase58Data

/-- `CBase58Data::SetData`. -/
def setData (vchVersionIn pdata : Bytes) : CBase58Data := ⟨vchVersionIn, pdata⟩

/-- `CBase58Data::ToString`. -/
def toString (data : CBase58Data) : Except AddressStop Bytes :=
  let nVersionBytes := data.vchVersion.length
  if nVersionBytes = 0 then .error .divisionByZero
  else
    let shift := data.vchData.length / nVersionBytes
    (encodeBase58Check hash addressChecksumValue
      (interleave shift data.vchData 0 data.vchVersion)).mapError .base58

/-- `CBase58Data::SetString`: none if it returns false, with both vectors cleared. -/
def setString (psz : Bytes) (nVersionBytes : Nat) : Except AddressStop (Option CBase58Data) :=
  match decodeBase58Check hash addressChecksumValue psz with
  | .error stop => .error (.base58 stop)
  | .ok none => .ok none
  | .ok (some vchTemp) =>
    if vchTemp.length < nVersionBytes then .ok none
    else if nVersionBytes = 0 then .error .divisionByZero
    else
      let shift := (vchTemp.length - nVersionBytes) / nVersionBytes
      .ok (some (separate shift nVersionBytes vchTemp 0 nVersionBytes))

/-- `CBase58Data::SetString` of a `std::string`: as many version bytes as the prefix of public key
addresses has. -/
def setStdString (pubkeyAddress str : Bytes) : Except AddressStop (Option CBase58Data) :=
  setString hash addressChecksumValue (cStr str) pubkeyAddress.length

end CBase58Data

end Check

section Interleaving

theorem length_interleave {shift : Nat} {vchData : Bytes} {i : Nat} {versions : Bytes}
    (nonempty : versions ≠ []) (room : (i + versions.length) * shift ≤ vchData.length) :
    (interleave shift vchData i versions).length =
      versions.length + (vchData.length - i * shift) := by
  induction versions generalizing i with
  | nil => exact absurd rfl nonempty
  | cons version versions ih =>
    cases versions with
    | nil => simp [interleave]; omega
    | cons next versions =>
      have behind : i + 1 + (next :: versions).length = i + (version :: next :: versions).length := by
        rw [List.length_cons (a := version)]
        omega
      have rest := ih (i := i + 1) (List.cons_ne_nil _ _) (by rw [behind]; exact room)
      have share : (i + 2) * shift ≤ vchData.length :=
        (Nat.mul_le_mul_right shift (by simp)).trans room
      rw [interleave, List.length_append, List.length_cons, List.length_take, List.length_drop, rest,
        List.length_cons (a := version)]
      have next : (i + 1) * shift = i * shift + shift := by ring
      have after : (i + 2) * shift = i * shift + shift + shift := by ring
      omega

theorem drop_interleave {shift : Nat} {vchData : Bytes} {i : Nat} {version next : UInt8}
    {versions : Bytes} (room : (i + 1) * shift ≤ vchData.length) :
    (interleave shift vchData i (version :: next :: versions)).drop (shift + 1) =
      interleave shift vchData (i + 1) (next :: versions) := by
  have length : (version :: (vchData.drop (i * shift)).take shift).length = shift + 1 := by
    have after : (i + 1) * shift = i * shift + shift := by ring
    rw [List.length_cons, List.length_take, List.length_drop]
    omega
  rw [interleave, List.drop_left' length]

/-- From the place on where the `i`-th version byte stands, `SetString` reads what `ToString` has
written. -/
theorem separate_interleave {shift nVersionBytes : Nat} {vchData vchTemp : Bytes} {i : Nat}
    {versions : Bytes} (nonempty : versions ≠ [])
    (room : (i + versions.length) * shift ≤ vchData.length)
    (length : vchTemp.length = nVersionBytes + vchData.length)
    (written : vchTemp.drop (i * (shift + 1)) = interleave shift vchData i versions) :
    separate shift nVersionBytes vchTemp i versions.length = ⟨versions, vchData.drop (i * shift)⟩ := by
  induction versions generalizing i with
  | nil => exact absurd rfl nonempty
  | cons version versions ih =>
    have first : vchTemp.getD (i * (shift + 1)) 0 = version := by
      have front : (vchTemp.drop (i * (shift + 1))).head? = some version := by
        rw [written]
        cases versions <;> rfl
      rw [List.head?_drop] at front
      rw [List.getD_eq_getElem?_getD, front]
      rfl
    have share : vchTemp.drop (i * (shift + 1) + 1) =
        (interleave shift vchData i (version :: versions)).drop 1 := by
      rw [← written, List.drop_drop]
    cases versions with
    | nil =>
      have whole : vchTemp.length - nVersionBytes - i * shift = (vchData.drop (i * shift)).length := by
        rw [List.length_drop, length]
        omega
      simp only [List.length_singleton, separate, first, share, interleave, if_true]
      rw [whole, List.drop_one, List.tail_cons, List.take_length, List.append_nil]
    | cons next versions =>
      have behind : i + 1 + (next :: versions).length = i + (version :: next :: versions).length := by
        rw [List.length_cons (a := version)]
        omega
      have shareRoom : (i + 1) * shift ≤ vchData.length :=
        (Nat.mul_le_mul_right shift (by simp)).trans room
      have writtenBehind : vchTemp.drop ((i + 1) * (shift + 1)) =
          interleave shift vchData (i + 1) (next :: versions) := by
        have place : (i + 1) * (shift + 1) = i * (shift + 1) + (shift + 1) := by ring
        rw [place, ← List.drop_drop, written, drop_interleave shareRoom]
      have rest := ih (List.cons_ne_nil _ _) (by rw [behind]; exact room) writtenBehind
      have after : (i + 1) * shift = i * shift + shift := by ring
      have length : ((vchData.drop (i * shift)).take shift).length = shift := by
        rw [List.length_take, List.length_drop]
        omega
      rw [List.length_cons, separate, rest]
      simp only [first, share, List.length_cons, Nat.succ_ne_zero, if_false]
      rw [interleave, List.cons_append, List.drop_one, List.tail_cons, List.take_left' length, after,
        ← List.drop_drop, List.take_append_drop]

end Interleaving

section Addresses

variable (hash : Bytes → Hash) (addressChecksumValue : Int)

theorem length_addressChecksum (vch : Bytes) :
    (addressChecksum hash addressChecksumValue vch).length = 4 := length_putLE _ 4

theorem decodeBase58Check_encode (vch : Bytes) :
    ∃ str, encodeBase58Check hash addressChecksumValue vch = .ok str ∧
      decodeBase58Check hash addressChecksumValue str = .ok (some vch) := by
  obtain ⟨str, encoded, decoded⟩ :=
    decodeBase58_encode (vch ++ addressChecksum hash addressChecksumValue vch)
  refine ⟨str, encoded, ?_⟩
  have length : (vch ++ addressChecksum hash addressChecksumValue vch).length = vch.length + 4 := by
    rw [List.length_append, length_addressChecksum]
  rw [decodeBase58Check, decoded, Except.map, Option.bind_some, length, Nat.add_sub_cancel,
    List.take_left, List.drop_left, if_neg (by omega)]
  simp only [ne_eq, not_true_eq_false, if_false]

/-- No character of an encoded string is the zero that ends a string. -/
theorem cStr_encoded {bytes str : Bytes} (encoded : encodeBase58 bytes = .ok str) :
    cStr str = str := by
  rw [encodeBase58_eq] at encoded
  cases encoded
  apply List.takeWhile_eq_self_iff.mpr
  intro c member
  rcases List.mem_append.mp member with one | char
  · rw [List.eq_of_mem_replicate one]
    decide
  · obtain ⟨digit, inDigits, rfl⟩ := List.mem_map.mp char
    have small := Nat.digits_lt_base (by omega) (List.mem_reverse.mp inDigits)
    exact decide_eq_true (char_ne_zero small)

/-- `SetString` gives back what `ToString` has written, if it is told how many version bytes there
are. -/
theorem setString_toString {data : CBase58Data} (versions : data.vchVersion ≠ []) :
    ∃ str, data.toString hash addressChecksumValue = .ok str ∧ cStr str = str ∧
      CBase58Data.setString hash addressChecksumValue str data.vchVersion.length = .ok (some data) := by
  obtain ⟨vchVersion, vchData⟩ := data
  simp only at versions
  have positive : 0 < vchVersion.length := List.length_pos_iff.mpr versions
  have room : (0 + vchVersion.length) * (vchData.length / vchVersion.length) ≤ vchData.length := by
    rw [Nat.zero_add]
    exact Nat.mul_div_le _ _
  have length := length_interleave versions room
  rw [Nat.zero_mul, Nat.sub_zero] at length
  obtain ⟨str, encoded, decoded⟩ := decodeBase58Check_encode hash addressChecksumValue
    (interleave (vchData.length / vchVersion.length) vchData 0 vchVersion)
  refine ⟨str, ?_, cStr_encoded encoded, ?_⟩
  · simp only [CBase58Data.toString, encoded, Except.mapError]
    exact if_neg positive.ne'
  · have separated := separate_interleave versions room length
      (by rw [Nat.zero_mul, List.drop_zero])
    rw [Nat.zero_mul, List.drop_zero] at separated
    simp only [CBase58Data.setString, decoded, length, Nat.add_sub_cancel_left]
    rw [if_neg (by omega), if_neg positive.ne', separated]

/-- Addresses of one to four version bytes and a hash of twenty bytes, and base 58 itself, make the
round trip in both directions; and no assertion fails for a string of any length. -/
theorem base58_roundTrips :
    (∀ version keyHash : Bytes, 1 ≤ version.length → version.length ≤ 4 → keyHash.length = 20 →
      ∃ str, (CBase58Data.setData version keyHash).toString hash addressChecksumValue = .ok str ∧
        CBase58Data.setString hash addressChecksumValue str version.length =
          .ok (some ⟨version, keyHash⟩) ∧
        ∀ pubkeyAddress : Bytes, pubkeyAddress.length = version.length →
          CBase58Data.setStdString hash addressChecksumValue pubkeyAddress str =
            .ok (some ⟨version, keyHash⟩)) ∧
      (∀ bytes : Bytes, ∃ str, encodeBase58 bytes = .ok str ∧ decodeBase58 str = .ok (some bytes) ∧
        decodeBase58String str = .ok (some bytes)) ∧
      (∀ psz bytes : Bytes, (∀ c ∈ psz, isSpace c = false) → decodeBase58 psz = .ok (some bytes) →
        encodeBase58 bytes = .ok psz) ∧
      ∀ psz : Bytes, ∃ decoded, decodeBase58 psz = .ok decoded := by
  refine ⟨?_, ?_, fun psz bytes => encodeBase58_decode, decodeBase58_total⟩
  · intro version keyHash nonempty _ _
    have versions : (CBase58Data.setData version keyHash).vchVersion ≠ [] :=
      List.length_pos_iff.mp nonempty
    obtain ⟨str, written, whole, read⟩ := setString_toString hash addressChecksumValue versions
    refine ⟨str, written, read, fun pubkeyAddress length => ?_⟩
    rw [CBase58Data.setStdString, whole, length]
    exact read
  · intro bytes
    obtain ⟨str, encoded, decoded⟩ := decodeBase58_encode bytes
    refine ⟨str, encoded, decoded, ?_⟩
    rw [decodeBase58String, cStr_encoded encoded]
    exact decoded

/-- An address with two version bytes, and the string `1z` with its byte string. -/
theorem base58_roundTrips_twoVersions :
    (∃ str, (CBase58Data.setData [0, 0x1c] (List.replicate 20 7)).toString (fun _ => 5) 3 = .ok str ∧
      CBase58Data.setString (fun _ => 5) 3 str 2 =
        .ok (some ⟨[0, 0x1c], List.replicate 20 7⟩)) ∧
      encodeBase58 [0, 57] = .ok (literal "1z") := by
  obtain ⟨addresses, -, accepted, -⟩ := base58_roundTrips (fun _ => 5) 3
  obtain ⟨str, written, read, -⟩ := addresses [0, 0x1c] (List.replicate 20 7) (by decide) (by decide)
    (by decide)
  have noSpace : ∀ c ∈ literal "1z", isSpace c = false := by
    change ∀ c ∈ [0x31, 0x7a], isSpace c = false
    rw [List.forall_mem_cons, List.forall_mem_singleton]
    exact ⟨rfl, rfl⟩
  exact ⟨⟨str, written, read⟩, accepted (literal "1z") [0, 57] noSpace (by decide)⟩

end Addresses

end HdacNode
