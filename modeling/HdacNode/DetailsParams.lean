import HdacNode.DetailsScript

/-!
# The parameters of a details script

A details script is read as a list of parameters up to the first one that cannot be read.
`mc_FindSpecialParamInDetailsScript` and `mc_FindNamedParamInDetailsScript` find the first
parameter of their kind in it, but for an empty value at the end of the script.
-/

namespace HdacNode

/-- What names a parameter. -/
inductive ParamKey where
  | special (code : UInt8)
  | named (name : Bytes)
  deriving DecidableEq, Repr

/-- A parameter, and what is behind it. -/
structure ReadParam where
  key : ParamKey
  value : Bytes
  rest : Bytes
  deriving DecidableEq, Repr

namespace DetailsScript

/-- The key of the parameter that bytes begin with. -/
def keyOf (bytes : Bytes) : ParamKey :=
  if bytes[0]? = some 0 then .special (bytes[1]?.getD 0) else .named (bytes.takeWhile (· ≠ 0))

/-- The parameter that bytes begin with. -/
def readParam (bytes : Bytes) : Option ReadParam :=
  let size := nameSize bytes 0
  if bytes.length ≤ size then none
  else
    let (valueSize, shift) := getVarInt (bytes.drop size)
    if valueSize < 0 then none
    else if bytes.length < size + shift + valueSize.toNat then none
    else some ⟨keyOf bytes, (bytes.drop (size + shift)).take valueSize.toNat,
      bytes.drop (size + shift + valueSize.toNat)⟩

/-- The parameters that are read, for a number of them at most. -/
def parametersWithin : Nat → Bytes → List ReadParam
  | 0, _ => []
  | bound + 1, bytes =>
    match readParam bytes with
    | none => []
    | some param => param :: parametersWithin bound param.rest

/-- The parameters of a details script. -/
def parameters (script : Bytes) : List ReadParam := parametersWithin script.length script

/-- The value of the first parameter of a kind.  An empty value at the end of the script does
not count. -/
def lookup (script : Bytes) (isKey : ParamKey → Bool) : Option Bytes :=
  ((parameters script).find? fun param => isKey param.key).bind fun param =>
    if param.value = [] ∧ param.rest = [] then none else some param.value

section Reading

theorem nameSize_pos (bytes : Bytes) (offset : Nat) : 0 < nameSize bytes offset := by
  rw [nameSize]
  split
  · exact Nat.two_pos
  · exact Nat.succ_pos _

/-- A parameter that is read, with its parts. -/
theorem readParam_eq_some {bytes : Bytes} {param : ReadParam}
    (read : readParam bytes = some param) :
    ∃ shift, bytes.drop (nameSize bytes 0 + shift) = param.value ++ param.rest ∧
      nameSize bytes 0 + shift + param.value.length + param.rest.length = bytes.length ∧
      getVarInt (bytes.drop (nameSize bytes 0)) = ((param.value.length : Int), shift) ∧
      nameSize bytes 0 < bytes.length ∧ param.key = keyOf bytes := by
  rw [readParam] at read
  split_ifs at read with tooShort
  cases counted : getVarInt (bytes.drop (nameSize bytes 0)) with
  | mk valueSize shift =>
    rw [counted] at read
    dsimp only at read
    split_ifs at read with negative beyond
    cases read
    have length : ((bytes.drop (nameSize bytes 0 + shift)).take valueSize.toNat).length =
        valueSize.toNat := by
      rw [List.length_take, List.length_drop]
      omega
    refine ⟨shift, ?_, ?_, ?_, by omega, rfl⟩
    · rw [← List.drop_drop (i := valueSize.toNat), List.take_append_drop]
    · rw [length, List.length_drop]
      omega
    · rw [length]
      congr 1
      omega

theorem readParam_shorter {bytes : Bytes} {param : ReadParam}
    (read : readParam bytes = some param) : param.rest.length < bytes.length := by
  obtain ⟨shift, _, sizes, _⟩ := readParam_eq_some read
  have := nameSize_pos bytes 0
  omega

theorem parametersWithin_eq {bound : Nat} {script : Bytes} (enough : script.length ≤ bound) :
    parametersWithin bound script = parameters script := by
  have same (first second : Nat) (bytes : Bytes) (enoughFirst : bytes.length ≤ first)
      (enoughSecond : bytes.length ≤ second) :
      parametersWithin first bytes = parametersWithin second bytes := by
    induction first generalizing second bytes with
    | zero =>
      have empty : bytes = [] := List.eq_nil_of_length_eq_zero (by omega)
      rw [empty]
      cases second <;> rfl
    | succ first ih =>
      cases second with
      | zero =>
        have empty : bytes = [] := List.eq_nil_of_length_eq_zero (by omega)
        rw [empty]
        rfl
      | succ second =>
        rw [parametersWithin, parametersWithin]
        cases read : readParam bytes with
        | none => rfl
        | some param =>
          have shorter := readParam_shorter read
          dsimp only
          rw [ih second param.rest (by omega) (by omega)]
  exact same _ _ _ enough (Nat.le_refl _)

/-- The parameters of a script are its first one and those behind it. -/
theorem parameters_of_readParam {bytes : Bytes} {param : ReadParam}
    (read : readParam bytes = some param) : parameters bytes = param :: parameters param.rest := by
  have shorter := readParam_shorter read
  obtain ⟨bound, length⟩ : ∃ bound, bytes.length = bound + 1 := ⟨bytes.length - 1, by omega⟩
  rw [parameters, length, parametersWithin, read]
  dsimp only
  rw [parametersWithin_eq (by omega)]

theorem parameters_of_unreadable {bytes : Bytes} (unreadable : readParam bytes = none) :
    parameters bytes = [] := by
  rw [parameters]
  cases bytes.length with
  | zero => rfl
  | succ bound => rw [parametersWithin, unreadable]

theorem strlen_drop (script : Bytes) (offset : Nat) :
    strlen (script.drop offset) 0 = strlen script offset := by
  rw [strlen, strlen, List.drop_zero]

theorem nameSize_drop (script : Bytes) (offset : Nat) :
    nameSize (script.drop offset) 0 = nameSize script offset := by
  rw [nameSize, nameSize, strlen_drop, List.getElem?_drop, Nat.add_zero]

/-- The reader of the source reads the parameter that stands at its offset. -/
theorem getParam_eq {script : Bytes} {offset : Nat} (inside : offset < script.length) :
    getParam script offset =
      match readParam (script.drop offset) with
      | none => ⟨script.length, 0, 0, true⟩
      | some param =>
        ⟨script.length - param.rest.length,
          script.length - param.rest.length - param.value.length, param.value.length, false⟩ := by
  cases read : readParam (script.drop offset) with
  | some param =>
    obtain ⟨shift, _, sizes, counted, bigger, _⟩ := readParam_eq_some read
    rw [nameSize_drop, List.length_drop] at sizes bigger
    rw [nameSize_drop, List.drop_drop] at counted
    rw [getParam]
    dsimp only
    rw [if_neg (by omega), if_neg (by omega), counted]
    dsimp only
    rw [if_neg (by omega), Int.toNat_natCast, if_neg (by omega)]
    have valueStart : offset + nameSize script offset + shift =
        script.length - param.rest.length - param.value.length := by omega
    have nextOffset : offset + (nameSize script offset + shift + param.value.length) =
        script.length - param.rest.length := by omega
    rw [valueStart, nextOffset]
  | none =>
    rw [readParam, nameSize_drop, List.length_drop, List.drop_drop] at read
    rw [getParam]
    dsimp only
    rw [if_neg (by omega)]
    by_cases tooShort : script.length ≤ offset + nameSize script offset
    · rw [if_pos tooShort]
    · rw [if_neg (by omega)] at read
      rw [if_neg tooShort]
      cases counted : getVarInt (script.drop (offset + nameSize script offset)) with
      | mk valueSize shift =>
        rw [counted] at read
        dsimp only at read ⊢
        by_cases negative : valueSize < 0
        · rw [if_pos negative]
        · rw [if_neg negative] at read ⊢
          by_cases beyond : script.length - offset <
              nameSize script offset + shift + valueSize.toNat
          · rw [if_pos (by omega)]
          · rw [if_neg beyond] at read
            cases read

/-- The searches find the first parameter of their kind. -/
theorem findParam_eq {script : Bytes} {isParam : Nat → Bool} {isKey : ParamKey → Bool}
    (kinds : ∀ offset, offset < script.length → (readParam (script.drop offset)).isSome →
      isParam offset = isKey (keyOf (script.drop offset)))
    {fuel offset : Nat} (enough : script.length < fuel + offset) (inside : offset ≤ script.length) :
    findParam script isParam fuel offset =
      match (parameters (script.drop offset)).find? fun param => isKey param.key with
      | none => (script.length, 0)
      | some param =>
        (script.length - param.rest.length - param.value.length, param.value.length) := by
  induction fuel generalizing offset with
  | zero => omega
  | succ fuel ih =>
    rw [findParam]
    by_cases atEnd : offset < script.length
    · rw [if_pos atEnd, getParam_eq atEnd]
      cases read : readParam (script.drop offset) with
      | none =>
        dsimp only
        rw [parameters_of_unreadable read, if_neg (by simp), ih (by omega) (Nat.le_refl _),
          List.drop_length, parameters_of_unreadable rfl]
      | some param =>
        obtain ⟨shift, whole, sizes, _, _, key⟩ := readParam_eq_some read
        have positive := nameSize_pos (script.drop offset) 0
        rw [List.length_drop] at sizes
        dsimp only
        rw [parameters_of_readParam read]
        have sameKind : isParam offset = isKey param.key := by
          rw [key]
          exact kinds offset atEnd (by rw [read]; rfl)
        by_cases isFound : isKey param.key = true
        · have first : (param :: parameters param.rest).find? (fun param => isKey param.key) =
              some param := List.find?_cons_of_pos isFound
          rw [if_pos ⟨by omega, sameKind.trans isFound⟩, first]
        · have later : (param :: parameters param.rest).find? (fun param => isKey param.key) =
              (parameters param.rest).find? fun param => isKey param.key :=
            List.find?_cons_of_neg isFound
          have rest : script.drop (script.length - param.rest.length) = param.rest := by
            have behind : (script.drop (offset + (nameSize (script.drop offset) 0 + shift))).drop
                param.value.length = param.rest := by
              rw [← List.drop_drop, whole, List.drop_left]
            have position : script.length - param.rest.length =
                offset + (nameSize (script.drop offset) 0 + shift) + param.value.length := by omega
            rw [position, ← List.drop_drop, behind]
          rw [if_neg (by rw [sameKind]; exact fun both => isFound both.2), later,
            ih (by omega) (by omega), rest]
    · have done : offset = script.length := by omega
      rw [if_neg atEnd, done, List.drop_length, parameters_of_unreadable rfl]
      rfl

end Reading

section Searching

theorem value_suffix {script : Bytes} {param : ReadParam} (read : param ∈ parameters script) :
    param.value ++ param.rest <:+ script := by
  induction length : script.length using Nat.strong_induction_on generalizing script with
  | _ size ih =>
    cases first : readParam script with
    | none =>
      rw [parameters_of_unreadable first] at read
      cases read
    | some head =>
      obtain ⟨shift, whole, _⟩ := readParam_eq_some first
      have headSuffix : head.value ++ head.rest <:+ script := by
        rw [← whole]
        exact List.drop_suffix _ _
      rw [parameters_of_readParam first, List.mem_cons] at read
      rcases read with rfl | later
      · exact headSuffix
      · have shorter := readParam_shorter first
        exact (ih head.rest.length (by omega) later rfl).trans
          ((List.suffix_append _ _).trans headSuffix)

/-- What a search returns for the value that it looks for. -/
def Finds (script : Bytes) (param : Nat × Nat) : Option Bytes → Prop
  | none => param = (script.length, 0)
  | some found => ∃ before behind, script = before ++ (found ++ behind) ∧
      param = (before.length, found.length) ∧ ¬ (found = [] ∧ behind = [])

theorem findParam_finds {script : Bytes} {isParam : Nat → Bool} {isKey : ParamKey → Bool}
    (kinds : ∀ offset, offset < script.length → (readParam (script.drop offset)).isSome →
      isParam offset = isKey (keyOf (script.drop offset))) :
    Finds script (findParam script isParam (script.length + 1) 0) (lookup script isKey) := by
  rw [findParam_eq kinds (by omega) (Nat.zero_le _), List.drop_zero, lookup]
  cases first : (parameters script).find? fun param => isKey param.key with
  | none => rfl
  | some param =>
    obtain ⟨before, script_eq⟩ := value_suffix (List.mem_of_find?_eq_some first)
    dsimp only [Option.bind_some]
    have length := congrArg List.length script_eq
    simp only [List.length_append] at length
    split_ifs with isEmpty
    · rw [Finds, isEmpty.1, isEmpty.2]
      rfl
    · refine ⟨before, param.rest, script_eq.symm, ?_, isEmpty⟩
      congr 1
      omega

/-- The value of the first special parameter with a code. -/
def specialValue (script : Bytes) (code : UInt8) : Option Bytes :=
  lookup script fun key => key = .special code

/-- Whether a key is a name, up to the case of its letters. -/
def isNamed (name : Bytes) : ParamKey → Bool
  | .special _ => false
  | .named found => found.length = name.length ∧ (List.zipWith sameLetter name found).all id

/-- The value of the first parameter with a name. -/
def namedValue (script name : Bytes) : Option Bytes :=
  lookup script (isNamed name)

/-- What the search for a special parameter looks at, told by the key. -/
theorem isSpecialParam_eq {script : Bytes} (code : UInt8) {offset : Nat}
    (read : (readParam (script.drop offset)).isSome) :
    decide (script[offset]? = some 0 ∧ script[offset + 1]? = some code) =
      decide (keyOf (script.drop offset) = .special code) := by
  obtain ⟨param, read⟩ := Option.isSome_iff_exists.mp read
  obtain ⟨_, _, _, _, bigger, _⟩ := readParam_eq_some read
  simp only [keyOf, List.getElem?_drop, Nat.add_zero]
  by_cases isZero : script[offset]? = some 0
  · have second : offset + 1 < script.length := by
      rw [nameSize, List.getElem?_drop, Nat.add_zero, if_pos isZero, List.length_drop] at bigger
      omega
    rw [if_pos isZero, List.getElem?_eq_getElem second]
    simp [isZero]
  · rw [if_neg isZero]
    simp [isZero]

/-- What the search for a named parameter looks at, told by the key. -/
theorem isNamedParam_eq {script : Bytes} (name : Bytes) (offset : Nat) :
    decide (script[offset]? ≠ some 0 ∧
      let found := (script.drop offset).takeWhile (· ≠ 0)
      found.length = name.length ∧ (List.zipWith sameLetter name found).all id) =
      isNamed name (keyOf (script.drop offset)) := by
  simp only [keyOf, List.getElem?_drop, Nat.add_zero]
  by_cases isZero : script[offset]? = some 0
  · rw [if_pos isZero]
    simp [isZero, isNamed]
  · rw [if_neg isZero]
    simp [isZero, isNamed]

theorem findSpecialParam_finds (script : Bytes) (code : UInt8) :
    Finds script (findSpecialParam script code) (specialValue script code) := by
  apply findParam_finds
  intro offset _ read
  exact isSpecialParam_eq code read

theorem findNamedParam_finds (script name : Bytes) :
    Finds script (findNamedParam script name) (namedValue script name) := by
  apply findParam_finds
  intro offset _ _
  exact isNamedParam_eq name offset

namespace Finds

variable {script : Bytes} {param : Nat × Nat} {found : Option Bytes}

theorem inside_iff (finds : Finds script param found) :
    param.1 < script.length ↔ found.isSome := by
  cases found with
  | none =>
    have nowhere : param = (script.length, 0) := finds
    simp [nowhere]
  | some value =>
    obtain ⟨before, behind, rfl, rfl, notEmpty⟩ := finds
    have positive : 0 < (value ++ behind).length :=
      List.length_pos_of_ne_nil fun empty => notEmpty (List.append_eq_nil_iff.mp empty)
    rw [List.length_append]
    simpa using positive

theorem length_eq {value : Bytes} (finds : Finds script param (some value)) :
    param.2 = value.length := by
  obtain ⟨_, _, _, rfl, _⟩ := finds
  rfl

theorem value_eq {value : Bytes} (finds : Finds script param (some value)) :
    DetailsScript.value script param = value := by
  obtain ⟨before, behind, rfl, rfl, _⟩ := finds
  rw [DetailsScript.value, List.drop_left, List.take_left]

/-- The last byte of a value that is found. -/
theorem last_eq {value : Bytes} (finds : Finds script param (some value)) (some : value ≠ []) :
    script[param.1 + param.2 - 1]? = value.getLast? := by
  obtain ⟨before, behind, rfl, rfl, _⟩ := finds
  have positive := List.length_pos_of_ne_nil some
  rw [List.getElem?_append_right (by omega), List.getElem?_append_left (by dsimp only; omega),
    List.getLast?_eq_getElem?]
  congr 1
  dsimp only
  omega

end Finds

end Searching

section Writing

theorem length_putVarInt_pos (length : Nat) : 0 < (putVarInt length).length := by
  rw [putVarInt]
  split_ifs <;> simp [length_putLE]

theorem getVarInt_sized {marker : UInt8} {size length : Nat} (sized : varIntSize marker = size)
    (fits : length < 2 ^ (8 * size) ∧ length < 2 ^ 31) (some : size ≠ 0) (rest : Bytes) :
    getVarInt (marker :: putLE length size ++ rest) =
      ((length : Int), (marker :: putLE length size).length) := by
  have taken : (putLE length size ++ rest).take size = putLE length size := by
    have whole : (putLE length size ++ rest).take (putLE length size).length =
        putLE length size := List.take_left
    rwa [length_putLE] at whole
  have word : toInt32 length = length := by
    rw [toInt32, Nat.mod_eq_of_lt (by omega), if_pos fits.2]
  rw [List.cons_append, getVarInt, sized, taken, getLE_putLE fits.1, word, if_neg (by simp [length_putLE]), if_neg some,
    List.length_cons, length_putLE]

/-- The reader of a length reads what the writer writes. -/
theorem getVarInt_putVarInt {length : Nat} (fits : length < 2 ^ 31) (rest : Bytes) :
    getVarInt (putVarInt length ++ rest) = ((length : Int), (putVarInt length).length) := by
  rw [putVarInt]
  split_ifs with one two four
  · rw [putLE_one, List.singleton_append, getVarInt]
    have byte : (UInt8.ofNat length).toNat = length := by
      rw [UInt8.toNat_ofNat']
      omega
    have small : UInt8.ofNat length < 0xfd := by
      rw [UInt8.lt_iff_toNat_lt, byte]
      exact one
    simp [varIntSize, small, byte]
  · have sized : varIntSize 0xfd = 2 := by decide
    exact getVarInt_sized sized ⟨by omega, fits⟩ (by decide) rest
  · have sized : varIntSize 0xfe = 4 := by decide
    exact getVarInt_sized sized ⟨by omega, fits⟩ (by decide) rest
  · omega

theorem readParam_specialParamValue (code : UInt8) {value : Bytes}
    (fits : value.length < 2 ^ 31) (rest : Bytes) :
    readParam (specialParamValue code value ++ rest) = some ⟨.special code, value, rest⟩ := by
  have shape : specialParamValue code value ++ rest =
      0 :: code :: (putVarInt value.length ++ (value ++ rest)) := by
    simp [specialParamValue]
  have size : nameSize (specialParamValue code value ++ rest) 0 = 2 := by
    rw [shape]
    rfl
  have length : (specialParamValue code value ++ rest).length =
      2 + (putVarInt value.length).length + value.length + rest.length := by
    rw [shape]
    simp only [List.length_cons, List.length_append]
    omega
  have positive := length_putVarInt_pos value.length
  have body : (specialParamValue code value ++ rest).drop 2 =
      putVarInt value.length ++ (value ++ rest) := by
    rw [shape]
    rfl
  have behind : (specialParamValue code value ++ rest).drop
      (2 + (putVarInt value.length).length) = value ++ rest := by
    rw [← List.drop_drop, body, List.drop_left]
  rw [readParam, size, body, getVarInt_putVarInt fits]
  dsimp only
  rw [if_neg (by omega), if_neg (by omega), if_neg (by omega), Int.toNat_natCast, behind,
    List.take_left, ← List.drop_drop (i := value.length), behind, List.drop_left, shape]
  rfl

theorem lookup_specialParamValue (isKey : ParamKey → Bool) (code : UInt8) {value : Bytes}
    (fits : value.length < 2 ^ 31) (rest : Bytes) :
    lookup (specialParamValue code value ++ rest) isKey =
      if isKey (.special code) then (if value = [] ∧ rest = [] then none else some value)
      else lookup rest isKey := by
  rw [lookup, parameters_of_readParam (readParam_specialParamValue code fits rest),
    List.find?_cons]
  dsimp only
  cases isKey (.special code) with
  | true => rfl
  | false => rfl

end Writing

end DetailsScript

end HdacNode
