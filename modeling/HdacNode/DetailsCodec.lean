import HdacNode.DetailsParams
import Mathlib.Data.List.TakeWhile

/-!
# Writing and reading details scripts

`SetSpecialParamValue` and `SetParamValue` append parameters to a details
script, `mc_GetParamFromDetailsScript` steps over them, and the two searches and
the check use these steps.  What is written is read back in order, as long as
the names have letters and no zero byte among them, since a name ends at the
first zero byte and a zero byte at the start of a parameter makes it special.
-/

namespace HdacNode

/-- `mc_Script::SetParamValue`: what it appends to an element. -/
def paramValue (name value : Bytes) : Bytes :=
  name ++ [0] ++ putVarInt value.length ++ value

/-- A call that appends a parameter. -/
inductive ParamCall where
  | special (param : UInt8) (value : Bytes)
  | named (name value : Bytes)
  deriving DecidableEq, Repr

namespace ParamCall

def key : ParamCall → ParamKey
  | .special param _ => .special param
  | .named name _ => .named name

def value : ParamCall → Bytes
  | .special _ value => value
  | .named _ value => value

/-- What a call appends. -/
def bytes : ParamCall → Bytes
  | .special param value => specialParamValue param value
  | .named name value => paramValue name value

/-- A name that can be read back: it is not empty and holds no zero byte. -/
def Readable : ParamCall → Prop
  | .special _ _ => True
  | .named name _ => name ≠ [] ∧ 0 ∉ name

end ParamCall

/-- The details script that calls make. -/
def detailsScript (calls : List ParamCall) : Bytes :=
  calls.flatMap ParamCall.bytes

@[simp]
theorem detailsScript_cons (call : ParamCall) (calls : List ParamCall) :
    detailsScript (call :: calls) = call.bytes ++ detailsScript calls :=
  rfl

theorem detailsScript_append (calls later : List ParamCall) :
    detailsScript (calls ++ later) = detailsScript calls ++ detailsScript later :=
  List.flatMap_append

namespace DetailsScript

/-- The steps of `mc_GetParamFromDetailsScript` from an offset on, with the offset of each. -/
def paramsFrom (script : Bytes) : Nat → Nat → List (Nat × DetailsParam)
  | 0, _ => []
  | fuel + 1, offset =>
      if offset < script.length then
        (offset, getParam script offset) ::
          paramsFrom script fuel (getParam script offset).nextOffset
      else []

/-- What a step from an offset yields: the key and the value, and whether it failed. -/
def stepResult (script : Bytes) (step : Nat × DetailsParam) : ParamKey × Bytes × Bool :=
  (keyOf (script.drop step.1), value script (step.2.valueStart, step.2.valueSize), step.2.failed)

section Reading

theorem readParam_paramValue {name value : Bytes} (readable : name ≠ [] ∧ 0 ∉ name)
    (fits : value.length < 2 ^ 31) (rest : Bytes) :
    readParam (paramValue name value ++ rest) = some ⟨.named name, value, rest⟩ := by
  obtain ⟨notEmpty, noZero⟩ := readable
  have shape : paramValue name value ++ rest =
      name ++ 0 :: (putVarInt value.length ++ (value ++ rest)) := by
    simp [paramValue]
  have taken : (paramValue name value ++ rest).takeWhile (· ≠ 0) = name := by
    have letters : ∀ letter ∈ name, decide (letter ≠ 0) = true := by
      intro letter member
      apply decide_eq_true
      rintro rfl
      exact noZero member
    rw [shape, List.takeWhile_append_of_pos letters]
    simp
  have notSpecial : ¬ (paramValue name value ++ rest)[0]? = some 0 := by
    obtain ⟨letter, letters, rfl⟩ := List.exists_cons_of_ne_nil notEmpty
    rw [shape]
    simp only [List.cons_append, List.getElem?_cons_zero, Option.some.injEq]
    rintro rfl
    exact noZero (by simp)
  have size : nameSize (paramValue name value ++ rest) 0 = name.length + 1 := by
    rw [nameSize, if_neg notSpecial, strlen, List.drop_zero, taken]
  have length : (paramValue name value ++ rest).length =
      name.length + 1 + (putVarInt value.length).length + value.length + rest.length := by
    rw [shape]
    simp only [List.length_append, List.length_cons]
    omega
  have positive := length_putVarInt_pos value.length
  have body : (paramValue name value ++ rest).drop (name.length + 1) =
      putVarInt value.length ++ (value ++ rest) := by
    rw [shape, ← List.drop_drop, List.drop_left]
    rfl
  have behind : (paramValue name value ++ rest).drop
      (name.length + 1 + (putVarInt value.length).length) = value ++ rest := by
    rw [← List.drop_drop, body, List.drop_left]
  have named : keyOf (paramValue name value ++ rest) = .named name := by
    rw [keyOf, if_neg notSpecial, taken]
  rw [readParam, size, body, getVarInt_putVarInt fits]
  dsimp only
  rw [if_neg (by omega), if_neg (by omega), if_neg (by omega), Int.toNat_natCast, behind,
    List.take_left, ← List.drop_drop (i := value.length), behind, List.drop_left, named]

/-- What a call writes is read back, whatever follows it. -/
theorem readParam_bytes {call : ParamCall} (readable : call.Readable)
    (fits : call.value.length < 2 ^ 31) (rest : Bytes) :
    readParam (call.bytes ++ rest) = some ⟨call.key, call.value, rest⟩ := by
  cases call with
  | special param value => exact readParam_specialParamValue param fits rest
  | named name value => exact readParam_paramValue readable fits rest

theorem length_value_le (call : ParamCall) : call.value.length < call.bytes.length := by
  cases call with
  | special param value =>
      simp only [ParamCall.value, ParamCall.bytes, specialParamValue, List.length_append,
        List.length_cons]
      omega
  | named name value =>
      simp only [ParamCall.value, ParamCall.bytes, paramValue, List.length_append,
        List.length_cons]
      omega

theorem length_value_lt_of_mem {calls : List ParamCall}
    (fits : (detailsScript calls).length < 2 ^ 31) :
    ∀ call ∈ calls, call.value.length < 2 ^ 31 := by
  intro call member
  obtain ⟨earlier, later, rfl⟩ := List.append_of_mem member
  rw [detailsScript_append, detailsScript_cons, List.length_append, List.length_append] at fits
  have shorter := length_value_le call
  omega

theorem parameters_detailsScript {calls : List ParamCall}
    (readable : ∀ call ∈ calls, call.Readable)
    (fits : ∀ call ∈ calls, call.value.length < 2 ^ 31) :
    (parameters (detailsScript calls)).map (fun param => (param.key, param.value)) =
      calls.map fun call => (call.key, call.value) := by
  induction calls with
  | nil => rfl
  | cons call calls ih =>
      have read := readParam_bytes (readable call (by simp)) (fits call (by simp))
        (detailsScript calls)
      have rest := ih (fun other member => readable other (by simp [member]))
        (fun other member => fits other (by simp [member]))
      rw [detailsScript_cons, parameters_of_readParam read, List.map_cons, rest, List.map_cons]

/-- A step from the start of what a call has written. -/
theorem getParam_detailsScript {before : Bytes} {call : ParamCall} {calls : List ParamCall}
    (readable : call.Readable) (fits : call.value.length < 2 ^ 31) :
    getParam (before ++ detailsScript (call :: calls)) before.length =
      ⟨(before ++ call.bytes).length, (before ++ call.bytes).length - call.value.length,
        call.value.length, false⟩ := by
  have positive := length_value_le call
  have inside : before.length < (before ++ detailsScript (call :: calls)).length := by
    rw [List.length_append, detailsScript_cons, List.length_append]
    omega
  have behind : (before ++ detailsScript (call :: calls)).length - (detailsScript calls).length =
      (before ++ call.bytes).length := by
    rw [List.length_append, detailsScript_cons, List.length_append, List.length_append]
    omega
  rw [getParam_eq inside, List.drop_left, detailsScript_cons,
    readParam_bytes readable fits (detailsScript calls)]
  dsimp only
  rw [← detailsScript_cons, behind]

theorem value_of_bytes (before : Bytes) (call : ParamCall) (behind : Bytes) :
    value (before ++ (call.bytes ++ behind))
      ((before ++ call.bytes).length - call.value.length, call.value.length) = call.value := by
  obtain ⟨front, bytesEq⟩ : ∃ front, call.bytes = front ++ call.value := by
    cases call with
    | special param value => exact ⟨_, rfl⟩
    | named name value => exact ⟨_, rfl⟩
  have start : (before ++ call.bytes).length - call.value.length = (before ++ front).length := by
    rw [bytesEq]
    simp only [List.length_append]
    omega
  have whole : before ++ (call.bytes ++ behind) =
      (before ++ front) ++ (call.value ++ behind) := by
    rw [bytesEq]
    simp
  rw [value, start, whole, List.drop_left, List.take_left]

theorem paramsFrom_detailsScript (before : Bytes) {calls : List ParamCall} {fuel : Nat}
    (readable : ∀ call ∈ calls, call.Readable)
    (fits : ∀ call ∈ calls, call.value.length < 2 ^ 31) (enough : calls.length < fuel) :
    (paramsFrom (before ++ detailsScript calls) fuel before.length).map
        (stepResult (before ++ detailsScript calls)) =
      calls.map fun call => (call.key, call.value, false) := by
  induction calls generalizing before fuel with
  | nil =>
      obtain ⟨fuel, rfl⟩ : ∃ less, fuel = less + 1 := ⟨fuel - 1, by simp at enough; omega⟩
      simp [paramsFrom, detailsScript]
  | cons call calls ih =>
      obtain ⟨fuel, rfl⟩ : ∃ less, fuel = less + 1 := ⟨fuel - 1, by omega⟩
      have callReadable := readable call (by simp)
      have callFits := fits call (by simp)
      have step := @getParam_detailsScript before call calls callReadable callFits
      have positive := length_value_le call
      have inside : before.length < (before ++ detailsScript (call :: calls)).length := by
        rw [List.length_append, detailsScript_cons, List.length_append]
        omega
      have rest := ih (before ++ call.bytes) (fun other member => readable other (by simp [member]))
        (fun other member => fits other (by simp [member])) (by simpa using enough)
      have joined : before ++ call.bytes ++ detailsScript calls =
          before ++ detailsScript (call :: calls) := by
        rw [detailsScript_cons, List.append_assoc]
      rw [joined] at rest
      have key : keyOf (detailsScript (call :: calls)) = call.key := by
        obtain ⟨_, _, _, _, _, isKey⟩ :=
          readParam_eq_some (readParam_bytes callReadable callFits (detailsScript calls))
        exact isKey.symm
      rw [paramsFrom, if_pos inside, step, List.map_cons, List.map_cons, rest, stepResult,
        List.drop_left, key]
      dsimp only
      rw [detailsScript_cons, value_of_bytes]

/-- The check accepts the script that calls make. -/
theorem verifyFrom_detailsScript (before : Bytes) {calls : List ParamCall} {fuel : Nat}
    (readable : ∀ call ∈ calls, call.Readable)
    (fits : ∀ call ∈ calls, call.value.length < 2 ^ 31) :
    verifyFrom (before ++ detailsScript calls) fuel before.length = true := by
  induction calls generalizing before fuel with
  | nil => cases fuel <;> simp [verifyFrom, detailsScript]
  | cons call calls ih =>
      cases fuel with
      | zero => rfl
      | succ fuel =>
          have rest := @ih (before ++ call.bytes) fuel
            (fun other member => readable other (by simp [member]))
            (fun other member => fits other (by simp [member]))
          have joined : before ++ call.bytes ++ detailsScript calls =
              before ++ detailsScript (call :: calls) := by
            rw [detailsScript_cons, List.append_assoc]
          have step := @getParam_detailsScript before call calls (readable call (by simp))
            (fits call (by simp))
          rw [joined] at rest
          rw [verifyFrom, step]
          dsimp only
          rw [rest]
          simp

theorem getParam_advances (script : Bytes) {offset : Nat} (inside : offset < script.length) :
    offset < (getParam script offset).nextOffset ∧
      (getParam script offset).nextOffset ≤ script.length ∧
      (getParam script offset).valueStart + (getParam script offset).valueSize ≤
        (getParam script offset).nextOffset := by
  rw [getParam_eq inside]
  cases read : readParam (script.drop offset) with
  | none =>
      dsimp only
      omega
  | some param =>
      obtain ⟨shift, _, sizes, _⟩ := readParam_eq_some read
      have positive := nameSize_pos (script.drop offset) 0
      rw [List.length_drop] at sizes
      dsimp only
      omega

theorem findParam_detailsScript {calls : List ParamCall} {isParam : Nat → Bool}
    {isKey : ParamKey → Bool}
    (kinds : ∀ offset, offset < (detailsScript calls).length →
      (readParam ((detailsScript calls).drop offset)).isSome →
        isParam offset = isKey (keyOf ((detailsScript calls).drop offset)))
    (readable : ∀ call ∈ calls, call.Readable)
    (fits : ∀ call ∈ calls, call.value.length < 2 ^ 31) :
    ((∀ call ∈ calls, isKey call.key = false) →
      findParam (detailsScript calls) isParam ((detailsScript calls).length + 1) 0 =
        ((detailsScript calls).length, 0)) ∧
    ∀ earlier call later, calls = earlier ++ call :: later →
      (∀ other ∈ earlier, isKey other.key = false) → isKey call.key = true →
      findParam (detailsScript calls) isParam ((detailsScript calls).length + 1) 0 =
        ((detailsScript (earlier ++ [call])).length - call.value.length, call.value.length) := by
  have searched := @findParam_eq _ isParam isKey kinds ((detailsScript calls).length + 1) 0
    (by omega) (Nat.zero_le _)
  rw [List.drop_zero] at searched
  rw [searched]
  clear kinds searched
  constructor
  · intro none
    have notFound : (parameters (detailsScript calls)).find? (fun param => isKey param.key) =
        Option.none := by
      rw [List.find?_eq_none]
      intro param member
      have pair : (param.key, param.value) ∈ calls.map fun call => (call.key, call.value) := by
        rw [← parameters_detailsScript readable fits]
        exact List.mem_map_of_mem member
      obtain ⟨call, callMember, same⟩ := List.mem_map.1 pair
      rw [← (Prod.mk.inj same).1, none call callMember]
      decide
    rw [notFound]
  · rintro earlier call later rfl notEarlier isCall
    have found : (parameters (detailsScript (earlier ++ call :: later))).find?
        (fun param => isKey param.key) = some ⟨call.key, call.value, detailsScript later⟩ := by
      induction earlier with
      | nil =>
          have read := readParam_bytes (readable call (by simp)) (fits call (by simp))
            (detailsScript later)
          rw [List.nil_append, detailsScript_cons, parameters_of_readParam read, List.find?_cons]
          dsimp only
          rw [isCall]
      | cons other earlier ih =>
          have read := readParam_bytes (readable other (by simp)) (fits other (by simp))
            (detailsScript (earlier ++ call :: later))
          rw [List.cons_append, detailsScript_cons, parameters_of_readParam read,
            List.find?_cons]
          dsimp only
          rw [notEarlier other (by simp)]
          apply ih
          · intro another member
            exact readable another (List.mem_cons_of_mem other member)
          · intro another member
            exact fits another (List.mem_cons_of_mem other member)
          · intro another member
            exact notEarlier another (by simp [member])
    have lengths : (detailsScript (earlier ++ call :: later)).length -
        (detailsScript later).length = (detailsScript (earlier ++ [call])).length := by
      have none : detailsScript [] = [] := rfl
      rw [detailsScript_append, detailsScript_append, detailsScript_cons, detailsScript_cons, none]
      simp only [List.length_append, List.length_nil]
      omega
    rw [found]
    dsimp only
    rw [lengths]

end Reading

/-- What holds of the script that calls make: the steps yield the parameters in order and stop at
its end, the searches return the first match, and the check accepts the script. -/
structure Decodes (calls : List ParamCall) : Prop where
  steps : (paramsFrom (detailsScript calls) ((detailsScript calls).length + 1) 0).map
      (stepResult (detailsScript calls)) = calls.map fun call => (call.key, call.value, false)
  special_none : ∀ code, (∀ call ∈ calls, call.key ≠ .special code) →
    findSpecialParam (detailsScript calls) code = ((detailsScript calls).length, 0)
  special_first : ∀ code earlier call later, calls = earlier ++ call :: later →
    (∀ other ∈ earlier, other.key ≠ .special code) → call.key = .special code →
    findSpecialParam (detailsScript calls) code =
      ((detailsScript (earlier ++ [call])).length - call.value.length, call.value.length)
  named_none : ∀ name, (∀ call ∈ calls, isNamed name call.key = false) →
    findNamedParam (detailsScript calls) name = ((detailsScript calls).length, 0)
  named_first : ∀ name earlier call later, calls = earlier ++ call :: later →
    (∀ other ∈ earlier, isNamed name other.key = false) → isNamed name call.key = true →
    findNamedParam (detailsScript calls) name =
      ((detailsScript (earlier ++ [call])).length - call.value.length, call.value.length)
  verifies : verify (detailsScript calls) = true

theorem readable_of_keyOf {bytes : Bytes} (some : bytes ≠ []) {call : ParamCall}
    (isKey : keyOf bytes = call.key) : call.Readable := by
  cases call with
  | special param value => trivial
  | named name value =>
      obtain ⟨letter, letters, rfl⟩ := List.exists_cons_of_ne_nil some
      rw [keyOf] at isKey
      by_cases isZero : letter = 0
      · simp [isZero, ParamCall.key] at isKey
      · have taken : (letter :: letters).takeWhile (· ≠ 0) = name := by
          simpa [isZero, ParamCall.key] using isKey
        rw [← taken]
        constructor
        · simp [isZero]
        · intro member
          simpa using List.mem_takeWhile_imp member

theorem offset_lt_of_mem_paramsFrom {script : Bytes} {fuel offset : Nat}
    {step : Nat × DetailsParam} (member : step ∈ paramsFrom script fuel offset) :
    step.1 < script.length := by
  induction fuel generalizing offset with
  | zero => cases member
  | succ fuel ih =>
      rw [paramsFrom] at member
      split_ifs at member with inside
      · rcases List.mem_cons.1 member with rfl | later
        · exact inside
        · exact ih later
      · cases member

theorem length_le_detailsScript (calls : List ParamCall) :
    calls.length ≤ (detailsScript calls).length := by
  induction calls with
  | nil => exact Nat.le_refl _
  | cons call calls ih =>
      have positive := length_value_le call
      rw [detailsScript_cons, List.length_append, List.length_cons]
      omega

namespace Decodes

theorem readable {calls : List ParamCall} (decodes : Decodes calls) :
    ∀ call ∈ calls, call.Readable := by
  intro call member
  have written : (call.key, call.value, false) ∈
      (paramsFrom (detailsScript calls) ((detailsScript calls).length + 1) 0).map
        (stepResult (detailsScript calls)) := by
    rw [decodes.steps]
    exact List.mem_map_of_mem member
  obtain ⟨step, isStep, result⟩ := List.mem_map.1 written
  have inside := offset_lt_of_mem_paramsFrom isStep
  have some : (detailsScript calls).drop step.1 ≠ [] := by
    intro empty
    have nothing := congrArg List.length empty
    rw [List.length_drop, List.length_nil] at nothing
    omega
  exact readable_of_keyOf some (Prod.mk.inj result).1

theorem of_readable {calls : List ParamCall} (readable : ∀ call ∈ calls, call.Readable)
    (fits : (detailsScript calls).length < 2 ^ 31) : Decodes calls := by
  have valuesFit := length_value_lt_of_mem fits
  have specials (code : UInt8) := @findParam_detailsScript calls _
    (fun key => decide (key = .special code)) (fun _ _ read => isSpecialParam_eq code read)
    readable valuesFit
  have names (name : Bytes) := findParam_detailsScript
    (fun offset _ _ => isNamedParam_eq name offset) readable valuesFit
  constructor
  · have enough := Nat.lt_succ_of_le (length_le_detailsScript calls)
    exact paramsFrom_detailsScript [] readable valuesFit enough
  · intro code none
    apply (specials code).1
    intro call member
    exact decide_eq_false (none call member)
  · intro code earlier call later isCalls notEarlier isCall
    apply (specials code).2 earlier call later isCalls
    · intro other member
      exact decide_eq_false (notEarlier other member)
    · exact decide_eq_true isCall
  · intro name
    exact (names name).1
  · intro name
    exact (names name).2
  · exact verifyFrom_detailsScript [] readable valuesFit

end Decodes

/-- Details scripts are read back as they were written exactly when every name that was written
is not empty and holds no zero byte.  Whatever the bytes of a script are, every step over it
advances, and yields a value within the script. -/
theorem detailsScript_decodes_iff :
    (∀ calls : List ParamCall, (detailsScript calls).length < 2 ^ 31 →
      (Decodes calls ↔ ∀ call ∈ calls, call.Readable)) ∧
    ∀ (script : Bytes) (offset : Nat), offset < script.length →
      offset < (getParam script offset).nextOffset ∧
      (getParam script offset).nextOffset ≤ script.length ∧
      (getParam script offset).valueStart + (getParam script offset).valueSize ≤
        (getParam script offset).nextOffset := by
  constructor
  · intro calls fits
    constructor
    · intro decodes
      exact decodes.readable
    · intro readable
      exact Decodes.of_readable readable fits
  · intro script offset inside
    exact getParam_advances script inside

/-- A special parameter and an empty named one behind it. -/
theorem detailsScript_decodes_named :
    Decodes [.special mcEntSprmIssuer [7], .named [65] []] ∧
      0 < (getParam [0, 3] 0).nextOffset := by
  constructor
  · have readable : ∀ call ∈ [ParamCall.special mcEntSprmIssuer [7], .named [65] []],
        call.Readable := by
      simp [ParamCall.Readable]
    exact (detailsScript_decodes_iff.1 _ (by decide)).2 readable
  · exact (detailsScript_decodes_iff.2 [0, 3] 0 (by decide)).1

/-- A parameter with an empty name is read as a special one without a value. -/
theorem emptyName_fails : ¬ Decodes [.named [] [5]] := by
  intro decodes
  have verified := decodes.verifies
  revert verified
  decide

end DetailsScript

end HdacNode
