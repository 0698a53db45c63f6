import HdacNode.ParamList

/-!
# The blob of chain parameters

`mc_HdacParams` writes name, length and value of each parameter one behind the other, and keeps
where the value of each is.  A set that is sent to a node is this blob, and `Set` reads it from the
start.
-/

namespace HdacNode

/-- Why a call does not return. -/
inductive ParamStop where
  | outOfBounds
  | indeterminateSize
  deriving DecidableEq, Repr

/-- `MC_ERR_NOERROR` and `MC_ERR_INTERNAL_ERROR`. -/
inductive ParamResult where
  | noError
  | internalError
  deriving DecidableEq, Repr

/-- `mc_HdacParams` after `Init`: the first `m_Size` bytes of `m_lpData`, and in `m_lpCoord` the
offset and the size of each value. -/
structure HdacParams where
  data : Bytes
  coord : Nat → Option (Nat × Nat)

/-- Name, length and value of a parameter. -/
def paramRecord (name value : Bytes) : Bytes :=
  name ++ 0 :: (putLE value.length mcPrmParamSizeBytes ++ value)

/-- The parameters that `SetParam` and `ReParam` set. -/
def isSettable (index : Nat) : Bool :=
  match hdacParamArray[index]?.map OneHdacParam.source with
  | some .comment => true
  | some .calculated => true
  | _ => false

/-- The size of an integer parameter. -/
def paramIntSize (index : Nat) : Option Nat :=
  match hdacParamArray[index]?.map OneHdacParam.type with
  | some .boolean => some 1
  | some .int32 => some 4
  | some .uint32 => some 4
  | some .int64 => some 8
  | _ => none

namespace HdacParams

section Operations

/-- `Init`. -/
def init : HdacParams := ⟨[], fun _ => none⟩

/-- `GetParam`. -/
def getParam (params : HdacParams) (name : Bytes) : Option Bytes :=
  match paramIndex name with
  | none => none
  | some index =>
    (params.coord index).map fun (offset, size) => (params.data.drop offset).take size

/-- Write a record behind the others.  Nothing checks that it has room in `m_lpData`. -/
def append (params : HdacParams) (index : Nat) (name value : Bytes) : Except ParamStop HdacParams :=
  if paramDataSize < params.data.length + (paramRecord name value).length then .error .outOfBounds
  else
    let offset := params.data.length + (name.length + 1) + mcPrmParamSizeBytes
    .ok
      { data := params.data ++ paramRecord name value
        coord := Function.update params.coord index (some (offset, value.length)) }

/-- `SetParam`. -/
def setParam (params : HdacParams) (name value : Bytes) :
    Except ParamStop (ParamResult × HdacParams) :=
  match paramIndex name with
  | none => .ok (.internalError, params)
  | some index =>
    if !isSettable index then .ok (.internalError, params)
    else if (params.coord index).isSome then .ok (.internalError, params)
    else (params.append index name value).map fun params => (.noError, params)

/-- `SetParam` of an integer. -/
def setIntParam (params : HdacParams) (name : Bytes) (value : Int) :
    Except ParamStop (ParamResult × HdacParams) :=
  match paramIndex name with
  | none => .ok (.internalError, params)
  | some index =>
    match paramIntSize index with
    | none => .ok (.internalError, params)
    | some size => params.setParam name (putLE (value % 2 ^ 64).toNat size)

/-- `ReParam`. -/
def reParam (params : HdacParams) (name value : Bytes) :
    Except ParamStop (ParamResult × HdacParams) :=
  match paramIndex name with
  | none => .ok (.internalError, params)
  | some index =>
    if !isSettable index then .ok (.internalError, params)
    else (params.append index name value).map fun params => (.noError, params)

/-- What `Set` does with a name and its value: a parameter that is known is stored, if it has no
value yet. -/
def store (params : HdacParams) (name value : Bytes) : Except ParamStop HdacParams :=
  match paramIndex name with
  | none => .ok params
  | some index =>
    if (params.coord index).isSome then .ok params else params.append index name value

/-- The loop of `Set` over what is left of the source, in front of the zero that ends it.  A turn
takes at least a byte, so that there are no more turns than bytes.  The variable `size` is not set
before the first length was read. -/
def setTurns : Nat → Option Nat → HdacParams → Bytes → Except ParamStop HdacParams
  | 0, _, params, _ => .ok params
  | turns + 1, size, params, source =>
    if source.headD 0 = 0 then .ok params
    else
      let name := source.takeWhile (· ≠ 0)
      let source := source.drop (name.length + 1)
      if source.length < mcPrmParamSizeBytes then
        match size with
        | none => .error .indeterminateSize
        | some _ => .ok params
      else
        let size := getLE (source.take mcPrmParamSizeBytes)
        let source := source.drop mcPrmParamSizeBytes
        if size ≤ source.length then
          match params.store name (source.take size) with
          | .error stop => .error stop
          | .ok params => setTurns turns (some size) params (source.drop size)
        else setTurns turns (some size) params source

/-- `Set`. -/
def set (source : Bytes) : Except ParamStop HdacParams :=
  setTurns source.length none init source

end Operations

end HdacParams

/-- A call that sets a parameter. -/
inductive SettingCall where
  | setParam (name value : Bytes)
  | setIntParam (name : Bytes) (value : Int)
  | reParam (name value : Bytes)
  deriving DecidableEq, Repr

namespace SettingCall

/-- The length field has room for the size of the value. -/
def Admissible : SettingCall → Prop
  | setParam _ value => value.length < 2 ^ 16
  | setIntParam _ _ => True
  | reParam _ value => value.length < 2 ^ 16

/-- Make the call. -/
def run (params : HdacParams) : SettingCall → Except ParamStop (ParamResult × HdacParams)
  | setParam name value => params.setParam name value
  | setIntParam name value => params.setIntParam name value
  | reParam name value => params.reParam name value

/-- Make the calls, whatever they return. -/
def runAll : HdacParams → List SettingCall → Except ParamStop HdacParams
  | params, [] => .ok params
  | params, call :: calls =>
    match call.run params with
    | .error stop => .error stop
    | .ok (_, params) => runAll params calls

/-- The name and the value that a call sets, where the parameters have these values. -/
def accepted (values : Bytes → Option Bytes) : SettingCall → Option (Bytes × Bytes)
  | setParam name value =>
    match paramIndex name with
    | none => none
    | some index => if isSettable index ∧ values name = none then some (name, value) else none
  | setIntParam name value =>
    match paramIndex name with
    | none => none
    | some index =>
      match paramIntSize index with
      | none => none
      | some size =>
        if isSettable index ∧ values name = none then
          some (name, putLE (value % 2 ^ 64).toNat size)
        else none
  | reParam name value =>
    match paramIndex name with
    | none => none
    | some index => if isSettable index then some (name, value) else none

/-- The names and the values that calls set, one after the other. -/
def written (values : Bytes → Option Bytes) : List SettingCall → List (Bytes × Bytes)
  | [] => []
  | call :: calls =>
    match call.accepted values with
    | none => written values calls
    | some (name, value) =>
      (name, value) :: written (Function.update values name (some value)) calls

end SettingCall

/-- The blob of records. -/
def paramBlob (records : List (Bytes × Bytes)) : Bytes :=
  records.flatMap fun record => paramRecord record.1 record.2

@[simp]
theorem paramBlob_cons (record : Bytes × Bytes) (records : List (Bytes × Bytes)) :
    paramBlob (record :: records) = paramRecord record.1 record.2 ++ paramBlob records := rfl

theorem paramBlob_append (first second : List (Bytes × Bytes)) :
    paramBlob (first ++ second) = paramBlob first ++ paramBlob second := List.flatMap_append

theorem length_paramRecord (name value : Bytes) :
    (paramRecord name value).length = name.length + 1 + mcPrmParamSizeBytes + value.length := by
  rw [paramRecord, List.length_append, List.length_cons, List.length_append, length_putLE]
  omega

namespace HdacParams

/-- A set keeps these records: it is their blob, and has the last value of each name. -/
structure Keeps (params : HdacParams) (records : List (Bytes × Bytes)) : Prop where
  data_eq : params.data = paramBlob records
  room : params.data.length ≤ paramDataSize
  inside : ∀ index offset size, params.coord index = some (offset, size) →
    offset + size ≤ params.data.length
  known : ∀ record ∈ records, (∃ index, paramIndex record.1 = some index) ∧
    record.2.length < 2 ^ 16
  getParam_eq : ∀ name, params.getParam name = records.reverse.lookup name

section Records

theorem keeps_init : init.Keeps [] where
  data_eq := rfl
  room := Nat.zero_le _
  inside := nofun
  known := nofun
  getParam_eq name := by
    rw [getParam]
    split <;> rfl

variable {params : HdacParams} {records : List (Bytes × Bytes)} {index : Nat} {name value : Bytes}

theorem getParam_isSome (found : paramIndex name = some index) :
    (params.getParam name).isSome = (params.coord index).isSome := by
  rw [getParam, found, Option.isSome_map]

/-- A record that has room is written, and one that has none is written out of bounds. -/
theorem append_of_room
    (room : params.data.length + (paramRecord name value).length ≤ paramDataSize) :
    ∃ next, params.append index name value = .ok next := by
  rw [append, if_neg (Nat.not_lt.mpr room)]
  exact ⟨_, rfl⟩

theorem append_of_noRoom
    (noRoom : paramDataSize < params.data.length + (paramRecord name value).length) :
    params.append index name value = .error .outOfBounds := if_pos noRoom

/-- A record that was written is kept behind the others. -/
theorem Keeps.append {next : HdacParams} (keeps : params.Keeps records)
    (found : paramIndex name = some index) (short : value.length < 2 ^ 16)
    (run : params.append index name value = .ok next) : next.Keeps (records ++ [(name, value)]) := by
  rw [HdacParams.append] at run
  split at run
  · cases run
  · rename_i room
    cases run
    constructor
    · rw [paramBlob_append, keeps.data_eq]
      simp [paramBlob]
    · rw [List.length_append]
      exact Nat.not_lt.mp room
    · intro other offset size coord
      simp only [List.length_append, length_paramRecord] at coord ⊢
      by_cases same : other = index
      · rw [same, Function.update_self] at coord
        cases coord
        omega
      · rw [Function.update_of_ne same] at coord
        have inside := keeps.inside other offset size coord
        omega
    · intro record member
      rcases List.mem_append.mp member with old | new
      · exact keeps.known record old
      · rw [List.mem_singleton.mp new]
        exact ⟨⟨index, found⟩, short⟩
    · intro other
      rw [List.reverse_append, List.reverse_singleton, List.singleton_append]
      by_cases same : other = name
      · subst same
        have place : params.data.length + (other.length + 1) + mcPrmParamSizeBytes =
            (params.data ++ (other ++ 0 :: putLE value.length mcPrmParamSizeBytes)).length := by
          rw [List.length_append, List.length_append, List.length_cons, length_putLE]
          omega
        have record : params.data ++ paramRecord other value =
            params.data ++ (other ++ 0 :: putLE value.length mcPrmParamSizeBytes) ++ value := by
          simp [paramRecord]
        rw [List.lookup_cons_self, getParam, found]
        simp only [Function.update_self, Option.map_some]
        rw [place, record, List.drop_left, List.take_length]
      · have notSame : (other == name) = false := beq_eq_false_iff_ne.mpr same
        rw [List.lookup_cons, notSame, ← keeps.getParam_eq other, getParam, getParam]
        cases otherFound : paramIndex other with
        | none => rfl
        | some otherIndex =>
          have otherPlace : otherIndex ≠ index := fun sameIndex =>
            same (paramIndex_inj (sameIndex ▸ otherFound) found)
          simp only [Function.update_of_ne otherPlace]
          cases coord : params.coord otherIndex with
          | none => rfl
          | some place =>
            obtain ⟨offset, size⟩ := place
            have inside := keeps.inside otherIndex offset size coord
            simp only [Option.map_some]
            rw [List.drop_append_of_le_length (by omega), List.take_append_of_le_length]
            rw [List.length_drop]
            omega

/-- The value of a name after a record was written. -/
theorem Keeps.getParam_append {next : HdacParams} (keeps : params.Keeps records)
    (nextKeeps : next.Keeps (records ++ [(name, value)])) :
    next.getParam = Function.update params.getParam name (some value) := by
  funext other
  rw [nextKeeps.getParam_eq, List.reverse_append, List.reverse_singleton, List.singleton_append]
  by_cases same : other = name
  · rw [same, List.lookup_cons_self, Function.update_self]
  · have notSame : (other == name) = false := beq_eq_false_iff_ne.mpr same
    rw [List.lookup_cons, notSame, Function.update_of_ne same, keeps.getParam_eq]

end Records

section Calls

variable {params : HdacParams} {records : List (Bytes × Bytes)}

/-- What a call does is decided by the values that the parameters have. -/
theorem run_spec (params : HdacParams) (call : SettingCall) (short : call.Admissible) :
    (call.accepted params.getParam = none ∧ call.run params = .ok (.internalError, params)) ∨
      ∃ index name value, paramIndex name = some index ∧ value.length < 2 ^ 16 ∧
        call.accepted params.getParam = some (name, value) ∧
        call.run params =
          (params.append index name value).map fun params => (.noError, params) := by
  -- a parameter without a value is set once
  have setOnce : ∀ (name value : Bytes) (index : Nat), paramIndex name = some index →
      ¬ (isSettable index ∧ params.getParam name = none) →
      params.setParam name value = .ok (.internalError, params) := by
    intro name value index found refused
    rw [setParam, found]
    simp only
    split
    · rfl
    · rename_i settable
      split
      · rfl
      · rename_i unset
        refine absurd ⟨by simpa using settable, ?_⟩ refused
        rw [← Option.not_isSome_iff_eq_none, getParam_isSome found]
        exact unset
  have setFirst : ∀ (name value : Bytes) (index : Nat), paramIndex name = some index →
      isSettable index ∧ params.getParam name = none →
      params.setParam name value =
        (params.append index name value).map fun params => (.noError, params) := by
    rintro name value index found ⟨settable, unset⟩
    have noCoord : (params.coord index).isSome = false := by
      rw [← getParam_isSome found, unset]
      rfl
    rw [setParam, found]
    simp only [settable, noCoord, Bool.not_true, Bool.false_eq_true, if_false]
  cases call with
  | setParam name value =>
    rw [SettingCall.run, SettingCall.accepted]
    cases found : paramIndex name with
    | none =>
      refine Or.inl ⟨rfl, ?_⟩
      rw [setParam, found]
    | some index =>
      by_cases first : isSettable index ∧ params.getParam name = none
      · exact Or.inr ⟨index, name, value, found, short, if_pos first,
          setFirst name value index found first⟩
      · exact Or.inl ⟨if_neg first, setOnce name value index found first⟩
  | setIntParam name value =>
    rw [SettingCall.run, SettingCall.accepted, setIntParam]
    cases found : paramIndex name with
    | none => exact Or.inl ⟨rfl, rfl⟩
    | some index =>
      simp only
      cases intSize : paramIntSize index with
      | none => exact Or.inl ⟨rfl, rfl⟩
      | some size =>
        have small : size ≤ 8 := by
          rw [paramIntSize] at intSize
          split at intSize <;> cases intSize <;> decide
        by_cases first : isSettable index ∧ params.getParam name = none
        · refine Or.inr ⟨index, name, _, found, ?_, if_pos first, setFirst name _ index found first⟩
          rw [length_putLE]
          omega
        · exact Or.inl ⟨if_neg first, setOnce name _ index found first⟩
  | reParam name value =>
    rw [SettingCall.run, SettingCall.accepted, reParam]
    cases found : paramIndex name with
    | none => exact Or.inl ⟨rfl, rfl⟩
    | some index =>
      simp only
      cases settable : isSettable index with
      | false => exact Or.inl ⟨rfl, rfl⟩
      | true => exact Or.inr ⟨index, name, value, found, short, rfl, rfl⟩

/-- Calls write what they set behind the records, as long as there is room. -/
theorem runAll_spec {calls : List SettingCall} (keeps : params.Keeps records)
    (short : ∀ call ∈ calls, call.Admissible) :
    (params.data.length + (paramBlob (SettingCall.written params.getParam calls)).length ≤
        paramDataSize →
      ∃ final, SettingCall.runAll params calls = .ok final ∧
        final.Keeps (records ++ SettingCall.written params.getParam calls)) ∧
      (paramDataSize <
          params.data.length + (paramBlob (SettingCall.written params.getParam calls)).length →
        SettingCall.runAll params calls = .error .outOfBounds) := by
  induction calls generalizing params records with
  | nil =>
    constructor
    · intro
      exact ⟨params, rfl, by rw [SettingCall.written, List.append_nil]; exact keeps⟩
    · intro above
      have room := keeps.room
      simp only [SettingCall.written, paramBlob, List.flatMap_nil, List.length_nil] at above
      omega
  | cons call calls ih =>
    obtain ⟨shortCall, shortRest⟩ := List.forall_mem_cons.mp short
    rcases run_spec params call shortCall with
      ⟨refused, run⟩ | ⟨index, name, value, found, shortValue, accepted, run⟩
    · simp only [SettingCall.written, refused, SettingCall.runAll, run]
      exact ih keeps shortRest
    · simp only [SettingCall.written, accepted, SettingCall.runAll, run, paramBlob_cons,
        List.length_append]
      by_cases room : params.data.length + (paramRecord name value).length ≤ paramDataSize
      · obtain ⟨next, appended⟩ : ∃ next, params.append index name value = .ok next :=
          append_of_room room
        have nextKeeps := keeps.append found shortValue appended
        have values := keeps.getParam_append nextKeeps
        have nextLength : next.data.length =
            params.data.length + (paramRecord name value).length := by
          rw [nextKeeps.data_eq, paramBlob_append, List.length_append, ← keeps.data_eq]
          simp [paramBlob]
        obtain ⟨fits, overflows⟩ := ih nextKeeps shortRest
        rw [values, nextLength] at fits overflows
        simp only [appended, Except.map]
        constructor
        · intro whole
          obtain ⟨final, rest, finalKeeps⟩ := fits (by omega)
          refine ⟨final, rest, ?_⟩
          rwa [List.append_assoc, List.singleton_append] at finalKeeps
        · intro above
          exact overflows (by omega)
      · rw [append_of_noRoom (by omega)]
        constructor
        · intro whole
          omega
        · intro above
          rfl

end Calls

section Loading

variable {params : HdacParams} {records : List (Bytes × Bytes)}

theorem paramSize_lt (source : Bytes) : getLE (source.take mcPrmParamSizeBytes) < 2 ^ 16 := by
  refine (ScriptParser.getLE_lt _).trans_le (Nat.pow_le_pow_right (by omega) ?_)
  exact Nat.mul_le_mul_left 8 (List.length_take_le _ _)

/-- A value that `Set` reads is stored if it is the first one of a parameter. -/
theorem store_spec {name value : Bytes} {next : HdacParams} (keeps : params.Keeps records)
    (short : value.length < 2 ^ 16) (run : params.store name value = .ok next) :
    (next = params ∧ (paramIndex name = none ∨ params.getParam name ≠ none)) ∨
      (params.getParam name = none ∧ next.Keeps (records ++ [(name, value)])) := by
  rw [store] at run
  split at run
  · rename_i unknown
    cases run
    exact Or.inl ⟨rfl, Or.inl unknown⟩
  · rename_i index found
    split at run
    · rename_i set
      cases run
      refine Or.inl ⟨rfl, Or.inr fun unset => ?_⟩
      rw [← getParam_isSome found, unset] at set
      exact Bool.noConfusion set
    · rename_i unset
      refine Or.inr ⟨?_, keeps.append found short run⟩
      rw [← Option.not_isSome_iff_eq_none, getParam_isSome found]
      exact unset

/-- The first value of each name is the one that it has. -/
def FirstIsLast (params : HdacParams) (records : List (Bytes × Bytes)) : Prop :=
  ∀ name, records.lookup name = params.getParam name

theorem FirstIsLast.append {name value : Bytes} {next : HdacParams} (keeps : params.Keeps records)
    (first : params.FirstIsLast records) (unset : params.getParam name = none)
    (nextKeeps : next.Keeps (records ++ [(name, value)])) :
    next.FirstIsLast (records ++ [(name, value)]) := by
  intro other
  rw [keeps.getParam_append nextKeeps, List.lookup_append, first other]
  by_cases same : other = name
  · rw [same, unset, Function.update_self, List.lookup_cons_self, Option.none_or]
  · have notSame : (other == name) = false := beq_eq_false_iff_ne.mpr same
    rw [Function.update_of_ne same, List.lookup_cons, notSame, List.lookup_nil, Option.or_none]

/-- What `Set` stores, from whatever bytes, are records with one value for each name. -/
theorem setTurns_keeps {turns : Nat} {size : Option Nat} {source : Bytes} {next : HdacParams}
    (keeps : params.Keeps records) (first : params.FirstIsLast records)
    (run : setTurns turns size params source = .ok next) :
    ∃ stored, next.Keeps stored ∧ next.FirstIsLast stored := by
  induction turns generalizing size params records source with
  | zero =>
    cases run
    exact ⟨records, keeps, first⟩
  | succ turns ih =>
    unfold setTurns at run
    split at run
    · cases run
      exact ⟨records, keeps, first⟩
    · simp only at run
      split at run
      · cases size with
        | none => cases run
        | some size =>
          cases run
          exact ⟨records, keeps, first⟩
      · split at run
        · generalize source.takeWhile (· ≠ 0) = name at run
          generalize source.drop (name.length + 1) = source at run
          have short : ((source.drop mcPrmParamSizeBytes).take
              (getLE (source.take mcPrmParamSizeBytes))).length < 2 ^ 16 := by
            rw [List.length_take]
            exact (Nat.min_le_left _ _).trans_lt (paramSize_lt source)
          split at run
          · cases run
          · rename_i stored storing
            rcases store_spec keeps short storing with ⟨rfl, -⟩ | ⟨unset, storedKeeps⟩
            · exact ih keeps first run
            · exact ih storedKeeps (first.append keeps unset storedKeeps) run
        · exact ih keeps first run

theorem setTurns_record {name value source : Bytes} {index turns : Nat} {size : Option Nat}
    (found : paramIndex name = some index) (short : value.length < 2 ^ 16) :
    setTurns (turns + 1) size params (paramRecord name value ++ source) =
      match params.store name value with
      | .error stop => .error stop
      | .ok params => setTurns turns (some value.length) params source := by
  obtain ⟨nonempty, noZero⟩ := paramName_spec found
  have first : (paramRecord name value ++ source).headD 0 ≠ 0 := by
    cases name with
    | nil => exact absurd rfl nonempty
    | cons c name => exact noZero c List.mem_cons_self
  have split : paramRecord name value ++ source =
      name ++ 0 :: (putLE value.length mcPrmParamSizeBytes ++ (value ++ source)) := by
    simp [paramRecord]
  have nameIs : (paramRecord name value ++ source).takeWhile (· ≠ 0) = name := by
    rw [split, List.takeWhile_append_of_pos (by simpa using noZero)]
    simp
  have behind : (paramRecord name value ++ source).drop (name.length + 1) =
      putLE value.length mcPrmParamSizeBytes ++ (value ++ source) := by
    rw [split, ← List.drop_drop, List.drop_left, List.drop_one, List.tail_cons]
  have field : (putLE value.length mcPrmParamSizeBytes).length = mcPrmParamSizeBytes :=
    length_putLE _ _
  conv_lhs => unfold setTurns
  simp only [first, if_false, nameIs, behind]
  rw [List.take_left' field, List.drop_left' field, getLE_putLE short, List.take_left,
    List.drop_left, if_neg (by rw [List.length_append, field]; omega),
    if_pos (by rw [List.length_append]; omega)]

/-- `Set` of a blob that has room gives each name the first value that it has there, unless it has
one already. -/
theorem setTurns_blob {turns : Nat} {size : Option Nat} {rest : List (Bytes × Bytes)}
    (keeps : params.Keeps records)
    (known : ∀ record ∈ rest, (∃ index, paramIndex record.1 = some index) ∧
      record.2.length < 2 ^ 16)
    (room : params.data.length + (paramBlob rest).length ≤ paramDataSize)
    (enough : (paramBlob rest).length ≤ turns) :
    ∃ next, setTurns turns size params (paramBlob rest) = .ok next ∧
      ∀ name, next.getParam name = (params.getParam name).or (rest.lookup name) := by
  induction rest generalizing turns size params records with
  | nil =>
    refine ⟨params, ?_, fun name => by rw [List.lookup_nil, Option.or_none]⟩
    cases turns with
    | zero => rfl
    | succ turns =>
      unfold setTurns
      rfl
  | cons record rest ih =>
    obtain ⟨name, value⟩ := record
    obtain ⟨⟨⟨index, found⟩, short⟩, knownRest⟩ := List.forall_mem_cons.mp known
    simp only at found short
    have length := length_paramRecord name value
    rw [paramBlob_cons, List.length_append] at room enough
    simp only at room enough
    obtain ⟨left, rfl⟩ : ∃ left, turns = left + 1 := ⟨turns - 1, by omega⟩
    rw [paramBlob_cons, setTurns_record found short]
    cases value? : params.getParam name with
    | some old =>
      have set : (params.coord index).isSome = true := by
        rw [← getParam_isSome found, value?]
        rfl
      have stored : params.store name value = .ok params := by
        rw [store, found]
        exact if_pos set
      obtain ⟨next, run, values⟩ :
          ∃ next, setTurns left (some value.length) params (paramBlob rest) = .ok next ∧
            ∀ name, next.getParam name = (params.getParam name).or (rest.lookup name) :=
        ih keeps knownRest (by omega) (by omega)
      simp only [stored]
      refine ⟨next, run, fun other => ?_⟩
      rw [values other, List.lookup_cons]
      by_cases same : other = name
      · rw [same, value?, Option.some_or, Option.some_or]
      · rw [beq_eq_false_iff_ne.mpr same]
    | none =>
      have unset : (params.coord index).isSome = false := by
        rw [← getParam_isSome found, value?]
        rfl
      obtain ⟨stored, appended⟩ : ∃ next, params.append index name value = .ok next :=
        append_of_room (by omega)
      have storing : params.store name value = .ok stored := by
        rw [store, found]
        simp only [unset, Bool.false_eq_true, if_false]
        exact appended
      have storedKeeps := keeps.append found short appended
      have storedLength : stored.data.length = params.data.length + (paramRecord name value).length := by
        rw [storedKeeps.data_eq, paramBlob_append, List.length_append, ← keeps.data_eq]
        simp [paramBlob]
      obtain ⟨next, run, values⟩ :
          ∃ next, setTurns left (some value.length) stored (paramBlob rest) = .ok next ∧
            ∀ name, next.getParam name = (stored.getParam name).or (rest.lookup name) :=
        ih storedKeeps knownRest (by omega) (by omega)
      simp only [storing]
      refine ⟨next, run, fun other => ?_⟩
      rw [values other, keeps.getParam_append storedKeeps, List.lookup_cons]
      by_cases same : other = name
      · rw [same, value?, Function.update_self, Option.some_or, Option.none_or, beq_self_eq_true]
      · rw [Function.update_of_ne same, beq_eq_false_iff_ne.mpr same]

end Loading

section RoundTrip

/-- The value that was set last: by the last call that set the name, or before the calls. -/
def latestValue (start : HdacParams) (calls : List SettingCall) (name : Bytes) : Option Bytes :=
  ((SettingCall.written start.getParam calls).reverse.lookup name).or (start.getParam name)

/-- The value that was set first. -/
def firstValue (start : HdacParams) (calls : List SettingCall) (name : Bytes) : Option Bytes :=
  (start.getParam name).or ((SettingCall.written start.getParam calls).lookup name)

/-- The set that is loaded from the blob behind the calls has for each name the value that was set
last. -/
def RoundTrips (start : HdacParams) (calls : List SettingCall) : Prop :=
  ∃ final loaded, SettingCall.runAll start calls = .ok final ∧ set final.data = .ok loaded ∧
    ∀ name, loaded.getParam name = latestValue start calls name

/-- All records have room in `m_lpData`, and no call leaves a parameter with another value than the
one it had first. -/
structure KeepsFirstValues (start : HdacParams) (calls : List SettingCall) : Prop where
  room : start.data.length + (paramBlob (SettingCall.written start.getParam calls)).length ≤
    paramDataSize
  same : ∀ name, latestValue start calls name = firstValue start calls name

theorem latestValue_eq {start : HdacParams} {records : List (Bytes × Bytes)}
    (keeps : start.Keeps records) (calls : List SettingCall) (name : Bytes) :
    latestValue start calls name =
      (records ++ SettingCall.written start.getParam calls).reverse.lookup name := by
  rw [latestValue, List.reverse_append, List.lookup_append, keeps.getParam_eq]

/-- Behind the calls, `GetParam` returns the value that was set last. -/
theorem runAll_getParam {start final : HdacParams} {records : List (Bytes × Bytes)}
    {calls : List SettingCall} (keeps : start.Keeps records)
    (short : ∀ call ∈ calls, call.Admissible) (run : SettingCall.runAll start calls = .ok final) :
    final.Keeps (records ++ SettingCall.written start.getParam calls) ∧
      final.getParam = latestValue start calls := by
  obtain ⟨fits, overflows⟩ := runAll_spec keeps short
  have room := mt overflows (by rw [run]; exact nofun)
  obtain ⟨final', run', finalKeeps⟩ := fits (by omega)
  cases run.symm.trans run'
  refine ⟨finalKeeps, funext fun name => ?_⟩
  rw [finalKeeps.getParam_eq, latestValue_eq keeps]

/-- A set that is loaded from the blob behind the calls has the first value of each name. -/
theorem set_runAll {start final : HdacParams} {records : List (Bytes × Bytes)}
    {calls : List SettingCall} (keeps : start.Keeps records) (first : start.FirstIsLast records)
    (short : ∀ call ∈ calls, call.Admissible) (run : SettingCall.runAll start calls = .ok final) :
    ∃ loaded, set final.data = .ok loaded ∧ loaded.getParam = firstValue start calls := by
  obtain ⟨finalKeeps, -⟩ := runAll_getParam keeps short run
  have room := finalKeeps.room
  rw [finalKeeps.data_eq] at room ⊢
  have noData : init.data.length = 0 := rfl
  obtain ⟨loaded, loading, values⟩ :
      ∃ loaded, set (paramBlob (records ++ SettingCall.written start.getParam calls)) = .ok loaded ∧
        ∀ name, loaded.getParam name = (init.getParam name).or
          ((records ++ SettingCall.written start.getParam calls).lookup name) :=
    setTurns_blob keeps_init finalKeeps.known (by rw [noData, Nat.zero_add]; exact room) le_rfl
  refine ⟨loaded, loading, funext fun name => ?_⟩
  rw [values name, keeps_init.getParam_eq, List.reverse_nil, List.lookup_nil, Option.none_or,
    List.lookup_append, first name, firstValue]

/-- The parameters that are set before the calls are records with one value for each name. -/
theorem set_keeps {source : Bytes} {start : HdacParams} (loaded : set source = .ok start) :
    ∃ records, start.Keeps records ∧ start.FirstIsLast records := by
  refine setTurns_keeps keeps_init (fun name => ?_) loaded
  rw [keeps_init.getParam_eq]
  rfl

theorem roundTrips_of_keepsFirstValues {source : Bytes} {start : HdacParams}
    (loaded : set source = .ok start) {calls : List SettingCall}
    (short : ∀ call ∈ calls, call.Admissible) (keepsFirst : start.KeepsFirstValues calls) :
    start.RoundTrips calls := by
  obtain ⟨records, keeps, first⟩ := set_keeps loaded
  obtain ⟨final, run, -⟩ := (runAll_spec keeps short).1 keepsFirst.room
  obtain ⟨set, setting, values⟩ := set_runAll keeps first short run
  refine ⟨final, set, run, setting, fun name => ?_⟩
  rw [values, keepsFirst.same]

/-- A parameter that was set again with another value has its first value in the loaded set. -/
theorem not_roundTrips_reParam :
    ¬ ∀ calls : List SettingCall, (∀ call ∈ calls, call.Admissible) → init.RoundTrips calls := by
  intro all
  obtain ⟨final, loaded, run, loading, values⟩ := all
    [.setParam (literal "chainparamshash") (List.replicate 32 1),
      .reParam (literal "chainparamshash") (List.replicate 32 2)] (by
      intro call member
      simp only [List.mem_cons, List.not_mem_nil, or_false] at member
      rcases member with rfl | rfl <;> simp [SettingCall.Admissible])
  have latest := values (literal "chainparamshash")
  have latestIs : latestValue init
      [.setParam (literal "chainparamshash") (List.replicate 32 1),
        .reParam (literal "chainparamshash") (List.replicate 32 2)] (literal "chainparamshash") =
        some (List.replicate 32 2) := by decide +kernel
  have loadedIs : ((SettingCall.runAll init
      [.setParam (literal "chainparamshash") (List.replicate 32 1),
        .reParam (literal "chainparamshash") (List.replicate 32 2)]).toOption.bind fun final =>
          (set final.data).toOption.bind fun loaded =>
            loaded.getParam (literal "chainparamshash")) = some (List.replicate 32 1) := by
    decide +kernel
  rw [run] at loadedIs
  simp only [Except.toOption, Option.bind_some, loading] at loadedIs
  rw [loadedIs, latestIs] at latest
  exact absurd latest (by decide)

/-- The blob of a set of parameters gives the values that were set last just where it has room, and
each parameter has again the value that it had first. -/
theorem roundTrips_iff {source : Bytes} {start : HdacParams} (loaded : set source = .ok start)
    {calls : List SettingCall} (short : ∀ call ∈ calls, call.Admissible) :
    start.RoundTrips calls ↔ start.KeepsFirstValues calls := by
  constructor
  · rintro ⟨final, set, run, setting, values⟩
    obtain ⟨records, keeps, first⟩ := set_keeps loaded
    obtain ⟨set', setting', firstValues⟩ := set_runAll keeps first short run
    cases setting.symm.trans setting'
    constructor
    · exact Nat.not_lt.mp (mt (runAll_spec keeps short).2 (by rw [run]; exact nofun))
    · intro name
      rw [← values name, firstValues]
  · exact roundTrips_of_keepsFirstValues loaded short

/-- A set in which each value is set once. -/
theorem roundTrips_iff_setParam :
    init.RoundTrips [.setParam (literal "chainparamshash") (List.replicate 32 1)] := by
  have loaded : set [] = .ok init := rfl
  refine (roundTrips_iff loaded ?_).mpr ⟨by decide +kernel, fun name => ?_⟩
  · intro call member
    rw [List.mem_singleton.mp member]
    simp [SettingCall.Admissible]
  · have written : SettingCall.written init.getParam
        [.setParam (literal "chainparamshash") (List.replicate 32 1)] =
        [(literal "chainparamshash", List.replicate 32 1)] := by decide +kernel
    rw [latestValue, firstValue, written, keeps_init.getParam_eq]
    simp

end RoundTrip

end HdacParams

end HdacNode
