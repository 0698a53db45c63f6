import HdacNode.WholeOpcodes

/-!
# Elements behind a base script

`base << e1 << OP_DROP … << en << OP_DROP` with or without `<< OP_RETURN << d` hangs elements on a
script.  `SetScript` finds them, and `CScript::RemoveOpDrops` finds the base, except that it leaves
every script with an OP_RETURN as it is.
-/

namespace HdacNode

open ScriptInterpreter

/-- `base << e1 << OP_DROP … << en << OP_DROP`, and `<< OP_RETURN << d` if there is such data. -/
def elementScript (base : Bytes) (elements : List Bytes) (tail : Option Bytes) : Bytes :=
  base ++ elements.flatMap (fun element => pushData element ++ [.ofNat mcDctScriptOpDrop]) ++
    match tail with
    | none => []
    | some data => UInt8.ofNat mcDctScriptOpReturn :: pushData data

section RemoveOpDrops

/-- Where `GetOp2` leaves the pointer when it fails: behind the opcode, and behind the length
bytes if they are there. -/
def behindUnreadable : Bytes → Bytes
  | [] => []
  | opcode :: rest =>
    if rest.length < lengthBytes opcode.toNat then rest
    else rest.drop (lengthBytes opcode.toNat)

/-- The first loop of `RemoveOpDrops`, which goes on behind an opcode that it cannot read. -/
def seesReturnWithin : Nat → Bytes → Bool
  | 0, _ => false
  | bound + 1, script =>
    match getOp script with
    | some (opcode, _, rest) =>
      opcode.toNat = mcDctScriptOpReturn || seesReturnWithin bound rest
    | none =>
      if script = [] then false else seesReturnWithin bound (behindUnreadable script)

def seesReturn (script : Bytes) : Bool :=
  seesReturnWithin script.length script

/-- The second loop: how many opcodes are in front of the first OP_DROP, if it comes before an
opcode that cannot be read. -/
def opDropPos : List Instruction → Option Nat
  | [] => none
  | .unreadable :: _ => none
  | .op opcode _ _ :: instructions =>
    if opcode.toNat = mcDctScriptOpDrop then some 0
    else (opDropPos instructions).map (· + 1)

/-- What the third loop writes for an opcode. -/
def rewriteOp : Instruction → Bytes
  | .op opcode data _ => if data ≠ [] then pushData data else [opcode]
  | .unreadable => []

/-- `CScript::RemoveOpDrops`. -/
def removeOpDrops (script : Bytes) : Bytes :=
  if seesReturn script then script
  else
    match opDropPos (instructions script) with
    | none => script
    | some pos => ((instructions script).take (pos - 1)).flatMap rewriteOp

end RemoveOpDrops

section Reading

/-- `GetOp2` reads a whole opcode in a script whose length is an unsigned int. -/
theorem getOp_bytes {op : WholeOp} {rest : Bytes} (fits : (op.bytes ++ rest).length < 2 ^ 32) :
    getOp (op.bytes ++ rest) = some (op.opcode, op.data, rest) := by
  have split : op.bytes ++ rest = op.opcode :: (op.head ++ (op.data ++ rest)) := by
    rw [WholeOp.bytes, List.cons_append, List.append_assoc]
  have size : (if op.opcode.toNat < mcDctScriptOpPushData1 then op.opcode.toNat
      else getLE ((op.head ++ (op.data ++ rest)).take (lengthBytes op.opcode.toNat))) =
        op.data.length := by
    rw [← op.head_length, List.take_left, op.data_length, announcedSize]
  rw [split] at fits ⊢
  simp only [List.length_cons, List.length_append] at fits
  rw [getOp, size, ← op.head_length, List.drop_left, ← List.drop_drop, List.drop_left,
    List.drop_left, List.take_left, if_neg (by simp), if_neg]
  simp only [List.length_append]
  rw [Nat.mod_eq_of_lt (by omega)]
  omega

/-- The instructions of a sequence of opcodes. -/
def instructionsOf : List WholeOp → List Instruction
  | [] => []
  | op :: ops => .op op.opcode op.data (scriptBytes ops) :: instructionsOf ops

theorem instructions_scriptBytes {ops : List WholeOp} (fits : (scriptBytes ops).length < 2 ^ 32) :
    instructions (scriptBytes ops) = instructionsOf ops := by
  induction ops with
  | nil => rfl
  | cons op ops ih =>
    rw [scriptBytes_cons] at fits ⊢
    rw [instructions_of_getOp (getOp_bytes fits), instructionsOf, ih]
    rw [List.length_append] at fits
    omega

theorem seesReturn_scriptBytes {ops : List WholeOp} (fits : (scriptBytes ops).length < 2 ^ 32) :
    seesReturn (scriptBytes ops) = ops.any WholeOp.isReturn := by
  have within (bound : Nat) (enough : (scriptBytes ops).length ≤ bound) :
      seesReturnWithin bound (scriptBytes ops) = ops.any WholeOp.isReturn := by
    induction ops generalizing bound with
    | nil => cases bound <;> rfl
    | cons op ops ih =>
      rw [scriptBytes_cons] at fits enough ⊢
      have lengths : (op.bytes ++ scriptBytes ops).length =
          1 + (op.head ++ op.data).length + (scriptBytes ops).length := by
        rw [List.length_append, WholeOp.bytes, List.length_cons]
        omega
      obtain ⟨bound, rfl⟩ : ∃ more, bound = more + 1 := ⟨bound - 1, by omega⟩
      rw [seesReturnWithin, getOp_bytes fits]
      dsimp only
      rw [ih (by omega) bound (by omega)]
      rfl
  exact within _ (Nat.le_refl _)

theorem opDropPos_instructionsOf (ops : List WholeOp) :
    opDropPos (instructionsOf ops) = ops.findIdx? WholeOp.isDrop := by
  induction ops with
  | nil => rfl
  | cons op ops ih =>
    rw [instructionsOf, opDropPos, ih, List.findIdx?_cons]
    by_cases isDrop : op.opcode.toNat = mcDctScriptOpDrop
    · have opIsDrop : op.isDrop = true := decide_eq_true isDrop
      rw [if_pos isDrop, if_pos opIsDrop]
    · have opIsOther : op.isDrop = false := decide_eq_false isDrop
      rw [if_neg isDrop, opIsOther, if_neg (by decide)]

/-- What `RemoveOpDrops` writes for an opcode. -/
def WholeOp.rewritten (op : WholeOp) : Bytes :=
  if op.data ≠ [] then pushData op.data else [op.opcode]

theorem flatMap_rewriteOp (ops : List WholeOp) (count : Nat) :
    ((instructionsOf ops).take count).flatMap rewriteOp =
      (ops.take count).flatMap WholeOp.rewritten := by
  induction ops generalizing count with
  | nil => simp [instructionsOf]
  | cons op ops ih =>
    cases count with
    | zero => rfl
    | succ count =>
      rw [instructionsOf, List.take_succ_cons, List.take_succ_cons, List.flatMap_cons,
        List.flatMap_cons, ih]
      rfl

/-- `RemoveOpDrops` on a sequence of opcodes. -/
theorem removeOpDrops_scriptBytes {ops : List WholeOp}
    (fits : (scriptBytes ops).length < 2 ^ 32) :
    removeOpDrops (scriptBytes ops) =
      if ops.any WholeOp.isReturn then scriptBytes ops
      else
        match ops.findIdx? WholeOp.isDrop with
        | none => scriptBytes ops
        | some pos => (ops.take (pos - 1)).flatMap WholeOp.rewritten := by
  rw [removeOpDrops, seesReturn_scriptBytes fits, instructions_scriptBytes fits,
    opDropPos_instructionsOf]
  simp only [flatMap_rewriteOp]

end Reading

section Pushes

/-- A push of some data. -/
def WholeOp.IsPushOf (op : WholeOp) (data : Bytes) : Prop :=
  op.bytes = pushData data ∧ op.data = data ∧ op.opcode.toNat ≤ mcDctScriptOpPushData4

theorem exists_isPushOf {data : Bytes} (short : data.length < 2 ^ 31) :
    ∃ op : WholeOp, op.IsPushOf data := by
  by_cases direct : data.length < mcDctScriptOpPushData1
  · have opcode : (UInt8.ofNat data.length).toNat = data.length :=
      UInt8.toNat_ofNat_of_lt' (Nat.lt_trans direct (by decide))
    have form : pushData data = UInt8.ofNat data.length :: data := by
      rw [pushData, if_pos direct]
      rfl
    refine ⟨⟨.ofNat data.length, [], data, ?_, ?_⟩, form.symm, rfl, ?_⟩
    · rw [opcode]
      simp only [mcDctScriptOpPushData1] at direct
      have other : ¬ data.length = mcDctScriptOpPushData1 ∧
          ¬ data.length = mcDctScriptOpPushData2 ∧ ¬ data.length = mcDctScriptOpPushData4 := by
        simp only [mcDctScriptOpPushData1, mcDctScriptOpPushData2, mcDctScriptOpPushData4]
        omega
      rw [lengthBytes, if_neg other.1, if_neg other.2.1, if_neg other.2.2]
      rfl
    · rw [opcode, announcedSize, if_pos direct]
    · change (UInt8.ofNat data.length).toNat ≤ _
      rw [opcode]
      exact Nat.le_trans (Nat.le_of_lt direct) (by decide)
  · have counted (opcode : UInt8) (size : Nat)
        (hasLength : lengthBytes opcode.toNat = size ∧ mcDctScriptOpPushData1 ≤ opcode.toNat ∧
          opcode.toNat ≤ mcDctScriptOpPushData4) (fits : data.length < 2 ^ (8 * size))
        (form : pushData data = opcode :: putLE data.length size ++ data) :
        ∃ op : WholeOp, op.IsPushOf data := by
      refine ⟨⟨opcode, putLE data.length size, data, ?_, ?_⟩, form.symm, rfl, hasLength.2.2⟩
      · rw [length_putLE, hasLength.1]
      · rw [announcedSize, if_neg (Nat.not_lt.mpr hasLength.2.1), getLE_putLE fits]
    by_cases oneByte : data.length ≤ 0xff
    · exact counted (.ofNat mcDctScriptOpPushData1) 1 (by decide) (by omega)
        (by rw [pushData, if_neg direct, if_pos oneByte])
    · by_cases twoBytes : data.length ≤ 0xffff
      · exact counted (.ofNat mcDctScriptOpPushData2) 2 (by decide) (by omega)
          (by rw [pushData, if_neg direct, if_neg oneByte, if_pos twoBytes])
      · exact counted (.ofNat mcDctScriptOpPushData4) 4 (by decide) (by omega)
          (by rw [pushData, if_neg direct, if_neg oneByte, if_neg twoBytes])

namespace WholeOp.IsPushOf

variable {op : WholeOp} {data : Bytes}

theorem not_isReturn (isPush : op.IsPushOf data) : op.isReturn = false := by
  refine decide_eq_false ?_
  have small := isPush.2.2
  simp only [mcDctScriptOpPushData4, mcDctScriptOpReturn] at small ⊢
  omega

theorem not_isDrop (isPush : op.IsPushOf data) : op.isDrop = false := by
  refine decide_eq_false ?_
  have small := isPush.2.2
  simp only [mcDctScriptOpPushData4, mcDctScriptOpDrop] at small ⊢
  omega

theorem isData (isPush : op.IsPushOf data) : op.isData = true :=
  decide_eq_true (Nat.le_trans isPush.2.2 (by decide))

end WholeOp.IsPushOf

def dropOp : WholeOp := ⟨.ofNat mcDctScriptOpDrop, [], [], rfl, rfl⟩
def returnOp : WholeOp := ⟨.ofNat mcDctScriptOpReturn, [], [], rfl, rfl⟩

end Pushes

section Elements

/-- The opcodes of elements with their OP_DROPs. -/
inductive AreElements : List WholeOp → List Bytes → Prop
  | nil : AreElements [] []
  | cons {op : WholeOp} {element : Bytes} {ops : List WholeOp} {elements : List Bytes} :
      op.IsPushOf element → AreElements ops elements →
      AreElements (op :: dropOp :: ops) (element :: elements)

/-- The opcodes of the data behind an OP_RETURN. -/
inductive IsTail : List WholeOp → Option Bytes → Prop
  | none : IsTail [] none
  | some {op : WholeOp} {data : Bytes} : op.IsPushOf data → IsTail [returnOp, op] (some data)

theorem exists_areElements {elements : List Bytes}
    (short : ∀ element ∈ elements, element.length < 2 ^ 31) :
    ∃ ops, AreElements ops elements := by
  induction elements with
  | nil => exact ⟨[], .nil⟩
  | cons element elements ih =>
    obtain ⟨op, isPush⟩ := exists_isPushOf (short element List.mem_cons_self)
    obtain ⟨ops, areElements⟩ :=
      ih fun element among => short element (List.mem_cons_of_mem _ among)
    exact ⟨_, .cons isPush areElements⟩

theorem exists_isTail {tail : Option Bytes} (short : ∀ data ∈ tail, data.length < 2 ^ 31) :
    ∃ ops, IsTail ops tail := by
  cases tail with
  | none => exact ⟨[], .none⟩
  | some data =>
    obtain ⟨op, isPush⟩ := exists_isPushOf (short data rfl)
    exact ⟨_, .some isPush⟩

variable {elementOps tailOps : List WholeOp} {elements : List Bytes} {tail : Option Bytes}

theorem scriptBytes_elements (areElements : AreElements elementOps elements)
    (isTail : IsTail tailOps tail) (base : List WholeOp) :
    scriptBytes (base ++ (elementOps ++ tailOps)) =
      elementScript (scriptBytes base) elements tail := by
  have elementBytes : scriptBytes elementOps = elements.flatMap
      (fun element => pushData element ++ [.ofNat mcDctScriptOpDrop]) := by
    induction areElements with
    | nil => rfl
    | cons isPush _ ih =>
      rw [scriptBytes_cons, scriptBytes_cons, ih, isPush.1, List.flatMap_cons, List.append_assoc]
      rfl
  unfold elementScript
  rw [scriptBytes_append, scriptBytes_append, elementBytes, List.append_assoc]
  cases isTail with
  | none => rfl
  | some isPush =>
    rw [scriptBytes_cons, scriptBytes_cons, isPush.1]
    simp only [scriptBytes, List.flatMap_nil, List.append_nil]
    rfl

/-- The elements and the tail are what `SetScript` takes. -/
theorem elementsOf_elements (areElements : AreElements elementOps elements)
    (isTail : IsTail tailOps tail) (pending : Option Bytes) :
    elementsOf pending (elementOps ++ tailOps) = elements ++ tail.toList := by
  induction areElements generalizing pending with
  | nil =>
    cases isTail with
    | none => cases pending <;> rfl
    | some isPush =>
      simp only [List.nil_append, Option.toList_some]
      rw [elementsOf, if_pos (by decide)]
      exact congrArg (fun data => [data]) isPush.2.1
  | cons isPush _ ih =>
    rw [List.cons_append, List.cons_append, elementsOf, isPush.not_isReturn, if_neg (by decide),
      isPush.not_isDrop, if_neg (by decide), isPush.isData, if_pos rfl, elementsOf,
      if_neg (by decide), if_pos (by decide), ih, isPush.2.1]
    rfl

theorem length_elements (areElements : AreElements elementOps elements)
    (isTail : IsTail tailOps tail)
    (short : ∀ element ∈ elements, element.length < 2 ^ 31)
    (tailShort : ∀ data ∈ tail, data.length < 2 ^ 31) :
    ∀ op ∈ elementOps ++ tailOps, op.data.length < 2 ^ 31 := by
  intro op among
  rcases List.mem_append.mp among with among | among
  · induction areElements with
    | nil => cases among
    | @cons push element ops elements isPush _ ih =>
      have small := short element List.mem_cons_self
      rcases List.mem_cons.mp among with rfl | among
      · rw [isPush.2.1]
        exact small
      · rcases List.mem_cons.mp among with rfl | among
        · decide
        · exact ih (fun element among => short element (List.mem_cons_of_mem _ among))
            (List.mem_append_left _ among) among
  · cases isTail with
    | none => cases among
    | @some push data isPush =>
      have small := tailShort data rfl
      rcases List.mem_cons.mp among with rfl | among
      · decide
      · rw [List.mem_singleton.mp among, isPush.2.1]
        exact small

theorem any_isReturn_elements (areElements : AreElements elementOps elements)
    (isTail : IsTail tailOps tail) :
    (elementOps ++ tailOps).any WholeOp.isReturn = tail.isSome := by
  induction areElements with
  | nil =>
    cases isTail with
    | none => rfl
    | some isPush => rfl
  | cons isPush _ ih =>
    rw [List.cons_append, List.cons_append, List.any_cons, List.any_cons, ih,
      isPush.not_isReturn]
    rfl

end Elements

section Bases

/-- A script without an OP_RETURN and without data in front of an OP_DROP. -/
def isQuiet : Bool → List WholeOp → Bool
  | _, [] => true
  | behindData, op :: ops =>
    !op.isReturn && !(op.isDrop && behindData) && isQuiet op.isData ops

theorem elementsOf_quiet {base : List WholeOp} {pending : Option Bytes}
    (quiet : isQuiet pending.isSome base) (more : List WholeOp) :
    ∃ later, elementsOf pending (base ++ more) = elementsOf later more := by
  induction base generalizing pending with
  | nil => exact ⟨pending, rfl⟩
  | cons op base ih =>
    rw [isQuiet, Bool.and_eq_true, Bool.and_eq_true] at quiet
    obtain ⟨⟨notReturn, noElement⟩, quiet⟩ := quiet
    rw [List.cons_append, elementsOf, if_neg (by simpa using notReturn)]
    cases isDrop : op.isDrop with
    | true =>
      have nothing : pending = none := by
        rw [isDrop] at noElement
        cases pending with
        | none => rfl
        | some data => cases noElement
      have notData : op.isData = false := by
        have opcode : op.opcode.toNat = mcDctScriptOpDrop := of_decide_eq_true isDrop
        rw [WholeOp.isData, opcode]
        decide
      rw [if_pos rfl, nothing]
      rw [notData] at quiet
      exact @ih none quiet
    | false =>
      rw [if_neg (by decide)]
      refine ih ?_
      cases isData : op.isData with
      | true => rwa [isData] at quiet
      | false => rwa [isData] at quiet

theorem any_isReturn_quiet {base : List WholeOp} {behindData : Bool}
    (quiet : isQuiet behindData base) : base.any WholeOp.isReturn = false := by
  induction base generalizing behindData with
  | nil => rfl
  | cons op base ih =>
    rw [isQuiet, Bool.and_eq_true, Bool.and_eq_true] at quiet
    rw [List.any_cons, ih quiet.2]
    simpa using quiet.1.1

theorem findIdx_elements {base elementOps tailOps : List WholeOp} {elements : List Bytes}
    (areElements : AreElements elementOps elements) (isTail : IsTail tailOps none)
    (noDrop : base.any WholeOp.isDrop = false) :
    (base ++ (elementOps ++ tailOps)).findIdx? WholeOp.isDrop =
      if elements = [] then none else some (base.length + 1) := by
  have noneInBase : base.findIdx? WholeOp.isDrop = none := by
    rw [List.findIdx?_eq_none_iff]
    intro op among
    exact Bool.eq_false_iff.mpr fun isDrop =>
      Bool.eq_false_iff.mp noDrop (List.any_eq_true.mpr ⟨op, among, isDrop⟩)
  rw [List.findIdx?_append, noneInBase, Option.none_or]
  cases areElements with
  | nil =>
    cases isTail
    rfl
  | cons isPush _ =>
    rw [if_neg (List.cons_ne_nil _ _), List.cons_append, List.findIdx?_cons, isPush.not_isDrop]
    simp only [Bool.false_eq_true, if_false, List.cons_append, List.findIdx?_cons]
    rw [if_pos (by decide)]
    simp only [Option.map_some]
    congr 1
    omega

/-- A script in which `<<` wrote every opcode. -/
def IsWritten (ops : List WholeOp) : Prop :=
  ∀ op ∈ ops, op.rewritten = op.bytes

theorem flatMap_rewritten {ops : List WholeOp} (written : IsWritten ops) :
    ops.flatMap WholeOp.rewritten = scriptBytes ops := by
  induction ops with
  | nil => rfl
  | cons op ops ih =>
    rw [List.flatMap_cons, scriptBytes_cons, written op List.mem_cons_self,
      ih fun op among => written op (List.mem_cons_of_mem _ among)]

/-- Elements behind a base are parsed as they are.  `RemoveOpDrops` finds the base in front of
elements, and leaves a script with an OP_RETURN as it is. -/
theorem elementScript_read {base : List WholeOp} {elements : List Bytes} {tail : Option Bytes}
    (quiet : isQuiet false base) (baseShort : ∀ op ∈ base, op.data.length < 2 ^ 31)
    (short : ∀ element ∈ elements, element.length < 2 ^ 31)
    (tailShort : ∀ data ∈ tail, data.length < 2 ^ 31) :
    (∃ fuel script, ScriptParser.setScript (elementScript (scriptBytes base) elements tail)
        .scriptPubKey fuel = some (.ok script) ∧ script.elements = elements ++ tail.toList) ∧
      ((elementScript (scriptBytes base) elements tail).length < 2 ^ 32 →
        (tail ≠ none →
          removeOpDrops (elementScript (scriptBytes base) elements tail) =
            elementScript (scriptBytes base) elements tail) ∧
        (tail = none → base.any WholeOp.isDrop = false → IsWritten base →
          removeOpDrops (elementScript (scriptBytes base) elements tail) = scriptBytes base)) := by
  obtain ⟨elementOps, areElements⟩ := exists_areElements short
  obtain ⟨tailOps, isTail⟩ := exists_isTail tailShort
  have opsShort : ∀ op ∈ base ++ (elementOps ++ tailOps), op.data.length < 2 ^ 31 := by
    intro op among
    rcases List.mem_append.mp among with among | among
    · exact baseShort op among
    · exact length_elements areElements isTail short tailShort op among
  have anyReturn : (base ++ (elementOps ++ tailOps)).any WholeOp.isReturn = tail.isSome := by
    rw [List.any_append, any_isReturn_quiet quiet, any_isReturn_elements areElements isTail]
    rfl
  rw [← scriptBytes_elements areElements isTail base]
  refine ⟨?_, fun fits => ⟨fun hasTail => ?_, fun noTail noDrop written => ?_⟩⟩
  · obtain ⟨fuel, script, found, taken⟩ := ScriptParser.setScript_scriptBytes opsShort
    obtain ⟨later, sameElements⟩ :=
      @elementsOf_quiet base none quiet (elementOps ++ tailOps)
    refine ⟨fuel, script, found, ?_⟩
    rw [taken, sameElements, elementsOf_elements areElements isTail]
  · rw [removeOpDrops_scriptBytes fits, anyReturn, if_pos (Option.isSome_iff_ne_none.mpr hasTail)]
  · subst noTail
    rw [removeOpDrops_scriptBytes fits, anyReturn, if_neg (by decide),
      findIdx_elements areElements isTail noDrop]
    cases areElements with
    | nil =>
      cases isTail
      rw [if_pos rfl, List.append_nil, List.append_nil]
    | cons isPush _ =>
      rw [if_neg (List.cons_ne_nil _ _)]
      dsimp only
      rw [Nat.add_sub_cancel, List.take_left, flatMap_rewritten written]

/-- OP_DUP with two elements, one of them empty. -/
theorem elementScript_read_dup :
    (∃ fuel script, ScriptParser.setScript (elementScript [0x76] [[], [0x75]] none)
        .scriptPubKey fuel = some (.ok script) ∧ script.elements = [[], [0x75]]) ∧
      removeOpDrops (elementScript [0x76] [[], [0x75]] none) = [0x76] := by
  obtain ⟨parsed, removed⟩ := @elementScript_read [⟨0x76, [], [], rfl, rfl⟩] [[], [0x75]] none
    (by decide) (by decide) (by decide) (by decide)
  exact ⟨parsed, (removed (by decide)).2 rfl (by decide) (by unfold IsWritten; decide)⟩

/-- With data behind an OP_RETURN the base is not found. -/
theorem removeOpDrops_keeps_elements :
    removeOpDrops (elementScript [0x76] [[1]] (some [2])) ≠ [0x76] := by
  decide +kernel

end Bases

end HdacNode
