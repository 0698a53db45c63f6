import HdacNode.ScannedOpcodes
import HdacNode.SignedTemplates

/-!
# Scripts of whole opcodes

A script that can be read is a sequence of opcodes, each with the bytes of its length and its
data.  On such a sequence `SetScript` has a short description: data in front of an OP_DROP is an
element, and so is what follows the first OP_RETURN.
-/

namespace HdacNode

open AdvancingLoop

open ScriptInterpreter (lengthBytes)

section Opcodes

/-- The size of the data that an opcode announces with its length bytes. -/
def announcedSize (opcode : Nat) (head : Bytes) : Nat :=
  if opcode < mcDctScriptOpPushData1 then opcode else getLE head

/-- An opcode with all its bytes. -/
structure WholeOp where
  opcode : UInt8
  head : Bytes
  data : Bytes
  head_length : head.length = lengthBytes opcode.toNat
  data_length : data.length = announcedSize opcode.toNat head
  deriving DecidableEq, Repr

namespace WholeOp

def bytes (op : WholeOp) : Bytes :=
  op.opcode :: (op.head ++ op.data)

/-- Whether `SetScript` takes an opcode in front of an OP_DROP for data. -/
def isData (op : WholeOp) : Bool :=
  op.opcode.toNat ≤ mcDctScriptOp16

def isReturn (op : WholeOp) : Bool :=
  op.opcode.toNat = mcDctScriptOpReturn

def isDrop (op : WholeOp) : Bool :=
  op.opcode.toNat = mcDctScriptOpDrop

/-- An opcode behind the pushes has neither length bytes nor data. -/
theorem data_of_large {op : WholeOp} (large : mcDctScriptOpPushData4 < op.opcode.toNat) :
    op.head = [] ∧ op.data = [] := by
  simp only [mcDctScriptOpPushData4] at large
  have noHead : op.head = [] := by
    refine List.eq_nil_of_length_eq_zero (op.head_length.trans ?_)
    have other : ¬ op.opcode.toNat = mcDctScriptOpPushData1 ∧
        ¬ op.opcode.toNat = mcDctScriptOpPushData2 ∧
        ¬ op.opcode.toNat = mcDctScriptOpPushData4 := by
      simp only [mcDctScriptOpPushData1, mcDctScriptOpPushData2, mcDctScriptOpPushData4]
      omega
    rw [lengthBytes, if_neg other.1, if_neg other.2.1, if_neg other.2.2]
  refine ⟨noHead, List.eq_nil_of_length_eq_zero (op.data_length.trans ?_)⟩
  rw [announcedSize, noHead, if_neg (by simp only [mcDctScriptOpPushData1]; omega)]
  rfl

end WholeOp

/-- The bytes of a sequence of opcodes. -/
def scriptBytes (ops : List WholeOp) : Bytes :=
  ops.flatMap WholeOp.bytes

@[simp]
theorem scriptBytes_cons (op : WholeOp) (ops : List WholeOp) :
    scriptBytes (op :: ops) = op.bytes ++ scriptBytes ops := rfl

theorem scriptBytes_append (ops more : List WholeOp) :
    scriptBytes (ops ++ more) = scriptBytes ops ++ scriptBytes more :=
  List.flatMap_append

end Opcodes

/-- The elements of a sequence of opcodes behind some pending data: the data in front of
OP_DROPs, and what follows the first OP_RETURN. -/
def elementsOf : Option Bytes → List WholeOp → List Bytes
  | _, [] => []
  | pending, op :: ops =>
    if op.isReturn then [(ops.head?.map WholeOp.data).getD []]
    else if op.isDrop then pending.toList ++ elementsOf none ops
    else elementsOf (if op.isData then some op.data else none) ops

namespace ScriptParser

section Rounds

variable {front rest : Bytes} {op : WholeOp}

/-- The script around an opcode. -/
abbrev around (front : Bytes) (op : WholeOp) (rest : Bytes) : Bytes :=
  front ++ (op.bytes ++ rest)

theorem length_around : (around front op rest).length =
    front.length + 1 + op.head.length + op.data.length + rest.length := by
  simp only [around, WholeOp.bytes, List.length_append, List.length_cons]
  omega

theorem byteAt_around : byteAt (around front op rest) front.length = some op.opcode := by
  rw [byteAt, if_neg (by omega), Int.toNat_natCast, around, List.getElem?_append_right
    (Nat.le_refl _), Nat.sub_self]
  rfl

theorem drop_around : (around front op rest).drop (front.length + 1) =
    op.head ++ (op.data ++ rest) := by
  rw [around, List.drop_append]
  simp [WholeOp.bytes]

theorem pushSize_around :
    ScriptInterpreter.pushSize (around front op rest) op.opcode.toNat front.length =
      op.data.length := by
  rw [ScriptInterpreter.pushSize, drop_around, op.data_length, announcedSize, ← op.head_length,
    List.take_left]

/-- The data of an opcode is copied from behind its length bytes. -/
theorem copyFrom_around :
    copyFrom (around front op rest) ((front.length + 1 + op.head.length : Nat) : Int)
      op.data.length = some op.data := by
  have behind : (around front op rest).drop (front.length + 1 + op.head.length) =
      op.data ++ rest := by
    rw [← List.drop_drop, drop_around, List.drop_left]
  have length : (around front op rest).length = _ := length_around
  rw [copyFrom, if_pos ⟨by omega, by omega, by omega⟩, Int.toNat_natCast, Int.toNat_natCast,
    behind, List.take_left]

theorem readPush_around (short : op.data.length < 2 ^ 31) :
    readPush (around front op rest) op.opcode.toNat ((front.length : Int) + 1) =
      .ok ((op.data.length : Int), ((front.length + 1 + op.head.length : Nat) : Int)) := by
  by_cases isPush : op.opcode.toNat ≤ mcDctScriptOpPushData4
  · have read := @ScriptInterpreter.readPush_of_inside (around front op rest) front.length _ isPush
      (by rw [pushSize_around]; exact short)
      (by rw [pushSize_around, ← op.head_length, length_around]; omega)
    rw [pushSize_around, ← op.head_length] at read
    exact read
  · obtain ⟨noHead, noData⟩ := WholeOp.data_of_large (Nat.lt_of_not_le isPush)
    rw [readPush, if_neg isPush, noHead, noData]
    rfl

/-- A round takes an opcode as its middle part does. -/
theorem scanStep_around (short : op.data.length < 2 ^ 31) {st : ScanState}
    (atOp : st.ptr = front.length) (taken : Taken)
    (takes : (if st.isOpReturn then
        takeElement (around front op rest) .scriptPubKey st op.data.length
          ((front.length + 1 + op.head.length : Nat) : Int)
      else takeOpcode (around front op rest) st op.opcode.toNat op.data.length
        ((front.length + 1 + op.head.length : Nat) : Int)) = some taken) :
    scanStep (around front op rest) .scriptPubKey st =
      .next (advance taken op.opcode.toNat) := by
  have length : (around front op rest).length = _ := length_around
  rw [scanStep, if_pos (by omega), atOp, byteAt_around]
  dsimp only
  rw [readPush_around short]
  dsimp only
  cases open_ : st.isOpReturn with
  | false =>
    rw [open_, if_neg (by decide)] at takes
    rw [if_pos (by simp), takes]
  | true =>
    rw [open_, if_pos rfl] at takes
    rw [if_neg (by simp), takes]

/-- What the loop knows between two opcodes in front of any OP_RETURN. -/
structure Between (src front : Bytes) (st : ScanState) (pending : Option Bytes) : Prop where
  ptr : st.ptr = front.length
  closed : st.isOpReturn = false
  pending : (pending = none ∧ st.lastSize < 0) ∨
    ∃ data, pending = some data ∧ 0 ≤ st.lastSize ∧
      copyFrom src st.ptrPrev st.lastSize = some data

theorem between_start (src : Bytes) : Between src [] scanStart none :=
  ⟨rfl, rfl, .inl ⟨rfl, by decide⟩⟩

/-- The end of a round over an opcode. -/
theorem between_advance {script : Script} :
    Between (around front op rest) (front ++ op.bytes)
      (advance ⟨script, false, ((front.length + 1 + op.head.length : Nat) : Int),
        op.data.length⟩ op.opcode.toNat)
      (if op.isData then some op.data else none) := by
  refine ⟨?_, rfl, ?_⟩
  · simp only [advance, WholeOp.bytes, List.length_append, List.length_cons]
    omega
  · cases isData : op.isData with
    | true =>
      have small : op.opcode.toNat ≤ mcDctScriptOp16 := of_decide_eq_true isData
      refine .inr ⟨op.data, rfl, ?_⟩
      have size : (advance ⟨script, false, ((front.length + 1 + op.head.length : Nat) : Int),
          op.data.length⟩ op.opcode.toNat).lastSize = op.data.length :=
        if_neg (by omega)
      rw [size]
      exact ⟨by omega, copyFrom_around⟩
    | false =>
      have large : ¬ op.opcode.toNat ≤ mcDctScriptOp16 := of_decide_eq_false isData
      have noData := (@WholeOp.data_of_large op
        (lt_trans (by decide) (Nat.lt_of_not_le large))).2
      refine .inl ⟨rfl, ?_⟩
      have size : (advance ⟨script, false, ((front.length + 1 + op.head.length : Nat) : Int),
          op.data.length⟩ op.opcode.toNat).lastSize = -1 :=
        if_pos ⟨by simp, by simp [noData], by omega⟩
      rw [size]
      decide

theorem next_of_drop (short : op.data.length < 2 ^ 31) (isDrop : op.isDrop) {st : ScanState}
    {pending : Option Bytes} (between : Between (around front op rest) front st pending) :
    ∃ next, scanStep (around front op rest) .scriptPubKey st = .next next ∧
      Between (around front op rest) (front ++ op.bytes) next none ∧
      next.script.elements = st.script.elements ++ pending.toList := by
  have opcode : op.opcode.toNat = mcDctScriptOpDrop := of_decide_eq_true isDrop
  have notData : op.isData = false := by
    rw [WholeOp.isData, opcode]
    decide
  have takes : ∃ script, takeOpcode (around front op rest) st op.opcode.toNat op.data.length
        ((front.length + 1 + op.head.length : Nat) : Int) =
          some ⟨script, false, ((front.length + 1 + op.head.length : Nat) : Int),
            op.data.length⟩ ∧
        script.elements = st.script.elements ++ pending.toList := by
    rw [takeOpcode, opcode, if_neg (by decide), if_pos rfl]
    rcases between.pending with ⟨rfl, noSize⟩ | ⟨data, rfl, isSize, copied⟩
    · rw [if_neg (by omega), between.closed]
      exact ⟨_, rfl, (List.append_nil _).symm⟩
    · rw [if_pos isSize, copied, between.closed]
      exact ⟨_, rfl, rfl⟩
  obtain ⟨script, takes, elements⟩ := takes
  refine ⟨_, scanStep_around short between.ptr
    ⟨script, false, ((front.length + 1 + op.head.length : Nat) : Int), op.data.length⟩ ?_, ?_, ?_⟩
  · rw [between.closed]
    exact takes
  · have after := @between_advance front rest op script
    rwa [notData] at after
  · rw [elements_advance, elements]

theorem next_of_other (short : op.data.length < 2 ^ 31) (notReturn : op.isReturn = false)
    (notDrop : op.isDrop = false) {st : ScanState} {pending : Option Bytes}
    (between : Between (around front op rest) front st pending) :
    ∃ next, scanStep (around front op rest) .scriptPubKey st = .next next ∧
      Between (around front op rest) (front ++ op.bytes) next
        (if op.isData then some op.data else none) ∧
      next.script.elements = st.script.elements := by
  refine ⟨_, scanStep_around short between.ptr
    ⟨st.script.setTypeIf (0 ≤ st.lastSize) mcDctScriptTypeDirtyOpReturn, false,
      ((front.length + 1 + op.head.length : Nat) : Int), op.data.length⟩ ?_, between_advance, ?_⟩
  · rw [between.closed, takeOpcode, if_neg (of_decide_eq_false notReturn),
      if_neg (of_decide_eq_false notDrop), between.closed]
    rfl
  · rw [elements_advance]
    exact elements_setTypeIf ..

theorem next_of_return (isReturn : op.isReturn) {st : ScanState} {pending : Option Bytes}
    (between : Between (around front op rest) front st pending) :
    ∃ next, scanStep (around front op rest) .scriptPubKey st = .next next ∧
      next.isOpReturn = true ∧ next.ptr = (front ++ op.bytes).length ∧
      next.script.elements = st.script.elements := by
  have opcode : op.opcode.toNat = mcDctScriptOpReturn := of_decide_eq_true isReturn
  have noData := @WholeOp.data_of_large op (by rw [opcode]; decide)
  refine ⟨_, scanStep_around (by rw [noData.2]; decide) between.ptr
    ⟨(st.script.setType mcDctScriptTypeOpReturn).setTypeIf (0 ≤ st.lastSize)
      mcDctScriptTypeDirtyOpReturn, true, ((front.length + 1 + op.head.length : Nat) : Int),
      op.data.length⟩ ?_, ?_, ?_, ?_⟩
  · rw [between.closed, takeOpcode, if_pos opcode]
    rfl
  · rfl
  · simp only [advance, WholeOp.bytes, List.length_append, List.length_cons]
    omega
  · rw [elements_advance]
    exact elements_setTypeIf ..

theorem next_of_last (short : op.data.length < 2 ^ 31) {st : ScanState}
    (opened : st.isOpReturn = true) (atOp : st.ptr = front.length) :
    ∃ next, scanStep (around front op rest) .scriptPubKey st = .next next ∧
      next.isOpReturn = false ∧ (around front op rest).length ≤ next.ptr ∧
      next.script.elements = st.script.elements ++ [op.data] := by
  have copied : (if (op.data.length : Int) ≠ 0 then
      copyFrom (around front op rest) ((front.length + 1 + op.head.length : Nat) : Int)
        op.data.length
      else copyFrom (around front op rest) ((front.length + 1 + op.head.length : Nat) : Int) 0) =
        some op.data := by
    split
    · exact copyFrom_around
    · rename_i isEmpty
      have noSize : (op.data.length : Int) = 0 := not_not.mp isEmpty
      have copied := @copyFrom_around front rest op
      rwa [noSize] at copied
  refine ⟨_, scanStep_around short atOp
    ⟨st.script.addElement op.data, false, (around front op rest).length, op.data.length⟩
    ?_, ?_, ?_, ?_⟩
  · rw [opened, if_pos rfl, takeElement, if_neg (by simp [isRedeemScript])]
    simp only [opened, if_true]
    rw [copied]
    rfl
  · rfl
  · simp only [advance]
    omega
  · exact elements_advance ..

end Rounds

section Runs

variable {src : Bytes}

/-- From a state on the loop ends with some elements. -/
def Gives (src : Bytes) (st : ScanState) (elements : List Bytes) : Prop :=
  ∃ fuel script, iterate (scanStep src .scriptPubKey) fuel st = some (.ok script) ∧
    script.elements = elements

theorem gives_of_next {st next : ScanState} {elements : List Bytes}
    (stepped : scanStep src .scriptPubKey st = .next next) (gives : Gives src next elements) :
    Gives src st elements := by
  obtain ⟨fuel, script, found, sameElements⟩ := gives
  refine ⟨fuel + 1, script, ?_, sameElements⟩
  rw [iterate, stepped]
  exact found

theorem gives_of_end {st : ScanState} (atEnd : src.length ≤ st.ptr) :
    Gives src st (finish st).elements := by
  refine ⟨1, finish st, ?_, rfl⟩
  rw [iterate, scanStep, if_neg (by omega)]

theorem gives_elementsOf (ops : List WholeOp) {front : Bytes} {st : ScanState}
    {pending : Option Bytes} (isScript : src = front ++ scriptBytes ops)
    (between : Between src front st pending)
    (short : ∀ op ∈ ops, op.data.length < 2 ^ 31) :
    Gives src st (st.script.elements ++ elementsOf pending ops) := by
  induction ops generalizing front st pending with
  | nil =>
    have atEnd : src.length ≤ st.ptr := by
      rw [isScript, between.ptr]
      simp [scriptBytes]
    have gives := gives_of_end atEnd
    rw [elements_finish between.closed] at gives
    rw [elementsOf, List.append_nil]
    exact gives
  | cons op ops ih =>
    have here : src = around front op (scriptBytes ops) := isScript
    have behind : src = front ++ op.bytes ++ scriptBytes ops := by
      rw [here, around, List.append_assoc]
    have opShort := short op List.mem_cons_self
    have opsShort : ∀ op ∈ ops, op.data.length < 2 ^ 31 :=
      fun op among => short op (List.mem_cons_of_mem _ among)
    subst here
    unfold elementsOf
    cases isReturn : op.isReturn with
    | true =>
      rw [if_pos rfl]
      obtain ⟨next, stepped, opened, atNext, elements⟩ := next_of_return isReturn between
      refine gives_of_next stepped ?_
      rw [← elements]
      cases ops with
      | nil =>
        have gives : Gives (around front op (scriptBytes [])) next (finish next).elements := by
          refine gives_of_end ?_
          rw [atNext, behind]
          simp [scriptBytes]
        have last : (finish next).elements = next.script.elements ++ [[]] := by
          unfold finish
          rw [opened]
          simp only [if_true]
          split <;> rfl
        rwa [last] at gives
      | cons last ops =>
        have sameScript : around front op (scriptBytes (last :: ops)) =
            around (front ++ op.bytes) last (scriptBytes ops) := behind
        rw [sameScript]
        obtain ⟨final, stepped, closed, atEnd, elements⟩ :=
          @next_of_last (front ++ op.bytes) (scriptBytes ops) last
            (opsShort last List.mem_cons_self) next opened atNext
        refine gives_of_next stepped ?_
        have gives := gives_of_end atEnd
        rw [elements_finish closed, elements] at gives
        exact gives
    | false =>
      rw [if_neg (by decide)]
      cases isDrop : op.isDrop with
      | true =>
        rw [if_pos rfl]
        obtain ⟨next, stepped, after, elements⟩ := next_of_drop opShort isDrop between
        refine gives_of_next stepped ?_
        rw [← List.append_assoc, ← elements]
        exact ih behind after opsShort
      | false =>
        rw [if_neg (by decide)]
        obtain ⟨next, stepped, after, elements⟩ :=
          next_of_other opShort isReturn isDrop between
        refine gives_of_next stepped ?_
        rw [← elements]
        exact ih behind after opsShort

/-- `SetScript` takes the elements of a sequence of opcodes. -/
theorem setScript_scriptBytes {ops : List WholeOp}
    (short : ∀ op ∈ ops, op.data.length < 2 ^ 31) :
    ∃ fuel script, setScript (scriptBytes ops) .scriptPubKey fuel = some (.ok script) ∧
      script.elements = elementsOf none ops := by
  cases ops with
  | nil => exact ⟨0, Script.clear, rfl, rfl⟩
  | cons op ops =>
    obtain ⟨fuel, script, found, elements⟩ := gives_elementsOf (op :: ops)
      (List.nil_append _).symm (between_start (scriptBytes (op :: ops))) short
    refine ⟨fuel, script, ?_, elements⟩
    rw [setScript, if_neg (by simp [WholeOp.bytes])]
    exact found

end Runs

end ScriptParser

end HdacNode
