import HdacNode.WholeOpcodes

/-!
# What existing signatures disallow

`mc_CheckSigScriptForMutableTx` reads the hash types of the signatures in an
input script, for a transaction that more inputs or outputs are to be appended
to.  It takes the elements in front of the last one for signatures, unless they
are empty; an empty element is expected only at the start of a multisig script.
Which elements are signatures is up to the output that is spent: the last one is
a signature if it pays to a bare key or to bare keys.

For inputs the function asks for a base type of zero instead of the ANYONECANPAY
flag, so that the usual signatures, which sign all inputs, disallow no further
inputs.
-/

namespace HdacNode

open AdvancingLoop ScriptParser

namespace ScriptScanners

section Elements

variable {front rest : Bytes} {op : WholeOp}

theorem getPushDataElement_around (isData : op.isData = true) (short : op.data.length < 2 ^ 31) :
    getPushDataElement (around front op rest) front.length =
      .ok (((front.length + 1 + op.head.length : Nat) : Int), (op.data.length : Int)) := by
  have length : (around front op rest).length = _ := length_around
  have notDone : ¬ ((around front op rest).length : Int) ≤ front.length := by omega
  have small : ¬ mcDctScriptOp16 < op.opcode.toNat := by
    have atMost : op.opcode.toNat ≤ mcDctScriptOp16 := by simpa [WholeOp.isData] using isData
    omega
  rw [getPushDataElement, if_neg notDone, byteAt_around]
  dsimp only
  rw [if_neg small, readPush_around short]
  rfl

theorem byteAt_last {last : UInt8} (isLast : op.data.getLast? = some last) :
    byteAt (around front op rest)
      (((front.length + 1 + op.head.length : Nat) : Int) + (op.data.length : Int) - 1) =
        some last := by
  have some : 0 < op.data.length := by
    apply List.length_pos_of_ne_nil
    rintro empty
    rw [empty] at isLast
    cases isLast
  have place : (((front.length + 1 + op.head.length : Nat) : Int) + (op.data.length : Int) -
      1).toNat = front.length + (1 + op.head.length + (op.data.length - 1)) := by omega
  have asCons : op.bytes = (op.opcode :: op.head) ++ op.data := rfl
  have inData : op.data.length - 1 < op.data.length := by omega
  have inOp : 1 + op.head.length + (op.data.length - 1) =
      (op.opcode :: op.head).length + (op.data.length - 1) := by
    rw [List.length_cons]
    omega
  rw [byteAt, if_neg (by omega), place, around, List.getElem?_append_right (by omega),
    Nat.add_sub_cancel_left, asCons, List.append_assoc, inOp,
    List.getElem?_append_right (by omega), Nat.add_sub_cancel_left,
    List.getElem?_append_left inData, ← isLast, List.getLast?_eq_getElem?]

end Elements

/-- What the elements of an input script disallow, the first of them with or without others in
front. -/
def disallowedFrom : Bool → List WholeOp → Nat
  | _, [] => 0
  | _, [_] => 0
  | isFirst, op :: next :: ops =>
      (match op.data.getLast? with
        | some last => disallowedBy last.toNat
        | none => if isFirst then 0 else 0x07) ||| disallowedFrom false (next :: ops)

theorem length_scriptBytes_cons (op : WholeOp) (ops : List WholeOp) :
    (scriptBytes (op :: ops)).length =
      1 + op.head.length + op.data.length + (scriptBytes ops).length := by
  rw [scriptBytes_cons, List.length_append, WholeOp.bytes]
  simp only [List.length_cons, List.length_append]
  omega

theorem sigStep_around {front : Bytes} {op : WholeOp} {ops : List WholeOp} {result : Nat}
    (isData : op.isData = true) (short : op.data.length < 2 ^ 31) :
    sigStep (around front op (scriptBytes ops)) ⟨front.length, result⟩ =
      .next ⟨((front ++ op.bytes).length : Nat), result |||
        (if ops = [] then 0
          else match op.data.getLast? with
            | some last => disallowedBy last.toNat
            | none => if front = [] then 0 else 0x07)⟩ := by
  have length : (around front op (scriptBytes ops)).length = _ := length_around
  have notDone : ((front.length : Nat) : Int) < (around front op (scriptBytes ops)).length := by
    omega
  have behind : ((front ++ op.bytes).length : Int) =
      ((front.length + 1 + op.head.length : Nat) : Int) + (op.data.length : Int) := by
    simp only [WholeOp.bytes, List.length_append, List.length_cons]
    omega
  rw [sigStep, if_pos notDone, getPushDataElement_around isData short]
  dsimp only
  rw [← behind]
  by_cases isLast : ops = []
  · have atEnd : ¬ (((front ++ op.bytes).length : Int) ≠
        (around front op (scriptBytes ops)).length) := by
      rw [length, behind, isLast]
      simp only [scriptBytes, List.flatMap_nil, List.length_nil, ne_eq, Decidable.not_not]
      omega
    rw [if_neg atEnd, if_pos isLast, Nat.or_zero]
  · have notEnd : ((front ++ op.bytes).length : Int) ≠
        (around front op (scriptBytes ops)).length := by
      obtain ⟨next, others, rfl⟩ := List.exists_cons_of_ne_nil isLast
      rw [length, behind, length_scriptBytes_cons]
      omega
    rw [if_pos notEnd, if_neg isLast]
    cases lastByte : op.data.getLast? with
    | none =>
        have empty : op.data = [] := List.getLast?_eq_none_iff.1 lastByte
        have noSize : ¬ ((op.data.length : Nat) : Int) ≠ 0 := by
          rw [empty]
          decide
        rw [if_neg noSize]
        by_cases isFirst : front = []
        · rw [if_pos isFirst, if_neg (by rw [isFirst]; decide), Nat.or_zero]
        · have notFirst : ((front.length : Nat) : Int) ≠ 0 := by
            have := List.length_pos_of_ne_nil isFirst
            omega
          rw [if_neg isFirst, if_pos notFirst]
    | some last =>
        have someSize : ((op.data.length : Nat) : Int) ≠ 0 := by
          have some : 0 < op.data.length := by
            apply List.length_pos_of_ne_nil
            rintro empty
            rw [empty] at lastByte
            cases lastByte
          omega
        rw [if_pos someSize, behind, byteAt_last lastByte]

theorem iterate_sigStep (front : Bytes) (ops : List WholeOp) (result : Nat)
    (pushes : ∀ op ∈ ops, op.isData = true ∧ op.data.length < 2 ^ 31) :
    iterate (sigStep (front ++ scriptBytes ops)) (ops.length + 1) ⟨front.length, result⟩ =
      some (.ok (result ||| disallowedFrom (decide (front = [])) ops)) := by
  induction ops generalizing front result with
  | nil =>
      have atEnd : ¬ ((front.length : Nat) : Int) < (front ++ scriptBytes []).length := by
        simp [scriptBytes]
      rw [iterate, sigStep, if_neg atEnd, disallowedFrom, Nat.or_zero]
  | cons op ops ih =>
      obtain ⟨isData, short⟩ := pushes op (by simp)
      have restPushes : ∀ other ∈ ops, other.isData = true ∧ other.data.length < 2 ^ 31 := by
        intro other member
        exact pushes other (by simp [member])
      have split : front ++ scriptBytes (op :: ops) = around front op (scriptBytes ops) := by
        rw [scriptBytes_cons]
      have joined : around front op (scriptBytes ops) = front ++ op.bytes ++ scriptBytes ops := by
        rw [around, List.append_assoc]
      have notFirst : front ++ op.bytes ≠ [] := by simp [WholeOp.bytes]
      rw [List.length_cons, iterate, split, sigStep_around isData short]
      dsimp only
      rw [joined, ih _ _ restPushes, decide_eq_false notFirst, Nat.or_assoc]
      cases ops with
      | nil => rw [if_pos rfl, Nat.zero_or, disallowedFrom, disallowedFrom]
      | cons next ops =>
          rw [if_neg (List.cons_ne_nil _ _), disallowedFrom]
          cases op.data.getLast? <;> simp

/-! ## Signatures -/

/-- The hash types that the function reads: of what is in front of the last element and not
empty. -/
def judgedTypes (ops : List WholeOp) : List Nat :=
  ops.dropLast.filterMap fun op => op.data.getLast?.map UInt8.toNat

/-- An element of an input script, and whether it is a signature for the output that is spent. -/
structure InputElement extends WholeOp where
  isSignature : Bool

/-- The hash types of the signatures. -/
def signatureTypes (elements : List InputElement) : List Nat :=
  (elements.filter InputElement.isSignature).filterMap fun element =>
    element.data.getLast?.map UInt8.toNat

/-- An empty element stands neither first nor last. -/
def EmptyInside (ops : List WholeOp) : Prop :=
  ∃ op ∈ ops.dropLast.tail, op.data = []

/-- What the answer of `mc_CheckSigScriptForMutableTx` promises of the hash types of the
signatures: when it allows further inputs all have the ANYONECANPAY flag, when it allows further
outputs none is SIGHASH_ALL, and when it allows them behind the matching ones none is
SIGHASH_SINGLE. -/
structure Sound (signed : List Nat) (result : Nat) : Prop where
  inputs : result &&& 0x01 = 0 → ∀ hashType ∈ signed, hashType &&& 0x80 ≠ 0
  outputs : result &&& 0x02 = 0 → ∀ hashType ∈ signed, hashType &&& 0x1f ≠ 1
  matching : result &&& 0x04 = 0 → ∀ hashType ∈ signed, hashType &&& 0x1f ≠ 3

theorem or_and_eq_zero (first second mask : Nat) :
    (first ||| second) &&& mask = 0 ↔ first &&& mask = 0 ∧ second &&& mask = 0 := by
  rw [Nat.and_or_distrib_right, Nat.or_eq_zero_iff]

theorem disallowedBy_bits (hashType : Nat) :
    (disallowedBy hashType &&& 0x01 = 0 ↔ hashType &&& 0x1f = 1 ∨ hashType &&& 0x1f = 2 ∨
      hashType &&& 0x1f = 3) ∧
    (disallowedBy hashType &&& 0x02 = 0 ↔ hashType &&& 0x1f = 2 ∨ hashType &&& 0x1f = 3) ∧
    (disallowedBy hashType &&& 0x04 = 0 ↔ hashType &&& 0x1f = 1 ∨ hashType &&& 0x1f = 2) := by
  rw [disallowedBy]
  generalize hashType &&& 0x1f = base
  split_ifs with isZero isAll isSingle isNone <;> simp_all

theorem disallowedFrom_clear (isFirst : Bool) (op : WholeOp) (ops : List WholeOp) (mask : Nat)
    (isBit : mask = 0x01 ∨ mask = 0x02 ∨ mask = 0x04) :
    disallowedFrom isFirst (op :: ops) &&& mask = 0 ↔
      (∀ hashType ∈ judgedTypes (op :: ops), disallowedBy hashType &&& mask = 0) ∧
        ¬ EmptyInside (op :: ops) ∧ (isFirst = false → ops ≠ [] → op.data ≠ []) := by
  have sevenBits : ¬ 0x07 &&& mask = 0 := by
    rcases isBit with rfl | rfl | rfl <;> decide
  induction ops generalizing isFirst op with
  | nil => simp [disallowedFrom, judgedTypes, EmptyInside]
  | cons next ops ih =>
      have restClear := ih false next
      rw [disallowedFrom, or_and_eq_zero, propext restClear]
      have inside : EmptyInside (op :: next :: ops) ↔
          EmptyInside (next :: ops) ∨ ops ≠ [] ∧ next.data = [] := by
        cases ops with
        | nil => simp [EmptyInside]
        | cons third ops =>
            simp only [EmptyInside, List.dropLast_cons_cons, List.tail_cons, List.mem_cons,
              exists_eq_or_imp, ne_eq, reduceCtorEq, not_false_eq_true, true_and]
            exact or_comm
      cases lastByte : op.data.getLast? with
      | none =>
          have empty : op.data = [] := List.getLast?_eq_none_iff.1 lastByte
          have sameTypes : judgedTypes (op :: next :: ops) = judgedTypes (next :: ops) := by
            simp [judgedTypes, empty]
          rw [sameTypes, inside]
          cases isFirst <;> simp [empty, sevenBits]
      | some last =>
          have notEmpty : op.data ≠ [] := by
            rintro empty
            rw [empty] at lastByte
            cases lastByte
          have moreTypes : judgedTypes (op :: next :: ops) =
              last.toNat :: judgedTypes (next :: ops) := by
            simp [judgedTypes, lastByte]
          rw [moreTypes, inside]
          simp only [List.mem_cons, forall_eq_or_imp]
          tauto

/-- The bits of the answer that stay clear. -/
theorem disallowedFrom_bits (ops : List WholeOp) :
    (disallowedFrom true ops &&& 0x01 = 0 ↔ ¬ EmptyInside ops ∧ ∀ hashType ∈ judgedTypes ops,
      hashType &&& 0x1f = 1 ∨ hashType &&& 0x1f = 2 ∨ hashType &&& 0x1f = 3) ∧
    (disallowedFrom true ops &&& 0x02 = 0 ↔ ¬ EmptyInside ops ∧ ∀ hashType ∈ judgedTypes ops,
      hashType &&& 0x1f = 2 ∨ hashType &&& 0x1f = 3) ∧
    (disallowedFrom true ops &&& 0x04 = 0 ↔ ¬ EmptyInside ops ∧ ∀ hashType ∈ judgedTypes ops,
      hashType &&& 0x1f = 1 ∨ hashType &&& 0x1f = 2) := by
  cases ops with
  | nil => simp [disallowedFrom, judgedTypes, EmptyInside]
  | cons op ops =>
      have clear := disallowedFrom_clear true op ops
      simp only [Bool.true_eq_false, false_implies, and_true] at clear
      rw [clear 0x01 (by simp), clear 0x02 (by simp), clear 0x04 (by simp)]
      simp only [disallowedBy_bits, and_comm, and_self]

/-- The answer for a script made of push elements is sound exactly when an empty element is out of
place, one of the types that are read has no known base type, or all signatures have the
ANYONECANPAY flag and the types that are read have SIGHASH_ALL and SIGHASH_SINGLE if the signatures
have them. -/
theorem mutable_sound_iff (elements : List InputElement)
    (pushes : ∀ element ∈ elements, element.isData = true ∧ element.data.length < 2 ^ 31) :
    let ops := elements.map InputElement.toWholeOp
    ∃ result, (∃ fuel, checkSigScriptForMutableTx (scriptBytes ops) fuel = some (.ok result)) ∧
      (Sound (signatureTypes elements) result ↔
        EmptyInside ops ∨
        (∃ hashType ∈ judgedTypes ops, hashType &&& 0x1f ≠ 1 ∧ hashType &&& 0x1f ≠ 2 ∧
          hashType &&& 0x1f ≠ 3) ∨
        (∀ hashType ∈ signatureTypes elements, hashType &&& 0x80 ≠ 0 ∧
          (hashType &&& 0x1f = 1 ∨ hashType &&& 0x1f = 3 →
            ∃ judged ∈ judgedTypes ops, judged &&& 0x1f = hashType &&& 0x1f))) := by
  intro ops
  have opPushes : ∀ op ∈ ops, op.isData = true ∧ op.data.length < 2 ^ 31 := by
    intro op member
    obtain ⟨element, isElement, rfl⟩ := List.mem_map.1 member
    exact pushes element isElement
  have run := iterate_sigStep [] ops 0 opPushes
  rw [List.nil_append, Nat.zero_or, decide_eq_true rfl] at run
  refine ⟨disallowedFrom true ops, ⟨ops.length + 1, run⟩, ?_⟩
  obtain ⟨inputs, outputs, matching⟩ := disallowedFrom_bits ops
  by_cases inside : EmptyInside ops
  · refine iff_of_true ⟨fun clear => ?_, fun clear => ?_, fun clear => ?_⟩ (.inl inside)
    · exact absurd inside (inputs.1 clear).1
    · exact absurd inside (outputs.1 clear).1
    · exact absurd inside (matching.1 clear).1
  by_cases known : ∀ hashType ∈ judgedTypes ops, hashType &&& 0x1f = 1 ∨ hashType &&& 0x1f = 2 ∨
      hashType &&& 0x1f = 3
  swap
  · have unknown := known
    push Not at unknown
    obtain ⟨hashType, member, notAll, notNone, notSingle⟩ := unknown
    refine iff_of_true ⟨fun clear => ?_, fun clear => ?_, fun clear => ?_⟩
      (.inr (.inl ⟨hashType, member, notAll, notNone, notSingle⟩))
    · exact absurd (inputs.1 clear).2 known
    · exact ((outputs.1 clear).2 hashType member).elim (absurd · notNone) (absurd · notSingle)
    · exact ((matching.1 clear).2 hashType member).elim (absurd · notAll) (absurd · notNone)
  have notUnknown : ¬ ∃ hashType ∈ judgedTypes ops, hashType &&& 0x1f ≠ 1 ∧
      hashType &&& 0x1f ≠ 2 ∧ hashType &&& 0x1f ≠ 3 := by
    rintro ⟨hashType, member, notAll, notNone, notSingle⟩
    rcases known hashType member with all | none | single
    · exact notAll all
    · exact notNone none
    · exact notSingle single
  simp only [inside, notUnknown, false_or]
  constructor
  · intro sound hashType member
    refine ⟨sound.inputs (inputs.2 ⟨inside, known⟩) hashType member, ?_⟩
    intro isBase
    by_contra noneJudged
    push Not at noneJudged
    rcases isBase with isAll | isSingle
    · refine sound.outputs (outputs.2 ⟨inside, fun judged read => ?_⟩) hashType member isAll
      exact (known judged read).resolve_left fun all => noneJudged judged read (all.trans isAll.symm)
    · refine sound.matching (matching.2 ⟨inside, fun judged read => ?_⟩) hashType member isSingle
      have notSingle := noneJudged judged read
      rw [isSingle] at notSingle
      have := known judged read
      tauto
  · intro signed
    refine ⟨fun _ hashType member => (signed hashType member).1, fun clear hashType member isAll => ?_,
      fun clear hashType member isSingle => ?_⟩
    · obtain ⟨judged, read, same⟩ := (signed hashType member).2 (.inl isAll)
      have := (outputs.1 clear).2 judged read
      omega
    · obtain ⟨judged, read, same⟩ := (signed hashType member).2 (.inr isSingle)
      have := (matching.1 clear).2 judged read
      omega

/-- A signature of all inputs and outputs, and a key. -/
def plainSigScript : List InputElement :=
  [⟨⟨2, [], [0x30, 0x01], by decide, by decide⟩, true⟩,
    ⟨⟨1, [], [0x02], by decide, by decide⟩, false⟩]

/-- Two signatures with the ANYONECANPAY flag for bare keys. -/
def flaggedSigScript : List InputElement :=
  [⟨⟨0, [], [], by decide, by decide⟩, false⟩, ⟨⟨2, [], [0x30, 0x81], by decide, by decide⟩, true⟩,
    ⟨⟨2, [], [0x30, 0x81], by decide, by decide⟩, true⟩]

theorem mutable_sound_iff_flagged :
    ∃ result, (∃ fuel, checkSigScriptForMutableTx (scriptBytes (flaggedSigScript.map
        InputElement.toWholeOp)) fuel = some (.ok result)) ∧
      Sound (signatureTypes flaggedSigScript) result := by
  obtain ⟨result, run, sound⟩ := mutable_sound_iff flaggedSigScript (by decide)
  exact ⟨result, run, sound.mpr (.inr (.inr (by decide +kernel)))⟩

/-- Inputs may be appended behind a signature of all inputs. -/
theorem plain_signature_allows_inputs :
    ∃ result, checkSigScriptForMutableTx (scriptBytes (plainSigScript.map
        InputElement.toWholeOp)) 3 = some (.ok result) ∧
      ¬ Sound (signatureTypes plainSigScript) result := by
  refine ⟨0x02, by decide +kernel, fun sound => ?_⟩
  have flagged := sound.inputs (by decide) 1 (by decide +kernel)
  exact flagged (by decide)

end ScriptScanners

end HdacNode
