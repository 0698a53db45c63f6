import HdacNode.BlockSignature

/-!
# The script interpreter

`EvalScript` of `interpreter.cpp`: a script is read opcode by opcode and works on a stack.  An
opcode is executed if all open conditionals are true; the opcodes of a conditional are looked at
in every case.  The hash functions and the checks of keys and signatures are hooks.
-/

namespace HdacNode

namespace ScriptInterpreter

section Reading

/-- How many bytes behind an opcode hold the length of its data. -/
def lengthBytes (opcode : Nat) : Nat :=
  if opcode = mcDctScriptOpPushData1 then 1
  else if opcode = mcDctScriptOpPushData2 then 2
  else if opcode = mcDctScriptOpPushData4 then 4
  else 0

/-- `CScript::GetOp2`: an opcode, the data it pushes and what is behind it. -/
def getOp : Bytes → Option (UInt8 × Bytes × Bytes)
  | [] => none
  | opcode :: rest =>
    let header := lengthBytes opcode.toNat
    let nSize :=
      if opcode.toNat < mcDctScriptOpPushData1 then opcode.toNat else getLE (rest.take header)
    if rest.length < header then none
    -- what is left of the script is counted in an unsigned int
    else if (rest.length - header) % 2 ^ 32 < nSize then none
    else some (opcode, (rest.drop header).take nSize, rest.drop (header + nSize))

/-- An opcode with its data and what is behind it, or an opcode that cannot be read. -/
inductive Instruction where
  | op (opcode : UInt8) (data rest : Bytes)
  | unreadable
  deriving DecidableEq, Repr

/-- The opcodes in the order in which they are read, of a script not longer than a bound. -/
def instructionsWithin : Nat → Bytes → List Instruction
  | 0, _ => []
  | bound + 1, script =>
    if script = [] then []
    else
      match getOp script with
      | none => [.unreadable]
      | some (opcode, data, rest) => .op opcode data rest :: instructionsWithin bound rest

/-- The opcodes in the order in which they are read. -/
def instructions (script : Bytes) : List Instruction :=
  instructionsWithin script.length script

end Reading

section Opcodes

def op1Negate : Nat := 0x4f
def opReserved : Nat := 0x50
def op1 : Nat := 0x51
def op16 : Nat := 0x60
def opIf : Nat := 0x63
def opNotIf : Nat := 0x64
def opElse : Nat := 0x67
def opEndIf : Nat := 0x68
def opReturn : Nat := 0x6a

/-- The opcodes that may not stand in a script, executed or not. -/
def disabledOpcodes : List Nat :=
  [0x7e, 0x7f, 0x80, 0x81, 0x83, 0x84, 0x85, 0x86, 0x8d, 0x8e, 0x95, 0x96, 0x97, 0x98, 0x99]

end Opcodes

/-- The errors of `EvalScript`. -/
inductive ScriptError where
  | unknownError
  | opReturn
  | scriptSize
  | opCount
  | stackSize
  | sigCount
  | pubKeyCount
  | verify
  | equalVerify
  | checkMultisigVerify
  | checkSigVerify
  | numEqualVerify
  | badOpcode
  | disabledOpcode
  | invalidStackOperation
  | invalidAltstackOperation
  | unbalancedConditional
  | sigHashtype
  | sigDer
  | sigHighS
  | pubKeyType
  | minimalData
  | sigNullDummy
  | discourageUpgradableNops
  deriving DecidableEq, Repr

/-- The bits of the flags. -/
structure ScriptFlags where
  nullDummy : Bool
  minimalData : Bool
  discourageUpgradableNops : Bool
  skipSendPermissionCheck : Bool
  others : Nat
  deriving DecidableEq, Repr

/-- What `EvalScript` calls: hash functions, checks of encodings, and a signature checker that is
told whether the key cannot send and may change that. -/
structure ScriptHooks where
  ripemd160 : Bytes → Bytes
  sha1 : Bytes → Bytes
  sha256 : Bytes → Bytes
  hash160 : Bytes → Bytes
  hash256 : Bytes → Bytes
  checkSignatureEncoding : Bytes → ScriptFlags → Option ScriptError
  checkPubKeyEncoding : Bytes → ScriptFlags → Option ScriptError
  checkSig : Bytes → Bytes → Bytes → Bool → Bool × Bool

/-- The stacks, the count of opcodes and the script behind the last code separator. -/
structure Machine where
  stack : List Bytes
  altstack : List Bytes
  nOpCount : Nat
  codeHash : Bytes
  deriving DecidableEq, Repr

section Values

/-- `CastToBool`: some byte is set, and not only the sign of a negative zero. -/
def castToBool : Bytes → Bool
  | [] => false
  | [last] => last ≠ 0 ∧ last ≠ 0x80
  | byte :: bytes => byte ≠ 0 || castToBool bytes

/-- The sign bit of the last byte. -/
def hasSignBit (bytes : Bytes) : Bool := 0x80 ≤ (bytes.getLastD 0).toNat

/-- `CScriptNum` of at most four bytes, which throws otherwise. -/
def scriptNum (fRequireMinimal : Bool) (bytes : Bytes) : Except ScriptError Int :=
  if 4 < bytes.length then .error .unknownError
  else if fRequireMinimal ∧ bytes ≠ [] ∧ (bytes.getLastD 0).toNat % 0x80 = 0 ∧
      (bytes.length ≤ 1 ∨ ¬ hasSignBit bytes.dropLast) then .error .unknownError
  else if hasSignBit bytes then
    .ok (-((getLE bytes : Int) - 0x80 * 2 ^ (8 * (bytes.length - 1))))
  else .ok (getLE bytes)

/-- The bytes of a number, lowest byte first. -/
def magnitudeBytes : Nat → Nat → Bytes
  | 0, _ => []
  | bound + 1, value =>
    if value = 0 then [] else .ofNat value :: magnitudeBytes bound (value / 2 ^ 8)

/-- `CScriptNum::serialize`. -/
def serialize (value : Int) : Bytes :=
  let result := magnitudeBytes 8 value.natAbs
  if result = [] then []
  else if hasSignBit result then result ++ [if value < 0 then 0x80 else 0]
  else if value < 0 then result.dropLast ++ [.ofNat ((result.getLastD 0).toNat + 0x80)]
  else result

/-- The bytes of a truth value. -/
def boolBytes (value : Bool) : Bytes := if value then [1] else []

/-- A truth value as a number. -/
def boolNum (value : Bool) : Int := if value then 1 else 0

/-- `CheckMinimalPush`. -/
def checkMinimalPush (data : Bytes) (opcode : Nat) : Bool :=
  match data with
  | [] => opcode = 0
  | [byte] =>
    if 1 ≤ byte.toNat ∧ byte.toNat ≤ 16 then opcode = op1 + (byte.toNat - 1)
    else if byte = 0x81 then opcode = op1Negate
    else opcode = 1
  | _ =>
    if data.length ≤ 75 then opcode = data.length
    else if data.length ≤ 255 then opcode = mcDctScriptOpPushData1
    else if data.length ≤ 65535 then opcode = mcDctScriptOpPushData2
    else true

/-- The loop that erases a pattern at one place. -/
def eraseHere (pattern : Bytes) : Nat → Bytes → Bytes
  | 0, code => code
  | bound + 1, code =>
    if pattern.isPrefixOf code then eraseHere pattern bound (code.drop pattern.length) else code

/-- The rounds of `FindAndDelete`. -/
def findAndDeleteWithin (pattern : Bytes) : Nat → Bytes → Bytes
  | 0, code => code
  | bound + 1, code =>
    let left := eraseHere pattern (bound + 1) code
    match getOp left with
    | none => left
    | some (_, _, rest) =>
      left.take (left.length - rest.length) ++ findAndDeleteWithin pattern bound rest

/-- `FindAndDelete`. -/
def findAndDelete (code pattern : Bytes) : Bytes :=
  if pattern = [] then code else findAndDeleteWithin pattern (code.length + 1) code

end Values

section Executed

variable (hooks : ScriptHooks) (flags : ScriptFlags)

/-- The machine after a stack operation. -/
def Machine.withStack (machine : Machine) (stack : List Bytes) : Machine :=
  { machine with stack }

/-- A check of an encoding. -/
def requireEncoding : Option ScriptError → Except ScriptError Unit
  | none => .ok ()
  | some err => .error err

/-- The result of a check that the VERIFY form of an opcode insists on. -/
def pushOrVerify (machine : Machine) (stack : List Bytes) (success isVerify : Bool)
    (err : ScriptError) : Except ScriptError Machine :=
  if isVerify then
    if success then .ok (machine.withStack stack) else .error err
  else .ok (machine.withStack (boolBytes success :: stack))

/-- The opcodes on the stacks. -/
def evalStackOp (opcode : Nat) (machine : Machine) : Except ScriptError Machine :=
  let invalid : Except ScriptError Machine := .error .invalidStackOperation
  match opcode, machine.stack with
  -- OP_TOALTSTACK, OP_FROMALTSTACK
  | 0x6b, top :: rest => .ok { machine with stack := rest, altstack := top :: machine.altstack }
  | 0x6c, stack =>
    match machine.altstack with
    | [] => .error .invalidAltstackOperation
    | top :: rest => .ok { machine with stack := top :: stack, altstack := rest }
  -- OP_2DROP, OP_2DUP, OP_3DUP, OP_2OVER, OP_2ROT, OP_2SWAP
  | 0x6d, _ :: _ :: rest => .ok (machine.withStack rest)
  | 0x6e, b :: a :: rest => .ok (machine.withStack (b :: a :: b :: a :: rest))
  | 0x6f, c :: b :: a :: rest => .ok (machine.withStack (c :: b :: a :: c :: b :: a :: rest))
  | 0x70, d :: c :: b :: a :: rest =>
    .ok (machine.withStack (b :: a :: d :: c :: b :: a :: rest))
  | 0x71, f :: e :: d :: c :: b :: a :: rest =>
    .ok (machine.withStack (b :: a :: f :: e :: d :: c :: rest))
  | 0x72, d :: c :: b :: a :: rest => .ok (machine.withStack (b :: a :: d :: c :: rest))
  -- OP_IFDUP, OP_DEPTH, OP_DROP, OP_DUP, OP_NIP, OP_OVER
  | 0x73, top :: rest =>
    .ok (machine.withStack (if castToBool top then top :: top :: rest else top :: rest))
  | 0x74, stack => .ok (machine.withStack (serialize stack.length :: stack))
  | 0x75, _ :: rest => .ok (machine.withStack rest)
  | 0x76, top :: rest => .ok (machine.withStack (top :: top :: rest))
  | 0x77, b :: _ :: rest => .ok (machine.withStack (b :: rest))
  | 0x78, b :: a :: rest => .ok (machine.withStack (a :: b :: a :: rest))
  -- OP_PICK, OP_ROLL
  | 0x79, top :: under :: rest => do
    let n ← scriptNum flags.minimalData top
    if n < 0 ∨ (under :: rest).length ≤ n then invalid
    else .ok (machine.withStack ((under :: rest).getD n.toNat [] :: under :: rest))
  | 0x7a, top :: under :: rest => do
    let n ← scriptNum flags.minimalData top
    if n < 0 ∨ (under :: rest).length ≤ n then invalid
    else .ok (machine.withStack
      ((under :: rest).getD n.toNat [] :: (under :: rest).eraseIdx n.toNat))
  -- OP_ROT, OP_SWAP, OP_TUCK, OP_SIZE
  | 0x7b, c :: b :: a :: rest => .ok (machine.withStack (a :: c :: b :: rest))
  | 0x7c, b :: a :: rest => .ok (machine.withStack (a :: b :: rest))
  | 0x7d, b :: a :: rest => .ok (machine.withStack (b :: a :: b :: rest))
  | 0x82, top :: rest => .ok (machine.withStack (serialize top.length :: top :: rest))
  -- OP_EQUAL, OP_EQUALVERIFY
  | 0x87, b :: a :: rest => .ok (machine.withStack (boolBytes (a = b) :: rest))
  | 0x88, b :: a :: rest => pushOrVerify machine rest (a = b) true .equalVerify
  | _, _ => invalid

/-- The numeric opcodes with one operand. -/
def unaryNum (opcode : Nat) (a : Int) : Int :=
  match opcode with
  | 0x8b => a + 1
  | 0x8c => a - 1
  | 0x8f => -a
  | 0x90 => if a < 0 then -a else a
  | 0x91 => boolNum (a = 0)
  | _ => boolNum (a ≠ 0)

/-- The numeric opcodes with two operands. -/
def binaryNum (opcode : Nat) (a b : Int) : Int :=
  match opcode with
  | 0x93 => a + b
  | 0x94 => a - b
  | 0x9a => boolNum (a ≠ 0 ∧ b ≠ 0)
  | 0x9b => boolNum (a ≠ 0 ∨ b ≠ 0)
  | 0x9c => boolNum (a = b)
  | 0x9d => boolNum (a = b)
  | 0x9e => boolNum (a ≠ b)
  | 0x9f => boolNum (a < b)
  | 0xa0 => boolNum (b < a)
  | 0xa1 => boolNum (a ≤ b)
  | 0xa2 => boolNum (b ≤ a)
  | 0xa3 => min a b
  | _ => max a b

/-- The numeric opcodes. -/
def evalNumOp (opcode : Nat) (machine : Machine) : Except ScriptError Machine :=
  if opcode ≤ 0x92 then
    match machine.stack with
    | top :: rest => do
      let a ← scriptNum flags.minimalData top
      .ok (machine.withStack (serialize (unaryNum opcode a) :: rest))
    | _ => .error .invalidStackOperation
  else if opcode ≤ 0xa4 then
    match machine.stack with
    | top :: under :: rest => do
      let a ← scriptNum flags.minimalData under
      let b ← scriptNum flags.minimalData top
      let result := serialize (binaryNum opcode a b)
      if opcode = 0x9d then
        pushOrVerify machine rest (castToBool result) true .numEqualVerify
      else .ok (machine.withStack (result :: rest))
    | _ => .error .invalidStackOperation
  else
    match machine.stack with
    | high :: low :: value :: rest => do
      let a ← scriptNum flags.minimalData value
      let b ← scriptNum flags.minimalData low
      let c ← scriptNum flags.minimalData high
      .ok (machine.withStack (boolBytes (b ≤ a ∧ a < c) :: rest))
    | _ => .error .invalidStackOperation

/-- The hash opcodes. -/
def evalHashOp (opcode : Nat) (machine : Machine) : Except ScriptError Machine :=
  match machine.stack with
  | top :: rest =>
    let hashed := match opcode with
      | 0xa6 => hooks.ripemd160 top
      | 0xa7 => hooks.sha1 top
      | 0xa8 => hooks.sha256 top
      | 0xa9 => hooks.hash160 top
      | _ => hooks.hash256 top
    .ok (machine.withStack (hashed :: rest))
  | _ => .error .invalidStackOperation

/-- OP_CHECKSIG and OP_CHECKSIGVERIFY. -/
def evalCheckSig (isVerify : Bool) (machine : Machine) : Except ScriptError Machine :=
  match machine.stack with
  | pubKey :: sig :: rest => do
    let scriptCode := findAndDelete machine.codeHash (pushData sig)
    requireEncoding (hooks.checkSignatureEncoding sig flags)
    requireEncoding (hooks.checkPubKeyEncoding pubKey flags)
    let checked := hooks.checkSig sig pubKey scriptCode (¬ flags.skipSendPermissionCheck)
    pushOrVerify machine rest (checked.1 ∧ ¬ checked.2) isVerify .checkSigVerify
  | _ => .error .invalidStackOperation

/-- The loop over signatures and keys: whether all signatures found a key, and whether a key
cannot send at its end. -/
def matchSignatures (scriptCode : Bytes) :
    List Bytes → List Bytes → Bool → Except ScriptError (Bool × Bool)
  | [], _, cannotSend => .ok (true, cannotSend)
  | _ :: _, [], cannotSend => .ok (false, cannotSend)
  | sig :: sigs, pubKey :: pubKeys, cannotSend =>
    match requireEncoding (hooks.checkSignatureEncoding sig flags) with
    | .error err => .error err
    | .ok () =>
      match requireEncoding (hooks.checkPubKeyEncoding pubKey flags) with
      | .error err => .error err
      | .ok () =>
        let checked := hooks.checkSig sig pubKey scriptCode cannotSend
        let left := if checked.1 then sigs else sig :: sigs
        if pubKeys.length < left.length then .ok (false, checked.2)
        else if checked.1 then matchSignatures scriptCode sigs pubKeys checked.2
        else matchSignatures scriptCode (sig :: sigs) pubKeys checked.2

/-- OP_CHECKMULTISIG and OP_CHECKMULTISIGVERIFY. -/
def evalCheckMultisig (isVerify : Bool) (machine : Machine) : Except ScriptError Machine := do
  match machine.stack with
  | [] => .error .invalidStackOperation
  | keysTop :: belowKeys =>
    let nKeysCount ← scriptNum flags.minimalData keysTop
    if nKeysCount < 0 ∨ 20 < nKeysCount then .error .pubKeyCount
    else
      let nOpCount := machine.nOpCount + nKeysCount.toNat
      if 201 < nOpCount then .error .opCount
      else
        match belowKeys.drop nKeysCount.toNat with
        | [] => .error .invalidStackOperation
        | sigsTop :: belowSigs =>
          let nSigsCount ← scriptNum flags.minimalData sigsTop
          if nSigsCount < 0 ∨ nKeysCount < nSigsCount then .error .sigCount
          else if belowSigs.length ≤ nSigsCount.toNat then .error .invalidStackOperation
          else
            let pubKeys := belowKeys.take nKeysCount.toNat
            let sigs := belowSigs.take nSigsCount.toNat
            let scriptCode := sigs.foldl
              (fun code sig => findAndDelete code (pushData sig)) machine.codeHash
            let checked ← matchSignatures hooks flags scriptCode sigs pubKeys
              (¬ flags.skipSendPermissionCheck)
            match belowSigs.drop nSigsCount.toNat with
            | [] => .error .invalidStackOperation
            | dummy :: rest =>
              if flags.nullDummy ∧ dummy ≠ [] then .error .sigNullDummy
              else
                pushOrVerify { machine with nOpCount } rest (checked.1 ∧ ¬ checked.2) isVerify
                  .checkMultisigVerify

/-- An opcode outside of the conditionals and pushes that is executed. -/
def evalOp (opcode : Nat) (rest : Bytes) (machine : Machine) : Except ScriptError Machine :=
  if opcode = op1Negate ∨ (op1 ≤ opcode ∧ opcode ≤ op16) then
    .ok (machine.withStack (serialize ((opcode : Int) - (op1 - 1)) :: machine.stack))
  else if opcode = 0x61 then .ok machine
  else if 0xb0 ≤ opcode ∧ opcode ≤ 0xb9 then
    if flags.discourageUpgradableNops then .error .discourageUpgradableNops else .ok machine
  else if opcode = 0x69 then
    match machine.stack with
    | top :: stack => if castToBool top then .ok (machine.withStack stack) else .error .verify
    | _ => .error .invalidStackOperation
  else if opcode = opReturn then .error .opReturn
  else if (0x6b ≤ opcode ∧ opcode ≤ 0x7d) ∨ opcode = 0x82 ∨ opcode = 0x87 ∨ opcode = 0x88 then
    evalStackOp flags opcode machine
  else if (0x8b ≤ opcode ∧ opcode ≤ 0x94) ∨ (0x9a ≤ opcode ∧ opcode ≤ 0xa5) then
    evalNumOp flags opcode machine
  else if 0xa6 ≤ opcode ∧ opcode ≤ 0xaa then evalHashOp hooks opcode machine
  else if opcode = 0xab then .ok { machine with codeHash := rest }
  else if opcode = 0xac ∨ opcode = 0xad then
    evalCheckSig hooks flags (opcode = 0xad) machine
  else if opcode = 0xae ∨ opcode = 0xaf then
    evalCheckMultisig hooks flags (opcode = 0xaf) machine
  else .error .badOpcode

end Executed

section Rounds

variable (hooks : ScriptHooks) (flags : ScriptFlags)

/-- The variables of the loop in `EvalScript`: the machine and the open conditionals, the
innermost one first. -/
structure EvalState where
  machine : Machine
  vfExec : List Bool
  deriving DecidableEq, Repr

/-- `fExec`: no open conditional is false. -/
def EvalState.fExec (st : EvalState) : Bool := st.vfExec.all id

/-- An opcode from OP_IF to OP_ENDIF, executed or not. -/
def evalConditional (opcode : Nat) (st : EvalState) : Except ScriptError EvalState :=
  if opcode = opIf ∨ opcode = opNotIf then
    if st.fExec then
      match st.machine.stack with
      | [] => .error .unbalancedConditional
      | top :: rest =>
        let fValue := if opcode = opNotIf then ! castToBool top else castToBool top
        .ok ⟨st.machine.withStack rest, fValue :: st.vfExec⟩
    else .ok ⟨st.machine, false :: st.vfExec⟩
  else if opcode = opElse then
    match st.vfExec with
    | [] => .error .unbalancedConditional
    | innermost :: others => .ok ⟨st.machine, (! innermost) :: others⟩
  else if opcode = opEndIf then
    match st.vfExec with
    | [] => .error .unbalancedConditional
    | _ :: others => .ok ⟨st.machine, others⟩
  else .error .badOpcode

/-- The switch over an opcode that is read. -/
def evalSwitch (opcode : Nat) (data rest : Bytes) (st : EvalState) :
    Except ScriptError EvalState :=
  if st.fExec ∧ opcode ≤ mcDctScriptOpPushData4 then
    if flags.minimalData ∧ ¬ checkMinimalPush data opcode then .error .minimalData
    else .ok ⟨st.machine.withStack (data :: st.machine.stack), st.vfExec⟩
  else if opIf ≤ opcode ∧ opcode ≤ opEndIf then evalConditional opcode st
  else if st.fExec then
    (evalOp hooks flags opcode rest st.machine).map fun machine => ⟨machine, st.vfExec⟩
  else .ok st

/-- The count of the opcodes that push nothing. -/
def EvalState.count (opcode : Nat) (st : EvalState) : EvalState :=
  if op16 < opcode then
    { st with machine := { st.machine with nOpCount := st.machine.nOpCount + 1 } }
  else st

/-- The check of the sizes behind the switch. -/
def checkSizes (st : EvalState) : Except ScriptError EvalState :=
  if 1000 < st.machine.stack.length + st.machine.altstack.length then .error .stackSize
  else .ok st

/-- A round of the loop in `EvalScript`. -/
def evalRound (instruction : Instruction) (st : EvalState) : Except ScriptError EvalState :=
  match instruction with
  | .unreadable => .error .badOpcode
  | .op opcode data rest =>
    if op16 < opcode.toNat ∧ 201 < (st.count opcode.toNat).machine.nOpCount then .error .opCount
    else if opcode.toNat ∈ disabledOpcodes then .error .disabledOpcode
    else
      (evalSwitch hooks flags opcode.toNat data rest (st.count opcode.toNat)).bind checkSizes

/-- The loop in `EvalScript`. -/
def evalInstructions : List Instruction → EvalState → Except ScriptError EvalState
  | [], st => .ok st
  | instruction :: instructions, st =>
    match evalRound hooks flags instruction st with
    | .error err => .error err
    | .ok st => evalInstructions instructions st

/-- `EvalScript`: the stack that is left, or an error. -/
def evalScript (stack : List Bytes) (script : Bytes) : Except ScriptError (List Bytes) :=
  if 10000 < script.length then .error .scriptSize
  else
    match evalInstructions hooks flags (instructions script) ⟨⟨stack, [], 0, script⟩, []⟩ with
    | .error err => .error err
    | .ok st => if st.vfExec = [] then .ok st.machine.stack else .error .unbalancedConditional

end Rounds

end ScriptInterpreter

end HdacNode
