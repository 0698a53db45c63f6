import HdacNode.ScriptInterpreter
import HdacNode.ScannerProgress

/-!
# Scripts that count as unspendable

`CScript::IsUnspendable` looks for an OP_RETURN among the opcodes of a script, also in a branch
that need not be executed.  The conditionals of a script decide whether the interpreter can get
past its OP_RETURNs.
-/

namespace HdacNode

namespace ScriptInterpreter

/-- `CScript::IsUnspendable`. -/
def IsUnspendable (script : Bytes) : Prop :=
  ∃ fuel found, ScriptScanners.parseOpDropOpReturnScript script [(0, 0), (0, 0)] 2 fuel =
    some (.ok (some found))

/-- A script that counts as unspendable fails from every stack, under all flags and for all
checkers of signatures. -/
def UnspendableFails (script : Bytes) : Prop :=
  IsUnspendable script → ∀ hooks flags stack, ∃ err,
    evalScript hooks flags stack script = .error err

section ControlFlow

/-- What an opcode means to the control flow. -/
inductive Flow where
  | branch
  | otherwise
  | endIf
  | stops
  | stopsExecuted
  | goesOn
  deriving DecidableEq, Repr

/-- The opcodes on which an execution stops: OP_RETURN and those without a meaning. -/
def stopsExecuted (opcode : Nat) : Bool :=
  opcode = opReserved ∨ opcode = 0x62 ∨ opcode = opReturn ∨ opcode = 0x89 ∨ opcode = 0x8a ∨
    0xba ≤ opcode

/-- The control flow of an opcode. -/
def flowOf (opcode : Nat) : Flow :=
  if opcode ∈ disabledOpcodes ∨ opcode = 0x65 ∨ opcode = 0x66 then .stops
  else if opcode = opIf ∨ opcode = opNotIf then .branch
  else if opcode = opElse then .otherwise
  else if opcode = opEndIf then .endIf
  else if stopsExecuted opcode then .stopsExecuted
  else .goesOn

/-- Whether there is a way through the conditionals to the end of a script, whatever the
conditions are, given the conditionals that are open. -/
def canPass : List Instruction → List Bool → Bool
  | [], vfExec => vfExec = []
  | .unreadable :: _, _ => false
  | .op opcode _ _ :: instructions, vfExec =>
    match flowOf opcode.toNat with
    | .stops => false
    | .branch =>
      canPass instructions (false :: vfExec) ||
        (vfExec.all id && canPass instructions (true :: vfExec))
    | .otherwise =>
      match vfExec with
      | [] => false
      | innermost :: others => canPass instructions ((! innermost) :: others)
    | .endIf =>
      match vfExec with
      | [] => false
      | _ :: others => canPass instructions others
    | .stopsExecuted => ! vfExec.all id && canPass instructions vfExec
    | .goesOn => canPass instructions vfExec

/-- A script that the interpreter cannot get through: it is too long, or every way through its
conditionals ends early. -/
def Blocked (script : Bytes) : Prop :=
  10000 < script.length ∨ canPass (instructions script) [] = false

end ControlFlow

section Simulation

variable {hooks : ScriptHooks} {flags : ScriptFlags}

/-- What a round leaves of the open conditionals. -/
def FlowStep (opcode : Nat) (before after : List Bool) : Prop :=
  match flowOf opcode with
  | .stops => False
  | .branch => ∃ value, (value = true → before.all id = true) ∧ after = value :: before
  | .otherwise => ∃ innermost others,
      before = innermost :: others ∧ after = (! innermost) :: others
  | .endIf => ∃ innermost, before = innermost :: after
  | .stopsExecuted => before.all id = false ∧ after = before
  | .goesOn => after = before

theorem stopsExecuted_iff {opcode : Nat} :
    stopsExecuted opcode = true ↔ opcode = 0x50 ∨ opcode = 0x62 ∨ opcode = 0x6a ∨
      opcode = 0x89 ∨ opcode = 0x8a ∨ 0xba ≤ opcode := by
  rw [stopsExecuted]
  exact decide_eq_true_iff

theorem count_vfExec (opcode : Nat) (st : EvalState) :
    (st.count opcode).vfExec = st.vfExec := by
  rw [EvalState.count]
  split <;> rfl

theorem evalOp_stops {opcode : Nat} (stops : stopsExecuted opcode = true) (rest : Bytes)
    (machine : Machine) : ∃ err, evalOp hooks flags opcode rest machine = .error err := by
  rw [stopsExecuted_iff] at stops
  by_cases isReturn : opcode = opReturn
  · rw [isReturn]
    exact ⟨.opReturn, rfl⟩
  · have noReturn : ¬ opcode = 0x6a := isReturn
    have noNumber : ¬ (opcode = op1Negate ∨ (op1 ≤ opcode ∧ opcode ≤ op16)) := by
      simp only [op1Negate, op1, op16]
      omega
    have noNop : ¬ opcode = 0x61 ∧ ¬ (0xb0 ≤ opcode ∧ opcode ≤ 0xb9) := by omega
    have noVerify : ¬ opcode = 0x69 := by omega
    have noStackOp : ¬ ((0x6b ≤ opcode ∧ opcode ≤ 0x7d) ∨ opcode = 0x82 ∨ opcode = 0x87 ∨
        opcode = 0x88) := by omega
    have noNumOp : ¬ ((0x8b ≤ opcode ∧ opcode ≤ 0x94) ∨ (0x9a ≤ opcode ∧ opcode ≤ 0xa5)) := by
      omega
    have noHashOp : ¬ (0xa6 ≤ opcode ∧ opcode ≤ 0xaa) ∧ ¬ opcode = 0xab := by omega
    have noCheck : ¬ (opcode = 0xac ∨ opcode = 0xad) ∧ ¬ (opcode = 0xae ∨ opcode = 0xaf) := by
      omega
    refine ⟨.badOpcode, ?_⟩
    rw [evalOp, if_neg noNumber, if_neg noNop.1, if_neg noNop.2, if_neg noVerify,
      if_neg isReturn, if_neg noStackOp, if_neg noNumOp, if_neg noHashOp.1, if_neg noHashOp.2,
      if_neg noCheck.1, if_neg noCheck.2]

theorem flowStep_conditional {opcode : Nat} {st after : EvalState}
    (evaluated : evalConditional opcode st = .ok after)
    (enabled : opcode ∉ disabledOpcodes) : FlowStep opcode st.vfExec after.vfExec := by
  rw [evalConditional] at evaluated
  by_cases isIf : opcode = opIf ∨ opcode = opNotIf
  · have flow : flowOf opcode = .branch := by
      rcases isIf with rfl | rfl <;> rfl
    rw [if_pos isIf] at evaluated
    rw [FlowStep, flow]
    by_cases exec : st.fExec = true
    · rw [if_pos exec] at evaluated
      cases stack : st.machine.stack with
      | nil =>
        rw [stack] at evaluated
        cases evaluated
      | cons top rest =>
        rw [stack] at evaluated
        cases evaluated
        exact ⟨_, fun _ => exec, rfl⟩
    · rw [if_neg exec] at evaluated
      cases evaluated
      exact ⟨false, fun wrong => absurd wrong (by decide), rfl⟩
  · rw [if_neg isIf] at evaluated
    by_cases isElse : opcode = opElse
    · rw [if_pos isElse] at evaluated
      rw [FlowStep, isElse]
      split at evaluated
      · cases evaluated
      · rename_i innermost others open_
        cases evaluated
        exact ⟨innermost, others, open_, rfl⟩
    · rw [if_neg isElse] at evaluated
      by_cases isEndIf : opcode = opEndIf
      · rw [if_pos isEndIf] at evaluated
        rw [FlowStep, isEndIf]
        split at evaluated
        · cases evaluated
        · rename_i innermost others open_
          cases evaluated
          exact ⟨innermost, open_⟩
      · rw [if_neg isEndIf] at evaluated
        cases evaluated

theorem flowOf_ordinary {opcode : Nat} (enabled : opcode ∉ disabledOpcodes)
    (ordinary : ¬ (opIf ≤ opcode ∧ opcode ≤ opEndIf)) :
    flowOf opcode = if stopsExecuted opcode then .stopsExecuted else .goesOn := by
  simp only [opIf, opEndIf] at ordinary
  have noBranch : ¬ (opcode = opIf ∨ opcode = opNotIf) := by
    simp only [opIf, opNotIf]
    omega
  have noElse : ¬ opcode = opElse := by
    simp only [opElse]
    omega
  have noEnd : ¬ opcode = opEndIf := by
    simp only [opEndIf]
    omega
  rw [flowOf, if_neg (by rintro (disabled | rfl | rfl) <;> [exact enabled disabled; omega; omega]),
    if_neg noBranch, if_neg noElse, if_neg noEnd]

theorem flowStep_switch {opcode : Nat} {data rest : Bytes} {st after : EvalState}
    (evaluated : evalSwitch hooks flags opcode data rest st = .ok after)
    (enabled : opcode ∉ disabledOpcodes) : FlowStep opcode st.vfExec after.vfExec := by
  rw [evalSwitch] at evaluated
  by_cases isPush : st.fExec = true ∧ opcode ≤ mcDctScriptOpPushData4
  · have small : opcode ≤ 0x4e := isPush.2
    have flow : flowOf opcode = .goesOn := by
      rw [flowOf_ordinary enabled (by simp only [opIf]; omega), if_neg]
      rw [stopsExecuted_iff]
      omega
    rw [if_pos isPush] at evaluated
    rw [FlowStep, flow]
    split_ifs at evaluated
    cases evaluated
    rfl
  · rw [if_neg isPush] at evaluated
    by_cases conditional : opIf ≤ opcode ∧ opcode ≤ opEndIf
    · rw [if_pos conditional] at evaluated
      exact flowStep_conditional evaluated enabled
    · rw [if_neg conditional] at evaluated
      rw [FlowStep, flowOf_ordinary enabled conditional]
      split_ifs at evaluated with exec
      · cases stops : stopsExecuted opcode with
        | true =>
          obtain ⟨err, failed⟩ := @evalOp_stops hooks flags _ stops rest
            st.machine
          rw [failed] at evaluated
          cases evaluated
        | false =>
          cases result : evalOp hooks flags opcode rest st.machine with
          | error err =>
            rw [result] at evaluated
            cases evaluated
          | ok machine =>
            rw [result] at evaluated
            cases evaluated
            rfl
      · cases evaluated
        cases stopsExecuted opcode with
        | true => exact ⟨by simpa [EvalState.fExec] using exec, rfl⟩
        | false => rfl

theorem flowStep_round {opcode : UInt8} {data rest : Bytes} {st after : EvalState}
    (evaluated : evalRound hooks flags (.op opcode data rest) st = .ok after) :
    FlowStep opcode.toNat st.vfExec after.vfExec := by
  rw [evalRound] at evaluated
  split_ifs at evaluated with tooMany disabled
  cases switched : evalSwitch hooks flags opcode.toNat data rest (st.count opcode.toNat) with
  | error err =>
    rw [switched] at evaluated
    cases evaluated
  | ok result =>
    rw [switched, Except.bind, checkSizes] at evaluated
    split_ifs at evaluated
    cases evaluated
    have step := flowStep_switch switched disabled
    rw [count_vfExec] at step
    exact step

/-- An execution that comes to the end of the script and closes all conditionals is a way
through them. -/
theorem canPass_of_evaluated {instructions : List Instruction} {st after : EvalState}
    (evaluated : evalInstructions hooks flags instructions st = .ok after)
    (closed : after.vfExec = []) : canPass instructions st.vfExec = true := by
  induction instructions generalizing st with
  | nil =>
    cases evaluated
    simpa [canPass] using closed
  | cons instruction instructions ih =>
    rw [evalInstructions] at evaluated
    cases round : evalRound hooks flags instruction st with
    | error err =>
      rw [round] at evaluated
      cases evaluated
    | ok middle =>
      rw [round] at evaluated
      have passed := ih evaluated
      cases instruction with
      | unreadable => cases round
      | op opcode data rest =>
        have step := flowStep_round round
        rw [FlowStep] at step
        unfold canPass
        cases flow : flowOf opcode.toNat with
        | stops =>
          rw [flow] at step
          exact absurd step id
        | branch =>
          rw [flow] at step
          obtain ⟨value, executed, same⟩ := step
          rw [same] at passed
          cases value with
          | true => simp [passed, executed rfl]
          | false => simp [passed]
        | otherwise =>
          rw [flow] at step
          obtain ⟨innermost, others, before, same⟩ := step
          rw [same] at passed
          rw [before]
          exact passed
        | endIf =>
          rw [flow] at step
          obtain ⟨innermost, before⟩ := step
          rw [before]
          exact passed
        | stopsExecuted =>
          rw [flow] at step
          obtain ⟨skipped, same⟩ := step
          rw [same] at passed
          simp [passed, skipped]
        | goesOn =>
          rw [flow] at step
          rw [step] at passed
          exact passed

theorem evalScript_fails_of_blocked {script : Bytes} (blocked : Blocked script)
    (stack : List Bytes) : ∃ err, evalScript hooks flags stack script = .error err := by
  rw [evalScript]
  rcases blocked with long | noWay
  · exact ⟨_, if_pos long⟩
  · split_ifs
    · exact ⟨_, rfl⟩
    · cases evaluated : evalInstructions hooks flags (instructions script)
          ⟨⟨stack, [], 0, script⟩, []⟩ with
      | error err => exact ⟨err, rfl⟩
      | ok after =>
        by_cases closed : after.vfExec = []
        · have passed := canPass_of_evaluated evaluated closed
          rw [noWay] at passed
          cases passed
        · exact ⟨.unbalancedConditional, if_neg closed⟩

end Simulation

end ScriptInterpreter

end HdacNode
