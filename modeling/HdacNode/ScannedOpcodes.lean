import HdacNode.UnspendableScripts

/-!
# What the scanner and the interpreter read

The scanner of OP_RETURNs steps from opcode to opcode as the interpreter does, as long as the
interpreter can read the script.  The OP_RETURN that it finds is one of the script's opcodes.
-/

namespace HdacNode

open AdvancingLoop

namespace ScriptInterpreter

section Reading

/-- What is behind an opcode is shorter. -/
theorem getOp_shorter {script data rest : Bytes} {opcode : UInt8}
    (read : getOp script = some (opcode, data, rest)) : rest.length < script.length := by
  cases script with
  | nil => cases read
  | cons first others =>
    simp only [getOp] at read
    split_ifs at read
    all_goals
      obtain ⟨_, _, rfl⟩ := Prod.mk.injEq .. ▸ Option.some.inj read
      simp only [List.length_drop, List.length_cons]
      omega

theorem instructionsWithin_eq {bound : Nat} {script : Bytes} (enough : script.length ≤ bound) :
    instructionsWithin bound script = instructions script := by
  have same (first second : Nat) (script : Bytes) (enoughFirst : script.length ≤ first)
      (enoughSecond : script.length ≤ second) :
      instructionsWithin first script = instructionsWithin second script := by
    induction first generalizing second script with
    | zero =>
      have empty : script = [] := List.eq_nil_of_length_eq_zero (by omega)
      rw [empty]
      cases second <;> rfl
    | succ first ih =>
      cases second with
      | zero =>
        have empty : script = [] := List.eq_nil_of_length_eq_zero (by omega)
        rw [empty]
        rfl
      | succ second =>
        rw [instructionsWithin, instructionsWithin]
        cases read : getOp script with
        | none => rfl
        | some found =>
          obtain ⟨opcode, data, rest⟩ := found
          have shorter := getOp_shorter read
          dsimp only
          rw [ih second rest (by omega) (by omega)]
  exact same _ _ _ enough (Nat.le_refl _)

/-- The opcodes of a script are its first one and those behind it. -/
theorem instructions_of_getOp {script data rest : Bytes} {opcode : UInt8}
    (read : getOp script = some (opcode, data, rest)) :
    instructions script = .op opcode data rest :: instructions rest := by
  have shorter := getOp_shorter read
  have notEmpty : script ≠ [] := by
    rintro rfl
    cases read
  obtain ⟨bound, length⟩ : ∃ bound, script.length = bound + 1 := ⟨script.length - 1, by omega⟩
  rw [instructions, length, instructionsWithin, if_neg notEmpty, read]
  dsimp only
  rw [instructionsWithin_eq (by omega)]

theorem instructions_of_unreadable {script : Bytes} (notEmpty : script ≠ [])
    (unreadable : getOp script = none) : instructions script = [.unreadable] := by
  obtain ⟨bound, length⟩ : ∃ bound, script.length = bound + 1 := by
    cases script with
    | nil => exact absurd rfl notEmpty
    | cons first others => exact ⟨_, rfl⟩
  rw [instructions, length, instructionsWithin, if_neg notEmpty, unreadable]

end Reading

section Scanning

variable {script : Bytes}

/-- The size of the data behind an opcode at a place. -/
def pushSize (script : Bytes) (opcode : Nat) (ptr : Nat) : Nat :=
  if opcode < mcDctScriptOpPushData1 then opcode
  else getLE ((script.drop (ptr + 1)).take (lengthBytes opcode))

theorem getOp_at {ptr : Nat} (notDone : ptr < script.length) {opcode : UInt8}
    {data rest : Bytes} (read : getOp (script.drop ptr) = some (opcode, data, rest)) :
    byteAt script ptr = some opcode ∧
      ptr + 1 + lengthBytes opcode.toNat + pushSize script opcode.toNat ptr ≤ script.length ∧
      rest =
        script.drop (ptr + 1 + lengthBytes opcode.toNat + pushSize script opcode.toNat ptr) := by
  rw [List.drop_eq_getElem_cons notDone] at read
  change (if (script.drop (ptr + 1)).length < lengthBytes script[ptr].toNat then none
    else if ((script.drop (ptr + 1)).length - lengthBytes script[ptr].toNat) % 2 ^ 32 <
      pushSize script script[ptr].toNat ptr then none else some _) = _ at read
  split at read
  · cases read
  · rename_i hasHeader
    split at read
    · cases read
    · rename_i hasData
      rw [List.length_drop] at hasHeader hasData
      have counted := Nat.mod_le (script.length - (ptr + 1) - lengthBytes script[ptr].toNat)
        (2 ^ 32)
      simp only [Option.some.injEq, Prod.mk.injEq] at read
      obtain ⟨sameOpcode, _, sameRest⟩ := read
      have byte : byteAt script ptr = some script[ptr] := by
        rw [byteAt, if_neg (by omega), Int.toNat_natCast, List.getElem?_eq_getElem notDone]
      rw [← sameOpcode]
      refine ⟨byte, by omega, ?_⟩
      rw [← sameRest, List.drop_drop, ← Nat.add_assoc]
      rfl

/-- The scanner reads the length of a push whose data is in the script as the interpreter
does. -/
theorem readPush_of_inside {ptr : Nat} {opcode : Nat}
    (isPush : opcode ≤ mcDctScriptOpPushData4) (small : pushSize script opcode ptr < 2 ^ 31)
    (inside : ptr + 1 + lengthBytes opcode + pushSize script opcode ptr ≤ script.length) :
    ScriptParser.readPush script opcode (ptr + 1) =
      .ok ((pushSize script opcode ptr : Int), ((ptr + 1 + lengthBytes opcode : Nat) : Int)) := by
  have read : ScriptParser.readLength script opcode (ptr + 1) =
      .ok ((pushSize script opcode ptr : Int), ((ptr + 1 + lengthBytes opcode : Nat) : Int)) := by
    by_cases direct : opcode < mcDctScriptOpPushData1
    · have noHeader : lengthBytes opcode = 0 := by
        simp only [mcDctScriptOpPushData1] at direct
        have other : ¬ opcode = mcDctScriptOpPushData1 ∧ ¬ opcode = mcDctScriptOpPushData2 ∧
            ¬ opcode = mcDctScriptOpPushData4 := by
          simp only [mcDctScriptOpPushData1, mcDctScriptOpPushData2, mcDctScriptOpPushData4]
          omega
        rw [lengthBytes, if_neg other.1, if_neg other.2.1, if_neg other.2.2]
      rw [ScriptParser.readLength, if_pos direct, pushSize, if_pos direct, noHeader]
      rfl
    · have byLength : ScriptParser.readLength script opcode (ptr + 1) =
          ScriptParser.readLengthBytes script (ptr + 1) (lengthBytes opcode) := by
        have kinds : opcode = mcDctScriptOpPushData1 ∨ opcode = mcDctScriptOpPushData2 ∨
            opcode = mcDctScriptOpPushData4 := by
          simp only [mcDctScriptOpPushData1, mcDctScriptOpPushData2, mcDctScriptOpPushData4]
            at direct isPush ⊢
          omega
        rcases kinds with rfl | rfl | rfl <;> rfl
      have sameSize : pushSize script opcode ptr =
          getLE ((script.drop (ptr + 1)).take (lengthBytes opcode)) := if_neg direct
      have place : ((ptr : Int) + 1).toNat = ptr + 1 := by omega
      rw [byLength, ScriptParser.readLengthBytes, if_neg (by omega), place, ← sameSize,
        ScriptParser.toInt32_of_lt (by omega)]
      rfl
  rw [ScriptParser.readPush, if_pos isPush, read]
  exact if_neg (by omega)

theorem getOp_scanned (short : script.length ≤ 10000) {ptr : Nat} (notDone : ptr < script.length)
    {opcode : UInt8} {data rest : Bytes}
    (read : getOp (script.drop ptr) = some (opcode, data, rest)) :
    byteAt script ptr = some opcode ∧ ∃ next : Nat, rest = script.drop next ∧ ptr < next ∧
      next ≤ script.length ∧
      ((ScriptScanners.getPushDataElement script ptr = .error .wrongScript ∧ next = ptr + 1) ∨
        ∃ offset size, ScriptScanners.getPushDataElement script ptr = .ok (offset, size) ∧
          offset + size = next) := by
  obtain ⟨byte, inside, sameRest⟩ := getOp_at notDone read
  refine ⟨byte, _, sameRest, by omega, inside, ?_⟩
  rw [ScriptScanners.getPushDataElement, if_neg (by omega), byte]
  dsimp only
  have noSize (behind : mcDctScriptOpPushData4 < opcode.toNat) :
      lengthBytes opcode.toNat = 0 ∧ pushSize script opcode.toNat ptr = 0 := by
    simp only [mcDctScriptOpPushData4] at behind
    have noHeader : lengthBytes opcode.toNat = 0 := by
      have other : ¬ opcode.toNat = mcDctScriptOpPushData1 ∧
          ¬ opcode.toNat = mcDctScriptOpPushData2 ∧ ¬ opcode.toNat = mcDctScriptOpPushData4 := by
        simp only [mcDctScriptOpPushData1, mcDctScriptOpPushData2, mcDctScriptOpPushData4]
        omega
      rw [lengthBytes, if_neg other.1, if_neg other.2.1, if_neg other.2.2]
    refine ⟨noHeader, ?_⟩
    rw [pushSize, noHeader, if_neg (by simp only [mcDctScriptOpPushData1]; omega)]
    rfl
  by_cases large : mcDctScriptOp16 < opcode.toNat
  · obtain ⟨noHeader, noData⟩ := noSize (lt_of_le_of_lt (by decide) large)
    refine .inl ⟨if_pos large, ?_⟩
    omega
  · rw [if_neg large]
    refine .inr ⟨(ptr + 1 + lengthBytes opcode.toNat : Nat), pushSize script opcode.toNat ptr,
      ?_, by omega⟩
    have read : ScriptParser.readPush script opcode.toNat (ptr + 1) =
        .ok ((pushSize script opcode.toNat ptr : Int),
          ((ptr + 1 + lengthBytes opcode.toNat : Nat) : Int)) := by
      by_cases isPush : opcode.toNat ≤ mcDctScriptOpPushData4
      · exact readPush_of_inside isPush (by omega) inside
      · obtain ⟨noHeader, noData⟩ := noSize (Nat.lt_of_not_le isPush)
        rw [ScriptParser.readPush, if_neg isPush, noHeader, noData]
        rfl
    rw [read]
    rfl

/-- The opcodes from a place on are the last ones of the script. -/
def Aligned (script : Bytes) (ptr : Int) : Prop :=
  ∃ place : Nat, ptr = place ∧ place ≤ script.length ∧
    ∃ read, instructions script = read ++ instructions (script.drop place)

theorem aligned_start (script : Bytes) : Aligned script 0 :=
  ⟨0, rfl, Nat.zero_le _, [], rfl⟩

/-- At a place between two opcodes of a script that can be read, the interpreter and the
scanner go on to the same place. -/
theorem aligned_step (short : script.length ≤ 10000)
    (readable : .unreadable ∉ instructions script) {ptr : Int} (aligned : Aligned script ptr)
    (notDone : ptr < script.length) :
    ∃ opcode data rest next, byteAt script ptr = some opcode ∧
      .op opcode data rest ∈ instructions script ∧ Aligned script next ∧
      ((ScriptScanners.getPushDataElement script ptr = .error .wrongScript ∧ next = ptr + 1) ∨
        ∃ offset size, ScriptScanners.getPushDataElement script ptr = .ok (offset, size) ∧
          offset + size = next) := by
  obtain ⟨place, rfl, _, read, behind⟩ := aligned
  have inside : place < script.length := by omega
  have notEmpty : script.drop place ≠ [] := by
    intro empty
    rw [List.drop_eq_nil_iff] at empty
    omega
  cases found : getOp (script.drop place) with
  | none =>
    rw [instructions_of_unreadable notEmpty found] at behind
    exact absurd (by rw [behind]; simp) readable
  | some parts =>
    obtain ⟨opcode, data, rest⟩ := parts
    obtain ⟨byte, next, sameRest, _, nextInside, scanned⟩ := getOp_scanned short inside found
    rw [instructions_of_getOp found] at behind
    refine ⟨opcode, data, rest, next, byte, by rw [behind]; simp, ?_, ?_⟩
    · refine ⟨next, rfl, nextInside, read ++ [.op opcode data rest], ?_⟩
      rw [behind, ← sameRest, List.append_assoc]
      rfl
    · rcases scanned with ⟨failed, same⟩ | ok
      · exact .inl ⟨failed, by omega⟩
      · exact .inr ok

/-- What the scanner of pushes gives at a place between two opcodes is such a place. -/
theorem aligned_of_scanned (short : script.length ≤ 10000)
    (readable : .unreadable ∉ instructions script) {ptr offset size : Int}
    (aligned : Aligned script ptr) (notDone : ptr < script.length)
    (scanned : ScriptScanners.getPushDataElement script ptr = .ok (offset, size)) :
    Aligned script (offset + size) := by
  obtain ⟨_, _, _, next, _, _, behind, failed | ⟨offset', size', found, sum⟩⟩ :=
    aligned_step short readable aligned notDone
  · rw [scanned] at failed
    cases failed.1
  · rw [scanned] at found
    cases found
    rw [sum]
    exact behind

/-- The place behind an opcode that is not recognised is one between two opcodes. -/
theorem aligned_of_failed (short : script.length ≤ 10000)
    (readable : .unreadable ∉ instructions script) {ptr : Int}
    (aligned : Aligned script ptr) (notDone : ptr < script.length)
    (failed : ScriptScanners.getPushDataElement script ptr = .error .wrongScript) :
    Aligned script (ptr + 1) := by
  obtain ⟨_, _, _, next, _, _, behind, ⟨_, same⟩ | ⟨offset, size, found, _⟩⟩ :=
    aligned_step short readable aligned notDone
  · rw [← same]
    exact behind
  · rw [failed] at found
    cases found

theorem aligned_dropStep (short : script.length ≤ 10000)
    (readable : .unreadable ∉ instructions script) {count : Nat}
    {st next : ScriptScanners.DropState} (aligned : Aligned script st.ptr)
    (stepped : ScriptScanners.dropStep script count st = .next next) :
    Aligned script next.ptr := by
  rw [ScriptScanners.dropStep] at stepped
  split at stepped
  · rename_i inside
    split at stepped
    · cases stepped
    · split at stepped
      · cases stepped
      · dsimp only at stepped
        cases scanned : ScriptScanners.getPushDataElement script st.ptr with
        | error err =>
          rw [scanned] at stepped
          cases err with
          | fault => cases stepped
          | wrongScript =>
            cases stepped
            exact aligned_of_failed short readable aligned inside.2 scanned
        | ok found =>
          obtain ⟨offset, size⟩ := found
          have behind := aligned_of_scanned short readable aligned inside.2 scanned
          rw [scanned] at stepped
          dsimp only at stepped
          split at stepped
          · rename_i notDone
            split at stepped
            · cases stepped
            · rename_i opcode atByte
              split at stepped
              · rename_i isDrop
                cases stepped
                refine aligned_of_failed short readable behind notDone ?_
                rw [ScriptScanners.getPushDataElement, if_neg (by omega), atByte]
                refine if_pos ?_
                rw [isDrop]
                decide
              · cases stepped
                exact behind
          · cases stepped
            exact behind
  · cases stepped

theorem aligned_returnStep (short : script.length ≤ 10000)
    (readable : .unreadable ∉ instructions script) {ptr next : Int}
    (aligned : Aligned script ptr)
    (stepped : ScriptScanners.returnStep script ptr = .next next) : Aligned script next := by
  rw [ScriptScanners.returnStep] at stepped
  split at stepped
  · rename_i notDone
    split at stepped
    · cases stepped
    · split at stepped
      · cases stepped
      · cases scanned : ScriptScanners.getPushDataElement script ptr with
        | error err =>
          rw [scanned] at stepped
          cases err with
          | fault => cases stepped
          | wrongScript =>
            cases stepped
            exact aligned_of_failed short readable aligned notDone scanned
        | ok found =>
          obtain ⟨offset, size⟩ := found
          rw [scanned] at stepped
          cases stepped
          exact aligned_of_scanned short readable aligned notDone scanned
  · cases stepped

theorem dropStep_stop {count : Nat} {st found : ScriptScanners.DropState}
    (stops : ScriptScanners.dropStep script count st = .stop (.ok found)) : found = st := by
  rw [ScriptScanners.dropStep] at stops
  split at stops
  · split at stops
    · cases stops
    · split at stops
      · cases stops
        rfl
      · dsimp only at stops
        split at stops
        · cases stops
        · cases stops
        · split at stops
          · split at stops
            · cases stops
            · split at stops <;> cases stops
          · cases stops
  · cases stops
    rfl

theorem returnStep_stop {ptr found : Int}
    (stops : ScriptScanners.returnStep script ptr = .stop (.ok found)) :
    found = ptr ∧ (ptr < script.length →
      ∃ opcode, byteAt script ptr = some opcode ∧ opcode.toNat = mcDctScriptOpReturn) := by
  rw [ScriptScanners.returnStep] at stops
  split at stops
  · split at stops
    · cases stops
    · rename_i opcode atByte
      split at stops
      · rename_i isReturn
        cases stops
        exact ⟨rfl, fun _ => ⟨opcode, atByte, isReturn⟩⟩
      · split at stops <;> cases stops
  · rename_i done
    cases stops
    exact ⟨rfl, fun notDone => absurd notDone done⟩

/-- A script that counts as unspendable has an OP_RETURN among its opcodes, unless it is too
long or has an opcode that cannot be read. -/
theorem exists_opReturn_of_isUnspendable (unspendable : IsUnspendable script)
    (short : script.length ≤ 10000) (readable : .unreadable ∉ instructions script) :
    ∃ data rest, .op 0x6a data rest ∈ instructions script := by
  obtain ⟨fuel, found, parsed⟩ := unspendable
  rw [ScriptScanners.parseOpDropOpReturnScript] at parsed
  split at parsed
  · cases parsed
  · cases parsed
  · rename_i st dropped
    obtain ⟨lastDrop, dropReached, dropStops⟩ := exists_stop_of_iterate dropped
    obtain rfl := dropStep_stop dropStops
    have dropAligned : Aligned script st.ptr := by
      refine Reached.induction (motive := fun st => Aligned script st.ptr) dropReached
        (aligned_start script) ?_
      intro state next _ aligned stepped
      exact aligned_dropStep short readable aligned stepped
    obtain ⟨result, searched, ok⟩ := Option.map_eq_some_iff.mp parsed
    cases result with
    | error err => cases ok
    | ok ptr =>
      obtain ⟨lastPtr, ptrReached, ptrStops⟩ := exists_stop_of_iterate searched
      obtain ⟨rfl, isReturn⟩ := returnStep_stop ptrStops
      have aligned : Aligned script ptr := by
        refine Reached.induction (motive := Aligned script) ptrReached dropAligned ?_
        intro state next _ aligned stepped
        exact aligned_returnStep short readable aligned stepped
      have notDone : ptr < script.length := by
        by_contra done
        change ScriptScanners.readOpReturn script st ptr = _ at ok
        rw [ScriptScanners.readOpReturn, if_pos (by omega)] at ok
        cases ok
      obtain ⟨opcode, atByte, opcodeIs⟩ := isReturn notDone
      obtain ⟨opcode', data, rest, _, atByte', among, _⟩ :=
        aligned_step short readable aligned notDone
      rw [atByte] at atByte'
      cases atByte'
      have same : opcode = 0x6a := UInt8.toNat_inj.mp opcodeIs
      rw [same] at among
      exact ⟨data, rest, among⟩

end Scanning

section Conditionals

/-- There is no way past an opcode that cannot be read. -/
theorem not_canPass_of_unreadable {instructions : List Instruction}
    (unreadable : .unreadable ∈ instructions) (vfExec : List Bool) :
    canPass instructions vfExec = false := by
  induction instructions generalizing vfExec with
  | nil => cases unreadable
  | cons instruction instructions ih =>
    cases instruction with
    | unreadable => rfl
    | op opcode data rest =>
      have behind : .unreadable ∈ instructions := by
        cases unreadable with
        | tail _ behind => exact behind
      have noWay := ih behind
      unfold canPass
      cases flowOf opcode.toNat with
      | stops => rfl
      | branch => simp [noWay]
      | otherwise =>
        cases vfExec with
        | nil => rfl
        | cons innermost others => exact noWay _
      | endIf =>
        cases vfExec with
        | nil => rfl
        | cons innermost others => exact noWay _
      | stopsExecuted => simp [noWay]
      | goesOn => exact noWay _

/-- An OP_RETURN is among the opcodes of a script. -/
def HasReturn (script : Bytes) : Prop :=
  ∃ data rest, .op 0x6a data rest ∈ instructions script

theorem blocked_of_not_hasReturn {script : Bytes} (noReturn : ¬ HasReturn script)
    (unspendable : IsUnspendable script) : Blocked script := by
  by_cases long : 10000 < script.length
  · exact .inl long
  · by_cases readable : .unreadable ∈ instructions script
    · exact .inr (not_canPass_of_unreadable readable [])
    · exact absurd (exists_opReturn_of_isUnspendable unspendable (by omega) readable) noReturn

/-- No execution skips all OP_RETURNs of a script: with whatever stack, flags and checker, there is
one at which no open conditional is false, should the interpreter come to it. -/
def ReturnUnskipped (script : Bytes) : Prop :=
  ∀ hooks flags stack, ∃ before data rest after,
    instructions script = before ++ .op 0x6a data rest :: after ∧
      ∀ st, evalInstructions hooks flags before ⟨⟨stack, [], 0, script⟩, []⟩ = .ok st →
        st.fExec = true

theorem evalInstructions_append {hooks : ScriptHooks} {flags : ScriptFlags}
    (before after : List Instruction) (st : EvalState) :
    evalInstructions hooks flags (before ++ after) st =
      (evalInstructions hooks flags before st).bind
        (evalInstructions hooks flags after) := by
  induction before generalizing st with
  | nil => rfl
  | cons instruction before ih =>
    rw [List.cons_append, evalInstructions, evalInstructions]
    cases evalRound hooks flags instruction st with
    | error err => rfl
    | ok st => exact ih st

theorem evalRound_return {hooks : ScriptHooks} {flags : ScriptFlags} {data rest : Bytes}
    {st : EvalState} (exec : st.fExec = true) :
    ∃ err, evalRound hooks flags (.op 0x6a data rest) st = .error err := by
  have counted : (st.count 0x6a).fExec = true := by
    rw [EvalState.fExec, count_vfExec]
    exact exec
  rw [evalRound]
  split_ifs with tooMany disabled
  · exact ⟨_, rfl⟩
  · exact ⟨_, rfl⟩
  · refine ⟨.opReturn, ?_⟩
    change (evalSwitch hooks flags 0x6a data rest (st.count 0x6a)).bind checkSizes = _
    rw [evalSwitch, if_neg (fun push => absurd push.2 (by decide)), if_neg (by decide),
      if_pos counted]
    rfl

/-- An execution that does not skip all OP_RETURNs stops at one. -/
theorem evalScript_fails_of_returnUnskipped {hooks : ScriptHooks} {flags : ScriptFlags}
    {script : Bytes} (unskipped : ReturnUnskipped script) (stack : List Bytes) :
    ∃ err, evalScript hooks flags stack script = .error err := by
  obtain ⟨before, data, rest, after, split, executed⟩ := unskipped hooks flags stack
  rw [evalScript, split, evalInstructions_append]
  split_ifs
  · exact ⟨_, rfl⟩
  · cases reached : evalInstructions hooks flags before ⟨⟨stack, [], 0, script⟩, []⟩ with
    | error err => exact ⟨err, rfl⟩
    | ok st =>
      obtain ⟨err, failed⟩ := @evalRound_return hooks flags data rest st
        (executed _ reached)
      refine ⟨err, ?_⟩
      rw [Except.bind, evalInstructions, failed]

/-- Without an OP_IF or OP_NOTIF no conditional is ever open. -/
theorem vfExec_of_straight {hooks : ScriptHooks} {flags : ScriptFlags}
    {instructions : List Instruction} {st after : EvalState} (closed : st.vfExec = [])
    (straight : ∀ opcode data rest, .op opcode data rest ∈ instructions →
      flowOf opcode.toNat ≠ .branch)
    (evaluated : evalInstructions hooks flags instructions st = .ok after) :
    after.vfExec = [] := by
  induction instructions generalizing st with
  | nil =>
    cases evaluated
    exact closed
  | cons instruction instructions ih =>
    rw [evalInstructions] at evaluated
    cases round : evalRound hooks flags instruction st with
    | error err =>
      rw [round] at evaluated
      cases evaluated
    | ok middle =>
      rw [round] at evaluated
      refine ih ?_ (fun opcode data rest among =>
        straight opcode data rest (List.mem_cons_of_mem _ among)) evaluated
      cases instruction with
      | unreadable => cases round
      | op opcode data rest =>
        have noBranch := straight opcode data rest List.mem_cons_self
        have step := flowStep_round round
        rw [FlowStep, closed] at step
        cases flow : flowOf opcode.toNat with
        | branch => exact absurd flow noBranch
        | goesOn => simpa [flow] using step
        | _ => simp [flow] at step

/-- A script without conditionals is one whose OP_RETURNs are not skipped. -/
theorem returnUnskipped_of_straight {script : Bytes} (hasReturn : HasReturn script)
    (straight : ∀ opcode data rest, .op opcode data rest ∈ instructions script →
      flowOf opcode.toNat ≠ .branch) : ReturnUnskipped script := by
  obtain ⟨data, rest, among⟩ := hasReturn
  obtain ⟨before, after, split⟩ := List.append_of_mem among
  intro hooks flags stack
  refine ⟨before, data, rest, after, split, ?_⟩
  intro st reached
  rw [EvalState.fExec, vfExec_of_straight rfl ?_ reached]
  · rfl
  · intro opcode data rest earlier
    exact straight opcode data rest (by rw [split]; exact List.mem_append_left _ earlier)

end Conditionals

end ScriptInterpreter

end HdacNode
