import HdacNode.ScriptParser

/-!
# Progress of the script parser

A round of `SetScript` moves the read pointer forward unless it meets a
four-byte push with a negative length.  Before an OP_RETURN of a public key
script such a length moves the pointer back, and only the four shortest ones
leave it ahead.  Everywhere else the parser copies a negative number of bytes.
-/

namespace HdacNode

open AdvancingLoop

namespace ScriptParser

/-- Whether a signed length keeps the parser going forward. -/
def Fits (source : ScriptSource) (isOpReturn : Bool) (size : Int) : Prop :=
  0 ≤ size ∨ (source = .scriptPubKey ∧ isOpReturn = false ∧ -4 ≤ size)

/-- The opcode under the pointer is no four-byte push with a length that is
negative and does not fit. -/
def PushFits (src : Bytes) (source : ScriptSource) (st : ScanState) : Prop :=
  byteAt src st.ptr = some 0x4e → st.ptr + 5 ≤ src.length →
    Fits source st.isOpReturn (pushLength src (st.ptr + 1))

/-- A round moves the pointer strictly forward, or ends the loop without a fault. -/
def StepAdvances (src : Bytes) (source : ScriptSource) (st : ScanState) : Prop :=
  match scanStep src source st with
  | .next next => st.ptr < next.ptr
  | .stop (.error .fault) => False
  | .stop _ => True

/-- The pointers of a round lie within the script. -/
structure InRange (src : Bytes) (st : ScanState) : Prop where
  ptr : 0 ≤ st.ptr
  last : 0 ≤ st.lastSize → 0 ≤ st.ptrPrev ∧ st.ptrPrev + st.lastSize ≤ src.length

section Rounds

variable {src : Bytes} {source : ScriptSource} {st : ScanState}

theorem copyFrom_of_inside {ptr size : Int} (nonneg : 0 ≤ ptr) (sizeNonneg : 0 ≤ size)
    (inside : ptr + size ≤ src.length) : ∃ data, copyFrom src ptr size = some data :=
  ⟨_, if_pos ⟨nonneg, sizeNonneg, inside⟩⟩

private theorem takeOpcode_of_inRange (inRange : InRange src st) (opcode : Nat)
    (size ptr : Int) :
    ∃ script isOpReturn,
      takeOpcode src st opcode size ptr = some ⟨script, isOpReturn, ptr, size⟩ := by
  unfold takeOpcode
  split
  · exact ⟨_, _, rfl⟩
  · split
    · dsimp only
      split
      · rename_i hasData
        obtain ⟨nonneg, inside⟩ := inRange.last hasData
        obtain ⟨data, copied⟩ := copyFrom_of_inside nonneg hasData inside
        rw [copied]
        exact ⟨_, _, rfl⟩
      · exact ⟨_, _, rfl⟩
    · exact ⟨_, _, rfl⟩

private theorem takeElement_of_inside {size ptr : Int} (behind : 1 ≤ ptr)
    (sizeNonneg : 0 ≤ size) (inside : ptr + size ≤ src.length) :
    ∃ script isOpReturn,
      takeElement src source st size ptr = some ⟨script, isOpReturn, ptr, 0⟩ ∨
        takeElement src source st size ptr = some ⟨script, false, ptr, size⟩ ∨
        takeElement src source st size ptr = some ⟨script, false, src.length, size⟩ := by
  unfold takeElement
  split
  · exact ⟨_, _, .inl rfl⟩
  · have copied : ∃ data, (if size ≠ 0 then copyFrom src ptr size
        else if st.isOpReturn then copyFrom src ptr 0 else copyFrom src (ptr - 1) 1) =
          some data := by
      split
      · exact copyFrom_of_inside (by omega) sizeNonneg inside
      · split
        · exact copyFrom_of_inside (by omega) (by omega) (by omega)
        · exact copyFrom_of_inside (by omega) (by omega) (by omega)
    obtain ⟨data, copied⟩ := copied
    dsimp only
    rw [copied]
    cases st.isOpReturn with
    | false => exact ⟨_, false, .inr (.inl rfl)⟩
    | true => exact ⟨_, false, .inr (.inr rfl)⟩

private theorem takeElement_of_neg {size ptr : Int} (negative : size < 0) :
    takeElement src source st size ptr = none := by
  have notRedeem : isRedeemScript src source st size ptr = false := by
    have short : ¬ 1 < size := by omega
    simp [isRedeemScript, short]
  have noCopy : copyFrom src ptr size = none := if_neg (by omega)
  have nonzero : size ≠ 0 := by omega
  simp [takeElement, notRedeem, noCopy, nonzero]

private theorem inRange_advance {taken : Taken} (opcode : Nat) (behind : 0 ≤ taken.ptr)
    (forward : 0 ≤ taken.ptr + taken.size) :
    (advance taken opcode).ptr < src.length → InRange src (advance taken opcode) := by
  intro notDone
  change taken.ptr + taken.size < src.length at notDone
  refine ⟨forward, ?_⟩
  change 0 ≤ (if _ then (-1 : Int) else taken.size) → 0 ≤ taken.ptr ∧
    taken.ptr + (if _ then (-1 : Int) else taken.size) ≤ src.length
  split <;> omega

/-- The possible outcomes of a round. -/
inductive RoundOutcome (src : Bytes) (source : ScriptSource) (st : ScanState) : Prop where
  | forward (next : ScanState) (stepped : scanStep src source st = .next next)
      (ahead : st.ptr < next.ptr) (inRange : next.ptr < src.length → InRange src next)
      (fits : PushFits src source st)
  | wrongScript (stepped : scanStep src source st = .stop (.error .wrongScript))
      (fits : PushFits src source st)
  | fault (stepped : scanStep src source st = .stop (.error .fault))
      (misfits : ¬ PushFits src source st)
  | backward (next : ScanState) (stepped : scanStep src source st = .next next)
      (back : next.ptr ≤ st.ptr) (misfits : ¬ PushFits src source st)

private theorem exists_byteAt (nonneg : 0 ≤ st.ptr) (notDone : st.ptr < src.length) :
    ∃ opcode, byteAt src st.ptr = some opcode := by
  have inside : st.ptr.toNat < src.length := by omega
  exact ⟨src[st.ptr.toNat], by rw [byteAt, if_neg (by omega), List.getElem?_eq_getElem inside]⟩

private theorem opcode_eq_iff (opcode : UInt8) :
    opcode.toNat = mcDctScriptOpPushData4 ↔ opcode = 0x4e := by
  rw [← UInt8.toNat_inj]
  rfl

private theorem forward_of_nonneg (inRange : InRange src st) (notDone : st.ptr < src.length)
    {opcode : UInt8} {size next : Int} (byte : byteAt src st.ptr = some opcode)
    (read : readPush src opcode.toNat (st.ptr + 1) = .ok (size, next)) (nonneg : 0 ≤ size)
    (behind : st.ptr + 1 ≤ next) (inside : next + size ≤ src.length) :
    ∃ after, scanStep src source st = .next after ∧ st.ptr < after.ptr ∧
      (after.ptr < src.length → InRange src after) := by
  have ptrNonneg := inRange.ptr
  unfold scanStep
  rw [if_pos notDone, byte]
  dsimp only
  rw [read]
  dsimp only
  by_cases mode : source = .scriptPubKey ∧ ¬ st.isOpReturn
  · obtain ⟨script, isOpReturn, taken⟩ := takeOpcode_of_inRange inRange opcode.toNat size next
    rw [if_pos mode, taken]
    refine ⟨_, rfl, ?_, inRange_advance _ (by change 0 ≤ next; omega) ?_⟩
    · change st.ptr < next + size
      omega
    · change 0 ≤ next + size
      omega
  · obtain ⟨script, isOpReturn, taken | taken | taken⟩ :=
      takeElement_of_inside (by omega) nonneg inside
    · rw [if_neg mode, taken]
      refine ⟨_, rfl, ?_, inRange_advance _ (by change 0 ≤ next; omega) ?_⟩
      · change st.ptr < next + 0
        omega
      · change 0 ≤ next + 0
        omega
    · rw [if_neg mode, taken]
      refine ⟨_, rfl, ?_, inRange_advance _ (by change 0 ≤ next; omega) ?_⟩
      · change st.ptr < next + size
        omega
      · change 0 ≤ next + size
        omega
    · rw [if_neg mode, taken]
      refine ⟨_, rfl, ?_, inRange_advance _ (by change 0 ≤ (src.length : Int); omega) ?_⟩
      · change st.ptr < src.length + size
        omega
      · change 0 ≤ (src.length : Int) + size
        omega

/-- A round from a state in range. -/
theorem roundOutcome (inRange : InRange src st) (notDone : st.ptr < src.length) :
    RoundOutcome src source st := by
  have ptrNonneg := inRange.ptr
  obtain ⟨opcode, byte⟩ := exists_byteAt ptrNonneg notDone
  have isFour : byteAt src st.ptr = some 0x4e → opcode.toNat = mcDctScriptOpPushData4 := by
    intro four
    rw [byte] at four
    exact (opcode_eq_iff opcode).2 (Option.some.inj four)
  have room : st.ptr + 1 ≤ src.length := by omega
  rcases readPush_cases src opcode.toNat room with
    ⟨failed, nonneg⟩ | ⟨size, next, read, sizeNonneg, behind, inside, nonneg⟩ |
      ⟨four, room, negative, read⟩
  · refine .wrongScript ?_ fun four inside => .inl (nonneg (isFour four) (by omega))
    unfold scanStep
    rw [if_pos notDone, byte]
    dsimp only
    rw [failed]
  · obtain ⟨after, stepped, ahead, afterInRange⟩ := forward_of_nonneg inRange
      notDone byte read sizeNonneg behind inside
    exact .forward after stepped ahead afterInRange fun four _ => .inl (nonneg (isFour four))
  · have fourByte : byteAt src st.ptr = some 0x4e := by
      rw [byte, (opcode_eq_iff opcode).1 four]
    by_cases mode : source = .scriptPubKey ∧ ¬ st.isOpReturn
    · obtain ⟨script, isOpReturn, taken⟩ := takeOpcode_of_inRange inRange opcode.toNat
        (pushLength src (st.ptr + 1)) (st.ptr + 1 + 4)
      have stepped : scanStep src source st = .next (advance ⟨script, isOpReturn, st.ptr + 1 + 4,
          pushLength src (st.ptr + 1)⟩ opcode.toNat) := by
        unfold scanStep
        rw [if_pos notDone, byte]
        dsimp only
        rw [read]
        dsimp only
        rw [if_pos mode, taken]
      by_cases short : -4 ≤ pushLength src (st.ptr + 1)
      · refine .forward _ stepped ?_ (inRange_advance _ ?_ ?_) fun _ _ =>
          .inr ⟨mode.1, by simpa using mode.2, short⟩
        · change st.ptr < st.ptr + 1 + 4 + pushLength src (st.ptr + 1)
          omega
        · change 0 ≤ st.ptr + 1 + 4
          omega
        · change 0 ≤ st.ptr + 1 + 4 + pushLength src (st.ptr + 1)
          omega
      · refine .backward _ stepped ?_ fun fits => ?_
        · change st.ptr + 1 + 4 + pushLength src (st.ptr + 1) ≤ st.ptr
          omega
        · rcases fits fourByte (by omega) with nonneg | ⟨-, -, fitsShort⟩
          · omega
          · exact short fitsShort
    · refine .fault ?_ fun fits => ?_
      · unfold scanStep
        rw [if_pos notDone, byte]
        dsimp only
        rw [read]
        dsimp only
        rw [if_neg mode, takeElement_of_neg negative]
      · rcases fits fourByte (by omega) with nonneg | ⟨isPubKey, noReturn, -⟩
        · omega
        · exact mode ⟨isPubKey, by simp [noReturn]⟩

theorem stepAdvances_iff (inRange : st.ptr < src.length → InRange src st) :
    StepAdvances src source st ↔ (st.ptr < src.length → PushFits src source st) := by
  unfold StepAdvances
  by_cases notDone : st.ptr < src.length
  · cases roundOutcome (inRange notDone) notDone with
    | forward next stepped ahead _ fits =>
        rw [stepped]
        exact iff_of_true ahead fun _ => fits
    | wrongScript stepped fits =>
        rw [stepped]
        exact iff_of_true trivial fun _ => fits
    | fault stepped misfits =>
        rw [stepped]
        exact iff_of_false id fun fits => misfits (fits notDone)
    | backward next stepped back misfits =>
        rw [stepped]
        exact iff_of_false (by change ¬ st.ptr < next.ptr; omega)
          fun fits => misfits (fits notDone)
  · have stopped : scanStep src source st = .stop (.ok (finish st)) := if_neg notDone
    rw [stopped]
    exact iff_of_true trivial fun inside => absurd inside notDone

theorem inRange_next {next : ScanState} (inRange : st.ptr < src.length → InRange src st)
    (stepped : scanStep src source st = .next next) (ahead : st.ptr < next.ptr) :
    next.ptr < src.length → InRange src next := by
  by_cases notDone : st.ptr < src.length
  · cases roundOutcome (inRange notDone) notDone with
    | forward other otherStepped _ otherInRange _ =>
        rw [stepped] at otherStepped
        cases otherStepped
        exact otherInRange
    | wrongScript otherStepped _ =>
        rw [stepped] at otherStepped
        cases otherStepped
    | fault otherStepped _ =>
        rw [stepped] at otherStepped
        cases otherStepped
    | backward other otherStepped back _ =>
        rw [stepped] at otherStepped
        cases otherStepped
        omega
  · have stopped : scanStep src source st = .stop (.ok (finish st)) := if_neg notDone
    rw [stopped] at stepped
    cases stepped

end Rounds

section Runs

variable (src : Bytes) (source : ScriptSource)

/-- The states at the head of the loop of `SetScript`. -/
def ReachedState (st : ScanState) : Prop := Reached (scanStep src source) scanStart st

/-- `SetScript` ends, and every round of its loop moves the read pointer strictly
forward. -/
def MakesProgress : Prop :=
  (∃ fuel result, setScript src source fuel = some result) ∧
    ∀ st, ReachedState src source st → StepAdvances src source st

/-- Every round of the parser meets a push that fits. -/
def PushesFit : Prop :=
  ∀ st, ReachedState src source st → st.ptr < src.length → PushFits src source st

variable {src source}

theorem inRange_scanStart : InRange src scanStart where
  ptr := Int.le_refl 0
  last := by
    intro absurdity
    exact absurd absurdity (by decide)

private theorem inRange_of_reached {src : Bytes} {source : ScriptSource}
    (advances : ∀ st, ReachedState src source st → (st.ptr < src.length → InRange src st) →
      StepAdvances src source st)
    {st : ScanState} (reached : ReachedState src source st) :
    st.ptr < src.length → InRange src st := by
  refine reached.induction (motive := fun st => st.ptr < (src.length : Int) → InRange src st)
    (fun _ => inRange_scanStart) ?_
  intro state next reached inRange stepped
  have ahead := advances state reached inRange
  rw [StepAdvances, stepped] at ahead
  exact inRange_next inRange stepped ahead

/-- `SetScript` makes progress exactly when all pushes it meets fit. -/
theorem makesProgress_iff_pushesFit (src : Bytes) (source : ScriptSource) :
    MakesProgress src source ↔ PushesFit src source := by
  constructor
  · rintro ⟨-, advances⟩ st reached
    exact (stepAdvances_iff (inRange_of_reached (fun st reached _ => advances st reached)
      reached)).1 (advances st reached)
  · intro fits
    have advances : ∀ st, ReachedState src source st → StepAdvances src source st := by
      intro st reached
      have inRange := inRange_of_reached
        (fun st reached inRange => (stepAdvances_iff inRange).2 (fits st reached)) reached
      exact (stepAdvances_iff inRange).2 (fits st reached)
    refine ⟨?_, advances⟩
    unfold setScript
    split
    · exact ⟨0, _, rfl⟩
    · refine exists_iterate_of_advances ScanState.ptr src.length ?_
      intro state next reached stepped
      have ahead := advances state reached
      rw [StepAdvances, stepped] at ahead
      refine ⟨ahead, ?_⟩
      by_contra done
      have stopped : scanStep src source state = .stop (.ok (finish state)) := if_neg done
      rw [stopped] at stepped
      cases stepped

end Runs

/-- A push of minus five bytes. -/
def backwardPush : Bytes := [0x4e, 0xfb, 0xff, 0xff, 0xff]

/-- As a public key script it sends the parser back to its start, forever. -/
theorem backwardPush_not_makesProgress :
    (∀ fuel, setScript backwardPush .scriptPubKey fuel = none) ∧
      ¬ MakesProgress backwardPush .scriptPubKey := by
  have round : ∀ ptrPrev lastSize script, ∃ nextPrev nextSize nextScript,
      scanStep backwardPush .scriptPubKey ⟨0, ptrPrev, lastSize, false, script⟩ =
        .next ⟨0, nextPrev, nextSize, false, nextScript⟩ :=
    fun ptrPrev lastSize script => ⟨_, _, _, rfl⟩
  have endless : ∀ fuel ptrPrev lastSize script,
      iterate (scanStep backwardPush .scriptPubKey) fuel
        ⟨0, ptrPrev, lastSize, false, script⟩ = none := by
    intro fuel
    induction fuel with
    | zero => exact fun _ _ _ => rfl
    | succ fuel ih =>
        intro ptrPrev lastSize script
        obtain ⟨nextPrev, nextSize, nextScript, stepped⟩ := round ptrPrev lastSize script
        rw [iterate, stepped]
        exact ih nextPrev nextSize nextScript
  have never : ∀ fuel, setScript backwardPush .scriptPubKey fuel = none :=
    fun fuel => endless fuel 0 (-1) Script.clear
  refine ⟨never, ?_⟩
  rintro ⟨⟨fuel, result, found⟩, -⟩
  rw [never fuel] at found
  cases found

end ScriptParser

end HdacNode
