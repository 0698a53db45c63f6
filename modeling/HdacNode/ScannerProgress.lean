import HdacNode.ScriptScanners

/-!
# Progress of the script scanners

A round of a scanner moves its pointer forward, within the script, unless it meets a four-byte
push with a length below minus four.  A scanner of input scripts that does not leave its loop at
an opcode that is no push stays in front of it.
-/

namespace HdacNode

open AdvancingLoop

namespace ScriptScanners

variable (src : Bytes)

/-- The opcode under a pointer is no four-byte push that leads back. -/
def PushForward (ptr : Int) : Prop :=
  byteAt src ptr = some 0x4e → ptr + 5 ≤ src.length →
    -4 ≤ ScriptParser.pushLength src (ptr + 1)

/-- A push is recognised under a pointer. -/
def IsPush (ptr : Int) : Prop := ∃ data, getPushDataElement src ptr = .ok data

section Loops

variable {State Result : Type} (step : State → LoopStep State (Except ScanError Result))
  (position : State → Int)

/-- A round moves the pointer strictly forward and not past the end, or leaves the loop without
a fault. -/
def RoundAdvances (st : State) : Prop :=
  match step st with
  | .next next => position st < position next ∧ position next ≤ src.length
  | .stop (.error .fault) => False
  | .stop _ => True

/-- A loop ends, and each of its rounds moves the pointer forward. -/
def LoopAdvances (start : State) : Prop :=
  Ends step start ∧ ∀ st, Reached step start st → RoundAdvances src step position st

variable {src step position}

theorem RoundAdvances.next {st next : State} (advances : RoundAdvances src step position st)
    (stepped : step st = .next next) :
    position st < position next ∧ position next ≤ src.length := by
  rw [RoundAdvances, stepped] at advances
  exact advances

/-- The pointer of a loop that advances stays within the script. -/
theorem within_of_advances {start : State}
    (inside : 0 ≤ position start ∧ position start ≤ src.length)
    (advances : ∀ st, Reached step start st → 0 ≤ position st →
      RoundAdvances src step position st)
    {st : State} (reached : Reached step start st) :
    0 ≤ position st ∧ position st ≤ src.length := by
  let motive (st : State) : Prop := 0 ≤ position st ∧ position st ≤ src.length
  refine reached.induction (motive := motive) inside ?_
  intro state next reached held stepped
  have moved := (advances state reached held.1).next stepped
  have kept : 0 ≤ position state := held.1
  exact ⟨by omega, moved.2⟩

theorem loopAdvances_iff {Meets : State → Prop} {start : State}
    (inside : 0 ≤ position start ∧ position start ≤ src.length)
    (round : ∀ st, 0 ≤ position st → (RoundAdvances src step position st ↔ Meets st)) :
    LoopAdvances src step position start ↔ ∀ st, Reached step start st → Meets st := by
  constructor
  · rintro ⟨_, advances⟩ st reached
    obtain ⟨low, _⟩ := within_of_advances inside (fun st reached _ => advances st reached) reached
    exact (round st low).mp (advances st reached)
  · intro meets
    have advances (st : State) (reached : Reached step start st) :
        RoundAdvances src step position st := by
      obtain ⟨low, _⟩ := within_of_advances inside
        (fun st reached low => (round st low).mpr (meets st reached)) reached
      exact (round st low).mpr (meets st reached)
    refine ⟨?_, advances⟩
    refine exists_iterate_of_advances position src.length ?_
    intro state next reached stepped
    have moved := (advances state reached).next stepped
    omega

end Loops

section Pushes

variable {src} {ptr : Int}

/-- The byte under a pointer within the script. -/
theorem byteAt_within (nonneg : 0 ≤ ptr) (notDone : ptr < src.length) :
    ∃ byte, byteAt src ptr = some byte := by
  have inside : ptr.toNat < src.length := by omega
  refine ⟨src[ptr.toNat], ?_⟩
  rw [byteAt, if_neg (by omega), List.getElem?_eq_getElem inside]

/-- What `mc_GetPushDataElement` answers within a script: a recognised push ends within the
script, and ahead of the pointer unless it leads back. -/
theorem getPushDataElement_cases (nonneg : 0 ≤ ptr) (notDone : ptr < src.length) :
    (getPushDataElement src ptr = .error .wrongScript ∧ PushForward src ptr) ∨
      ∃ offset size, getPushDataElement src ptr = .ok (offset, size) ∧ ptr < offset ∧
        offset + size ≤ src.length ∧ (PushForward src ptr ↔ ptr < offset + size) := by
  obtain ⟨opcode, byte⟩ := byteAt_within nonneg notDone
  have isFour : byteAt src ptr = some 0x4e ↔ opcode.toNat = mcDctScriptOpPushData4 := by
    rw [byte, Option.some.injEq, ← UInt8.toNat_inj]
    rfl
  rw [getPushDataElement, if_neg (by omega), byte]
  dsimp only
  by_cases large : mcDctScriptOp16 < opcode.toNat
  · refine .inl ⟨if_pos large, fun four => ?_⟩
    have same := isFour.mp four
    rw [same] at large
    exact absurd large (by decide)
  · rw [if_neg large]
    rcases @ScriptParser.readPush_cases src opcode.toNat (ptr + 1) (by omega) with
      ⟨failed, long⟩ | ⟨size, next, read, sizeNonneg, behind, inside, long⟩ |
        ⟨four, room, negative, read⟩
    · rw [failed]
      refine .inl ⟨rfl, fun four fits => ?_⟩
      have positive := long (isFour.mp four) (by omega)
      omega
    · rw [read]
      refine .inr ⟨next, size, rfl, by omega, inside, iff_of_true (fun four _ => ?_) (by omega)⟩
      have positive := long (isFour.mp four)
      omega
    · rw [read]
      refine .inr ⟨ptr + 1 + 4, _, rfl, by omega, by omega, ?_⟩
      constructor
      · intro forward
        have long := forward (isFour.mpr four) (by omega)
        omega
      · intro ahead _ _
        omega

/-- No opcode is left at the end. -/
theorem pushForward_of_end (done : src.length ≤ ptr) : PushForward src ptr := by
  intro four
  have none : byteAt src ptr = none := by
    rw [byteAt, if_neg (by omega), List.getElem?_eq_none (by omega)]
  rw [none] at four
  cases four

theorem byteAt_of_not_pushForward (leadsBack : ¬ PushForward src ptr) :
    byteAt src ptr = some 0x4e := by
  by_contra other
  exact leadsBack fun four => absurd four other

end Pushes

section Rounds

variable {src}

theorem dropStep_advances_iff (opDropCount : Nat) (st : DropState)
    (nonneg : 0 ≤ st.ptr) :
    RoundAdvances src (dropStep src opDropCount) DropState.ptr st ↔
      (st.d < opDropCount → PushForward src st.ptr) := by
  rw [RoundAdvances, dropStep]
  by_cases goesOn : st.d < opDropCount ∧ st.ptr < src.length
  · obtain ⟨opcode, byte⟩ := byteAt_within nonneg goesOn.2
    rw [if_pos goesOn, byte, forall_prop_of_true goesOn.1]
    dsimp only
    by_cases isReturn : opcode.toNat = mcDctScriptOpReturn
    · rw [if_pos isReturn]
      refine iff_of_true trivial fun four => ?_
      rw [byte] at four
      cases four
      exact absurd isReturn (by decide)
    · rw [if_neg isReturn]
      rcases getPushDataElement_cases nonneg goesOn.2 with
        ⟨failed, forward⟩ | ⟨offset, size, read, _, ends, forward⟩
      · rw [failed]
        refine iff_of_true ⟨?_, ?_⟩ forward
        · change st.ptr < st.ptr + 1
          omega
        · change st.ptr + 1 ≤ src.length
          omega
      · rw [read, forward]
        dsimp only
        by_cases notLast : offset + size < src.length
        · rw [if_pos notLast]
          by_cases ahead : st.ptr < offset + size
          · obtain ⟨behind, next⟩ := byteAt_within (by omega) notLast
            rw [next]
            dsimp only
            split_ifs
            · refine iff_of_true ⟨?_, ?_⟩ ahead
              · change st.ptr < offset + size + 1
                omega
              · change offset + size + 1 ≤ src.length
                omega
            · exact iff_of_true ⟨ahead, ends⟩ ahead
          · refine iff_of_false ?_ ahead
            have four := byteAt_of_not_pushForward (mt forward.mp ahead)
            cases next : byteAt src (offset + size) with
            | none => exact id
            | some behind =>
              dsimp only
              split_ifs with isDrop
              · rintro ⟨moved, _⟩
                change st.ptr < offset + size + 1 at moved
                have same : offset + size = st.ptr := by omega
                rw [same, four] at next
                cases next
                exact absurd isDrop (by decide)
              · rintro ⟨moved, _⟩
                exact ahead moved
        · rw [if_neg notLast]
          exact ⟨fun moved => moved.1, fun ahead => ⟨ahead, ends⟩⟩
  · rw [if_neg goesOn]
    refine iff_of_true trivial fun more => pushForward_of_end ?_
    by_contra notDone
    exact goesOn ⟨more, by omega⟩

theorem returnStep_advances_iff (ptr : Int) (nonneg : 0 ≤ ptr) :
    RoundAdvances src (returnStep src) id ptr ↔ PushForward src ptr := by
  rw [RoundAdvances, returnStep]
  by_cases goesOn : ptr < src.length
  · obtain ⟨opcode, byte⟩ := byteAt_within nonneg goesOn
    rw [if_pos goesOn, byte]
    dsimp only
    by_cases isReturn : opcode.toNat = mcDctScriptOpReturn
    · rw [if_pos isReturn]
      refine iff_of_true trivial fun four => ?_
      rw [byte] at four
      cases four
      exact absurd isReturn (by decide)
    · rw [if_neg isReturn]
      rcases getPushDataElement_cases nonneg goesOn with
        ⟨failed, forward⟩ | ⟨offset, size, read, _, ends, forward⟩
      · rw [failed]
        refine iff_of_true ⟨?_, ?_⟩ forward
        · change ptr < ptr + 1
          omega
        · change ptr + 1 ≤ src.length
          omega
      · rw [read, forward]
        exact ⟨fun moved => moved.1, fun ahead => ⟨ahead, ends⟩⟩
  · rw [if_neg goesOn]
    exact iff_of_true trivial (pushForward_of_end (by omega))

/-- A round of `mc_CheckSigScriptForMutableTx`. -/
theorem sigStep_advances_iff (st : SigState) (nonneg : 0 ≤ st.ptr) :
    RoundAdvances src (sigStep src) SigState.ptr st ↔
      (st.ptr < src.length → IsPush src st.ptr ∧ PushForward src st.ptr) := by
  rw [RoundAdvances, sigStep]
  by_cases goesOn : st.ptr < src.length
  · rw [if_pos goesOn, forall_prop_of_true goesOn, IsPush]
    rcases getPushDataElement_cases nonneg goesOn with
      ⟨failed, _⟩ | ⟨offset, size, read, behind, ends, forward⟩
    · rw [failed]
      refine iff_of_false ?_ ?_
      · rintro ⟨moved, _⟩
        exact Int.lt_irrefl st.ptr moved
      · rintro ⟨⟨_, found⟩, _⟩
        cases found
    · rw [read, and_iff_right ⟨_, rfl⟩, forward]
      dsimp only
      by_cases ahead : st.ptr < offset + size
      · refine iff_of_true ?_ ahead
        obtain ⟨last, byte⟩ := @byteAt_within src (offset + size - 1) (by omega)
          (by omega)
        rw [byte]
        split_ifs <;> exact ⟨ahead, ends⟩
      · refine iff_of_false ?_ ahead
        split_ifs
        · cases byteAt src (offset + size - 1) with
          | none => exact id
          | some last => exact fun moved => ahead moved.1
        · exact fun moved => ahead moved.1
        · exact fun moved => ahead moved.1
        · exact fun moved => ahead moved.1
  · rw [if_neg goesOn]
    exact iff_of_true trivial fun more => absurd more goesOn

/-- A round of `mc_ExtractAddressFromInputScript`. -/
theorem inputStep_advances_iff (checkLast : Bool) (st : InputState) (nonneg : 0 ≤ st.ptr) :
    RoundAdvances src (inputStep src checkLast) InputState.ptr st ↔
      PushForward src st.ptr := by
  rw [RoundAdvances, inputStep]
  by_cases goesOn : st.ptr < src.length
  · rw [if_pos goesOn]
    rcases getPushDataElement_cases nonneg goesOn with
      ⟨failed, forward⟩ | ⟨offset, size, read, behind, ends, forward⟩
    · rw [failed]
      exact iff_of_true trivial forward
    · rw [read, forward]
      dsimp only
      by_cases ahead : st.ptr < offset + size
      · refine iff_of_true ?_ ahead
        obtain ⟨last, readable⟩ : ∃ last, sighashByte src checkLast offset size = .ok last := by
          obtain ⟨byte, found⟩ := @byteAt_within src (offset + size - 1)
            (by omega) (by omega)
          rw [sighashByte, found]
          split_ifs
          · exact ⟨_, rfl⟩
          · exact ⟨_, rfl⟩
        rw [readable]
        dsimp only
        generalize (if st.sighashType < 0 then (1 : Int) else st.sighashType) = begun
        split_ifs
        · exact ⟨ahead, ends⟩
        · trivial
        · exact ⟨ahead, ends⟩
        · exact ⟨ahead, ends⟩
      · refine iff_of_false ?_ ahead
        have notLast : offset + size ≠ src.length := by omega
        have negative : size ≠ 0 := by omega
        cases readable : sighashByte src checkLast offset size with
        | error err =>
          have fault : err = .fault := by
            rw [sighashByte] at readable
            split_ifs at readable
            cases found : byteAt src (offset + size - 1) with
            | none =>
              rw [found] at readable
              exact (Except.error.inj readable).symm
            | some byte =>
              rw [found] at readable
              cases readable
          rw [fault]
          exact id
        | ok last =>
          dsimp only
          rw [if_neg negative, if_neg notLast, ite_self]
          exact fun moved => ahead moved.1
  · rw [if_neg goesOn]
    refine iff_of_true ?_ (pushForward_of_end (by omega))
    split_ifs <;> trivial

end Rounds

section Scanners

/-- The three scanners with what they are told besides the script. -/
inductive Scanner where
  | opDropOpReturn (opDrops : List (Int × Int)) (opDropCount : Nat)
  | sigScript
  | inputScript (checkLast : Bool)
  deriving DecidableEq, Repr

/-- The states in which the first loop of `mc_ParseOpDropOpReturnScript` hands over to the
second one. -/
def HandsOver (opDrops : List (Int × Int)) (opDropCount : Nat) (st : DropState) : Prop :=
  ∃ fuel, iterate (dropStep src opDropCount) fuel ⟨0, 0, opDrops⟩ = some (.ok st)

/-- A scanner ends, and each of its rounds moves the pointer strictly forward and not past the
end. -/
def Scanner.Advances : Scanner → Prop
  | opDropOpReturn opDrops opDropCount =>
    LoopAdvances src (dropStep src opDropCount) DropState.ptr ⟨0, 0, opDrops⟩ ∧
      ∀ st, HandsOver src opDrops opDropCount st → LoopAdvances src (returnStep src) id st.ptr
  | sigScript => LoopAdvances src (sigStep src) SigState.ptr ⟨0, 0⟩
  | inputScript checkLast =>
    LoopAdvances src (inputStep src checkLast) InputState.ptr ⟨0, 0, false, -1⟩

/-- No four-byte push that a scanner meets leads back, and a scanner of signatures meets
nothing but pushes. -/
def Scanner.PushesForward : Scanner → Prop
  | opDropOpReturn opDrops opDropCount =>
    (∀ st, Reached (dropStep src opDropCount) ⟨0, 0, opDrops⟩ st → st.d < opDropCount →
        PushForward src st.ptr) ∧
      ∀ st, HandsOver src opDrops opDropCount st →
        ∀ ptr, Reached (returnStep src) st.ptr ptr → PushForward src ptr
  | sigScript => ∀ st, Reached (sigStep src) ⟨0, 0⟩ st → st.ptr < src.length →
      IsPush src st.ptr ∧ PushForward src st.ptr
  | inputScript checkLast => ∀ st, Reached (inputStep src checkLast) ⟨0, 0, false, -1⟩ st →
      PushForward src st.ptr

variable {src}

theorem eq_of_dropStep_stop {opDropCount : Nat} {state st : DropState}
    (stopped : dropStep src opDropCount state = .stop (.ok st)) : state = st := by
  rw [dropStep] at stopped
  repeat' split at stopped
  all_goals first | exact Except.ok.inj (LoopStep.stop.inj stopped) | cases stopped

theorem reached_of_handsOver {opDrops : List (Int × Int)} {opDropCount : Nat} {st : DropState}
    (handsOver : HandsOver src opDrops opDropCount st) :
    Reached (dropStep src opDropCount) ⟨0, 0, opDrops⟩ st := by
  obtain ⟨fuel, found⟩ := handsOver
  obtain ⟨state, reached, stops⟩ := exists_stop_of_iterate found
  rw [← eq_of_dropStep_stop stops]
  exact reached

/-- A scanner moves forward to its end if and only if it meets no push that leads back and, for
signatures, nothing but pushes. -/
theorem scanner_advances_iff (src : Bytes) (scanner : Scanner) :
    scanner.Advances src ↔ scanner.PushesForward src := by
  cases scanner with
  | opDropOpReturn opDrops opDropCount =>
    have first : LoopAdvances src (dropStep src opDropCount) DropState.ptr ⟨0, 0, opDrops⟩ ↔ _ :=
      loopAdvances_iff ⟨Int.le_refl 0, by simp⟩ (dropStep_advances_iff opDropCount)
    rw [Scanner.Advances, Scanner.PushesForward, ← first]
    refine and_congr_right fun advances => ?_
    refine forall_congr' fun st => forall_congr' fun handsOver => ?_
    have within := @within_of_advances _ _ _ _ DropState.ptr _ ⟨Int.le_refl 0, by simp⟩
      (fun state reached _ => advances.2 state reached) _ (reached_of_handsOver handsOver)
    exact loopAdvances_iff within returnStep_advances_iff
  | sigScript =>
    exact loopAdvances_iff ⟨Int.le_refl 0, by simp⟩ sigStep_advances_iff
  | inputScript checkLast =>
    exact loopAdvances_iff ⟨Int.le_refl 0, by simp⟩ (inputStep_advances_iff checkLast)

/-- `mc_ExtractAddressFromInputScript` returns without a read outside the script when its scan
moves forward. -/
theorem extractAddressFromInputScript_returns {checkLast : Bool}
    (advances : (Scanner.inputScript checkLast).Advances src) :
    ∃ fuel result, extractAddressFromInputScript src checkLast fuel = some result ∧
      result ≠ .error .fault := by
  obtain ⟨⟨fuel, result, found⟩, rounds⟩ := advances
  refine ⟨fuel, result, found, fun fault => ?_⟩
  obtain ⟨st, reached, stops⟩ := exists_stop_of_iterate found
  have forward := rounds st reached
  rw [RoundAdvances, stops, fault] at forward
  exact forward

/-- An opcode that is no push keeps the scanner of signatures in its place, and a push of minus
five bytes sends the scanner of OP_DROPs back to its start. -/
theorem scanners_stay :
    (∀ fuel, checkSigScriptForMutableTx [0x61] fuel = none) ∧
      (∀ fuel, parseOpDropOpReturnScript [0x4e, 0xfb, 0xff, 0xff, 0xff] [(0, 0), (0, 0)] 2 fuel =
        none) ∧
      ¬ ∀ src (scanner : Scanner), scanner.Advances src := by
  have stays : ∀ fuel result, iterate (sigStep [0x61]) fuel ⟨0, result⟩ = none := by
    intro fuel
    induction fuel with
    | zero => exact fun _ => rfl
    | succ fuel ih => exact fun result => ih (result ||| 0x07)
  have returns : ∀ fuel opDrops, iterate (dropStep [0x4e, 0xfb, 0xff, 0xff, 0xff] 2) fuel
      ⟨0, 0, opDrops⟩ = none := by
    intro fuel
    induction fuel with
    | zero => exact fun _ => rfl
    | succ fuel ih => exact fun opDrops => ih (opDrops.set 0 (0, -1))
  refine ⟨fun fuel => stays fuel 0, fun fuel => ?_, fun advances => ?_⟩
  · rw [parseOpDropOpReturnScript, returns]
  · obtain ⟨⟨fuel, result, ends⟩, _⟩ := advances [0x61] .sigScript
    rw [stays] at ends
    cases ends

end Scanners

end ScriptScanners

end HdacNode
