import Mathlib.Logic.Basic
import Mathlib.Logic.Relation

/-!
# Loops that move a position forward

A loop steps from state to state until it stops with a result.  If every step
out of a reached state moves a position strictly forward and no step is made
from the bound on, the loop stops.
-/

/-- One round of a loop. -/
inductive LoopStep (State Result : Type) where
  | next (state : State)
  | stop (result : Result)

namespace AdvancingLoop

variable {State Result : Type} (step : State → LoopStep State Result)

/-- Run a loop for a number of rounds at most. -/
def iterate : Nat → State → Option Result
  | 0, _ => none
  | fuel + 1, state =>
      match step state with
      | .next state => iterate fuel state
      | .stop result => some result

/-- The states at the head of the loop. -/
def Reached : State → State → Prop :=
  Relation.ReflTransGen fun state next => step state = .next next

variable {step}

theorem Reached.tail {start state next : State} (reached : Reached step start state)
    (stepped : step state = .next next) : Reached step start next :=
  Relation.ReflTransGen.tail reached stepped

/-- What every step keeps holds in all reached states. -/
theorem Reached.induction {start state : State} {motive : State → Prop}
    (reached : Reached step start state) (holds : motive start)
    (keep : ∀ state next, Reached step start state → motive state → step state = .next next →
      motive next) : motive state := by
  induction reached with
  | refl => exact holds
  | tail reached stepped ih => exact keep _ _ reached ih stepped

/-- A run that ends has reached a state in which the loop stops. -/
theorem exists_stop_of_iterate {fuel : Nat} {start : State} {result : Result}
    (found : iterate step fuel start = some result) :
    ∃ state, Reached step start state ∧ step state = .stop result := by
  induction fuel generalizing start with
  | zero => cases found
  | succ fuel ih =>
      cases stepped : step start with
      | next next =>
          rw [iterate, stepped] at found
          obtain ⟨state, reached, stops⟩ := ih found
          exact ⟨state, .head stepped reached, stops⟩
      | stop result' =>
          rw [iterate, stepped] at found
          cases found
          exact ⟨start, .refl, stepped⟩

/-- A loop that moves forward below a bound stops. -/
theorem exists_iterate_of_advances {start : State} (position : State → Int) (bound : Int)
    (advances : ∀ state next, Reached step start state → step state = .next next →
      position state < position next ∧ position state < bound) :
    ∃ fuel result, iterate step fuel start = some result := by
  have fromReached : ∀ (distance : Nat) (state : State), Reached step start state →
      bound - position state ≤ distance →
      ∃ fuel result, iterate step fuel state = some result := by
    intro distance
    induction distance with
    | zero =>
        intro state reached near
        cases stepped : step state with
        | next next =>
            have := advances state next reached stepped
            omega
        | stop result => exact ⟨1, result, by simp [iterate, stepped]⟩
    | succ distance ih =>
        intro state reached near
        cases stepped : step state with
        | next next =>
            have := advances state next reached stepped
            obtain ⟨fuel, result, found⟩ := ih next (reached.tail stepped) (by omega)
            exact ⟨fuel + 1, result, by simp [iterate, stepped, found]⟩
        | stop result => exact ⟨1, result, by simp [iterate, stepped]⟩
  exact fromReached (bound - position start).toNat start .refl (by omega)

/-- A loop ends after some number of rounds. -/
def Ends (step : State → LoopStep State Result) (start : State) : Prop :=
  ∃ fuel result, iterate step fuel start = some result

theorem ends_of_stop {start : State} {result : Result} (stops : step start = .stop result) :
    Ends step start :=
  ⟨1, result, by simp [iterate, stops]⟩

theorem ends_iff_of_next {start next : State} (stepped : step start = .next next) :
    Ends step start ↔ Ends step next := by
  constructor
  · rintro ⟨fuel, result, found⟩
    cases fuel with
    | zero => cases found
    | succ fuel =>
        rw [iterate, stepped] at found
        exact ⟨fuel, result, found⟩
  · rintro ⟨fuel, result, found⟩
    refine ⟨fuel + 1, result, ?_⟩
    rw [iterate, stepped]
    exact found

theorem Reached.ends_iff {start state : State} (reached : Reached step start state) :
    Ends step start ↔ Ends step state := by
  induction reached with
  | refl => rfl
  | tail _ stepped ih => exact ih.trans (ends_iff_of_next stepped)

theorem ends_of_wellFounded {below : State → State → Prop} (wellFounded : WellFounded below)
    {start : State}
    (goesDown : ∀ state next, Reached step start state → step state = .next next →
      below next state) : Ends step start := by
  have fromReached : ∀ state, Reached step start state → Ends step state := by
    intro state
    induction state using wellFounded.induction with
    | h state ih =>
      intro reached
      cases stepped : step state with
      | next next =>
        exact (ends_iff_of_next stepped).mpr
          (ih next (goesDown state next reached stepped) (reached.tail stepped))
      | stop result => exact ends_of_stop stepped
  exact fromReached start .refl

theorem iterate_mono {fuel more : Nat} {start : State} {result : Result} (enough : fuel ≤ more)
    (found : iterate step fuel start = some result) : iterate step more start = some result := by
  induction fuel generalizing start more with
  | zero => cases found
  | succ fuel ih =>
      obtain ⟨more, rfl⟩ : ∃ other, more = other + 1 := ⟨more - 1, by omega⟩
      cases stepped : step start with
      | next next =>
          rw [iterate, stepped] at found ⊢
          exact ih (by omega) found
      | stop result' =>
          rw [iterate, stepped] at found ⊢
          exact found

/-- A loop has one result. -/
theorem iterate_unique {fuel other : Nat} {start : State} {result result' : Result}
    (found : iterate step fuel start = some result)
    (found' : iterate step other start = some result') : result = result' := by
  have first := iterate_mono (Nat.le_max_left fuel other) found
  have second := iterate_mono (Nat.le_max_right fuel other) found'
  exact Option.some.inj (first.symm.trans second)

/-- The result from a reached state is the one from the start. -/
theorem Reached.exists_iterate {start state : State} (reached : Reached step start state)
    {fuel : Nat} {result : Result} (found : iterate step fuel state = some result) :
    ∃ fuel, iterate step fuel start = some result := by
  induction reached generalizing fuel with
  | refl => exact ⟨fuel, found⟩
  | tail _ stepped ih => exact @ih (fuel + 1) (by rw [iterate, stepped]; exact found)

/-- A loop that does not end goes on from every state at its head. -/
theorem exists_next_of_not_ends {start : State} (runs : ¬ Ends step start) :
    ∃ next, step start = .next next ∧ ¬ Ends step next := by
  cases stepped : step start with
  | next next => exact ⟨next, rfl, fun ends => runs ((ends_iff_of_next stepped).mpr ends)⟩
  | stop result => exact absurd (ends_of_stop stepped) runs

theorem not_ends_of_keeps {kind : State → Prop}
    (keeps : ∀ state, kind state → ∃ next, step state = .next next ∧ kind next)
    {start : State} (isKind : kind start) : ¬ Ends step start := by
  rintro ⟨fuel, result, found⟩
  induction fuel generalizing start with
  | zero => cases found
  | succ fuel ih =>
      obtain ⟨next, stepped, isKind⟩ := keeps start isKind
      rw [iterate, stepped] at found
      exact ih isKind found

theorem Reached.position_le {position : State → Nat} {start state later : State}
    (grows : ∀ state next, Reached step start state → step state = .next next →
      position state ≤ position next)
    (reached : Reached step start state) (goesOn : Reached step state later) :
    position state ≤ position later := by
  induction goesOn with
  | refl => exact Nat.le_refl _
  | tail onWay stepped ih => exact Nat.le_trans ih (grows _ _ (reached.trans onWay) stepped)

theorem exists_settled (position : State → Nat) (bound : Nat) {start : State}
    (grows : ∀ state next, Reached step start state → step state = .next next →
      position state ≤ position next)
    (bounded : ∀ state, Reached step start state → position state ≤ bound) :
    ∃ settled, Reached step start settled ∧
      ∀ state, Reached step settled state → position state = position settled := by
  have fromReached : ∀ (distance : Nat) (state : State), Reached step start state →
      bound - position state ≤ distance →
      ∃ settled, Reached step start settled ∧
        ∀ state, Reached step settled state → position state = position settled := by
    intro distance
    induction distance with
    | zero =>
        intro state reached near
        refine ⟨state, reached, ?_⟩
        intro later goesOn
        have high := bounded later (reached.trans goesOn)
        have low := reached.position_le grows goesOn
        omega
    | succ distance ih =>
        intro state reached near
        by_cases stays : ∀ later, Reached step state later → position later = position state
        · exact ⟨state, reached, stays⟩
        · simp only [not_forall] at stays
          obtain ⟨later, goesOn, moved⟩ := stays
          have high := bounded later (reached.trans goesOn)
          have low := reached.position_le grows goesOn
          exact ih later (reached.trans goesOn) (by omega)
  exact fromReached (bound - position start) start .refl (Nat.le_refl _)

end AdvancingLoop
