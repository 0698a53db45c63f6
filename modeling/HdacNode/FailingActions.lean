import Mathlib.Data.List.Basic

/-!
# Actions that fail with a state

An action on a state may stop with an error; the state it has reached by then stays.
Actions are built from elementary ones.  A preorder that every elementary action moves
along holds between the states before and behind any action built from them.
-/

namespace HdacNode.FailingActions

variable {Err State α β γ : Type}

/-- Read a part of the state. -/
def query (read : State → α) : EStateM Err State α :=
  fun s => .ok (read s) s

/-- Change the state and answer. -/
def update (change : State → α × State) : EStateM Err State α :=
  fun s => .ok (change s).1 (change s).2

/-- The state behind an action, whether it failed or not. -/
def stateAfter : EStateM.Result Err State α → State
  | .ok _ s => s
  | .error _ s => s

/-- The answer of an action, if it did not fail. -/
def answer : EStateM.Result Err State α → Option α
  | .ok a _ => some a
  | .error _ _ => none

theorem bind_apply (act : EStateM Err State α) (next : α → EStateM Err State β) (s : State) :
    (act >>= next) s =
      match act s with
      | .ok a s => next a s
      | .error err s => .error err s :=
  rfl

/-- A sequence of actions ends well when both of them do. -/
theorem bind_eq_ok {act : EStateM Err State α} {next : α → EStateM Err State β} {s t : State}
    {b : β} : (act >>= next) s = .ok b t ↔ ∃ a u, act s = .ok a u ∧ next a u = .ok b t := by
  rw [bind_apply]
  cases act s with
  | ok a u => simp
  | error err u => simp

/-- Actions that are put together from elementary ones. -/
inductive BuiltFrom (Elementary : (α : Type) → EStateM Err State α → Prop) :
    (α : Type) → EStateM Err State α → Prop
  | elementary {α : Type} {act : EStateM Err State α} (step : Elementary α act) :
      BuiltFrom Elementary α act
  | pure {α : Type} (a : α) : BuiltFrom Elementary α (pure a)
  | throw {α : Type} (err : Err) : BuiltFrom Elementary α (throw err)
  | bind {α β : Type} {act : EStateM Err State α} {next : α → EStateM Err State β}
      (first : BuiltFrom Elementary α act) (rest : ∀ a, BuiltFrom Elementary β (next a)) :
      BuiltFrom Elementary β (act >>= next)

namespace BuiltFrom

variable {Elementary : (α : Type) → EStateM Err State α → Prop}

theorem forM {items : List γ} {body : γ → EStateM Err State PUnit}
    (steps : ∀ item ∈ items, BuiltFrom Elementary PUnit (body item)) :
    BuiltFrom Elementary PUnit (items.forM body) := by
  induction items with
  | nil => exact .pure _
  | cons item items ih =>
      apply BuiltFrom.bind (steps item (List.mem_cons_self ..))
      exact fun _ => ih fun other member => steps other (List.mem_cons_of_mem _ member)

theorem foldlM {items : List γ} {body : β → γ → EStateM Err State β}
    (steps : ∀ acc, ∀ item ∈ items, BuiltFrom Elementary β (body acc item)) (start : β) :
    BuiltFrom Elementary β (items.foldlM body start) := by
  induction items generalizing start with
  | nil => exact .pure _
  | cons item items ih =>
      rw [List.foldlM_cons]
      apply BuiltFrom.bind (steps start item (List.mem_cons_self ..))
      exact fun acc => ih (fun acc other member =>
        steps acc other (List.mem_cons_of_mem _ member)) acc

end BuiltFrom

/-- The action leads from a state to one that it is related to. -/
def Moves (related : State → State → Prop) (act : EStateM Err State α) : Prop :=
  ∀ s, related s (stateAfter (act s))

/-- What the elementary actions move along, the actions built from them move along. -/
theorem BuiltFrom.moves {Elementary : (α : Type) → EStateM Err State α → Prop}
    {related : State → State → Prop} [IsPreorder State related] {act : EStateM Err State α}
    (built : BuiltFrom Elementary α act)
    (steps : ∀ α act, Elementary α act → Moves related act) : Moves related act := by
  induction built with
  | elementary step => exact steps _ _ step
  | pure a => exact fun s => refl_of related s
  | throw err => exact fun s => refl_of related s
  | bind first rest firstIH restIH =>
      intro s
      have moved := firstIH s
      rw [bind_apply]
      split
      · rename_i a after result
        rw [result] at moved
        exact trans_of related moved (restIH a after)
      · rename_i err after result
        rw [result] at moved
        exact moved

section Moving

variable {related : State → State → Prop} [IsPreorder State related]

omit [IsPreorder State related] in
theorem Moves.mono {other : State → State → Prop} {act : EStateM Err State α}
    (moves : Moves related act) (weaker : ∀ s t, related s t → other s t) : Moves other act :=
  fun s => weaker _ _ (moves s)

theorem moves_pure (a : α) : Moves related (pure a : EStateM Err State α) :=
  fun s => refl_of related s

theorem moves_throw (err : Err) : Moves related (throw err : EStateM Err State α) :=
  fun s => refl_of related s

theorem moves_query (read : State → α) : Moves related (query read : EStateM Err State α) :=
  fun s => refl_of related s

omit [IsPreorder State related] in
theorem moves_update {change : State → α × State} (along : ∀ s, related s (change s).2) :
    Moves related (update change : EStateM Err State α) :=
  along

theorem Moves.bind {act : EStateM Err State α} {next : α → EStateM Err State β}
    (first : Moves related act) (rest : ∀ a, Moves related (next a)) :
    Moves related (act >>= next) := by
  have built : BuiltFrom (fun _ act => @Moves Err State _ related act) β (act >>= next) :=
    .bind (.elementary first) fun a => .elementary (rest a)
  exact built.moves fun _ _ moves => moves

theorem Moves.forM {items : List γ} {body : γ → EStateM Err State PUnit}
    (steps : ∀ item ∈ items, Moves related (body item)) : Moves related (items.forM body) := by
  have built : BuiltFrom (fun _ act => @Moves Err State _ related act) PUnit (items.forM body) :=
    .forM fun item member => .elementary (steps item member)
  exact built.moves fun _ _ moves => moves

theorem Moves.foldlM {items : List γ} {body : β → γ → EStateM Err State β}
    (steps : ∀ acc, ∀ item ∈ items, Moves related (body acc item)) (start : β) :
    Moves related (items.foldlM body start) := by
  have built : BuiltFrom (fun _ act => @Moves Err State _ related act) β
      (items.foldlM body start) :=
    .foldlM (fun acc item member => .elementary (steps acc item member)) start
  exact built.moves fun _ _ moves => moves

omit [IsPreorder State related] in
theorem Moves.ite {condition : Prop} [Decidable condition] {first second : EStateM Err State α}
    (yes : Moves related first) (no : Moves related second) :
    Moves related (if condition then first else second) := by
  split
  · exact yes
  · exact no

omit [IsPreorder State related] in
theorem Moves.of_ok {act : EStateM Err State α} (moves : Moves related act) {s t : State} {a : α}
    (done : act s = .ok a t) : related s t := by
  have along := moves s
  rw [done] at along
  exact along

end Moving

end HdacNode.FailingActions
