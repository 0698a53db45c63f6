import Mathlib.Data.List.Basic

/-!
# Loops that write a table key by key

A loop over distinct keys of a table writes under each key a value that depends on what
the table holds there.  No iteration sees what another one wrote, so the order of the
keys does not matter.  A write may fail, and the loop fails with it.
-/

namespace KeyedWrites

variable {Key Value : Type} [DecidableEq Key]

section Total

variable (write : Key → Value → Value)

/-- Write the value of a key. -/
def writeKey (table : Key → Value) (key : Key) : Key → Value :=
  Function.update table key (write key (table key))

theorem foldl_writeKey {order : List Key} (distinct : order.Nodup) (table : Key → Value)
    (key : Key) :
    order.foldl (writeKey write) table key =
      if key ∈ order then write key (table key) else table key := by
  induction order generalizing table with
  | nil => rfl
  | cons first rest ih =>
      have firstOnce := (List.nodup_cons.mp distinct).1
      rw [List.foldl_cons, ih (List.nodup_cons.mp distinct).2]
      unfold writeKey
      by_cases same : key = first
      · subst same
        rw [if_neg firstOnce, if_pos List.mem_cons_self, Function.update_self]
      · rw [Function.update_of_ne same]
        simp only [List.mem_cons, same, false_or]

end Total

section Failing

variable (write : Key → Value → Option Value)

/-- Write the value of a key, unless the write fails. -/
def tryKey (table : Key → Value) (key : Key) : Option (Key → Value) :=
  (write key (table key)).map (Function.update table key)

/-- A loop over distinct keys succeeds when each write does on the table before the
loop, and it leaves the values of these writes. -/
theorem foldlM_tryKey {order : List Key} (distinct : order.Nodup) {table : Key → Value}
    {result : Key → Value}
    (written : ∀ key ∈ order, write key (table key) = some (result key)) :
    order.foldlM (tryKey write) table =
      some fun key => if key ∈ order then result key else table key := by
  induction order generalizing table with
  | nil => simp
  | cons first rest ih =>
      have firstOnce := (List.nodup_cons.mp distinct).1
      have firstWritten : tryKey write table first =
          some (Function.update table first (result first)) := by
        rw [tryKey, written first List.mem_cons_self]
        rfl
      have restWritten : ∀ key ∈ rest,
          write key (Function.update table first (result first) key) = some (result key) := by
        intro key inRest
        have different : key ≠ first := fun same => firstOnce (same ▸ inRest)
        rw [Function.update_of_ne different]
        exact written key (List.mem_cons_of_mem first inRest)
      rw [List.foldlM_cons, firstWritten, Option.bind_eq_bind, Option.bind_some,
        ih (List.nodup_cons.mp distinct).2 restWritten]
      congr 1
      funext key
      by_cases same : key = first
      · subst same
        rw [if_neg firstOnce, if_pos List.mem_cons_self, Function.update_self]
      · rw [Function.update_of_ne same]
        simp only [List.mem_cons, same, false_or]

end Failing

end KeyedWrites
