import Mathlib.Data.Set.Function

/-!
# Merkle trees that repeat the last node of an odd row

A row is combined pair by pair to the next one, and the last node of an odd row with
itself, until one node is left.  Rows of different lengths can give the same next row only
if the longer one ends in twins.  Without twins in any row, without collisions and with
leaves apart from the inner nodes, the root commits to the list of leaves.
-/

namespace HdacNode.MerkleTree

variable {Node : Type}

/-- The pairs that are combined in a row. -/
def rowPairs : List Node → List (Node × Node)
  | [] => []
  | [last] => [(last, last)]
  | first :: second :: rest => (first, second) :: rowPairs rest

/-- A row of even length ends with a pair of equal nodes. -/
def endsInTwins [DecidableEq Node] : List Node → Bool
  | [] => false
  | [_] => false
  | [first, second] => decide (first = second)
  | _ :: _ :: third :: rest => endsInTwins (third :: rest)

/-- Lists of values without collisions are given by their images. -/
theorem eq_of_map_injOn {Value Image : Type} {image : Value → Image} {hashed : Set Value}
    (noCollision : hashed.InjOn image) {values values' : List Value}
    (isHashed : ∀ value ∈ values, value ∈ hashed)
    (isHashed' : ∀ value ∈ values', value ∈ hashed)
    (same : values.map image = values'.map image) : values = values' := by
  induction values generalizing values' with
  | nil => exact (List.map_eq_nil_iff.mp same.symm).symm
  | cons value values ih =>
      cases values' with
      | nil => cases same
      | cons value' values' =>
          obtain ⟨sameHead, sameTail⟩ := List.cons.inj same
          rw [noCollision (isHashed value (List.mem_cons_self ..))
            (isHashed' value' (List.mem_cons_self ..)) sameHead,
            ih (fun other member => isHashed other (List.mem_cons_of_mem _ member))
              (fun other member => isHashed' other (List.mem_cons_of_mem _ member)) sameTail]

section Pairs

theorem rowPairs_ne_nil {row : List Node} (notEmpty : row ≠ []) : rowPairs row ≠ [] := by
  match row, notEmpty with
  | [_], _ => exact List.cons_ne_nil _ _
  | _ :: _ :: _, _ => exact List.cons_ne_nil _ _

theorem eq_nil_of_rowPairs {row : List Node} (isNil : rowPairs row = []) : row = [] := by
  by_contra notEmpty
  exact rowPairs_ne_nil notEmpty isNil

theorem length_rowPairs (row : List Node) : (rowPairs row).length = (row.length + 1) / 2 := by
  induction row using rowPairs.induct with
  | case1 => simp [rowPairs]
  | case2 last => simp [rowPairs]
  | case3 first second rest ih =>
      simp only [rowPairs, List.length_cons, ih]
      omega

variable [DecidableEq Node]

theorem endsInTwins_rest {first second : Node} {rest : List Node}
    (apart : endsInTwins (first :: second :: rest) = false) : endsInTwins rest = false := by
  cases rest with
  | nil => rfl
  | cons third rest => exact apart

theorem rowPairs_injective {row row' : List Node} (same : rowPairs row = rowPairs row')
    (apart : endsInTwins row = false) (apart' : endsInTwins row' = false) : row = row' := by
  induction row using rowPairs.induct generalizing row' with
  | case1 => exact (eq_nil_of_rowPairs same.symm).symm
  | case2 last =>
      match row' with
      | [] => cases same
      | [other] =>
          simp only [rowPairs, List.cons.injEq, Prod.mk.injEq, and_true, and_self] at same
          rw [same]
      | other :: another :: rest =>
          simp only [rowPairs, List.cons.injEq, Prod.mk.injEq] at same
          obtain ⟨⟨isOther, isAnother⟩, isNil⟩ := same
          rw [eq_nil_of_rowPairs isNil.symm, ← isOther, ← isAnother] at apart'
          simp [endsInTwins] at apart'
  | case3 first second rest ih =>
      match row' with
      | [] => cases same
      | [other] =>
          simp only [rowPairs, List.cons.injEq, Prod.mk.injEq] at same
          obtain ⟨⟨isFirst, isSecond⟩, isNil⟩ := same
          rw [eq_nil_of_rowPairs isNil, isFirst, isSecond] at apart
          simp [endsInTwins] at apart
      | other :: another :: rest' =>
          simp only [rowPairs, List.cons.injEq, Prod.mk.injEq] at same
          obtain ⟨⟨isOther, isAnother⟩, sameRest⟩ := same
          rw [isOther, isAnother, ih sameRest (endsInTwins_rest apart) (endsInTwins_rest apart')]

end Pairs

variable (combine : Node → Node → Node)

/-- The row above a row. -/
def nextRow (row : List Node) : List Node := (rowPairs row).map fun pair => combine pair.1 pair.2

/-- The nodes of a tree from the leaves to the root row by row, and whether a row ends in
twins, for a number of rows at most. -/
def build [DecidableEq Node] : Nat → List Node → List Node × Bool
  | 0, row => (row, false)
  | fuel + 1, row =>
      if row.length ≤ 1 then (row, false)
      else
        let above := build fuel (nextRow combine row)
        (row ++ above.1, endsInTwins row || above.2)

/-- The pairs that are combined in a tree. -/
def treePairs : Nat → List Node → List (Node × Node)
  | 0, _ => []
  | fuel + 1, row =>
      if row.length ≤ 1 then []
      else rowPairs row ++ treePairs fuel (nextRow combine row)

section Descent

variable [DecidableEq Node] {combine} {hashed : Set (Node × Node)}

/-- From a row the rows go down to the leaves without twins, and all their pairs are in a
given set. -/
inductive Descends (combine : Node → Node → Node) (hashed : Set (Node × Node)) :
    List Node → List Node → Prop
  | leaves (row : List Node) : Descends combine hashed row row
  | down {lower leaves : List Node} (apart : endsInTwins lower = false)
      (isHashed : ∀ pair ∈ rowPairs lower, pair ∈ hashed)
      (below : Descends combine hashed lower leaves) :
      Descends combine hashed (nextRow combine lower) leaves

/-- The leaves may be the row above further leaves. -/
theorem Descends.extend {top row : List Node}
    (above : Descends combine hashed top (nextRow combine row))
    (apart : endsInTwins row = false) (isHashed : ∀ pair ∈ rowPairs row, pair ∈ hashed) :
    Descends combine hashed top row := by
  generalize isNext : nextRow combine row = leaves at above
  induction above with
  | leaves other =>
      rw [← isNext]
      exact .down apart isHashed (.leaves row)
  | down apartLower hashedLower _ ih => exact .down apartLower hashedLower (ih isNext)

omit [DecidableEq Node] in
theorem length_nextRow (combine : Node → Node → Node) (row : List Node) :
    (nextRow combine row).length = (row.length + 1) / 2 := by
  unfold nextRow
  rw [List.length_map, length_rowPairs]

theorem descends_build {fuel : Nat} {row : List Node} (enough : row.length ≤ fuel)
    (notEmpty : row ≠ []) (apart : (build combine fuel row).2 = false)
    (isHashed : ∀ pair ∈ treePairs combine fuel row, pair ∈ hashed) :
    ∃ root, (build combine fuel row).1.getLast? = some root ∧
      Descends combine hashed [root] row := by
  induction fuel generalizing row with
  | zero =>
      rw [List.eq_nil_of_length_eq_zero (Nat.le_zero.mp enough)] at notEmpty
      exact absurd rfl notEmpty
  | succ fuel ih =>
      unfold build at apart ⊢
      unfold treePairs at isHashed
      by_cases single : row.length ≤ 1
      · rw [if_pos single]
        match row, notEmpty, single with
        | [root], _, _ => exact ⟨root, rfl, .leaves _⟩
      · rw [if_neg single] at apart isHashed ⊢
        dsimp only at apart ⊢
        obtain ⟨apartRow, apartAbove⟩ := Bool.or_eq_false_iff.mp apart
        have shorter := length_nextRow combine row
        have nextNotEmpty : nextRow combine row ≠ [] := by
          intro isNil
          rw [isNil, List.length_nil] at shorter
          omega
        obtain ⟨root, isRoot, descends⟩ := ih (by omega) nextNotEmpty apartAbove
          fun pair member => isHashed pair (List.mem_append_right _ member)
        refine ⟨root, ?_, descends.extend apartRow
          fun pair member => isHashed pair (List.mem_append_left _ member)⟩
        rw [List.getLast?_append, isRoot, Option.some_or]

theorem nextRow_injective (noCollision : hashed.InjOn fun pair => combine pair.1 pair.2)
    {row row' : List Node} (isHashed : ∀ pair ∈ rowPairs row, pair ∈ hashed)
    (isHashed' : ∀ pair ∈ rowPairs row', pair ∈ hashed)
    (same : nextRow combine row = nextRow combine row') (apart : endsInTwins row = false)
    (apart' : endsInTwins row' = false) : row = row' := by
  refine rowPairs_injective ?_ apart apart'
  exact eq_of_map_injOn noCollision isHashed isHashed' same

/-- Without collisions and with leaves apart from the inner nodes, a row comes from one
list of leaves only. -/
theorem Descends.leaves_eq (noCollision : hashed.InjOn fun pair => combine pair.1 pair.2)
    {top leaves leaves' : List Node} (notEmpty : top ≠ [])
    (outside : ∀ leaf ∈ leaves, ∀ pair ∈ hashed, leaf ≠ combine pair.1 pair.2)
    (outside' : ∀ leaf ∈ leaves', ∀ pair ∈ hashed, leaf ≠ combine pair.1 pair.2)
    (first : Descends combine hashed top leaves) (second : Descends combine hashed top leaves') :
    leaves = leaves' := by
  have inner : ∀ {lower : List Node}, nextRow combine lower ≠ [] →
      (∀ pair ∈ rowPairs lower, pair ∈ hashed) →
      ∃ node ∈ nextRow combine lower, ∃ pair ∈ hashed, node = combine pair.1 pair.2 := by
    intro lower nextNotEmpty isHashed
    obtain ⟨node, member⟩ := List.exists_mem_of_ne_nil _ nextNotEmpty
    obtain ⟨pair, isPair, isNode⟩ := List.mem_map.mp member
    exact ⟨node, member, pair, isHashed pair isPair, isNode.symm⟩
  induction first with
  | leaves row =>
      cases second with
      | leaves => rfl
      | down apart isHashed below =>
          obtain ⟨node, member, pair, isPair, isNode⟩ := inner notEmpty isHashed
          exact absurd isNode (outside node member pair isPair)
  | @down lower leaves apart isHashed below ih =>
      generalize isTop : nextRow combine lower = top at second notEmpty
      cases second with
      | leaves =>
          rw [← isTop] at notEmpty
          obtain ⟨node, member, pair, isPair, isNode⟩ := inner notEmpty isHashed
          rw [isTop] at member
          exact absurd isNode (outside' node member pair isPair)
      | @down lower' _ apart' isHashed' below' =>
          have same := nextRow_injective noCollision isHashed isHashed' isTop apart apart'
          have lowerNotEmpty : lower ≠ [] := by
            rintro rfl
            rw [← isTop] at notEmpty
            exact notEmpty rfl
          rw [← same] at below'
          exact ih lowerNotEmpty outside below'

end Descent

end HdacNode.MerkleTree
