import HdacNode.BlockIdentity

/-!
# Merkle branches

`BuildMerkleTree` keeps the rows of the tree one behind the other in one
vector, `GetMerkleBranch` picks a sibling out of each of them, and
`CheckMerkleBranch` folds the siblings back into a root.  All three work with
positions in the vector.  Each step of a branch stands for one row: the node
at half the index of the row above is the node combined with its sibling, and
the last node of an odd row is its own sibling.
-/

namespace HdacNode

namespace MerkleTree

section Rows

variable {Node : Type}

theorem getElem?_rowPairs {row : List Node} {position : Nat} {left right : Node}
    (isLeft : row[2 * position]? = some left)
    (isRight : row[min (2 * position + 1) (row.length - 1)]? = some right) :
    (rowPairs row)[position]? = some (left, right) := by
  induction row using rowPairs.induct generalizing position with
  | case1 => simp at isLeft
  | case2 last =>
      cases position with
      | zero =>
          have sameLeft : last = left := by simpa using isLeft
          have sameRight : last = right := by simpa using isRight
          simp [rowPairs, sameLeft, ← sameRight]
      | succ position => simp at isLeft
  | case3 first second rest ih =>
      cases position with
      | zero =>
          have sameLeft : first = left := by simpa using isLeft
          have sameRight : second = right := by simpa using isRight
          simp [rowPairs, sameLeft, sameRight]
      | succ position =>
          have restLeft : rest[2 * position]? = some left := by
            rw [← isLeft]
            rfl
          obtain ⟨before, -⟩ := List.getElem?_eq_some_iff.1 restLeft
          have behind : min (2 * (position + 1) + 1) ((first :: second :: rest).length - 1) =
              min (2 * position + 1) (rest.length - 1) + 2 := by
            simp only [List.length_cons]
            omega
          rw [behind] at isRight
          exact ih restLeft isRight

theorem endsInTwins_iff [DecidableEq Node] (row : List Node) :
    endsInTwins row = true ↔
      ∃ position, row.length = 2 * position + 2 ∧
        row[2 * position]? = row[2 * position + 1]? := by
  induction row using endsInTwins.induct with
  | case1 => simp [endsInTwins]
  | case2 last =>
      simp only [endsInTwins, Bool.false_eq_true, List.length_singleton, false_iff, not_exists,
        not_and]
      intro position isLength
      omega
  | case3 first second =>
      simp only [endsInTwins, decide_eq_true_eq, List.length_cons, List.length_nil]
      constructor
      · intro same
        exact ⟨0, rfl, by simp [same]⟩
      · rintro ⟨position, isLength, same⟩
        obtain rfl : position = 0 := by omega
        simpa using same
  | case4 first second third rest ih =>
      rw [endsInTwins, ih]
      constructor
      · rintro ⟨position, isLength, same⟩
        refine ⟨position + 1, by simpa [Nat.mul_add] using isLength, ?_⟩
        rw [Nat.mul_add]
        exact same
      · rintro ⟨position, isLength, same⟩
        simp only [List.length_cons] at isLength
        obtain ⟨before, rfl⟩ : ∃ before, position = before + 1 := ⟨position - 1, by omega⟩
        refine ⟨before, by simp only [List.length_cons]; omega, ?_⟩
        rw [Nat.mul_add] at same
        exact same

variable (combine : Node → Node → Node)

theorem getElem?_nextRow {row : List Node} {position : Nat} {left right : Node}
    (isLeft : row[2 * position]? = some left)
    (isRight : row[min (2 * position + 1) (row.length - 1)]? = some right) :
    (nextRow combine row)[position]? = some (combine left right) := by
  rw [nextRow, List.getElem?_map, getElem?_rowPairs isLeft isRight, Option.map_some]

end Rows

end MerkleTree

namespace FullBlock

section Builder

variable (nodeHash : Hash → Hash → Hash)

/-- One round of the inner loop of `BuildMerkleTree`. -/
def pushNode (j nSize : Nat) (built : List Hash × Bool) (i : Nat) : List Hash × Bool :=
  let i2 := min (i + 1) (nSize - 1)
  let left := built.1.getD (j + i) 0
  let right := built.1.getD (j + i2) 0
  (built.1 ++ [nodeHash left right],
    if i2 = i + 1 ∧ i2 + 1 = nSize ∧ left = right then true else built.2)

/-- The inner loop of `BuildMerkleTree`, over every second position of a row. -/
def pushRow (j nSize : Nat) (built : List Hash × Bool) : List Hash × Bool :=
  (List.range ((nSize + 1) / 2)).foldl
    (fun built position => pushNode nodeHash j nSize built (2 * position)) built

/-- The outer loop of `BuildMerkleTree`, for a number of rows at most. -/
def pushRows : Nat → Nat → Nat → List Hash × Bool → List Hash × Bool
  | 0, _, _, built => built
  | fuel + 1, j, nSize, built =>
      if 1 < nSize then pushRows fuel (j + nSize) ((nSize + 1) / 2) (pushRow nodeHash j nSize built)
      else built

variable {nodeHash}

theorem pushRow_prefix (before row : List Hash) (mutated : Bool) {rounds : Nat}
    (within : rounds ≤ (row.length + 1) / 2) :
    (List.range rounds).foldl (fun built position =>
        pushNode nodeHash before.length row.length built (2 * position)) (before ++ row, mutated) =
      (before ++ row ++ (MerkleTree.nextRow nodeHash row).take rounds,
        mutated || decide (∃ position < rounds, row.length = 2 * position + 2 ∧
          row[2 * position]? = row[2 * position + 1]?)) := by
  induction rounds with
  | zero => simp
  | succ rounds ih =>
      have leftInside : 2 * rounds < row.length := by omega
      have rightInside : min (2 * rounds + 1) (row.length - 1) < row.length := by omega
      obtain ⟨left, isLeft⟩ : ∃ left, row[2 * rounds]? = some left :=
        ⟨_, List.getElem?_eq_getElem leftInside⟩
      obtain ⟨right, isRight⟩ : ∃ right,
          row[min (2 * rounds + 1) (row.length - 1)]? = some right :=
        ⟨_, List.getElem?_eq_getElem rightInside⟩
      have readLeft : ∀ pushed : List Hash,
          (before ++ row ++ pushed).getD (before.length + 2 * rounds) 0 = left := by
        intro pushed
        rw [List.getD_eq_getElem?_getD, List.append_assoc,
          List.getElem?_append_right (by omega), Nat.add_sub_cancel_left,
          List.getElem?_append_left leftInside, isLeft]
        rfl
      have readRight : ∀ pushed : List Hash,
          (before ++ row ++ pushed).getD
            (before.length + min (2 * rounds + 1) (row.length - 1)) 0 = right := by
        intro pushed
        rw [List.getD_eq_getElem?_getD, List.append_assoc,
          List.getElem?_append_right (by omega), Nat.add_sub_cancel_left,
          List.getElem?_append_left rightInside, isRight]
        rfl
      rw [List.range_succ, List.foldl_append, ih (by omega), List.foldl_cons, List.foldl_nil,
        pushNode, readLeft, readRight]
      have above := MerkleTree.getElem?_nextRow nodeHash isLeft isRight
      ext1
      · rw [List.take_add_one, above]
        simp
      · dsimp only
        by_cases twins : row.length = 2 * rounds + 2 ∧
            row[2 * rounds]? = row[2 * rounds + 1]?
        · have position : min (2 * rounds + 1) (row.length - 1) = 2 * rounds + 1 := by omega
          have same : left = right := by
            apply Option.some.inj
            rw [← isLeft, ← isRight, position]
            exact twins.2
          have found : ∃ position < rounds + 1, row.length = 2 * position + 2 ∧
              row[2 * position]? = row[2 * position + 1]? :=
            ⟨rounds, Nat.lt_succ_self _, twins⟩
          rw [if_pos ⟨position, by omega, same⟩, decide_eq_true found, Bool.or_true]
        · have notNow : ¬ (min (2 * rounds + 1) (row.length - 1) = 2 * rounds + 1 ∧
              min (2 * rounds + 1) (row.length - 1) + 1 = row.length ∧ left = right) := by
            rintro ⟨position, atEnd, same⟩
            apply twins
            refine ⟨by omega, ?_⟩
            rw [position] at isRight
            rw [isLeft, isRight, same]
          have sameSearch : (∃ position < rounds + 1, row.length = 2 * position + 2 ∧
              row[2 * position]? = row[2 * position + 1]?) ↔
              ∃ position < rounds, row.length = 2 * position + 2 ∧
                row[2 * position]? = row[2 * position + 1]? := by
            constructor
            · rintro ⟨position, inside, found⟩
              rcases Nat.lt_succ_iff_lt_or_eq.1 inside with earlier | rfl
              · exact ⟨position, earlier, found⟩
              · exact absurd found twins
            · rintro ⟨position, inside, found⟩
              exact ⟨position, by omega, found⟩
          rw [if_neg notNow, decide_eq_decide.2 sameSearch]

theorem pushRow_eq (before row : List Hash) (mutated : Bool) :
    pushRow nodeHash before.length row.length (before ++ row, mutated) =
      (before ++ row ++ MerkleTree.nextRow nodeHash row,
        mutated || MerkleTree.endsInTwins row) := by
  rw [pushRow, pushRow_prefix before row mutated le_rfl]
  have whole : (MerkleTree.nextRow nodeHash row).take ((row.length + 1) / 2) =
      MerkleTree.nextRow nodeHash row :=
    List.take_of_length_le (MerkleTree.length_nextRow nodeHash row).le
  have sameSearch : decide (∃ position < (row.length + 1) / 2, row.length = 2 * position + 2 ∧
      row[2 * position]? = row[2 * position + 1]?) = MerkleTree.endsInTwins row := by
    rw [Bool.eq_iff_iff, decide_eq_true_eq, MerkleTree.endsInTwins_iff]
    constructor
    · rintro ⟨position, -, found⟩
      exact ⟨position, found⟩
    · rintro ⟨position, found⟩
      exact ⟨position, by omega, found⟩
  rw [whole, sameSearch]

/-- The loops of `BuildMerkleTree` write the rows of the tree one behind the other. -/
theorem pushRows_eq {fuel : Nat} {row : List Hash} (enough : row.length ≤ fuel) (rounds : Nat)
    (before : List Hash) (mutated : Bool) :
    pushRows nodeHash (fuel + rounds) before.length row.length (before ++ row, mutated) =
      (before ++ (MerkleTree.build nodeHash fuel row).1,
        mutated || (MerkleTree.build nodeHash fuel row).2) := by
  induction fuel generalizing before row mutated with
  | zero =>
      obtain rfl := List.length_eq_zero_iff.mp (Nat.le_zero.mp enough)
      cases rounds <;> simp [pushRows, MerkleTree.build]
  | succ fuel ih =>
      rw [Nat.succ_add, pushRows, MerkleTree.build]
      by_cases more : 1 < row.length
      · have above := @ih (MerkleTree.nextRow nodeHash row)
          (by rw [MerkleTree.length_nextRow]; omega) (before ++ row)
          (mutated || MerkleTree.endsInTwins row)
        rw [List.length_append, MerkleTree.length_nextRow] at above
        rw [if_pos more, if_neg (by omega), pushRow_eq, above]
        simp [Bool.or_assoc]
      · rw [if_neg more, if_pos (by omega)]
        simp

/-- The tree of a block is what the loops of `BuildMerkleTree` make of its leaves. -/
theorem merkleTree_eq_pushRows (functions : BlockFunctions) (block : FullBlock) (rounds : Nat) :
    block.merkleTree functions =
      pushRows functions.nodeHash (block.vtx.length + rounds) 0 block.vtx.length
        (block.merkleLeaves functions, false) := by
  have sameLength : (block.merkleLeaves functions).length = block.vtx.length := by
    simp [merkleLeaves]
  have loops := @pushRows_eq functions.nodeHash _ _ sameLength.le rounds [] false
  rw [List.length_nil, List.nil_append, sameLength] at loops
  rw [loops, merkleTree]
  simp

end Builder

section Branch

/-- The loop of `GetMerkleBranch`, for a number of rows at most. -/
def branchFrom (vMerkleTree : List Hash) : Nat → Nat → Nat → Nat → Option (List Hash)
  | 0, _, _, _ => some []
  | fuel + 1, nIndex, j, nSize =>
      if 1 < nSize then do
        let sibling ← vMerkleTree[j + min (nIndex ^^^ 1) (nSize - 1)]?
        let above ← branchFrom vMerkleTree fuel (nIndex >>> 1) (j + nSize) ((nSize + 1) / 2)
        return sibling :: above
      else some []

/-- `GetMerkleBranch`, which builds the tree when there is none; nothing where it reads behind
the tree. -/
def getMerkleBranch (functions : BlockFunctions) (block : FullBlock) (nIndex : Nat) :
    Option (List Hash) :=
  let built := if block.vMerkleTree = [] then block.buildMerkleTree functions else block
  branchFrom built.vMerkleTree block.vtx.length nIndex 0 block.vtx.length

/-- One round of the loop of `CheckMerkleBranch`. -/
def foldSibling (nodeHash : Hash → Hash → Hash) (reached : Hash × Int) (sibling : Hash) :
    Hash × Int :=
  (if reached.2 % 2 = 1 then nodeHash sibling reached.1 else nodeHash reached.1 sibling,
    reached.2 >>> (1 : Nat))

/-- `CheckMerkleBranch`. -/
def checkMerkleBranch (functions : BlockFunctions) (hash : Hash) (vMerkleBranch : List Hash)
    (nIndex : Int) : Hash :=
  if nIndex = -1 then 0
  else (vMerkleBranch.foldl (foldSibling functions.nodeHash) (hash, nIndex)).1

theorem foldSibling_nextRow {nodeHash : Hash → Hash → Hash} {row : List Hash} {index : Nat}
    {node sibling : Hash} (isNode : row[index]? = some node)
    (isSibling : row[min (index ^^^ 1) (row.length - 1)]? = some sibling) :
    ∃ above, foldSibling nodeHash (node, index) sibling = (above, ((index >>> 1 : Nat) : Int)) ∧
      (MerkleTree.nextRow nodeHash row)[index >>> 1]? = some above := by
  have half : index >>> 1 = index / 2 := Nat.shiftRight_one index
  have halfInt : (index : Int) >>> (1 : Nat) = ((index >>> 1 : Nat) : Int) := rfl
  obtain ⟨inside, -⟩ := List.getElem?_eq_some_iff.1 isNode
  rcases Nat.even_or_odd index with isEven | isOdd
  · have parity : ¬ (index : Int) % 2 = 1 := by
      have := Nat.even_iff.1 isEven
      omega
    refine ⟨nodeHash node sibling, ?_, ?_⟩
    · rw [foldSibling, if_neg parity, halfInt]
    · have position : index = 2 * (index / 2) := by
        have := Nat.even_iff.1 isEven
        omega
      rw [Nat.xor_one_of_even isEven] at isSibling
      rw [half]
      apply MerkleTree.getElem?_nextRow
      · rw [← position]
        exact isNode
      · rw [← position]
        exact isSibling
  · have parity : (index : Int) % 2 = 1 := by
      have := Nat.odd_iff.1 isOdd
      omega
    refine ⟨nodeHash sibling node, ?_, ?_⟩
    · rw [foldSibling, if_pos parity, halfInt]
    · have position : index = 2 * (index / 2) + 1 := by
        have := Nat.odd_iff.1 isOdd
        omega
      have left : min (index - 1) (row.length - 1) = 2 * (index / 2) := by omega
      have right : min (2 * (index / 2) + 1) (row.length - 1) = index := by omega
      rw [Nat.xor_one_of_odd isOdd, left] at isSibling
      rw [half]
      apply MerkleTree.getElem?_nextRow _ isSibling
      rw [right]
      exact isNode

theorem branchFrom_folds {nodeHash : Hash → Hash → Hash} (fuel : Nat) (before row : List Hash)
    {index : Nat} {node : Hash} (enough : row.length ≤ fuel) (isNode : row[index]? = some node) :
    ∃ branch, branchFrom (before ++ (MerkleTree.build nodeHash fuel row).1) fuel index
        before.length row.length = some branch ∧
      (MerkleTree.build nodeHash fuel row).1.getLast? =
        some (branch.foldl (foldSibling nodeHash) (node, (index : Int))).1 := by
  induction fuel generalizing before row index node with
  | zero =>
      obtain ⟨inside, -⟩ := List.getElem?_eq_some_iff.1 isNode
      omega
  | succ fuel ih =>
      obtain ⟨inside, -⟩ := List.getElem?_eq_some_iff.1 isNode
      rw [branchFrom, MerkleTree.build]
      by_cases more : 1 < row.length
      · rw [if_pos more, if_neg (by omega)]
        dsimp only
        have siblingInside : min (index ^^^ 1) (row.length - 1) < row.length := by omega
        have isSibling := List.getElem?_eq_getElem siblingInside
        obtain ⟨above, folded, isAbove⟩ :=
          @foldSibling_nextRow nodeHash _ _ _ _ isNode isSibling
        have nextLength := MerkleTree.length_nextRow nodeHash row
        obtain ⟨branch, read, root⟩ := ih (before ++ row) (MerkleTree.nextRow nodeHash row)
          (by omega) isAbove
        rw [List.length_append, nextLength, List.append_assoc] at read
        have readSibling : (before ++ (row ++
            (MerkleTree.build nodeHash fuel (MerkleTree.nextRow nodeHash row)).1))[
              before.length + min (index ^^^ 1) (row.length - 1)]? =
            some row[min (index ^^^ 1) (row.length - 1)] := by
          rw [List.getElem?_append_right (by omega), Nat.add_sub_cancel_left,
            List.getElem?_append_left siblingInside, isSibling]
        refine ⟨row[min (index ^^^ 1) (row.length - 1)] :: branch, ?_, ?_⟩
        · rw [readSibling]
          simp [read]
        · rw [List.foldl_cons, folded, List.getLast?_append, root, Option.some_or]
      · rw [if_neg more, if_pos (by omega)]
        refine ⟨[], rfl, ?_⟩
        obtain rfl : index = 0 := by omega
        obtain ⟨only, rfl⟩ := List.length_eq_one_iff.1 (by omega : row.length = 1)
        rw [List.getLast?_singleton, List.foldl_nil]
        exact isNode

/-- The branch of a transaction leads from the hash under which the tree has it to the root that
`BuildMerkleTree` returns, whether the tree is there already or built for the branch. -/
theorem merkleBranch_verifies (functions : BlockFunctions) (block : FullBlock) (nIndex : Nat)
    (inside : nIndex < block.vtx.length) :
    ∀ built ∈ [block.buildMerkleTree functions, { block with vMerkleTree := [] }],
      ∃ branch, built.getMerkleBranch functions nIndex = some branch ∧
        checkMerkleBranch functions
          (functions.txHash (committedTx functions block.nMerkleTreeType block.vtx[nIndex]))
          branch nIndex = block.merkleRoot functions := by
  have leaf : (block.merkleLeaves functions)[nIndex]? = some
      (functions.txHash (committedTx functions block.nMerkleTreeType block.vtx[nIndex])) := by
    rw [merkleLeaves, List.getElem?_map, List.getElem?_eq_getElem inside, Option.map_some]
  have sameLength : (block.merkleLeaves functions).length = block.vtx.length := by
    simp [merkleLeaves]
  obtain ⟨branch, read, root⟩ := @branchFrom_folds functions.nodeHash
    block.vtx.length [] (block.merkleLeaves functions) _ _ sameLength.le leaf
  rw [List.nil_append, List.length_nil, sameLength] at read
  intro built member
  refine ⟨branch, ?_, ?_⟩
  · have tree : (if built.vMerkleTree = [] then built.buildMerkleTree functions
        else built).vMerkleTree = (block.merkleTree functions).1 := by
      rcases List.mem_pair.1 member with rfl | rfl
      · split <;> rfl
      · rw [if_pos rfl]
        rfl
    have sameTxs : built.vtx = block.vtx := by
      rcases List.mem_pair.1 member with rfl | rfl <;> rfl
    rw [getMerkleBranch, tree, sameTxs]
    exact read
  · have notNone : (nIndex : Int) ≠ -1 := by omega
    rw [checkMerkleBranch, if_neg notNone, merkleRoot, merkleTree, root]
    rfl

/-- The branch of the second of two transactions. -/
theorem merkleBranch_verifies_second :
    ∃ branch, ((rewardBlock []).buildMerkleTree countingFunctions).getMerkleBranch
        countingFunctions 1 = some branch ∧
      checkMerkleBranch countingFunctions (countingFunctions.txHash (committedTx countingFunctions
          .unknown (rewardBlock []).vtx[1])) branch 1 =
        (rewardBlock []).merkleRoot countingFunctions :=
  merkleBranch_verifies countingFunctions (rewardBlock []) 1 (by decide) _ List.mem_cons_self

/-- In a tree without the outputs of the coinbase transaction that cannot be spent, the id of that
transaction is not what the branch leads from. -/
theorem coinbase_branch_fails :
    ∃ block branch, block = { signedBlock with nMerkleTreeType := .noCoinbaseOpReturn } ∧
      (block.buildMerkleTree countingFunctions).getMerkleBranch countingFunctions 0 =
        some branch ∧
      checkMerkleBranch countingFunctions (countingFunctions.txHash (signedBlock.vtx[0]))
        branch 0 ≠ block.merkleRoot countingFunctions :=
  ⟨{ signedBlock with nMerkleTreeType := .noCoinbaseOpReturn }, [2], rfl, by decide +kernel,
    by decide +kernel⟩

end Branch

end FullBlock

end HdacNode
