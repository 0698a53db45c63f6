import HdacNode.BlockSignature

/-!
# What the header of a block commits to

`VerifyBlockSignature` puts back what it overwrites.  A header that passes with two lists of
transactions commits to both of them, up to the unspendable outputs of the coinbase of a
block with a signature of type `BLOCKSIGHASH_HEADER`.
-/

namespace HdacNode

namespace FullBlock

variable {functions : BlockFunctions}

section Restoration

/-- Transactions and header of a block stay, and its Merkle tree, or an empty tree is
filled. -/
structure Restored (functions : BlockFunctions) (block after : FullBlock) : Prop where
  vtx : after.vtx = block.vtx
  header : after.toBlockHeader = block.toBlockHeader
  tree : after.vMerkleTree = block.vMerkleTree ∨ block.vMerkleTree = [] ∧
    after.vMerkleTree = ({ block with nMerkleTreeType := .full }.merkleTree functions).1

theorem Restored.refl (block : FullBlock) : Restored functions block block :=
  ⟨rfl, rfl, .inl rfl⟩

/-- `checkSignature` writes `nSigHashType` only. -/
theorem Restored.checkSignature {block hashed after : FullBlock} {signature : BlockSignature}
    {hash : Hash} {passes : Bool} (restored : Restored functions block hashed)
    (checked : hashed.checkSignature functions signature hash = (passes, after)) :
    Restored functions block after ∧ after.nMerkleTreeType = hashed.nMerkleTreeType := by
  unfold FullBlock.checkSignature at checked
  split at checked
  · cases checked
    exact ⟨⟨restored.vtx, restored.header, restored.tree⟩, rfl⟩
  · split at checked
    · cases checked
      exact ⟨⟨restored.vtx, restored.header, restored.tree⟩, rfl⟩
    · cases checked
      exact ⟨restored, rfl⟩

theorem restored_hashWithoutSignature (functions : BlockFunctions) {block : FullBlock} {first : FullTransaction}
    {rest : List FullTransaction} (isVtx : block.vtx = first :: rest) (input : FullTxIn)
    (inputs : List FullTxIn) :
    Restored functions block (block.hashWithoutSignature functions first input inputs rest).2 := by
  unfold hashWithoutSignature
  dsimp only
  split
  · exact ⟨isVtx.symm, rfl, .inl rfl⟩
  · rename_i isEmpty
    refine ⟨isVtx.symm, rfl, .inr ⟨Decidable.not_not.mp isEmpty, ?_⟩⟩
    unfold buildMerkleTree merkleTree merkleLeaves
    rw [isVtx]

theorem nMerkleTreeType_hashWithoutSignature (block : FullBlock) (first : FullTransaction)
    (input : FullTxIn) (inputs : List FullTxIn) (rest : List FullTransaction) :
    (block.hashWithoutSignature functions first input inputs rest).2.nMerkleTreeType = .full := by
  unfold hashWithoutSignature
  dsimp only
  split <;> rfl

/-- The tree type that a signature leaves a verified block with. -/
def signedTreeType (found : Option BlockSignature) : MerkleTreeType :=
  match found with
  | some signature =>
      if signature.hashType = blockSigHashHeader then .noCoinbaseOpReturn else .full
  | none => .full

/-- What `VerifyBlockSignature` leaves behind when it looks for the signer: a restored block,
and the tree type of the signature. -/
theorem verifyBlockSignature_forced {block after : FullBlock} {rounds : Nat}
    {force passes : Bool}
    (asked : ¬ ((!force) = true ∧ block.nMerkleTreeType ≠ .unknown))
    (verified : block.verifyBlockSignature functions rounds force = some (passes, after)) :
    block.vtx ≠ [] ∧ Restored functions block after ∧ ∃ found,
      block.findSigner rounds = some found ∧ after.nMerkleTreeType = signedTreeType found := by
  unfold verifyBlockSignature at verified
  split at verified
  · cases verified
  · rename_i first rest isVtx
    refine ⟨by rw [isVtx]; exact List.cons_ne_nil _ _, ?_⟩
    rw [if_neg asked] at verified
    have sameSigner : FullBlock.findSigner rounds
        { block with nMerkleTreeType := .full, nSigHashType := .none } = block.findSigner rounds :=
      rfl
    dsimp only at verified
    rw [sameSigner] at verified
    cases isFound : block.findSigner rounds with
    | none =>
        rw [isFound] at verified
        cases verified
    | some found =>
        rw [isFound] at verified
        suffices kept : Restored functions block after ∧
            after.nMerkleTreeType = signedTreeType found from ⟨kept.1, found, rfl, kept.2⟩
        cases found with
        | none =>
            dsimp only at verified
            split at verified
            · cases verified
              exact ⟨⟨rfl, rfl, .inl rfl⟩, rfl⟩
            · cases verified
              exact ⟨⟨rfl, rfl, .inl rfl⟩, rfl⟩
        | some signature =>
            dsimp only at verified
            unfold signedTreeType
            by_cases isHeader : signature.hashType = blockSigHashHeader
            · rw [if_pos isHeader] at verified
              dsimp only
              rw [if_pos isHeader]
              have opened : Restored functions block { block with
                  nMerkleTreeType := .noCoinbaseOpReturn
                  nSigHashType := .header
                  vSigner := signature.key } := ⟨rfl, rfl, .inl rfl⟩
              exact opened.checkSignature (Option.some.inj verified)
            · rw [if_neg isHeader] at verified
              dsimp only
              rw [if_neg isHeader]
              split at verified
              · split at verified
                · cases verified
                · rename_i input inputs isVin
                  let opened : FullBlock := { block with
                    nMerkleTreeType := .full
                    nSigHashType := .none
                    vSigner := signature.key }
                  have isVtx' : opened.vtx = first :: rest := isVtx
                  have hashed := restored_hashWithoutSignature functions isVtx' input inputs
                  have checked := hashed.checkSignature (Option.some.inj verified)
                  rw [nMerkleTreeType_hashWithoutSignature] at checked
                  exact ⟨⟨checked.1.vtx, checked.1.header, checked.1.tree⟩, checked.2⟩
              · cases verified
                exact ⟨⟨rfl, rfl, .inl rfl⟩, rfl⟩

end Restoration

section Commitment

/-- The tree type under which the transactions of a block are hashed once its signature was
verified. -/
def verifiedTreeType (rounds : Nat) (block : FullBlock) : MerkleTreeType :=
  match block.findSigner rounds with
  | some found => signedTreeType found
  | none => .full

/-- The transactions as they are hashed. -/
def committedTxs (functions : BlockFunctions) (treeType : MerkleTreeType) (block : FullBlock) :
    List FullTransaction :=
  block.vtx.map (committedTx functions treeType)

/-- The pairs of nodes that are hashed in the tree over the transactions. -/
def hashedPairs (functions : BlockFunctions) (treeType : MerkleTreeType) (block : FullBlock) :
    List (Hash × Hash) :=
  MerkleTree.treePairs functions.nodeHash block.vtx.length
    ((block.committedTxs functions treeType).map functions.txHash)

/-- Among the hashes of two trees there are no collisions, and no hash of a transaction is
that of two nodes. -/
structure NoCollisions (functions : BlockFunctions) (first second : MerkleTreeType × FullBlock) :
    Prop where
  txs : Set.InjOn functions.txHash {tx | tx ∈ first.2.committedTxs functions first.1 ∨
    tx ∈ second.2.committedTxs functions second.1}
  nodes : Set.InjOn (fun pair : Hash × Hash => functions.nodeHash pair.1 pair.2)
    {pair | pair ∈ first.2.hashedPairs functions first.1 ∨
      pair ∈ second.2.hashedPairs functions second.1}
  apart : ∀ tx, (tx ∈ first.2.committedTxs functions first.1 ∨
      tx ∈ second.2.committedTxs functions second.1) →
    ∀ pair : Hash × Hash, (pair ∈ first.2.hashedPairs functions first.1 ∨
        pair ∈ second.2.hashedPairs functions second.1) →
      functions.txHash tx ≠ functions.nodeHash pair.1 pair.2

theorem committedTxs_full (functions : BlockFunctions) (block : FullBlock) :
    block.committedTxs functions .full = block.vtx := by
  have unchanged : committedTx functions .full = id := by
    funext tx
    unfold committedTx
    rw [if_neg (fun both => by cases both.1)]
    rfl
  unfold committedTxs
  rw [unchanged, List.map_id]

theorem descends_of_checks {block after : FullBlock} {rounds : Nat}
    (verified : block.verifyBlockSignature functions rounds true = some (true, after))
    (checked : after.checkMerkleRoot functions = true) (hashed : Set (Hash × Hash))
    (isHashed : ∀ pair ∈ block.hashedPairs functions (block.verifiedTreeType rounds),
      pair ∈ hashed) :
    MerkleTree.Descends functions.nodeHash hashed [block.hashMerkleRoot]
      ((block.committedTxs functions (block.verifiedTreeType rounds)).map functions.txHash) := by
  obtain ⟨notEmpty, restored, found, isFound, isType⟩ :=
    verifyBlockSignature_forced (by simp) verified
  have sameType : after.nMerkleTreeType = block.verifiedTreeType rounds := by
    unfold verifiedTreeType
    rw [isFound]
    exact isType
  have sameLeaves : after.merkleLeaves functions =
      (block.committedTxs functions (block.verifiedTreeType rounds)).map functions.txHash := by
    unfold merkleLeaves committedTxs
    rw [restored.vtx, sameType, List.map_map]
    rfl
  have sameTree : after.merkleTree functions =
      MerkleTree.build functions.nodeHash block.vtx.length
        ((block.committedTxs functions (block.verifiedTreeType rounds)).map functions.txHash) := by
    unfold merkleTree
    rw [sameLeaves, restored.vtx]
  unfold checkMerkleRoot at checked
  obtain ⟨isRoot, apart⟩ := Bool.and_eq_true_iff.mp checked
  have notMutated : (after.merkleTree functions).2 = false := by simpa using apart
  rw [sameTree] at notMutated
  have leavesNotEmpty : (block.committedTxs functions (block.verifiedTreeType rounds)).map
      functions.txHash ≠ [] := by
    simpa [committedTxs] using notEmpty
  obtain ⟨root, isLast, descends⟩ := MerkleTree.descends_build (by simp [committedTxs])
    leavesNotEmpty notMutated isHashed
  have sameRoot : block.hashMerkleRoot = root := by
    rw [← restored.header, of_decide_eq_true isRoot]
    unfold merkleRoot
    rw [sameTree, isLast]
    rfl
  rw [sameRoot]
  exact descends

/-- Two blocks with the same header that pass both checks have the same committed
transactions, and the same transactions if neither is signed by its header. -/
theorem committedTxs_eq_of_checks (functions : BlockFunctions) (rounds rounds' : Nat)
    (block block' after after' : FullBlock)
    (sameHeader : block.toBlockHeader = block'.toBlockHeader)
    (verified : block.verifyBlockSignature functions rounds true = some (true, after))
    (verified' : block'.verifyBlockSignature functions rounds' true = some (true, after'))
    (checked : after.checkMerkleRoot functions = true)
    (checked' : after'.checkMerkleRoot functions = true)
    (noCollisions : NoCollisions functions (block.verifiedTreeType rounds, block)
      (block'.verifiedTreeType rounds', block')) :
    block.committedTxs functions (block.verifiedTreeType rounds) =
        block'.committedTxs functions (block'.verifiedTreeType rounds') ∧
      (block.verifiedTreeType rounds = .full → block'.verifiedTreeType rounds' = .full →
        block.vtx = block'.vtx) := by
  let hashed : Set (Hash × Hash) :=
    {pair | pair ∈ block.hashedPairs functions (block.verifiedTreeType rounds) ∨
      pair ∈ block'.hashedPairs functions (block'.verifiedTreeType rounds')}
  have descends := descends_of_checks verified checked hashed fun _ => Or.inl
  have descends' := descends_of_checks verified' checked' hashed fun _ => Or.inr
  have sameRoot : block'.hashMerkleRoot = block.hashMerkleRoot := by rw [sameHeader]
  rw [sameRoot] at descends'
  have sameLeaves := MerkleTree.Descends.leaves_eq noCollisions.nodes (List.cons_ne_nil _ _)
    (fun leaf member pair isHashed => by
      obtain ⟨tx, isTx, isLeaf⟩ := List.mem_map.mp member
      rw [← isLeaf]
      exact noCollisions.apart tx (.inl isTx) pair isHashed)
    (fun leaf member pair isHashed => by
      obtain ⟨tx, isTx, isLeaf⟩ := List.mem_map.mp member
      rw [← isLeaf]
      exact noCollisions.apart tx (.inr isTx) pair isHashed) descends descends'
  have same := MerkleTree.eq_of_map_injOn noCollisions.txs (fun _ => Or.inl) (fun _ => Or.inr)
    sameLeaves
  refine ⟨same, fun isFull isFull' => ?_⟩
  rw [isFull, isFull', committedTxs_full, committedTxs_full] at same
  exact same

end Commitment

section Sample

/-- Hashes that tell transactions apart by the number of their outputs, and one key with its
signature of the root 1032. -/
def countingFunctions : BlockFunctions where
  txHash tx := BitVec.ofNat 256 tx.vout.length
  nodeHash left right := 1000 + 30 * left + right
  headerHash header := header.hashMerkleRoot
  isUnspendable script := decide (script.head? = some (UInt8.ofNat mcDctScriptOpReturn))
  isUnspendable_opReturn _ := by simp
  keyIsValid key := decide (key = [2])
  verifies key hash sig := decide (key = [2] ∧ hash = 1032 ∧ sig = [7])

/-- A signature of the header. -/
def headerSignature : BlockSignature := ⟨[7], blockSigHashHeader, ⟨[2], by decide⟩⟩

/-- A block with a payment, and with a reward and more outputs in its coinbase transaction. -/
def rewardBlock (outputs : List CTxOut) : FullBlock where
  nVersion := 4
  hashPrevBlock := 5
  hashMerkleRoot := 1032
  nTime := 0
  nBits := 0
  nNonce := 0
  vtx := [⟨1, [⟨⟨⟨0, 2 ^ 32 - 1⟩, []⟩, 0⟩], ⟨50, []⟩ :: outputs, 0⟩,
    ⟨1, [⟨⟨⟨3, 0⟩, []⟩, 0⟩], [⟨8, []⟩, ⟨9, []⟩], 0⟩]
  vMerkleTree := []
  nSigHashType := .unknown
  nMerkleTreeType := .unknown
  vSigner := .none

/-- The block with the signature only, and with one more output that cannot be spent. -/
def signedBlock : FullBlock := rewardBlock [signatureOutput headerSignature]
def paddedBlock : FullBlock :=
  rewardBlock [signatureOutput headerSignature, ⟨0, [UInt8.ofNat mcDctScriptOpReturn]⟩]

/-- Both blocks are hashed without the outputs that cannot be spent. -/
theorem noCollisions_padded : NoCollisions countingFunctions
    (signedBlock.verifiedTreeType 9, signedBlock) (paddedBlock.verifiedTreeType 9, paddedBlock) := by
  have isFirst : ∀ tx, (tx ∈ signedBlock.committedTxs countingFunctions
      (signedBlock.verifiedTreeType 9) ∨ tx ∈ paddedBlock.committedTxs countingFunctions
        (paddedBlock.verifiedTreeType 9)) → tx ∈ (rewardBlock []).vtx := by
    have same : signedBlock.committedTxs countingFunctions (signedBlock.verifiedTreeType 9) =
        (rewardBlock []).vtx := by decide +kernel
    have same' : paddedBlock.committedTxs countingFunctions (paddedBlock.verifiedTreeType 9) =
        (rewardBlock []).vtx := by decide +kernel
    rw [same, same']
    exact fun tx member => member.elim id id
  have onePair : ∀ pair, pair ∈ signedBlock.hashedPairs countingFunctions
      (signedBlock.verifiedTreeType 9) ∨ pair ∈ paddedBlock.hashedPairs countingFunctions
        (paddedBlock.verifiedTreeType 9) → pair = (1, 2) := by
    have same : signedBlock.hashedPairs countingFunctions (signedBlock.verifiedTreeType 9) =
        [(1, 2)] := by decide +kernel
    have same' : paddedBlock.hashedPairs countingFunctions (paddedBlock.verifiedTreeType 9) =
        [(1, 2)] := by decide +kernel
    rw [same, same']
    exact fun pair member => List.mem_singleton.mp (member.elim id id)
  have told : ∀ tx ∈ (rewardBlock []).vtx, ∀ tx' ∈ (rewardBlock []).vtx,
      countingFunctions.txHash tx = countingFunctions.txHash tx' → tx = tx' := by decide +kernel
  have apart : ∀ tx ∈ (rewardBlock []).vtx,
      countingFunctions.txHash tx ≠ countingFunctions.nodeHash 1 2 := by decide +kernel
  refine ⟨?_, ?_, ?_⟩
  · exact fun tx member tx' member' => told tx (isFirst tx member) tx' (isFirst tx' member')
  · intro pair member pair' member' _
    rw [onePair pair member, onePair pair' member']
  · intro tx member pair isPair
    rw [onePair pair isPair]
    exact apart tx (isFirst tx member)

/-- What `VerifyBlockSignature` leaves of a block that is signed so. -/
def afterVerification (block : FullBlock) : FullBlock :=
  { block with
    nMerkleTreeType := .noCoinbaseOpReturn
    nSigHashType := .header
    vSigner := headerSignature.key }

/-- The blocks have the same committed transactions. -/
theorem committedTxs_padded :
    signedBlock.committedTxs countingFunctions (signedBlock.verifiedTreeType 9) =
      paddedBlock.committedTxs countingFunctions (paddedBlock.verifiedTreeType 9) :=
  (committedTxs_eq_of_checks countingFunctions 9 9 signedBlock paddedBlock
    (afterVerification signedBlock) (afterVerification paddedBlock)
    rfl (by decide +kernel) (by decide +kernel) (by decide +kernel) (by decide +kernel)
    noCollisions_padded).1

/-- But they pass all checks with different transactions. -/
theorem vtx_padded :
    signedBlock.toBlockHeader = paddedBlock.toBlockHeader ∧
      (∃ after, signedBlock.verifyBlockSignature countingFunctions 9 true = some (true, after) ∧
        after.checkMerkleRoot countingFunctions = true) ∧
      (∃ after, paddedBlock.verifyBlockSignature countingFunctions 9 true = some (true, after) ∧
        after.checkMerkleRoot countingFunctions = true) ∧
      NoCollisions countingFunctions (signedBlock.verifiedTreeType 9, signedBlock)
        (paddedBlock.verifiedTreeType 9, paddedBlock) ∧
      signedBlock.vtx ≠ paddedBlock.vtx :=
  ⟨rfl, ⟨afterVerification signedBlock, by decide +kernel, by decide +kernel⟩,
    ⟨afterVerification paddedBlock, by decide +kernel, by decide +kernel⟩, noCollisions_padded,
    by decide +kernel⟩

end Sample

end FullBlock

end HdacNode
