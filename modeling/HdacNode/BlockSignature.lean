import HdacNode.DetailsScript
import HdacNode.MerkleTree
import HdacNode.Transactions

/-!
# The signature of a block

The miner signs a block and puts the signature into an output of the coinbase transaction,
so that the signature cannot commit to itself.  The signer and the verifier build the
Merkle tree without such outputs and put header and transactions back afterwards.
-/

namespace HdacNode

/-- `CTxIn` with all its fields. -/
structure FullTxIn extends CTxIn where
  nSequence : UInt32
  deriving DecidableEq, Repr

/-- `CTransaction` with all the fields that are hashed. -/
structure FullTransaction where
  nVersion : Int
  vin : List FullTxIn
  vout : List CTxOut
  nLockTime : UInt32
  deriving DecidableEq, Repr

/-- `CTransaction::IsCoinBase`. -/
def FullTransaction.isCoinBase (tx : FullTransaction) : Bool :=
  match tx.vin with
  | [input] => input.prevout.isNull
  | _ => false

/-- `CBlockHeader`. -/
structure BlockHeader where
  nVersion : Int
  hashPrevBlock : Hash
  hashMerkleRoot : Hash
  nTime : UInt32
  nBits : UInt32
  nNonce : UInt32
  deriving DecidableEq, Repr

/-- The values of `nSigHashType`. -/
inductive BlockSigHash where
  | none
  | header
  | noSignatureAndNonce
  | invalid
  | unknown
  deriving DecidableEq, Repr

/-- The values of `nMerkleTreeType`. -/
inductive MerkleTreeType where
  | full
  | noCoinbaseOpReturn
  | unknown
  deriving DecidableEq, Repr

/-- The key in `vSigner`, behind its length in one byte. -/
structure SignerKey where
  bytes : Bytes
  fits : bytes.length < 2 ^ 8
  deriving DecidableEq, Repr

/-- `vSigner[0]` is zero. -/
def SignerKey.none : SignerKey := ⟨[], by decide⟩

/-- `CBlock`. -/
structure FullBlock extends BlockHeader where
  vtx : List FullTransaction
  vMerkleTree : List Hash
  nSigHashType : BlockSigHash
  nMerkleTreeType : MerkleTreeType
  vSigner : SignerKey
  deriving DecidableEq, Repr

/-- The hashes of transactions, of two nodes of a Merkle tree and of headers,
`CScript::IsUnspendable`, which holds of the scripts that begin with an OP_RETURN,
`CPubKey::IsValid` and `CPubKey::Verify`. -/
structure BlockFunctions where
  txHash : FullTransaction → Hash
  nodeHash : Hash → Hash → Hash
  headerHash : BlockHeader → Hash
  isUnspendable : Bytes → Bool
  isUnspendable_opReturn : ∀ rest,
    isUnspendable (UInt8.ofNat mcDctScriptOpReturn :: rest) = true
  keyIsValid : Bytes → Bool
  verifies : Bytes → Hash → Bytes → Bool

section Elements

/-- `MC_DCT_SCRIPT_FREE_DATA_IDENTIFIER`, the letters `SPK`. -/
def mcDctScriptFreeDataIdentifier : Bytes := [0x53, 0x50, 0x4b]

/-- The letter `b`. -/
def mcDctScriptMultichainBlockSignaturePrefix : UInt8 := 0x62

/-- `BLOCKSIGHASH_HEADER` and `BLOCKSIGHASH_NO_SIGNATURE_AND_NONCE` in a signature. -/
def blockSigHashHeader : UInt8 := 1
def blockSigHashNoSignatureAndNonce : UInt8 := 2

/-- What a block signature in a script holds. -/
structure BlockSignature where
  sig : Bytes
  hashType : UInt8
  key : SignerKey
  deriving DecidableEq, Repr

/-- The bytes behind a length byte, as many as it says, and the bytes behind them. -/
def takeCounted : Bytes → Option ({bytes : Bytes // bytes.length < 2 ^ 8} × Bytes)
  | [] => none
  | count :: bytes =>
      if bytes.length < count.toNat then none
      else some (⟨bytes.take count.toNat,
        Nat.lt_of_le_of_lt (List.length_take_le _ _) count.toNat_lt⟩, bytes.drop count.toNat)

/-- `mc_Script::GetBlockSignature`. -/
def getBlockSignature (element : Bytes) : Option BlockSignature :=
  if element.length < mcDctScriptIdentifierLen + 1 + 3 then none
  else if element.take mcDctScriptIdentifierLen ≠ mcDctScriptFreeDataIdentifier then none
  else if element[mcDctScriptIdentifierLen]? ≠ some mcDctScriptMultichainBlockSignaturePrefix then
    none
  else
    match takeCounted (element.drop (mcDctScriptIdentifierLen + 1)) with
    | some (sig, hashType :: rest) =>
        match takeCounted rest with
        | some (key, []) => some ⟨sig.1, hashType, key.1, key.2⟩
        | _ => none
    | _ => none

/-- `mc_Script::SetBlockSignature`: the elements of the new script. -/
def setBlockSignature (signature : BlockSignature) : List Bytes :=
  if 0xff < signature.sig.length then []
  else [mcDctScriptFreeDataIdentifier ++ [mcDctScriptMultichainBlockSignaturePrefix] ++
    putLE signature.sig.length 1 ++ signature.sig ++ [signature.hashType] ++
    putLE signature.key.bytes.length 1 ++ signature.key.bytes]

/-- `CScript << vector`. -/
def pushData (data : Bytes) : Bytes :=
  (if data.length < mcDctScriptOpPushData1 then putLE data.length 1
  else if data.length ≤ 0xff then UInt8.ofNat mcDctScriptOpPushData1 :: putLE data.length 1
  else if data.length ≤ 0xffff then UInt8.ofNat mcDctScriptOpPushData2 :: putLE data.length 2
  else UInt8.ofNat mcDctScriptOpPushData4 :: putLE data.length 4) ++ data

/-- The elements that `SetScript` leaves of a public key script, also when it refuses the
script on the way, for a number of rounds at most. -/
def elementsFrom (script : Bytes) : Nat → ScanState → Option (List Bytes)
  | 0, _ => none
  | rounds + 1, state =>
      match ScriptParser.scanStep script .scriptPubKey state with
      | .next state => elementsFrom script rounds state
      | .stop (.ok parsed) => some parsed.elements
      | .stop (.error .wrongScript) => some state.script.elements
      | .stop (.error .fault) => none

/-- The elements of a public key script. -/
def scriptElements (rounds : Nat) (script : Bytes) : Option (List Bytes) :=
  if script = [] then some [] else elementsFrom script rounds ScriptParser.scanStart

/-- The first element that is a block signature with a key. -/
def firstSignature (elements : List Bytes) : Option BlockSignature :=
  elements.findSome? fun element =>
    (getBlockSignature element).filter fun signature => decide (signature.key.bytes ≠ [])

end Elements

section Verification

/-- The letters `/P2SH/`. -/
def p2shFlags : Bytes := [0x2f, 0x50, 0x32, 0x53, 0x48, 0x2f]

/-- The bytes behind the flags are replaced by zeros. -/
def zeroBehindFlags (scriptSig : Bytes) : Bytes :=
  match scriptSig.tails.findIdx? fun tail => p2shFlags.isPrefixOf tail with
  | none => scriptSig
  | some idx =>
      if 0 < idx then
        let idxStart := idx + p2shFlags.length
        scriptSig.take idxStart ++ List.replicate (scriptSig.length - idxStart) 0
      else scriptSig

namespace FullBlock

/-- The outputs of the coinbase transactions. -/
def coinbaseOutputs (block : FullBlock) : List CTxOut :=
  (block.vtx.filter FullTransaction.isCoinBase).flatMap FullTransaction.vout

variable (functions : BlockFunctions)

/-- A transaction as `BuildMerkleTree` hashes it. -/
def committedTx (treeType : MerkleTreeType) (tx : FullTransaction) : FullTransaction :=
  if treeType = .noCoinbaseOpReturn ∧ tx.isCoinBase then
    { tx with vout := tx.vout.filter fun out => !functions.isUnspendable out.scriptPubKey }
  else tx

/-- The leaves of the Merkle tree. -/
def merkleLeaves (block : FullBlock) : List Hash :=
  block.vtx.map fun tx => functions.txHash (committedTx functions block.nMerkleTreeType tx)

/-- `BuildMerkleTree`: the nodes and whether the tree may be mutated. -/
def merkleTree (block : FullBlock) : List Hash × Bool :=
  MerkleTree.build functions.nodeHash block.vtx.length (block.merkleLeaves functions)

/-- The root that `BuildMerkleTree` returns. -/
def merkleRoot (block : FullBlock) : Hash := (block.merkleTree functions).1.getLast?.getD 0

/-- `BuildMerkleTree` keeps the nodes. -/
def buildMerkleTree (block : FullBlock) : FullBlock :=
  { block with vMerkleTree := (block.merkleTree functions).1 }

/-- The checks of the Merkle root in `CheckBlock`. -/
def checkMerkleRoot (block : FullBlock) : Bool :=
  decide (block.hashMerkleRoot = block.merkleRoot functions) && !(block.merkleTree functions).2

/-- `FindSigner`: the first signature of the coinbase transactions; all their scripts are
parsed. -/
def findSigner (rounds : Nat) (block : FullBlock) : Option (Option BlockSignature) := do
  let parsed ← block.coinbaseOutputs.mapM fun out => scriptElements rounds out.scriptPubKey
  pure (parsed.findSome? firstSignature)

/-- The signature is refused. -/
def refuse (block : FullBlock) : Bool × FullBlock := (false, { block with nSigHashType := .invalid })

/-- The last checks of `VerifyBlockSignature`. -/
def checkSignature (block : FullBlock) (signature : BlockSignature) (hashToVerify : Hash) :
    Bool × FullBlock :=
  if !functions.keyIsValid block.vSigner.bytes then block.refuse
  else if !functions.verifies block.vSigner.bytes hashToVerify signature.sig then block.refuse
  else (true, block)

/-- The hash without signature and nonce: header, coinbase and tree are overwritten for it
and put back. -/
def hashWithoutSignature (block : FullBlock) (first : FullTransaction) (input : FullTxIn)
    (inputs : List FullTxIn) (rest : List FullTransaction) : Hash × FullBlock :=
  let zeroed := { input with scriptSig := zeroBehindFlags input.scriptSig }
  let stripped := { block with
    nMerkleTreeType := .noCoinbaseOpReturn
    vtx := { first with vin := zeroed :: inputs } :: rest }
  let rooted := { stripped.buildMerkleTree functions with
    hashMerkleRoot := stripped.merkleRoot functions
    nNonce := 0 }
  let restored := { rooted with
    vtx := first :: rest
    hashMerkleRoot := block.hashMerkleRoot
    nNonce := block.nNonce
    nMerkleTreeType := .full }
  (functions.headerHash rooted.toBlockHeader,
    if block.vMerkleTree ≠ [] then { restored with vMerkleTree := block.vMerkleTree }
    else restored.buildMerkleTree functions)

/-- `VerifyBlockSignature`; a block without transactions, or a first one without inputs,
is read out of bounds. -/
def verifyBlockSignature (rounds : Nat) (force : Bool) (block : FullBlock) :
    Option (Bool × FullBlock) :=
  match block.vtx with
  | [] => none
  | first :: rest =>
      if !force ∧ block.nMerkleTreeType ≠ .unknown then
        some (decide (block.nSigHashType ≠ .invalid), block)
      else
        let block := { block with nMerkleTreeType := .full, nSigHashType := .none }
        match block.findSigner rounds with
        | none => none
        | some none =>
            let block := { block with vSigner := .none }
            some (if block.hashPrevBlock ≠ 0 then block.refuse else (true, block))
        | some (some signature) =>
            let block := { block with vSigner := signature.key }
            if signature.hashType = blockSigHashHeader then
              let block := { block with
                nMerkleTreeType := .noCoinbaseOpReturn
                nSigHashType := .header }
              some (block.checkSignature functions signature
                (functions.headerHash block.toBlockHeader))
            else if signature.hashType = blockSigHashNoSignatureAndNonce then
              match first.vin with
              | [] => none
              | input :: inputs =>
                  let hashed := block.hashWithoutSignature functions first input inputs rest
                  some (hashed.2.checkSignature functions signature hashed.1)
            else some block.refuse

end FullBlock

end Verification

section Signing

/-- The keys of the wallet: a key signs any hash with a signature that its valid public
key verifies, in at most 72 bytes. -/
structure SigningWallet (functions : BlockFunctions) where
  getKey : Bytes → Option (Hash → Bytes)
  valid : ∀ {pubKey sign}, getKey pubKey = some sign → functions.keyIsValid pubKey = true
  verified : ∀ {pubKey sign}, getKey pubKey = some sign → ∀ hash,
    functions.verifies pubKey hash (sign hash) = true
  short : ∀ {pubKey sign}, getKey pubKey = some sign → ∀ hash, (sign hash).length ≤ 72

namespace FullBlock

variable (functions : BlockFunctions)

/-- The last output of a transaction that cannot be spent. -/
def opReturnOutput (tx : FullTransaction) : Option Nat :=
  (tx.vout.zipIdx.filter fun out => functions.isUnspendable out.1.scriptPubKey).getLast?.map
    Prod.snd

/-- The outputs of the coinbase transaction that the signer keeps; `firstBlocks` says that `m_Block`
of the permissions is 0, with the genesis block alone committed. -/
def keptOutputs (firstBlocks : Bool) (tx : FullTransaction) : List CTxOut :=
  (tx.vout.zipIdx.filter fun out => decide (some out.2 ≠ opReturnOutput functions tx) &&
    (decide (out.1.nValue ≠ 0) || firstBlocks)).map Prod.fst

/-- A transaction of the block is replaced. -/
def setTx (block : FullBlock) (i : Nat) (tx : FullTransaction) : FullBlock :=
  { block with vtx := block.vtx.set i tx }

/-- The output with the signature. -/
def signatureOutput (signature : BlockSignature) : CTxOut where
  nValue := 0
  scriptPubKey := UInt8.ofNat mcDctScriptOpReturn :: (setBlockSignature signature).flatMap pushData

/-- The hash that is signed, behind the changes of the header. -/
def hashToSign (block : FullBlock) (hashType : BlockSigHash) : Option (Hash × FullBlock) :=
  match hashType with
  | .header =>
      let block := { block with
        nMerkleTreeType := .noCoinbaseOpReturn
        nSigHashType := .header }
      some (functions.headerHash block.toBlockHeader, block)
  | .noSignatureAndNonce =>
      let stripped := { block with nMerkleTreeType := .noCoinbaseOpReturn }
      let rooted := { stripped.buildMerkleTree functions with
        hashMerkleRoot := stripped.merkleRoot functions
        nNonce := 0 }
      some (functions.headerHash rooted.toBlockHeader, { rooted with nMerkleTreeType := .full })
  | _ => none

/-- The byte of a hash type in a signature. -/
def sigHashByte : BlockSigHash → UInt8
  | .header => blockSigHashHeader
  | _ => blockSigHashNoSignatureAndNonce

/-- `CreateBlockSignature`. -/
def createBlockSignature (wallet : SigningWallet functions) (firstBlocks : Bool)
    (hashType : BlockSigHash) (block : FullBlock) : Bool × FullBlock :=
  let block := { block with nMerkleTreeType := .full, nSigHashType := .none }
  if block.vSigner.bytes = [] then (false, block)
  else
    match block.vtx.findIdx? FullTransaction.isCoinBase with
    | none => block.refuse
    | some coinbaseTx =>
        match block.vtx[coinbaseTx]? with
        | none => block.refuse
        | some tx =>
            if hashType = .header ∧ (opReturnOutput functions tx).isSome then block.refuse
            else
              let kept := { tx with vout := keptOutputs functions firstBlocks tx }
              let block := block.setTx coinbaseTx kept
              match block.hashToSign functions hashType with
              | none => block.refuse
              | some (hash, block) =>
                  match wallet.getKey block.vSigner.bytes with
                  | none => (false, block)
                  | some sign =>
                      let signature : BlockSignature :=
                        ⟨sign hash, sigHashByte hashType, block.vSigner⟩
                      let block := block.setTx coinbaseTx
                        { kept with vout := kept.vout ++ [signatureOutput signature] }
                      if hashType = .noSignatureAndNonce then
                        (true, { block.buildMerkleTree functions with
                          hashMerkleRoot := block.merkleRoot functions })
                      else (true, block)

end FullBlock

end Signing

end HdacNode
