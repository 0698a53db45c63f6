import HdacNode.AcceptQueries

/-!
# The inputs of a transaction in its acceptance

`AcceptHdacTransaction` first reads the inputs: who they belong to, what their
signatures cover, and the asset amounts that they spend.  A transaction that is
rejected here leaves the stores alone.
-/

namespace HdacNode

/-- `isminetype`, as far as `AcceptHdacTransaction` tells it apart. -/
inductive IsMineType where
  | no
  | watchOnly
  | spendable
  deriving DecidableEq, Repr

/-- The contents of `pwalletMain` as `IsMine` answers for addresses. -/
structure Wallet where
  isMine : CTxDestination → IsMineType

/-- The state of a node that the acceptance of a transaction reads and writes: the
stores, the wallet and the temporary objects of `mc_gState`. -/
structure NodeState where
  permissions : Permissions
  assets : AssetDB
  wallet : Wallet
  tmpScript : Script
  tmpAssetsIn : AmountBuffer
  tmpAssetsOut : AmountBuffer

/-- What a call of `AcceptHdacTransaction` finds besides the transaction and the state:
the parameters of the chain, the script functions, the coins, the dust limit, the time,
whether the caller asks for the replay flags, and the switch `fImportAddrs`.  An imported
address is followed by `rescan`, which stands for `ScanForWalletTransactions` and
`ReacceptWalletTransactions`, when the wallet tracks addresses and there is a tip. -/
structure AcceptEnv where
  params : AcceptParams
  reader : ScriptReader
  inputs : CCoinsView
  isDust : CTxOut → Bool
  timeNow : Nat
  replay : Bool
  importAddrs : Bool
  rescansOnImport : Bool
  rescan : NodeState → NodeState

/-- Why a transaction is rejected.  `fault` stands for an access that the source is
not allowed. -/
inductive Rejection where
  | reason (text : String)
  | bannedAddress (address : Address)
  | missingAdmin (withoutCachedScript : Bool)
  | fault
  deriving DecidableEq, Repr

/-- What the loop over the inputs keeps of an input: an entry of `vInputScriptTypes`, of
`vInputDestinations` and of `vInputHashTypes`. -/
structure InputRights where
  scriptType : TxnOutType
  destination : Address
  hashType : Nat
  deriving DecidableEq, Repr

/-- Whether the signature of an input covers an output. -/
def InputRights.signs (input : InputRights) (i j : Nat) : Bool :=
  input.hashType = sigHashAll ∨ (input.hashType = sigHashSingle ∧ i = j)

/-- The variables that the loop over the inputs fills. -/
structure InputScan where
  rights : List InputRights
  scriptHashAllFound : Bool
  rejectIfOpDropOpReturn : Bool
  assetsIn : AmountBuffer

namespace AcceptEnv

variable (env : AcceptEnv)

/-- Whether an element grants all permissions of the chain. -/
def grantsGlobalAll (element : Bytes) : Bool :=
  (getPermissionElement element).any fun found => found.type = mcPtpGlobalAll

/-- The key that an output with all permissions belongs to. -/
def genesisKey (out : CTxOut) : Option Address :=
  if (env.reader.setScript out.scriptPubKey).elements.any grantsGlobalAll then
    match env.reader.extractDestination out.scriptPubKey with
    | some (.keyID address) => some address
    | _ => none
  else none

/-- `mc_GenesisAdmin`: the first such key, or 0. -/
def genesisAdmin (tx : CTransaction) : Address :=
  (tx.vout.findSome? env.genesisKey).getD 0

/-- The input of a coinbase.  In the genesis block it belongs to the genesis admin. -/
def readCoinbase (block : Int) (tx : CTransaction) : InputScan where
  rights :=
    if block = -1 then [⟨.pubKeyHash, env.genesisAdmin tx, sigHashAll⟩]
    else [⟨.nonStandard, 0, sigHashAll⟩]
  scriptHashAllFound := true
  rejectIfOpDropOpReturn := false
  assetsIn := AmountBuffer.initABufferMap

/-- Whether the granting inputs have to be in the cached scripts: not in the genesis
block. -/
def checksCachedScript (block : Int) (tx : CTransaction) : Bool :=
  env.params.supportMinerPrecheck ∧ ¬ (tx.isCoinBase ∧ block = -1)

/-- The owner and the signature of an input whose previous output is standard. -/
def readStandardInput (tx : CTransaction) (i : Nat) (input : CTxIn) (typeRet : TxnOutType)
    (address : Address) (scan : InputScan) : Except Rejection InputScan :=
  let checkLast : Bool := typeRet = .pubKey ∨ typeRet = .multisig
  let hashType := env.reader.sigHashType input.scriptSig checkLast
  if hashType = sigHashSingle ∧ tx.vout.length ≤ i then
    .error (.reason "SIGHASH_SINGLE input without matching output")
  else
    .ok { scan with
      rights := scan.rights ++ [⟨typeRet, if typeRet = .multisig then 0 else address, hashType⟩]
      scriptHashAllFound := scan.scriptHashAllFound || hashType = sigHashAll
      rejectIfOpDropOpReturn := scan.rejectIfOpDropOpReturn || checkLast }

/-- An input without an owner. -/
def readOtherInput (typeRet : TxnOutType) (scan : InputScan) : InputScan :=
  { scan with
    rights := scan.rights ++ [⟨typeRet, 0, sigHashNone⟩]
    rejectIfOpDropOpReturn := true }

/-- The owner and the signature of an input. -/
def readOwner (tx : CTransaction) (i : Nat) (input : CTxIn) (prevScript : Bytes)
    (scan : InputScan) : Except Rejection InputScan :=
  let destinations := env.reader.extractDestinations prevScript
  if destinations.found then
    if destinations.typeRet = .nullData then .ok (readOtherInput .nullData scan)
    else
      match destinations.addressRets with
      | [] => .error .fault
      | destination :: _ =>
          match destination.address? with
          | none =>
              .error (.reason "Internal error: cannot extract address from input scriptPubKey")
          | some address =>
              env.readStandardInput tx i input destinations.typeRet address scan
  else .ok (readOtherInput .nonStandard scan)

/-- The asset amounts that an input spends. -/
def readAssets (assets : AssetDB) (input : CTxIn) (prevScript : Bytes) (scan : InputScan) :
    Except Rejection InputScan :=
  match extractInputAssetQuantities assets.answers scan.assetsIn
      ⟨txidBytes input.prevout.hash, env.reader.setScript prevScript⟩ with
  | .ok assetsIn => .ok { scan with assetsIn }
  | .error text => .error (.reason text)

/-- A round of the loop over the inputs. -/
def readInput (assets : AssetDB) (tx : CTransaction) (scan : InputScan)
    (entry : CTxIn × Nat) : Except Rejection InputScan :=
  let (input, i) := entry
  if env.reader.isPushOnly input.scriptSig then
    match env.inputs.prevScript input.prevout with
    | none => .error .fault
    | some prevScript =>
        (env.readOwner tx i input prevScript scan).bind
          (env.readAssets assets input prevScript)
  else .error (.reason "sigScript should be push-only")

/-- The loop over the inputs. -/
def readInputs (assets : AssetDB) (block : Int) (tx : CTransaction) :
    Except Rejection InputScan :=
  if tx.isCoinBase then .ok (env.readCoinbase block tx)
  else tx.vin.zipIdx.foldlM (env.readInput assets tx) ⟨[], false, false, .initABufferMap⟩

end AcceptEnv

end HdacNode
