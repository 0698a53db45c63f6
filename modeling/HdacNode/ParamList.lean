import HdacNode.PermissionNames

/-!
# The list of chain parameters

`chainparams/hdac/paramlist.h`: the name of each parameter, what its values are, who sets it, and
the size of the memory that holds one value of each.
-/

namespace HdacNode

/-- The data type of a parameter: `MC_PRM_DATA_TYPE_MASK` of its type. -/
inductive ParamType where
  | binary
  | string
  | boolean
  | int32
  | int64
  | double
  | uint32
  deriving DecidableEq, Repr

/-- Where the value of a parameter comes from: `MC_PRM_SOURCE_MASK` of its type. -/
inductive ParamSource where
  | comment
  | user
  | generated
  | calculated
  deriving DecidableEq, Repr

/-- What `mc_HdacParams` reads of a `mc_OneHdacParam` to store its value. -/
structure OneHdacParam where
  name : Bytes
  type : ParamType
  source : ParamSource
  maxStringSize : Int
  deriving DecidableEq, Repr

/-- `MC_PRM_MAX_PARAM_NAME_SIZE`. -/
def mcPrmMaxParamNameSize : Nat := 31

/-- `MC_PRM_PARAM_SIZE_BYTES`. -/
def mcPrmParamSizeBytes : Nat := 2

/-- `MC_PRM_NETWORK_NAME_MAX_SIZE`. -/
def mcPrmNetworkNameMaxSize : Int := 32

/-- `HdacParamArray`. -/
def hdacParamArray : List OneHdacParam :=
  [
    ⟨literal "chainprotocol", .string, .user, 16⟩,
    ⟨literal "chaindescription", .string, .user, 256⟩,
    ⟨literal "rootstreamname", .string, .user, 256⟩,
    ⟨literal "rootstreamopen", .boolean, .user, -1⟩,
    ⟨literal "chainistestnet", .boolean, .user, -1⟩,
    ⟨literal "targetblocktime", .uint32, .user, -1⟩,
    ⟨literal "maximumblocksize", .uint32, .user, -1⟩,
    ⟨literal "defaultnetworkport", .uint32, .generated, -1⟩,
    ⟨literal "defaultrpcport", .uint32, .generated, -1⟩,
    ⟨literal "anyonecanconnect", .boolean, .user, -1⟩,
    ⟨literal "anyonecansend", .boolean, .user, -1⟩,
    ⟨literal "anyonecanreceive", .boolean, .user, -1⟩,
    ⟨literal "anyonecanreceiveempty", .boolean, .user, -1⟩,
    ⟨literal "anyonecancreate", .boolean, .user, -1⟩,
    ⟨literal "anyonecanissue", .boolean, .user, -1⟩,
    ⟨literal "anyonecanmine", .boolean, .user, -1⟩,
    ⟨literal "anyonecanactivate", .boolean, .user, -1⟩,
    ⟨literal "anyonecanadmin", .boolean, .user, -1⟩,
    ⟨literal "supportminerprecheck", .boolean, .user, -1⟩,
    ⟨literal "allowarbitraryoutputs", .boolean, .user, -1⟩,
    ⟨literal "allowp2shoutputs", .boolean, .user, -1⟩,
    ⟨literal "allowmultisigoutputs", .boolean, .user, -1⟩,
    ⟨literal "setupfirstblocks", .uint32, .user, -1⟩,
    ⟨literal "miningdiversity", .uint32, .user, -1⟩,
    ⟨literal "adminconsensusupgrade", .uint32, .user, -1⟩,
    ⟨literal "adminconsensusadmin", .uint32, .user, -1⟩,
    ⟨literal "adminconsensusactivate", .uint32, .user, -1⟩,
    ⟨literal "adminconsensusmine", .uint32, .user, -1⟩,
    ⟨literal "adminconsensuscreate", .uint32, .user, -1⟩,
    ⟨literal "adminconsensusissue", .uint32, .user, -1⟩,
    ⟨literal "lockadminminerounds", .uint32, .user, -1⟩,
    ⟨literal "miningrequirespeers", .boolean, .user, -1⟩,
    ⟨literal "mineemptyrounds", .int32, .user, -1⟩,
    ⟨literal "miningturnover", .uint32, .user, -1⟩,
    ⟨literal "firstblockreward", .int64, .user, -1⟩,
    ⟨literal "initialblockreward", .int64, .user, -1⟩,
    ⟨literal "rewardhalvinginterval", .uint32, .user, -1⟩,
    ⟨literal "rewardspendabledelay", .uint32, .user, -1⟩,
    ⟨literal "minimumperoutput", .int64, .user, -1⟩,
    ⟨literal "maximumperoutput", .int64, .user, -1⟩,
    ⟨literal "minimumrelayfee", .int64, .user, -1⟩,
    ⟨literal "nativecurrencymultiple", .int64, .user, -1⟩,
    ⟨literal "skippowcheck", .boolean, .user, -1⟩,
    ⟨literal "powminimumbits", .uint32, .user, -1⟩,
    ⟨literal "targetadjustfreq", .int32, .user, -1⟩,
    ⟨literal "allowmindifficultyblocks", .boolean, .user, -1⟩,
    ⟨literal "onlyacceptstdtxs", .boolean, .user, -1⟩,
    ⟨literal "maxstdtxsize", .uint32, .user, -1⟩,
    ⟨literal "maxstdopreturnscount", .uint32, .user, -1⟩,
    ⟨literal "maxstdopreturnsize", .uint32, .user, -1⟩,
    ⟨literal "maxstdopdropscount", .int64, .user, -1⟩,
    ⟨literal "maxstdelementsize", .int64, .user, -1⟩,
    ⟨literal "maxstdopdropsize", .int64, .user, -1⟩,
    ⟨literal "chainname", .string, .generated, mcPrmNetworkNameMaxSize⟩,
    ⟨literal "protocolversion", .uint32, .generated, -1⟩,
    ⟨literal "networkmessagestart", .binary, .generated, 4⟩,
    ⟨literal "addresspubkeyhashversion", .binary, .generated, 4⟩,
    ⟨literal "addressscripthashversion", .binary, .generated, 4⟩,
    ⟨literal "privatekeyversion", .binary, .generated, 4⟩,
    ⟨literal "addresschecksumvalue", .binary, .generated, 4⟩,
    ⟨literal "genesispubkey", .binary, .calculated, 65⟩,
    ⟨literal "genesisversion", .uint32, .calculated, -1⟩,
    ⟨literal "genesistimestamp", .uint32, .calculated, -1⟩,
    ⟨literal "genesisnbits", .uint32, .calculated, -1⟩,
    ⟨literal "genesisnonce", .uint32, .calculated, -1⟩,
    ⟨literal "genesispubkeyhash", .binary, .calculated, 20⟩,
    ⟨literal "genesisopreturnscript", .binary, .calculated, 300⟩,
    ⟨literal "genesishash", .binary, .calculated, 32⟩,
    ⟨literal "chainparamshash", .binary, .calculated, 32⟩
  ]

/-- The memory that `Init` takes for a value of a parameter. -/
def OneHdacParam.valueSize (param : OneHdacParam) : Nat :=
  match param.type with
  | .binary => param.maxStringSize.toNat
  | .string => (param.maxStringSize + 1).toNat
  | .boolean => 1
  | .int32 => 4
  | .int64 => 8
  | .double => 8
  | .uint32 => 4

/-- The size of `m_lpData`: `max_size` of `Init`. -/
def paramDataSize : Nat :=
  (hdacParamArray.map fun param =>
    mcPrmMaxParamNameSize + 1 + mcPrmParamSizeBytes + param.valueSize).sum

/-- `m_lpIndex`. -/
def paramIndex (name : Bytes) : Option Nat := hdacParamArray.findIdx? (·.name = name)

theorem paramIndex_inj {first second : Bytes} {index : Nat} (firstAt : paramIndex first = some index)
    (secondAt : paramIndex second = some index) : first = second := by
  obtain ⟨inside, same, -⟩ := List.findIdx?_eq_some_iff_getElem.mp firstAt
  obtain ⟨_, sameSecond, -⟩ := List.findIdx?_eq_some_iff_getElem.mp secondAt
  exact (of_decide_eq_true same).symm.trans (of_decide_eq_true sameSecond)

theorem paramName_spec {name : Bytes} {index : Nat} (found : paramIndex name = some index) :
    name ≠ [] ∧ ∀ c ∈ name, c ≠ 0 := by
  have all : (hdacParamArray.all fun param => param.name ≠ [] && !param.name.contains 0) = true := by
    decide +kernel
  obtain ⟨inside, same, -⟩ := List.findIdx?_eq_some_iff_getElem.mp found
  have fits := List.all_eq_true.mp all _ (List.getElem_mem inside)
  rw [of_decide_eq_true same, Bool.and_eq_true, decide_eq_true_iff, Bool.not_eq_true',
    List.contains_eq_mem, decide_eq_false_iff_not] at fits
  refine ⟨fits.1, ?_⟩
  rintro c isIn rfl
  exact fits.2 isIn

end HdacNode
