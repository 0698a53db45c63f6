import HdacNode.LinkedBuckets
import Mathlib.Data.List.ReduceOption

/-!
# Headers accepted from a peer

`main.cpp`: `AcceptBlockHeader` counts the headers it accepted from a peer on the blocks of one
height.  The blocks of a height are linked through `pNextOnThisHeight`, the headers accepted on
a block are rows of `m_BlockHeaderSuccessors` linked through `m_Next`.
-/

namespace HdacNode

/-- `mc_BlockHeaderInfo`, a row of `m_BlockHeaderSuccessors`. -/
structure BlockHeaderInfo where
  nodeId : Int
  next : Nat
  deriving DecidableEq, Repr

/-- What the acceptance of headers reads and writes of a `CBlockIndex`. -/
structure HeaderIndex (Hash : Type) where
  pprev : Option Hash
  nHeight : Nat
  failed : Bool
  nFirstSuccessor : Nat
  pNextOnThisHeight : Option Hash
  deriving DecidableEq, Repr

/-- A `CBlockIndex` without links. -/
def HeaderIndex.blank {Hash : Type} : HeaderIndex Hash := ⟨none, 0, false, 0, none⟩

/-- The block index and the lists that are threaded through it. -/
structure HeaderStore (Hash : Type) where
  mapBlockIndex : List Hash
  index : Hash → HeaderIndex Hash
  vFirstOnThisHeight : List (Option Hash)
  blockHeaderSuccessors : List BlockHeaderInfo
  /-- The rows that fit in the memory of `m_BlockHeaderSuccessors`. -/
  allocated : Nat

/-- A header that arrives, with what the checks outside of the lists find. -/
structure ArrivingHeader (Hash : Type) where
  hash : Hash
  hashPrevBlock : Hash
  nodeId : Int
  pindexChecked : Option Hash
  checkBranchForInvalidBlocks : Bool
  checkBlockHeader : Bool
  contextualCheckBlockHeader : Bool
  deriving DecidableEq, Repr

namespace HeaderStore

variable {Hash : Type} [DecidableEq Hash] (store : HeaderStore Hash)

section Walks

/-- `vFirstOnThisHeight[nHeight]`, empty beyond the end of the vector. -/
def firstOnThisHeight (nHeight : Nat) : Option Hash := store.vFirstOnThisHeight[nHeight]?.join

/-- `pNextOnThisHeight`. -/
def nextOnThisHeight (pindex : Option Hash) : Option Hash :=
  pindex.bind fun hash => (store.index hash).pNextOnThisHeight

/-- The blocks that a walk along a height visits. -/
def blocksOnThisHeight (nHeight : Nat) : List Hash :=
  (nodesFrom store.nextOnThisHeight none store.mapBlockIndex.length
    (store.firstOnThisHeight nHeight)).reduceOption

/-- `m_Next` of a row. -/
def nextSuccessor (successor : Nat) : Nat :=
  (store.blockHeaderSuccessors[successor]?).elim 0 BlockHeaderInfo.next

/-- The rows that a walk along the successors of a block visits. -/
def successorsOf (hash : Hash) : List Nat :=
  nodesFrom store.nextSuccessor 0 store.blockHeaderSuccessors.length
    (store.index hash).nFirstSuccessor

/-- Whether a row was added for a node. -/
def isFrom (nodeId : Int) (successor : Nat) : Bool :=
  (store.blockHeaderSuccessors[successor]?).any (·.nodeId == nodeId)

/-- `successors_from_this_node`. -/
def successorsFromThisNode (nodeId : Int) (nHeight : Nat) : Nat :=
  ((store.blocksOnThisHeight nHeight).flatMap store.successorsOf).countP (store.isFrom nodeId)

/-- `lpNextForPrev`: the last row of the block before, if the walk comes to that block. -/
def nextForPrev (pindexPrev : Hash) : Option Nat :=
  if pindexPrev ∈ store.blocksOnThisHeight (store.index pindexPrev).nHeight then
    (store.successorsOf pindexPrev).getLast?
  else none

end Walks

/-- `HdacNode_UpdateBlockByHeightList`. -/
def updateBlockByHeightList (pindex : Hash) : HeaderStore Hash :=
  let nHeight := (store.index pindex).nHeight
  let resized := store.vFirstOnThisHeight ++
    List.replicate (nHeight + 1 - store.vFirstOnThisHeight.length) none
  match (store.blocksOnThisHeight nHeight).getLast? with
  | some pTmp =>
    { store with
      vFirstOnThisHeight := resized
      index := Function.update store.index pTmp
        { store.index pTmp with pNextOnThisHeight := some pindex } }
  | none => { store with vFirstOnThisHeight := resized.set nHeight (some pindex) }

/-- `AddToBlockIndex`. -/
def addToBlockIndex (hash hashPrevBlock : Hash) : HeaderStore Hash :=
  if hash ∈ store.mapBlockIndex then store
  else
    let pprev := if hashPrevBlock ∈ store.mapBlockIndex then some hashPrevBlock else none
    let pindexNew :=
      { HeaderIndex.blank with
        pprev
        nHeight := pprev.elim 0 fun miPrev => (store.index miPrev).nHeight + 1 }
    { store with
      mapBlockIndex := store.mapBlockIndex ++ [hash]
      index := Function.update store.index hash pindexNew }.updateBlockByHeightList hash

/-- The list of a height is started with the block before if it is empty, as it is after the
index was loaded. -/
def listedForPrev (pindexPrev : Hash) : HeaderStore Hash :=
  if store.firstOnThisHeight (store.index pindexPrev).nHeight = none then
    store.updateBlockByHeightList pindexPrev
  else store

/-- A row for an accepted header.  Where the memory is allocated anew, `lpNextForPrev` points into
the memory that was freed, and the row is not linked. -/
def addSuccessor (pindexPrev : Hash) (nodeId : Int) : HeaderStore Hash :=
  let successor := store.blockHeaderSuccessors.length
  let added := store.blockHeaderSuccessors ++ [⟨nodeId, 0⟩]
  let reallocated := store.allocated < successor + 1
  let grown := if reallocated then (successor / 256 + 1) * 256 else store.allocated
  match store.nextForPrev pindexPrev with
  | some lpNextForPrev =>
    { store with
      allocated := grown
      blockHeaderSuccessors :=
        if reallocated then added
        else added.modify lpNextForPrev fun info => { info with next := successor } }
  | none =>
    { store with
      allocated := grown
      blockHeaderSuccessors := added
      index := Function.update store.index pindexPrev
        { store.index pindexPrev with nFirstSuccessor := successor } }

/-- `AcceptBlockHeader`, with the limit of `-maxheadersfrompeer`.  The result says whether the
header is accepted or was known before. -/
def acceptBlockHeader (hashGenesisBlock : Hash) (maxHeadersFromPeer : Int)
    (header : ArrivingHeader Hash) : Bool × HeaderStore Hash :=
  if header.hash ∈ store.mapBlockIndex then
    if (store.index header.hash).failed then (false, store)
    else
      (header.pindexChecked = (store.index header.hash).pprev ∨
        header.checkBranchForInvalidBlocks, store)
  else if ¬ header.checkBlockHeader then (false, store)
  else if header.hash = hashGenesisBlock then
    if ¬ header.contextualCheckBlockHeader then (false, store)
    else (true, store.addToBlockIndex header.hash header.hashPrevBlock)
  else if header.hashPrevBlock ∉ store.mapBlockIndex then (false, store)
  else if (store.index header.hashPrevBlock).failed then (false, store)
  else if ¬ header.contextualCheckBlockHeader then (false, store)
  else if header.nodeId ≤ 0 then
    (true, store.addToBlockIndex header.hash header.hashPrevBlock)
  else
    let listed := store.listedForPrev header.hashPrevBlock
    let nHeight := (listed.index header.hashPrevBlock).nHeight
    if maxHeadersFromPeer ≤ listed.successorsFromThisNode header.nodeId nHeight then
      (false, listed)
    else
      (true, (listed.addSuccessor header.hashPrevBlock header.nodeId).addToBlockIndex
        header.hash header.hashPrevBlock)

/-- What a restart loads: the entries that were written, without lists. -/
def reload (written : Hash → Bool) : HeaderStore Hash where
  mapBlockIndex := store.mapBlockIndex.filter written
  index hash :=
    if hash ∈ store.mapBlockIndex.filter written then
      { store.index hash with nFirstSuccessor := 0, pNextOnThisHeight := none }
    else .blank
  vFirstOnThisHeight := []
  blockHeaderSuccessors := [⟨0, 0⟩]
  allocated := 256

/-- Blocks become invalid or are reconsidered. -/
def setFailed (failed : Hash → Bool) : HeaderStore Hash :=
  { store with
    index := fun hash =>
      if hash ∈ store.mapBlockIndex then { store.index hash with failed := failed hash }
      else store.index hash }

/-- The store of a new node. -/
def empty : HeaderStore Hash where
  mapBlockIndex := []
  index _ := .blank
  vFirstOnThisHeight := []
  blockHeaderSuccessors := [⟨0, 0⟩]
  allocated := 256

end HeaderStore

end HdacNode
