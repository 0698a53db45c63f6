import HdacNode.HeaderSuccessors
import Mathlib.Data.List.Perm.Subperm

/-!
# The lists of blocks by height

Which blocks the walk along a height visits, and what starting a list, linking a block behind its
last one and adding a block to the index do to the lists.
-/

namespace HdacNode

theorem map_some_reduceOption {α : Type} {nodes : List (Option α)} (given : none ∉ nodes) :
    nodes.reduceOption.map some = nodes := by
  induction nodes with
  | nil => rfl
  | cons node rest ih =>
    cases node with
    | none => simp at given
    | some value =>
      rw [List.reduceOption_cons_of_some, List.map_cons,
        ih fun member => given (List.mem_cons_of_mem _ member)]

namespace HeaderStore

variable {Hash : Type} [DecidableEq Hash] {store : HeaderStore Hash} {listed : List Hash}

/-- The lists by height hold just the listed blocks, each in the list of its height, and only
listed blocks have links. -/
structure Threaded (store : HeaderStore Hash) (listed : List Hash) : Prop where
  heights : Bucketed store.nextOnThisHeight none store.firstOnThisHeight
    fun nHeight node => ∃ hash ∈ listed, node = some hash ∧ (store.index hash).nHeight = nHeight
  known : listed ⊆ store.mapBlockIndex
  nodup : store.mapBlockIndex.Nodup
  unlinked : ∀ hash ∉ listed, (store.index hash).pNextOnThisHeight = none
  unknown : ∀ hash ∉ store.mapBlockIndex, store.index hash = .blank

section Vector

variable (store) (nHeight : Nat)

omit [DecidableEq Hash] in
/-- Growing the vector by null pointers starts no list. -/
theorem resized_join (places other : Nat) :
    ((store.vFirstOnThisHeight ++ List.replicate places none)[other]?).join =
      store.firstOnThisHeight other := by
  rw [firstOnThisHeight, List.getElem?_append]
  split
  · rfl
  · rename_i outside
    rw [List.getElem?_eq_none (Nat.le_of_not_lt outside), List.getElem?_replicate]
    split <;> rfl

omit [DecidableEq Hash] in
theorem resized_set_join (hash : Hash) (other : Nat) :
    ((((store.vFirstOnThisHeight ++ List.replicate
      (nHeight + 1 - store.vFirstOnThisHeight.length) none).set nHeight (some hash))[other]?).join :
        Option Hash) =
      Function.update store.firstOnThisHeight nHeight (some hash) other := by
  by_cases same : other = nHeight
  · subst same
    have inside : other < (store.vFirstOnThisHeight ++ List.replicate
        (other + 1 - store.vFirstOnThisHeight.length) none).length := by
      simp
      omega
    rw [List.getElem?_set_self inside, Function.update_self]
    rfl
  · rw [List.getElem?_set_ne (Ne.symm same), resized_join, Function.update_of_ne same]

end Vector

namespace Threaded

/-- The walk along a height visits the listed blocks of that height, each once. -/
theorem blocksOnThisHeight_spec (threaded : Threaded store listed) (nHeight : Nat) :
    Threads store.nextOnThisHeight none (store.firstOnThisHeight nHeight)
        ((store.blocksOnThisHeight nHeight).map some) ∧
      (store.blocksOnThisHeight nHeight).Nodup ∧
      ∀ hash, hash ∈ store.blocksOnThisHeight nHeight ↔
        hash ∈ listed ∧ (store.index hash).nHeight = nHeight := by
  obtain ⟨nodes, threads, nodup, members⟩ := threaded.heights nHeight
  have hashes := map_some_reduceOption threads.stop_not_mem
  have member (hash : Hash) : hash ∈ nodes.reduceOption ↔
      hash ∈ listed ∧ (store.index hash).nHeight = nHeight := by
    rw [List.reduceOption_mem_iff, members]
    constructor
    · rintro ⟨other, isListed, same, height⟩
      cases same
      exact ⟨isListed, height⟩
    · rintro ⟨isListed, height⟩
      exact ⟨hash, isListed, rfl, height⟩
  have distinct : nodes.reduceOption.Nodup := by
    rw [← hashes] at nodup
    exact nodup.of_map some
  have short : nodes.length ≤ store.mapBlockIndex.length := by
    rw [← hashes, List.length_map]
    apply (distinct.subperm _).length_le
    intro hash inList
    exact threaded.known ((member hash).1 inList).1
  have walk : store.blocksOnThisHeight nHeight = nodes.reduceOption := by
    rw [blocksOnThisHeight, threads.nodesFrom_eq short]
  rw [walk, hashes]
  exact ⟨threads, distinct, member⟩

theorem mem_blocksOnThisHeight (threaded : Threaded store listed) {nHeight : Nat} {hash : Hash} :
    hash ∈ store.blocksOnThisHeight nHeight ↔
      hash ∈ listed ∧ (store.index hash).nHeight = nHeight :=
  (threaded.blocksOnThisHeight_spec nHeight).2.2 hash

/-- The walk visits no block just where the vector has a null pointer. -/
theorem firstOnThisHeight_eq_none_iff (threaded : Threaded store listed) {nHeight : Nat} :
    store.firstOnThisHeight nHeight = none ↔ store.blocksOnThisHeight nHeight = [] := by
  obtain ⟨threads, _, _⟩ := threaded.blocksOnThisHeight_spec nHeight
  constructor
  · intro empty
    rw [empty] at threads
    exact List.map_eq_nil_iff.1 threads.of_stop
  · intro empty
    rw [empty, List.map_nil] at threads
    generalize store.firstOnThisHeight nHeight = first at threads
    cases threads with
    | stop => rfl

end Threaded

section Update

variable (store)

/-- What `HdacNode_UpdateBlockByHeightList` does to an empty list. -/
theorem updateBlockByHeightList_of_empty {hash : Hash}
    (empty : store.blocksOnThisHeight (store.index hash).nHeight = []) :
    ∃ vector, store.updateBlockByHeightList hash = { store with vFirstOnThisHeight := vector } ∧
      ({ store with vFirstOnThisHeight := vector } : HeaderStore Hash).firstOnThisHeight =
        Function.update store.firstOnThisHeight (store.index hash).nHeight (some hash) := by
  refine ⟨_, by rw [updateBlockByHeightList, empty]; rfl, ?_⟩
  funext other
  exact resized_set_join store _ hash other

/-- What `HdacNode_UpdateBlockByHeightList` does to a list with a last block. -/
theorem updateBlockByHeightList_of_last {hash last : Hash} {front : List Hash}
    (blocks : store.blocksOnThisHeight (store.index hash).nHeight = front ++ [last]) :
    ∃ vector, store.updateBlockByHeightList hash =
        { store with
          vFirstOnThisHeight := vector
          index := Function.update store.index last
            { store.index last with pNextOnThisHeight := some hash } } ∧
      ∀ other, (vector[other]?).join = store.firstOnThisHeight other := by
  refine ⟨_, by rw [updateBlockByHeightList, blocks, List.getLast?_concat], ?_⟩
  exact resized_join store _

/-- Only the links change. -/
theorem updateBlockByHeightList_keeps (hash : Hash) :
    (store.updateBlockByHeightList hash).mapBlockIndex = store.mapBlockIndex ∧
      (store.updateBlockByHeightList hash).blockHeaderSuccessors = store.blockHeaderSuccessors ∧
      (store.updateBlockByHeightList hash).allocated = store.allocated ∧
      ∀ other, ∃ link, (store.updateBlockByHeightList hash).index other =
        { store.index other with pNextOnThisHeight := link } := by
  rcases List.eq_nil_or_concat' (store.blocksOnThisHeight (store.index hash).nHeight) with
    empty | ⟨front, last, blocks⟩
  · obtain ⟨vector, updated, _⟩ := store.updateBlockByHeightList_of_empty empty
    rw [updated]
    exact ⟨rfl, rfl, rfl, fun other => ⟨_, rfl⟩⟩
  · obtain ⟨vector, updated, _⟩ := store.updateBlockByHeightList_of_last blocks
    rw [updated]
    refine ⟨rfl, rfl, rfl, fun other => ?_⟩
    by_cases same : other = last
    · subst same
      exact ⟨some hash, Function.update_self ..⟩
    · exact ⟨_, Function.update_of_ne same ..⟩

variable {store}

/-- A known block that was not listed is listed. -/
theorem Threaded.update (threaded : Threaded store listed) {hash : Hash}
    (known : hash ∈ store.mapBlockIndex) (fresh : hash ∉ listed) :
    Threaded (store.updateBlockByHeightList hash) (listed ++ [hash]) := by
  have members (nHeight : Nat) (node : Option Hash) :
      ((∃ other ∈ listed, node = some other ∧ (store.index other).nHeight = nHeight) ∨
        nHeight = (store.index hash).nHeight ∧ node = some hash) ↔
      ∃ other ∈ listed ++ [hash], node = some other ∧ (store.index other).nHeight = nHeight := by
    constructor
    · rintro (⟨other, isListed, same, height⟩ | ⟨height, same⟩)
      · exact ⟨other, by simp [isListed], same, height⟩
      · exact ⟨hash, by simp, same, height.symm⟩
    · rintro ⟨other, isListed, same, height⟩
      rcases List.mem_append.1 isListed with before | isHash
      · exact Or.inl ⟨other, before, same, height⟩
      · rw [List.mem_singleton.1 isHash] at same height
        exact Or.inr ⟨height.symm, same⟩
  have link : store.nextOnThisHeight (some hash) = none := threaded.unlinked hash fresh
  have subset : listed ++ [hash] ⊆ store.mapBlockIndex := by
    intro other member
    rcases List.mem_append.1 member with before | isHash
    · exact threaded.known before
    · rw [List.mem_singleton.1 isHash]
      exact known
  rcases List.eq_nil_or_concat' (store.blocksOnThisHeight (store.index hash).nHeight) with
    empty | ⟨front, last, blocks⟩
  · obtain ⟨vector, updated, first⟩ := store.updateBlockByHeightList_of_empty empty
    rw [updated]
    refine ⟨?_, subset, threaded.nodup, ?_, threaded.unknown⟩
    · rw [first]
      exact (threaded.heights.start (threaded.firstOnThisHeight_eq_none_iff.2 empty) (by simp)
        link).congr members
    · intro other absent
      exact threaded.unlinked other fun member => absent (List.mem_append_left _ member)
  · obtain ⟨vector, updated, first⟩ := store.updateBlockByHeightList_of_last blocks
    obtain ⟨threads, _, onHeight⟩ :=
      threaded.blocksOnThisHeight_spec (store.index hash).nHeight
    rw [blocks, List.map_append, List.map_singleton] at threads
    have isLast := (onHeight last).1 (by simp [blocks])
    rw [updated]
    have heights (other : Hash) : (Function.update store.index last
        { store.index last with pNextOnThisHeight := some hash } other).nHeight =
        (store.index other).nHeight := by
      by_cases same : other = last
      · subst same
        rw [Function.update_self]
      · rw [Function.update_of_ne same]
    refine ⟨?_, subset, threaded.nodup, ?_, ?_⟩
    · have linked := threaded.heights.append threads (by
          rintro other ⟨block, _, same, height⟩
          cases same
          exact height.symm.trans isLast.2) (by simp) link (by
          rintro other ⟨block, isListed, same, _⟩
          cases same
          exact fresh isListed)
      have nexts : ({ store with
          vFirstOnThisHeight := vector
          index := Function.update store.index last
            { store.index last with pNextOnThisHeight := some hash } } :
              HeaderStore Hash).nextOnThisHeight =
          Function.update store.nextOnThisHeight (some last) (some hash) := by
        funext node
        cases node with
        | none => exact (Function.update_of_ne (by simp) ..).symm
        | some block =>
          by_cases same : block = last
          · subst same
            rw [Function.update_self]
            simp [nextOnThisHeight]
          · rw [Function.update_of_ne (by simpa using same)]
            simp [nextOnThisHeight, Function.update_of_ne same]
      have firsts : ({ store with
          vFirstOnThisHeight := vector
          index := Function.update store.index last
            { store.index last with pNextOnThisHeight := some hash } } :
              HeaderStore Hash).firstOnThisHeight = store.firstOnThisHeight := funext first
      rw [nexts, firsts]
      apply linked.congr
      intro nHeight node
      rw [members]
      simp only [heights]
    · intro other absent
      have other_ne : other ≠ last := by
        rintro rfl
        exact absent (List.mem_append_left _ isLast.1)
      simp only [Function.update_of_ne other_ne]
      exact threaded.unlinked other fun member => absent (List.mem_append_left _ member)
    · intro other absent
      have other_ne : other ≠ last := by
        rintro rfl
        exact absent (threaded.known isLast.1)
      simp only [Function.update_of_ne other_ne]
      exact threaded.unknown other absent

omit [DecidableEq Hash] in
/-- Changes of other fields leave the lists. -/
theorem Threaded.of_sameLinks (threaded : Threaded store listed) {other : HeaderStore Hash}
    (sameMap : other.mapBlockIndex = store.mapBlockIndex)
    (sameFirsts : other.firstOnThisHeight = store.firstOnThisHeight)
    (sameLinks : ∀ hash, (other.index hash).pNextOnThisHeight =
      (store.index hash).pNextOnThisHeight)
    (sameHeights : ∀ hash, (other.index hash).nHeight = (store.index hash).nHeight)
    (unknown : ∀ hash ∉ store.mapBlockIndex, other.index hash = store.index hash) :
    Threaded other listed := by
  have nexts : other.nextOnThisHeight = store.nextOnThisHeight := by
    funext node
    cases node with
    | none => rfl
    | some hash => exact sameLinks hash
  refine ⟨?_, ?_, ?_, ?_, ?_⟩
  · rw [nexts, sameFirsts]
    simp only [sameHeights]
    exact threaded.heights
  · rw [sameMap]
    exact threaded.known
  · rw [sameMap]
    exact threaded.nodup
  · intro hash absent
    rw [sameLinks]
    exact threaded.unlinked hash absent
  · intro hash absent
    rw [sameMap] at absent
    rw [unknown hash absent]
    exact threaded.unknown hash absent

theorem addToBlockIndex_keeps {hash : Hash} (fresh : hash ∉ store.mapBlockIndex)
    (hashPrevBlock : Hash) :
    (store.addToBlockIndex hash hashPrevBlock).mapBlockIndex = store.mapBlockIndex ++ [hash] ∧
      (store.addToBlockIndex hash hashPrevBlock).blockHeaderSuccessors =
        store.blockHeaderSuccessors ∧
      (store.addToBlockIndex hash hashPrevBlock).allocated = store.allocated ∧
      (∀ other, other ≠ hash → ∃ link,
        (store.addToBlockIndex hash hashPrevBlock).index other =
          { store.index other with pNextOnThisHeight := link }) ∧
      ((store.addToBlockIndex hash hashPrevBlock).index hash).pprev =
        (if hashPrevBlock ∈ store.mapBlockIndex then some hashPrevBlock else none) ∧
      ((store.addToBlockIndex hash hashPrevBlock).index hash).nFirstSuccessor = 0 := by
  rw [addToBlockIndex, if_neg fresh]
  obtain ⟨sameMap, sameRows, sameSize, sameIndex⟩ := updateBlockByHeightList_keeps
    { store with
      mapBlockIndex := store.mapBlockIndex ++ [hash]
      index := Function.update store.index hash
        { HeaderIndex.blank with
          pprev := if hashPrevBlock ∈ store.mapBlockIndex then some hashPrevBlock else none
          nHeight := (if hashPrevBlock ∈ store.mapBlockIndex then some hashPrevBlock
            else none).elim 0 fun miPrev => (store.index miPrev).nHeight + 1 } } hash
  refine ⟨sameMap, sameRows, sameSize, ?_, ?_, ?_⟩
  · intro other different
    obtain ⟨link, same⟩ := sameIndex other
    refine ⟨link, same.trans ?_⟩
    simp only [Function.update_of_ne different]
  · obtain ⟨link, same⟩ := sameIndex hash
    rw [same]
    simp only [Function.update_self]
  · obtain ⟨link, same⟩ := sameIndex hash
    rw [same]
    simp only [Function.update_self]
    rfl

/-- A new block is listed. -/
theorem Threaded.add (threaded : Threaded store listed) {hash : Hash}
    (fresh : hash ∉ store.mapBlockIndex) (hashPrevBlock : Hash) :
    Threaded (store.addToBlockIndex hash hashPrevBlock) (listed ++ [hash]) := by
  have unlisted : hash ∉ listed := fun member => fresh (threaded.known member)
  rw [addToBlockIndex, if_neg fresh]
  apply Threaded.update _ (by simp) unlisted
  have nexts : ∀ (entry : HeaderIndex Hash), entry.pNextOnThisHeight = none →
      ({ store with
        mapBlockIndex := store.mapBlockIndex ++ [hash]
        index := Function.update store.index hash entry } : HeaderStore Hash).nextOnThisHeight =
        store.nextOnThisHeight := by
    intro entry unlinked
    funext node
    cases node with
    | none => rfl
    | some other =>
      by_cases same : other = hash
      · subst same
        simp [nextOnThisHeight, unlinked, threaded.unlinked other unlisted]
      · simp [nextOnThisHeight, Function.update_of_ne same]
  refine ⟨?_, ?_, ?_, ?_, ?_⟩
  · rw [nexts _ rfl]
    apply threaded.heights.congr
    intro nHeight node
    apply exists_congr
    intro other
    constructor
    · rintro ⟨isListed, same, height⟩
      have different : other ≠ hash := fun isHash => unlisted (isHash ▸ isListed)
      simp only [Function.update_of_ne different]
      exact ⟨isListed, same, height⟩
    · rintro ⟨isListed, same, height⟩
      have different : other ≠ hash := fun isHash => unlisted (isHash ▸ isListed)
      simp only [Function.update_of_ne different] at height
      exact ⟨isListed, same, height⟩
  · exact List.Subset.trans threaded.known (List.subset_append_left _ _)
  · exact List.nodup_append.2 ⟨threaded.nodup, List.nodup_singleton hash, by
      rintro member isKnown one single rfl
      exact fresh (List.mem_singleton.1 single ▸ isKnown)⟩
  · intro other absent
    by_cases same : other = hash
    · subst same
      simp only [Function.update_self]
      rfl
    · simp only [Function.update_of_ne same]
      exact threaded.unlinked other absent
  · intro other absent
    have different : other ≠ hash := by
      rintro rfl
      exact absent (by simp)
    simp only [Function.update_of_ne different]
    exact threaded.unknown other fun member => absent (List.mem_append_left _ member)

/-- Before the headers of a height are counted, an empty list is started with the block
before. -/
theorem Threaded.listedForPrev (threaded : Threaded store listed) {pindexPrev : Hash}
    (known : pindexPrev ∈ store.mapBlockIndex) :
    ∃ others, Threaded (store.listedForPrev pindexPrev) (listed ++ others) ∧
      (store.firstOnThisHeight (store.index pindexPrev).nHeight = none →
        pindexPrev ∈ others) := by
  rw [HeaderStore.listedForPrev]
  split_ifs with empty
  · refine ⟨[pindexPrev], threaded.update known ?_, fun _ => by simp⟩
    intro isListed
    have none := threaded.firstOnThisHeight_eq_none_iff.1 empty
    have member := threaded.mem_blocksOnThisHeight.2 ⟨isListed, rfl⟩
    rw [none] at member
    simp at member
  · refine ⟨[], ?_, fun started => absurd started empty⟩
    rw [List.append_nil]
    exact threaded

end Update

end HeaderStore

end HdacNode
