import HdacNode.HeaderLists
import Mathlib.Data.List.Induction

/-!
# The headers that are counted

While the block that a header extends is in the list of its height and the link to its row is not
lost, the rows that `AcceptBlockHeader` counts are just the headers it accepted.
-/

namespace HdacNode

theorem countP_range_getElem? {α : Type} (p : α → Bool) (values : List α) :
    (List.range values.length).countP (fun place => (values[place]?).any p) =
      values.countP p := by
  induction values using List.reverseRecOn with
  | nil => rfl
  | append_singleton values value ih =>
    have before : (List.range values.length).countP
        (fun place => ((values ++ [value])[place]?).any p) =
        (List.range values.length).countP (fun place => (values[place]?).any p) := by
      apply List.countP_congr
      intro place inside
      rw [List.getElem?_append_left (List.mem_range.1 inside)]
    rw [List.length_append, List.length_singleton, List.range_succ, List.countP_append,
      List.countP_append, before, ih]
    simp [List.countP_cons]

theorem map_modify_of_comp {α β : Type} {f : α → α} {g : α → β} (values : List α) (place : Nat)
    (same : ∀ value, g (f value) = g value) : (values.modify place f).map g = values.map g := by
  apply List.ext_getElem?
  intro other
  rw [List.getElem?_map, List.getElem?_map, List.getElem?_modify]
  cases values[other]? with
  | none => rfl
  | some value => by_cases here : place = other <;> simp [here, same]

namespace HeaderStore

variable {Hash : Type} [DecidableEq Hash] {store : HeaderStore Hash} {listed : List Hash}
  {accepted : List (Int × Hash)}

omit [DecidableEq Hash] in
/-- A row that is added ends no list differently. -/
theorem nextSuccessor_append (store : HeaderStore Hash) (nodeId : Int) (successor : Nat) :
    ((store.blockHeaderSuccessors ++ [⟨nodeId, 0⟩])[successor]?).elim 0 BlockHeaderInfo.next =
      store.nextSuccessor successor := by
  rw [nextSuccessor]
  by_cases inside : successor < store.blockHeaderSuccessors.length
  · rw [List.getElem?_append_left inside]
  · rw [List.getElem?_append_right (by omega), List.getElem?_eq_none (Nat.le_of_not_lt inside)]
    cases successor - store.blockHeaderSuccessors.length <;> rfl

/-- The rows are the accepted headers in order, and the rows of a block are linked from it. -/
structure Chained (store : HeaderStore Hash) (accepted : List (Int × Hash)) : Prop where
  rows : store.blockHeaderSuccessors.map BlockHeaderInfo.nodeId = 0 :: accepted.map Prod.fst
  chains : Bucketed store.nextSuccessor 0 (fun hash => (store.index hash).nFirstSuccessor)
    fun hash successor => ∃ place, successor = place + 1 ∧
      (accepted[place]?).map Prod.snd = some hash

namespace Chained

omit [DecidableEq Hash] in
theorem length_rows (chained : Chained store accepted) :
    store.blockHeaderSuccessors.length = accepted.length + 1 := by
  have lengths := congrArg List.length chained.rows
  simpa using lengths

omit [DecidableEq Hash] in
theorem isFrom_succ (chained : Chained store accepted) (nodeId : Int) (place : Nat) :
    store.isFrom nodeId (place + 1) = (accepted[place]?).any (·.1 == nodeId) := by
  have same := congrArg (·[place + 1]?) chained.rows
  simp only [List.getElem?_map, List.getElem?_cons_succ] at same
  rw [isFrom]
  cases row : store.blockHeaderSuccessors[place + 1]? with
  | none => cases header : accepted[place]? <;> simp_all
  | some info => cases header : accepted[place]? <;> simp_all

omit [DecidableEq Hash] in
/-- The walk along the successors of a block visits the rows of the headers that extend it. -/
theorem successorsOf_spec (chained : Chained store accepted) (hash : Hash) :
    Threads store.nextSuccessor 0 (store.index hash).nFirstSuccessor (store.successorsOf hash) ∧
      (store.successorsOf hash).Nodup ∧
      ∀ successor, successor ∈ store.successorsOf hash ↔
        ∃ place, successor = place + 1 ∧ (accepted[place]?).map Prod.snd = some hash := by
  obtain ⟨rows, threads, nodup, members⟩ := chained.chains hash
  have short : rows.length ≤ store.blockHeaderSuccessors.length := by
    rw [← List.length_range (n := store.blockHeaderSuccessors.length)]
    apply (nodup.subperm _).length_le
    intro successor member
    obtain ⟨place, rfl, parent⟩ := (members successor).1 member
    rw [List.mem_range, chained.length_rows]
    have inside : place < accepted.length := by
      by_contra outside
      rw [List.getElem?_eq_none (by omega)] at parent
      simp at parent
    omega
  rw [successorsOf, threads.nodesFrom_eq short]
  exact ⟨threads, nodup, members⟩

/-- What `AcceptBlockHeader` counts: the headers that were accepted from a node on the blocks of
a height, if those blocks are listed. -/
theorem successorsFromThisNode_eq (chained : Chained store accepted)
    (threaded : Threaded store listed) (parents : ∀ header ∈ accepted, header.2 ∈ listed)
    (nodeId : Int) (nHeight : Nat) :
    store.successorsFromThisNode nodeId nHeight =
      accepted.countP fun header =>
        header.1 == nodeId && (store.index header.2).nHeight == nHeight := by
  obtain ⟨_, blocksNodup, _⟩ := threaded.blocksOnThisHeight_spec nHeight
  have visited (successor : Nat) :
      successor ∈ (store.blocksOnThisHeight nHeight).flatMap store.successorsOf ↔
        ∃ place, successor = place + 1 ∧
          (accepted[place]?).any (fun header => (store.index header.2).nHeight == nHeight) := by
    rw [List.mem_flatMap]
    constructor
    · rintro ⟨hash, onHeight, member⟩
      obtain ⟨place, rfl, parent⟩ := ((chained.successorsOf_spec hash).2.2 successor).1 member
      obtain ⟨header, found, rfl⟩ := Option.map_eq_some_iff.1 parent
      refine ⟨place, rfl, ?_⟩
      rw [found]
      simpa using (threaded.mem_blocksOnThisHeight.1 onHeight).2
    · rintro ⟨place, rfl, found⟩
      obtain ⟨header, read, height⟩ := (Option.any_eq_true _ _).1 found
      refine ⟨header.2, threaded.mem_blocksOnThisHeight.2 ⟨?_, by simpa using height⟩, ?_⟩
      · exact parents header (List.mem_of_getElem? read)
      · exact ((chained.successorsOf_spec _).2.2 _).2 ⟨place, rfl, by rw [read]; rfl⟩
  have distinct : ((store.blocksOnThisHeight nHeight).flatMap store.successorsOf).Nodup := by
    rw [List.nodup_flatMap]
    refine ⟨fun hash _ => (chained.successorsOf_spec hash).2.1, blocksNodup.imp ?_⟩
    intro hash other different successor member also
    obtain ⟨place, rfl, parent⟩ := ((chained.successorsOf_spec hash).2.2 successor).1 member
    obtain ⟨same, given, parent'⟩ := ((chained.successorsOf_spec other).2.2 _).1 also
    cases given
    rw [parent] at parent'
    exact different (Option.some.inj parent')
  have places : ((store.blocksOnThisHeight nHeight).flatMap store.successorsOf).Perm
      (((List.range accepted.length).filter fun place => (accepted[place]?).any
        fun header => (store.index header.2).nHeight == nHeight).map (· + 1)) := by
    rw [List.perm_ext_iff_of_nodup distinct
      ((List.nodup_range.filter _).map fun place other same => Nat.succ.inj same)]
    intro successor
    rw [visited, List.mem_map]
    constructor
    · rintro ⟨place, rfl, found⟩
      obtain ⟨header, read, _⟩ := (Option.any_eq_true _ _).1 found
      have inside := (List.getElem?_eq_some_iff.1 read).1
      exact ⟨place, List.mem_filter.2 ⟨List.mem_range.2 inside, found⟩, rfl⟩
    · rintro ⟨place, member, rfl⟩
      exact ⟨place, rfl, (List.mem_filter.1 member).2⟩
  rw [successorsFromThisNode, places.countP_eq, List.countP_map, List.countP_filter,
    ← countP_range_getElem? _ accepted]
  apply List.countP_congr
  intro place _
  rw [Function.comp_apply, chained.isFrom_succ]
  cases accepted[place]? <;> simp

omit [DecidableEq Hash] in
/-- Changes of other fields leave the rows. -/
theorem of_sameRows (chained : Chained store accepted) {other : HeaderStore Hash}
    (sameRows : other.blockHeaderSuccessors = store.blockHeaderSuccessors)
    (sameFirsts : ∀ hash, (other.index hash).nFirstSuccessor =
      (store.index hash).nFirstSuccessor) : Chained other accepted := by
  have nexts : other.nextSuccessor = store.nextSuccessor := by
    funext successor
    rw [nextSuccessor, nextSuccessor, sameRows]
  refine ⟨?_, ?_⟩
  · rw [sameRows]
    exact chained.rows
  · rw [nexts]
    simp only [sameFirsts]
    exact chained.chains

omit [DecidableEq Hash] in
theorem extends_append_iff (nodeId : Int) (pindexPrev hash : Hash) (successor : Nat) :
    ((∃ place, successor = place + 1 ∧ (accepted[place]?).map Prod.snd = some hash) ∨
      hash = pindexPrev ∧ successor = accepted.length + 1) ↔
    ∃ place, successor = place + 1 ∧
      ((accepted ++ [(nodeId, pindexPrev)])[place]?).map Prod.snd = some hash := by
  constructor
  · rintro (⟨place, rfl, parent⟩ | ⟨rfl, rfl⟩)
    · obtain ⟨header, found, _⟩ := Option.map_eq_some_iff.1 parent
      have inside := (List.getElem?_eq_some_iff.1 found).1
      exact ⟨place, rfl, by rw [List.getElem?_append_left inside]; exact parent⟩
    · exact ⟨accepted.length, rfl, by simp⟩
  · rintro ⟨place, rfl, parent⟩
    by_cases inside : place < accepted.length
    · rw [List.getElem?_append_left inside] at parent
      exact Or.inl ⟨place, rfl, parent⟩
    · obtain ⟨header, found, same⟩ := Option.map_eq_some_iff.1 parent
      have isLast : place = accepted.length := by
        have short := (List.getElem?_eq_some_iff.1 found).1
        simp at short
        omega
      subst isLast
      simp at found
      subst found
      exact Or.inr ⟨same.symm, rfl⟩

/-- A row whose link is not lost keeps the rows linked. -/
theorem addSuccessor (chained : Chained store accepted) {pindexPrev : Hash}
    (isListed : pindexPrev ∈ store.blocksOnThisHeight (store.index pindexPrev).nHeight)
    (nodeId : Int)
    (kept : store.blockHeaderSuccessors.length < store.allocated ∨
      store.successorsOf pindexPrev = []) :
    Chained (store.addSuccessor pindexPrev nodeId) (accepted ++ [(nodeId, pindexPrev)]) := by
  obtain ⟨threads, _, members⟩ := chained.successorsOf_spec pindexPrev
  have count := chained.length_rows
  have beyond : store.nextSuccessor store.blockHeaderSuccessors.length = 0 := by
    rw [nextSuccessor, List.getElem?_eq_none (Nat.le_refl _)]
    rfl
  have grown (hash : Hash) (successor : Nat) :
      ((∃ place, successor = place + 1 ∧ (accepted[place]?).map Prod.snd = some hash) ∨
        hash = pindexPrev ∧ successor = store.blockHeaderSuccessors.length) ↔
      ∃ place, successor = place + 1 ∧
        ((accepted ++ [(nodeId, pindexPrev)])[place]?).map Prod.snd = some hash := by
    rw [count]
    exact extends_append_iff nodeId pindexPrev hash successor
  have unused (hash : Hash) : ¬ ∃ place, store.blockHeaderSuccessors.length = place + 1 ∧
      (accepted[place]?).map Prod.snd = some hash := by
    rintro ⟨place, same, parent⟩
    rw [List.getElem?_eq_none (by omega)] at parent
    simp at parent
  have appended := store.nextSuccessor_append nodeId
  rcases List.eq_nil_or_concat' (store.successorsOf pindexPrev) with empty | ⟨front, last, rows⟩
  · have noRow : store.nextForPrev pindexPrev = none := by
      rw [nextForPrev, if_pos isListed, empty]
      rfl
    rw [empty] at threads
    have first : (store.index pindexPrev).nFirstSuccessor = 0 := by
      generalize (store.index pindexPrev).nFirstSuccessor = start at threads
      cases threads with
      | stop => rfl
    rw [HeaderStore.addSuccessor, noRow]
    refine ⟨by simp [chained.rows], ?_⟩
    have started := (chained.chains.start first (by omega) beyond).congr grown
    have nexts : ∀ (allocated : Nat) (index : Hash → HeaderIndex Hash),
        ({ store with
          allocated
          blockHeaderSuccessors := store.blockHeaderSuccessors ++ [⟨nodeId, 0⟩]
          index } : HeaderStore Hash).nextSuccessor = store.nextSuccessor :=
      fun _ _ => funext appended
    rw [nexts]
    convert started using 1
    funext hash
    by_cases same : hash = pindexPrev
    · subst same
      simp
    · simp [Function.update_of_ne same]
  · have lastRow : store.nextForPrev pindexPrev = some last := by
      rw [nextForPrev, if_pos isListed, rows, List.getLast?_concat]
    rw [rows] at threads
    have fits : ¬ store.allocated < store.blockHeaderSuccessors.length + 1 := by
      rcases kept with room | empty
      · omega
      · simp [rows] at empty
    obtain ⟨place, isLast, parent⟩ := (members last).1 (by simp [rows])
    have inside : last < store.blockHeaderSuccessors.length := by
      obtain ⟨header, found, _⟩ := Option.map_eq_some_iff.1 parent
      have short := (List.getElem?_eq_some_iff.1 found).1
      omega
    rw [HeaderStore.addSuccessor, lastRow]
    simp only [if_neg fits]
    refine ⟨?_, ?_⟩
    · refine (map_modify_of_comp _ _ ?_).trans ?_
      · exact fun _ => rfl
      · simp [chained.rows]
    · have linked := (chained.chains.append threads (by
          rintro other ⟨place', isLast', parent'⟩
          obtain rfl : place' = place := by omega
          rw [parent] at parent'
          exact (Option.some.inj parent').symm) (by omega) beyond unused).congr grown
      convert linked using 1
      funext successor
      by_cases same : successor = last
      · subst same
        rw [Function.update_self]
        simp [nextSuccessor, List.getElem?_append_left inside, inside]
      · rw [Function.update_of_ne same, ← appended]
        simp only [nextSuccessor, List.getElem?_modify, Ne.symm same, if_false]
        cases (store.blockHeaderSuccessors ++ [⟨nodeId, 0⟩])[successor]? <;> rfl

end Chained

/-- Adding a row changes no link along a height. -/
theorem addSuccessor_keeps (store : HeaderStore Hash) (pindexPrev : Hash) (nodeId : Int) :
    (store.addSuccessor pindexPrev nodeId).mapBlockIndex = store.mapBlockIndex ∧
      (store.addSuccessor pindexPrev nodeId).firstOnThisHeight = store.firstOnThisHeight ∧
      ∀ hash, ∃ successor, (store.addSuccessor pindexPrev nodeId).index hash =
        { store.index hash with nFirstSuccessor := successor } ∧
          (hash ≠ pindexPrev → successor = (store.index hash).nFirstSuccessor) := by
  rw [addSuccessor]
  cases store.nextForPrev pindexPrev with
  | some last => exact ⟨rfl, rfl, fun hash => ⟨_, rfl, fun _ => rfl⟩⟩
  | none =>
    refine ⟨rfl, rfl, fun hash => ?_⟩
    by_cases same : hash = pindexPrev
    · subst same
      exact ⟨_, Function.update_self .., fun different => absurd rfl different⟩
    · exact ⟨_, Function.update_of_ne same .., fun _ => rfl⟩

theorem Threaded.addSuccessor (threaded : Threaded store listed) {pindexPrev : Hash}
    (known : pindexPrev ∈ store.mapBlockIndex) (nodeId : Int) :
    Threaded (store.addSuccessor pindexPrev nodeId) listed := by
  obtain ⟨sameMap, sameFirsts, sameIndex⟩ := addSuccessor_keeps store pindexPrev nodeId
  apply threaded.of_sameLinks sameMap sameFirsts
  · intro hash
    obtain ⟨_, same, _⟩ := sameIndex hash
    rw [same]
  · intro hash
    obtain ⟨_, same, _⟩ := sameIndex hash
    rw [same]
  · intro hash absent
    obtain ⟨successor, same, kept⟩ := sameIndex hash
    rw [same, kept]
    rintro rfl
    exact absent known

/-- A new block has no successors yet. -/
theorem Chained.add (chained : Chained store accepted) (threaded : Threaded store listed)
    {hash : Hash} (fresh : hash ∉ store.mapBlockIndex) (hashPrevBlock : Hash) :
    Chained (store.addToBlockIndex hash hashPrevBlock) accepted := by
  obtain ⟨_, sameRows, _, sameIndex, _, unused⟩ := addToBlockIndex_keeps fresh hashPrevBlock
  apply chained.of_sameRows sameRows
  intro other
  by_cases same : other = hash
  · rw [same, unused, threaded.unknown hash fresh]
    rfl
  · obtain ⟨link, kept⟩ := sameIndex other same
    rw [kept]

theorem listedForPrev_keeps (store : HeaderStore Hash) (pindexPrev : Hash) :
    (store.listedForPrev pindexPrev).mapBlockIndex = store.mapBlockIndex ∧
      (store.listedForPrev pindexPrev).blockHeaderSuccessors = store.blockHeaderSuccessors ∧
      (store.listedForPrev pindexPrev).allocated = store.allocated ∧
      ∀ other, ∃ link, (store.listedForPrev pindexPrev).index other =
        { store.index other with pNextOnThisHeight := link } := by
  rw [listedForPrev]
  split_ifs
  · exact store.updateBlockByHeightList_keeps pindexPrev
  · exact ⟨rfl, rfl, rfl, fun other => ⟨_, rfl⟩⟩

theorem Chained.listedForPrev (chained : Chained store accepted) (pindexPrev : Hash) :
    Chained (store.listedForPrev pindexPrev) accepted := by
  obtain ⟨_, sameRows, _, sameIndex⟩ := store.listedForPrev_keeps pindexPrev
  apply chained.of_sameRows sameRows
  intro hash
  obtain ⟨_, same⟩ := sameIndex hash
  rw [same]

/-- What `AcceptBlockHeader` does to the store. -/
theorem acceptBlockHeader_cases (store : HeaderStore Hash) (hashGenesisBlock : Hash)
    (maxHeadersFromPeer : Int) (header : ArrivingHeader Hash) :
    (store.acceptBlockHeader hashGenesisBlock maxHeadersFromPeer header).2 = store ∨
    header.hash ∉ store.mapBlockIndex ∧
      ((header.hash = hashGenesisBlock ∨ header.nodeId ≤ 0) ∧
        (store.acceptBlockHeader hashGenesisBlock maxHeadersFromPeer header).2 =
          store.addToBlockIndex header.hash header.hashPrevBlock ∨
      header.hash ≠ hashGenesisBlock ∧ 0 < header.nodeId ∧
        header.hashPrevBlock ∈ store.mapBlockIndex ∧
        ((store.acceptBlockHeader hashGenesisBlock maxHeadersFromPeer header).2 =
            store.listedForPrev header.hashPrevBlock ∨
          ((store.listedForPrev header.hashPrevBlock).successorsFromThisNode header.nodeId
              ((store.listedForPrev header.hashPrevBlock).index header.hashPrevBlock).nHeight <
                maxHeadersFromPeer ∧
            (store.acceptBlockHeader hashGenesisBlock maxHeadersFromPeer header).2 =
              ((store.listedForPrev header.hashPrevBlock).addSuccessor header.hashPrevBlock
                header.nodeId).addToBlockIndex header.hash header.hashPrevBlock))) := by
  rw [acceptBlockHeader]
  dsimp only
  split_ifs with known failed unchecked genesis wrong orphan invalid unfit unlimited full
  all_goals first | exact Or.inl rfl | skip
  · exact Or.inr ⟨known, Or.inl ⟨Or.inl genesis, rfl⟩⟩
  · exact Or.inr ⟨known, Or.inl ⟨Or.inr unlimited, rfl⟩⟩
  · refine Or.inr ⟨known, Or.inr ⟨genesis, by omega, by simpa using orphan, Or.inl rfl⟩⟩
  · refine Or.inr ⟨known, Or.inr ⟨genesis, by omega, by simpa using orphan, Or.inr ⟨?_, rfl⟩⟩⟩
    exact Int.not_le.1 full

end HeaderStore

end HdacNode
