import HdacNode.BlockCoins

/-!
# Undoing the inputs of a transaction

Spending an output is undone by its undo data, unless it was the last output of coins
of height 0: the undo data of these looks like that of an output with others left.
No undo data makes an output available that no input spent.  Undo data is read from a
file, where its version may have become another one; coins that are emptied then come
back with that version.
-/

namespace HdacNode

/-- Reading undo data back leaves it as it was but for its version, of which it makes
what `keep` does; without a height the version does not matter. -/
structure ReadsBack (keep : Int → Int) (read : CTxInUndo → CTxInUndo) : Prop where
  txout : ∀ undo, (read undo).txout = undo.txout
  fCoinBase : ∀ undo, (read undo).fCoinBase = undo.fCoinBase
  nHeight : ∀ undo, (read undo).nHeight = undo.nHeight
  nVersion : ∀ undo, undo.nHeight ≠ 0 → (read undo).nVersion = keep undo.nVersion

/-- Undo data in memory. -/
theorem ReadsBack.inMemory : ReadsBack id id where
  txout _ := rfl
  fCoinBase _ := rfl
  nHeight _ := rfl
  nVersion _ _ := rfl

namespace CCoins

variable {coins spent : CCoins} {n : Nat} {undo : CTxInUndo}
variable {keep : Int → Int} {read : CTxInUndo → CTxInUndo}

theorem spend_eq_some (spends : coins.spend n = some (spent, undo)) :
    ∃ txout, coins.vout.get n = some txout ∧ spent = { coins with vout := coins.vout.clearAt n } ∧
      undo = if spent.isPruned then ⟨txout, coins.fCoinBase, coins.nHeight, coins.nVersion⟩
        else ⟨txout, false, 0, 0⟩ := by
  unfold spend at spends
  rw [Option.map_eq_some_iff] at spends
  obtain ⟨txout, found, same⟩ := spends
  cases same
  exact ⟨txout, found, rfl, rfl⟩

theorem isAvailable_settle (coins : CCoins) (n : Nat) :
    coins.settle.isAvailable n = coins.isAvailable n := by
  unfold isAvailable
  rw [vout_settle]

theorem isPruned_eq_false_iff {coins : CCoins} :
    coins.isPruned = false ↔ ∃ n, coins.isAvailable n := by
  rw [← Bool.not_eq_true, isPruned_iff, not_forall]
  simp only [isAvailable, Option.isSome_iff_ne_none, ne_eq]

theorem isAvailable_spend (spends : coins.spend n = some (spent, undo)) (other : Nat) :
    spent.isAvailable other ↔ coins.isAvailable other ∧ other ≠ n := by
  obtain ⟨txout, found, rfl, undoEq⟩ := spend_eq_some spends
  unfold isAvailable
  rw [SlotList.get_clearAt]
  by_cases same : other = n
  · rw [if_pos same]
    simp [same]
  · rw [if_neg same]
    simp [same]

theorem nHeight_spend (spends : coins.spend n = some (spent, undo)) :
    spent.nHeight = coins.nHeight := by
  obtain ⟨txout, found, rfl, undoEq⟩ := spend_eq_some spends
  rfl

theorem restore_of_spend (reads : ReadsBack keep read)
    (spends : coins.spend n = some (spent, undo))
    (heightKept : spent.isPruned → coins.nHeight ≠ 0) (version : Int) :
    ({ spent with nVersion := version } : CCoins).settle.restore n (read undo) =
      ({ coins with nVersion := if spent.isPruned then keep coins.nVersion else version },
        true) := by
  obtain ⟨txout, found, rfl, undoEq⟩ := spend_eq_some spends
  by_cases pruned : ({ coins with vout := coins.vout.clearAt n } : CCoins).isPruned
  · have emptied : coins.vout.clearAt n = .empty := of_decide_eq_true pruned
    have filled : (SlotList.empty : SlotList CTxOut).fill n txout = coins.vout := by
      rw [← emptied]
      exact SlotList.fill_clearAt found
    rw [if_pos pruned] at undoEq
    subst undoEq
    have cleared : ({ coins with vout := coins.vout.clearAt n, nVersion := version } :
        CCoins).isPruned := pruned
    rw [if_pos pruned]
    change (settle ⟨coins.fCoinBase, coins.vout.clearAt n, coins.nHeight, version⟩).restore n _ = _
    rw [settle_of_isPruned cleared]
    unfold restore
    have version := reads.nVersion ⟨txout, coins.fCoinBase, coins.nHeight, coins.nVersion⟩
      (heightKept pruned)
    simp only [reads.nHeight, reads.txout, reads.fCoinBase, version]
    rw [if_pos (heightKept pruned)]
    simp only [filled, isAvailable, SlotList.get_empty]
    rfl
  · rw [if_neg pruned] at undoEq
    subst undoEq
    have held : ({ coins with vout := coins.vout.clearAt n, nVersion := version } :
        CCoins).isPruned = false := Bool.eq_false_iff.mpr pruned
    rw [if_neg pruned]
    change (settle ⟨coins.fCoinBase, coins.vout.clearAt n, coins.nHeight, version⟩).restore n _ = _
    rw [settle_of_settled fun isPruned => absurd isPruned (by simp [held])]
    unfold restore
    simp only [reads.nHeight, reads.txout]
    rw [if_neg (by simp)]
    simp only [SlotList.fill_clearAt found, isAvailable, SlotList.get_clearAt, if_true]
    rw [held]
    rfl

theorem restore_of_spend_height_zero (reads : ReadsBack keep read)
    (spends : coins.spend n = some (spent, undo))
    (pruned : spent.isPruned) (heightZero : coins.nHeight = 0) :
    (clear.restore n (read undo)).2 = false := by
  obtain ⟨txout, found, rfl, undoEq⟩ := spend_eq_some spends
  rw [if_pos pruned] at undoEq
  subst undoEq
  unfold restore
  simp only [reads.nHeight]
  rw [if_neg (by simp [heightZero])]
  rfl

theorem isAvailable_restore {other : Nat} (different : other ≠ n)
    (available : (coins.restore n undo).1.isAvailable other) : coins.isAvailable other := by
  unfold restore at available
  by_cases withHeight : undo.nHeight ≠ 0
  · rw [if_pos withHeight] at available
    simp [isAvailable, SlotList.get_fill, different] at available
  · rw [if_neg withHeight] at available
    simpa [isAvailable, SlotList.get_fill, different] using available

end CCoins

/-- The outputs that transactions spend. -/
def spentOutPoints (vtx : List CTransaction) : List COutPoint :=
  vtx.flatMap fun tx => tx.spendingInputs.map CTxIn.prevout

/-- Some output of a view is missing in another. -/
def LosesOutput (view other : CCoinsView) : Prop :=
  ∃ hash n, (view.coins hash).isAvailable n ∧ ¬(other.coins hash).isAvailable n

/-- Spending inputs one after the other, with their undo data. -/
inductive SpendRun : CCoinsView → List CTxIn → CTxUndo → CCoinsView → Prop where
  | nil (view : CCoinsView) : SpendRun view [] [] view
  | cons {view last : CCoinsView} {input : CTxIn} {inputs : List CTxIn} {coins : CCoins}
      {undo : CTxInUndo} {txundo : CTxUndo}
      (spends : (view.coins input.prevout.hash).spend input.prevout.n = some (coins, undo))
      (rest : SpendRun (view.setCoins input.prevout.hash coins) inputs txundo last) :
      SpendRun view (input :: inputs) (undo :: txundo) last

namespace SpendRun

variable {view last : CCoinsView} {inputs : List CTxIn} {txundo : CTxUndo}

theorem of_foldlM {undos collected : CTxUndo}
    (run : inputs.foldlM CCoinsView.spendInput (view, undos) = some (last, collected)) :
    ∃ txundo, collected = undos ++ txundo ∧ SpendRun view inputs txundo last := by
  induction inputs generalizing view undos with
  | nil =>
      cases run
      exact ⟨[], (List.append_nil _).symm, .nil _⟩
  | cons input inputs ih =>
      rw [List.foldlM_cons] at run
      cases spends : (view.coins input.prevout.hash).spend input.prevout.n with
      | none => simp [CCoinsView.spendInput, spends] at run
      | some result =>
          obtain ⟨coins, undo⟩ := result
          simp only [CCoinsView.spendInput, spends, Option.map_some, Option.bind_eq_bind,
            Option.bind_some] at run
          obtain ⟨txundo, collectedEq, rest⟩ := ih run
          exact ⟨undo :: txundo, by simp [collectedEq], .cons spends rest⟩

theorem length_eq (run : SpendRun view inputs txundo last) : txundo.length = inputs.length := by
  induction run with
  | nil => rfl
  | cons spends rest ih => simp [ih]

theorem setBestBlock (run : SpendRun view inputs txundo last) (hash : Hash) :
    SpendRun (view.setBestBlock hash) inputs txundo (last.setBestBlock hash) := by
  induction run with
  | nil => exact .nil _
  | cons spends rest ih => exact .cons spends ih

private theorem isAvailable_step {coins : CCoins} {undo : CTxInUndo} {input : CTxIn}
    (spends : (view.coins input.prevout.hash).spend input.prevout.n = some (coins, undo))
    (outPoint : COutPoint) :
    ((view.setCoins input.prevout.hash coins).coins outPoint.hash).isAvailable outPoint.n ↔
      (view.coins outPoint.hash).isAvailable outPoint.n ∧ outPoint ≠ input.prevout := by
  obtain ⟨hash, n⟩ := outPoint
  by_cases sameHash : hash = input.prevout.hash
  · subst sameHash
    rw [CCoinsView.coins_setCoins_self, CCoins.isAvailable_settle,
      CCoins.isAvailable_spend spends]
    have same : (⟨input.prevout.hash, n⟩ : COutPoint) = input.prevout ↔ n = input.prevout.n := by
      constructor
      · exact fun equal => congrArg COutPoint.n equal
      · rintro rfl
        rfl
    rw [ne_eq, ne_eq, same]
  · rw [CCoinsView.coins_setCoins_of_ne _ _ sameHash]
    have different : (⟨hash, n⟩ : COutPoint) ≠ input.prevout := by
      rintro equal
      exact sameHash (congrArg COutPoint.hash equal)
    simp [different]

/-- What remains are the outputs that no input spends. -/
theorem isAvailable_iff (run : SpendRun view inputs txundo last) (outPoint : COutPoint) :
    (last.coins outPoint.hash).isAvailable outPoint.n ↔
      (view.coins outPoint.hash).isAvailable outPoint.n ∧
        outPoint ∉ inputs.map CTxIn.prevout := by
  induction run with
  | nil => simp
  | cons spends rest ih =>
      rw [ih, isAvailable_step spends, List.map_cons, List.mem_cons, not_or, and_assoc]

private theorem nHeight_step {coins : CCoins} {undo : CTxInUndo} {input : CTxIn}
    (spends : (view.coins input.prevout.hash).spend input.prevout.n = some (coins, undo))
    {hash : Hash} (kept : ((view.setCoins input.prevout.hash coins).coins hash).isPruned = false) :
    ((view.setCoins input.prevout.hash coins).coins hash).nHeight = (view.coins hash).nHeight := by
  by_cases sameHash : hash = input.prevout.hash
  · subst sameHash
    rw [CCoinsView.coins_setCoins_self] at kept ⊢
    rw [CCoins.isPruned_settle] at kept
    rw [CCoins.settle_of_settled fun pruned => absurd pruned (by simp [kept]),
      CCoins.nHeight_spend spends]
  · rw [CCoinsView.coins_setCoins_of_ne _ _ sameHash]

/-- Coins that are not emptied keep their height. -/
theorem nHeight_eq (run : SpendRun view inputs txundo last) {hash : Hash}
    (kept : (last.coins hash).isPruned = false) :
    (last.coins hash).nHeight = (view.coins hash).nHeight := by
  induction run with
  | nil => rfl
  | cons spends rest ih =>
      rw [ih kept]
      apply nHeight_step spends
      obtain ⟨n, available⟩ := CCoins.isPruned_eq_false_iff.mp kept
      exact CCoins.isPruned_eq_false_iff.mpr
        ⟨n, ((rest.isAvailable_iff ⟨hash, n⟩).mp available).1⟩

end SpendRun

/-- Some output of every coins of height 0 is left by the transactions. -/
def HeightKept (view : CCoinsView) (spent : List COutPoint) : Prop :=
  ∀ hash, (view.coins hash).isPruned = false → (view.coins hash).nHeight = 0 →
    ∃ n, (view.coins hash).isAvailable n ∧ (⟨hash, n⟩ : COutPoint) ∉ spent

theorem heightKept_cons {view : CCoinsView} {input : CTxIn} {coins : CCoins} {undo : CTxInUndo}
    {spent : List COutPoint}
    (spends : (view.coins input.prevout.hash).spend input.prevout.n = some (coins, undo)) :
    HeightKept view (input.prevout :: spent) ↔
      (coins.isPruned → (view.coins input.prevout.hash).nHeight ≠ 0) ∧
        HeightKept (view.setCoins input.prevout.hash coins) spent := by
  constructor
  · intro kept
    refine ⟨fun pruned heightZero => ?_, fun hash notPruned heightZero => ?_⟩
    · have held : (view.coins input.prevout.hash).isPruned = false := by
        obtain ⟨txout, found, -⟩ := CCoins.spend_eq_some spends
        exact CCoins.isPruned_eq_false_iff.mpr ⟨input.prevout.n, by simp [CCoins.isAvailable, found]⟩
      obtain ⟨n, available, unspent⟩ := kept _ held heightZero
      have remains : coins.isAvailable n := by
        rw [CCoins.isAvailable_spend spends]
        refine ⟨available, ?_⟩
        rintro rfl
        exact unspent (by simp)
      rw [CCoins.isPruned_eq_false_iff.mpr ⟨n, remains⟩] at pruned
      exact absurd pruned (by simp)
    · have step := SpendRun.cons spends (.nil _)
      obtain ⟨m, stillAvailable⟩ := CCoins.isPruned_eq_false_iff.mp notPruned
      have held := CCoins.isPruned_eq_false_iff.mpr
        ⟨m, ((step.isAvailable_iff ⟨hash, m⟩).mp stillAvailable).1⟩
      rw [step.nHeight_eq notPruned] at heightZero
      obtain ⟨n, available, unspent⟩ := kept hash held heightZero
      rw [List.mem_cons, not_or] at unspent
      exact ⟨n, (step.isAvailable_iff ⟨hash, n⟩).mpr ⟨available, by simpa using unspent.1⟩,
        unspent.2⟩
  · rintro ⟨lastKept, kept⟩ hash held heightZero
    have step := SpendRun.cons spends (.nil _)
    have notPruned : ((view.setCoins input.prevout.hash coins).coins hash).isPruned = false := by
      by_cases same : hash = input.prevout.hash
      · subst same
        rw [CCoinsView.coins_setCoins_self, CCoins.isPruned_settle]
        exact Bool.eq_false_iff.mpr fun pruned => lastKept pruned heightZero
      · rwa [CCoinsView.coins_setCoins_of_ne _ _ same]
    rw [← step.nHeight_eq notPruned] at heightZero
    obtain ⟨n, available, unspent⟩ := kept hash notPruned heightZero
    have before := (step.isAvailable_iff ⟨hash, n⟩).mp available
    refine ⟨n, before.1, ?_⟩
    rw [List.mem_cons, not_or]
    exact ⟨by simpa using before.2, unspent⟩

section KeepVersions

variable {keep : Int → Int} {read : CTxInUndo → CTxInUndo}

open Classical in
/-- The version of coins as their undo data gives it back: that of coins of which no output
is left by the transactions is what `keep` leaves. -/
noncomputable def CCoins.keptVersion (keep : Int → Int) (spent : List COutPoint) (hash : Hash)
    (coins : CCoins) : Int :=
  if ∃ n, coins.isAvailable n ∧ (⟨hash, n⟩ : COutPoint) ∉ spent then coins.nVersion
  else keep coins.nVersion

/-- Coins as their undo data gives them back. -/
noncomputable def CCoins.keepVersion (keep : Int → Int) (spent : List COutPoint) (hash : Hash)
    (coins : CCoins) : CCoins :=
  ({ coins with nVersion := coins.keptVersion keep spent hash } : CCoins).settle

/-- A view as the undo data of the outputs that were spent gives it back. -/
noncomputable def CCoinsView.keepVersions (keep : Int → Int) (spent : List COutPoint)
    (view : CCoinsView) : CCoinsView where
  coins hash := (view.coins hash).keepVersion keep spent hash
  bestBlock := view.bestBlock
  settled _ := CCoins.settled_settle _

theorem CCoins.keepVersion_of_isPruned {coins : CCoins} {spent : List COutPoint} {hash : Hash}
    (pruned : coins.isPruned) : coins.keepVersion keep spent hash = .clear :=
  CCoins.settle_of_isPruned pruned

theorem CCoins.keepVersion_of_held {coins : CCoins} {spent : List COutPoint} {hash : Hash}
    (held : coins.isPruned = false) :
    coins.keepVersion keep spent hash =
      { coins with nVersion := coins.keptVersion keep spent hash } := by
  have sameVout : ({ coins with nVersion := coins.keptVersion keep spent hash } :
      CCoins).isPruned = false := held
  exact CCoins.settle_of_settled fun pruned => absurd pruned (by simp [sameVout])

/-- Without transactions a view is as it was. -/
theorem CCoinsView.keepVersions_nil (view : CCoinsView) : view.keepVersions keep [] = view := by
  refine ext_coins (fun hash => ?_) rfl
  by_cases pruned : (view.coins hash).isPruned
  · exact (CCoins.keepVersion_of_isPruned pruned).trans (view.settled hash pruned).symm
  · obtain ⟨n, available⟩ := CCoins.isPruned_eq_false_iff.mp (Bool.eq_false_iff.mpr pruned)
    have kept : (view.coins hash).keptVersion keep [] hash = (view.coins hash).nVersion :=
      if_pos ⟨n, available, by simp⟩
    refine (CCoins.keepVersion_of_held (Bool.eq_false_iff.mpr pruned)).trans ?_
    rw [kept]

theorem CCoins.keptVersion_spend {coins spent : CCoins} {n : Nat} {undo : CTxInUndo}
    {later : List COutPoint} {hash : Hash} (spends : coins.spend n = some (spent, undo)) :
    coins.keptVersion keep (⟨hash, n⟩ :: later) hash =
      if spent.isPruned then keep coins.nVersion else spent.keptVersion keep later hash := by
  have leftIff : (∃ m, coins.isAvailable m ∧ (⟨hash, m⟩ : COutPoint) ∉ ⟨hash, n⟩ :: later) ↔
      ∃ m, spent.isAvailable m ∧ (⟨hash, m⟩ : COutPoint) ∉ later := by
    apply exists_congr
    intro m
    rw [CCoins.isAvailable_spend spends, List.mem_cons, not_or, COutPoint.mk.injEq, and_assoc]
    simp
  have sameVersion : spent.nVersion = coins.nVersion := by
    obtain ⟨txout, found, rfl, undoEq⟩ := CCoins.spend_eq_some spends
    rfl
  unfold CCoins.keptVersion
  rw [leftIff, sameVersion]
  by_cases pruned : spent.isPruned
  · have noneLeft : ¬∃ m, spent.isAvailable m ∧ (⟨hash, m⟩ : COutPoint) ∉ later := by
      rintro ⟨m, available, -⟩
      rw [CCoins.isPruned_eq_false_iff.mpr ⟨m, available⟩] at pruned
      contradiction
    rw [if_pos pruned, if_neg noneLeft]
  · rw [if_neg pruned]

/-- Undoing an input goes one output back. -/
theorem CCoins.restore_keepVersion (reads : ReadsBack keep read) {coins spent : CCoins} {n : Nat}
    {undo : CTxInUndo} (later : List COutPoint) (hash : Hash)
    (spends : coins.spend n = some (spent, undo))
    (heightKept : spent.isPruned → coins.nHeight ≠ 0) :
    let back := (spent.settle.keepVersion keep later hash).restore n (read undo)
    back.1.settle = coins.keepVersion keep (⟨hash, n⟩ :: later) hash ∧ back.2 = true := by
  have behindEq : spent.settle.keepVersion keep later hash =
      ({ spent with nVersion := spent.keptVersion keep later hash } : CCoins).settle := by
    by_cases pruned : spent.isPruned
    · rw [CCoins.keepVersion_of_isPruned (by rwa [CCoins.isPruned_settle])]
      exact (CCoins.keepVersion_of_isPruned pruned).symm
    · rw [CCoins.settle_of_settled fun isPruned => absurd isPruned pruned, CCoins.keepVersion]
  rw [behindEq, CCoins.restore_of_spend reads spends heightKept, CCoins.keepVersion,
    CCoins.keptVersion_spend spends]
  exact ⟨rfl, rfl⟩

/-- Undoing an input leaves the other coins alone. -/
theorem keepVersions_restore (reads : ReadsBack keep read) {view : CCoinsView} {input : CTxIn}
    {coins : CCoins} {undo : CTxInUndo}
    (spends : (view.coins input.prevout.hash).spend input.prevout.n = some (coins, undo))
    (heightKept : coins.isPruned → (view.coins input.prevout.hash).nHeight ≠ 0)
    (later : List COutPoint) :
    let behind := (view.setCoins input.prevout.hash coins).keepVersions keep later
    let back := (behind.coins input.prevout.hash).restore input.prevout.n (read undo)
    behind.setCoins input.prevout.hash back.1 =
        view.keepVersions keep (input.prevout :: later) ∧
      back.2 = true := by
  intro behind back
  have backEq : back = ((coins.settle).keepVersion keep later input.prevout.hash).restore
      input.prevout.n (read undo) := by
    have same : behind.coins input.prevout.hash =
        coins.settle.keepVersion keep later input.prevout.hash :=
      congrArg (CCoins.keepVersion keep later input.prevout.hash)
        (CCoinsView.coins_setCoins_self view _ coins)
    rw [← same]
  obtain ⟨settled, clean⟩ :=
    CCoins.restore_keepVersion reads later input.prevout.hash spends heightKept
  rw [← backEq] at settled clean
  refine ⟨CCoinsView.ext_coins (fun other => ?_) rfl, clean⟩
  by_cases same : other = input.prevout.hash
  · subst same
    rw [CCoinsView.coins_setCoins_self, settled]
    rfl
  · have notFirst : ∀ n, (⟨other, n⟩ : COutPoint) ≠ input.prevout := by
      rintro n equal
      exact same (congrArg COutPoint.hash equal)
    rw [CCoinsView.coins_setCoins_of_ne _ _ same]
    change ((view.setCoins input.prevout.hash coins).coins other).keepVersion keep later other = _
    rw [CCoinsView.coins_setCoins_of_ne _ _ same]
    change _ = (view.coins other).keepVersion keep (input.prevout :: later) other
    have sameVersion : (view.coins other).keptVersion keep (input.prevout :: later) other =
        (view.coins other).keptVersion keep later other := by
      have leftIff : (∃ n, (view.coins other).isAvailable n ∧
            (⟨other, n⟩ : COutPoint) ∉ input.prevout :: later) ↔
          ∃ n, (view.coins other).isAvailable n ∧ (⟨other, n⟩ : COutPoint) ∉ later := by
        simp only [List.mem_cons, notFirst, false_or]
      unfold CCoins.keptVersion
      rw [leftIff]
    rw [CCoins.keepVersion, CCoins.keepVersion, sameVersion]

end KeepVersions

section DisconnectInputs

variable {options : IndexOptions} {place : TxPlace} {tx : CTransaction}
variable {inputs : List CTxIn} {txundo : CTxUndo}

theorem disconnectInputs_cons (input : CTxIn × Nat) (inputs : List (CTxIn × Nat))
    (undo : CTxInUndo) (txundo : CTxUndo) (state : DisconnectState) :
    disconnectInputs options place tx (input :: inputs) (undo :: txundo) state =
      disconnectInput options place tx (input, undo)
        (disconnectInputs options place tx inputs txundo state) :=
  rfl

theorem isAvailable_disconnectInput {input : (CTxIn × Nat) × CTxInUndo} {state : DisconnectState}
    {outPoint : COutPoint} (different : outPoint ≠ input.1.1.prevout)
    (available : ((disconnectInput options place tx input state).view.coins
      outPoint.hash).isAvailable outPoint.n) :
    (state.view.coins outPoint.hash).isAvailable outPoint.n := by
  obtain ⟨hash, n⟩ := outPoint
  simp only [disconnectInput] at available
  by_cases sameHash : hash = input.1.1.prevout.hash
  · subst sameHash
    rw [CCoinsView.coins_setCoins_self, CCoins.isAvailable_settle] at available
    apply CCoins.isAvailable_restore _ available
    rintro rfl
    exact different rfl
  · rwa [CCoinsView.coins_setCoins_of_ne _ _ sameHash] at available

theorem isAvailable_disconnectInputs {first : Nat} {state : DisconnectState}
    {outPoint : COutPoint} (notSpent : outPoint ∉ inputs.map CTxIn.prevout)
    (available : ((disconnectInputs options place tx (inputs.zipIdx first) txundo
      state).view.coins outPoint.hash).isAvailable outPoint.n) :
    (state.view.coins outPoint.hash).isAvailable outPoint.n := by
  induction inputs generalizing first txundo with
  | nil => exact available
  | cons input inputs ih =>
      rw [List.map_cons, List.mem_cons, not_or] at notSpent
      cases txundo with
      | nil => exact available
      | cons undo txundo =>
          rw [List.zipIdx_cons, disconnectInputs_cons] at available
          exact ih notSpent.2 (isAvailable_disconnectInput notSpent.1 available)

theorem fClean_disconnectInputs {first : Nat} {state : DisconnectState}
    (clean : (disconnectInputs options place tx (inputs.zipIdx first) txundo state).fClean) :
    state.fClean := by
  induction inputs generalizing first txundo with
  | nil => exact clean
  | cons input inputs ih =>
      cases txundo with
      | nil => exact clean
      | cons undo txundo =>
          rw [List.zipIdx_cons, disconnectInputs_cons] at clean
          simp only [disconnectInput, Bool.and_eq_true] at clean
          exact ih clean.1

/-- An output that was lost behind the inputs of a transaction stays lost. -/
theorem losesOutput_disconnectInputs {view last : CCoinsView} {first : Nat}
    {state : DisconnectState} (run : SpendRun view inputs txundo last) (back : CTxUndo)
    (loses : LosesOutput last state.view) :
    LosesOutput view
      (disconnectInputs options place tx (inputs.zipIdx first) back state).view := by
  obtain ⟨hash, n, available, lost⟩ := loses
  obtain ⟨before, notSpent⟩ := (run.isAvailable_iff ⟨hash, n⟩).mp available
  exact ⟨hash, n, before, fun restored => lost
    (isAvailable_disconnectInputs notSpent restored)⟩

variable {keep : Int → Int} {read : CTxInUndo → CTxInUndo}

/-- The undo data of inputs gives their view back, with the versions that it reads,
unless it empties coins of height 0. -/
theorem disconnectInputs_of_run (reads : ReadsBack keep read) (options : IndexOptions)
    (place : TxPlace) (tx : CTransaction) (first : Nat) {view last : CCoinsView}
    {state : DisconnectState} {later : List COutPoint}
    (run : SpendRun view inputs txundo last) (sameView : state.view = last.keepVersions keep later) :
    let result := disconnectInputs options place tx (inputs.zipIdx first) (txundo.map read) state
    (HeightKept view (inputs.map CTxIn.prevout) →
      result.view = view.keepVersions keep (inputs.map CTxIn.prevout ++ later) ∧
        result.fClean = state.fClean) ∧
    (¬HeightKept view (inputs.map CTxIn.prevout) → result.fClean = false) := by
  induction run generalizing first with
  | nil view =>
      refine ⟨fun _ => ⟨sameView, rfl⟩, fun notKept => absurd ?_ notKept⟩
      intro hash held heightZero
      obtain ⟨n, available⟩ := CCoins.isPruned_eq_false_iff.mp held
      exact ⟨n, available, by simp⟩
  | @cons view last input inputs coins undo txundo spends rest ih =>
      obtain ⟨restored, unclean⟩ := ih (first + 1) sameView
      intro result
      have resultEq : result = disconnectInput options place tx ((input, first), read undo)
          (disconnectInputs options place tx (inputs.zipIdx (first + 1)) (txundo.map read)
            state) := rfl
      rw [List.map_cons, heightKept_cons spends]
      by_cases restKept :
          HeightKept (view.setCoins input.prevout.hash coins) (inputs.map CTxIn.prevout)
      · obtain ⟨viewEq, cleanEq⟩ := restored restKept
        simp only [disconnectInput, viewEq, cleanEq] at resultEq
        refine ⟨fun ⟨lastKept, _⟩ => ?_, fun notKept => ?_⟩
        · obtain ⟨viewBack, clean⟩ :=
            keepVersions_restore reads spends lastKept (inputs.map CTxIn.prevout ++ later)
          rw [clean, Bool.and_true] at resultEq
          rw [resultEq]
          exact ⟨viewBack, rfl⟩
        · have emptied : coins.isPruned ∧ (view.coins input.prevout.hash).nHeight = 0 := by
            by_contra notEmptied
            exact notKept ⟨fun pruned heightZero => notEmptied ⟨pruned, heightZero⟩, restKept⟩
          have isClear : ((view.setCoins input.prevout.hash coins).keepVersions keep
              (inputs.map CTxIn.prevout ++ later)).coins input.prevout.hash = .clear := by
            apply CCoins.keepVersion_of_isPruned
            rw [CCoinsView.coins_setCoins_self, CCoins.isPruned_settle]
            exact emptied.1
          rw [isClear, CCoins.restore_of_spend_height_zero reads spends emptied.1 emptied.2,
            Bool.and_false] at resultEq
          rw [resultEq]
      · refine ⟨fun ⟨_, kept⟩ => absurd kept restKept, fun _ => ?_⟩
        rw [resultEq]
        simp only [disconnectInput, unclean restKept, Bool.false_and]

end DisconnectInputs

end HdacNode
