import HdacNode.WalletListRuns

/-!
# Pages of the wallet's lists

Both forms of `GetList` answer with a window of the full list.  The form with a generation
does not shorten a window that begins in front of the first row, so it answers with rows
behind the window.  Paging from the end of a list with the other form meets every row
once.
-/

namespace HdacNode

open NumberedRows

variable {Tx : Type}

/-- The full list of a tracked entity in a store. -/
def TxDB.wholeList (db : TxDB Tx) (stat : TxEntityStat) : List TxEntityRow :=
  fullList stat.entity (confirmedRows db.rows stat) db.chain.memPool

/-- Both forms of `GetList` answer a request with the rows at the positions asked for. -/
def AnswersWindow (db : TxDB Tx) (stat : TxEntityStat) (start count : Int) : Prop :=
  db.getList 0 stat.entity start count = .ok (askedRows (db.wholeList stat) start count) ∧
    db.getGenerationList 0 stat.entity stat.generation start count =
      .ok (askedRows (db.wholeList stat) start count)

/-- A request counted from behind the end of a list begins in front of its first row and
ends inside the list. -/
def BeginsBefore (size start count : Int) : Prop :=
  start < 0 ∧ 0 < size + start ∧ size + start < count

/-- Pages counted from the end of a list meet every row once, and then there are none. -/
structure PagesThrough (ask : Int → Except McError (List TxEntityRow)) (full : List TxEntityRow)
    (count : Nat) : Prop where
  visits : ∀ pages, full.length ≤ pages * count →
    ((List.range pages).reverse.mapM fun page => ask (-(page * count : Nat))).map List.flatten =
      .ok full
  ends : ∀ page, full.length ≤ page * count → ask (-(page * count : Nat)) = .ok []

section Windows

/-- The window that `GetList` with a generation answers with. -/
def generationRows (full : List TxEntityRow) (start count : Int) : List TxEntityRow :=
  if firstAsked full.length start count + count - 1 < 1 then []
  else between full (max (firstAsked full.length start count) 1)
    (max (firstAsked full.length start count) 1 + count - 1)

/-- The windows are the same unless a request begins in front of the first row. -/
theorem generationRows_eq_iff (full : List TxEntityRow) (start count : Int) :
    generationRows full start count = askedRows full start count ↔
      ¬ BeginsBefore full.length start count := by
  unfold generationRows askedRows BeginsBefore
  by_cases empty : firstAsked full.length start count + count - 1 < 1
  · rw [if_pos empty, between_eq_nil _ _ empty]
    unfold firstAsked at empty
    refine iff_of_true rfl fun early => ?_
    rw [if_pos (by omega)] at empty
    omega
  · rw [if_neg empty]
    by_cases inside : 1 ≤ firstAsked full.length start count
    · have same : max (firstAsked full.length start count) 1 =
          firstAsked full.length start count := by omega
      rw [same]
      unfold firstAsked at inside
      refine iff_of_true rfl fun early => ?_
      rw [if_pos (by omega)] at inside
      omega
    · have fromEnd : start ≤ 0 := by
        by_contra positive
        unfold firstAsked at inside
        rw [if_neg positive] at inside
        omega
      have first : firstAsked full.length start count = full.length - count + 1 + start :=
        if_pos fromEnd
      have one : max (firstAsked full.length start count) 1 = 1 := by omega
      have last : firstAsked full.length start count + count - 1 = full.length + start := by omega
      have size : (1 : Int) + count - 1 = count := by omega
      rw [one, last, size, between_of_le_one full _ (by omega : firstAsked _ _ _ ≤ 1)]
      constructor
      · intro same early
        have lengths := congrArg List.length same
        rw [length_between, length_between] at lengths
        omega
      · intro whole
        have atEnd : start = 0 := by omega
        have cut : full.take count.toNat = full.take ((full.length : Int) + start).toNat := by
          rw [List.take_eq_take_iff]
          omega
        rw [between_eq, between_eq, cut]

end Windows

section Pages

variable {full : List TxEntityRow} {count : Nat}

theorem askedRows_page (page : Nat) :
    askedRows full (-(page * count : Nat)) count =
      between full ((full.length : Int) - count + 1 - (page * count : Nat))
        ((full.length : Int) - (page * count : Nat)) := by
  unfold askedRows firstAsked
  rw [if_pos (by omega)]
  congr 1
  omega

/-- The answers to all pages, put together. -/
theorem mapM_pages {ask : Int → Except McError (List TxEntityRow)}
    {answer : Nat → List TxEntityRow}
    (answers : ∀ page : Nat, ask (-(page * count : Nat)) = .ok (answer page)) (pages : List Nat) :
    (pages.mapM fun page => ask (-(page * count : Nat))).map List.flatten =
      .ok (pages.flatMap answer) := by
  have pure : (fun page : Nat => ask (-(page * count : Nat))) =
      fun page : Nat => (pure (answer page) : Except McError _) := by
    funext page
    exact answers page
  rw [pure, List.mapM_pure]
  rfl

/-- The windows from the end of a list page through it. -/
theorem pagesThrough_of_askedRows {ask : Int → Except McError (List TxEntityRow)}
    (answers : ∀ page : Nat, ask (-(page * count : Nat)) =
      .ok (askedRows full (-(page * count : Nat)) count)) :
    PagesThrough ask full count where
  visits := by
    intro pages enough
    have nothing : full.length - pages * count = 0 := by omega
    rw [mapM_pages answers]
    simp only [askedRows_page]
    rw [flatMap_windows, nothing, List.drop_zero]
  ends := by
    intro page behind
    rw [answers, askedRows_page, between_eq_nil _ _ (by omega)]

theorem length_generationRows {page : Nat} (inside : page * count < full.length)
    (long : count ≤ full.length) :
    (generationRows full (-(page * count : Nat)) count).length = count := by
  have first : firstAsked full.length (-(page * count : Nat)) count =
      full.length - count + 1 - (page * count : Nat) := by
    unfold firstAsked
    rw [if_pos (by omega)]
    omega
  unfold generationRows
  rw [first, if_neg (by omega), length_between]
  omega

/-- With a generation the pages go through a list exactly if the list consists of whole
pages or fits into one. -/
theorem pagesThrough_generationRows_iff {ask : Int → Except McError (List TxEntityRow)}
    (answers : ∀ page : Nat, ask (-(page * count : Nat)) =
      .ok (generationRows full (-(page * count : Nat)) count)) (positive : 0 < count) :
    PagesThrough ask full count ↔ count ∣ full.length ∨ full.length ≤ count := by
  constructor
  · intro pages
    by_contra broken
    rw [not_or] at broken
    obtain ⟨partly, long⟩ := broken
    have whole : full.length / count * count < full.length := by
      have parts := Nat.div_add_mod' full.length count
      have rest : full.length % count ≠ 0 := fun none => partly (Nat.dvd_of_mod_eq_zero none)
      omega
    have enough : full.length < (full.length / count + 1) * count := by
      have parts := Nat.div_add_mod' full.length count
      have rest := Nat.mod_lt full.length positive
      rw [Nat.succ_mul]
      omega
    have visited := pages.visits (full.length / count + 1) enough.le
    rw [mapM_pages answers, Except.ok.injEq] at visited
    have lengths : ∀ page ∈ (List.range (full.length / count + 1)).reverse,
        (generationRows full (-(page * count : Nat)) count).length = count := by
      intro page member
      rw [List.mem_reverse, List.mem_range] at member
      apply length_generationRows _ (by omega)
      have upTo : page * count ≤ full.length / count * count :=
        Nat.mul_le_mul_right count (by omega)
      omega
    have size := congrArg List.length visited
    rw [List.length_flatMap, List.map_congr_left lengths, List.map_const', List.sum_replicate_nat,
      List.length_reverse, List.length_range] at size
    omega
  · intro whole
    apply pagesThrough_of_askedRows
    intro page
    rw [answers, (generationRows_eq_iff full _ _).2]
    intro begins
    unfold BeginsBefore at begins
    obtain ⟨behind, inside, short⟩ := begins
    rcases whole with ⟨pages, size⟩ | short
    · have fewer : page < pages := by
        apply Nat.lt_of_mul_lt_mul_left (a := count)
        rw [← size, Nat.mul_comm]
        omega
      have next : count * (page + 1) ≤ count * pages := Nat.mul_le_mul_left count fewer
      rw [← size, Nat.mul_succ, Nat.mul_comm] at next
      omega
    · have onePage : count ≤ page * count := by
        apply Nat.le_mul_of_pos_left
        rcases Nat.eq_zero_or_pos page with rfl | later
        · simp at behind
        · exact later
      omega

end Pages

namespace WalletState

variable {compoundHash : BitVec 160 → Hash → BitVec 160} {state : WalletState Tx}

/-- Three transactions that wait. -/
def threeWaiting : List (WalletCall Unit) :=
  [.addEntity byChainPos false, txOf 7 (-1) byChainPos, txOf 8 (-1) byChainPos,
    txOf 9 (-1) byChainPos]

theorem carefulRun_threeWaiting : CarefulRun plainHash (after threeWaiting) :=
  have tracked : CarefulRun plainHash (after (threeWaiting.take 1)) :=
    .next .start (.addEntity byChainPos false) trivial ⟨rfl, fun _ => ⟨rfl, fun _ => rfl⟩⟩
  have first : CarefulRun plainHash (after (threeWaiting.take 2)) :=
    .next tracked (txOf 7 (-1) byChainPos) (by decide) trivial
  have second : CarefulRun plainHash (after (threeWaiting.take 3)) :=
    .next first (txOf 8 (-1) byChainPos) (by decide) trivial
  .next second (txOf 9 (-1) byChainPos) (by decide) trivial

end WalletState

end HdacNode
