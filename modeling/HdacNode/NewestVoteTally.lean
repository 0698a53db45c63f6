import Mathlib.Data.Finset.Card

/-!
# Counting the voters whose newest vote is for a choice

Ballots carry a voter, a time and a choice.  A voter's newest ballot is the
one with the greatest time; of several with that time the one that stands
first in the list counts.  One more ballot changes the tally by at most one,
but it can also lower it, so a count that stops as soon as a threshold is met
need not agree with the tally of all ballots.
-/

namespace NewestVote

/-- A vote of one voter for one choice at one time. -/
structure Ballot (Voter Choice : Type) where
  voter : Voter
  time : Nat
  choice : Choice

variable {Voter Choice : Type} [DecidableEq Voter] [DecidableEq Choice]

/-- The newer of a voter's newest ballot so far and one more ballot. -/
def newer (current : Option (Ballot Voter Choice)) (ballot : Ballot Voter Choice) :
    Option (Ballot Voter Choice) :=
  match current with
  | some old => if old.time < ballot.time then some ballot else some old
  | none => some ballot

/-- The newest ballot of a voter. -/
def newest (ballots : List (Ballot Voter Choice)) (voter : Voter) :
    Option (Ballot Voter Choice) :=
  ballots.foldl (fun current ballot =>
    if ballot.voter = voter then newer current ballot else current) none

/-- The voters whose newest ballot is for a choice. -/
def supporters (ballots : List (Ballot Voter Choice)) (choice : Choice) : Finset Voter :=
  (ballots.map Ballot.voter).toFinset.filter fun voter =>
    (newest ballots voter).any fun ballot => ballot.choice = choice

/-- The number of voters whose newest ballot is for a choice. -/
def tally (ballots : List (Ballot Voter Choice)) (choice : Choice) : Nat :=
  (supporters ballots choice).card

/-- Some of the leading ballots, counted alone, meet the threshold. -/
def ReachedByPrefix (ballots : List (Ballot Voter Choice)) (choice : Choice)
    (threshold : Nat) : Prop :=
  ∃ length, threshold ≤ tally (ballots.take length) choice

omit [DecidableEq Choice] in
theorem newest_concat (ballots : List (Ballot Voter Choice))
    (ballot : Ballot Voter Choice) (voter : Voter) :
    newest (ballots ++ [ballot]) voter =
      if ballot.voter = voter then newer (newest ballots voter) ballot
      else newest ballots voter := by
  simp [newest, List.foldl_append]

omit [DecidableEq Choice] in
private theorem newest_eq_none_of_forall_ne {ballots : List (Ballot Voter Choice)}
    {voter : Voter} (absent : ∀ ballot ∈ ballots, ballot.voter ≠ voter) :
    newest ballots voter = none := by
  unfold newest
  induction ballots with
  | nil => rfl
  | cons ballot ballots ih =>
      have headNe := absent ballot (List.mem_cons_self ..)
      rw [List.foldl_cons, if_neg headNe]
      exact ih fun other member => absent other (List.mem_cons_of_mem _ member)

theorem mem_supporters {ballots : List (Ballot Voter Choice)} {choice : Choice}
    {voter : Voter} :
    voter ∈ supporters ballots choice ↔
      ∃ ballot, newest ballots voter = some ballot ∧ ballot.choice = choice := by
  have voted : ∀ ballot, newest ballots voter = some ballot →
      voter ∈ ballots.map Ballot.voter := by
    intro ballot found
    by_contra absent
    have : newest ballots voter = none :=
      newest_eq_none_of_forall_ne fun other member same =>
        absent (List.mem_map.2 ⟨other, member, same⟩)
    simp [this] at found
  simp only [supporters, Finset.mem_filter, List.mem_toFinset, Option.any_eq_true,
    decide_eq_true_eq]
  constructor
  · rintro ⟨-, ballot, found, same⟩
    exact ⟨ballot, found, same⟩
  · rintro ⟨ballot, found, same⟩
    exact ⟨voted ballot found, ballot, found, same⟩

/-- A ballot that is not newer than its voter's newest one changes nothing. -/
theorem tally_concat_of_kept {ballots : List (Ballot Voter Choice)}
    {ballot old : Ballot Voter Choice} (choice : Choice)
    (found : newest ballots ballot.voter = some old) (kept : ¬ old.time < ballot.time) :
    tally (ballots ++ [ballot]) choice = tally ballots choice := by
  have same : ∀ voter, newest (ballots ++ [ballot]) voter = newest ballots voter := by
    intro voter
    rw [newest_concat]
    split
    · rename_i sameVoter
      rw [← sameVoter, found]
      simp [newer, kept]
    · rfl
  unfold tally
  congr 1
  ext voter
  simp only [mem_supporters, same]

/-- A ballot that becomes its voter's newest one adds its own choice and takes
away the support of the ballot it replaces. -/
theorem tally_concat_of_counted {ballots : List (Ballot Voter Choice)}
    {ballot : Ballot Voter Choice} (choice : Choice)
    (counted : newer (newest ballots ballot.voter) ballot = some ballot) :
    tally (ballots ++ [ballot]) choice +
        (if ballot.voter ∈ supporters ballots choice then 1 else 0) =
      tally ballots choice + (if ballot.choice = choice then 1 else 0) := by
  have newestVoter : newest (ballots ++ [ballot]) ballot.voter = some ballot := by
    rw [newest_concat, if_pos rfl, counted]
  have newestOther : ∀ voter, voter ≠ ballot.voter →
      newest (ballots ++ [ballot]) voter = newest ballots voter := by
    intro voter different
    rw [newest_concat, if_neg different.symm]
  have others : (supporters (ballots ++ [ballot]) choice).erase ballot.voter =
      (supporters ballots choice).erase ballot.voter := by
    ext voter
    simp only [Finset.mem_erase, mem_supporters]
    constructor
    · rintro ⟨different, found⟩
      exact ⟨different, by rwa [newestOther voter different] at found⟩
    · rintro ⟨different, found⟩
      exact ⟨different, by rwa [newestOther voter different]⟩
  have erased : ∀ voters : Finset Voter, voters.card =
      (voters.erase ballot.voter).card + if ballot.voter ∈ voters then 1 else 0 := by
    intro voters
    split
    · rename_i member
      exact (Finset.card_erase_add_one member).symm
    · rename_i absent
      simp [Finset.erase_eq_of_notMem absent]
  have supports : ballot.voter ∈ supporters (ballots ++ [ballot]) choice ↔
      ballot.choice = choice := by
    simp [mem_supporters, newestVoter]
  unfold tally
  rw [erased (supporters (ballots ++ [ballot]) choice), others,
    erased (supporters ballots choice)]
  simp only [supports]
  omega

@[simp]
theorem tally_nil (choice : Choice) :
    tally ([] : List (Ballot Voter Choice)) choice = 0 :=
  rfl

section Further

variable {ballots : List (Ballot Voter Choice)} {ballot : Ballot Voter Choice} {choice : Choice}

omit [DecidableEq Choice] in
theorem newest_cons_of_ne {voter : Voter} (different : ballot.voter ≠ voter) :
    newest (ballot :: ballots) voter = newest ballots voter := by
  rw [newest, List.foldl_cons, if_neg different]
  rfl

omit [DecidableEq Choice] in
theorem newest_cons_of_latest
    (latest : ∀ other ∈ ballots, other.voter = ballot.voter → other.time ≤ ballot.time) :
    newest (ballot :: ballots) ballot.voter = some ballot := by
  rw [newest, List.foldl_cons, if_pos rfl]
  change ballots.foldl _ (some ballot) = some ballot
  induction ballots with
  | nil => rfl
  | cons other ballots ih =>
      obtain ⟨notLater, latest⟩ := List.forall_mem_cons.mp latest
      have kept : (if other.voter = ballot.voter then newer (some ballot) other else some ballot) =
          some ballot := by
        by_cases sameVoter : other.voter = ballot.voter
        · rw [if_pos sameVoter]
          exact if_neg (not_lt.mpr (notLater sameVoter))
        · rw [if_neg sameVoter]
      rw [List.foldl_cons, kept]
      exact ih latest

private theorem erase_supporters_cons :
    (supporters (ballot :: ballots) choice).erase ballot.voter =
      (supporters ballots choice).erase ballot.voter := by
  ext voter
  simp only [Finset.mem_erase, mem_supporters]
  constructor
  · rintro ⟨different, found⟩
    rw [newest_cons_of_ne different.symm] at found
    exact ⟨different, found⟩
  · rintro ⟨different, found⟩
    rw [← newest_cons_of_ne different.symm] at found
    exact ⟨different, found⟩

/-- One more ballot in front raises a tally by at most one. -/
theorem tally_cons_le (ballot : Ballot Voter Choice) (ballots : List (Ballot Voter Choice))
    (choice : Choice) : tally (ballot :: ballots) choice ≤ tally ballots choice + 1 := by
  have before : tally (ballot :: ballots) choice - 1 ≤
      ((supporters (ballot :: ballots) choice).erase ballot.voter).card :=
    Finset.pred_card_le_card_erase
  have after : ((supporters ballots choice).erase ballot.voter).card ≤ tally ballots choice :=
    Finset.card_erase_le
  rw [erase_supporters_cons] at before
  omega

/-- The latest ballot of a voter who did not support a choice adds to its tally. -/
theorem tally_cons_of_fresh
    (latest : ∀ other ∈ ballots, other.voter = ballot.voter → other.time ≤ ballot.time)
    (fresh : ballot.voter ∉ supporters ballots choice) (isChoice : ballot.choice = choice) :
    tally (ballot :: ballots) choice = tally ballots choice + 1 := by
  have supports : ballot.voter ∈ supporters (ballot :: ballots) choice :=
    mem_supporters.mpr ⟨ballot, newest_cons_of_latest latest, isChoice⟩
  rw [tally, ← Finset.card_erase_add_one supports, erase_supporters_cons,
    Finset.erase_eq_of_notMem fresh]
  rfl

omit [DecidableEq Choice] in
theorem newest_append_of_notMem {further : List (Ballot Voter Choice)} {voter : Voter}
    (absent : ∀ ballot ∈ further, ballot.voter ≠ voter) :
    newest (further ++ ballots) voter = newest ballots voter := by
  induction further with
  | nil => rfl
  | cons ballot further ih =>
      obtain ⟨different, absent⟩ := List.forall_mem_cons.mp absent
      rw [List.cons_append, newest_cons_of_ne different, ih absent]

theorem tally_append_of_fresh {further : List (Ballot Voter Choice)}
    (distinct : (further.map Ballot.voter).Nodup)
    (latest : ∀ ballot ∈ further, ∀ other ∈ ballots,
      other.voter = ballot.voter → other.time ≤ ballot.time)
    (fresh : ∀ ballot ∈ further, ballot.voter ∉ supporters ballots choice)
    (isChoice : ∀ ballot ∈ further, ballot.choice = choice) :
    tally (further ++ ballots) choice = further.length + tally ballots choice := by
  induction further with
  | nil => simp
  | cons ballot further ih =>
      rw [List.map_cons, List.nodup_cons] at distinct
      obtain ⟨notAmong, distinct⟩ := distinct
      rw [List.forall_mem_cons] at latest fresh isChoice
      have different : ∀ other ∈ further, other.voter ≠ ballot.voter := by
        intro other member sameVoter
        exact notAmong (List.mem_map.mpr ⟨other, member, sameVoter⟩)
      have stillFresh : ballot.voter ∉ supporters (further ++ ballots) choice := by
        rw [mem_supporters, newest_append_of_notMem different, ← mem_supporters]
        exact fresh.1
      have stillLatest : ∀ other ∈ further ++ ballots, other.voter = ballot.voter →
          other.time ≤ ballot.time := by
        intro other member sameVoter
        rcases List.mem_append.mp member with inFurther | inBallots
        · exact absurd sameVoter (different other inFurther)
        · exact latest.1 other inBallots sameVoter
      rw [List.cons_append, tally_cons_of_fresh stillLatest stillFresh isChoice.1,
        ih distinct latest.2 fresh.2 isChoice.2, List.length_cons]
      omega

theorem tally_le_length (ballots : List (Ballot Voter Choice)) (choice : Choice) :
    tally ballots choice ≤ ballots.length := by
  induction ballots with
  | nil => simp
  | cons ballot ballots ih =>
      rw [List.length_cons]
      exact (tally_cons_le ballot ballots choice).trans (Nat.add_le_add_right ih 1)

end Further

theorem reachedByPrefix_of_le_tally {ballots : List (Ballot Voter Choice)}
    {choice : Choice} {threshold : Nat} (reached : threshold ≤ tally ballots choice) :
    ReachedByPrefix ballots choice threshold :=
  ⟨ballots.length, by simpa using reached⟩

end NewestVote
