import Mathlib.Data.List.Destutter

/-!
# Lists packed into records

A list is cut into records of one size, and the last record is filled up with a pad.
Reading the records one after the other, until one is missing, and dropping the pads
gives the list back, and whatever older records stand behind the last one.  A list that is
packed without repeating its last item has no item twice if equal items stood together.
-/

namespace PackedRecords

section Records

variable {Item : Type} {size : Nat} {pad : Item} {items : List Item}

/-- The record at a place of a packed list. -/
def record (size : Nat) (pad : Item) (items : List Item) (place : Nat) : List Item :=
  (List.range size).map fun position => (items[size * place + position]?).getD pad

/-- The number of records of a packed list. -/
def recordCount (size : Nat) (items : List Item) : Nat := (items.length + size - 1) / size

theorem getElem?_record {place position : Nat} (inside : position < size) :
    (record size pad items place)[position]? =
      some ((items[size * place + position]?).getD pad) := by
  simp [record, inside]

@[simp]
theorem length_record (place : Nat) : (record size pad items place).length = size := by
  simp [record]

theorem record_append {place : Nat} (full : size * (place + 1) ≤ items.length)
    (more : List Item) : record size pad (items ++ more) place = record size pad items place := by
  unfold record
  rw [List.map_inj_left]
  intro position inRange
  have inside := List.mem_range.mp inRange
  rw [Nat.mul_succ] at full
  rw [List.getElem?_append_left (by omega)]

theorem record_of_length_le {place : Nat} (behind : items.length ≤ size * place) :
    record size pad items place = List.replicate size pad := by
  apply List.ext_getElem?
  intro position
  by_cases inside : position < size
  · rw [getElem?_record inside, List.getElem?_eq_none (by omega), List.getElem?_replicate,
      if_pos inside]
    rfl
  · rw [List.getElem?_eq_none (by simpa using inside),
      List.getElem?_eq_none (by simpa using inside)]

theorem set_record (positive : 0 < size) (item : Item) :
    (record size pad items (items.length / size)).set (items.length % size) item =
      record size pad (items ++ [item]) (items.length / size) := by
  have position := Nat.div_add_mod items.length size
  have remainder := Nat.mod_lt items.length positive
  apply List.ext_getElem?
  intro other
  by_cases inside : other < size
  · rw [getElem?_record inside, List.getElem?_set, getElem?_record inside]
    by_cases same : items.length % size = other
    · rw [if_pos same, if_pos (by simpa using same ▸ remainder), ← same, position]
      simp
    · rw [if_neg same]
      by_cases before : size * (items.length / size) + other < items.length
      · rw [List.getElem?_append_left before]
      · rw [List.getElem?_eq_none (by omega), List.getElem?_eq_none (by simp; omega)]
  · rw [List.getElem?_eq_none (by simpa using inside),
      List.getElem?_eq_none (by simpa using inside)]

variable [DecidableEq Item]

theorem filter_map_range (pad : Item) (size : Nat) (items : List Item) :
    ((List.range size).map fun position => (items[position]?).getD pad).filter (· ≠ pad) =
      (items.take size).filter (· ≠ pad) := by
  induction size with
  | zero => rfl
  | succ size ih =>
      rw [List.range_succ, List.map_append, List.filter_append, ih, List.take_add_one,
        List.filter_append]
      congr 1
      cases found : items[size]? <;> simp [found]

theorem filter_record (place : Nat) :
    (record size pad items place).filter (· ≠ pad) =
      ((items.drop (size * place)).take size).filter (· ≠ pad) := by
  rw [← filter_map_range]
  unfold record
  simp only [List.getElem?_drop]

end Records

section Reading

variable {Item : Type} [DecidableEq Item] {size : Nat} {pad : Item} {items found : List Item}
variable {read older : Nat → Option (List Item)}

/-- Reading records from a place on until one is missing, without the pads. -/
inductive ReadFrom (pad : Item) (read : Nat → Option (List Item)) : Nat → List Item → Prop where
  | missing {place : Nat} (notFound : read place = none) : ReadFrom pad read place []
  | next {place : Nat} {record items : List Item} (isFound : read place = some record)
      (rest : ReadFrom pad read (place + 1) items) :
      ReadFrom pad read place (record.filter (· ≠ pad) ++ items)

theorem readFrom_unique {place : Nat} {other : List Item} (first : ReadFrom pad read place items)
    (second : ReadFrom pad read place other) : items = other := by
  induction first generalizing other with
  | missing notFound =>
      cases second with
      | missing => rfl
      | next isFound => simp [notFound] at isFound
  | next isFound rest ih =>
      cases second with
      | missing notFound => simp [isFound] at notFound
      | next otherFound otherRest =>
          rw [isFound] at otherFound
          cases otherFound
          rw [ih otherRest]

theorem pad_notMem_of_readFrom {place : Nat} (reads : ReadFrom pad read place items) :
    pad ∉ items := by
  induction reads with
  | missing => exact List.not_mem_nil
  | next isFound rest ih => simp [ih]

theorem readFrom_iff_of_found {place : Nat} {record : List Item}
    (isFound : read place = some record) :
    ReadFrom pad read place found ↔
      ∃ rest, found = record.filter (· ≠ pad) ++ rest ∧ ReadFrom pad read (place + 1) rest := by
  constructor
  · intro reads
    cases reads with
    | missing notFound => simp [isFound] at notFound
    | next otherFound rest =>
        rw [isFound] at otherFound
        cases otherFound
        exact ⟨_, rfl, rest⟩
  · rintro ⟨rest, rfl, reads⟩
    exact .next isFound reads

/-- Reading does not depend on the records before the place. -/
theorem readFrom_congr {place : Nat} (same : ∀ other, place ≤ other → read other = older other) :
    ReadFrom pad read place found ↔ ReadFrom pad older place found := by
  constructor
  · intro reads
    induction reads with
    | missing notFound => exact .missing (by rw [← same _ le_rfl, notFound])
    | next isFound rest ih =>
        exact .next (by rw [← same _ le_rfl, isFound])
          (ih fun other behind => same other (Nat.le_of_succ_le behind))
  · intro reads
    induction reads with
    | missing notFound => exact .missing (by rw [same _ le_rfl, notFound])
    | next isFound rest ih =>
        exact .next (by rw [same _ le_rfl, isFound])
          (ih fun other behind => same other (Nat.le_of_succ_le behind))

theorem readFrom_packed (positive : 0 < size)
    (packed : ∀ place, read place =
      if size * place < items.length then some (record size pad items place) else older place) :
    ReadFrom pad read 0 found ↔ ∃ rest, found = items.filter (· ≠ pad) ++ rest ∧
      ReadFrom pad older (recordCount size items) rest := by
  have behind : ∀ place, size * place < items.length ↔ place < recordCount size items := by
    intro place
    unfold recordCount
    rw [Nat.lt_div_iff_mul_lt positive, Nat.mul_comm place]
    omega
  have fromPlace : ∀ remaining place, place + remaining = recordCount size items →
      (ReadFrom pad read place found ↔
        ∃ rest, found = (items.drop (size * place)).filter (· ≠ pad) ++ rest ∧
          ReadFrom pad older (recordCount size items) rest) := by
    intro remaining
    induction remaining generalizing found with
    | zero =>
        intro place atEnd
        rw [Nat.add_zero] at atEnd
        subst atEnd
        have noneLeft : items.drop (size * recordCount size items) = [] := by
          rw [List.drop_eq_nil_iff]
          have notBehind := (behind (recordCount size items)).not.mpr (Nat.lt_irrefl _)
          omega
        have sameBehind : ∀ other, recordCount size items ≤ other → read other = older other := by
          intro other isBehind
          rw [packed, if_neg ((behind other).not.mpr (Nat.not_lt.mpr isBehind))]
        rw [noneLeft, readFrom_congr sameBehind]
        simp
    | succ remaining ih =>
        intro place before
        have inside := (behind place).mpr (by omega)
        rw [readFrom_iff_of_found (by rw [packed, if_pos inside]), filter_record]
        have cut : (items.drop (size * place)).filter (· ≠ pad) =
            ((items.drop (size * place)).take size).filter (· ≠ pad) ++
              (items.drop (size * (place + 1))).filter (· ≠ pad) := by
          rw [← List.filter_append, Nat.mul_succ, ← List.drop_drop, List.take_append_drop]
        constructor
        · rintro ⟨tail, rfl, reads⟩
          obtain ⟨rest, rfl, readsOlder⟩ := (ih (place + 1) (by omega)).mp reads
          exact ⟨rest, by rw [cut, List.append_assoc], readsOlder⟩
        · rintro ⟨rest, rfl, readsOlder⟩
          exact ⟨_, by rw [cut, List.append_assoc],
            (ih (place + 1) (by omega)).mpr ⟨rest, rfl, readsOlder⟩⟩
  simpa using fromPlace (recordCount size items) 0 (Nat.zero_add _)

end Reading

section Repeats

variable {Item : Type} [DecidableEq Item]

/-- A list without the items that repeat the item before them, behind a last item. -/
def dropRepeats (last : Item) (items : List Item) : List Item :=
  (items.destutter' (· ≠ ·) last).tail

theorem destutter'_ne_eq_cons (last : Item) (items : List Item) :
    items.destutter' (· ≠ ·) last = last :: dropRepeats last items := by
  unfold dropRepeats
  induction items generalizing last with
  | nil => rfl
  | cons item items ih =>
      by_cases same : last = item
      · rw [List.destutter'_cons_neg _ (not_not.mpr same), ih last]
        rfl
      · rw [List.destutter'_cons_pos _ same]
        rfl

@[simp]
theorem dropRepeats_cons_self (last : Item) (items : List Item) :
    dropRepeats last (last :: items) = dropRepeats last items := by
  simp [dropRepeats]

theorem dropRepeats_cons_of_ne {last item : Item} (different : last ≠ item) (items : List Item) :
    dropRepeats last (item :: items) = item :: dropRepeats item items := by
  unfold dropRepeats
  rw [List.destutter'_cons_pos _ different, destutter'_ne_eq_cons]
  rfl

omit [DecidableEq Item] in
theorem getLastD_append (last : Item) (items rest : List Item) :
    (items ++ rest).getLastD last = rest.getLastD (items.getLastD last) := by
  induction items generalizing last with
  | nil => rfl
  | cons item items ih => rw [List.cons_append, List.getLastD_cons, List.getLastD_cons, ih]

theorem dropRepeats_append (last : Item) (items rest : List Item) :
    dropRepeats last (items ++ rest) =
      dropRepeats last items ++ dropRepeats ((dropRepeats last items).getLastD last) rest := by
  induction items generalizing last with
  | nil => rfl
  | cons item items ih =>
      by_cases same : last = item
      · subst same
        rw [List.cons_append, dropRepeats_cons_self, dropRepeats_cons_self, ih]
      · rw [List.cons_append, dropRepeats_cons_of_ne same, dropRepeats_cons_of_ne same, ih,
          List.cons_append, List.getLastD_cons]

theorem dropRepeats_eq_destutter {last : Item} {items : List Item} (new : last ∉ items) :
    dropRepeats last items = items.destutter (· ≠ ·) := by
  cases items with
  | nil => rfl
  | cons item items =>
      have different : last ≠ item := fun same => new (same ▸ List.mem_cons_self ..)
      rw [dropRepeats_cons_of_ne different, List.destutter_cons', destutter'_ne_eq_cons]

theorem mem_dropRepeats (last : Item) {item : Item} {items : List Item} (isItem : item ∈ items) :
    item = last ∨ item ∈ dropRepeats last items := by
  induction items generalizing last with
  | nil => contradiction
  | cons head items ih =>
      by_cases same : last = head
      · subst same
        rw [dropRepeats_cons_self]
        rcases List.mem_cons.mp isItem with rfl | later
        · exact .inl rfl
        · exact ih last later
      · rw [dropRepeats_cons_of_ne same, List.mem_cons]
        rcases List.mem_cons.mp isItem with rfl | later
        · exact .inr (.inl rfl)
        · exact .inr (ih head later)

theorem mem_of_mem_dropRepeats {last item : Item} {items : List Item}
    (isKept : item ∈ dropRepeats last items) : item ∈ items := by
  have kept : List.Sublist (items.destutter' (· ≠ ·) last) (last :: items) :=
    List.destutter'_sublist ..
  rw [destutter'_ne_eq_cons] at kept
  exact (List.cons_sublist_cons.mp kept).mem isKept

theorem filter_ne_eq_self {pad : Item} {items : List Item} (absent : pad ∉ items) :
    items.filter (· ≠ pad) = items := by
  rw [List.filter_eq_self]
  intro item isItem
  have different : item ≠ pad := by
    rintro rfl
    exact absent isItem
  simpa using different

theorem eraseDups_eq_dropRepeats {last : Item} {items : List Item}
    (distinct : (last :: dropRepeats last items).Nodup) :
    (last :: items).eraseDups = last :: dropRepeats last items := by
  induction items generalizing last with
  | nil => rfl
  | cons item items ih =>
      by_cases same : last = item
      · subst same
        rw [dropRepeats_cons_self] at distinct ⊢
        rw [← ih distinct, List.eraseDups_cons, List.eraseDups_cons]
        simp
      · rw [dropRepeats_cons_of_ne same] at distinct ⊢
        obtain ⟨notLater, restDistinct⟩ := List.nodup_cons.mp distinct
        have absent : last ∉ item :: items := by
          intro again
          rcases List.mem_cons.mp again with rfl | later
          · exact same rfl
          · rcases mem_dropRepeats item later with rfl | kept
            · exact same rfl
            · exact notLater (List.mem_cons_of_mem _ kept)
        have onlyOnce : (item :: items).filter (fun other => !other == last) = item :: items := by
          simpa using filter_ne_eq_self absent
        rw [List.eraseDups_cons, onlyOnce, ih restDistinct]

theorem nodup_eraseDups (items : List Item) : items.eraseDups.Nodup := by
  induction length : items.length using Nat.strong_induction_on generalizing items with
  | _ bound ih =>
      cases items with
      | nil => exact List.nodup_nil
      | cons item items =>
          rw [List.eraseDups_cons, List.nodup_cons]
          constructor
          · rw [List.mem_eraseDups, List.mem_filter]
            simp
          · apply ih (items.filter fun other => !other == item).length _ _ rfl
            have shorter := List.length_filter_le (fun other => !other == item) items
            rw [← length, List.length_cons]
            omega

theorem dropRepeats_eq_eraseDups {pad : Item} {items : List Item} (new : pad ∉ items)
    (distinct : (items.destutter (· ≠ ·)).Nodup) : dropRepeats pad items = items.eraseDups := by
  rw [← dropRepeats_eq_destutter new] at distinct
  have padNew : pad ∉ dropRepeats pad items := fun isKept => new (mem_of_mem_dropRepeats isKept)
  have withPad := eraseDups_eq_dropRepeats (List.nodup_cons.mpr ⟨padNew, distinct⟩)
  have onlyOnce : items.filter (fun other => !other == pad) = items := by
    simpa using filter_ne_eq_self new
  rw [List.eraseDups_cons, onlyOnce] at withPad
  exact (List.cons.inj withPad).2.symm

/-- What is read of a list that was packed without repeats, with what is read behind it,
are the distinct items of the list only if each of them stood in one piece. -/
theorem eraseDups_eq_append_iff {pad : Item} {items rest : List Item} (padFree : pad ∉ rest) :
    items.eraseDups = (dropRepeats pad items).filter (· ≠ pad) ++ rest ↔
      pad ∉ items ∧ (items.destutter (· ≠ ·)).Nodup ∧ rest = [] := by
  constructor
  · intro complete
    have new : pad ∉ items := by
      intro isItem
      have inDistinct := List.mem_eraseDups.mpr isItem
      rw [complete] at inDistinct
      simp [padFree] at inDistinct
    have padNew : pad ∉ dropRepeats pad items := fun isKept => new (mem_of_mem_dropRepeats isKept)
    have noPads := filter_ne_eq_self padNew
    have distinct := nodup_eraseDups items
    rw [complete, noPads, List.nodup_append] at distinct
    refine ⟨new, dropRepeats_eq_destutter new ▸ distinct.1, ?_⟩
    rw [List.eq_nil_iff_forall_not_mem]
    intro item isRest
    have isItem : item ∈ items := by
      rw [← List.mem_eraseDups, complete]
      exact List.mem_append_right _ isRest
    rcases mem_dropRepeats pad isItem with rfl | isKept
    · exact new isItem
    · exact distinct.2.2 item isKept item isRest rfl
  · rintro ⟨new, distinct, rfl⟩
    have padNew : pad ∉ dropRepeats pad items := fun isKept => new (mem_of_mem_dropRepeats isKept)
    rw [List.append_nil, filter_ne_eq_self padNew, dropRepeats_eq_eraseDups new distinct]

end Repeats

end PackedRecords
