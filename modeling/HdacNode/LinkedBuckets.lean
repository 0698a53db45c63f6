import Mathlib.Data.List.Nodup

/-!
# Intrusive lists of buckets

A family of singly linked lists can live inside the nodes themselves: every
node stores the node after it, and a table stores the first node of each list.
The empty link is a reserved node, `stop`.

Following the links from a node either never ends or reads a single list of
nodes.  The family *threads* a membership relation when every list of the table
reads exactly the nodes of its bucket, each once.  Popping the first node of a
list, pushing a node in front of one and linking a node behind the last one keep a
family threaded; unlinking a node that is not the first one with the pop of the
first one does not.
-/

namespace HdacNode

universe u v

variable {Node : Type u} {Bucket : Type v}

/-- Following `next` from a node reads the given nodes and then stops. -/
inductive Threads (next : Node → Node) (stop : Node) : Node → List Node → Prop
  | stop : Threads next stop stop []
  | node {node : Node} {rest : List Node} (notStop : node ≠ stop)
      (after : Threads next stop (next node) rest) : Threads next stop node (node :: rest)

namespace Threads

variable {next : Node → Node} {stop : Node}

theorem of_stop {nodes : List Node} (threads : Threads next stop stop nodes) : nodes = [] := by
  cases threads with
  | stop => rfl
  | node notStop after => exact absurd rfl notStop

theorem of_node {first : Node} {nodes : List Node} (threads : Threads next stop first nodes)
    (notStop : first ≠ stop) :
    ∃ rest, nodes = first :: rest ∧ Threads next stop (next first) rest := by
  cases threads with
  | stop => exact absurd rfl notStop
  | node _ after => exact ⟨_, rfl, after⟩

theorem next_mem {first : Node} {nodes : List Node} (threads : Threads next stop first nodes)
    {node : Node} (member : node ∈ nodes) : next node = stop ∨ next node ∈ nodes := by
  induction threads with
  | stop => simp at member
  | @node first rest notStop after ih =>
      rcases List.mem_cons.1 member with rfl | later
      · cases after with
        | stop => exact Or.inl rfl
        | node _ _ => simp
      · rcases ih later with ends | goesOn
        · exact Or.inl ends
        · exact Or.inr (by simp [goesOn])

/-- Links out of other nodes are not followed. -/
theorem congr {other : Node → Node} {first : Node} {nodes : List Node}
    (threads : Threads next stop first nodes) (same : ∀ node ∈ nodes, other node = next node) :
    Threads other stop first nodes := by
  induction threads with
  | stop => exact .stop
  | @node first rest notStop after ih =>
      apply Threads.node notStop
      rw [same first (by simp)]
      apply ih
      intro node member
      exact same node (by simp [member])

/-- The links determine the list. -/
theorem unique {first : Node} {nodes others : List Node} (threads : Threads next stop first nodes)
    (also : Threads next stop first others) : nodes = others := by
  induction threads generalizing others with
  | stop => exact also.of_stop.symm
  | node notStop after ih =>
      obtain ⟨rest, rfl, afterOther⟩ := also.of_node notStop
      rw [ih afterOther]

theorem stop_not_mem {first : Node} {nodes : List Node}
    (threads : Threads next stop first nodes) : stop ∉ nodes := by
  induction threads with
  | stop => simp
  | node notStop after ih => simp [notStop.symm, ih]

variable [DecidableEq Node]

/-- Linking a node behind the last one. -/
theorem append {first last node : Node} {front : List Node}
    (threads : Threads next stop first (front ++ [last])) (nodup : (front ++ [last]).Nodup)
    (notStop : node ≠ stop) (ends : next node = stop) (fresh : node ∉ front ++ [last]) :
    Threads (Function.update next last node) stop first (front ++ [last] ++ [node]) := by
  induction front generalizing first with
  | nil =>
      cases threads with
      | node lastNotStop after =>
          apply Threads.node lastNotStop
          rw [Function.update_self]
          apply Threads.node notStop
          rw [Function.update_of_ne (by rintro rfl; simp at fresh), ends]
          exact .stop
  | cons head front ih =>
      cases threads with
      | node headNotStop after =>
          obtain ⟨absent, restNodup⟩ := List.nodup_cons.1 nodup
          apply Threads.node headNotStop
          rw [Function.update_of_ne (by rintro rfl; simp at absent)]
          apply ih after restNodup
          intro member
          exact fresh (List.mem_cons_of_mem _ member)

end Threads

/-- The nodes that are read from a node on, as far as the fuel goes. -/
def nodesFrom [DecidableEq Node] (next : Node → Node) (stop : Node) : Nat → Node → List Node
  | 0, _ => []
  | fuel + 1, node => if node = stop then [] else node :: nodesFrom next stop fuel (next node)

/-- With a unit of fuel for each node the whole list is read. -/
theorem Threads.nodesFrom_eq [DecidableEq Node] {next : Node → Node} {stop first : Node}
    {nodes : List Node} (threads : Threads next stop first nodes) {fuel : Nat}
    (enough : nodes.length ≤ fuel) : nodesFrom next stop fuel first = nodes := by
  induction threads generalizing fuel with
  | stop =>
      cases fuel with
      | zero => rfl
      | succ fuel => exact if_pos rfl
  | node notStop after ih =>
      cases fuel with
      | zero => simp at enough
      | succ fuel =>
          rw [nodesFrom, if_neg notStop, ih (by simpa using enough)]

variable [DecidableEq Node] [DecidableEq Bucket]

/-- Every list of the table reads exactly the nodes of its bucket, each once. -/
def Bucketed (next : Node → Node) (stop : Node) (first : Bucket → Node)
    (holds : Bucket → Node → Prop) : Prop :=
  ∀ bucket, ∃ nodes, Threads next stop (first bucket) nodes ∧ nodes.Nodup ∧
    ∀ node, node ∈ nodes ↔ holds bucket node

namespace Bucketed

variable {next : Node → Node} {stop : Node} {first : Bucket → Node}
  {holds : Bucket → Node → Prop}

omit [DecidableEq Node] [DecidableEq Bucket] in
theorem congr {other : Bucket → Node → Prop} (bucketed : Bucketed next stop first holds)
    (same : ∀ bucket node, holds bucket node ↔ other bucket node) :
    Bucketed next stop first other := by
  intro bucket
  obtain ⟨nodes, threads, nodup, members⟩ := bucketed bucket
  exact ⟨nodes, threads, nodup, fun node => (members node).trans (same bucket node)⟩

omit [DecidableEq Node] [DecidableEq Bucket] in
/-- A first node that is not the reserved one is in its bucket. -/
theorem holds_first (bucketed : Bucketed next stop first holds) {bucket : Bucket}
    (notStop : first bucket ≠ stop) : holds bucket (first bucket) := by
  obtain ⟨nodes, threads, -, members⟩ := bucketed bucket
  obtain ⟨rest, rfl, -⟩ := threads.of_node notStop
  exact (members _).1 (by simp)

omit [DecidableEq Node] [DecidableEq Bucket] in
/-- The table holds the reserved node exactly at the empty buckets. -/
theorem first_eq_stop_iff (bucketed : Bucketed next stop first holds) (bucket : Bucket) :
    first bucket = stop ↔ ∀ node, ¬ holds bucket node := by
  obtain ⟨nodes, threads, -, members⟩ := bucketed bucket
  constructor
  · intro isStop node member
    rw [isStop] at threads
    have empty := threads.of_stop
    subst empty
    simpa using (members node).2 member
  · intro empty
    by_contra notStop
    obtain ⟨rest, rfl, -⟩ := threads.of_node notStop
    exact empty (first bucket) ((members _).1 (by simp))

/-- Taking the first node off its list.  Its own link is free from then on. -/
theorem pop (bucketed : Bucketed next stop first holds) {bucket : Bucket}
    (notStop : first bucket ≠ stop)
    (alone : ∀ other, holds other (first bucket) → other = bucket) (link : Node) :
    Bucketed (Function.update next (first bucket) link) stop
      (Function.update first bucket (next (first bucket)))
      (fun other node => holds other node ∧ node ≠ first bucket) := by
  intro other
  obtain ⟨nodes, threads, nodup, members⟩ := bucketed other
  by_cases same : other = bucket
  · subst same
    obtain ⟨rest, rfl, after⟩ := threads.of_node notStop
    obtain ⟨absent, restNodup⟩ := List.nodup_cons.1 nodup
    refine ⟨rest, ?_, restNodup, ?_⟩
    · rw [Function.update_self]
      apply after.congr
      intro node member
      apply Function.update_of_ne
      rintro rfl
      exact absent member
    · intro node
      constructor
      · intro member
        refine ⟨(members node).1 (by simp [member]), ?_⟩
        rintro rfl
        exact absent member
      · rintro ⟨held, different⟩
        rcases List.mem_cons.1 ((members node).2 held) with rfl | later
        · exact absurd rfl different
        · exact later
  · have absent : first bucket ∉ nodes := fun member =>
      same (alone other ((members _).1 member))
    refine ⟨nodes, ?_, nodup, ?_⟩
    · rw [Function.update_of_ne same]
      apply threads.congr
      intro node member
      apply Function.update_of_ne
      rintro rfl
      exact absent member
    · intro node
      rw [members node]
      constructor
      · intro held
        refine ⟨held, ?_⟩
        rintro rfl
        exact same (alone other held)
      · exact And.left

/-- Pushing a node that no list has in front of one of them. -/
theorem push (bucketed : Bucketed next stop first holds) (bucket : Bucket) {node : Node}
    (notStop : node ≠ stop) (fresh : ∀ other, ¬ holds other node) :
    Bucketed (Function.update next node (first bucket)) stop (Function.update first bucket node)
      (fun other member => holds other member ∨ other = bucket ∧ member = node) := by
  intro other
  obtain ⟨nodes, threads, nodup, members⟩ := bucketed other
  have absent : node ∉ nodes := fun member => fresh other ((members node).1 member)
  have kept : Threads (Function.update next node (first bucket)) stop (first other) nodes := by
    apply threads.congr
    intro listed member
    apply Function.update_of_ne
    rintro rfl
    exact absent member
  by_cases same : other = bucket
  · subst same
    refine ⟨node :: nodes, ?_, List.nodup_cons.2 ⟨absent, nodup⟩, ?_⟩
    · rw [Function.update_self]
      apply Threads.node notStop
      rw [Function.update_self]
      exact kept
    · intro member
      rw [List.mem_cons, members member]
      constructor
      · rintro (rfl | held)
        · exact Or.inr ⟨rfl, rfl⟩
        · exact Or.inl held
      · rintro (held | ⟨-, rfl⟩)
        · exact Or.inr held
        · exact Or.inl rfl
  · refine ⟨nodes, ?_, nodup, ?_⟩
    · rw [Function.update_of_ne same]
      exact kept
    · intro member
      rw [members member]
      simp [same]

omit [DecidableEq Node] in
/-- A node that no list has becomes the first one of an empty list. -/
theorem start (bucketed : Bucketed next stop first holds) {bucket : Bucket} {node : Node}
    (empty : first bucket = stop) (notStop : node ≠ stop) (ends : next node = stop) :
    Bucketed next stop (Function.update first bucket node)
      (fun other member => holds other member ∨ other = bucket ∧ member = node) := by
  intro other
  obtain ⟨nodes, threads, nodup, members⟩ := bucketed other
  by_cases same : other = bucket
  · subst same
    rw [empty] at threads
    have none := threads.of_stop
    subst none
    refine ⟨[node], ?_, List.nodup_singleton node, ?_⟩
    · rw [Function.update_self]
      apply Threads.node notStop
      rw [ends]
      exact .stop
    · intro member
      simp [← members member]
  · refine ⟨nodes, ?_, nodup, ?_⟩
    · rw [Function.update_of_ne same]
      exact threads
    · intro member
      simp [members member, same]

/-- A node that no list has is linked behind the last one of a list. -/
theorem append (bucketed : Bucketed next stop first holds) {bucket : Bucket} {node last : Node}
    {front : List Node} (threads : Threads next stop (first bucket) (front ++ [last]))
    (alone : ∀ other, holds other last → other = bucket) (notStop : node ≠ stop)
    (ends : next node = stop) (fresh : ∀ other, ¬ holds other node) :
    Bucketed (Function.update next last node) stop first
      (fun other member => holds other member ∨ other = bucket ∧ member = node) := by
  intro other
  obtain ⟨nodes, threadsOther, nodup, members⟩ := bucketed other
  have absent : node ∉ nodes := fun member => fresh other ((members node).1 member)
  by_cases same : other = bucket
  · subst same
    have whole := threadsOther.unique threads
    subst whole
    refine ⟨front ++ [last] ++ [node], threads.append nodup notStop ends absent, ?_, ?_⟩
    · exact List.nodup_append.2 ⟨nodup, List.nodup_singleton node, by
        rintro member listed one single rfl
        exact absent (List.mem_singleton.1 single ▸ listed)⟩
    · intro member
      rw [List.mem_append, members member, List.mem_singleton]
      simp
  · refine ⟨nodes, ?_, nodup, ?_⟩
    · apply threadsOther.congr
      intro listed member
      apply Function.update_of_ne
      rintro rfl
      exact same (alone other ((members _).1 member))
    · intro member
      simp [members member, same]

theorem move (bucketed : Bucketed next stop first holds) {source target : Bucket}
    (notStop : first source ≠ stop)
    (alone : ∀ other, holds other (first source) → other = source) (apart : target ≠ source) :
    Bucketed (Function.update next (first source) (first target)) stop
      (Function.update (Function.update first source (next (first source))) target
        (first source))
      (fun other node => holds other node ∧ node ≠ first source ∨
        other = target ∧ node = first source) := by
  have popped := bucketed.pop notStop alone (first target)
  have pushed := popped.push target notStop (fun other held => held.2 rfl)
  rw [Function.update_of_ne apart, Function.update_idem] at pushed
  exact pushed

end Bucketed

end HdacNode
