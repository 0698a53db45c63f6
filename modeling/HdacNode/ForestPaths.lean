import Mathlib.Data.List.Infix
import Mathlib.Data.List.TakeWhile

/-!
# Paths in a forest

Nodes know their parent and their height, which is one more than that of the parent.  The
path of a node leads over its ancestors to a root.  Two nodes of one tree meet at the
first node on the path of the one that is on the path of the other.
-/

namespace HdacNode

/-- Nodes with parents; heights fall by one on the way to a root. -/
structure Forest (Node : Type) where
  parent : Node → Option Node
  height : Node → Nat
  height_parent : ∀ {node above : Node}, parent node = some above →
    height node = height above + 1

namespace Forest

variable {Node : Type} (forest : Forest Node)

/-- The first nodes on the way from a node to its root. -/
def pathUp : Nat → Node → List Node
  | 0, _ => []
  | fuel + 1, node =>
      node :: match forest.parent node with
        | none => []
        | some above => pathUp fuel above

/-- The nodes from a node up to its root. -/
def path (node : Node) : List Node := forest.pathUp (forest.height node + 1) node

/-- The path of a node goes on with the path of its parent. -/
theorem path_eq (node : Node) :
    forest.path node = node :: match forest.parent node with
      | none => []
      | some above => forest.path above := by
  unfold path
  rw [pathUp]
  cases found : forest.parent node with
  | none => rfl
  | some above => rw [forest.height_parent found]

theorem path_of_parent {node above : Node} (found : forest.parent node = some above) :
    forest.path node = node :: forest.path above := by
  rw [path_eq, found]

theorem mem_path_self (node : Node) : node ∈ forest.path node := by
  rw [path_eq]
  exact List.mem_cons_self ..

/-- The induction over the way to the root. -/
theorem path_induction {motive : Node → Prop}
    (step : ∀ node, (∀ above, forest.parent node = some above → motive above) → motive node)
    (node : Node) : motive node := by
  have bounded : ∀ height node, forest.height node ≤ height → motive node := by
    intro height
    induction height with
    | zero =>
        intro node low
        apply step
        intro above found
        have higher := forest.height_parent found
        omega
    | succ height ih =>
        intro node low
        apply step
        intro above found
        have higher := forest.height_parent found
        exact ih above (by omega)
  exact bounded (forest.height node) node (Nat.le_refl _)

/-- The path of an ancestor is the end of the path. -/
theorem path_suffix {node ancestor : Node} (member : ancestor ∈ forest.path node) :
    forest.path ancestor <:+ forest.path node := by
  induction node using forest.path_induction with
  | step node ih =>
      rw [path_eq] at member
      rcases List.mem_cons.mp member with isNode | above
      · rw [isNode]
      · cases found : forest.parent node with
        | none =>
            rw [found] at above
            cases above
        | some parent =>
            rw [found] at above
            rw [forest.path_of_parent found]
            exact (ih parent found above).trans (List.suffix_cons ..)

theorem mem_path_trans {node middle ancestor : Node} (first : middle ∈ forest.path node)
    (second : ancestor ∈ forest.path middle) : ancestor ∈ forest.path node :=
  (forest.path_suffix first).subset second

/-- An ancestor is not higher, and only the node itself is as high. -/
theorem height_of_mem_path {node ancestor : Node} (member : ancestor ∈ forest.path node) :
    ancestor = node ∨ forest.height ancestor < forest.height node := by
  induction node using forest.path_induction with
  | step node ih =>
      rw [path_eq] at member
      rcases List.mem_cons.mp member with isNode | above
      · exact .inl isNode
      · cases found : forest.parent node with
        | none =>
            rw [found] at above
            cases above
        | some parent =>
            rw [found] at above
            have higher := forest.height_parent found
            rcases ih parent found above with isParent | lower
            · right
              rw [isParent]
              omega
            · right
              omega

theorem height_le_of_mem_path {node ancestor : Node} (member : ancestor ∈ forest.path node) :
    forest.height ancestor ≤ forest.height node := by
  rcases forest.height_of_mem_path member with isNode | lower
  · rw [isNode]
  · omega

/-- Of two ancestors of a node the one is an ancestor of the other. -/
theorem mem_path_or {node first second : Node} (isFirst : first ∈ forest.path node)
    (isSecond : second ∈ forest.path node) :
    first ∈ forest.path second ∨ second ∈ forest.path first := by
  rcases List.suffix_or_suffix_of_suffix (forest.path_suffix isFirst)
      (forest.path_suffix isSecond) with above | above
  · exact .inl (above.subset (forest.mem_path_self first))
  · exact .inr (above.subset (forest.mem_path_self second))

theorem eq_of_mem_path {node first second : Node} (isFirst : first ∈ forest.path node)
    (isSecond : second ∈ forest.path node)
    (sameHeight : forest.height first = forest.height second) : first = second := by
  rcases forest.mem_path_or isFirst isSecond with above | above
  · rcases forest.height_of_mem_path above with same | lower
    · exact same
    · omega
  · rcases forest.height_of_mem_path above with same | lower
    · exact same.symm
    · omega

/-- The parent of an ancestor is an ancestor. -/
theorem parent_mem_path {node ancestor above : Node} (member : ancestor ∈ forest.path node)
    (found : forest.parent ancestor = some above) : above ∈ forest.path node := by
  apply forest.mem_path_trans member
  rw [forest.path_of_parent found]
  exact List.mem_cons_of_mem _ (forest.mem_path_self above)

theorem exists_child_of_mem_path {node ancestor : Node} (member : ancestor ∈ forest.path node)
    (proper : ancestor ≠ node) :
    ∃ child ∈ forest.path node, forest.parent child = some ancestor := by
  induction node using forest.path_induction with
  | step node ih =>
      rw [path_eq] at member
      have above := (List.mem_cons.mp member).resolve_left proper
      cases found : forest.parent node with
      | none =>
          rw [found] at above
          cases above
      | some parent =>
          rw [found] at above
          rw [forest.path_of_parent found]
          by_cases isParent : ancestor = parent
          · exact ⟨node, List.mem_cons_self .., by rw [found, isParent]⟩
          · obtain ⟨child, onPath, isChild⟩ := ih parent found above isParent
            exact ⟨child, List.mem_cons_of_mem _ onPath, isChild⟩

/-- A list climbs from below: every node is a child of the one in front of it. -/
def Climbs : Option Node → List Node → Prop
  | _, [] => True
  | below, first :: rest => forest.parent first = below ∧ Climbs (some first) rest

theorem climbs_append {below : Option Node} {front back : List Node} :
    forest.Climbs below (front ++ back) ↔
      forest.Climbs below front ∧ forest.Climbs (front.getLast?.or below) back := by
  induction front generalizing below with
  | nil => simp [Climbs]
  | cons first rest ih =>
      rw [List.cons_append, Climbs, Climbs, ih, and_assoc]
      cases rest with
      | nil => simp [Climbs]
      | cons second rest => rfl

section Forks

variable [DecidableEq Node]

/-- The part of the path of a node that is not on another path, from the node up. -/
def branch (active : List Node) (node : Node) : List Node :=
  (forest.path node).takeWhile (· ∉ active)

/-- The first node on the path of a node that is on another path. -/
def fork (active : List Node) (node : Node) : Option Node :=
  (forest.path node).find? (· ∈ active)

theorem fork_mem_path {active : List Node} {node meeting : Node}
    (found : forest.fork active node = some meeting) : meeting ∈ forest.path node :=
  List.mem_of_find?_eq_some found

theorem fork_mem_active {active : List Node} {node meeting : Node}
    (found : forest.fork active node = some meeting) : meeting ∈ active := by
  have passes := List.find?_some found
  exact of_decide_eq_true passes

theorem not_mem_of_mem_branch {active : List Node} {node member : Node}
    (isMember : member ∈ forest.branch active node) : member ∉ active := by
  have passes := List.mem_takeWhile_imp isMember
  exact of_decide_eq_true passes

theorem mem_path_of_mem_branch {active : List Node} {node member : Node}
    (isMember : member ∈ forest.branch active node) : member ∈ forest.path node :=
  List.IsPrefix.subset ( List.takeWhile_prefix _) isMember

/-- A node on the other path has no branch. -/
theorem branch_of_mem {active : List Node} {node : Node} (member : node ∈ active) :
    forest.branch active node = [] := by
  unfold branch
  rw [path_eq, List.takeWhile_cons, if_neg (by simpa using member)]

/-- A branch starts with its node. -/
theorem exists_branch_eq_cons {active : List Node} {node : Node}
    (some : forest.branch active node ≠ []) :
    ∃ rest, forest.branch active node = node :: rest := by
  unfold branch at some ⊢
  rw [path_eq, List.takeWhile_cons] at some ⊢
  split at some
  · rename_i off
    rw [if_pos off]
    exact ⟨_, rfl⟩
  · exact absurd rfl some

theorem fork_of_mem {active : List Node} {node : Node} (member : node ∈ active) :
    forest.fork active node = some node := by
  unfold fork
  rw [path_eq, List.find?_cons_of_pos]
  exact decide_eq_true member

/-- The branch of a node off the other path goes on with that of the parent. -/
theorem branch_of_parent {active : List Node} {node above : Node} (off : node ∉ active)
    (found : forest.parent node = some above) :
    forest.branch active node = node :: forest.branch active above := by
  unfold branch
  rw [forest.path_of_parent found, List.takeWhile_cons, if_pos (by simpa using off)]

theorem branch_of_root {active : List Node} {node : Node} (off : node ∉ active)
    (root : forest.parent node = none) : forest.branch active node = [node] := by
  unfold branch
  rw [path_eq, root, List.takeWhile_cons, if_pos (by simpa using off), List.takeWhile_nil]

theorem fork_of_parent {active : List Node} {node above : Node} (off : node ∉ active)
    (found : forest.parent node = some above) :
    forest.fork active node = forest.fork active above := by
  unfold fork
  rw [forest.path_of_parent found, List.find?_cons_of_neg]
  simpa using off

theorem fork_of_root {active : List Node} {node : Node} (off : node ∉ active)
    (root : forest.parent node = none) : forest.fork active node = none := by
  unfold fork
  rw [path_eq, root, List.find?_cons_of_neg (by simpa using off), List.find?_nil]

theorem path_eq_branch_append {active : List Node} (node : Node) :
    forest.path node = forest.branch active node ++
      match forest.fork active node with
      | none => []
      | some meeting => forest.path meeting := by
  induction node using forest.path_induction with
  | step node ih =>
      by_cases member : node ∈ active
      · rw [forest.branch_of_mem member, forest.fork_of_mem member]
        rfl
      · cases found : forest.parent node with
        | none =>
            rw [forest.branch_of_root member found, forest.fork_of_root member found, path_eq,
              found]
            rfl
        | some above =>
            rw [forest.path_of_parent found, forest.branch_of_parent member found,
              forest.fork_of_parent member found, List.cons_append]
            exact congrArg _ (ih above found)

/-- From the fork the branch climbs up to the node. -/
theorem climbs_branch (active : List Node) (node : Node) :
    forest.Climbs (forest.fork active node) (forest.branch active node).reverse ∧
      (forest.branch active node).reverse.getLast?.or (forest.fork active node) = some node := by
  induction node using forest.path_induction with
  | step node ih =>
      by_cases member : node ∈ active
      · rw [forest.branch_of_mem member, forest.fork_of_mem member]
        exact ⟨trivial, rfl⟩
      · cases found : forest.parent node with
        | none =>
            rw [forest.branch_of_root member found, forest.fork_of_root member found]
            exact ⟨⟨found, trivial⟩, rfl⟩
        | some above =>
            obtain ⟨climbs, last⟩ := ih above found
            rw [forest.branch_of_parent member found, forest.fork_of_parent member found,
              List.reverse_cons]
            refine ⟨forest.climbs_append.mpr ⟨climbs, ?_⟩, by simp⟩
            rw [last]
            exact ⟨found, trivial⟩

/-- The path of an ancestor meets the path of a node in that ancestor. -/
theorem fork_path_of_mem {node ancestor : Node} (member : ancestor ∈ forest.path node) :
    forest.fork (forest.path ancestor) node = some ancestor := by
  induction node using forest.path_induction with
  | step node ih =>
      by_cases below : node ∈ forest.path ancestor
      · have low := forest.height_le_of_mem_path below
        rcases forest.height_of_mem_path member with isNode | lower
        · rw [isNode]
          exact forest.fork_of_mem (forest.mem_path_self node)
        · omega
      · have notNode : ancestor ≠ node := by
          intro isNode
          rw [isNode] at below
          exact below (forest.mem_path_self node)
        cases found : forest.parent node with
        | none =>
            rw [path_eq, found] at member
            exact absurd (List.mem_singleton.mp member) notNode
        | some above =>
            rw [forest.path_of_parent found] at member
            rw [forest.fork_of_parent below found]
            exact ih above found ((List.mem_cons.mp member).resolve_left notNode)

theorem height_lt_of_mem_branch {node ancestor member : Node}
    (isAncestor : ancestor ∈ forest.path node)
    (isMember : member ∈ forest.branch (forest.path ancestor) node) :
    forest.height ancestor < forest.height member := by
  have off := forest.not_mem_of_mem_branch isMember
  have onPath := forest.mem_path_of_mem_branch isMember
  rcases forest.mem_path_or onPath isAncestor with below | above
  · exact absurd below off
  · rcases forest.height_of_mem_path above with same | lower
    · rw [same] at off
      exact absurd (forest.mem_path_self member) off
    · exact lower

/-- The branch over a proper ancestor starts with the child of that ancestor. -/
theorem branch_reverse_of_mem {node ancestor first : Node} (isFirst : first ∈ forest.path node)
    (isChild : forest.parent first = some ancestor) :
    ∃ rest, (forest.branch (forest.path ancestor) node).reverse = first :: rest := by
  have isAncestor := forest.parent_mem_path isFirst isChild
  have lower := forest.height_parent isChild
  obtain ⟨climbs, -⟩ := forest.climbs_branch (forest.path ancestor) node
  rw [forest.fork_path_of_mem isAncestor] at climbs
  cases isBranch : (forest.branch (forest.path ancestor) node).reverse with
  | nil =>
      have whole := @path_eq_branch_append _ forest _ (forest.path ancestor) node
      rw [List.reverse_eq_nil_iff.mp isBranch, forest.fork_path_of_mem isAncestor] at whole
      rw [whole] at isFirst
      have low := forest.height_le_of_mem_path isFirst
      omega
  | cons head rest =>
      rw [isBranch] at climbs
      have inBranch : head ∈ forest.branch (forest.path ancestor) node := by
        apply List.mem_reverse.mp
        rw [isBranch]
        exact List.mem_cons_self ..
      have sameHeight : forest.height head = forest.height first := by
        rw [lower, forest.height_parent climbs.1]
      have onPath := forest.mem_path_of_mem_branch inBranch
      exact ⟨rest, by rw [forest.eq_of_mem_path onPath isFirst sameHeight]⟩

end Forks

end Forest

end HdacNode
