import HdacNode.BlockArrival
import HdacNode.LastBlock

/-!
# Runs of the node on its tree of blocks

The functions that write the tree of blocks follow one another in any order.
`ActivateBestChain` gives up `cs_main` behind each round of its loop, so a round is a step
of its own; `SetLastBlock` ends with such rounds when one of its own steps fails.
-/

namespace HdacNode

open FailingActions ChainM

/-- A step of the node: a block arrives, a round of `ActivateBestChain` is run, a block is
invalidated or reconsidered, a known block is to be the last one, the list of banned
transactions is set, or something else happens to the rest of the node. -/
inductive ChainOp (World : Type) where
  | accept (checks : BlockChecks) (nTx : Nat) (id : BlockID)
  | activate (rounds : Nat)
  | invalidate (id : BlockID)
  | reconsider (id : BlockID)
  | setLast (rounds : Nat) (target : BlockID)
  | setBanned
  | elsewhere (change : World → World)

namespace NodeHooks

variable {World : Type} (hooks : NodeHooks World)

/-- Run a step. -/
def runOp : ChainOp World → ChainM World Unit
  | .accept checks nTx id => do
      let _ ← hooks.acceptBlock checks nTx id
  | .activate rounds => do
      let _ ← hooks.activationRound rounds
  | .invalidate id => hooks.invalidateBlock id
  | .reconsider id => reconsiderBlock id
  | .setLast rounds target => do
      let refused ← query fun node =>
        hooks.lastBlockChecks node target (node.chain.branch target)
      if refused = none then hooks.reachLastBlock rounds target
  | .setBanned => setChain fun c => c.setBannedTxs
  | .elsewhere change => callWorld fun world => ((), change world)

/-- The node behind a step, whether it returned true or not. -/
def afterOp (op : ChainOp World) (node : NodeChain World) : NodeChain World :=
  stateAfter (hooks.runOp op node)

theorem stateAfter_discard {α : Type} (act : ChainM World α) (node : NodeChain World) :
    stateAfter ((act >>= fun _ => pure ()) node) = stateAfter (act node) := by
  rw [bind_apply]
  cases act node with
  | ok a after => rfl
  | error stop after => rfl

theorem afterOp_accept (checks : BlockChecks) (nTx : Nat) (id : BlockID) (node : NodeChain World) :
    hooks.afterOp (.accept checks nTx id) node =
      stateAfter (hooks.acceptBlock checks nTx id node) :=
  stateAfter_discard _ node

theorem afterOp_activate (rounds : Nat) (node : NodeChain World) :
    hooks.afterOp (.activate rounds) node = stateAfter (hooks.activationRound rounds node) :=
  stateAfter_discard _ node

/-- The nodes that are reached from a node by steps that meet a condition. -/
inductive Reaches (allowed : ChainOp World → NodeChain World → Prop) (start : NodeChain World) :
    NodeChain World → Prop
  | start : Reaches allowed start start
  | step {node : NodeChain World} (run : Reaches allowed start node) (op : ChainOp World)
      (isAllowed : allowed op node) : Reaches allowed start (hooks.afterOp op node)

theorem Reaches.trans {hooks : NodeHooks World}
    {allowed : ChainOp World → NodeChain World → Prop} {start between node : NodeChain World}
    (first : hooks.Reaches allowed start between) (second : hooks.Reaches allowed between node) :
    hooks.Reaches allowed start node := by
  induction second with
  | start => exact first
  | step _ op isAllowed ih => exact ih.step op isAllowed

/-- `ActivateBestChain` is a run of its rounds, with a flush behind the last one. -/
theorem activateBestChain_reaches (rounds more : Nat) (node : NodeChain World) :
    hooks.Reaches (fun _ _ => True) node
      (stateAfter (hooks.activateBestChain rounds more node)) := by
  induction more generalizing node with
  | zero => exact .start
  | succ more ih =>
      have round : hooks.Reaches (fun _ _ => True) node
          (hooks.afterOp (.activate rounds) node) := .step .start (.activate rounds) trivial
      rw [afterOp_activate] at round
      rw [activateBestChain, bind_apply]
      cases done : hooks.activationRound rounds node with
      | error stop after =>
          rw [done] at round
          exact round
      | ok ending after =>
          rw [done] at round
          cases ending with
          | nothingToDo => exact round
          | again => exact round.trans (ih after)
          | reached =>
              have flushed := round.step (.elsewhere fun world => (hooks.flushState world).2) trivial
              refine (congrArg (hooks.Reaches _ node) ?_).mp flushed
              change _ = stateAfter ((callWorld hooks.flushState >>= fun _ => _) after)
              rw [bind_apply]
              change _ = stateAfter ((if (hooks.flushState after.world).1 = true then _ else _ :
                ChainM World Unit) _)
              split
              · rfl
              · rfl

/-- What every allowed step keeps holds in all reached nodes. -/
theorem Reaches.induction {hooks : NodeHooks World}
    {allowed : ChainOp World → NodeChain World → Prop} {start node : NodeChain World}
    (run : hooks.Reaches allowed start node) {holds : NodeChain World → Prop}
    (atStart : holds start)
    (keeps : ∀ op node, allowed op node → holds node → holds (hooks.afterOp op node)) :
    holds node := by
  induction run with
  | start => exact atStart
  | step _ op isAllowed ih => exact keeps op _ isAllowed ih

end NodeHooks

end HdacNode
