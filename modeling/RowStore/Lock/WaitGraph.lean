import RowStore.Address
import RowStore.FinMap

namespace RowStore

/-! Which transactions wait, for whom, and which were interrupted.

An edge of the graph leads from a waiting transaction to one that it waits for.
The edges are those recorded when the wait began or was last looked at again.
-/

structure WaitGraph where
  edges : FinMap TxId (List TxId)
  waitingOn : FinMap TxId PageId
  interrupted : List TxId

namespace WaitGraph

def empty : WaitGraph := ⟨.empty, .empty, []⟩

instance : Inhabited WaitGraph := ⟨empty⟩

def successors (edges : FinMap TxId (List TxId)) (tx : TxId) : List TxId :=
  (edges.get? tx).getD []

def setWaiting (graph : WaitGraph) (tx : TxId) (page : PageId) (blockers : List TxId) : WaitGraph :=
  { graph with
    waitingOn := graph.waitingOn.insert tx page
    edges := if blockers.isEmpty then graph.edges.erase tx else graph.edges.insert tx blockers }

def clearWaiting (graph : WaitGraph) (tx : TxId) : WaitGraph :=
  { graph with waitingOn := graph.waitingOn.erase tx, edges := graph.edges.erase tx }

/-- Forgets a finished transaction: its wait, its interrupt, and the waits for it. -/
def forget (graph : WaitGraph) (tx : TxId) : WaitGraph :=
  let cleared := graph.clearWaiting tx
  { cleared with
    interrupted := cleared.interrupted.filter fun other => other ≠ tx
    edges := (cleared.edges.mapValues fun _ blockers => blockers.filter fun other => other ≠ tx).filter
      fun _ blockers => !blockers.isEmpty }

/-- Records an interrupt of a transaction that waits or holds locks; for any other it is lost. -/
def interrupt (graph : WaitGraph) (tx : TxId) (holdsLocks : Bool) : WaitGraph :=
  if graph.waitingOn.contains tx || holdsLocks then
    { graph with
      interrupted := if tx ∈ graph.interrupted then graph.interrupted else tx :: graph.interrupted }
  else graph

def isInterrupted (graph : WaitGraph) (tx : TxId) : Bool := decide (tx ∈ graph.interrupted)

def takeInterrupt (graph : WaitGraph) (tx : TxId) : WaitGraph :=
  { graph with interrupted := graph.interrupted.filter fun other => other ≠ tx }

def isWaiting (graph : WaitGraph) (tx : TxId) : Bool := graph.waitingOn.contains tx

/-- How many edges leave transactions that a search has not come by yet. -/
def unfollowed (visited : List TxId) : List (TxId × List TxId) → Nat
  | [] => 0
  | (tx, blockers) :: rest => (if tx ∈ visited then 0 else blockers.length) + unfollowed visited rest

theorem unfollowed_cons_le (visited : List TxId) (tx : TxId) (entries : List (TxId × List TxId)) :
    unfollowed (tx :: visited) entries ≤ unfollowed visited entries := by
  induction entries with
  | nil => exact Nat.le_refl 0
  | cons entry rest ih =>
      by_cases same : entry.1 = tx
      · simp only [unfollowed, same, List.mem_cons_self, if_true]
        omega
      · simp only [unfollowed, List.mem_cons, same, false_or]
        omega

/-- A search that comes by a transaction for the first time follows its edges. -/
theorem length_successors_add_unfollowed_le (edges : FinMap TxId (List TxId)) {visited : List TxId}
    {tx : TxId} (fresh : tx ∉ visited) :
    (successors edges tx).length + unfollowed (tx :: visited) edges.entries ≤
      unfollowed visited edges.entries := by
  unfold successors FinMap.get?
  induction edges.entries with
  | nil => exact Nat.le_refl 0
  | cons entry rest ih =>
      obtain ⟨other, blockers⟩ := entry
      have later := unfollowed_cons_le visited tx rest
      by_cases same : tx = other
      · subst same
        simp only [List.lookup_cons, beq_self_eq_true, if_true, Option.getD_some, unfollowed,
          List.mem_cons_self, fresh, if_false]
        omega
      · have apart : (tx == other) = false := by simp [same]
        simp only [List.lookup_cons, apart, unfollowed, List.mem_cons, Ne.symm same, false_or]
        omega

theorem successors_eq_nil {edges : FinMap TxId (List TxId)} {tx : TxId} (absent : tx ∉ edges.keys) :
    successors edges tx = [] := by
  have missing := FinMap.get?_eq_none absent
  simp [successors, missing]

/-- Searches for `goal` from the transactions on the stack, passing by those visited before. -/
def reaches (edges : FinMap TxId (List TxId)) (goal : TxId) (visited : List TxId) :
    List TxId → Bool
  | [] => false
  | tx :: stack =>
      if tx = goal then true
      else if tx ∈ visited then reaches edges goal visited stack
      else reaches edges goal (tx :: visited) (successors edges tx ++ stack)
termination_by stack => stack.length + unfollowed visited edges.entries
decreasing_by
  · simp
  · next fresh =>
    have followed := length_successors_add_unfollowed_le edges fresh
    simp only [List.length_append, List.length_cons]
    omega

/-- Some chain of one or more edges leads from a transaction back to it. -/
def hasCycleThrough (graph : WaitGraph) (tx : TxId) : Bool :=
  reaches graph.edges tx [] (successors graph.edges tx)

end WaitGraph

end RowStore
