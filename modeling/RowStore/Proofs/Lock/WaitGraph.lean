import Mathlib.Data.List.Chain
import RowStore.Proofs.Lock.Search

namespace RowStore.WaitGraph

/-! What the operations do to the edges, and paths along edges that close no cycle. -/

open Relation

variable {edges : FinMap TxId (List TxId)} {tx other : TxId}
variable {graph : WaitGraph} {page : PageId} {blockers : List TxId}

/-! ## What the operations do to the edges -/

@[simp] theorem successors_clearWaiting :
    successors (graph.clearWaiting tx).edges other =
      if other = tx then [] else successors graph.edges other := by
  simp only [successors, clearWaiting, FinMap.get?_erase]
  split <;> rfl

@[simp] theorem successors_setWaiting :
    successors (graph.setWaiting tx page blockers).edges other =
      if other = tx then blockers else successors graph.edges other := by
  unfold successors setWaiting
  cases blockers with
  | nil =>
      simp only [List.isEmpty_nil, if_true, FinMap.get?_erase]
      split <;> rfl
  | cons first rest =>
      simp only [List.isEmpty_cons, Bool.false_eq_true, if_false, FinMap.get?_insert]
      split <;> rfl

@[simp] theorem successors_forget :
    successors (graph.forget tx).edges other =
      if other = tx then [] else (successors graph.edges other).filter (· ≠ tx) := by
  simp only [successors, forget, clearWaiting, FinMap.get?_filter, FinMap.get?_mapValues,
    FinMap.get?_erase]
  split
  · rfl
  · cases graph.edges.get? other with
    | none => rfl
    | some recorded =>
        rw [Option.map_some, Option.getD_some]
        generalize recorded.filter (fun other => decide (other ≠ tx)) = left
        cases left <;> rfl

@[simp] theorem interrupt_edges {holdsLocks : Bool} :
    (graph.interrupt tx holdsLocks).edges = graph.edges := by
  unfold interrupt
  split <;> rfl

def Acyclic (edges : FinMap TxId (List TxId)) : Prop := ∀ tx, ¬ TransGen (Edge edges) tx tx

theorem Acyclic.mono {fewer : FinMap TxId (List TxId)} (acyclic : Acyclic edges)
    (subset : ∀ tx other, Edge fewer tx other → Edge edges tx other) : Acyclic fewer :=
  fun tx cycle => acyclic tx (TransGen.mono subset tx tx cycle)

/-- A path either uses none of the edges that changed, or comes by the transaction that they start
from. -/
theorem transGen_or_through {changed : FinMap TxId (List TxId)}
    (same : ∀ other, other ≠ tx → successors changed other = successors edges other)
    {first last : TxId} (path : TransGen (Edge changed) first last) :
    TransGen (Edge edges) first last ∨
      ReflTransGen (Edge changed) first tx ∧ TransGen (Edge changed) tx last := by
  have old : ∀ {first next}, Edge changed first next → first ≠ tx → Edge edges first next := by
    intro first next edge differs
    unfold Edge at edge ⊢
    rwa [same first differs] at edge
  induction path using TransGen.head_induction_on with
  | @single first edge =>
      by_cases here : first = tx
      · subst here
        exact Or.inr ⟨.refl, .single edge⟩
      · exact Or.inl (.single (old edge here))
  | @head first next edge path ih =>
      by_cases here : first = tx
      · subst here
        exact Or.inr ⟨.refl, .head edge path⟩
      · rcases ih with earlier | ⟨reach, leave⟩
        · exact Or.inl (.head (old edge here) earlier)
        · exact Or.inr ⟨.head edge reach, leave⟩

/-- The edges that leave a transaction do not matter to the paths that end there. -/
theorem reflTransGen_to_of_same {changed : FinMap TxId (List TxId)}
    (same : ∀ other, other ≠ tx → successors changed other = successors edges other) {first : TxId}
    (path : ReflTransGen (Edge changed) first tx) : ReflTransGen (Edge edges) first tx := by
  induction path using ReflTransGen.head_induction_on with
  | refl => exact .refl
  | @head first next edge _ ih =>
      by_cases here : first = tx
      · exact here ▸ .refl
      · rw [Edge, same first here] at edge
        exact .head edge ih

/-- New edges from one transaction close a cycle only through it. -/
theorem Acyclic.replace {changed : FinMap TxId (List TxId)} (acyclic : Acyclic edges)
    (same : ∀ other, other ≠ tx → successors changed other = successors edges other)
    (unclosed : ¬ TransGen (Edge changed) tx tx) : Acyclic changed := by
  intro other cycle
  rcases transGen_or_through same cycle with old | ⟨reach, leave⟩
  · exact acyclic other old
  · exact unclosed (leave.trans_left reach)

/-- Along edges that close no cycle, a search that goes on from everyone who waits ends at somebody
who does not. The visited transactions lead to the one at hand, so each step has fewer left. -/
theorem Acyclic.exists_chain (acyclic : Acyclic edges) {waits : TxId → Prop}
    (leaves : ∀ tx, waits tx → successors edges tx ≠ []) (tx : TxId) (visited : List TxId)
    (behind : ∀ earlier ∈ visited, TransGen (Edge edges) earlier tx) :
    ∃ chain : List TxId, chain.head? = some tx ∧
      chain.IsChain (fun first next => waits first ∧ Edge edges first next) ∧
      ∃ last, chain.getLast? = some last ∧ ¬ waits last := by
  by_cases blocked : waits tx
  · obtain ⟨next, edge⟩ := List.exists_mem_of_ne_nil _ (leaves tx blocked)
    have fresh : tx ∉ visited := fun seen => acyclic tx (behind tx seen)
    have followed := length_successors_add_unfollowed_le edges fresh
    have leaving : 0 < (successors edges tx).length := List.length_pos_of_mem edge
    obtain ⟨chain, starts, linked, last, ends, idle⟩ := acyclic.exists_chain leaves next (tx :: visited) (by
      intro earlier member
      rcases List.mem_cons.mp member with rfl | seen
      · exact .single edge
      · exact (behind earlier seen).tail edge)
    refine ⟨tx :: chain, rfl, List.isChain_cons.mpr ⟨?_, linked⟩, last, ?_, idle⟩
    · intro second head
      obtain rfl : next = second := Option.some.inj (starts.symm.trans head)
      exact ⟨blocked, edge⟩
    · rw [List.getLast?_cons, ends, Option.getD_some]
  · exact ⟨[tx], rfl, .singleton tx, tx, rfl, blocked⟩
termination_by unfollowed visited edges.entries

/-- A chain along edges that close no cycle comes by nobody twice. -/
theorem Acyclic.nodup_of_isChain (acyclic : Acyclic edges) {chain : List TxId}
    (linked : chain.IsChain (Edge edges)) : chain.Nodup := by
  have ordered : chain.Pairwise (TransGen (Edge edges)) :=
    List.isChain_iff_pairwise.mp (linked.imp fun _ _ edge => .single edge)
  refine ordered.imp ?_
  rintro tx _ cycle rfl
  exact acyclic tx cycle

end RowStore.WaitGraph
