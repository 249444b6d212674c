import Mathlib.Algebra.BigOperators.Group.Finset.Basic
import Mathlib.Logic.Relation
import RowStore.Lock.WaitGraph

namespace RowStore.WaitGraph

/-! The search for a cycle.

A search looks at transactions one by one, and puts those whom one of them waits for
before those that it has still to look at, in any order. No edge is followed twice, so
it comes to an end. A search that fails has come by a set of transactions that no edge
leaves, and the goal is not one of them.
-/

variable {edges : FinMap TxId (List TxId)} {goal tx other : TxId} {visited stack : List TxId}

def Edge (edges : FinMap TxId (List TxId)) (tx other : TxId) : Prop := other ∈ successors edges tx

open Relation

theorem not_reflTransGen_of_closed (closed : ∀ tx ∈ visited, ∀ other ∈ successors edges tx, other ∈ visited)
    (missed : goal ∉ visited) (member : tx ∈ visited) : ¬ ReflTransGen (Edge edges) tx goal := by
  intro path
  induction path using ReflTransGen.head_induction_on with
  | refl => exact missed member
  | head edge _ ih => exact ih (closed _ member _ edge)

theorem mem_or_of_visited (seen : tx ∈ visited) (found : other ∈ visited ∨ other ∈ tx :: stack) :
    other ∈ visited ∨ other ∈ stack := by
  rcases found with inside | waiting
  · exact Or.inl inside
  · rcases List.mem_cons.mp waiting with rfl | waiting
    · exact Or.inl seen
    · exact Or.inr waiting

theorem mem_or_of_expanded (more : List TxId) (found : other ∈ visited ∨ other ∈ tx :: stack) :
    other ∈ tx :: visited ∨ other ∈ more ++ stack := by
  rcases found with inside | waiting
  · exact Or.inl (List.mem_cons_of_mem _ inside)
  · rcases List.mem_cons.mp waiting with rfl | waiting
    · exact Or.inl List.mem_cons_self
    · exact Or.inr (List.mem_append_right _ waiting)

/-! ## Searches in any order -/

/-- Whom a search has come by, and whom it has still to look at, the next one first. -/
structure Search where
  visited : List TxId
  stack : List TxId

namespace Search

variable {search next : Search} {count : Nat} {found : Bool}

/-- What a search has found, if it is over. -/
def answer? (goal : TxId) (search : Search) : Option Bool :=
  match search.stack with
  | [] => some false
  | tx :: _ => if tx = goal then some true else none

inductive Step (edges : FinMap TxId (List TxId)) (goal : TxId) : Search → Search → Prop where
  | pass {tx : TxId} {visited stack : List TxId} (differs : tx ≠ goal) (seen : tx ∈ visited) :
      Step edges goal ⟨visited, tx :: stack⟩ ⟨visited, stack⟩
  | expand {tx : TxId} {visited stack : List TxId} (differs : tx ≠ goal) (fresh : tx ∉ visited)
      (order : List TxId) (listed : order.Perm (successors edges tx)) :
      Step edges goal ⟨visited, tx :: stack⟩ ⟨tx :: visited, order ++ stack⟩

/-- The searches from a transaction back to it, after so many steps. -/
inductive Run (edges : FinMap TxId (List TxId)) (goal : TxId) : Nat → Search → Prop where
  | start (order : List TxId) (listed : order.Perm (successors edges goal)) : Run edges goal 0 ⟨[], order⟩
  | step {count : Nat} {search next : Search} (before : Run edges goal count search)
      (step : Step edges goal search next) : Run edges goal (count + 1) next

/-- A search goes on just as long as it has no answer. -/
theorem answer?_eq_none_iff : search.answer? goal = none ↔ ∃ next, Step edges goal search next := by
  constructor
  · intro unanswered
    obtain ⟨visited, stack⟩ := search
    cases stack with
    | nil => contradiction
    | cons tx stack =>
        have differs : tx ≠ goal := by
          rintro rfl
          simp [answer?] at unanswered
        by_cases seen : tx ∈ visited
        · exact ⟨_, .pass differs seen⟩
        · exact ⟨_, .expand differs seen _ (.refl _)⟩
  · rintro ⟨next, step⟩
    cases step with
    | pass differs _ => exact if_neg differs
    | expand differs _ _ _ => exact if_neg differs

/-! ## A search ends -/

/-- The edges that start from transactions other than these. -/
def outgoing (edges : FinMap TxId (List TxId)) (seen : Finset TxId) : Nat :=
  ∑ tx ∈ edges.keys.toFinset \ seen, (successors edges tx).length

def edgeCount (edges : FinMap TxId (List TxId)) : Nat :=
  ∑ tx ∈ edges.keys.toFinset, (successors edges tx).length

theorem outgoing_insert {seen : Finset TxId} (fresh : tx ∉ seen) :
    (successors edges tx).length + outgoing edges (insert tx seen) = outgoing edges seen := by
  rw [outgoing, outgoing, Finset.sdiff_insert]
  by_cases listed : tx ∈ edges.keys
  · exact Finset.add_sum_erase _ (fun tx => (successors edges tx).length) (by simp [listed, fresh])
  · rw [successors_eq_nil listed, Finset.erase_eq_of_notMem (by simp [listed]), List.length_nil, Nat.zero_add]

/-- The transactions on the stack, and the edges that the search can still come to follow. -/
def work (edges : FinMap TxId (List TxId)) (goal : TxId) (search : Search) : Nat :=
  search.stack.length + outgoing edges (insert goal search.visited.toFinset)

theorem Step.work (step : Step edges goal search next) :
    next.work edges goal + 1 = search.work edges goal := by
  cases step with
  | pass differs seen =>
      simp only [Search.work, List.length_cons]
      omega
  | @expand tx visited stack differs fresh order listed =>
      have followed := @outgoing_insert edges tx (insert goal visited.toFinset) (by simp [differs, fresh])
      have same := listed.length_eq
      simp only [Search.work, List.toFinset_cons, Finset.insert_comm goal tx, List.length_append,
        List.length_cons]
      omega

theorem Run.work (run : Run edges goal count search) :
    count + search.work edges goal = edgeCount edges := by
  induction run with
  | start order listed =>
      have followed := @outgoing_insert edges goal ∅ (by simp)
      have same := listed.length_eq
      have all : outgoing edges ∅ = edgeCount edges := by rw [outgoing, Finset.sdiff_empty, edgeCount]
      simp only [Search.work, List.toFinset_nil]
      omega
  | step _ step ih =>
      have spent := step.work
      omega

/-! ## What it finds -/

/-- Whom the search will look at is on a path from the goal, and edges from whom it came by lead to
somebody it came by or will look at. -/
structure Sound (edges : FinMap TxId (List TxId)) (goal : TxId) (search : Search) : Prop where
  missed : goal ∉ search.visited
  ahead : ∀ tx ∈ search.stack, TransGen (Edge edges) goal tx
  closed : ∀ tx, tx = goal ∨ tx ∈ search.visited → ∀ other, Edge edges tx other →
    other ∈ search.visited ∨ other ∈ search.stack

theorem Sound.step (sound : Sound edges goal search) (step : Step edges goal search next) :
    Sound edges goal next := by
  obtain ⟨missed, ahead, closed⟩ := sound
  cases step with
  | pass differs seen =>
      refine ⟨missed, fun tx waiting => ahead tx (List.mem_cons_of_mem _ waiting), ?_⟩
      intro first source other edge
      exact mem_or_of_visited seen (closed first source other edge)
  | @expand tx visited stack differs fresh order listed =>
      refine ⟨?_, ?_, ?_⟩
      · simpa using ⟨fun equal => differs equal.symm, missed⟩
      · intro other waiting
        rcases List.mem_append.mp waiting with next | waiting
        · exact (ahead tx List.mem_cons_self).tail (listed.mem_iff.mp next)
        · exact ahead other (List.mem_cons_of_mem _ waiting)
      · intro first source other edge
        by_cases here : first = tx
        · rw [here] at edge
          exact Or.inr (List.mem_append_left _ (listed.mem_iff.mpr edge))
        · have before : first = goal ∨ first ∈ visited := source.imp_right (List.mem_of_ne_of_mem here)
          exact mem_or_of_expanded _ (closed first before other edge)

theorem Run.sound (run : Run edges goal count search) : Sound edges goal search := by
  induction run with
  | start order listed =>
      refine ⟨List.not_mem_nil, fun tx waiting => .single (listed.mem_iff.mp waiting), ?_⟩
      intro first source other edge
      rcases source with rfl | seen
      · exact Or.inr (listed.mem_iff.mpr edge)
      · contradiction
  | step _ step ih => exact ih.step step

theorem Sound.answer (sound : Sound edges goal search) (ended : search.answer? goal = some found) :
    found = true ↔ TransGen (Edge edges) goal goal := by
  obtain ⟨visited, stack⟩ := search
  obtain ⟨missed, ahead, closed⟩ := sound
  cases stack with
  | nil =>
      have inside : ∀ tx, tx = goal ∨ tx ∈ visited → ∀ other, Edge edges tx other → other ∈ visited := by
        simpa using closed
      have uncycled : ¬ TransGen (Edge edges) goal goal := by
        intro cycle
        obtain ⟨first, edge, path⟩ := TransGen.head'_iff.mp cycle
        exact not_reflTransGen_of_closed (fun tx seen => inside tx (Or.inr seen)) missed
          (inside goal (Or.inl rfl) first edge) path
      cases ended
      simp [uncycled]
  | cons tx stack =>
      by_cases here : tx = goal
      · have cycle := ahead tx List.mem_cons_self
        rw [here] at cycle
        simp only [answer?, if_pos here, Option.some.injEq] at ended
        simp [← ended, cycle]
      · simp [answer?, here] at ended

/-- The search that takes everybody in the order of the record is one of them. -/
theorem Run.exists_answer (run : Run edges goal count ⟨visited, stack⟩) :
    ∃ count search, Run edges goal count search ∧
      search.answer? goal = some (reaches edges goal visited stack) := by
  fun_induction reaches edges goal visited stack generalizing count with
  | case1 visited => exact ⟨count, _, run, rfl⟩
  | case2 visited stack => exact ⟨count, _, run, if_pos rfl⟩
  | case3 visited tx stack differs seen ih => exact ih (run.step (.pass differs seen))
  | case4 visited tx stack differs fresh ih => exact ih (run.step (.expand differs fresh _ (.refl _)))

end Search

variable {graph : WaitGraph}

theorem exists_search (graph : WaitGraph) (tx : TxId) :
    ∃ count search, Search.Run graph.edges tx count search ∧
      search.answer? tx = some (graph.hasCycleThrough tx) :=
  (Search.Run.start _ (.refl _)).exists_answer

/-- The search finds a cycle exactly when edges lead from the transaction back to it. -/
theorem hasCycleThrough_iff_transGen :
    graph.hasCycleThrough tx = true ↔ TransGen (Edge graph.edges) tx tx := by
  obtain ⟨count, search, run, ended⟩ := exists_search graph tx
  exact run.sound.answer ended

theorem hasCycleThrough_congr {similar : WaitGraph}
    (same : ∀ first next, Edge similar.edges first next ↔ Edge graph.edges first next) (tx : TxId) :
    similar.hasCycleThrough tx = graph.hasCycleThrough tx := by
  have edges : Edge similar.edges = Edge graph.edges := by
    funext first next
    exact propext (same first next)
  rw [Bool.eq_iff_iff, hasCycleThrough_iff_transGen, hasCycleThrough_iff_transGen, edges]

/-- What the searches for a cycle through a transaction come to, whatever the order in which they
take those whom somebody waits for. -/
structure CycleSearch (graph : WaitGraph) (tx : TxId) : Prop where
  ends : ∀ count search, Search.Run graph.edges tx count search → count ≤ Search.edgeCount graph.edges
  goesOn : ∀ search, search.answer? tx = none ↔ ∃ next, Search.Step graph.edges tx search next
  exact : ∀ count search found, Search.Run graph.edges tx count search →
    search.answer? tx = some found → (found = true ↔ TransGen (Edge graph.edges) tx tx)
  /-- The answer that is given is that of one of them. -/
  given : ∃ count search, Search.Run graph.edges tx count search ∧
    search.answer? tx = some (graph.hasCycleThrough tx)
  found : graph.hasCycleThrough tx = true ↔ TransGen (Edge graph.edges) tx tx
  /-- It depends on who waits for whom only, not on how this is recorded. -/
  unordered : ∀ similar : WaitGraph,
    (∀ first next, Edge similar.edges first next ↔ Edge graph.edges first next) →
      similar.hasCycleThrough tx = graph.hasCycleThrough tx

/-- A search for a cycle ends, and finds one just if there is one. -/
theorem cycleSearch_of_edges (graph : WaitGraph) (tx : TxId) : CycleSearch graph tx where
  ends := fun count search run => by
    have spent := run.work
    omega
  goesOn := fun _ => Search.answer?_eq_none_iff
  exact := fun _ _ _ run ended => run.sound.answer ended
  given := exists_search graph tx
  found := hasCycleThrough_iff_transGen
  unordered := fun _ same => hasCycleThrough_congr same tx

/-- A wait that leads to a cycle is not on it; who waits for itself is. -/
example :
    let graph : WaitGraph := ⟨⟨[(⟨1⟩, [⟨2⟩, ⟨3⟩]), (⟨2⟩, [⟨2⟩])], by decide⟩, .empty, []⟩
    graph.hasCycleThrough ⟨1⟩ = false ∧ graph.hasCycleThrough ⟨2⟩ = true := by
  constructor <;> decide +kernel

end RowStore.WaitGraph
