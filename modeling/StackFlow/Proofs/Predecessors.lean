import StackFlow.Digraph
import StackFlow.Proofs.Sequencing

/-!
How predecessors are collected. Going through the rows of successors, each entry `b` in the
row of `a` appends `a` to the list of `b` (`addSource_eq_ok`). So a row appends its number
to a list as often as the row has the list's node (`addSources_eq_ok`), and at the end the
list of `b` has for each row, in their order, its number as often as `b` is in the row
(`sources_eq_ok`). Nothing is assumed of the rows; one may list a node twice.
-/
namespace StackFlow.Digraph

/-- `b` is listed among the successors of `a`. -/
def Edge (g : Digraph) (a b : Nat) : Prop := ∃ next, g.successors a = .ok next ∧ b ∈ next

theorem edge_iff {g : Digraph} {a b : Nat} : g.Edge a b ↔ ∃ next, g.succ[a]? = some next ∧ b ∈ next := by
  unfold Edge successors
  simp only [fetch_eq_ok]

section Loop

variable {count : Nat} {pred out : Vector (List Nat) count}

/-- One entry changes one list. -/
theorem addSource_eq_ok {a b : Nat} (run : addSource a pred b = .ok out) :
    b < count ∧ ∀ c (inside : c < count), out[c] = pred[c] ++ if b = c then [a] else [] := by
  unfold addSource at run
  split at run
  · rename_i bound
    cases run
    refine ⟨bound, fun c inside => ?_⟩
    rw [Vector.getElem_set]
    split
    · rename_i here
      subst here
      rfl
    · rw [List.append_nil]
  · cases run

theorem addSources_eq_ok {row : List Nat} {a : Nat} (run : addSources pred (row, a) = .ok out) :
    (∀ b ∈ row, b < count) ∧ ∀ c (inside : c < count), out[c] = pred[c] ++ List.replicate (row.count c) a := by
  induction row generalizing pred with
  | nil =>
    cases run
    exact ⟨by simp, by simp⟩
  | cons b rest ih =>
    obtain ⟨mid, first, others⟩ := bind_eq_ok.mp run
    obtain ⟨bound, step⟩ := addSource_eq_ok first
    obtain ⟨bounds, later⟩ := ih others
    refine ⟨List.forall_mem_cons.mpr ⟨bound, bounds⟩, fun c inside => ?_⟩
    rw [later c inside, step c inside, List.count_cons]
    by_cases here : b = c
    · simp [here, List.replicate_succ]
    · simp [here]

/-- What the rows append to the list of `b`. -/
def noted (rows : List (List Nat × Nat)) (b : Nat) : List Nat :=
  rows.flatMap fun row => List.replicate (row.1.count b) row.2

theorem foldlM_addSources {rows : List (List Nat × Nat)} (run : rows.foldlM addSources pred = .ok out) :
    (∀ row ∈ rows, ∀ b ∈ row.1, b < count) ∧ ∀ c (inside : c < count), out[c] = pred[c] ++ noted rows c := by
  induction rows generalizing pred with
  | nil =>
    cases run
    exact ⟨by simp, by simp [noted]⟩
  | cons row rest ih =>
    obtain ⟨mid, first, others⟩ := bind_eq_ok.mp run
    obtain ⟨bound, step⟩ := addSources_eq_ok first
    obtain ⟨bounds, later⟩ := ih others
    refine ⟨List.forall_mem_cons.mpr ⟨bound, bounds⟩, fun c inside => ?_⟩
    rw [later c inside, step c inside, List.append_assoc]
    rfl

theorem addSource_total (pred : Vector (List Nat) count) (a : Nat) {b : Nat} (inside : b < count) :
    ∃ out, addSource a pred b = .ok out :=
  ⟨_, dif_pos inside⟩

theorem addSources_total (pred : Vector (List Nat) count) {row : List Nat} (a : Nat) (inside : ∀ b ∈ row, b < count) :
    ∃ out, addSources pred (row, a) = .ok out := by
  induction row generalizing pred with
  | nil => exact ⟨pred, rfl⟩
  | cons b rest ih =>
    obtain ⟨bound, bounds⟩ := List.forall_mem_cons.mp inside
    obtain ⟨mid, first⟩ := addSource_total pred a bound
    obtain ⟨out, others⟩ := ih mid bounds
    exact ⟨out, bind_eq_ok.mpr ⟨mid, first, others⟩⟩

theorem foldlM_addSources_total (pred : Vector (List Nat) count) {rows : List (List Nat × Nat)}
    (inside : ∀ row ∈ rows, ∀ b ∈ row.1, b < count) :
    ∃ out, rows.foldlM addSources pred = .ok out := by
  induction rows generalizing pred with
  | nil => exact ⟨pred, rfl⟩
  | cons row rest ih =>
    obtain ⟨bound, bounds⟩ := List.forall_mem_cons.mp inside
    obtain ⟨mid, first⟩ := addSources_total pred row.2 bound
    obtain ⟨out, others⟩ := ih mid bounds
    exact ⟨out, bind_eq_ok.mpr ⟨mid, first, others⟩⟩

end Loop

variable {succ : Array (List Nat)}

theorem sources_eq_ok {pred : Vector (List Nat) succ.size} (run : sources succ = .ok pred) :
    (∀ row ∈ succ.toList, ∀ b ∈ row, b < succ.size) ∧
      ∀ b (inside : b < succ.size), pred[b] = noted succ.toList.zipIdx b := by
  obtain ⟨bounds, lists⟩ := foldlM_addSources run
  refine ⟨fun row listed => ?_, fun b inside => ?_⟩
  · obtain ⟨a, at_a⟩ := List.mem_iff_getElem?.mp listed
    exact bounds (row, a) (List.mk_mem_zipIdx_iff_getElem?.mpr at_a)
  · rw [lists b inside, Vector.getElem_replicate, List.nil_append]

theorem sources_total (inside : ∀ row ∈ succ.toList, ∀ b ∈ row, b < succ.size) : ∃ pred, sources succ = .ok pred :=
  foldlM_addSources_total _ fun _ listed => inside _ (List.fst_mem_of_mem_zipIdx listed)

/-- A node is noted as often as its row lists the other. -/
theorem count_noted (rows : List (List Nat)) (start a b : Nat) :
    (noted (rows.zipIdx start) b).count a = if start ≤ a then (rows[a - start]?.getD []).count b else 0 := by
  induction rows generalizing start with
  | nil => simp [noted]
  | cons row rest ih =>
    have split : noted ((row :: rest).zipIdx start) b =
        List.replicate (row.count b) start ++ noted (rest.zipIdx (start + 1)) b := rfl
    rw [split, List.count_append, ih, List.count_replicate]
    rcases Nat.lt_trichotomy a start with before | rfl | behind
    · simp [show ¬ start ≤ a by omega, show ¬ start + 1 ≤ a by omega, show start ≠ a by omega]
    · simp [show ¬ a + 1 ≤ a by omega]
    · obtain ⟨k, rfl⟩ : ∃ k, a = start + 1 + k := ⟨a - (start + 1), by omega⟩
      simp [show start ≤ start + 1 + k by omega, show start ≠ start + 1 + k by omega,
        show start + 1 + k - start = k + 1 by omega]

variable {g : Digraph} {a b : Nat}

/-- What a graph is made of. -/
theorem ofSuccessors_eq_ok (built : ofSuccessors succ = .ok g) :
    g.succ = succ ∧ (∃ pred, sources succ = .ok pred ∧ g.pred = pred.toArray) ∧ ∀ a b, g.Edge a b → b < succ.size := by
  obtain ⟨pred, run, made⟩ := bind_eq_ok.mp built
  cases made
  refine ⟨rfl, ⟨pred, run, rfl⟩, fun a b edge => ?_⟩
  obtain ⟨next, listed, member⟩ := edge_iff.mp edge
  exact (sources_eq_ok run).1 next (Array.mem_toList_iff.mpr (Array.mem_of_getElem? listed)) b member

theorem ofSuccessors_total (inside : ∀ row ∈ succ.toList, ∀ b ∈ row, b < succ.size) :
    ∃ g, ofSuccessors succ = .ok g := by
  obtain ⟨pred, run⟩ := sources_total inside
  exact ⟨_, bind_eq_ok.mpr ⟨pred, run, rfl⟩⟩

/-- The predecessors of a node, as the loop has left them. -/
theorem predecessors_eq_ok (built : ofSuccessors succ = .ok g) {previous : List Nat} :
    g.predecessors b = .ok previous ↔ b < succ.size ∧ noted succ.toList.zipIdx b = previous := by
  obtain ⟨_, ⟨pred, run, same⟩, _⟩ := ofSuccessors_eq_ok built
  rw [predecessors, fetch_eq_ok, same, Vector.getElem?_toArray]
  constructor
  · intro found
    obtain ⟨inside, here⟩ := Vector.getElem?_eq_some_iff.mp found
    exact ⟨inside, ((sources_eq_ok run).2 b inside).symm.trans here⟩
  · rintro ⟨inside, here⟩
    exact Vector.getElem?_eq_some_iff.mpr ⟨inside, ((sources_eq_ok run).2 b inside).trans here⟩

/-- In a graph made of successors, the predecessors are the other ends of the edges. -/
theorem mem_predecessors_iff (built : ofSuccessors succ = .ok g) :
    (∃ previous, g.predecessors b = .ok previous ∧ a ∈ previous) ↔ g.Edge a b := by
  obtain ⟨same, _, inside⟩ := ofSuccessors_eq_ok built
  have member : a ∈ noted succ.toList.zipIdx b ↔ g.Edge a b := by
    rw [← List.count_pos_iff, count_noted, if_pos (Nat.zero_le a), List.count_pos_iff, edge_iff, same, Nat.sub_zero,
      Array.getElem?_toList]
    cases succ[a]? <;> simp
  simp only [predecessors_eq_ok built]
  constructor
  · rintro ⟨previous, ⟨_, rfl⟩, listed⟩
    exact member.mp listed
  · intro edge
    exact ⟨_, ⟨inside a b edge, rfl⟩, member.mpr edge⟩

end StackFlow.Digraph
