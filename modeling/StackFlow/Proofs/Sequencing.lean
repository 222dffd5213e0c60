import StackFlow.BitSet.Lemmas

/-!
Lists of computations that all succeed. A list of results is the list of values it
holds (`mapM_eq_ok`), a filter with a test that may fail keeps what passes the test
(`mem_of_filterM`), and a bit set made of a list of numbers has just these numbers.
-/
namespace StackFlow

variable {α β : Type}

theorem mapM_eq_ok {xs : List α} {f : α → Result β} {ys : List β} :
    xs.mapM f = .ok ys ↔ xs.map f = ys.map .ok := by
  induction xs generalizing ys with
  | nil => cases ys <;> simp [pure, Except.pure]
  | cons x rest ih =>
    rw [List.mapM_cons, bind_eq_ok, List.map_cons]
    constructor
    · rintro ⟨y, first, run⟩
      obtain ⟨tail, others, run⟩ := bind_eq_ok.mp run
      cases run
      rw [List.map_cons, first, ih.mp others]
    · intro same
      cases ys with
      | nil => cases same
      | cons y tail =>
        obtain ⟨first, others⟩ := List.cons.inj same
        exact ⟨y, first, bind_eq_ok.mpr ⟨tail, ih.mpr others, rfl⟩⟩

theorem exists_mapM {xs : List α} {f : α → Result β} (each : ∀ x ∈ xs, ∃ y, f x = .ok y) :
    ∃ ys, xs.mapM f = .ok ys := by
  induction xs with
  | nil => exact ⟨[], rfl⟩
  | cons x rest ih =>
    obtain ⟨y, first⟩ := each x (by simp)
    obtain ⟨ys, others⟩ := ih fun x member => each x (by simp [member])
    refine ⟨y :: ys, mapM_eq_ok.mpr ?_⟩
    rw [List.map_cons, List.map_cons, first, mapM_eq_ok.mp others]

theorem length_of_mapM {xs : List α} {f : α → Result β} {ys : List β} (run : xs.mapM f = .ok ys) :
    ys.length = xs.length := by
  have lengths := congrArg List.length (mapM_eq_ok.mp run)
  rw [List.length_map, List.length_map] at lengths
  exact lengths.symm

/-- The entry at a place of a list of results is the result at that place. -/
theorem getElem?_of_mapM {xs : List α} {f : α → Result β} {ys : List β} (run : xs.mapM f = .ok ys) {i : Nat} {y : β} :
    ys[i]? = some y ↔ ∃ x, xs[i]? = some x ∧ f x = .ok y := by
  have entries := congrArg (·[i]?) (mapM_eq_ok.mp run)
  simp only [List.getElem?_map] at entries
  constructor
  · intro found
    rw [found] at entries
    obtain ⟨x, at_i, result⟩ := Option.map_eq_some_iff.mp entries
    exact ⟨x, at_i, result⟩
  · rintro ⟨x, at_i, result⟩
    rw [at_i, Option.map_some, result] at entries
    obtain ⟨z, found, same⟩ := Option.map_eq_some_iff.mp entries.symm
    cases same
    exact found

theorem entry_of_mapM {xs : List α} {f : α → Result β} {ys : List β} (run : xs.mapM f = .ok ys) {i : Nat} {x : α}
    (at_i : xs[i]? = some x) : ∃ y, ys[i]? = some y ∧ f x = .ok y := by
  obtain ⟨bound, _⟩ := List.getElem?_eq_some_iff.mp at_i
  have inside : i < ys.length := length_of_mapM run ▸ bound
  have found : ys[i]? = some ys[i] := List.getElem?_eq_getElem inside
  obtain ⟨x', at_i', result⟩ := (getElem?_of_mapM run).mp found
  cases at_i.symm.trans at_i'
  exact ⟨_, found, result⟩

theorem mem_of_mapM {xs : List α} {f : α → Result β} {ys : List β} (run : xs.mapM f = .ok ys) {y : β} :
    y ∈ ys ↔ ∃ x ∈ xs, f x = .ok y := by
  have entries := mapM_eq_ok.mp run
  have listed : y ∈ ys ↔ (.ok y : Result β) ∈ ys.map .ok := by simp
  rw [listed, ← entries, List.mem_map]

theorem mapM_congr {xs : List α} {f g : α → Result β} (same : ∀ x ∈ xs, f x = g x) :
    xs.mapM f = xs.mapM g := by
  induction xs with
  | nil => rfl
  | cons x rest ih =>
    rw [List.mapM_cons, List.mapM_cons, same x (by simp), ih fun x member => same x (by simp [member])]

/-- Computations with the same results agree on each element. -/
theorem agree_of_mapM {xs : List α} {f g : α → Result β} {ys : List β} (left : xs.mapM f = .ok ys)
    (right : xs.mapM g = .ok ys) {x : α} (member : x ∈ xs) : ∃ y, f x = .ok y ∧ g x = .ok y := by
  have same := List.map_inj_left.mp ((mapM_eq_ok.mp left).trans (mapM_eq_ok.mp right).symm) x member
  have listed : f x ∈ ys.map .ok := mapM_eq_ok.mp left ▸ List.mem_map_of_mem member
  obtain ⟨y, _, made⟩ := List.mem_map.mp listed
  exact ⟨y, made.symm, same ▸ made.symm⟩

theorem mem_of_filterAuxM {xs : List α} {test : α → Result Bool} {acc ys : List α}
    (run : xs.filterAuxM test acc = .ok ys) {x : α} : x ∈ ys ↔ x ∈ acc ∨ x ∈ xs ∧ test x = .ok true := by
  induction xs generalizing acc with
  | nil =>
    cases run
    simp
  | cons head rest ih =>
    obtain ⟨passed, tested, run⟩ := bind_eq_ok.mp run
    rw [ih run, List.mem_cons]
    cases passed with
    | true =>
      rw [cond_true, List.mem_cons]
      constructor
      · rintro ((rfl | old) | ⟨later, passes⟩)
        · exact .inr ⟨.inl rfl, tested⟩
        · exact .inl old
        · exact .inr ⟨.inr later, passes⟩
      · rintro (old | ⟨rfl | later, passes⟩)
        · exact .inl (.inr old)
        · exact .inl (.inl rfl)
        · exact .inr ⟨later, passes⟩
    | false =>
      rw [cond_false]
      constructor
      · rintro (old | ⟨later, passes⟩)
        · exact .inl old
        · exact .inr ⟨.inr later, passes⟩
      · rintro (old | ⟨rfl | later, passes⟩)
        · exact .inl old
        · cases tested.symm.trans passes
        · exact .inr ⟨later, passes⟩

theorem mem_of_filterM {xs : List α} {test : α → Result Bool} {ys : List α} (run : xs.filterM test = .ok ys) {x : α} :
    x ∈ ys ↔ x ∈ xs ∧ test x = .ok true := by
  obtain ⟨kept, filtered, same⟩ := bind_eq_ok.mp run
  cases same
  rw [List.mem_reverse, mem_of_filterAuxM filtered]
  simp

theorem exists_filterM {xs : List α} {test : α → Result Bool} (each : ∀ x ∈ xs, ∃ passed, test x = .ok passed) :
    ∃ ys, xs.filterM test = .ok ys := by
  have kept : ∀ acc, ∃ ys, xs.filterAuxM test acc = .ok ys := by
    induction xs with
    | nil => exact fun acc => ⟨acc, rfl⟩
    | cons x rest ih =>
      intro acc
      obtain ⟨passed, tested⟩ := each x (by simp)
      obtain ⟨ys, others⟩ := ih (fun x member => each x (by simp [member])) (cond passed (x :: acc) acc)
      exact ⟨ys, bind_eq_ok.mpr ⟨passed, tested, others⟩⟩
  obtain ⟨ys, run⟩ := kept []
  exact ⟨ys.reverse, bind_eq_ok.mpr ⟨ys, run, rfl⟩⟩

/-- A filter whose test never fails is an ordinary filter. -/
theorem filterM_of_total {xs : List α} {test : α → Result Bool} {p : α → Bool}
    (each : ∀ x ∈ xs, test x = .ok (p x)) : xs.filterM test = .ok (xs.filter p) := by
  have kept : ∀ acc, xs.filterAuxM test acc = .ok ((xs.filter p).reverse ++ acc) := by
    induction xs with
    | nil => exact fun acc => rfl
    | cons x rest ih =>
      intro acc
      refine bind_eq_ok.mpr ⟨p x, each x (by simp), ?_⟩
      rw [ih fun y member => each y (by simp [member])]
      cases passed : p x <;> simp [passed]
  refine bind_eq_ok.mpr ⟨_, kept [], ?_⟩
  simp [pure, Except.pure]

/-- Where a key has one value only, that is the value found. -/
theorem lookup_eq_some_of_unique {entries : List (Nat × β)} {k : Nat}
    (unique : ∀ x y, (k, x) ∈ entries → (k, y) ∈ entries → x = y) {x : β} :
    entries.lookup k = some x ↔ (k, x) ∈ entries := by
  have member : ∀ y, entries.lookup k = some y → (k, y) ∈ entries := by
    intro y found
    obtain ⟨front, rest, rfl, _⟩ := List.lookup_eq_some_iff.mp found
    simp
  refine ⟨member x, fun listed => ?_⟩
  cases found : entries.lookup k with
  | none => exact absurd (List.lookup_eq_none_iff.mp found (k, x) listed) (by simp)
  | some y => rw [unique y x (member y found) listed]

namespace BitSet

/-- Adding numbers below the capacity one after the other. -/
theorem foldlM_insert {s : BitSet} {indices : List Nat} (inside : ∀ i ∈ indices, i < s.capacity) :
    ∃ t, indices.foldlM (fun s i => do return (← s.insert i).1) s = (.ok t : Result BitSet) ∧
      t.capacity = s.capacity ∧ ∀ j, t.contains j = true ↔ s.contains j = true ∨ j ∈ indices := by
  induction indices generalizing s with
  | nil => exact ⟨s, rfl, rfl, by simp⟩
  | cons i rest ih =>
    have first : i < s.capacity := inside i (by simp)
    obtain ⟨t, run, capacity, members⟩ := ih (s := s.put i first) fun j member => inside j (by simp [member])
    refine ⟨t, ?_, capacity, fun j => ?_⟩
    · rw [List.foldlM_cons, insert_of_lt first]
      exact run
    · rw [members, contains_put, Bool.or_eq_true, decide_eq_true_eq, List.mem_cons, or_assoc, @eq_comm _ i j]

theorem ofIndices_of_lt {capacity : Nat} {indices : List Nat} (inside : ∀ i ∈ indices, i < capacity) :
    ∃ s, ofIndices capacity indices = .ok s ∧ s.capacity = capacity ∧ ∀ j, s.contains j = true ↔ j ∈ indices := by
  obtain ⟨s, run, size, members⟩ := foldlM_insert (s := empty capacity) inside
  refine ⟨s, run, size, fun j => ?_⟩
  rw [members, contains_empty]
  simp

/-- A difference is only taken of sets of one capacity. -/
theorem difference_eq_ok {s t : BitSet} {out : BitSet × Bool} (run : s.difference t = .ok out) :
    s.capacity = t.capacity ∧ out.1.capacity = s.capacity ∧
      ∀ i, out.1.contains i = true ↔ s.contains i = true ∧ ¬ t.contains i = true := by
  by_cases same : s.capacity = t.capacity
  · have reduced := difference_of_eq same
    cases reduced.symm.trans run
    refine ⟨same, rfl, fun i => ?_⟩
    rw [contains_minus, Bool.and_eq_true, Bool.not_eq_true', ← Bool.not_eq_true]
  · simp [difference, same, abort] at run

/-- Joining sets of one capacity one after the other. -/
theorem foldlM_union {s : BitSet} {sets : List BitSet} (same : ∀ t ∈ sets, t.capacity = s.capacity) :
    ∃ out, sets.foldlM (fun s t => do return (← s.union t).1) s = (.ok out : Result BitSet) ∧
      out.capacity = s.capacity ∧ ∀ j, out.contains j = true ↔ s.contains j = true ∨ ∃ t ∈ sets, t.contains j = true := by
  induction sets generalizing s with
  | nil => exact ⟨s, rfl, rfl, by simp⟩
  | cons t rest ih =>
    have first : s.capacity = t.capacity := (same t (by simp)).symm
    have joined := union_of_eq first
    obtain ⟨out, run, capacity, members⟩ := ih (s := s.join t first) fun t member => same t (by simp [member])
    refine ⟨out, ?_, capacity, fun j => ?_⟩
    · rw [List.foldlM_cons, joined]
      exact run
    · rw [members, contains_join, Bool.or_eq_true, or_assoc]
      simp

end BitSet

end StackFlow
