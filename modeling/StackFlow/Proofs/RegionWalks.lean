import Mathlib.Logic.Relation
import StackFlow.Proofs.RoutineEdges
import StackFlow.Regions

/-!
What one walk claims. A walk stays inside of a region (`Intra`): it goes on behind a
subroutine call and does not follow returns. As long as whatever comes after a claimed
instruction is claimed or waits on the stack (`Closed`), stopping at claimed
instructions loses nothing, and a walk claims all that is unclaimed and reached
(`findRegion_total`).
-/
namespace StackFlow.Regions

open Routine

/-- Control stays in the region: behind a subroutine call comes its return point, a
    return from a subroutine leads to its handlers only, and all else follows the graph. -/
def Intra (r : Routine) (i j : Nat) : Prop :=
  match r.code[i]? with
  | some (.jsr _) => j = i + 1 ∨ r.Passes i .exceptional j
  | some (.ret _) => r.Passes i .exceptional j
  | _ => r.flow.Edge i j

def Reaches (r : Routine) : Nat → Nat → Prop := Relation.ReflTransGen (Intra r)

/-- The instruction belongs to some region. -/
def Claimed (tags : Array (Option Nat)) (i : Nat) : Prop := ∃ id, tags[i]? = some (some id)

def Closed (r : Routine) (stack : List Nat) (tags : Array (Option Nat)) : Prop :=
  ∀ i, Claimed tags i → ∀ j, Intra r i j → j ∈ stack ∨ Claimed tags j

/-- The subroutine call at an index of the code, if there is one. -/
def callsAt (r : Routine) (i : Nat) : List Call :=
  match r.code[i]? with
  | some instr => callsOf i instr
  | none => []

variable {r : Routine}

theorem mem_callsAt {i : Nat} {call : Call} :
    call ∈ callsAt r i ↔ call.site = i ∧ r.code[i]? = some (.jsr call.target) := by
  unfold callsAt
  cases r.code[i]? with
  | none => simp
  | some instr =>
    cases instr <;> simp [callsOf]
    obtain ⟨site, target⟩ := call
    simp [eq_comm]

theorem mem_newCalls {new : List Nat} {call : Call} :
    call ∈ new.flatMap (callsAt r) ↔ call.site ∈ new ∧ r.code[call.site]? = some (.jsr call.target) := by
  rw [List.mem_flatMap]
  constructor
  · rintro ⟨i, member, listed⟩
    obtain ⟨rfl, jsr⟩ := mem_callsAt.mp listed
    exact ⟨member, jsr⟩
  · rintro ⟨member, jsr⟩
    exact ⟨call.site, member, mem_callsAt.mpr ⟨rfl, jsr⟩⟩

theorem not_claimed {tags : Array (Option Nat)} {i : Nat} (free : tags[i]? = some none) : ¬ Claimed tags i := by
  rintro ⟨id, tagged⟩
  cases free.symm.trans tagged

theorem not_claimed_untagged (r : Routine) (i : Nat) : ¬ Claimed (untagged r) i := by
  rintro ⟨id, tagged⟩
  rw [untagged, Array.getElem?_replicate] at tagged
  split at tagged <;> cases tagged

theorem closed_untagged (r : Routine) : Closed r [] (untagged r) :=
  fun i claimed => absurd claimed (not_claimed_untagged r i)

theorem lt_of_intra (built : r.Built) {i j : Nat} (inner : Intra r i j) : j < r.size := by
  unfold Intra at inner
  split at inner
  · rename_i target listed
    rcases inner with rfl | pass
    · exact built.next i _ listed rfl
    · exact built.lt_of_passes pass
  · exact built.lt_of_passes inner
  · exact built.lt_of_edge inner

/-- A walk goes on to just those instructions to which control stays in the region. -/
theorem follow_total (built : r.Built) {i : Nat} (inside : i < r.size) :
    ∃ next, follow r i = .ok (next, callsAt r i) ∧ ∀ j, j ∈ next ↔ Intra r i j := by
  have listed : r.code[i]? = some r.code[i] := Array.getElem?_eq_getElem inside
  refine ⟨localTargets i r.code[i] ++ handlersAt r.ranges i, ?_, fun j => ?_⟩
  · refine bind_eq_ok.mpr ⟨r.code[i], fetch_eq_ok.mpr listed, ?_⟩
    refine bind_eq_ok.mpr ⟨_, built.exceptionSuccessors_of_getElem? listed, ?_⟩
    simp [callsAt, listed, pure, Except.pure]
  · have edge : r.flow.Edge i j ↔
        j ∈ normalTargets (returnPoints r.code) i r.code[i] ∨ j ∈ handlersAt r.ranges i := by
      rw [built.edge_iff, ← built.passes_normal listed, ← built.passes_exceptional listed]
      constructor
      · rintro ⟨_ | _, pass⟩
        · exact .inl pass
        · exact .inr pass
      · rintro (pass | pass)
        · exact ⟨_, pass⟩
        · exact ⟨_, pass⟩
    rw [List.mem_append]
    unfold Intra
    rw [built.passes_exceptional listed, edge, mem_normalTargets, listed]
    cases r.code[i] <;> simp [localTargets, Instr.targets, Instr.fallsThrough, Instr.isRet]

/-- What a walk leaves behind: the instructions it claimed, in order, with their calls. -/
structure Walked (r : Routine) (region : Nat) (stack : List Nat) (tags after : Array (Option Nat)) (new : List Nat) :
    Prop where
  size : after.size = tags.size
  tag : ∀ i id, after[i]? = some (some id) ↔ tags[i]? = some (some id) ∨ id = region ∧ i ∈ new
  free : ∀ i ∈ new, tags[i]? = some none
  nodup : new.Nodup
  reached : ∀ i ∈ new, ∃ j ∈ stack, Reaches r j i
  covered : ∀ j ∈ stack, Claimed after j
  closed : Closed r [] after
  count : ∀ id, after.count (some id) = tags.count (some id) + if id = region then new.length else 0

namespace Walked

variable {region : Nat} {tags after : Array (Option Nat)} {new rest : List Nat} {index : Nat}

theorem claimed (walked : Walked r region rest tags after new) {i : Nat} :
    Claimed after i ↔ Claimed tags i ∨ i ∈ new := by
  constructor
  · rintro ⟨id, tagged⟩
    rcases (walked.tag i id).mp tagged with old | ⟨_, member⟩
    · exact .inl ⟨id, old⟩
    · exact .inr member
  · rintro (⟨id, old⟩ | member)
    · exact ⟨id, (walked.tag i id).mpr (.inl old)⟩
    · exact ⟨region, (walked.tag i region).mpr (.inr ⟨rfl, member⟩)⟩

theorem nothing (closed : Closed r [] tags) : Walked r region [] tags tags [] := by
  refine ⟨rfl, by simp, by simp, List.nodup_nil, by simp, by simp, closed, ?_⟩
  intro id
  split <;> rfl

/-- An instruction on the stack that is claimed already is passed over. -/
theorem skip (walked : Walked r region rest tags after new) (taken : Claimed tags index) :
    Walked r region (index :: rest) tags after new := by
  refine ⟨walked.size, walked.tag, walked.free, walked.nodup, ?_, ?_, walked.closed, walked.count⟩
  · intro i member
    obtain ⟨j, later, way⟩ := walked.reached i member
    exact ⟨j, List.mem_cons_of_mem _ later, way⟩
  · intro j member
    rcases List.mem_cons.mp member with rfl | later
    · exact walked.claimed.mpr (.inl taken)
    · exact walked.covered j later

/-- Claiming an instruction and walking on from it. -/
theorem claim {next : List Nat} {inside : index < tags.size} (free : tags[index] = none)
    (inner : ∀ j ∈ next, Intra r index j)
    (walked : Walked r region (next ++ rest) (tags.set index (some region)) after new) :
    Walked r region (index :: rest) tags after (index :: new) := by
  have before : tags[index]? = some none := by rw [Array.getElem?_eq_getElem inside, free]
  have fresh : ∀ i ∈ new, index ≠ i ∧ tags[i]? = some none := by
    intro i member
    have unset := walked.free i member
    rw [Array.getElem?_set] at unset
    split at unset
    · cases unset
    · rename_i other
      exact ⟨other, unset⟩
  have absent : index ∉ new := fun member => (fresh index member).1 rfl
  refine ⟨?_, fun i id => ?_, ?_, List.nodup_cons.mpr ⟨absent, walked.nodup⟩, ?_, ?_, walked.closed, fun id => ?_⟩
  · rw [walked.size, Array.size_set]
  · rw [walked.tag, Array.getElem?_set, List.mem_cons]
    by_cases here : index = i
    · subst here
      simp [before, absent, eq_comm]
    · simp [here, Ne.symm here]
  · intro i member
    rcases List.mem_cons.mp member with rfl | later
    · exact before
    · exact (fresh i later).2
  · intro i member
    rcases List.mem_cons.mp member with rfl | later
    · exact ⟨i, List.mem_cons_self, .refl⟩
    · obtain ⟨j, stacked, way⟩ := walked.reached i later
      rcases List.mem_append.mp stacked with new | old
      · exact ⟨index, List.mem_cons_self, .head (inner j new) way⟩
      · exact ⟨j, List.mem_cons_of_mem _ old, way⟩
  · intro j member
    rcases List.mem_cons.mp member with rfl | later
    · refine walked.claimed.mpr (.inl ⟨region, ?_⟩)
      rw [Array.getElem?_set_self]
    · exact walked.covered j (List.mem_append_right _ later)
  · rw [walked.count, Array.count_set inside, free, List.length_cons]
    by_cases same : id = region
    · subst same
      simp
      omega
    · simp [same, Ne.symm same]

end Walked

theorem closed_claim {index region : Nat} {next rest : List Nat} {tags : Array (Option Nat)} (inside : index < tags.size)
    (inner : ∀ j, Intra r index j → j ∈ next) (closed : Closed r (index :: rest) tags) :
    Closed r (next ++ rest) (tags.set index (some region)) := by
  have keeps : ∀ j, Claimed tags j → Claimed (tags.set index (some region)) j := by
    rintro j ⟨id, old⟩
    unfold Claimed
    rw [Array.getElem?_set]
    split
    · exact ⟨region, rfl⟩
    · exact ⟨id, old⟩
  intro i claimed j pass
  by_cases here : index = i
  · exact .inl (List.mem_append_left _ (inner j (here ▸ pass)))
  · have old : Claimed tags i := by
      obtain ⟨id, tagged⟩ := claimed
      rw [Array.getElem?_set_ne inside here] at tagged
      exact ⟨id, tagged⟩
    rcases closed i old j pass with stacked | claimed
    · rcases List.mem_cons.mp stacked with rfl | later
      · exact .inr ⟨region, Array.getElem?_set_self inside⟩
      · exact .inl (List.mem_append_right _ later)
    · exact .inr (keeps j claimed)

theorem closed_skip {index : Nat} {rest : List Nat} {tags : Array (Option Nat)} (taken : Claimed tags index)
    (closed : Closed r (index :: rest) tags) : Closed r rest tags := by
  intro i claimed j pass
  rcases closed i claimed j pass with stacked | claimed
  · rcases List.mem_cons.mp stacked with rfl | later
    · exact .inr taken
    · exact .inl later
  · exact .inr claimed

/-- A walk over a checked routine ends, and keeps what is claimed closed. -/
theorem walk_total (built : r.Built) (region : Nat) {stack : List Nat} {tags : Array (Option Nat)} (scan : Scan)
    (sized : tags.size = r.size) (inside : ∀ j ∈ stack, j < r.size) (closed : Closed r stack tags) :
    ∃ after new, walk r region stack tags scan = (after, .ok ⟨scan.visited ++ new, scan.calls ++ new.flatMap (callsAt r)⟩) ∧
      Walked r region stack tags after new := by
  fun_induction walk r region stack tags scan with
  | case1 tags scan => exact ⟨tags, [], by simp, .nothing closed⟩
  | case2 tags scan index rest within _ _ e failed =>
    obtain ⟨next, found, _⟩ := follow_total built within
    cases found.symm.trans failed
  | case3 tags scan index rest within bound free next calls followed _ ih =>
    obtain ⟨next', found, inner⟩ := follow_total built within
    cases followed.symm.trans found
    have onward : ∀ j ∈ next ++ rest, j < r.size := by
      intro j member
      rcases List.mem_append.mp member with new | old
      · exact lt_of_intra built ((inner j).mp new)
      · exact inside j (List.mem_cons_of_mem _ old)
    obtain ⟨after, new, run, walked⟩ := ih (by rw [Array.size_set, sized]) onward
      (closed_claim bound (fun j pass => (inner j).mpr pass) closed)
    refine ⟨after, index :: new, ?_, walked.claim free fun j member => (inner j).mp member⟩
    rw [run, List.append_assoc, List.append_assoc, List.flatMap_cons]
    rfl
  | case4 tags scan index rest within bound taken ih =>
    have claimed : Claimed tags index := by
      obtain ⟨id, tagged⟩ := Option.ne_none_iff_exists'.mp taken
      exact ⟨id, by rw [Array.getElem?_eq_getElem bound, tagged]⟩
    obtain ⟨after, new, run, walked⟩ := ih sized (fun j later => inside j (List.mem_cons_of_mem _ later))
      (closed_skip claimed closed)
    exact ⟨after, new, run, walked.skip claimed⟩
  | case5 tags scan index rest within bound => exact absurd (sized ▸ within) bound
  | case6 tags scan index rest outside => exact absurd (inside index List.mem_cons_self) outside

/-- What is claimed and closed has all that its instructions reach. -/
theorem Closed.claimed_of_reaches {tags : Array (Option Nat)} (closed : Closed r [] tags) {i j : Nat}
    (claimed : Claimed tags i) (way : Reaches r i j) : Claimed tags j := by
  induction way with
  | refl => exact claimed
  | tail _ pass ih => exact (closed _ ih _ pass).resolve_left List.not_mem_nil

/-- From an entry in the code, a walk claims what the entry reaches and nobody has claimed. -/
theorem findRegion_total (built : r.Built) (region : Nat) {tags : Array (Option Nat)} {entry : Nat} (sized : tags.size = r.size)
    (inside : entry < r.size) (closed : Closed r [] tags) :
    ∃ after new, findRegion r tags entry region = (after, .ok ⟨new, new.flatMap (callsAt r)⟩) ∧
      Walked r region [entry] tags after new ∧ ∀ i, i ∈ new ↔ Reaches r entry i ∧ ¬ Claimed tags i := by
  obtain ⟨after, new, run, walked⟩ := walk_total built region ⟨[], []⟩ sized
    (by simpa using inside) (show Closed r [entry] tags from fun i claimed j pass => .inr <|
      (closed i claimed j pass).resolve_left List.not_mem_nil)
  refine ⟨after, new, by simpa [findRegion] using run, walked, fun i => ⟨fun member => ?_, ?_⟩⟩
  · obtain ⟨j, stacked, way⟩ := walked.reached i member
    rw [List.mem_singleton.mp stacked] at way
    exact ⟨way, not_claimed (walked.free i member)⟩
  · rintro ⟨way, unclaimed⟩
    have claimed := walked.closed.claimed_of_reaches (walked.covered entry (by simp)) way
    exact (walked.claimed.mp claimed).resolve_left unclaimed

end StackFlow.Regions
