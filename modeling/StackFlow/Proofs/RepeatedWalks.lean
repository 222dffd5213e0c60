import Mathlib
import StackFlow.Proofs.RegionWalks

/-!
Walk after walk over one routine, from any entries and for any regions. A walk stops at
whatever an earlier one has claimed. It loses nothing by this, since all earlier walks
together leave a closed set of claims behind (`closed_tagsAfter`), and so each of them
claims what its entry reaches and nobody has claimed before.
-/
namespace StackFlow.Regions

open Routine

/-- The tags that walks leave behind, each from an entry and for a region. A walk that fails
    counts as well. -/
def tagsAfter (r : Routine) (walks : List (Nat × Nat)) : Array (Option Nat) :=
  walks.foldl (fun tags walk => (findRegion r tags walk.1 walk.2).1) (untagged r)

variable {r : Routine} {tags : Array (Option Nat)} {entry region : Nat}

theorem findRegion_outside (outside : r.size ≤ entry) :
    findRegion r tags entry region = (tags, reject (.regionEscapes region entry r.size)) := by
  unfold findRegion walk
  rw [if_neg (Nat.not_lt.mpr outside)]

/-- A walk keeps the claims closed, be it that it succeeds or that it fails. -/
theorem closed_findRegion (built : r.Built) (sized : tags.size = r.size) (closed : Closed r [] tags) (entry region : Nat) :
    (findRegion r tags entry region).1.size = r.size ∧ Closed r [] (findRegion r tags entry region).1 := by
  by_cases inside : entry < r.size
  · obtain ⟨after, new, run, walked, _⟩ := findRegion_total built region sized inside closed
    rw [run]
    exact ⟨walked.size.trans sized, walked.closed⟩
  · rw [findRegion_outside (Nat.le_of_not_lt inside)]
    exact ⟨sized, closed⟩

theorem closed_tagsAfter (built : r.Built) (walks : List (Nat × Nat)) :
    (tagsAfter r walks).size = r.size ∧ Closed r [] (tagsAfter r walks) := by
  have kept : ∀ tags : Array (Option Nat), tags.size = r.size → Closed r [] tags →
      (walks.foldl (fun tags walk => (findRegion r tags walk.1 walk.2).1) tags).size = r.size ∧
        Closed r [] (walks.foldl (fun tags walk => (findRegion r tags walk.1 walk.2).1) tags) := by
    induction walks with
    | nil => exact fun tags sized closed => ⟨sized, closed⟩
    | cons walk rest ih =>
      intro tags sized closed
      obtain ⟨sized', closed'⟩ := closed_findRegion built sized closed walk.1 walk.2
      exact ih _ sized' closed'
  exact kept (untagged r) (by simp [untagged]) (closed_untagged r)

/-- What a walk does to each tag. -/
theorem Walked.getElem? {stack new : List Nat} {after : Array (Option Nat)} (walked : Walked r region stack tags after new)
    (i : Nat) : after[i]? = if i ∈ new then some (some region) else tags[i]? := by
  by_cases member : i ∈ new
  · rw [if_pos member]
    exact (walked.tag i region).mpr (.inr ⟨rfl, member⟩)
  · have same : ∀ id, after[i]? = some (some id) ↔ tags[i]? = some (some id) := by
      intro id
      rw [walked.tag, or_iff_left fun both => member both.2]
    rw [if_neg member]
    rcases before : tags[i]? with _ | _ | id
    · exact Array.getElem?_eq_none (walked.size ▸ Array.getElem?_eq_none_iff.mp before)
    · have inside : i < after.size := walked.size ▸ (Array.getElem?_eq_some_iff.mp before).1
      rcases behind : after[i]? with _ | _ | id
      · exact absurd inside (Nat.not_lt.mpr (Array.getElem?_eq_none_iff.mp behind))
      · rfl
      · cases before.symm.trans ((same id).mp behind)
    · exact (same id).mpr before

/-- The calls that a walk meets are at the subroutine calls among what it claims. -/
theorem sites_flatMap_callsAt (new : List Nat) :
    (new.flatMap (callsAt r)).map Call.site = new.filter fun i => r.code[i]?.any Instr.isJsr := by
  induction new with
  | nil => rfl
  | cons i rest ih =>
    have here : (callsAt r i).map Call.site = if r.code[i]?.any Instr.isJsr then [i] else [] := by
      unfold callsAt
      cases r.code[i]? with
      | none => rfl
      | some instr => cases instr <;> rfl
    rw [List.flatMap_cons, List.map_append, ih, here, List.filter_cons]
    split <;> rfl

/-- Whatever walks have been made before, a walk fails just if its entry lies outside of the
    code, and then it leaves the tags as they are. Otherwise it visits each instruction once
    that the entry reaches within a region and that has no tag, it tags just these for its
    region, and it lists the subroutine calls among them in the order of its visits. -/
theorem findRegion_repeated {code : Array Instr} {ranges : List Range} {scope : Scope}
    (built : Routine.build code ranges scope = .ok r) (earlier : List (Nat × Nat)) (entry region : Nat) :
    (r.size ≤ entry → findRegion r (tagsAfter r earlier) entry region =
      (tagsAfter r earlier, reject (.regionEscapes region entry r.size))) ∧
    (entry < r.size → ∃ after scan, findRegion r (tagsAfter r earlier) entry region = (after, .ok scan) ∧
      scan.visited.Nodup ∧
      (∀ i, i ∈ scan.visited ↔ Relation.ReflTransGen (Intra r) entry i ∧ (tagsAfter r earlier)[i]? = some none) ∧
      (∀ i, after[i]? = if i ∈ scan.visited then some (some region) else (tagsAfter r earlier)[i]?) ∧
      scan.calls.map Call.site = scan.visited.filter (fun i => r.code[i]?.any Instr.isJsr) ∧
      ∀ call ∈ scan.calls, r.code[call.site]? = some (.jsr call.target)) := by
  refine ⟨findRegion_outside, fun inside => ?_⟩
  have checked := built_of_build built
  obtain ⟨sized, closed⟩ := closed_tagsAfter checked earlier
  obtain ⟨after, new, run, walked, exact⟩ := findRegion_total checked region sized inside closed
  refine ⟨after, _, run, walked.nodup, fun i => ⟨fun member => ?_, ?_⟩, walked.getElem?, sites_flatMap_callsAt new, ?_⟩
  · exact ⟨((exact i).mp member).1, walked.free i member⟩
  · rintro ⟨way, free⟩
    exact (exact i).mpr ⟨way, not_claimed free⟩
  · intro call listed
    exact (mem_newCalls.mp listed).2

/-- A subroutine at 4 that is left by an exception for the code at 2, to which the main part
    jumps as well. -/
def merging : Result Routine := do
  let scope ← Scope.empty.declareAll [.local 0 Flags.none]
  Routine.build #[.jsr 4, .goto 2, .jsr 4, .return false, .store 0, .ret 0] [⟨4, 5, 2⟩] scope

theorem findRegion_repeated_merging :
    ∃ r after, merging = .ok r ∧ findRegion r (tagsAfter r [(4, 7), (9, 1)]) 0 0 = (after, .ok ⟨[0, 1], [⟨0, 4⟩]⟩) ∧
      Relation.ReflTransGen (Intra r) 0 1 ∧ (tagsAfter r [(4, 7), (9, 1)])[2]? ≠ some none ∧ after[2]? = some (some 7) ∧
      (findRegion r (tagsAfter r [(4, 7)]) 9 1).1 = tagsAfter r [(4, 7)] := by
  have computed : (do
      let r ← merging
      return (r.size, (tagsAfter r [(4, 7), (9, 1)])[2]?, findRegion r (tagsAfter r [(4, 7), (9, 1)]) 0 0) : Result _) =
        .ok (6, some (some 7), #[some 0, some 0, some 7, some 7, some 7, some 7], .ok ⟨[0, 1], [⟨0, 4⟩]⟩) := by cbv
  obtain ⟨r, made, computed⟩ := bind_eq_ok.mp computed
  simp only [pure, Except.pure, Except.ok.injEq, Prod.mk.injEq] at computed
  obtain ⟨size, tag, run⟩ := computed
  obtain ⟨scope, _, built⟩ := bind_eq_ok.mp made
  obtain ⟨after, scan, run', _, visited, tags, _⟩ := (findRegion_repeated built [(4, 7), (9, 1)] 0 0).2 (by omega)
  cases run.symm.trans run'
  refine ⟨r, _, made, run, ((visited 1).mp (by simp)).1, by simp [tag], ?_, ?_⟩
  · rw [tags, tag]
    simp
  · rw [(findRegion_repeated built [(4, 7)] 9 1).1 (by omega)]

end StackFlow.Regions
