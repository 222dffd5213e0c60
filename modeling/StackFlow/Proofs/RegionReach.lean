import Mathlib
import StackFlow.Proofs.BuildExact
import StackFlow.Proofs.FramesExact
import StackFlow.Proofs.RegionOwnership

/-!
Regions and the edges of the graph. The graph sends every return from a subroutine to
behind every call, whereas a region goes on behind a call that belongs to it. So both have
the same reachable instructions but for those behind calls that no region has: the graph
comes there by a return that answers no call which can be made (`LostReturn`).
-/
namespace StackFlow

namespace Routine

/-- A walk on which every return from a subroutine goes to behind a call that the walk has
    made. -/
inductive Realizable (r : Routine) : List (Nat × Passage) → Nat → Prop
  | start : Realizable r [] 0
  | move {path : List (Nat × Passage)} {i j : Nat} {passage : Passage} (way : Realizable r path i)
      (pass : r.Passes i passage j)
      (answers : ∀ slot, r.code[i]? = some (.ret slot) → passage = .normal →
        ∃ s t, (s, .normal) ∈ path ∧ r.code[s]? = some (.jsr t) ∧ j = s + 1) :
      Realizable r (path ++ [(i, passage)]) j

end Routine

namespace Regions

open Routine

variable {r : Routine} {m : RegionMap} {i j s t : Nat}

/-- A return that goes to behind a call which no region has. -/
def LostReturn (r : Routine) (m : RegionMap) (i j : Nat) : Prop :=
  (∃ slot, r.code[i]? = some (.ret slot)) ∧ ¬ r.Passes i .exceptional j ∧
    ∃ s t, r.code[s]? = some (.jsr t) ∧ j = s + 1 ∧ m.regionOf s = none

/-- The edges of the graph without the lost returns. -/
def Kept (r : Routine) (m : RegionMap) (i j : Nat) : Prop := r.flow.Edge i j ∧ ¬ LostReturn r m i j

theorem regionOf_eq_none : m.regionOf i = none ↔ ¬ Claimed m.tags i := by
  unfold RegionMap.regionOf Claimed
  rw [Option.join_eq_none_iff]
  rcases m.tags[i]? with _ | _ | id <;> simp

theorem intra_of_exceptional (built : r.Built) (pass : r.Passes i .exceptional j) : Intra r i j := by
  unfold Intra
  split
  · exact .inr pass
  · exact pass
  · exact built.edge_iff.mpr ⟨_, pass⟩

theorem intra_behind (jsr : r.code[s]? = some (.jsr t)) : Intra r s (s + 1) := by
  unfold Intra
  rw [jsr]
  exact .inl rfl

/-- Where the graph goes, regions go as well, but for returns from subroutines. -/
theorem onward_of_edge (built : r.Built) (edge : r.flow.Edge i j) :
    Onward r i j ∨ (∃ slot, r.code[i]? = some (.ret slot)) ∧ ∃ s t, r.code[s]? = some (.jsr t) ∧ j = s + 1 := by
  obtain ⟨passage, pass⟩ := built.edge_iff.mp edge
  cases passage with
  | exceptional => exact .inl (.inl (intra_of_exceptional built pass))
  | normal =>
    obtain ⟨instr, listed⟩ := built.getElem?_of_passes pass
    have goes := mem_normalTargets.mp ((built.passes_normal listed).mp pass)
    cases instr with
    | jsr target =>
      have here : j = target := by simpa [Instr.targets, Instr.fallsThrough, Instr.isRet] using goes
      exact .inl (.inr (here ▸ listed))
    | ret slot =>
      have behind : j ∈ returnPoints r.code := by simpa [Instr.targets, Instr.fallsThrough, Instr.isRet] using goes
      exact .inr ⟨⟨slot, listed⟩, mem_returnPoints.mp behind⟩
    | _ =>
      refine .inl (.inl ?_)
      unfold Intra
      rw [listed]
      exact edge

/-- Where regions go, the graph goes as well and loses no return, but for what comes behind
    a call. -/
theorem kept_of_onward (built : r.Built) (onward : Onward r i j) :
    Kept r m i j ∨ (∃ t, r.code[i]? = some (.jsr t)) ∧ j = i + 1 := by
  rcases onward with inner | jsr
  · unfold Intra at inner
    split at inner
    · rename_i t jsr
      rcases inner with behind | pass
      · exact .inr ⟨⟨t, jsr⟩, behind⟩
      · exact .inl ⟨built.edge_iff.mpr ⟨_, pass⟩, fun lost => lost.2.1 pass⟩
    · exact .inl ⟨built.edge_iff.mpr ⟨_, inner⟩, fun lost => lost.2.1 inner⟩
    · rename_i _ notRet
      exact .inl ⟨inner, fun lost => lost.1.elim notRet⟩
  · have pass : r.Passes i .normal j :=
      (built.passes_normal jsr).mpr (mem_normalTargets.mpr (.inl (by simp [Instr.targets])))
    refine .inl ⟨built.edge_iff.mpr ⟨_, pass⟩, ?_⟩
    rintro ⟨⟨slot, ret⟩, _⟩
    cases jsr.symm.trans ret

/-- A return to behind a call that has a region is not lost. -/
theorem kept_of_return (built : r.Built) {slot : UInt16} (ret : r.code[i]? = some (.ret slot))
    (jsr : r.code[s]? = some (.jsr t)) (claimed : Claimed m.tags s) : Kept r m i (s + 1) := by
  have pass : r.Passes i .normal (s + 1) := by
    rw [built.passes_normal ret, mem_normalTargets, mem_returnPoints]
    exact .inr (.inr ⟨rfl, s, t, jsr, rfl⟩)
  refine ⟨built.edge_iff.mpr ⟨_, pass⟩, ?_⟩
  rintro ⟨_, _, s', t', _, behind, lost⟩
  cases behind
  exact regionOf_eq_none.mp lost claimed

theorem Settling.onward (settling : Settling r m.tags m.regions []) (claimed : Claimed m.tags i) (onward : Onward r i j) :
    Claimed m.tags j := settling.claimed_iff.mpr ((settling.claimed_iff.mp claimed).tail onward)

variable (built : r.Built) (settling : Settling r m.tags m.regions [])

include built settling

/-- What the graph reaches without lost returns has a region. -/
theorem claimed_of_kept (way : Relation.ReflTransGen (Kept r m) 0 i) : Claimed m.tags i := by
  induction way with
  | refl => exact settling.claimed_iff.mpr .refl
  | @tail i j _ kept ih =>
    rcases onward_of_edge built kept.1 with onward | ⟨ret, s, t, jsr, behind⟩
    · exact settling.onward ih onward
    · by_cases pass : r.Passes i .exceptional j
      · exact settling.onward ih (.inl (intra_of_exceptional built pass))
      · have site : Claimed m.tags s := by
          by_contra unclaimed
          exact kept.2 ⟨ret, pass, s, t, jsr, behind, regionOf_eq_none.mpr unclaimed⟩
        exact behind ▸ settling.onward site (.inl (intra_behind jsr))

/-- What the graph reaches at all and has a region is reached without lost returns. -/
theorem kept_of_claimed (reached : Relation.ReflTransGen r.flow.Edge 0 i) (claimed : Claimed m.tags i) :
    Relation.ReflTransGen (Kept r m) 0 i := by
  by_cases returning : ∃ c slot, Relation.ReflTransGen (Kept r m) 0 c ∧ r.code[c]? = some (.ret slot)
  · -- some return is reached, and from there all that comes behind calls
    obtain ⟨c, slot, there, ret⟩ := returning
    have way := settling.claimed_iff.mp claimed
    clear claimed reached
    induction way with
    | refl => exact .refl
    | @tail i j way onward ih =>
      rcases kept_of_onward built onward with kept | ⟨⟨t, jsr⟩, rfl⟩
      · exact ih.tail kept
      · exact there.tail (kept_of_return built ret jsr (settling.claimed_iff.mpr way))
  · -- no return is reached, so there are none to be lost
    clear claimed
    induction reached with
    | refl => exact .refl
    | @tail i j _ edge ih =>
      refine ih.tail ⟨edge, ?_⟩
      rintro ⟨⟨slot, ret⟩, _⟩
      exact returning ⟨i, slot, ih, ret⟩

theorem regionOf_eq_none_iff (reached : Relation.ReflTransGen r.flow.Edge 0 i) :
    m.regionOf i = none ↔ ¬ Relation.ReflTransGen (Kept r m) 0 i := by
  rw [regionOf_eq_none]
  exact not_congr ⟨kept_of_claimed built settling reached, claimed_of_kept built settling⟩

/-- A walk that returns only to calls it has made stays where regions are. -/
theorem claimed_of_realizable {path : List (Nat × Passage)} (way : r.Realizable path i) :
    Claimed m.tags i ∧ ∀ leg ∈ path, Claimed m.tags leg.1 := by
  induction way with
  | start => exact ⟨settling.claimed_iff.mpr .refl, by simp⟩
  | @move path i j passage _ pass answers ih =>
    obtain ⟨here, before⟩ := ih
    refine ⟨?_, fun leg member => ?_⟩
    · rcases onward_of_edge built (built.edge_iff.mpr ⟨passage, pass⟩) with onward | ⟨⟨slot, ret⟩, _⟩
      · exact settling.onward here onward
      · cases passage with
        | exceptional => exact settling.onward here (.inl (intra_of_exceptional built pass))
        | normal =>
          obtain ⟨s, t, made, jsr, rfl⟩ := answers slot ret rfl
          exact settling.onward (before _ made) (.inl (intra_behind jsr))
    · rcases List.mem_append.mp member with old | last
      · exact before leg old
      · rw [List.mem_singleton.mp last]
        exact here

omit settling in
theorem reached_of_frame {locals : Nat} {frames : Array (Option (Frame Value))} {frame : Frame Value}
    (found : r.frames locals = .ok frames) (framed : frames[i]? = some (some frame)) :
    Relation.ReflTransGen r.flow.Edge 0 i := by
  obtain ⟨path, way, _⟩ := (Survey.sound_of_frames built found).arrived i frame framed
  exact built.exists_walk_iff.mp ⟨path, way⟩

omit built settling

/-- Which instructions that the graph reaches have a region: just those that it reaches
    without a return to behind a call that has no region itself. This holds of whatever has
    a frame, too. So a walk that returns only to calls it has made never leaves the regions,
    and where every call has a region, so has every instruction that the graph reaches. -/
theorem regionOf_reachable {code : Array Instr} {ranges : List Range} {scope : Scope}
    (built : Routine.build code ranges scope = .ok r) :
    ∃ m, partition r = .ok m ∧
      (∀ i, Relation.ReflTransGen r.flow.Edge 0 i →
        (m.regionOf i = none ↔ ¬ Relation.ReflTransGen (fun i j => r.flow.Edge i j ∧ ¬ LostReturn r m i j) 0 i)) ∧
      (∀ locals frames i frame, r.frames locals = .ok frames → frames[i]? = some (some frame) →
        (m.regionOf i = none ↔ ¬ Relation.ReflTransGen (fun i j => r.flow.Edge i j ∧ ¬ LostReturn r m i j) 0 i)) ∧
      (∀ path i, r.Realizable path i → m.regionOf i ≠ none) ∧
      ((∀ s t : Nat, r.code[s]? = some (.jsr t) → m.regionOf s ≠ none) →
        ∀ i, Relation.ReflTransGen r.flow.Edge 0 i → m.regionOf i ≠ none) := by
  have checked := built_of_build built
  obtain ⟨m, run, settling⟩ := partition_total checked
  refine ⟨m, run, fun i => regionOf_eq_none_iff checked settling, ?_, ?_, ?_⟩
  · intro locals frames i frame found framed
    exact regionOf_eq_none_iff checked settling (reached_of_frame checked found framed)
  · intro path i way none
    exact regionOf_eq_none.mp none (claimed_of_realizable checked settling way).1
  · intro everywhere i reached none
    have kept : ∀ a b, r.flow.Edge a b → Kept r m a b := by
      refine fun a b edge => ⟨edge, ?_⟩
      rintro ⟨_, _, s, t, jsr, _, lost⟩
      exact everywhere s t jsr lost
    exact (regionOf_eq_none_iff checked settling reached).mp none (Relation.ReflTransGen.mono kept 0 i reached)

/-- A subroutine at 4 that is called from 0. The call from 2 is never made, since nothing
    leads there, but the subroutine may return to behind it as well, as the graph has it. -/
def deadCall : Result Routine := do
  let scope ← Scope.empty.declareAll [.local 0 Flags.none]
  Routine.build #[.jsr 4, .return false, .jsr 4, .return false, .store 0, .ret 0] [] scope

theorem deadCall_regions :
    ∃ r m, deadCall = .ok r ∧ partition r = .ok m ∧ m.tags = #[some 0, some 0, none, none, some 1, some 1] ∧
      m.regions = #[⟨0, 0, [], 2⟩, ⟨1, 4, [0], 2⟩] := by
  have computed : (do
      let r ← deadCall
      return (findRegion r (untagged r) 0 0, findRegion r #[some 0, some 0, none, none, none, none] 4 1) : Result _) =
      .ok ((#[some 0, some 0, none, none, none, none], .ok ⟨[0, 1], [⟨0, 4⟩]⟩),
        (#[some 0, some 0, none, none, some 1, some 1], .ok ⟨[4, 5], []⟩)) := by cbv
  obtain ⟨r, made, computed⟩ := bind_eq_ok.mp computed
  simp only [pure, Except.pure, Except.ok.injEq, Prod.mk.injEq] at computed
  obtain ⟨first, second⟩ := computed
  refine ⟨r, ⟨_, _⟩, made, ?_, rfl, rfl⟩
  unfold partition
  rw [first]
  exact (settle_free rfl second).trans settle_nil

theorem deadCall_frames :
    ∃ r frames frame frame', deadCall = .ok r ∧ r.frames 1 = .ok frames ∧ frames[1]? = some (some frame) ∧
      frames[3]? = some (some frame') := by
  have computed : (do
      let r ← deadCall
      let frames ← r.frames 1
      return (frames[1]?, frames[3]?) : Result _) =
        .ok (some (some ⟨#[.unknown], #[]⟩), some (some ⟨#[.unknown], #[]⟩)) := by cbv
  obtain ⟨r, made, computed⟩ := bind_eq_ok.mp computed
  obtain ⟨frames, found, computed⟩ := bind_eq_ok.mp computed
  simp only [pure, Except.pure, Except.ok.injEq, Prod.mk.injEq] at computed
  exact ⟨r, frames, _, _, made, found, computed.1, computed.2⟩

/-- The graph reaches the instruction behind the call that is never made, which has a frame
    but no region. -/
theorem reachable_without_region :
    ∃ r m frames frame, deadCall = .ok r ∧ partition r = .ok m ∧ r.frames 1 = .ok frames ∧
      Relation.ReflTransGen r.flow.Edge 0 3 ∧ frames[3]? = some (some frame) ∧ m.regionOf 3 = none := by
  obtain ⟨r, m, made, run, tags, _⟩ := deadCall_regions
  obtain ⟨r', frames, _, frame, made', found, _, framed⟩ := deadCall_frames
  cases made.symm.trans made'
  obtain ⟨scope, _, built⟩ := bind_eq_ok.mp made
  have reached := reached_of_frame (built_of_build built) found framed
  exact ⟨r, m, frames, frame, made, run, found, reached, framed, by simp [RegionMap.regionOf, tags]⟩

theorem regionOf_reachable_deadCall :
    ∃ r m, deadCall = .ok r ∧ partition r = .ok m ∧
      ¬ Relation.ReflTransGen (fun i j => r.flow.Edge i j ∧ ¬ LostReturn r m i j) 0 3 ∧
      Relation.ReflTransGen (fun i j => r.flow.Edge i j ∧ ¬ LostReturn r m i j) 0 1 ∧
      ∀ path, ¬ r.Realizable path 3 := by
  obtain ⟨r, m, made, run, tags, _⟩ := deadCall_regions
  obtain ⟨r', frames, _, _, made', found, first, last⟩ := deadCall_frames
  cases made.symm.trans made'
  obtain ⟨scope, _, built⟩ := bind_eq_ok.mp made
  obtain ⟨m', run', _, framed, realizable, _⟩ := regionOf_reachable built
  cases run.symm.trans run'
  have outside : m.regionOf 3 = none := by simp [RegionMap.regionOf, tags]
  have main : m.regionOf 1 ≠ none := by simp [RegionMap.regionOf, tags]
  refine ⟨r, m, made, run, (framed 1 frames 3 _ found last).mp outside, ?_, fun path way => realizable path 3 way outside⟩
  by_contra unreached
  exact main ((framed 1 frames 1 _ found first).mpr unreached)

end Regions

end StackFlow
