import Mathlib
import StackFlow.Proofs.RegionWalks

/-!
Who owns an instruction. After every walk, an instruction belongs to the first region
whose entry reaches it, and the regions are counted right (`Owned`); a further walk
from an unclaimed entry keeps it so (`Owned.grow`). When no call is left to settle, all
subroutines that are called from claimed code are claimed as well, and the map of the
regions is complete (`partition_exact`).
-/
namespace StackFlow.Regions

open Routine

/-- The regions whose entries reach an instruction. -/
def reachers (r : Routine) (regions : Array Region) (i : Nat) : Set Nat :=
  {k | ∃ region, regions[k]? = some region ∧ Reaches r region.entry i}

/-- Control stays in the region or is called into a subroutine. -/
def Onward (r : Routine) (i j : Nat) : Prop := Intra r i j ∨ r.code[i]? = some (.jsr j)

structure Owned (r : Routine) (tags : Array (Option Nat)) (regions : Array Region) : Prop where
  sized : tags.size = r.size
  closed : Closed r [] tags
  ids : ∀ (k : Nat) (region : Region), regions[k]? = some region → region.id = k
  owner : ∀ i k : Nat, tags[i]? = some (some k) ↔ IsLeast (reachers r regions i) k
  entries : ∀ (k : Nat) (region : Region), regions[k]? = some region → tags[region.entry]? = some (some k)
  counts : ∀ (k : Nat) (region : Region), regions[k]? = some region → region.size = tags.count (some k)
  grounded : ∀ i, Claimed tags i → Relation.ReflTransGen (Onward r) 0 i

variable {r : Routine} {tags : Array (Option Nat)} {regions : Array Region}

theorem lt_of_mem_reachers {i k : Nat} (member : k ∈ reachers r regions i) : k < regions.size := by
  obtain ⟨region, listed, _⟩ := member
  exact (Array.getElem?_eq_some_iff.mp listed).1

theorem onward_of_reaches {i j : Nat} (way : Reaches r i j) : Relation.ReflTransGen (Onward r) i j := by
  induction way with
  | refl => exact .refl
  | tail _ pass ih => exact ih.tail (.inl pass)

theorem mem_reachers_push {region : Region} {i k : Nat} :
    k ∈ reachers r (regions.push region) i ↔
      k ∈ reachers r regions i ∨ k = regions.size ∧ Reaches r region.entry i := by
  unfold reachers
  simp only [Set.mem_ofPred_eq, Array.getElem?_push]
  by_cases last : k = regions.size
  · simp [last]
  · simp [last]

theorem owned_untagged (r : Routine) : Owned r (untagged r) #[] := by
  refine ⟨by simp [untagged], closed_untagged r, by simp, ?_, by simp, by simp, ?_⟩
  · intro i k
    constructor
    · intro tagged
      exact absurd ⟨k, tagged⟩ (not_claimed_untagged r i)
    · rintro ⟨⟨region, listed, _⟩, _⟩
      simp at listed
  · intro i claimed
    exact absurd claimed (not_claimed_untagged r i)

namespace Owned

variable (owned : Owned r tags regions)

include owned

/-- An instruction is unclaimed just if no region reaches it. -/
theorem claimed_iff {i : Nat} : Claimed tags i ↔ ∃ k, k ∈ reachers r regions i := by
  constructor
  · rintro ⟨k, tagged⟩
    exact ⟨k, ((owned.owner i k).mp tagged).1⟩
  · rintro ⟨k, region, listed, way⟩
    exact owned.closed.claimed_of_reaches ⟨k, owned.entries k region listed⟩ way

theorem lt_of_tag {i k : Nat} (tagged : tags[i]? = some (some k)) : k < regions.size :=
  lt_of_mem_reachers ((owned.owner i k).mp tagged).1

/-- A walk from an unclaimed entry makes one more region, which owns what it claims. -/
theorem grow (callers : List Nat) {after : Array (Option Nat)} {new : List Nat} {entry : Nat}
    (walked : Walked r regions.size [entry] tags after new) (unclaimed : ¬ Claimed tags entry)
    (exact : ∀ i, i ∈ new ↔ Reaches r entry i ∧ ¬ Claimed tags i) (ground : Relation.ReflTransGen (Onward r) 0 entry) :
    Owned r after (regions.push ⟨regions.size, entry, callers, new.length⟩) := by
  have absent : tags.count (some regions.size) = 0 := by
    refine Array.count_eq_zero.mpr fun member => ?_
    obtain ⟨i, tagged⟩ := Array.mem_iff_getElem?.mp member
    exact Nat.lt_irrefl _ (owned.lt_of_tag tagged)
  refine ⟨walked.size.trans owned.sized, walked.closed, ?_, fun i k => ?_, ?_, ?_, ?_⟩
  · intro k region listed
    rw [Array.getElem?_push] at listed
    split at listed
    · rename_i last
      cases listed
      exact last.symm
    · exact owned.ids k region listed
  · rw [walked.tag, exact]
    constructor
    · rintro (tagged | ⟨rfl, way, free⟩)
      · have least := (owned.owner i k).mp tagged
        refine ⟨mem_reachers_push.mpr (.inl least.1), fun other member => ?_⟩
        rcases mem_reachers_push.mp member with old | ⟨rfl, _⟩
        · exact least.2 old
        · exact Nat.le_of_lt (lt_of_mem_reachers least.1)
      · refine ⟨mem_reachers_push.mpr (.inr ⟨rfl, way⟩), fun other member => ?_⟩
        rcases mem_reachers_push.mp member with old | ⟨rfl, _⟩
        · exact absurd (owned.claimed_iff.mpr ⟨other, old⟩) free
        · exact Nat.le_refl _
    · rintro ⟨member, least⟩
      rcases mem_reachers_push.mp member with old | ⟨rfl, way⟩
      · refine .inl ((owned.owner i k).mpr ⟨old, fun other earlier => ?_⟩)
        exact least (mem_reachers_push.mpr (.inl earlier))
      · -- Had an older region reached the instruction, the new one would not be the least.
        refine .inr ⟨rfl, way, fun claimed => ?_⟩
        obtain ⟨other, earlier⟩ := owned.claimed_iff.mp claimed
        have below := lt_of_mem_reachers earlier
        have above : regions.size ≤ other := least (mem_reachers_push.mpr (.inl earlier))
        omega
  · intro k region listed
    rw [walked.tag]
    rw [Array.getElem?_push] at listed
    split at listed
    · rename_i last
      cases listed
      exact .inr ⟨last, (exact entry).mpr ⟨.refl, unclaimed⟩⟩
    · exact .inl (owned.entries k region listed)
  · intro k region listed
    rw [walked.count]
    rw [Array.getElem?_push] at listed
    split at listed
    · rename_i last
      cases listed
      simp [last, absent]
    · rename_i earlier
      simp [earlier, owned.counts k region listed]
  · intro i claimed
    rcases walked.claimed.mp claimed with old | member
    · exact owned.grounded i old
    · exact ground.trans (onward_of_reaches ((exact i).mp member).1)

end Owned

/-- A region without its callers. -/
def core (region : Region) : Region := { region with callers := [] }

/-- The region with one more caller, unless it is listed already. -/
def note (site : Nat) (region : Region) : Region :=
  if region.callers.contains site then region else { region with callers := region.callers ++ [site] }

theorem core_note (site : Nat) (region : Region) : core (note site region) = core region := by
  unfold note
  split <;> rfl

/-- Noting a call changes the callers of one region. -/
theorem addCaller_eq {owner : Nat} (inside : owner < regions.size) (site : Nat) :
    addCaller regions owner site = .ok (regions.modify owner (note site)) := by
  have modified : regions.modify owner (note site) = regions.set owner (note site regions[owner]) := by
    apply Array.ext_getElem?
    intro k
    rw [Array.getElem?_modify, Array.getElem?_set]
    split
    · rename_i here
      subst here
      rw [Array.getElem?_eq_getElem inside]
      rfl
    · rfl
  unfold addCaller
  rw [fetch_of_lt inside, modified]
  by_cases known : regions[owner].callers.contains site = true
  · simp only [note, bind, Except.bind, known, if_true, Array.set_getElem_self]
    rfl
  · simp only [note, known, bind, Except.bind, replace_of_lt inside]
    rfl

theorem addCaller_total {owner : Nat} (inside : owner < regions.size) (site : Nat) :
    ∃ noted, addCaller regions owner site = .ok noted ∧ noted.map core = regions.map core := by
  refine ⟨_, addCaller_eq inside site, ?_⟩
  apply Array.ext_getElem?
  intro k
  rw [Array.getElem?_map, Array.getElem?_map, Array.getElem?_modify]
  split
  · cases regions[k]? with
    | none => rfl
    | some region => exact congrArg some (core_note site region)
  · rfl

theorem getElem?_of_core {noted : Array Region} (same : noted.map core = regions.map core) {k : Nat} {region : Region}
    (listed : noted[k]? = some region) :
    ∃ old, regions[k]? = some old ∧ region.id = old.id ∧ region.entry = old.entry ∧ region.size = old.size := by
  have entries := congrArg (·[k]?) same
  simp only [Array.getElem?_map, listed, Option.map_some] at entries
  obtain ⟨old, found, equal⟩ := Option.map_eq_some_iff.mp entries.symm
  simp only [core, Region.mk.injEq] at equal
  obtain ⟨id, entry, _, size⟩ := equal
  exact ⟨old, found, id.symm, entry.symm, size.symm⟩

theorem mem_reachers_of_core {noted : Array Region} (same : noted.map core = regions.map core) {i k : Nat}
    (member : k ∈ reachers r noted i) : k ∈ reachers r regions i := by
  obtain ⟨region, listed, way⟩ := member
  obtain ⟨old, found, _, entry, _⟩ := getElem?_of_core same listed
  exact ⟨old, found, entry ▸ way⟩

/-- Ownership does not depend on the callers. -/
theorem Owned.congr (owned : Owned r tags regions) {noted : Array Region} (same : noted.map core = regions.map core) :
    Owned r tags noted := by
  have reached : ∀ i, reachers r noted i = reachers r regions i := fun i =>
    Set.ext fun k => ⟨mem_reachers_of_core same, mem_reachers_of_core same.symm⟩
  refine ⟨owned.sized, owned.closed, ?_, fun i k => reached i ▸ owned.owner i k, ?_, ?_, owned.grounded⟩
  · intro k region listed
    obtain ⟨old, found, id, _⟩ := getElem?_of_core same listed
    exact id.trans (owned.ids k old found)
  · intro k region listed
    obtain ⟨old, found, _, entry, _⟩ := getElem?_of_core same listed
    exact entry ▸ owned.entries k old found
  · intro k region listed
    obtain ⟨old, found, _, _, size⟩ := getElem?_of_core same listed
    exact size.trans (owned.counts k old found)

/-- Calls out of claimed code go to claimed code, or wait to be settled. -/
structure Settling (r : Routine) (tags : Array (Option Nat)) (regions : Array Region) (pending : List Call) : Prop where
  owned : Owned r tags regions
  main : ∃ region, regions[0]? = some region ∧ region.entry = 0
  noted : ∀ call ∈ pending, r.code[call.site]? = some (.jsr call.target) ∧ Claimed tags call.site
  awaited : ∀ i t : Nat, Claimed tags i → r.code[i]? = some (.jsr t) → Claimed tags t ∨ ∃ call ∈ pending, call.target = t

/-- The calls of the new region wait behind those that are left. -/
theorem awaited_grow {region entry : Nat} {after : Array (Option Nat)} {new : List Nat} {rest pending : List Call}
    (walked : Walked r region [entry] tags after new)
    (left : ∀ call ∈ pending, call.target = entry ∨ call ∈ rest)
    (awaited : ∀ i t : Nat, Claimed tags i → r.code[i]? = some (.jsr t) → Claimed tags t ∨ ∃ call ∈ pending, call.target = t) :
    ∀ i t : Nat, Claimed after i → r.code[i]? = some (.jsr t) →
      Claimed after t ∨ ∃ call ∈ rest ++ new.flatMap (callsAt r), call.target = t := by
  intro i t claimed jsr
  rcases walked.claimed.mp claimed with old | member
  · rcases awaited i t old jsr with before | ⟨call, waiting, rfl⟩
    · exact .inl (walked.claimed.mpr (.inl before))
    · rcases left call waiting with here | later
      · exact .inl (here ▸ walked.covered entry (by simp))
      · exact .inr ⟨call, List.mem_append_left _ later, rfl⟩
  · exact .inr ⟨⟨i, t⟩, List.mem_append_right _ (mem_newCalls.mpr ⟨member, jsr⟩), rfl⟩

theorem Settling.skip {call : Call} {rest : List Call} (settling : Settling r tags regions (call :: rest))
    {noted : Array Region} (same : noted.map core = regions.map core) (target : Claimed tags call.target) :
    Settling r tags noted rest := by
  refine ⟨settling.owned.congr same, ?_, ?_, ?_⟩
  · obtain ⟨region, listed, entry⟩ := settling.main
    obtain ⟨other, found, _, equal, _⟩ := getElem?_of_core same.symm listed
    exact ⟨other, found, equal.symm.trans entry⟩
  · intro other later
    exact settling.noted other (List.mem_cons_of_mem _ later)
  · intro i t claimed jsr
    rcases settling.awaited i t claimed jsr with before | ⟨other, waiting, rfl⟩
    · exact .inl before
    · rcases List.mem_cons.mp waiting with rfl | later
      · exact .inl target
      · exact .inr ⟨other, later, rfl⟩

theorem Settling.grow {call : Call} {rest : List Call} (settling : Settling r tags regions (call :: rest))
    {after : Array (Option Nat)} {new : List Nat} (walked : Walked r regions.size [call.target] tags after new)
    (unclaimed : ¬ Claimed tags call.target) (exact : ∀ i, i ∈ new ↔ Reaches r call.target i ∧ ¬ Claimed tags i) :
    Settling r after (regions.push ⟨regions.size, call.target, [call.site], new.length⟩)
      (rest ++ new.flatMap (callsAt r)) := by
  obtain ⟨jsr, site⟩ := settling.noted call List.mem_cons_self
  refine ⟨settling.owned.grow _ walked unclaimed exact ((settling.owned.grounded _ site).tail (.inr jsr)), ?_, ?_, ?_⟩
  · obtain ⟨region, listed, entry⟩ := settling.main
    refine ⟨region, ?_, entry⟩
    have some := (Array.getElem?_eq_some_iff.mp listed).1
    rw [Array.getElem?_push, if_neg (by omega), listed]
  · intro other waiting
    rcases List.mem_append.mp waiting with later | found
    · obtain ⟨jsr, claimed⟩ := settling.noted other (List.mem_cons_of_mem _ later)
      exact ⟨jsr, walked.claimed.mpr (.inl claimed)⟩
    · obtain ⟨member, jsr⟩ := mem_newCalls.mp found
      exact ⟨jsr, walked.claimed.mpr (.inr member)⟩
  · refine awaited_grow walked (fun other waiting => ?_) settling.awaited
    rcases List.mem_cons.mp waiting with rfl | later
    · exact .inl rfl
    · exact .inr later

theorem settle_nil : settle r tags regions [] = .ok ⟨tags, regions⟩ := by rw [settle]

theorem settle_owned {call : Call} {rest : List Call} {owner : Nat} {noted : Array Region}
    (owned : tags[call.target]?.join = some owner) (added : addCaller regions owner call.site = .ok noted) :
    settle r tags regions (call :: rest) = settle r tags noted rest := by
  rw [settle]
  split
  · rename_i owner' owned'
    cases owned.symm.trans owned'
    rw [added]
  · rename_i free
    cases owned.symm.trans free

theorem settle_free {call : Call} {rest : List Call} {after : Array (Option Nat)} {scan : Scan}
    (free : tags[call.target]?.join = none) (found : findRegion r tags call.target regions.size = (after, .ok scan)) :
    settle r tags regions (call :: rest) =
      settle r after (regions.push ⟨regions.size, call.target, [call.site], scan.visited.length⟩) (rest ++ scan.calls) := by
  rw [settle]
  split
  · rename_i owner owned
    cases free.symm.trans owned
  · split
    · rename_i failed
      cases found.symm.trans failed
    · rename_i found'
      cases found.symm.trans found'
      rfl

theorem Settling.lt_target (built : r.Built) {pending : List Call} (settling : Settling r tags regions pending) {call : Call}
    (waiting : call ∈ pending) : call.target < r.size :=
  built.targets _ _ (settling.noted call waiting).1 _ (by simp [Instr.targets])

/-- What each call that is settled keeps, whether its target is claimed already or becomes
    the entry of a new region. -/
structure Keeps (r : Routine) (inv : Array (Option Nat) → Array Region → List Call → Prop) : Prop where
  skip : ∀ {tags : Array (Option Nat)} {regions noted : Array Region} {call : Call} {rest : List Call} {owner : Nat},
    Settling r tags regions (call :: rest) → inv tags regions (call :: rest) → tags[call.target]? = some (some owner) →
      addCaller regions owner call.site = .ok noted → inv tags noted rest
  grow : ∀ {tags after : Array (Option Nat)} {regions : Array Region} {call : Call} {rest : List Call} {new : List Nat},
    Settling r tags regions (call :: rest) → inv tags regions (call :: rest) → ¬ Claimed tags call.target →
      Walked r regions.size [call.target] tags after new →
      inv after (regions.push ⟨regions.size, call.target, [call.site], new.length⟩) (rest ++ new.flatMap (callsAt r))

/-- Settling calls ends with all of them settled. -/
theorem settle_total (built : r.Built) {inv : Array (Option Nat) → Array Region → List Call → Prop} (keeps : Keeps r inv)
    {pending : List Call} (settling : Settling r tags regions pending) (holds : inv tags regions pending) :
    ∃ m, settle r tags regions pending = .ok m ∧ Settling r m.tags m.regions [] ∧ inv m.tags m.regions [] := by
  have tag_of_join : ∀ {tags : Array (Option Nat)} {i k : Nat}, tags[i]?.join = some k → tags[i]? = some (some k) :=
    fun joined => Option.join_eq_some_iff.mp joined
  fun_induction settle r tags regions pending with
  | case1 tags regions => exact ⟨⟨tags, regions⟩, rfl, settling, holds⟩
  | case2 tags regions call rest owner owned e failed =>
    obtain ⟨noted, ok, _⟩ := addCaller_total (settling.owned.lt_of_tag (tag_of_join owned)) call.site
    cases ok.symm.trans failed
  | case3 tags regions call rest owner owned noted added ih =>
    obtain ⟨noted', ok, same⟩ := addCaller_total (settling.owned.lt_of_tag (tag_of_join owned)) call.site
    cases ok.symm.trans added
    exact ih (settling.skip same ⟨owner, tag_of_join owned⟩) (keeps.skip settling holds (tag_of_join owned) added)
  | case4 tags regions call rest free after e failed =>
    obtain ⟨after', new, run, _⟩ := findRegion_total built regions.size settling.owned.sized
      (settling.lt_target built List.mem_cons_self) settling.owned.closed
    cases run.symm.trans failed
  | case5 tags regions call rest free after scan found _ ih =>
    obtain ⟨after', new, run, walked, exact⟩ := findRegion_total built regions.size settling.owned.sized
      (settling.lt_target built List.mem_cons_self) settling.owned.closed
    cases run.symm.trans found
    have unclaimed : ¬ Claimed tags call.target := by
      rintro ⟨id, tagged⟩
      rw [tagged] at free
      cases free
    exact ih (settling.grow walked unclaimed exact) (keeps.grow settling holds unclaimed walked)

theorem partition_keeps (built : r.Built) {inv : Array (Option Nat) → Array Region → List Call → Prop} (keeps : Keeps r inv)
    (initially : ∀ tags new, Walked r 0 [0] (untagged r) tags new →
      inv tags #[⟨0, 0, [], new.length⟩] (new.flatMap (callsAt r))) :
    ∃ m, partition r = .ok m ∧ Settling r m.tags m.regions [] ∧ inv m.tags m.regions [] := by
  have start := owned_untagged r
  obtain ⟨tags, new, run, walked, exact⟩ := findRegion_total built 0 start.sized built.nonempty start.closed
  have owned := start.grow [] walked (not_claimed_untagged r 0) exact .refl
  have settling : Settling r tags #[⟨0, 0, [], new.length⟩] (new.flatMap (callsAt r)) := by
    refine ⟨owned, ⟨_, rfl, rfl⟩, ?_, ?_⟩
    · intro call found
      obtain ⟨member, jsr⟩ := mem_newCalls.mp found
      exact ⟨jsr, walked.claimed.mpr (.inr member)⟩
    · have none : ∀ call ∈ ([] : List Call), call.target = 0 ∨ call ∈ ([] : List Call) := by simp
      exact awaited_grow walked none fun i t claimed => absurd claimed (not_claimed_untagged r i)
  unfold partition
  rw [run]
  exact settle_total built keeps settling (initially tags new walked)

theorem partition_total (built : r.Built) : ∃ m, partition r = .ok m ∧ Settling r m.tags m.regions [] := by
  have trivially : Keeps r fun _ _ _ => True := ⟨fun _ _ _ _ => trivial, fun _ _ _ _ => trivial⟩
  obtain ⟨m, run, settling, _⟩ := partition_keeps built trivially fun _ _ _ => trivial
  exact ⟨m, run, settling⟩

/-- With all calls settled, what is claimed is what the first instruction reaches within
    regions and over calls. -/
theorem Settling.claimed_iff (settling : Settling r tags regions []) {i : Nat} :
    Claimed tags i ↔ Relation.ReflTransGen (Onward r) 0 i := by
  refine ⟨settling.owned.grounded i, fun way => ?_⟩
  induction way with
  | refl =>
    obtain ⟨region, listed, entry⟩ := settling.main
    exact ⟨0, entry ▸ settling.owned.entries 0 region listed⟩
  | @tail j k _ pass ih =>
    rcases pass with inner | jsr
    · exact (settling.owned.closed j ih k inner).resolve_left List.not_mem_nil
    · exact (settling.awaited j k ih jsr).resolve_right (by simp)

/-- Every routine has a map of its regions. They are numbered in the order of the table,
    and the first starts at the first instruction. An instruction belongs to the first
    region whose entry reaches it, if there is one, and this is so just if control comes
    to it from the first instruction, within regions and over calls. A region owns its
    own entry, and its size is the number of instructions it owns. -/
theorem partition_exact {code : Array Instr} {ranges : List Range} {scope : Scope}
    (built : Routine.build code ranges scope = .ok r) :
    ∃ m, partition r = .ok m ∧ m.tags.size = r.size ∧
      (∀ (k : Nat) (region : Region), m.regions[k]? = some region → region.id = k) ∧
      (∃ main, m.regions[0]? = some main ∧ main.entry = 0) ∧
      (∀ i k : Nat, m.tags[i]? = some (some k) ↔
        IsLeast {k | ∃ region, m.regions[k]? = some region ∧ Relation.ReflTransGen (Intra r) region.entry i} k) ∧
      (∀ i < r.size, m.tags[i]? = some none ↔
        ∀ (k : Nat) (region : Region), m.regions[k]? = some region → ¬ Relation.ReflTransGen (Intra r) region.entry i) ∧
      (∀ i : Nat, (∃ k, m.tags[i]? = some (some k)) ↔
        Relation.ReflTransGen (fun i j => Intra r i j ∨ r.code[i]? = some (.jsr j)) 0 i) ∧
      (∀ (k : Nat) (region : Region), m.regions[k]? = some region → m.tags[region.entry]? = some (some k)) ∧
      ∀ (k : Nat) (region : Region), m.regions[k]? = some region →
        region.size = m.tags.count (some k) ∧ 1 ≤ region.size := by
  obtain ⟨m, run, settling⟩ := partition_total (built_of_build built)
  have owned := settling.owned
  refine ⟨m, run, owned.sized, owned.ids, settling.main, owned.owner, fun i inside => ?_, fun i => settling.claimed_iff,
    owned.entries, fun k region listed => ⟨owned.counts k region listed, ?_⟩⟩
  · have bound : i < m.tags.size := owned.sized ▸ inside
    have free : m.tags[i]? = some none ↔ ¬ Claimed m.tags i := by
      unfold Claimed
      rw [Array.getElem?_eq_getElem bound]
      cases m.tags[i] <;> simp
    rw [free, owned.claimed_iff]
    constructor
    · intro unreached k region listed way
      exact unreached ⟨k, region, listed, way⟩
    · rintro none ⟨k, region, listed, way⟩
      exact none k region listed way
  · rw [owned.counts k region listed]
    exact Array.count_pos_iff.mpr (Array.mem_of_getElem? (owned.entries k region listed))

/-- Two subroutines, at 4 and at 6, which share the code from 7 on and call the first of
    them again from there. Nothing leads to 3. -/
def shared : Result Routine := do
  let scope ← Scope.empty.declareAll [.local 0 Flags.none]
  Routine.build #[.jsr 4, .jsr 6, .return false, .goto 2, .store 0, .goto 7, .store 0, .jsr 4, .ret 0] [] scope

theorem shared_regions :
    ∃ r m, shared = .ok r ∧ partition r = .ok m ∧
      m.tags = #[some 0, some 0, some 0, none, some 1, some 1, some 2, some 1, some 1] ∧
      m.regions = #[⟨0, 0, [], 3⟩, ⟨1, 4, [0, 7], 4⟩, ⟨2, 6, [1], 1⟩] := by
  have computed : (do
      let r ← shared
      return (findRegion r (untagged r) 0 0,
        findRegion r #[some 0, some 0, some 0, none, none, none, none, none, none] 4 1,
        findRegion r #[some 0, some 0, some 0, none, some 1, some 1, none, some 1, some 1] 6 2) : Result _) =
      .ok ((#[some 0, some 0, some 0, none, none, none, none, none, none], .ok ⟨[0, 1, 2], [⟨0, 4⟩, ⟨1, 6⟩]⟩),
        (#[some 0, some 0, some 0, none, some 1, some 1, none, some 1, some 1], .ok ⟨[4, 5, 7, 8], [⟨7, 4⟩]⟩),
        (#[some 0, some 0, some 0, none, some 1, some 1, some 2, some 1, some 1], .ok ⟨[6], []⟩)) := by cbv
  obtain ⟨r, made, computed⟩ := bind_eq_ok.mp computed
  simp only [pure, Except.pure, Except.ok.injEq, Prod.mk.injEq] at computed
  obtain ⟨first, second, third⟩ := computed
  refine ⟨r, ⟨_, _⟩, made, ?_, rfl, rfl⟩
  unfold partition
  rw [first]
  refine (settle_free rfl second).trans ?_
  refine (settle_free rfl third).trans ?_
  exact (settle_owned rfl rfl).trans settle_nil

theorem partition_exact_shared :
    ∃ r m, shared = .ok r ∧ partition r = .ok m ∧
      IsLeast {k | ∃ region, m.regions[k]? = some region ∧ Relation.ReflTransGen (Intra r) region.entry 8} 1 ∧
      ¬ Relation.ReflTransGen (fun i j => Intra r i j ∨ r.code[i]? = some (.jsr j)) 0 3 := by
  obtain ⟨r, m, made, run, tags, _⟩ := shared_regions
  obtain ⟨scope, _, built⟩ := bind_eq_ok.mp made
  obtain ⟨m', run', _, _, _, owner, _, claimed, _⟩ := partition_exact built
  cases run.symm.trans run'
  refine ⟨r, m, made, run, (owner 8 1).mp (by rw [tags]; rfl), fun way => ?_⟩
  obtain ⟨k, contrary⟩ := (claimed 3).mpr way
  rw [tags] at contrary
  cases contrary

end StackFlow.Regions
