import Mathlib
import StackFlow.Proofs.RegionOwnership

/-!
Which calls a region lists. A call waits from the walk that meets it until it is settled,
and it is then listed with the region that has its target (`Listed`): the one that had it
already, or the one that starts there. No call is met twice, since a walk meets just the
calls that it claims. So when nothing waits any more, every call out of claimed code is
listed once in the whole table (`callers_exact`).
-/
namespace StackFlow.Regions

open Routine

/-- A call from `s` into the region `k` that has been met and does not wait any more. -/
def Settled (r : Routine) (tags : Array (Option Nat)) (pending : List Call) (s k : Nat) : Prop :=
  ∃ t, r.code[s]? = some (.jsr t) ∧ Claimed tags s ∧ tags[t]? = some (some k) ∧ ⟨s, t⟩ ∉ pending

/-- The region `k` lists its settled calls, each of them once. -/
structure Lists (r : Routine) (tags : Array (Option Nat)) (pending : List Call) (k : Nat) (region : Region) : Prop where
  callers : ∀ s, s ∈ region.callers ↔ Settled r tags pending s k
  once : region.callers.Nodup
  called : k ≠ 0 → region.callers ≠ []

structure Listed (r : Routine) (tags : Array (Option Nat)) (regions : Array Region) (pending : List Call) : Prop where
  distinct : pending.Nodup
  met : ∀ s t, r.code[s]? = some (.jsr t) → Claimed tags s → ⟨s, t⟩ ∈ pending ∨ Claimed tags t
  lists : ∀ (k : Nat) (region : Region), regions[k]? = some region → Lists r tags pending k region

theorem mem_note {site s : Nat} {region : Region} : s ∈ (note site region).callers ↔ s ∈ region.callers ∨ s = site := by
  unfold note
  by_cases known : region.callers.contains site = true
  · rw [if_pos known]
    have listed : site ∈ region.callers := List.contains_iff_mem.mp known
    exact ⟨.inl, fun either => either.elim id fun same => same ▸ listed⟩
  · rw [if_neg known]
    simp

theorem nodup_note {region : Region} (once : region.callers.Nodup) (site : Nat) : (note site region).callers.Nodup := by
  unfold note
  by_cases known : region.callers.contains site = true
  · rw [if_pos known]
    exact once
  · rw [if_neg known]
    refine List.nodup_append.mpr ⟨once, List.nodup_singleton site, ?_⟩
    rintro s listed _ last rfl
    exact known (List.contains_iff_mem.mpr (List.mem_singleton.mp last ▸ listed))

variable {r : Routine} {tags after : Array (Option Nat)} {regions noted : Array Region} {call : Call} {rest : List Call}
  {owner k s : Nat} {new : List Nat}

/-- The table after a call has been listed with a region. -/
theorem getElem?_of_addCaller {site : Nat} (inside : owner < regions.size) (added : addCaller regions owner site = .ok noted)
    {region : Region} (listed : noted[k]? = some region) :
    ∃ old, regions[k]? = some old ∧ region = if owner = k then note site old else old := by
  cases (addCaller_eq inside site).symm.trans added
  rw [Array.getElem?_modify] at listed
  split at listed
  · rename_i here
    obtain ⟨old, found, same⟩ := Option.map_eq_some_iff.mp listed
    exact ⟨old, found, by rw [if_pos here, same]⟩
  · rename_i elsewhere
    exact ⟨region, listed, by rw [if_neg elsewhere]⟩

/-- Settling a call whose target has a region. -/
theorem settled_skip (jsr : r.code[call.site]? = some (.jsr call.target)) (site : Claimed tags call.site)
    (target : tags[call.target]? = some (some owner)) (apart : call ∉ rest) :
    Settled r tags rest s k ↔ Settled r tags (call :: rest) s k ∨ owner = k ∧ s = call.site := by
  constructor
  · rintro ⟨t, listed, claimed, tagged, gone⟩
    by_cases here : (⟨s, t⟩ : Call) = call
    · subst here
      cases target.symm.trans tagged
      exact .inr ⟨rfl, rfl⟩
    · exact .inl ⟨t, listed, claimed, tagged, fun waits => (List.mem_cons.mp waits).elim here gone⟩
  · rintro (⟨t, listed, claimed, tagged, gone⟩ | ⟨rfl, rfl⟩)
    · exact ⟨t, listed, claimed, tagged, fun waits => gone (List.mem_cons_of_mem _ waits)⟩
    · exact ⟨call.target, jsr, site, target, apart⟩

theorem Listed.skip (settling : Settling r tags regions (call :: rest)) (inv : Listed r tags regions (call :: rest))
    (target : tags[call.target]? = some (some owner)) (added : addCaller regions owner call.site = .ok noted) :
    Listed r tags noted rest := by
  obtain ⟨jsr, site⟩ := settling.noted call List.mem_cons_self
  obtain ⟨apart, distinct⟩ := List.nodup_cons.mp inv.distinct
  have inside := settling.owned.lt_of_tag target
  refine ⟨distinct, ?_, ?_⟩
  · intro s t listed claimed
    rcases inv.met s t listed claimed with waits | reached
    · rcases List.mem_cons.mp waits with rfl | later
      · exact .inr ⟨owner, target⟩
      · exact .inl later
    · exact .inr reached
  · intro k region listed
    obtain ⟨old, found, rfl⟩ := getElem?_of_addCaller inside added listed
    have before := inv.lists k old found
    by_cases here : owner = k
    · rw [if_pos here]
      refine ⟨fun s => ?_, nodup_note before.once call.site, fun _ => List.ne_nil_of_mem (mem_note.mpr (.inr rfl))⟩
      rw [mem_note, before.callers, settled_skip jsr site target apart, and_iff_right here]
    · rw [if_neg here]
      refine ⟨fun s => ?_, before.once, before.called⟩
      rw [before.callers, settled_skip jsr site target apart, or_iff_left fun both => here both.1]

/-- A call from code that has just been claimed waits. -/
theorem waits_of_new {t : Nat} (jsr : r.code[s]? = some (.jsr t)) (member : s ∈ new) :
    (⟨s, t⟩ : Call) ∈ rest ++ new.flatMap (callsAt r) :=
  List.mem_append_right _ (mem_newCalls.mpr ⟨member, jsr⟩)

/-- A walk for a new region leaves the settled calls of the others as they are. -/
theorem settled_grow_old {size entry : Nat} (walked : Walked r size [entry] tags after new) (other : k ≠ size)
    (unclaimed : ¬ Claimed tags call.target) :
    Settled r after (rest ++ new.flatMap (callsAt r)) s k ↔ Settled r tags (call :: rest) s k := by
  constructor
  · rintro ⟨t, jsr, claimed, tagged, gone⟩
    have old : tags[t]? = some (some k) := ((walked.tag t k).mp tagged).resolve_right fun both => other both.1
    rcases walked.claimed.mp claimed with before | member
    · refine ⟨t, jsr, before, old, fun waits => ?_⟩
      rcases List.mem_cons.mp waits with rfl | later
      · exact unclaimed ⟨k, old⟩
      · exact gone (List.mem_append_left _ later)
    · exact absurd (waits_of_new jsr member) gone
  · rintro ⟨t, jsr, claimed, tagged, gone⟩
    refine ⟨t, jsr, walked.claimed.mpr (.inl claimed), (walked.tag t k).mpr (.inl tagged), fun waits => ?_⟩
    rcases List.mem_append.mp waits with later | met
    · exact gone (List.mem_cons_of_mem _ later)
    · exact not_claimed (walked.free s (mem_newCalls.mp met).1) claimed

/-- The new region has one settled call, the one it was found by. -/
theorem settled_grow_new (settling : Settling r tags regions (call :: rest)) (inv : Listed r tags regions (call :: rest))
    (unclaimed : ¬ Claimed tags call.target) (walked : Walked r regions.size [call.target] tags after new) :
    Settled r after (rest ++ new.flatMap (callsAt r)) s regions.size ↔ s = call.site := by
  obtain ⟨jsr, site⟩ := settling.noted call List.mem_cons_self
  have apart := (List.nodup_cons.mp inv.distinct).1
  constructor
  · rintro ⟨t, listed, claimed, tagged, gone⟩
    rcases walked.claimed.mp claimed with before | member
    · rcases inv.met s t listed before with waits | ⟨id, old⟩
      · rcases List.mem_cons.mp waits with rfl | later
        · rfl
        · exact absurd (List.mem_append_left _ later) gone
      · -- the target had a region before, which is not the new one
        have same := (walked.tag t id).mpr (.inl old)
        cases same.symm.trans tagged
        exact absurd (settling.owned.lt_of_tag old) (Nat.lt_irrefl _)
    · exact absurd (waits_of_new listed member) gone
  · rintro rfl
    have target : call.target ∈ new :=
      (walked.claimed.mp (walked.covered call.target (by simp))).resolve_left unclaimed
    refine ⟨call.target, jsr, walked.claimed.mpr (.inl site), (walked.tag _ _).mpr (.inr ⟨rfl, target⟩), fun waits => ?_⟩
    rcases List.mem_append.mp waits with later | met
    · exact apart later
    · exact not_claimed (walked.free call.site (mem_newCalls.mp met).1) site

theorem nodup_newCalls (distinct : new.Nodup) : (new.flatMap (callsAt r)).Nodup := by
  refine List.nodup_flatMap.mpr ⟨fun i _ => ?_, distinct.imp fun {i j} apart call here there => ?_⟩
  · unfold callsAt
    cases r.code[i]? with
    | none => exact List.nodup_nil
    | some instr => cases instr <;> simp [callsOf]
  · exact apart ((mem_callsAt.mp here).1.symm.trans (mem_callsAt.mp there).1)

theorem Listed.grow (settling : Settling r tags regions (call :: rest)) (inv : Listed r tags regions (call :: rest))
    (unclaimed : ¬ Claimed tags call.target) (walked : Walked r regions.size [call.target] tags after new) :
    Listed r after (regions.push ⟨regions.size, call.target, [call.site], new.length⟩) (rest ++ new.flatMap (callsAt r)) := by
  have distinct := (List.nodup_cons.mp inv.distinct).2
  refine ⟨?_, ?_, ?_⟩
  · refine List.nodup_append.mpr ⟨distinct, nodup_newCalls walked.nodup, ?_⟩
    rintro other later _ met rfl
    have claimed := (settling.noted other (List.mem_cons_of_mem _ later)).2
    exact not_claimed (walked.free other.site (mem_newCalls.mp met).1) claimed
  · intro s t jsr claimed
    rcases walked.claimed.mp claimed with before | member
    · rcases inv.met s t jsr before with waits | reached
      · rcases List.mem_cons.mp waits with rfl | later
        · exact .inr (walked.covered t (by simp))
        · exact .inl (List.mem_append_left _ later)
      · exact .inr (walked.claimed.mpr (.inl reached))
    · exact .inl (waits_of_new jsr member)
  · intro k region listed
    rw [Array.getElem?_push] at listed
    split at listed
    · rename_i last
      cases listed
      refine ⟨fun s => ?_, List.nodup_singleton _, fun _ => List.cons_ne_nil _ _⟩
      rw [last, settled_grow_new settling inv unclaimed walked]
      exact List.mem_singleton
    · rename_i other
      have before := inv.lists k region listed
      refine ⟨fun s => ?_, before.once, before.called⟩
      rw [settled_grow_old walked other unclaimed]
      exact before.callers s

theorem keeps_listed (r : Routine) : Keeps r (Listed r) := ⟨Listed.skip, Listed.grow⟩

/-- After the first walk, all calls that it has met wait. -/
theorem listed_start (walked : Walked r 0 [0] (untagged r) tags new) :
    Listed r tags #[⟨0, 0, [], new.length⟩] (new.flatMap (callsAt r)) := by
  have waits : ∀ s t, r.code[s]? = some (.jsr t) → Claimed tags s → (⟨s, t⟩ : Call) ∈ new.flatMap (callsAt r) := by
    intro s t jsr claimed
    have member := (walked.claimed.mp claimed).resolve_left (not_claimed_untagged r s)
    exact mem_newCalls.mpr ⟨member, jsr⟩
  refine ⟨nodup_newCalls walked.nodup, fun s t jsr claimed => .inl (waits s t jsr claimed), fun k region listed => ?_⟩
  cases k with
  | zero =>
    cases listed
    refine ⟨fun s => iff_of_false List.not_mem_nil ?_, List.nodup_nil, fun other => absurd rfl other⟩
    rintro ⟨t, jsr, claimed, _, gone⟩
    exact gone (waits s t jsr claimed)
  | succ k => simp at listed

/-- The calls in the map of the regions of a routine. A region lists just the subroutine
    calls of claimed code whose targets belong to it, each of them once. So every such call
    is listed with one region, and no region but the main one is without calls. -/
theorem callers_exact {code : Array Instr} {ranges : List Range} {scope : Scope}
    (built : Routine.build code ranges scope = .ok r) :
    ∃ m, partition r = .ok m ∧
      (∀ (k : Nat) (region : Region), m.regions[k]? = some region → ∀ s, s ∈ region.callers ↔
        ∃ t, r.code[s]? = some (.jsr t) ∧ (∃ id, m.tags[s]? = some (some id)) ∧ m.tags[t]? = some (some k)) ∧
      (∀ (k : Nat) (region : Region), m.regions[k]? = some region → region.callers.Nodup) ∧
      (∀ s t : Nat, r.code[s]? = some (.jsr t) → (∃ id, m.tags[s]? = some (some id)) →
        ∃! k : Nat, ∃ region : Region, m.regions[k]? = some region ∧ s ∈ region.callers) ∧
      ∀ (k : Nat) (region : Region), m.regions[k]? = some region → k ≠ 0 → region.callers ≠ [] := by
  obtain ⟨m, run, settling, inv⟩ := partition_keeps (built_of_build built) (keeps_listed r) fun _ _ => listed_start
  have callers : ∀ (k : Nat) (region : Region), m.regions[k]? = some region → ∀ s, s ∈ region.callers ↔
      ∃ t, r.code[s]? = some (.jsr t) ∧ Claimed m.tags s ∧ m.tags[t]? = some (some k) := by
    intro k region listed s
    rw [(inv.lists k region listed).callers]
    simp [Settled]
  refine ⟨m, run, callers, fun k region listed => (inv.lists k region listed).once, fun s t jsr claimed => ?_,
    fun k region listed => (inv.lists k region listed).called⟩
  obtain ⟨k, tagged⟩ := (inv.met s t jsr claimed).resolve_left List.not_mem_nil
  have inside := settling.owned.lt_of_tag tagged
  have listed : m.regions[k]? = some m.regions[k] := Array.getElem?_eq_getElem inside
  refine ⟨k, ⟨_, listed, (callers k _ listed s).mpr ⟨t, jsr, claimed, tagged⟩⟩, ?_⟩
  rintro other ⟨region, listed', member⟩
  obtain ⟨t', jsr', _, tagged'⟩ := (callers other region listed' s).mp member
  cases jsr.symm.trans jsr'
  cases tagged.symm.trans tagged'
  rfl

theorem callers_exact_shared :
    ∃ r m, shared = .ok r ∧ partition r = .ok m ∧ r.code[7]? = some (.jsr 4) ∧
      (∃! k : Nat, ∃ region : Region, m.regions[k]? = some region ∧ 7 ∈ region.callers) ∧
      ∀ region : Region, m.regions[2]? = some region → region.callers ≠ [] ∧ 7 ∉ region.callers := by
  obtain ⟨r, m, made, run, tags, regions⟩ := shared_regions
  obtain ⟨scope, _, built⟩ := bind_eq_ok.mp made
  obtain ⟨m', run', callers, _, unique, called⟩ := callers_exact built
  cases run.symm.trans run'
  have jsr : r.code[7]? = some (.jsr 4) := by
    obtain ⟨_, _, _, _, _, _, _, rfl⟩ := build_eq_ok.mp built
    rfl
  refine ⟨r, m, made, run, jsr, unique 7 4 jsr ⟨1, by rw [tags]; rfl⟩, fun region listed => ⟨called 2 region listed (by decide), ?_⟩⟩
  intro member
  obtain ⟨t, jsr', _, tagged⟩ := (callers 2 region listed 7).mp member
  cases jsr.symm.trans jsr'
  rw [tags] at tagged
  cases tagged

end StackFlow.Regions
