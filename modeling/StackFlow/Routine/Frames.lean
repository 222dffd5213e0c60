import StackFlow.Frame.Step
import StackFlow.Routine.Basic

/-!
A frame for every reachable instruction. Control starts at the first instruction
with an empty stack; each instruction hands its result to its normal successors,
and the locals it found to its handlers. All ways to an instruction have to agree
on the shape of its frame; the first frame that arrives is kept.
-/
namespace StackFlow

/-- Frames found so far, and the instructions whose successors are still to do. -/
structure Survey where
  frames : Array (Option (Frame Value))
  pending : List Nat

namespace Survey

/-- Hands a frame to an instruction. -/
def merge (incoming : Frame Value) (s : Survey) (index : Nat) : Result Survey :=
  if inside : index < s.frames.size then
    match s.frames[index] with
    | some existing =>
      if existing.sameShape incoming then .ok s
      else reject (.depthMismatch index existing.depth incoming.depth)
    | none => .ok ⟨s.frames.set index (some incoming), s.pending ++ [index]⟩
  else abort (.outOfRange index s.frames.size)

/-- Passes control on from an instruction whose frame is known. -/
def advance (r : Routine) (s : Survey) (index : Nat) : Result Survey := do
  match ← fetch s.frames index with
  | none => return s
  | some before =>
    let after ← before.step r.scope .unknown (← r.instr index)
    let s ← (← r.normalSuccessors index).foldlM (merge after) s
    (← r.exceptionSuccessors index).foldlM (merge (before.handlerEntry .unknown)) s

/-- Instructions without a frame, and instructions still to do. -/
def weight (s : Survey) : Nat := s.frames.countP Option.isNone + s.pending.length

theorem weight_merge {incoming : Frame Value} {s t : Survey} {index : Nat} (run : merge incoming s index = .ok t) :
    t.weight = s.weight := by
  unfold merge at run
  split at run
  · rename_i inside
    split at run
    · split at run
      · cases run; rfl
      · cases run
    · rename_i absent
      cases run
      have some : 0 < s.frames.countP Option.isNone :=
        Array.countP_pos_iff.mpr ⟨s.frames[index], Array.getElem_mem inside, by simp [absent]⟩
      rw [weight, weight, Array.countP_set, absent, List.length_append]
      change s.frames.countP Option.isNone - 1 + 0 + (s.pending.length + 1) = _
      omega
  · cases run

theorem weight_foldlM {incoming : Frame Value} {indices : List Nat} {s t : Survey}
    (run : indices.foldlM (merge incoming) s = .ok t) : t.weight = s.weight := by
  induction indices generalizing s with
  | nil => cases run; rfl
  | cons index rest ih =>
    rw [List.foldlM_cons] at run
    obtain ⟨next, first, others⟩ := bind_eq_ok.mp run
    exact (ih others).trans (weight_merge first)

theorem weight_advance {r : Routine} {s t : Survey} {index : Nat} (run : advance r s index = .ok t) :
    t.weight = s.weight := by
  obtain ⟨found, _, run⟩ := bind_eq_ok.mp run
  cases found with
  | none => cases run; rfl
  | some before =>
    obtain ⟨_, _, run⟩ := bind_eq_ok.mp run
    obtain ⟨_, _, run⟩ := bind_eq_ok.mp run
    obtain ⟨_, _, run⟩ := bind_eq_ok.mp run
    obtain ⟨next, normal, run⟩ := bind_eq_ok.mp run
    obtain ⟨_, _, exceptional⟩ := bind_eq_ok.mp run
    exact (weight_foldlM exceptional).trans (weight_foldlM normal)

/-- Works off the pending instructions, first come first served. -/
def finish (r : Routine) (s : Survey) : Result (Array (Option (Frame Value))) :=
  match pending : s.pending with
  | [] => .ok s.frames
  | index :: rest =>
    match run : advance r { s with pending := rest } index with
    | .error e => .error e
    | .ok next =>
      have lighter : next.weight < s.weight := by
        rw [weight_advance run, weight, weight, pending]
        exact Nat.lt_succ_self _
      finish r next
termination_by s.weight

end Survey

/-- The frame before each instruction; none where control does not arrive. -/
def Routine.frames (r : Routine) (locals : Nat) : Result (Array (Option (Frame Value))) := do
  let start ← replace (Array.replicate r.size none) 0 (some (Frame.filled .unknown locals 0))
  Survey.finish r ⟨start, [0]⟩

end StackFlow
