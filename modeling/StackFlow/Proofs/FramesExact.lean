import Mathlib
import StackFlow.Proofs.Executions
import StackFlow.Routine.Frames

/-!
The frames of a routine speak for all walks. While instructions are worked off, each
frame belongs to some walk, and an instruction that does not wait has handed frames of
the right shape to all that follow it (`Sound`). At the end nothing waits, so every walk
arrives with the shape that was found (`Sound.carried`). Conversely, as long as no walk
gets stuck and no two walks disagree, working off an instruction cannot fail
(`advance_total`). Together, frames are found just for the routines on which all walks
agree (`frames_exact`).
-/
namespace StackFlow

open Routine

namespace Survey

/-- What handing a frame to some instructions does to a survey. -/
structure Merged (incoming : Frame Value) (indices : List Nat) (s t : Survey) : Prop where
  size : t.frames.size = s.frames.size
  keeps : ∀ (i : Nat) (f : Frame Value), s.frames[i]? = some (some f) → t.frames[i]? = some (some f)
  waits : ∀ i ∈ s.pending, i ∈ t.pending
  queued : ∀ i ∈ t.pending, i ∈ s.pending ∨ i ∈ indices
  covered : ∀ j ∈ indices, ∃ f, t.frames[j]? = some (some f) ∧ f.sameShape incoming = true
  fresh : ∀ (i : Nat) (f : Frame Value), t.frames[i]? = some (some f) →
    s.frames[i]? = some (some f) ∨ i ∈ indices ∧ f = incoming ∧ i ∈ t.pending

variable {r : Routine} {incoming : Frame Value} {s t : Survey} {index : Nat}

theorem merged_nil (incoming : Frame Value) (s : Survey) : Merged incoming [] s s :=
  ⟨rfl, fun _ _ => id, fun _ => id, fun _ => .inl, by simp, fun _ _ => .inl⟩

/-- An instruction without a frame takes the one it is handed; a frame of the same shape
    changes nothing. -/
theorem merge_cases (incoming : Frame Value) (inside : index < s.frames.size) :
    (s.frames[index]? = some none ∧ merge incoming s index = .ok ⟨s.frames.set index (some incoming), s.pending ++ [index]⟩) ∨
    ∃ f, s.frames[index]? = some (some f) ∧ (merge incoming s index = .ok s ∧ f.sameShape incoming = true ∨
      (∃ e, merge incoming s index = .error e) ∧ ¬ f.sameShape incoming = true) := by
  have here : s.frames[index]? = some s.frames[index] := Array.getElem?_eq_getElem inside
  unfold merge
  rw [dif_pos inside, here]
  cases s.frames[index] with
  | none => exact .inl ⟨rfl, rfl⟩
  | some f =>
    refine .inr ⟨f, rfl, ?_⟩
    by_cases same : f.sameShape incoming = true
    · exact .inl ⟨by simp [same], same⟩
    · exact .inr ⟨⟨_, by simp only [same]; rfl⟩, same⟩

theorem merged_of_merge (run : merge incoming s index = .ok t) : Merged incoming [index] s t := by
  by_cases inside : index < s.frames.size
  · rcases merge_cases incoming inside with ⟨absent, set⟩ | ⟨f, present, ⟨kept, same⟩ | ⟨⟨e, failed⟩, _⟩⟩
    · cases run.symm.trans set
      refine ⟨Array.size_set inside, fun i f old => ?_, fun i => List.mem_append_left _, fun i => List.mem_append.mp, ?_,
        fun i f new => ?_⟩
      · rw [Array.getElem?_set]
        split
        · rename_i here
          cases (here ▸ absent).symm.trans old
        · exact old
      · intro j member
        rw [List.mem_singleton.mp member]
        exact ⟨incoming, Array.getElem?_set_self inside, by simp [Frame.sameShape]⟩
      · rw [Array.getElem?_set] at new
        split at new
        · rename_i here
          cases new
          exact .inr ⟨by simp [here], rfl, by simp [here]⟩
        · exact .inl new
    · cases run.symm.trans kept
      refine ⟨rfl, fun _ _ => id, fun _ => id, fun _ => .inl, fun j member => ?_, fun _ _ => .inl⟩
      rw [List.mem_singleton.mp member]
      exact ⟨f, present, same⟩
    · cases run.symm.trans failed
  · rw [merge, dif_neg inside] at run
    cases run

theorem Merged.append {u : Survey} {first rest : List Nat} (one : Merged incoming first s t)
    (other : Merged incoming rest t u) : Merged incoming (first ++ rest) s u := by
  refine ⟨other.size.trans one.size, ?_, ?_, ?_, fun j member => ?_, fun i f new => ?_⟩
  · intro i f old
    exact other.keeps i f (one.keeps i f old)
  · intro i waiting
    exact other.waits i (one.waits i waiting)
  · intro i waiting
    rcases other.queued i waiting with earlier | late
    · exact (one.queued i earlier).imp_right (List.mem_append_left _)
    · exact .inr (List.mem_append_right _ late)
  · rcases List.mem_append.mp member with early | late
    · obtain ⟨f, found, same⟩ := one.covered j early
      exact ⟨f, other.keeps j f found, same⟩
    · exact other.covered j late
  · rcases other.fresh i f new with old | ⟨late, same, waiting⟩
    · rcases one.fresh i f old with older | ⟨early, same, waiting⟩
      · exact .inl older
      · exact .inr ⟨List.mem_append_left _ early, same, other.waits i waiting⟩
    · exact .inr ⟨List.mem_append_right _ late, same, waiting⟩

theorem merged_of_foldlM {indices : List Nat} (run : indices.foldlM (merge incoming) s = .ok t) :
    Merged incoming indices s t := by
  induction indices generalizing s with
  | nil =>
    cases run
    exact merged_nil incoming _
  | cons index rest ih =>
    rw [List.foldlM_cons] at run
    obtain ⟨next, first, others⟩ := bind_eq_ok.mp run
    exact (merged_of_merge first).append (ih others)

/-- Handing on a frame succeeds where no frame of another shape is in the way. -/
theorem foldlM_merge_total (incoming : Frame Value) {indices : List Nat} (inside : ∀ j ∈ indices, j < s.frames.size)
    (agree : ∀ j ∈ indices, ∀ f, s.frames[j]? = some (some f) → f.sameShape incoming = true) :
    ∃ t, indices.foldlM (merge incoming) s = .ok t := by
  induction indices generalizing s with
  | nil => exact ⟨s, rfl⟩
  | cons index rest ih =>
    have first : ∃ t, merge incoming s index = .ok t := by
      rcases merge_cases incoming (inside index (by simp)) with
        ⟨_, set⟩ | ⟨f, present, ⟨kept, _⟩ | ⟨_, other⟩⟩
      · exact ⟨_, set⟩
      · exact ⟨s, kept⟩
      · exact absurd (agree index (by simp) f present) other
    obtain ⟨next, first⟩ := first
    have merged := merged_of_merge first
    obtain ⟨t, others⟩ := ih (s := next) (fun j member => merged.size ▸ inside j (by simp [member])) (by
      intro j member f found
      rcases merged.fresh j f found with old | ⟨_, rfl, _⟩
      · exact agree j (by simp [member]) f old
      · simp [Frame.sameShape])
    exact ⟨t, by rw [List.foldlM_cons]; exact bind_eq_ok.mpr ⟨next, first, others⟩⟩

/-- Some walk arrives at the instruction with the frame. -/
def Arrival (r : Routine) (locals i : Nat) (f : Frame Value) : Prop :=
  ∃ path, r.Walk path i ∧ r.simulate locals path = .ok f

/-- The instruction has handed a frame of the right shape to all that follow it. -/
def Settled (r : Routine) (s : Survey) (i : Nat) (f : Frame Value) : Prop :=
  ∀ passage, ∃ after, r.leave (fun _ => .unknown) .unknown f (i, passage) = .ok after ∧
    ∀ j, r.Passes i passage j → ∃ g, s.frames[j]? = some (some g) ∧ g.sameShape after = true

structure Sound (r : Routine) (locals : Nat) (s : Survey) : Prop where
  size : s.frames.size = r.size
  start : s.frames[0]? = some (some (Frame.filled .unknown locals 0))
  framed : ∀ i ∈ s.pending, ∃ f, s.frames[i]? = some (some f)
  arrived : ∀ (i : Nat) (f : Frame Value), s.frames[i]? = some (some f) → Arrival r locals i f
  settled : ∀ (i : Nat) (f : Frame Value), s.frames[i]? = some (some f) → i ∈ s.pending ∨ Settled r s i f

variable {locals : Nat}

theorem Arrival.onward {i j : Nat} {f g : Frame Value} {passage : Passage} (arrival : Arrival r locals i f)
    (pass : r.Passes i passage j) (left : r.leave (fun _ => .unknown) .unknown f (i, passage) = .ok g) :
    Arrival r locals j g := by
  obtain ⟨path, way, carried⟩ := arrival
  exact ⟨_, way.move pass, carry_snoc.mpr ⟨f, carried, left⟩⟩

theorem Merged.arrived {indices : List Nat} (merged : Merged incoming indices s t)
    (old : ∀ (i : Nat) (f : Frame Value), s.frames[i]? = some (some f) → Arrival r locals i f)
    (new : ∀ j ∈ indices, Arrival r locals j incoming) (i : Nat) (f : Frame Value) (found : t.frames[i]? = some (some f)) :
    Arrival r locals i f := by
  rcases merged.fresh i f found with before | ⟨member, rfl, _⟩
  · exact old i f before
  · exact new i member

theorem Merged.framed {indices : List Nat} (merged : Merged incoming indices s t)
    (old : ∀ i ∈ s.pending, ∃ f, s.frames[i]? = some (some f)) (i : Nat) (waiting : i ∈ t.pending) :
    ∃ f, t.frames[i]? = some (some f) := by
  rcases merged.queued i waiting with before | member
  · obtain ⟨f, found⟩ := old i before
    exact ⟨f, merged.keeps i f found⟩
  · obtain ⟨f, found, _⟩ := merged.covered i member
    exact ⟨f, found⟩

theorem Settled.mono (settled : Settled r s index incoming)
    (keeps : ∀ (i : Nat) (f : Frame Value), s.frames[i]? = some (some f) → t.frames[i]? = some (some f)) :
    Settled r t index incoming := by
  intro passage
  obtain ⟨after, left, handed⟩ := settled passage
  refine ⟨after, left, fun j pass => ?_⟩
  obtain ⟨g, found, same⟩ := handed j pass
  exact ⟨g, keeps j g found, same⟩

/-- What working off an instruction with a frame consists of. -/
theorem advance_eq (built : r.Built) {f : Frame Value} {instr : Instr} (framed : s.frames[index]? = some (some f))
    (listed : r.code[index]? = some instr) :
    advance r s index = f.step r.scope .unknown instr >>= fun after =>
      (normalTargets (returnPoints r.code) index instr).foldlM (merge after) s >>=
        (handlersAt r.ranges index).foldlM (merge (f.handlerEntry .unknown)) := by
  have decoded : r.instr index = .ok instr := fetch_eq_ok.mpr listed
  unfold advance
  simp only [fetch_eq_ok.mpr framed, decoded, built.normalSuccessors_of_getElem? listed,
    built.exceptionSuccessors_of_getElem? listed]
  rfl

/-- Both kinds of passages out of an instruction that is worked off. -/
theorem merged_of_advance (built : r.Built) {f : Frame Value} {instr : Instr}
    (framed : s.frames[index]? = some (some f)) (listed : r.code[index]? = some instr)
    (run : advance r s index = .ok t) :
    ∃ after u, f.step r.scope .unknown instr = .ok after ∧
      Merged after (normalTargets (returnPoints r.code) index instr) s u ∧
      Merged (f.handlerEntry .unknown) (handlersAt r.ranges index) u t := by
  rw [advance_eq built framed listed] at run
  obtain ⟨after, stepped, run⟩ := bind_eq_ok.mp run
  obtain ⟨u, normal, exceptional⟩ := bind_eq_ok.mp run
  exact ⟨after, u, stepped, merged_of_foldlM normal, merged_of_foldlM exceptional⟩

theorem Sound.getElem?_code (sound : Sound r locals s) {f : Frame Value} (framed : s.frames[index]? = some (some f)) :
    ∃ instr, r.code[index]? = some instr := by
  have inside : index < r.size := sound.size ▸ (Array.getElem?_eq_some_iff.mp framed).1
  exact ⟨_, Array.getElem?_eq_getElem inside⟩

/-- Working off an instruction keeps a survey sound. -/
theorem Sound.advance (built : r.Built) {rest : List Nat} (sound : Sound r locals s) (waiting : s.pending = index :: rest)
    (run : Survey.advance r { s with pending := rest } index = .ok t) : Sound r locals t := by
  obtain ⟨f, framed⟩ := sound.framed index (by simp [waiting])
  obtain ⟨instr, listed⟩ := sound.getElem?_code framed
  obtain ⟨after, u, stepped, normal, exceptional⟩ :=
    merged_of_advance built (s := { s with pending := rest }) framed listed run
  have arrival := sound.arrived index f framed
  have left : r.leave (fun _ => .unknown) .unknown f (index, .normal) = .ok after := (leave_normal listed).mpr stepped
  have keeps : ∀ (i : Nat) (g : Frame Value), s.frames[i]? = some (some g) → t.frames[i]? = some (some g) :=
    fun i g old => exceptional.keeps i g (normal.keeps i g old)
  refine ⟨(exceptional.size.trans normal.size).trans sound.size, keeps 0 _ sound.start, ?_, ?_, fun i g found => ?_⟩
  · exact exceptional.framed (normal.framed fun i later => sound.framed i (by rw [waiting]; exact List.mem_cons_of_mem _ later))
  · exact exceptional.arrived
      (normal.arrived sound.arrived fun j member => arrival.onward ((built.passes_normal listed).mpr member) left)
      fun j member => arrival.onward ((built.passes_exceptional listed).mpr member) rfl
  · rcases exceptional.fresh i g found with earlier | ⟨_, _, pending⟩
    · rcases normal.fresh i g earlier with old | ⟨_, _, pending⟩
      · rcases sound.settled i g old with pending | settled
        · rw [waiting] at pending
          rcases List.mem_cons.mp pending with rfl | later
          · -- The instruction itself: what it has just handed over is what settles it.
            cases framed.symm.trans old
            refine .inr fun passage => ?_
            cases passage with
            | normal =>
              refine ⟨after, left, fun j pass => ?_⟩
              obtain ⟨g, found, same⟩ := normal.covered j ((built.passes_normal listed).mp pass)
              exact ⟨g, exceptional.keeps j g found, same⟩
            | exceptional =>
              exact ⟨_, rfl, fun j pass => exceptional.covered j ((built.passes_exceptional listed).mp pass)⟩
          · exact .inl (exceptional.waits i (normal.waits i later))
        · exact .inr (settled.mono keeps)
      · exact .inl (exceptional.waits i pending)
    · exact .inl pending

theorem Sound.finish (built : r.Built) (sound : Sound r locals s) {frames : Array (Option (Frame Value))}
    (run : Survey.finish r s = .ok frames) : Sound r locals ⟨frames, []⟩ := by
  fun_induction Survey.finish r s with
  | case1 s pending =>
    cases run
    exact ⟨sound.size, sound.start, by simp, sound.arrived, fun i f found => pending ▸ sound.settled i f found⟩
  | case2 => cases run
  | case3 s index rest pending next advanced _ ih => exact ih (sound.advance built pending advanced) run

/-- When nothing waits, every walk arrives, with the shape of the frame that was found. -/
theorem Sound.carried (sound : Sound r locals s) (done : s.pending = []) {path : List (Nat × Passage)} {i : Nat}
    (way : r.Walk path i) :
    ∃ frame f, r.simulate locals path = .ok frame ∧ s.frames[i]? = some (some f) ∧ f.sameShape frame = true := by
  induction way with
  | start =>
    exact ⟨_, _, rfl, sound.start, by simp [Frame.sameShape]⟩
  | @move path i j passage way pass ih =>
    obtain ⟨frame, f, arrived, found, same⟩ := ih
    have settled : Settled r s i f := (sound.settled i f found).resolve_left (by simp [done])
    obtain ⟨after, left, handed⟩ := settled passage
    obtain ⟨next, left', shape⟩ := leave_shape same left (fun _ => .unknown) .unknown
    obtain ⟨g, there, same'⟩ := handed j pass
    exact ⟨next, g, carry_snoc.mpr ⟨frame, arrived, left'⟩, there, Frame.sameShape_trans same' shape⟩

/-- When nothing waits, an instruction can be executed on every frame of the shape that was
    found. -/
theorem Sound.step_total {α : Type} (sound : Sound r locals s) (done : s.pending = []) {i : Nat} {f : Frame Value}
    (found : s.frames[i]? = some (some f)) {frame : Frame α} (same : f.sameShape frame = true) (fresh : α) :
    ∃ instr next, r.code[i]? = some instr ∧ frame.step r.scope fresh instr = .ok next := by
  obtain ⟨instr, listed⟩ := sound.getElem?_code found
  have settled : Settled r s i f := (sound.settled i f found).resolve_left (by simp [done])
  obtain ⟨after, left, _⟩ := settled .normal
  obtain ⟨next, stepped, _⟩ := Frame.step_shape same ((leave_normal listed).mp left) fresh
  exact ⟨instr, next, listed, stepped⟩

/-- No walk gets stuck, and walks to one instruction agree on the depth of the stack. -/
structure Agreed (r : Routine) (locals : Nat) : Prop where
  runs : ∀ path i, r.Walk path i → ∃ frame instr next, r.simulate locals path = .ok frame ∧ r.code[i]? = some instr ∧
    frame.step r.scope .unknown instr = .ok next
  depths : ∀ path path' i frame frame', r.Walk path i → r.Walk path' i → r.simulate locals path = .ok frame →
    r.simulate locals path' = .ok frame' → frame.depth = frame'.depth

theorem Agreed.sameShape (agreed : Agreed r locals) {i : Nat} {f g : Frame Value} (one : Arrival r locals i f)
    (other : Arrival r locals i g) : f.sameShape g = true := by
  obtain ⟨path, way, carried⟩ := one
  obtain ⟨path', way', carried'⟩ := other
  refine Frame.sameShape_iff.mpr ⟨?_, agreed.depths path path' i f g way way' carried carried'⟩
  exact (carry_numLocals way carried).trans (carry_numLocals way' carried').symm

/-- Where walks agree, working off an instruction succeeds. -/
theorem Sound.advance_total (built : r.Built) (agreed : Agreed r locals) {rest : List Nat} (sound : Sound r locals s)
    (waiting : s.pending = index :: rest) : ∃ t, Survey.advance r { s with pending := rest } index = .ok t := by
  obtain ⟨f, framed⟩ := sound.framed index (by simp [waiting])
  obtain ⟨path, way, carried⟩ := sound.arrived index f framed
  have arrival : Arrival r locals index f := ⟨path, way, carried⟩
  obtain ⟨frame, instr, after, carried', listed, stepped⟩ := agreed.runs path index way
  cases carried.symm.trans carried'
  have left : r.leave (fun _ => .unknown) .unknown f (index, .normal) = .ok after := (leave_normal listed).mpr stepped
  have normal : ∀ j ∈ normalTargets (returnPoints r.code) index instr, r.Passes index .normal j :=
    fun j => (built.passes_normal listed).mpr
  have exceptional : ∀ j ∈ handlersAt r.ranges index, r.Passes index .exceptional j :=
    fun j => (built.passes_exceptional listed).mpr
  obtain ⟨u, first⟩ := foldlM_merge_total (s := { s with pending := rest }) after
    (fun j member => sound.size ▸ built.lt_of_passes (normal j member))
    (fun j member g found => agreed.sameShape (sound.arrived j g found) (arrival.onward (normal j member) left))
  have merged := merged_of_foldlM first
  have arrived := merged.arrived sound.arrived fun j member => arrival.onward (normal j member) left
  obtain ⟨t, second⟩ := foldlM_merge_total (s := u) (f.handlerEntry .unknown)
    (fun j member => merged.size ▸ sound.size ▸ built.lt_of_passes (exceptional j member))
    (fun j member g found => agreed.sameShape (arrived j g found) (arrival.onward (exceptional j member) rfl))
  refine ⟨t, ?_⟩
  rw [advance_eq built (s := { s with pending := rest }) framed listed]
  exact bind_eq_ok.mpr ⟨after, stepped, bind_eq_ok.mpr ⟨u, first, second⟩⟩

theorem Sound.finish_total (built : r.Built) (agreed : Agreed r locals) (sound : Sound r locals s) :
    ∃ frames, Survey.finish r s = .ok frames := by
  fun_induction Survey.finish r s with
  | case1 s pending => exact ⟨s.frames, rfl⟩
  | case2 s index rest pending e failed =>
    obtain ⟨t, advanced⟩ := sound.advance_total built agreed pending
    cases advanced.symm.trans failed
  | case3 s index rest pending next advanced _ ih => exact ih (sound.advance built pending advanced)

/-- A survey that has found all frames shows that the walks agree. -/
theorem Sound.agreed (sound : Sound r locals s) (done : s.pending = []) : Agreed r locals := by
  constructor
  · intro path i way
    obtain ⟨frame, f, arrived, found, same⟩ := sound.carried done way
    obtain ⟨instr, next, listed, stepped⟩ := sound.step_total done found same .unknown
    exact ⟨frame, instr, next, arrived, listed, stepped⟩
  · intro path path' i frame frame' way way' carried carried'
    obtain ⟨one, f, arrived, found, same⟩ := sound.carried done way
    obtain ⟨other, g, arrived', found', same'⟩ := sound.carried done way'
    cases arrived.symm.trans carried
    cases arrived'.symm.trans carried'
    cases found.symm.trans found'
    exact (Frame.sameShape_iff.mp same).2.symm.trans (Frame.sameShape_iff.mp same').2

/-- The survey with which the search for frames starts. -/
def initial (r : Routine) (locals : Nat) (nonempty : 0 < r.size) : Survey :=
  ⟨(Array.replicate r.size none).set 0 (some (Frame.filled .unknown locals 0)) (by simpa using nonempty), [0]⟩

theorem frames_eq (nonempty : 0 < r.size) (locals : Nat) : r.frames locals = finish r (initial r locals nonempty) := by
  unfold Routine.frames
  rw [replace_of_lt (by simpa using nonempty)]
  rfl

theorem sound_initial (locals : Nat) (nonempty : 0 < r.size) : Sound r locals (initial r locals nonempty) := by
  have only : ∀ (i : Nat) (f : Frame Value), (initial r locals nonempty).frames[i]? = some (some f) →
      i = 0 ∧ f = Frame.filled .unknown locals 0 := by
    intro i f found
    simp only [initial, Array.getElem?_set] at found
    split at found
    · rename_i here
      cases found
      exact ⟨here.symm, rfl⟩
    · rw [Array.getElem?_replicate] at found
      split at found <;> cases found
  have start : (initial r locals nonempty).frames[0]? = some (some (Frame.filled .unknown locals 0)) := by
    simp [initial]
  refine ⟨by simp [initial], start, fun i waiting => ?_, fun i f found => ?_, fun i f found => ?_⟩
  · rw [List.mem_singleton.mp waiting]
    exact ⟨_, start⟩
  · obtain ⟨rfl, rfl⟩ := only i f found
    exact ⟨[], .start, rfl⟩
  · obtain ⟨rfl, rfl⟩ := only i f found
    exact .inl List.mem_cons_self

theorem sound_of_frames (built : r.Built) {frames : Array (Option (Frame Value))} (found : r.frames locals = .ok frames) :
    Sound r locals ⟨frames, []⟩ := by
  rw [frames_eq built.nonempty] at found
  exact (sound_initial locals built.nonempty).finish built found

end Survey

/-- Frames are found just if no walk gets stuck at any of its instructions and walks that
    end at one instruction arrive with one depth of the stack. Then the instructions with a
    frame are those that can be reached, and their frames have the given number of locals
    and the depth with which all walks arrive. -/
theorem frames_exact {code : Array Instr} {ranges : List Range} {scope : Scope} {r : Routine}
    (built : Routine.build code ranges scope = .ok r) (locals : Nat) :
    ((∃ frames, r.frames locals = .ok frames) ↔
      (∀ path i, r.Walk path i → ∃ frame instr next, r.simulate locals path = .ok frame ∧ r.code[i]? = some instr ∧
        frame.step r.scope .unknown instr = .ok next) ∧
      ∀ path path' i frame frame', r.Walk path i → r.Walk path' i → r.simulate locals path = .ok frame →
        r.simulate locals path' = .ok frame' → frame.depth = frame'.depth) ∧
    ∀ frames, r.frames locals = .ok frames → frames.size = r.size ∧ ∀ i,
      ((∃ frame, frames[i]? = some (some frame)) ↔ Relation.ReflTransGen r.flow.Edge 0 i) ∧
      ∀ frame, frames[i]? = some (some frame) → frame.numLocals = locals ∧
        ∀ path, r.Walk path i → ∃ arriving, r.simulate locals path = .ok arriving ∧ arriving.depth = frame.depth := by
  have checked := built_of_build built
  refine ⟨⟨?_, ?_⟩, fun frames found => ?_⟩
  · rintro ⟨frames, found⟩
    obtain ⟨runs, depths⟩ := (Survey.sound_of_frames checked found).agreed rfl
    exact ⟨runs, depths⟩
  · rintro ⟨runs, depths⟩
    rw [Survey.frames_eq checked.nonempty]
    exact (Survey.sound_initial locals checked.nonempty).finish_total checked ⟨runs, depths⟩
  · have sound := Survey.sound_of_frames checked found
    refine ⟨sound.size, fun i => ⟨?_, fun frame framed => ⟨?_, fun path way => ?_⟩⟩⟩
    · rw [← checked.exists_walk_iff]
      constructor
      · rintro ⟨frame, framed⟩
        obtain ⟨path, way, _⟩ := sound.arrived i frame framed
        exact ⟨path, way⟩
      · rintro ⟨path, way⟩
        obtain ⟨_, frame, _, framed, _⟩ := sound.carried rfl way
        exact ⟨frame, framed⟩
    · obtain ⟨path, way, carried⟩ := sound.arrived i frame framed
      exact carry_numLocals way carried
    · obtain ⟨arriving, other, carried, framed', same⟩ := sound.carried rfl way
      cases framed.symm.trans framed'
      exact ⟨arriving, carried, (Frame.sameShape_iff.mp same).2.symm⟩

/-- A loop around a store that is protected by the handler at 5. The handler drops the
    exception and goes back to the branch at 2. -/
def guarded : Result Routine := do
  let scope ← Scope.empty.declareAll [.local 0 Flags.none]
  Routine.build #[.pushConst, .store 0, .load 0, .branch 0 1, .return false, .pop, .goto 2] [⟨1, 2, 5⟩] scope

theorem frames_exact_guarded :
    ∃ r frames, guarded = .ok r ∧ r.frames 1 = .ok frames ∧
      (∀ path, r.Walk path 2 → ∃ arriving, r.simulate 1 path = .ok arriving ∧ arriving.depth = 0) ∧
      ∀ path, r.Walk path 5 → ∃ arriving, r.simulate 1 path = .ok arriving ∧ arriving.depth = 1 := by
  have computed : (do
      let r ← guarded
      let frames ← r.frames 1
      return (frames[2]?, frames[5]?) : Result _) =
        .ok (some (some ⟨#[.unknown], #[]⟩), some (some ⟨#[.unknown], #[.unknown]⟩)) := by cbv
  obtain ⟨r, made, computed⟩ := bind_eq_ok.mp computed
  obtain ⟨frames, found, computed⟩ := bind_eq_ok.mp computed
  simp only [pure, Except.pure, Except.ok.injEq, Prod.mk.injEq] at computed
  obtain ⟨branch, handler⟩ := computed
  obtain ⟨scope, _, built⟩ := bind_eq_ok.mp made
  obtain ⟨_, each⟩ := (frames_exact built 1).2 frames found
  exact ⟨r, frames, made, found, ((each 2).2 _ branch).2, ((each 5).2 _ handler).2⟩

end StackFlow
