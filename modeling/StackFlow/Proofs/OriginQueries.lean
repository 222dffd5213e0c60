import StackFlow.Proofs.FramesExact
import StackFlow.Proofs.OriginTrails
import StackFlow.Proofs.SafeRuns

/-!
The questions that the trace asks of the frames, and when they have an answer. The trace
asks where a value comes from only in a location that the next instruction's frame has
(`brought_of_reached`). For the frames of a routine, that location exists after the
instruction which brings the value (`source_of_brings`): frames along normal passages
agree in shape, exceptions keep the locals, and stack cells are not followed back over
exceptions. So what can be wrong with these frames is only a returned value too high on
the stack to have a location (`origins_malformed_iff`).
-/
namespace StackFlow.Origins

open Worklist Routine

variable {r : Routine} {frames : Array (Option (Frame Value))} {config : Config} {kind : Failure → Prop}

theorem valueSources_total (built : r.Built) {j : Nat} (inside : j < r.size) (place : Location) :
    ∃ sources, valueSources r j place = .ok sources := by
  unfold valueSources
  split
  · exact built.normalPredecessors_total inside
  · exact built.predecessors_total inside

theorem lt_of_brings (built : r.Built) {i j : Nat} {place : Location} (brings : Brings r i j place) : i < r.size := by
  obtain ⟨passage, pass⟩ := built.edge_iff.mp brings.1
  obtain ⟨instr, listed⟩ := built.getElem?_of_passes pass
  exact (Array.getElem?_eq_some_iff.mp listed).1

/-- Where the trace arrives, it comes from an instruction whose frame has the location. -/
theorem brought_of_reached (built : r.Built) {items : List (Nat × Location)} (found : seeds r frames = .ok items)
    {item : Nat × Location} (reached : Reached (problem r config frames) items item) :
    ∃ j frame, frames[j]? = some (some frame) ∧ frame.Has item.2 ∧ Brings r item.1 j item.2 := by
  cases reached with
  | seed given =>
    obtain ⟨j, ⟨_, frame, framed, top⟩, brings⟩ := (mem_seeds built found).mp given
    exact ⟨j, frame, framed, Frame.has_top top, brings⟩
  | @sent later _ flow source becomes target =>
    obtain ⟨⟨instr, frame, _, framed, moved⟩, brings⟩ := (mem_sends built becomes).mp target
    exact ⟨later.1, frame, framed, Frame.has_of_source moved, brings⟩

theorem lt_of_reached (built : r.Built) {items : List (Nat × Location)} (found : seeds r frames = .ok items)
    {item : Nat × Location} (reached : Reached (problem r config frames) items item) : item.1 < r.size := by
  obtain ⟨_, _, _, _, brings⟩ := brought_of_reached built found reached
  exact lt_of_brings built brings

theorem provenance_failsOnly (sized : frames.size = r.size) {i : Nat} (inside : i < r.size) {after : Location}
    (asked : ∀ frame instr, frames[i]? = some (some frame) → r.code[i]? = some instr →
      FailsOnly kind (frame.source r.scope instr after)) : FailsOnly kind (provenance r frames i after) := by
  have bound : i < frames.size := sized.symm ▸ inside
  refine (FailsOnly.of_total ⟨_, fetch_of_lt bound⟩).bind fun framed found => ?_
  cases framed with
  | none => exact .ok _
  | some frame =>
    refine (FailsOnly.of_total ⟨_, fetch_of_lt inside⟩).bind fun instr decoded => ?_
    refine (asked frame instr (fetch_eq_ok.mp found) (fetch_eq_ok.mp decoded)).bind fun source _ => ?_
    cases source <;> exact .ok _

/-- A step of the trace fails only as its question does. -/
theorem transfer_failsOnly (built : r.Built) (sized : frames.size = r.size) {i : Nat} (inside : i < r.size)
    {after : Location} (asked : ∀ frame instr, frames[i]? = some (some frame) → r.code[i]? = some instr →
      FailsOnly kind (frame.source r.scope instr after)) : FailsOnly kind (transfer r frames i after) := by
  refine (provenance_failsOnly sized inside asked).bind fun origin _ => ?_
  cases origin with
  | unreached | made => exact .ok _
  | moved before =>
    dsimp only
    split
    · refine (FailsOnly.of_total (valueSources_total built inside before)).bind fun sources _ => ?_
      cases sources <;> exact .ok _
    · refine (FailsOnly.of_total ⟨_, fetch_of_lt inside⟩).bind fun instr _ => ?_
      split <;> exact .ok _

/-- The trace can start unless a returned value has no location. -/
theorem seedsAt_failsOnly (built : r.Built) (sized : frames.size = r.size) {i : Nat} {instr : Instr}
    (listed : r.code[i]? = some instr)
    (empty : ∀ frame : Frame Value, instr = .return true → frames[i]? = some (some frame) → frame.top = none →
      kind (.error (.malformed (.emptyReturn i)))) : FailsOnly kind (seedsAt r frames i instr) := by
  have inside : i < r.size := (Array.getElem?_eq_some_iff.mp listed).1
  have bound : i < frames.size := sized.symm ▸ inside
  unfold seedsAt
  split
  · refine (FailsOnly.of_total ⟨_, fetch_of_lt bound⟩).bind fun framed found => ?_
    cases framed with
    | none => exact .ok _
    | some frame =>
      dsimp only
      split
      · rename_i top
        rintro e ⟨⟩
        exact empty frame rfl (fetch_eq_ok.mp found) top
      · exact (FailsOnly.of_total (valueSources_total built inside _)).bind fun sources _ => .ok _
  · exact .ok _

theorem seeds_failsOnly (built : r.Built) (sized : frames.size = r.size)
    (empty : ∀ (i : Nat) (frame : Frame Value), r.code[i]? = some (.return true) → frames[i]? = some (some frame) →
      frame.top = none → kind (.error (.malformed (.emptyReturn i)))) : FailsOnly kind (seeds r frames) := by
  refine FailsOnly.bind (.mapM ?_) fun lists _ => .ok _
  rintro ⟨instr, i⟩ member
  rw [List.mk_mem_zipIdx_iff_getElem?, Array.getElem?_toList] at member
  exact seedsAt_failsOnly built sized member fun frame returns => empty i frame (returns ▸ member)

theorem seeds_malformed (built : r.Built) (sized : frames.size = r.size) : FailsOnly Failure.Malformed (seeds r frames) :=
  seeds_failsOnly built sized fun _ _ _ _ _ => ⟨_, rfl⟩

theorem resultOrigins_of_error (sized : frames.size = r.size) {e : Failure} (failed : seeds r frames = .error e)
    (config : Config) (check : Option Check) : (resultOrigins r config check frames).result = .error e := by
  unfold resultOrigins
  rw [if_pos sized, failed]

theorem top_of_seeds {items : List (Nat × Location)} (found : seeds r frames = .ok items) {i : Nat} {frame : Frame Value}
    (listed : r.code[i]? = some (.return true)) (framed : frames[i]? = some (some frame)) : frame.top ≠ none := by
  obtain ⟨lists, each, _⟩ := bind_eq_ok.mp found
  have member : (.return true, i) ∈ r.code.toList.zipIdx := by
    rw [List.mk_mem_zipIdx_iff_getElem?, Array.getElem?_toList]
    exact listed
  obtain ⟨n, place⟩ := List.mem_iff_getElem?.mp member
  obtain ⟨mine, _, ran⟩ := entry_of_mapM each place
  intro top
  unfold seedsAt at ran
  simp only [fetch_eq_ok.mpr framed, top, reject, bind, Except.bind] at ran
  cases ran

/-- Once the trace has started, failures come from its questions. -/
theorem trace_failsOnly (built : r.Built) (sized : frames.size = r.size) {items : List (Nat × Location)}
    (found : seeds r frames = .ok items) {check : Option Check} (stops : ∀ e, Stopped check e → kind e)
    (asked : ∀ item frame instr, Reached (problem r config frames) items item → frames[item.1]? = some (some frame) →
      r.code[item.1]? = some instr → FailsOnly kind (frame.source r.scope instr item.2)) :
    FailsOnly kind (resultOrigins r config check frames).result := by
  unfold resultOrigins
  rw [if_pos sized, found]
  refine collect_failsOnly (p := problem r config frames) stops (fun item reached => ?_) (fun item reached => ?_) ?_
  · exact (lt_of_reached built found reached).trans_eq built.nodeCount_flow.symm
  · exact transfer_failsOnly built sized (lt_of_reached built found reached) fun frame instr =>
      asked item frame instr reached
  · intro calls exact transferred
    refine .of_total (foldlM_mark_total fun item called => ⟨?_, transferred item called⟩)
    rw [Array.size_replicate]
    exact lt_of_reached built found ((exact item).mp called)

variable {locals : Nat}

/-- For the frames of a routine, a value that is brought in a location of the next frame is
    in this location after the instruction that brings it. -/
theorem source_of_brings (checked : r.Checked) (sound : Survey.Sound r locals ⟨frames, []⟩) {i j : Nat}
    {place : Location} (brings : Brings r i j place) {next : Frame Value} (there : frames[j]? = some (some next))
    (has : next.Has place) {frame : Frame Value} {instr : Instr} (here : frames[i]? = some (some frame))
    (listed : r.code[i]? = some instr) : ∃ before, frame.source r.scope instr place = .ok before := by
  have settled : Survey.Settled r ⟨frames, []⟩ i frame := (sound.settled i frame here).resolve_left List.not_mem_nil
  obtain ⟨after, left, handed⟩ := settled .normal
  have run : frame.step r.scope .unknown instr = .ok after := (leave_normal listed).mp left
  refine Frame.source_total run ?_
  have onward : r.Passes i .normal j → after.Has place := by
    intro pass
    obtain ⟨g, found, same⟩ := handed j pass
    cases there.symm.trans found
    exact (Frame.has_congr same).mp has
  obtain ⟨passage, pass⟩ := checked.edge_iff.mp brings.1
  cases passage with
  | normal => exact onward pass
  | exceptional =>
    cases place with
    | stack depth => exact onward (brings.2 (checked.entry_of_passes pass) rfl)
    | «local» slot =>
      -- The handler gets the locals as they were, and the instruction makes none.
      obtain ⟨entry, left', handed'⟩ := settled .exceptional
      obtain ⟨g, found, same⟩ := handed' j pass
      cases there.symm.trans found
      cases left'
      rw [Frame.has_local, (Frame.sameShape_iff.mp same).1] at has
      rw [Frame.has_local, Frame.numLocals_of_step run]
      exact has

theorem source_of_reached (checked : r.Checked) (sound : Survey.Sound r locals ⟨frames, []⟩)
    {items : List (Nat × Location)} (found : seeds r frames = .ok items) {item : Nat × Location}
    (reached : Reached (problem r config frames) items item) {frame : Frame Value} {instr : Instr}
    (here : frames[item.1]? = some (some frame)) (listed : r.code[item.1]? = some instr) :
    ∃ before, frame.source r.scope instr item.2 = .ok before := by
  obtain ⟨j, next, there, has, brings⟩ := brought_of_reached checked.toBuilt found reached
  exact source_of_brings checked sound brings there has here listed

theorem sane_of_frames (checked : r.Checked) (sound : Survey.Sound r locals ⟨frames, []⟩)
    {items : List (Nat × Location)} (found : seeds r frames = .ok items) (config : Config) :
    Sane (problem r config frames) items := by
  refine ⟨fun item reached => ?_, fun item reached => ?_⟩
  · exact (lt_of_reached checked.toBuilt found reached).trans_eq checked.nodeCount_flow.symm
  · refine (transfer_failsOnly checked.toBuilt sound.size (lt_of_reached checked.toBuilt found reached) ?_).total
    intro frame instr here listed
    exact .of_total (source_of_reached checked sound found reached here listed)

/-- A value that is returned is on the stack, so that it has a location unless the stack is
    too deep. -/
theorem top_eq_none_iff (sound : Survey.Sound r locals ⟨frames, []⟩) {i : Nat} {frame : Frame Value}
    (listed : r.code[i]? = some (.return true)) (here : frames[i]? = some (some frame)) :
    frame.top = none ↔ 65536 < frame.depth := by
  obtain ⟨instr, next, listed', run⟩ :=
    sound.step_total rfl here (show frame.sameShape frame = true by simp [Frame.sameShape]) .unknown
  cases listed.symm.trans listed'
  obtain ⟨⟨x, rest⟩, popped, _⟩ := bind_eq_ok.mp run
  have nonempty : 0 < frame.depth := Frame.depth_of_pop popped
  unfold Frame.top
  by_cases fits : 0 < frame.depth ∧ frame.depth ≤ 65536
  · rw [if_pos fits]
    exact ⟨fun absent => absurd absent (Option.some_ne_none _), fun deep => by omega⟩
  · rw [if_neg fits]
    exact ⟨fun _ => by omega, fun _ => rfl⟩

/-- With the frames of a routine, the search for origins finds something wrong just if a
    value is returned from more than 65536 stack cells. Otherwise it answers, gives up or
    is cancelled. No question about where a value comes from goes unanswered. -/
theorem origins_malformed_iff {code : Array Instr} {ranges : List Range} {scope : Scope}
    (built : Routine.build code ranges scope = .ok r) (framed : r.frames locals = .ok frames) (config : Config)
    (check : Option Check) :
    ((∃ defect, (resultOrigins r config check frames).result = .error (.error (.malformed defect))) ↔
      ∃ (i : Nat) (frame : Frame Value), r.code[i]? = some (.return true) ∧ frames[i]? = some (some frame) ∧
        65536 < frame.depth) ∧
    FailsOnly (fun e => e.Malformed ∨ Stopped check e) (resultOrigins r config check frames).result ∧
    ∀ items, seeds r frames = .ok items → ∀ item ∈ (run (problem r config frames) check items).log.calls.toList,
      ∀ frame instr, frames[item.1]? = some (some frame) → r.code[item.1]? = some instr →
        ∃ before, frame.source r.scope instr item.2 = .ok before := by
  have checked := checked_of_build built
  have sound := Survey.sound_of_frames checked.toBuilt framed
  have malformed := seeds_malformed checked.toBuilt sound.size
  have traced : ∀ items, seeds r frames = .ok items → FailsOnly (Stopped check) (resultOrigins r config check frames).result :=
    fun items found => trace_failsOnly checked.toBuilt sound.size found (fun _ => id) fun item frame instr reached here listed =>
      .of_total (source_of_reached checked sound found reached here listed)
  refine ⟨⟨?_, ?_⟩, ?_, ?_⟩
  · rintro ⟨defect, failed⟩
    by_contra shallow
    have starts : FailsOnly (fun _ => False) (seeds r frames) :=
      seeds_failsOnly checked.toBuilt sound.size fun i frame listed here top =>
        shallow ⟨i, frame, listed, here, (top_eq_none_iff sound listed here).mp top⟩
    obtain ⟨items, found⟩ := starts.total
    exact traced items found _ failed
  · rintro ⟨i, frame, listed, here, deep⟩
    cases found : seeds r frames with
    | ok items => exact absurd ((top_eq_none_iff sound listed here).mpr deep) (top_of_seeds found listed here)
    | error e =>
      obtain ⟨defect, rfl⟩ := malformed e found
      exact ⟨defect, resultOrigins_of_error sound.size found config check⟩
  · cases found : seeds r frames with
    | ok items => exact (traced items found).mono fun e => .inr
    | error e =>
      rw [resultOrigins_of_error sound.size found]
      rintro e' ⟨⟩
      exact .inl (malformed e found)
  · intro items found item called frame instr
    exact source_of_reached checked sound found ((sane_of_frames checked sound found config).reached_of_call check called)

theorem origins_malformed_iff_sharedEntry :
    ∃ r frames items, sharedEntry = .ok r ∧ r.frames 1 = .ok frames ∧ seeds r frames = .ok items ∧
      (∀ defect, (resultOrigins r Config.standard none frames).result ≠ .error (.error (.malformed defect))) ∧
      (2, .stack 0) ∈ (run (problem r Config.standard frames) none items).log.calls.toList ∧
      ∃ frame before, frames[2]? = some (some frame) ∧ frame.source r.scope (.load 0) (.stack 0) = .ok before := by
  have computed : (do
      let r ← sharedEntry
      let frames ← r.frames 1
      let items ← seeds r frames
      return (r.code[2]?, frames[2]?, frames.all (·.all (·.depth ≤ 65536)), items,
        certifies (problem r Config.standard frames) items [(2, .stack 0), (1, .local 0), (0, .stack 0)]) : Result _) =
      .ok (some (.load 0), some (some ⟨#[.unknown], #[]⟩), true, [(2, .stack 0)], true) := by cbv
  obtain ⟨r, made, computed⟩ := bind_eq_ok.mp computed
  obtain ⟨frames, framed, computed⟩ := bind_eq_ok.mp computed
  obtain ⟨items, found, computed⟩ := bind_eq_ok.mp computed
  simp only [pure, Except.pure, Except.ok.injEq, Prod.mk.injEq] at computed
  obtain ⟨listed, here, shallow, given, certified⟩ := computed
  obtain ⟨scope, _, built⟩ := bind_eq_ok.mp made
  obtain ⟨malformed, _, asked⟩ := origins_malformed_iff built framed Config.standard none
  obtain ⟨stats, finished⟩ := (ok_iff_feasible _ _).mpr (feasible_of_certifies certified)
  have called : (2, .stack 0) ∈ (run (problem r Config.standard frames) none items).log.calls.toList :=
    (mem_calls_iff finished _).mpr (.seed (by rw [given]; exact List.mem_cons_self))
  obtain ⟨before, traced⟩ := asked items found _ called _ _ here listed
  refine ⟨r, frames, items, made, framed, found, fun defect failed => ?_, called, _, before, here, traced⟩
  obtain ⟨i, frame, _, there, deep⟩ := malformed.mp ⟨defect, failed⟩
  have small := Array.all_eq_true_iff_forall_mem.mp shallow _ (Array.mem_of_getElem? there)
  exact absurd deep (Nat.not_lt.mpr (of_decide_eq_true small))

end StackFlow.Origins
