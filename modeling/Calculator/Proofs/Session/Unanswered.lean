import Calculator.CommandLine.Transcript
import Calculator.Proofs.Binary64.Sign
import Calculator.Proofs.Session.Step

/-!
# Lines without an answer

A failure is an answer like any other and does not end a session. What ends it is a result that
cannot be written: any number but zero, the infinities and NaN, in a session that asks for more
places than can be written.

* `IsUnwritable`: the lines with such a result
* `Session.execute_eq_none_iff`: these lines alone are not answered
* `Session.breaks_off_iff`: lines are answered in order up to the first such line
-/

namespace Calculator

/-- The line is an expression with a finite value other than zero, which is to be written with more
places than can be. -/
structure IsUnwritable (places : Nat) (line : String) : Prop where
  lt_places : Scientific.maxPlaces < places
  exists_value : ∃ expression x, Command.ofLine line = .evaluate expression ∧
    evaluate expression = .ok x ∧ Binary64.isFinite x = true ∧ x ≠ 0.0 ∧ x ≠ -0.0

theorem Scientific.text?_eq_none_iff {places : Nat} {x : Float} :
    text? places x = none ↔
      maxPlaces < places ∧ Binary64.isFinite x = true ∧ x ≠ 0.0 ∧ x ≠ -0.0 := by
  rw [← not_or, ← Binary64.code_eq_zero_iff, text?]
  split
  · next hzero => simp [hzero]
  · next hzero =>
    split
    · next hfinite =>
      refine iff_of_false (Option.some_ne_none _) ?_
      rintro ⟨-, h, -⟩
      rw [h] at hfinite
      exact absurd hfinite (by decide)
    · next hfinite =>
      split
      · next hplaces => simpa [hplaces, hzero] using hfinite
      · next hplaces => simp [hplaces]

theorem Reply.calculate?_eq_none_iff {places : Nat} {expression : String} :
    calculate? places expression = none ↔
      expression ≠ "" ∧ ∃ x, evaluate expression = .ok x ∧ Scientific.text? places x = none := by
  unfold calculate?
  split
  · next hempty => simp [hempty]
  · next hne =>
    cases evaluate expression with
    | error fault => simp
    | ok x => simp [ofResult?, hne]

/-- Nothing is written on an empty line. -/
theorem evaluate_empty : evaluate "" = .error (.malformed .empty) := by
  decide +kernel

namespace Session

variable {s : Session} {m : Memory} {line : String}

/-- The commands of the memory are answered whatever the number of places. -/
theorem exists_execute_of_ne_evaluate (h : ∀ expression, Command.ofLine line ≠ .evaluate expression)
    (s : Session) (m : Memory) : ∃ step, s.execute m line = some step := by
  unfold execute
  split
  · next expression hcommand => exact absurd hcommand (h expression)
  all_goals exact ⟨_, rfl⟩

theorem execute_eq_none_iff : s.execute m line = none ↔ IsUnwritable s.places line := by
  by_cases hexpression : ∃ expression, Command.ofLine line = .evaluate expression
  · obtain ⟨expression, hcommand⟩ := hexpression
    rw [execute, hcommand]
    dsimp only
    rw [Option.map_eq_none_iff, Reply.calculate?_eq_none_iff]
    constructor
    · rintro ⟨-, x, hx, hplaces⟩
      obtain ⟨hlt, hvalue⟩ := Scientific.text?_eq_none_iff.mp hplaces
      exact ⟨hlt, expression, x, hcommand, hx, hvalue⟩
    · rintro ⟨hlt, expression', x, hcommand', hx, hvalue⟩
      obtain rfl : expression = expression' := Command.evaluate.inj (hcommand.symm.trans hcommand')
      refine ⟨?_, x, hx, Scientific.text?_eq_none_iff.mpr ⟨hlt, hvalue⟩⟩
      rintro rfl
      rw [evaluate_empty] at hx
      cases hx
  · obtain ⟨step, hstep⟩ := exists_execute_of_ne_evaluate (not_exists.mp hexpression) s m
    rw [hstep]
    refine iff_of_false (Option.some_ne_none step) ?_
    rintro ⟨-, expression, x, hcommand, -⟩
    exact hexpression ⟨expression, hcommand⟩

theorem exists_execute_of_not_unwritable (h : ¬ IsUnwritable s.places line) (m : Memory) :
    ∃ step, s.execute m line = some step :=
  Option.ne_none_iff_exists'.mp fun hnone => h (execute_eq_none_iff.mp hnone)

/-! ## Several lines -/

variable {front rest : List String}

theorem run_cons {step : Step} (h : s.execute m line = some step) (lines : List String) :
    s.run m (line :: lines) = ⟨step.reply :: (step.session.run step.memory lines).replies,
      (step.session.run step.memory lines).complete⟩ := by
  rw [run, h]

theorem run_of_unwritable (h : IsUnwritable s.places line) (m : Memory) (lines : List String) :
    s.run m (line :: lines) = ⟨[], false⟩ := by
  rw [run, execute_eq_none_iff.mpr h]

/-- Lines are answered one by one as long as each of them can be. -/
theorem length_replies_run (hfront : ∀ l ∈ front, ¬ IsUnwritable s.places l) :
    (s.run m front).replies.length = front.length := by
  -- A session keeps its number of places, so that what can be written stays the same all the way.
  induction front generalizing s m with
  | nil => rfl
  | cons line front ih =>
    obtain ⟨hline, hfront⟩ := List.forall_mem_cons.mp hfront
    obtain ⟨step, hstep⟩ := exists_execute_of_not_unwritable hline m
    have hplaces : step.session.places = s.places := (executes_of_execute hstep).places_eq
    rw [← hplaces] at hfront
    rw [run_cons hstep, List.length_cons, List.length_cons, ih hfront]

theorem run_append_of_unwritable (hfront : ∀ l ∈ front, ¬ IsUnwritable s.places l)
    (hline : IsUnwritable s.places line) :
    s.run m (front ++ line :: rest) = ⟨(s.run m front).replies, false⟩ := by
  induction front generalizing s m with
  | nil => exact run_of_unwritable hline m rest
  | cons l front ih =>
    obtain ⟨hl, hfront⟩ := List.forall_mem_cons.mp hfront
    obtain ⟨step, hstep⟩ := exists_execute_of_not_unwritable hl m
    have hplaces : step.session.places = s.places := (executes_of_execute hstep).places_eq
    rw [← hplaces] at hfront hline
    rw [List.cons_append, run_cons hstep, run_cons hstep, ih hfront hline]

theorem complete_run_iff {lines : List String} :
    (s.run m lines).complete = true ↔ ∀ line ∈ lines, ¬ IsUnwritable s.places line := by
  induction lines generalizing s m with
  | nil => exact iff_of_true rfl (List.forall_mem_nil _)
  | cons line lines ih =>
    rw [List.forall_mem_cons]
    by_cases hline : IsUnwritable s.places line
    · rw [run_of_unwritable hline]
      exact iff_of_false Bool.false_ne_true fun h => h.1 hline
    · obtain ⟨step, hstep⟩ := exists_execute_of_not_unwritable hline m
      rw [run_cons hstep, and_iff_right hline, ← (executes_of_execute hstep).places_eq]
      exact ih

/-- The program stops before its end exactly if its lines are not all answered. -/
theorem status_ofDialogue_eq_iff {json : Bool} {d : Dialogue} :
    (Transcript.ofDialogue json d).status = 101 ↔ d.complete = false := by
  rw [Transcript.ofDialogue]
  cases d.complete with
  | false => exact iff_of_true rfl rfl
  | true =>
    show (if d.replies.any Reply.isError then 1 else 0) = 101 ↔ true = false
    split <;> decide

/-- Whatever a session has done before and whatever the memory holds, a line is not answered exactly
if it has a result that cannot be written. If there is no such line, every line is answered. The
first such line is the last to be looked at, and the program ends there. -/
theorem breaks_off_iff (s : Session) (m : Memory) :
    (∀ line, s.execute m line = none ↔ IsUnwritable s.places line) ∧
    (∀ lines, (∀ line ∈ lines, ¬ IsUnwritable s.places line) →
      (s.run m lines).complete = true ∧ (s.run m lines).replies.length = lines.length) ∧
    (∀ front line rest, (∀ l ∈ front, ¬ IsUnwritable s.places l) → IsUnwritable s.places line →
      s.run m (front ++ line :: rest) = ⟨(s.run m front).replies, false⟩) ∧
    ∀ json lines, (Transcript.ofDialogue json (s.run m lines)).status = 101 ↔
      ∃ line ∈ lines, IsUnwritable s.places line := by
  refine ⟨fun line => execute_eq_none_iff,
    fun lines h => ⟨complete_run_iff.mpr h, length_replies_run h⟩,
    fun front line rest => run_append_of_unwritable, fun json lines => ?_⟩
  rw [status_ofDialogue_eq_iff, Bool.eq_false_iff, ne_eq, complete_run_iff]
  simp

/-- A zero is written with any number of places, while a one breaks the session off before anything
can be stored. -/
theorem breaks_off_iff_one :
    ¬ IsUnwritable 65536 "2-2" ∧ IsUnwritable 65536 "1" ∧
      (new 65536).run Memory.empty ["2-2", "1", "ms 5"] = ⟨[.calculated 0.0 "0"], false⟩ := by
  have hbreaks := breaks_off_iff (new 65536) Memory.empty
  have hzero : ¬ IsUnwritable 65536 "2-2" := fun h =>
    absurd ((hbreaks.1 "2-2").mpr h) (by decide +kernel)
  have hone : IsUnwritable 65536 "1" :=
    ⟨by decide, "1", 1.0, by decide +kernel, by decide +kernel, by decide, by decide, by decide⟩
  have hreplies : ((new 65536).run Memory.empty ["2-2"]).replies = [.calculated 0.0 "0"] := by
    decide +kernel
  refine ⟨hzero, hone, ?_⟩
  rw [← hreplies]
  exact hbreaks.2.2.1 ["2-2"] "1" ["ms 5"] (List.forall_mem_singleton.mpr hzero) hone

end Session

end Calculator
