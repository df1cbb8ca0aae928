import Mathlib.Data.List.Nodup
import ManifestUpkeep.Publish

/-!
The commands that a publication runs. They may change the world in any way, and the next directories are
looked up in the world that they leave behind. Each package that is a directory when its turn comes is
published by one command, up to the first command that does not succeed, and no command is run after
that.
-/
namespace ManifestUpkeep

/-- A command that has been run, and the world in which it was started. -/
structure Invocation (World : Type) where
  world : World
  command : Path
  arguments : List String

variable {World : Type}

namespace Surroundings

/-- The same surroundings with a record of all commands that have been run. -/
def recorded (s : Surroundings World) : Surroundings (World × List (Invocation World)) where
  disk w := s.disk w.1
  run w command arguments :=
    let (world, ended) := s.run w.1 command arguments
    ((world, w.2 ++ [⟨w.1, command, arguments⟩]), ended)

@[simp] theorem recorded_disk (s : Surroundings World) (world : World)
    (log : List (Invocation World)) : s.recorded.disk (world, log) = s.disk world := rfl

@[simp] theorem recorded_run (s : Surroundings World) (world : World)
    (log : List (Invocation World)) (command : Path) (arguments : List String) :
    s.recorded.run (world, log) command arguments =
      (((s.run world command arguments).1, log ++ [⟨world, command, arguments⟩]),
        (s.run world command arguments).2) := rfl

/-- The world that a command leaves behind. -/
def after (s : Surroundings World) (i : Invocation World) : World :=
  (s.run i.world i.command i.arguments).1

/-- The command could be started and succeeded. -/
def Succeeds (s : Surroundings World) (i : Invocation World) : Prop :=
  ∃ printed status, (s.run i.world i.command i.arguments).2 = .ok (printed, status) ∧
    status.isSuccess

end Surroundings

namespace Publication

/-- The same publication, which is not only tried. -/
def inEarnest (p : Publication) : Publication := { p with dryRun := false }

/-- The same publication, which is only tried. -/
def onTrial (p : Publication) : Publication := { p with dryRun := true }

/-- The command that publishes a package. -/
def invocation (p : Publication) (world : World) (package : Path) : Invocation World :=
  ⟨world, p.command, packageArguments package p.registry⟩

/-- The commands that a publication runs, one after the other. -/
def invocations (p : Publication) (s : Surroundings World) (world : World) :
    List (Invocation World) :=
  (p.carryOutIn s.recorded (world, [])).1.2

/-- From one world to another all packages have had their turn. Those that were directories by then
have been published with success, by the given commands. -/
inductive AllPublished (p : Publication) (s : Surroundings World) :
    World → List Path → List (Invocation World) → List Path → World → Prop where
  | nil (world : World) : AllPublished p s world [] [] [] world
  | skipped {world last : World} {package : Path} {rest done : List Path}
      {runs : List (Invocation World)} : (s.disk world).isDirectory package = false →
      AllPublished p s world rest runs done last →
      AllPublished p s world (package :: rest) runs done last
  | published {world last : World} {package : Path} {rest done : List Path}
      {runs : List (Invocation World)} : (s.disk world).isDirectory package →
      s.Succeeds (p.invocation world package) →
      AllPublished p s (s.after (p.invocation world package)) rest runs done last →
      AllPublished p s world (package :: rest) (p.invocation world package :: runs)
        (package :: done) last

/-- Why the command that publishes a package does not succeed. -/
inductive FailsWith (p : Publication) (s : Surroundings World) (world : World) (package : Path) :
    Error → Prop where
  | exited {printed : String} {status : ExitStatus} :
      (s.run world p.command (packageArguments package p.registry)).2 = .ok (printed, status) →
      status.isSuccess = false → FailsWith p s world package (.publishFailed package status)
  | notStarted {fault : Fault} :
      (s.run world p.command (packageArguments package p.registry)).2 = .error fault →
      FailsWith p s world package (.io p.command fault)

/-- How a publication ends: with all packages, or at the first one whose command does not succeed. -/
inductive Ends (p : Publication) (s : Surroundings World) (world : World) (order : List Path) :
    List (Invocation World) → World → Except Error (List Path) → Prop where
  | through {runs : List (Invocation World)} {done : List Path} {last : World} :
      AllPublished p s world order runs done last → Ends p s world order runs last (.ok done)
  | stopped {before after done : List Path} {package : Path} {runs : List (Invocation World)}
      {mid : World} {error : Error} : order = before ++ package :: after →
      AllPublished p s world before runs done mid → (s.disk mid).isDirectory package →
      FailsWith p s mid package error →
      Ends p s world order (runs ++ [p.invocation mid package]) (s.after (p.invocation mid package))
        (.error error)

variable {p : Publication} {s : Surroundings World} {world last : World} {package : Path}
  {order rest done : List Path} {runs : List (Invocation World)} {result : Except Error (List Path)}

/-! ### One turn -/

/-- A package that is no directory changes nothing. -/
theorem Ends.skipped (h : p.Ends s world rest runs last result)
    (hpackage : (s.disk world).isDirectory package = false) :
    p.Ends s world (package :: rest) runs last result := by
  cases h with
  | through hall => exact .through (.skipped hpackage hall)
  | stopped horder hall hdirectory hfails =>
    subst horder
    exact .stopped (List.cons_append ..).symm (.skipped hpackage hall) hdirectory hfails

/-- A package that is published comes first, and its command comes before all others. -/
theorem Ends.published (hpackage : (s.disk world).isDirectory package)
    (hsucceeds : s.Succeeds (p.invocation world package))
    (h : p.Ends s (s.after (p.invocation world package)) rest runs last result) :
    p.Ends s world (package :: rest) (p.invocation world package :: runs) last
      (result.map (package :: ·)) := by
  cases h with
  | through hall => exact .through (.published hpackage hsucceeds hall)
  | stopped horder hall hdirectory hfails =>
    subst horder
    exact .stopped (List.cons_append ..).symm (.published hpackage hsucceeds hall) hdirectory hfails

/-- A package whose command does not succeed is the last one. -/
theorem Ends.failed {error : Error} (hpackage : (s.disk world).isDirectory package)
    (hfails : p.FailsWith s world package error) :
    p.Ends s world (package :: rest) [p.invocation world package]
      (s.after (p.invocation world package)) (.error error) :=
  .stopped rfl (.nil world) hpackage hfails

/-- The record has no influence. -/
theorem publishEach_recorded (s : Surroundings World) (p : Publication) (order : List Path)
    (world : World) (log : List (Invocation World)) (done : List Path) :
    (publishEach s.recorded p order (world, log) done).1.1 = (publishEach s p order world done).1 ∧
      (publishEach s.recorded p order (world, log) done).2 = (publishEach s p order world done).2 := by
  induction order generalizing world log done with
  | nil => exact ⟨rfl, rfl⟩
  | cons package rest ih =>
    simp only [publishEach, Surroundings.recorded_disk, Surroundings.recorded_run]
    cases (s.disk world).isDirectory package with
    | false => simp [ih]
    | true =>
      cases p.dryRun with
      | true => simp [ih]
      | false =>
        obtain ⟨next, ended⟩ := s.run world p.command (packageArguments package p.registry)
        cases ended with
        | error fault => simp
        | ok ended =>
          cases hstatus : ended.2.isSuccess with
          | false => simp [hstatus]
          | true => simp [hstatus, ih]

/-- All turns, behind what has been published and recorded before. -/
theorem publishEach_ends (hreal : p.dryRun = false) (s : Surroundings World) (order : List Path)
    (world : World) (log : List (Invocation World)) (done : List Path) :
    ∃ runs last result, p.Ends s world order runs last result ∧
      (publishEach s.recorded p order (world, log) done).1 = (last, log ++ runs) ∧
      (publishEach s.recorded p order (world, log) done).2.packages.result =
        result.map (done ++ ·) := by
  induction order generalizing world log done with
  | nil => exact ⟨[], world, .ok [], .through (.nil world), by simp [publishEach], by simp [publishEach, Except.map]⟩
  | cons package rest ih =>
    simp only [publishEach, Surroundings.recorded_disk, Surroundings.recorded_run, hreal]
    cases hdirectory : (s.disk world).isDirectory package with
    | false =>
      obtain ⟨runs, last, result, hends, hlog, hresult⟩ := ih world log done
      exact ⟨runs, last, result, hends.skipped hdirectory, by simpa using hlog, by simpa using hresult⟩
    | true =>
      cases hended : (s.run world p.command (packageArguments package p.registry)).2 with
      | error fault =>
        refine ⟨_, _, _, .failed hdirectory (.notStarted hended), ?_, ?_⟩
        · simp [Surroundings.after, invocation]
        · simp [Except.map]
      | ok ended =>
        obtain ⟨printed, status⟩ := ended
        cases hstatus : status.isSuccess with
        | false =>
          refine ⟨_, _, _, .failed hdirectory (.exited hended hstatus), ?_, ?_⟩
          · simp [hstatus, Surroundings.after, invocation]
          · simp [hstatus, Except.map]
        | true =>
          have hsucceeds : s.Succeeds (p.invocation world package) := ⟨printed, status, hended, hstatus⟩
          obtain ⟨runs, last, result, hends, hlog, hresult⟩ :=
            ih (s.after (p.invocation world package)) (log ++ [p.invocation world package])
              (done ++ [package])
          refine ⟨_, last, _, hends.published hdirectory hsucceeds, ?_, ?_⟩
          · simpa [hstatus, Surroundings.after, invocation] using hlog
          · cases result <;> simpa [hstatus, Surroundings.after, invocation, Except.map] using hresult

/-! ### Whole publications -/

theorem carryOutIn_eq (horder : publicationOrder (s.disk world) p.dir = .ok order) :
    p.carryOutIn s world = publishEach s p order world [] := by
  unfold carryOutIn
  rw [horder]

theorem invocations_eq (horder : publicationOrder (s.disk world) p.dir = .ok order) :
    p.invocations s world = (publishEach s.recorded p order (world, []) []).1.2 := by
  have horder' : publicationOrder (s.recorded.disk (world, [])) p.dir = .ok order := horder
  unfold invocations
  rw [carryOutIn_eq horder']

theorem ends_inEarnest (hreal : p.dryRun = false)
    (horder : publicationOrder (s.disk world) p.dir = .ok order) :
    p.Ends s world order (p.invocations s world) (p.carryOutIn s world).1
      (p.carryOutIn s world).2.packages.result := by
  obtain ⟨runs, last, result, hends, hlog, hresult⟩ := publishEach_ends hreal s order world [] []
  obtain ⟨hworld, hafter⟩ := publishEach_recorded s p order world [] []
  have hid : result.map ([] ++ ·) = result := by cases result <;> rfl
  rw [hafter, hid] at hresult
  rw [hlog] at hworld
  rw [invocations_eq horder, carryOutIn_eq horder, hlog, ← hworld, hresult]
  exact hends

/-- All commands succeed if and only if there is a result. -/
theorem Ends.succeeds_iff (h : p.Ends s world order runs last result) :
    (∃ done, result = .ok done) ↔ ∀ i ∈ runs, s.Succeeds i := by
  have hall {world last : World} {order done : List Path} {runs : List (Invocation World)}
      (h : p.AllPublished s world order runs done last) : ∀ i ∈ runs, s.Succeeds i := by
    induction h with
    | nil => simp
    | skipped _ _ ih => exact ih
    | published _ hsucceeds _ ih => simpa using ⟨hsucceeds, ih⟩
  cases h with
  | through h =>
    constructor
    · intro _
      exact hall h
    · intro _
      exact ⟨_, rfl⟩
  | stopped _ _ _ hfails =>
    constructor
    · rintro ⟨done, hdone⟩
      cases hdone
    · intro hrun
      obtain ⟨printed, status, hended, hstatus⟩ := hrun _ (List.mem_concat_self ..)
      cases hfails with
      | exited hexited hfailed =>
        rw [invocation, hexited] at hended
        cases hended
        rw [hfailed] at hstatus
        cases hstatus
      | notStarted hfault =>
        rw [invocation, hfault] at hended
        cases hended

/-- Where no command makes or removes a directory, the packages are the directories at the start. -/
theorem AllPublished.eq_filter (h : p.AllPublished s world order runs done last)
    (hkept : ∀ i ∈ runs, ∀ q ∈ order,
      (s.disk (s.after i)).isDirectory q = (s.disk i.world).isDirectory q) :
    done = order.filter (s.disk world).isDirectory := by
  induction h with
  | nil => rfl
  | skipped hpackage _ ih =>
    rw [List.filter_cons_of_neg (by simp [hpackage])]
    apply ih
    intro i hi q hq
    exact hkept i hi q (List.mem_cons_of_mem _ hq)
  | @published world _ package rest _ _ hpackage _ _ ih =>
    have hrest := ih fun i hi q hq => hkept i (List.mem_cons_of_mem _ hi) q (List.mem_cons_of_mem _ hq)
    rw [List.filter_cons_of_pos hpackage, hrest]
    congr 1
    apply List.filter_congr
    intro q hq
    exact hkept (p.invocation world package) (List.mem_cons_self ..) q (List.mem_cons_of_mem _ hq)

theorem Ends.eq_filter (h : p.Ends s world order runs last (.ok done))
    (hkept : ∀ i ∈ runs, ∀ q ∈ order,
      (s.disk (s.after i)).isDirectory q = (s.disk i.world).isDirectory q) :
    done = order.filter (s.disk world).isDirectory := by
  cases h with
  | through hall => exact hall.eq_filter hkept

/-- A trial runs no command and changes nothing. -/
theorem publishEach_onTrial (htrial : p.dryRun = true) (s : Surroundings World) (order : List Path)
    (world : World) (done : List Path) :
    (publishEach s p order world done).1 = world ∧
      (publishEach s p order world done).2.packages.result =
        .ok (done ++ order.filter (s.disk world).isDirectory) := by
  induction order generalizing done with
  | nil => simp [publishEach]
  | cons package rest ih =>
    simp only [publishEach, htrial]
    cases hpackage : (s.disk world).isDirectory package with
    | false => simp [ih, hpackage]
    | true => simp [ih, hpackage]

/-- A publication in earnest runs the command for those packages that are directories when their turn
comes, in their order, up to the first command that does not succeed, and names the package or the
command in its error. A trial runs nothing. Unless a command makes or removes one of the directories, it
tells which packages are published if all commands succeed. -/
theorem carryOut_publishesPrefix (s : Surroundings World) (p : Publication) (world : World)
    {order : List Path} (horder : publicationOrder (s.disk world) p.dir = .ok order) :
    p.inEarnest.Ends s world order (p.inEarnest.invocations s world)
        (p.inEarnest.carryOutIn s world).1 (p.inEarnest.carryOutIn s world).2.packages.result ∧
      ((∃ done, (p.inEarnest.carryOutIn s world).2.packages.result = .ok done) ↔
        ∀ i ∈ p.inEarnest.invocations s world, s.Succeeds i) ∧
      p.onTrial.invocations s world = [] ∧ (p.onTrial.carryOutIn s world).1 = world ∧
      ∀ done, (p.inEarnest.carryOutIn s world).2.packages.result = .ok done →
        (∀ i ∈ p.inEarnest.invocations s world, ∀ q ∈ order,
          (s.disk (s.after i)).isDirectory q = (s.disk i.world).isDirectory q) →
        (p.onTrial.carryOutIn s world).2.packages.result = .ok done := by
  have hends := ends_inEarnest (p := p.inEarnest) rfl horder
  have htrial := publishEach_onTrial (p := p.onTrial) rfl s order world []
  refine ⟨hends, hends.succeeds_iff, ?_, ?_, ?_⟩
  · have hrecorded := publishEach_onTrial (p := p.onTrial) rfl s.recorded order (world, []) []
    rw [invocations_eq (p := p.onTrial) horder, hrecorded.1]
  · rw [carryOutIn_eq (p := p.onTrial) horder]
    exact htrial.1
  · intro done hdone hkept
    rw [carryOutIn_eq (p := p.onTrial) horder, htrial.2, List.nil_append]
    rw [hdone] at hends
    rw [hends.eq_filter hkept]

end Publication

/-- A directory with an order of packages, of which only one is a directory. -/
def packageTwice : Disk where
  tree := {
    nodes := [(["order.json", "p"], .file "[\"a\", \"b\", \"a\"]".toUTF8 false),
      (["a", "p"], .directory), (["p"], .directory)]
    nodup := by decide
    closed := by simp }
  cwd := []

/-- A registry that takes one package and cannot be reached after that. -/
def takesOne : Surroundings (Disk × Bool) where
  disk := Prod.fst
  run w _ _ := ((w.1, true), if w.2 then .error .notFound else .ok ("", .code 0))

/-- The second run of the command does not start, and the package that is missing is skipped. -/
theorem carryOut_publishesPrefix_of_packageTwice :
    let p : Publication := ⟨⟨"/p"⟩, ⟨"c"⟩, "r", false⟩
    publicationOrder packageTwice ⟨"/p"⟩ = .ok [⟨"/p/a"⟩, ⟨"/p/b"⟩, ⟨"/p/a"⟩] ∧
      p.inEarnest.Ends takesOne (packageTwice, false) [⟨"/p/a"⟩, ⟨"/p/b"⟩, ⟨"/p/a"⟩]
        (p.inEarnest.invocations takesOne (packageTwice, false))
        (p.inEarnest.carryOutIn takesOne (packageTwice, false)).1 (.error (.io ⟨"c"⟩ .notFound)) ∧
      (p.inEarnest.invocations takesOne (packageTwice, false)).map Invocation.arguments =
        [["registry", "publish", "-d", "/p/a", "-r", "r"],
          ["registry", "publish", "-d", "/p/a", "-r", "r"]] := by
  intro p
  have horder : publicationOrder packageTwice ⟨"/p"⟩ = .ok [⟨"/p/a"⟩, ⟨"/p/b"⟩, ⟨"/p/a"⟩] := by
    decide +kernel
  have hends := (Publication.carryOut_publishesPrefix takesOne p (packageTwice, false) horder).1
  have hresult : (p.inEarnest.carryOutIn takesOne (packageTwice, false)).2.packages.result =
      .error (.io ⟨"c"⟩ .notFound) := by decide +kernel
  rw [hresult] at hends
  exact ⟨horder, hends, by decide +kernel⟩

end ManifestUpkeep
