import Codegen.CommandLine.Run
import Codegen.Folder
import Codegen.Proofs.Emitted
import Codegen.Proofs.Verified
import Mathlib.Data.List.TakeWhile

/-!
# The two commands

Both commands read a program and its configuration and lower the program (`lowered`).  `emit`
prints the module and `check` counts its parts, and the check of control flow that only `check`
always makes finds nothing in a lowered module.  So they succeed and fail together, and a failure
of one is the failure of the other, with the same errors to report.  How far they are reported is up
to the renderer.  The only step that changes files is the last one of `emit`, behind which nothing
fails.
-/

namespace Codegen

/-- Files that only a successful write changes. -/
structure Files.Steady {σ : Type} (files : Files (StateM σ)) : Prop where
  read (path : String) (s : σ) : (files.read path s).2 = s
  isFile (path : String) (s : σ) : (files.isFile path s).2 = s
  directory (s : σ) : (files.directory s).2 = s
  refused {path text : String} {s : σ} {error : FileError}
    (h : (files.write path text s).1 = .error error) : (files.write path text s).2 = s

theorem Folder.access_write (folder : Folder) (path text : String) :
    Folder.access.write path text folder =
      match folder.write path text with
      | .ok written => (.ok (), written)
      | .error error => (.error error, folder) := by
  let keep : Except FileError Folder → StateM Folder (Except FileError Unit)
    | .ok written => do
      set written
      pure (.ok ())
    | .error error => pure (.error error)
  change keep (folder.write path text) folder = _
  cases folder.write path text <;> rfl

theorem Folder.steady_access : Folder.access.Steady where
  read _ _ := rfl
  isFile _ _ := rfl
  directory _ := rfl
  refused {path text folder error} h := by
    rw [access_write] at h ⊢
    cases hw : folder.write path text with
    | error error => rfl
    | ok written =>
      rw [hw] at h
      cases h

namespace Lowering

/-- The check of control flow finds nothing in a lowered program. -/
theorem verify_of_lowerProgram {context : Context} {symbols : SymbolTable} {config : Config}
    {m : Ir.Module} (h : lowerProgram context symbols config = .ok m) : m.verify = [] := by
  obtain ⟨-, -, rfl⟩ := lowerProgram_ok h
  rw [verify_runAll, verify_buildModule]

end Lowering

namespace CommandLine

open Lowering

/-! ## One lowering, two outputs -/

section Outputs

variable {m : Type → Type} [Monad m] (files : Files m) (renderer : Renderer) (path : String)

/-- The program in a file, lowered with the configuration beside it. -/
def lowered : ExceptT Error m (Config × Ir.Module) := do
  let program ← loadProgram files path
  let config ← loadConfig files path none
  let lowered ← lowerProgram program.context program.symbols config
  pure (config, lowered)

/-- The outcome of a command that prints what it makes of a value. -/
def printing {α : Type} (f : α → String) : Except Error α → m Outcome
  | .ok a => pure { exitCode := 0, output := f a }
  | .error error => do
    let (reports, drawn) ← reportAll files renderer path error.parts
    pure { exitCode := failureCode drawn, reports }

theorem over_default (config : Config) : EmitOptions.over {} config = config := by
  simp [EmitOptions.over]

theorem liftM_ok {α : Type} (a : α) :
    (liftM (Except.ok a : Except Error α) : ExceptT Error m α) = pure a := rfl

theorem liftM_error {α : Type} (error : Error) :
    (liftM (Except.error error : Except Error α) : ExceptT Error m α) = throw error := rfl

variable [LawfulMonad m]

theorem runEmit_eq :
    runEmit files path {} = (fun x => x.2.text x.1.debugInfo) <$> lowered files path := by
  simp only [runEmit, lowered, map_bind, over_default]
  congr! 4 with program config
  cases h : lowerProgram program.context program.symbols config with
  | error error =>
    have refused : emitText program config = .error error := by rw [emitText, h]; rfl
    simp only [refused, liftM_error]
    apply ExceptT.ext
    simp
  | ok lowered =>
    have printed : emitText program config = .ok (lowered.text config.debugInfo) := by
      rw [emitText, h]
      rfl
    simp only [printed, liftM_ok, pure_bind, map_pure]

theorem runCheck_eq :
    runCheck files path = (fun x => summary path x.2) <$> lowered files path := by
  simp only [runCheck, lowered, map_bind]
  congr! 4 with program config
  cases h : lowerProgram program.context program.symbols config with
  | error error =>
    simp only [liftM_error]
    apply ExceptT.ext
    simp
  | ok lowered =>
    have verified := verify_of_lowerProgram h
    simp [liftM_ok, verified]

theorem conclude_map {α : Type} (f : α → String) (x : ExceptT Error m α) :
    conclude files renderer path (f <$> x) = x.run >>= printing files renderer path f := by
  rw [conclude, ExceptT.run_map, bind_map_left]
  congr! 2 with result
  cases result <;> rfl

theorem run_check {arguments : List String} (h : Command.parse arguments = .ok (.check path)) :
    run files renderer arguments =
      (lowered files path).run >>= printing files renderer path fun x => summary path x.2 := by
  rw [run, h]
  exact (congrArg _ (runCheck_eq files path)).trans (conclude_map files renderer path _ _)

theorem run_emit {arguments : List String} (h : Command.parse arguments = .ok (.emit path {})) :
    run files renderer arguments =
      (lowered files path).run >>= printing files renderer path fun x =>
        x.2.text x.1.debugInfo := by
  rw [run, h]
  exact (congrArg _ (runEmit_eq files path)).trans (conclude_map files renderer path _ _)

end Outputs

/-! ## Commands that leave files alone -/

section Still

variable {σ α β : Type} {files : Files (StateM σ)}

/-- A step that leaves the state as it is. -/
def Still (x : StateM σ α) : Prop := ∀ s, (x s).2 = s

theorem still_pure (a : α) : Still (pure a : StateM σ α) := fun _ => rfl

theorem bind_apply (x : StateM σ α) (f : α → StateM σ β) (s : σ) :
    (x >>= f) s = f (x s).1 (x s).2 := rfl

theorem Still.bind {x : StateM σ α} {f : α → StateM σ β} (hx : Still x) (hf : ∀ a, Still (f a)) :
    Still (x >>= f) := fun s => by rw [bind_apply, hf, hx]

/-- A command goes on in the state that its first part leaves, or ends with its error. -/
theorem run_bind_apply (x : ExceptT Error (StateM σ) α) (f : α → ExceptT Error (StateM σ) β)
    (s : σ) :
    (x >>= f).run s =
      match (x.run s).1 with
      | .ok a => (f a).run (x.run s).2
      | .error error => (.error error, (x.run s).2) := by
  rw [ExceptT.run_bind, bind_apply]
  cases (x.run s).1 <;> rfl

theorem Still.bindExcept {x : ExceptT Error (StateM σ) α} {f : α → ExceptT Error (StateM σ) β}
    (hx : Still x.run) (hf : ∀ a, Still (f a).run) : Still (x >>= f).run := by
  intro s
  rw [run_bind_apply, hx s]
  cases (x.run s).1 with
  | ok a => exact hf a s
  | error error => rfl

theorem Still.lift {x : StateM σ α} (hx : Still x) :
    Still (liftM x : ExceptT Error (StateM σ) α).run := hx.bind fun _ => still_pure _

theorem still_liftExcept (x : Except Error α) :
    Still (liftM x : ExceptT Error (StateM σ) α).run := by
  cases x <;> exact still_pure _

theorem still_readAs (steady : files.Steady) (parse? : String → Option α)
    (unread malformed : String → Error) (path : String) :
    Still (readAs files parse? unread malformed path).run := by
  refine (Still.lift (steady.read path)).bindExcept fun result => ?_
  cases result with
  | error error => exact still_pure _
  | ok text =>
    dsimp only
    cases parse? text <;> exact still_pure _

theorem still_loadConfig (steady : files.Steady) (path : String) (given : Option String) :
    Still (loadConfig files path given).run := by
  have placed (config : Config) : Still (ExceptT.run (do
      let directory ← files.directory
      pure { config with directory } : ExceptT Error (StateM σ) Config)) :=
    (Still.lift steady.directory).bindExcept fun _ => still_pure _
  cases given with
  | some file => exact (still_readAs steady _ _ _ file).bindExcept placed
  | none =>
    refine (Still.lift (steady.isFile _)).bindExcept fun isFile => ?_
    cases isFile with
    | true => exact (still_readAs steady _ _ _ _).bindExcept placed
    | false => exact placed {}

theorem still_lowered (steady : files.Steady) (path : String) :
    Still (lowered files path).run := by
  refine (still_readAs steady _ _ _ path).bindExcept fun program => ?_
  refine (still_loadConfig steady path none).bindExcept fun config => ?_
  exact (still_liftExcept _).bindExcept fun _ => still_pure _

theorem still_report (steady : files.Steady) (path : String) (error : Error) :
    Still (report files path error) := by
  refine Still.bind (steady.read _) fun result => ?_
  cases result <;> exact still_pure _

/-- A command that leaves the state as it is if it fails. -/
def Safe (x : ExceptT Error (StateM σ) α) : Prop :=
  ∀ s error, (x.run s).1 = .error error → (x.run s).2 = s

theorem Still.bind_safe {x : ExceptT Error (StateM σ) α} {f : α → ExceptT Error (StateM σ) β}
    (hx : Still x.run) (hf : ∀ a, Safe (f a)) : Safe (x >>= f) := by
  intro s error h
  rw [run_bind_apply, hx s] at h ⊢
  cases hr : (x.run s).1 with
  | ok a =>
    rw [hr] at h
    exact hf a s error h
  | error error => rfl

/-- If `emit` fails, it has not written. -/
theorem safe_runEmit (steady : files.Steady) (path : String) (options : EmitOptions) :
    Safe (runEmit files path options) := by
  refine (still_readAs steady _ _ _ path).bind_safe fun program => ?_
  refine (still_loadConfig steady path _).bind_safe fun config => ?_
  refine (still_liftExcept _).bind_safe fun text => ?_
  cases options.output with
  | none => exact fun _ _ _ => rfl
  | some output =>
    intro s error h
    rw [run_bind_apply] at h ⊢
    have ran : (liftM (files.write output text) : ExceptT Error (StateM σ) _).run s =
      (.ok (files.write output text s).1, (files.write output text s).2) := rfl
    rw [ran] at h ⊢
    dsimp only at h ⊢
    cases hw : (files.write output text s).1 with
    | ok _ =>
      rw [hw] at h
      cases h
    | error error => exact steady.refused hw

end Still

/-! ## Reports -/

section Reports

variable {σ α β : Type} {files : Files (StateM σ)}

/-- The reports of errors while the files are as they are. -/
def reports (files : Files (StateM σ)) (path : String) (errors : List Error) (s : σ) :
    List Report :=
  errors.map fun error => (report files path error s).1

theorem map_error_reports (path : String) (errors : List Error) (s : σ) :
    (reports files path errors s).map Report.error = errors := by
  have own (error : Error) : (report files path error s).1.error = error := by
    rw [report, bind_apply]
    cases (files.read (if error.file = "" then path else error.file) s).1 <;> rfl
  rw [reports, List.map_map]
  exact List.map_id'' own errors

/-- Reports are drawn up to the first on which the renderer gives up. -/
theorem reportAll_eq (steady : files.Steady) (renderer : Renderer) (path : String)
    (errors : List Error) (s : σ) :
    reportAll files renderer path errors s =
      (((reports files path errors s).takeWhile renderer.draws,
        (reports files path errors s).all renderer.draws), s) := by
  induction errors with
  | nil => rfl
  | cons error errors ih =>
    rw [reportAll, bind_apply, still_report steady path error s, reports, List.map_cons,
      List.takeWhile_cons, List.all_cons]
    cases renderer.draws (report files path error s).1 with
    | false => rfl
    | true =>
      rw [if_pos rfl, bind_apply, ih]
      rfl

/-- Every error of the command has parts. -/
def Speaks (x : ExceptT Error (StateM σ) α) : Prop :=
  ∀ s error, (x.run s).1 = .error error → error.parts ≠ []

theorem Speaks.bind {x : ExceptT Error (StateM σ) α} {f : α → ExceptT Error (StateM σ) β}
    (hx : Speaks x) (hf : ∀ a, Speaks (f a)) : Speaks (x >>= f) := by
  intro s error h
  rw [run_bind_apply] at h
  cases hr : (x.run s).1 with
  | ok a =>
    rw [hr] at h
    exact hf a _ error h
  | error error' =>
    rw [hr] at h
    cases h
    exact hx s error hr

theorem speaks_pure (a : α) : Speaks (pure a : ExceptT Error (StateM σ) α) := nofun

theorem speaks_throw {error : Error} (h : error.parts ≠ []) :
    Speaks (throw error : ExceptT Error (StateM σ) α) := by
  rintro s _ ⟨⟩
  exact h

theorem speaks_lift (x : StateM σ α) : Speaks (liftM x : ExceptT Error (StateM σ) α) := nofun

theorem speaks_readAs (files : Files (StateM σ)) (parse? : String → Option α)
    {unread malformed : String → Error} (hunread : ∀ text, (unread text).parts ≠ [])
    (hmalformed : ∀ text, (malformed text).parts ≠ []) (path : String) :
    Speaks (readAs files parse? unread malformed path) := by
  refine (speaks_lift _).bind fun result => ?_
  cases result with
  | error error => exact speaks_throw (hunread _)
  | ok text =>
    dsimp only
    cases parse? text with
    | some value => exact speaks_pure value
    | none => exact speaks_throw (hmalformed text)

theorem speaks_loadProgram (files : Files (StateM σ)) (path : String) :
    Speaks (loadProgram files path) := by
  refine speaks_readAs files Program.parse? (fun _ => ?_) (fun _ => ?_) path
  · exact List.cons_ne_nil _ _
  · exact List.cons_ne_nil _ _

theorem speaks_readConfig (files : Files (StateM σ)) (path : String) :
    Speaks (readConfig files path) := by
  refine speaks_readAs files Config.parse? (fun _ => ?_) (fun _ => ?_) path
  · exact List.cons_ne_nil _ _
  · exact List.cons_ne_nil _ _

theorem speaks_loadConfig (files : Files (StateM σ)) (path : String) :
    Speaks (loadConfig files path none) := by
  have placed (config : Config) : Speaks (do
      let directory ← files.directory
      pure { config with directory } : ExceptT Error (StateM σ) Config) :=
    (speaks_lift _).bind fun _ => speaks_pure _
  refine (speaks_lift _).bind fun isFile => ?_
  cases isFile with
  | true => exact (speaks_readConfig files _).bind placed
  | false => exact placed {}

/-- A refused program has something wrong with it. -/
theorem parts_of_lowerProgram {context : Context} {symbols : SymbolTable} {config : Config}
    {error : Error} (h : lowerProgram context symbols config = .error error) :
    error.parts ≠ [] := by
  have some {m : Ir.Module} {errors : List Error}
      (h : (if errors.isEmpty then .ok m else .error (.lowering errors)) = Except.error error) :
      error.parts ≠ [] := by
    split at h
    · cases h
    · rename_i some
      cases h
      exact fun none => some (List.isEmpty_iff.2 none)
  exact some h

theorem speaks_lowerProgram (context : Context) (symbols : SymbolTable) (config : Config) :
    Speaks (liftM (lowerProgram context symbols config) : ExceptT Error (StateM σ) _) := by
  cases h : lowerProgram context symbols config with
  | ok m => exact speaks_pure m
  | error error => exact speaks_throw (parts_of_lowerProgram h)

theorem speaks_lowered (files : Files (StateM σ)) (path : String) :
    Speaks (lowered files path) := by
  refine (speaks_loadProgram files path).bind fun program => ?_
  refine (speaks_loadConfig files path).bind fun config => ?_
  exact (speaks_lowerProgram _ _ _).bind fun _ => speaks_pure _

end Reports

/-- A renderer that gives up where the basic one does. -/
def Renderer.Regular (renderer : Renderer) : Prop :=
  ∀ report, renderer.draws report = !report.isBackward

/-- The outcome of a command with errors to report. -/
def Outcome.failed (all : List Report) : Outcome where
  exitCode := if all.any Report.isBackward then 101 else 1
  reports := all.takeWhile fun report => !report.isBackward

theorem Outcome.failed_of_forward {all : List Report} (h : ∀ report ∈ all, ¬ report.isBackward) :
    failed all = { exitCode := 1, reports := all } := by
  have none : all.any Report.isBackward = false := List.any_eq_false.2 h
  have whole : (all.takeWhile fun report => !report.isBackward) = all :=
    List.takeWhile_eq_self_iff.2 fun report hreport => by simp [h report hreport]
  rw [failed, none, whole]
  rfl

theorem Outcome.exitCode_failed_of_backward {all : List Report}
    (h : ∃ report ∈ all, report.isBackward) : (failed all).exitCode = 101 :=
  if_pos (List.any_eq_true.2 h)

section Failures

variable {σ : Type} {files : Files (StateM σ)} {renderer : Renderer} {path : String} {s : σ}
  {error : Error}

/-- The outcome of a failed command. -/
theorem printing_error {α : Type} (steady : files.Steady) (regular : renderer.Regular)
    (f : α → String) : (printing files renderer path f (.error error) s).1 =
      .failed (reports files path error.parts s) := by
  have draws : renderer.draws = fun report => !report.isBackward := funext regular
  rw [printing, bind_apply, reportAll_eq steady, draws, ← List.not_any_eq_all_not, Outcome.failed]
  cases (reports files path error.parts s).any Report.isBackward <;> rfl

/-- A command that prints what it makes of a value fails as the value does. -/
theorem run_map_error {α : Type} {x : ExceptT Error (StateM σ) α}
    (h : (x.run s).1 = .error error) (f : α → String) : ((f <$> x).run s).1 = .error error := by
  rw [ExceptT.run_map]
  exact congrArg (Except.map f) h

variable {arguments : List String} {f : Config × Ir.Module → String} (steady : files.Steady)
  (ran : run files renderer arguments =
    (lowered files path).run >>= printing files renderer path f)

include steady ran

theorem run_eq_printing (s : σ) : (run files renderer arguments s).1 =
    (printing files renderer path f ((lowered files path).run s).1 s).1 := by
  rw [ran, bind_apply, still_lowered steady path s]

theorem run_of_refused (regular : renderer.Regular)
    (refused : ((lowered files path).run s).1 = .error error) :
    (run files renderer arguments s).1 = .failed (reports files path error.parts s) := by
  rw [run_eq_printing steady ran, refused, printing_error steady regular]

theorem exitCode_run_of_lowered {x : Config × Ir.Module}
    (lowers : ((lowered files path).run s).1 = .ok x) :
    (run files renderer arguments s).1.exitCode = 0 := by
  rw [run_eq_printing steady ran, lowers]
  rfl

end Failures

namespace Sample

/-- A folder with a program whose only function is implemented without a body. -/
def bodyless : Folder := Folder.ofTexts
  [("p.json", "\x7b\"context\":\x7b\"impls\":[\x7b\"name\":\"f\",\"return_type\":" ++
    "\x7b\"name\":\"i64\"\x7d\x7d]\x7d,\"symbols\":\x7b\x7d\x7d")]

/-- A folder with a program whose only function leaves a loop where there is none; the place of the
jump ends before it starts. -/
def backward : Folder := Folder.ofTexts
  [("p.json", "\x7b\"context\":\x7b\"impls\":[\x7b\"name\":\"f\",\"return_type\":" ++
    "\x7b\"name\":\"i64\"\x7d,\"block\":\x7b\"node\":\x7b\"kind\":\"break\"\x7d,\"span\":" ++
    "\x7b\"start\":5,\"end\":0\x7d\x7d\x7d]\x7d,\"symbols\":\x7b\x7d\x7d")]

end Sample

end CommandLine

end Codegen
